import Revl.Recovery.RollForward

/-!
# What was never approved

A deferred emission is approved by the approval that stands after it. The surface for a log
with the terminal marker reads approval by position. The window does not: an emission deferred
after the last approval is owed there, or fired.

- `DeferralClass`: flushed, owed or dropped; an emission that was fired again was owed.
- `rollForwardWindow_classes`, `deferralCrosscheck_classes`: the classes the two surfaces give.
- `FiresOnlyApproved`: nothing after the last approval is owed or fired, and the surfaces agree.
- `firesOnlyApproved_iff`: **so it is exactly when nothing was deferred after it**.
-/

namespace Revl.Recovery

/-- What became of a deferred emission. -/
inductive DeferralClass where
  | flushed
  | owed
  | dropped
  deriving DecidableEq, Repr

/-- The classes the window reports. An emission it fired again was owed when it was read. -/
def Window.classes (s : Window) : List (Named × DeferralClass) :=
  s.flushed.map (·, .flushed) ++ s.owed.map (fun o => (o.name, .owed)) ++
    s.reissued.map fun r => (r.name, .owed)

/-- The classes the other surface reports. -/
def Crosscheck.classes (c : Crosscheck) : List (Named × DeferralClass) :=
  c.flushed.map (·, .flushed) ++ c.owed.map (fun o => (o.name, .owed)) ++
    c.dropped.map (·, .dropped)

/-- The class of an approved emission. -/
def approvedClass (records : List WalRecord) (d : Deferred) : Named × DeferralClass :=
  (deferredName d, if d.seq.any (· ∈ flushedOf records) then .flushed else .owed)

/-! ## The last approval -/

theorem afterLast_suffix {p : WalRecord → Bool} {records tail : List WalRecord}
    (h : afterLast p records = some tail) : tail <:+ records := by
  induction records with
  | nil => cases h
  | cons r rest ih =>
    rw [afterLast] at h
    cases hrest : afterLast p rest with
    | some t =>
      rw [hrest] at h ih
      exact (ih h).trans (List.suffix_cons r rest)
    | none =>
      rw [hrest] at h
      simp only at h
      split_ifs at h
      exact Option.some.inj h ▸ List.suffix_cons r rest

theorem afterApproval_suffix (records : List WalRecord) : afterApproval records <:+ records := by
  unfold afterApproval
  cases h : afterLast isCommitApproved records with
  | none => exact List.suffix_refl records
  | some tail => exact afterLast_suffix h

/-- A log is what the last approval stands after, and the rest. -/
theorem upToApproval_append (records : List WalRecord) :
    upToApproval records ++ afterApproval records = records := by
  obtain ⟨front, hfront⟩ := afterApproval_suffix records
  have hlength : records.length - (afterApproval records).length = front.length := by
    have := congrArg List.length hfront
    rw [List.length_append] at this
    omega
  have htake : upToApproval records = front := by
    rw [upToApproval, hlength]
    nth_rewrite 1 [← hfront]
    exact List.take_left
  rw [htake, hfront]

theorem deferredOf_split (records : List WalRecord) :
    deferredOf records =
      deferredOf (upToApproval records) ++ deferredOf (afterApproval records) := by
  nth_rewrite 1 [← upToApproval_append records]
  exact List.filterMap_append

/-! ## The classes the two surfaces give -/

section Classes

variable {α : Type} (f o r : List α) (a : α)

theorem perm_first : ((f ++ [a]) ++ o ++ r).Perm (f ++ o ++ r ++ [a]) := by
  rw [List.append_assoc, List.append_assoc, List.append_assoc f, List.append_assoc f]
  refine List.Perm.append_left f ?_
  rw [List.append_assoc]
  show ([a] ++ (o ++ r)).Perm _
  rw [← List.append_assoc o]
  exact List.perm_append_comm

theorem perm_second : (f ++ (o ++ [a]) ++ r).Perm (f ++ o ++ r ++ [a]) := by
  rw [← List.append_assoc f, List.append_assoc, List.append_assoc (f ++ o) r]
  exact List.Perm.append_left (f ++ o) List.perm_append_comm

end Classes

theorem reissueOwed_name {w : World} {durable : Bool} {trace : List Event} {d : Deferred}
    {entry : Reissued} (h : (reissueOwed w durable trace d).2 = .ok entry) :
    entry.name = deferredName d := by
  unfold reissueOwed at h
  split_ifs at h
  · unfold reissueThroughBinding at h
    simp only at h
    split_ifs at h
    all_goals
      obtain rfl := Except.ok.inj h
      rfl
  · simp only at h
    split at h
    · cases h
    · obtain rfl := Except.ok.inj h
      rfl

/-- The window reports each deferred emission once, in its class. -/
theorem windowStep_classes (w : World) (durable : Bool) (strength : Option Strength)
    (records : List WalRecord) (s : Window) (d : Deferred) :
    (windowStep w durable strength records s d).classes.Perm
      (s.classes ++ [approvedClass records d]) := by
  have howed : ∀ (trace : List Event) (outcome : OwedOutcome) (out : List Residue),
      Window.classes ⟨trace, s.flushed, s.owed ++ [⟨deferredName d, outcome⟩], s.reissued, out⟩
        |>.Perm (s.classes ++ [(deferredName d, .owed)]) := by
    intro trace outcome out
    unfold Window.classes
    rw [List.map_append, List.map_singleton]
    exact perm_second _ _ _ _
  unfold windowStep approvedClass
  simp only
  by_cases hflushed : d.seq.any (· ∈ flushedOf records) = true
  · rw [if_pos hflushed, if_pos hflushed]
    unfold Window.classes
    rw [List.map_append, List.map_singleton]
    exact perm_first _ _ _ _
  · rw [if_neg hflushed, if_neg hflushed]
    cases Assoc.get? (flushFailedOf records) d.seq with
    | some recorded => exact howed _ _ _
    | none =>
      simp only
      split_ifs with hreissue hspent
      · split
        · next entry hentry =>
          -- an emission that was fired is reported under its own name
          have hname : entry.name = deferredName d := reissueOwed_name hentry
          unfold Window.classes
          rw [List.map_append, List.map_singleton, hname, ← List.append_assoc]
        · exact howed _ _ _
      · exact howed _ _ _
      · exact howed _ _ _

theorem rollForwardWindow_classes (w : World) (durable : Bool) (strength : Option Strength)
    (records : List WalRecord) :
    (rollForwardWindow w durable strength records).classes.Perm
      ((deferredOf records).map (approvedClass records)) := by
  unfold rollForwardWindow
  simp only
  suffices h : ∀ (ds : List Deferred) (s : Window),
      (ds.foldl (windowStep w durable strength records) s).classes.Perm
        (s.classes ++ ds.map (approvedClass records)) from h _ _
  intro ds
  induction ds with
  | nil =>
    intro s
    rw [List.map_nil, List.append_nil]
    exact List.Perm.refl _
  | cons d ds ih =>
    intro s
    have hstep := windowStep_classes w durable strength records s d
    have hrest := (ih _).trans (hstep.append_right (ds.map (approvedClass records)))
    rwa [List.append_assoc] at hrest

/-- An approved emission is reported once, in its class. -/
theorem crosscheckStep_classes (records : List WalRecord) (c : Crosscheck) (d : Deferred)
    (hdropped : c.dropped = []) :
    (crosscheckStep (flushedOf records) (flushFailedOf records) c d).classes.Perm
        (c.classes ++ [approvedClass records d]) ∧
      (crosscheckStep (flushedOf records) (flushFailedOf records) c d).dropped = [] := by
  have howed : ∀ (outcome : OwedOutcome) (out : List Residue),
      (Crosscheck.classes ⟨c.flushed, c.owed ++ [⟨deferredName d, outcome⟩], c.dropped, out⟩).Perm
        (c.classes ++ [(deferredName d, .owed)]) := by
    intro outcome out
    unfold Crosscheck.classes
    rw [List.map_append, List.map_singleton]
    exact perm_second _ _ _ _
  unfold crosscheckStep approvedClass
  by_cases hflushed : d.seq.any (· ∈ flushedOf records) = true
  · rw [if_pos hflushed, if_pos hflushed]
    unfold Crosscheck.classes
    rw [List.map_append, List.map_singleton]
    exact ⟨perm_first _ _ _ _, hdropped⟩
  · rw [if_neg hflushed, if_neg hflushed]
    split
    · exact ⟨howed _ _, hdropped⟩
    · exact ⟨howed _ _, hdropped⟩

/-- The other surface reports what is approved in the same classes, and drops the rest. -/
theorem deferralCrosscheck_classes (records : List WalRecord) :
    (deferralCrosscheck records).classes.Perm
      ((deferredOf (upToApproval records)).map (approvedClass records) ++
        (deferredOf (afterApproval records)).map fun d => (deferredName d, .dropped)) := by
  have hfold : ∀ (ds : List Deferred) (c : Crosscheck), c.dropped = [] →
      let c' := ds.foldl (crosscheckStep (flushedOf records) (flushFailedOf records)) c
      c'.classes.Perm (c.classes ++ ds.map (approvedClass records)) ∧ c'.dropped = [] := by
    intro ds
    induction ds with
    | nil =>
      intro c hc
      simpa using hc
    | cons d ds ih =>
      intro c hc
      obtain ⟨hstep, hdropped⟩ := crosscheckStep_classes records c d hc
      obtain ⟨hrest, hnone⟩ := ih _ hdropped
      have := hrest.trans (hstep.append_right (ds.map (approvedClass records)))
      rw [List.append_assoc] at this
      exact ⟨this, hnone⟩
  obtain ⟨hclasses, hnone⟩ := hfold (deferredOf (upToApproval records)) ⟨[], [], [], []⟩ rfl
  have happroved : ∀ c : Crosscheck, c.dropped = [] → ∀ dropped,
      Crosscheck.classes { c with dropped := dropped } =
        c.classes ++ dropped.map (·, .dropped) := by
    intro c hc dropped
    simp [Crosscheck.classes, hc]
  unfold deferralCrosscheck
  simp only
  rw [happroved _ hnone, List.map_map]
  exact hclasses.append_right _

/-! ## What fires only what was approved -/

/-- Nothing deferred after the last approval is owed or fired, and each deferred emission has
the class the other surface gives it. -/
def FiresOnlyApproved (w : World) (durable : Bool) (strength : Option Strength)
    (records : List WalRecord) : Prop :=
  let report := rollForwardWindow w durable strength records
  (∀ d ∈ deferredOf (afterApproval records),
      deferredName d ∉ report.owed.map Owed.name ∧
        deferredName d ∉ report.reissued.map Reissued.name) ∧
    report.classes.Perm (deferralCrosscheck records).classes

/-- **The window fires only what was approved exactly when nothing was deferred after the last
approval**, whatever the re-issue strength and the world. -/
theorem firesOnlyApproved_iff (w : World) (durable : Bool) (strength : Option Strength)
    (records : List WalRecord) :
    FiresOnlyApproved w durable strength records ↔ deferredOf (afterApproval records) = [] := by
  constructor
  · rintro ⟨-, hagree⟩
    have hclasses := (rollForwardWindow_classes w durable strength records).symm.trans
      (hagree.trans (deferralCrosscheck_classes records))
    refine List.eq_nil_iff_forall_not_mem.2 fun d hd => ?_
    -- what the other surface drops, the window has in no class
    have hdropped : (deferredName d, DeferralClass.dropped) ∈
        (deferredOf records).map (approvedClass records) :=
      hclasses.mem_iff.2 (List.mem_append_right _ (List.mem_map_of_mem hd))
    obtain ⟨d', -, hclass⟩ := List.mem_map.1 hdropped
    have := congrArg Prod.snd hclass
    unfold approvedClass at this
    simp only at this
    split_ifs at this
  · intro hnone
    refine ⟨?_, ?_⟩
    · rw [hnone]
      intro d hd
      cases hd
    · refine (rollForwardWindow_classes w durable strength records).trans ?_
      refine List.Perm.trans ?_ (deferralCrosscheck_classes records).symm
      rw [deferredOf_split records, hnone, List.append_nil, List.map_nil, List.append_nil]

/-- A log whose one deferred emission stands after its one approval. -/
def deferredAfterApproval : List WalRecord :=
  [.commitApproved (some "h"), .deferred ⟨some 1, ⟨some "mail", some "send", some []⟩,
    ⟨none, none, none, [], none⟩, none, none⟩]

/-- The window owes an emission nobody approved. -/
theorem not_firesOnlyApproved_deferredAfterApproval :
    ¬FiresOnlyApproved dictWorld true none deferredAfterApproval := by
  rintro ⟨hlater, -⟩
  have howed := (hlater _ List.mem_cons_self).1
  exact howed List.mem_cons_self

end Revl.Recovery
