import Revl.Recovery.Lanes

/-!
# An honest roll-back

A roll-back is clean when it leaves no residue record. Every closure-only effect it could not
undo has one. Through a composition binding a compensation may offset such an effect late, and
its record is taken back then, by the referent; two effects may have the same one.

- `Matched`: one residue record for each closure-only effect, in order, and one other record at
  least where an attempt is refused.
- `Honest`: a clean report left nothing out, and no record of an effect still out was taken back.
- `SharesOffsetReferent`: an effect the replay leaves out has the referent of one it offsets.
- `honest_iff`: **a report is honest exactly when no such pair is on the log**.
-/

namespace Revl.Recovery

def isUnreconstructible (o : Residue) : Bool := o.kind == .unreconstructible

/-- The referents with a closure-only residue record. -/
def closureOut (outstanding : List Residue) : List String :=
  (outstanding.filter isUnreconstructible).map Residue.referent

/-- Some residue that is not of a closure-only effect. -/
def HardResidue (outstanding : List Residue) : Prop :=
  ∃ o ∈ outstanding, isUnreconstructible o = false

/-- One residue record for each closure-only effect, and another one where an attempt was
refused. -/
structure Matched (outstanding : List Residue) (unreconstructible : List Unreconstructible)
    (fencedDeferred : List Named) : Prop where
  records : closureOut outstanding = unreconstructible.map Unreconstructible.stillOut
  refused : fencedDeferred ≠ [] → HardResidue outstanding

namespace Matched

variable {outstanding : List Residue} {unreconstructible : List Unreconstructible}
  {fencedDeferred : List Named}

theorem nil : Matched [] [] [] := ⟨rfl, fun h => absurd rfl h⟩

/-- A record that is not of a closure-only effect may come with a refused attempt. -/
theorem hard (h : Matched outstanding unreconstructible fencedDeferred) {o : Residue}
    (ho : isUnreconstructible o = false) (fencedDeferred' : List Named) :
    Matched (outstanding ++ [o]) unreconstructible fencedDeferred' := by
  refine ⟨?_, fun _ => ⟨o, List.mem_append_right _ List.mem_cons_self, ho⟩⟩
  unfold closureOut
  rw [List.filter_append, List.filter_singleton, ho, Bool.cond_false, List.append_nil]
  exact h.records

/-- A closure-only effect comes with its record. -/
theorem closure (h : Matched outstanding unreconstructible fencedDeferred) (e : Effect)
    (entry : Entry) (reason : Option String) (referent : String) :
    Matched (outstanding ++ [unreconstructibleRecord e reason referent])
      (unreconstructible ++ [⟨entry, reason, referent⟩]) fencedDeferred := by
  refine ⟨?_, fun hf => ?_⟩
  · have hrecord : closureOut [unreconstructibleRecord e reason referent] = [referent] := rfl
    have happend : closureOut (outstanding ++ [unreconstructibleRecord e reason referent]) =
        closureOut outstanding ++ [referent] := by
      rw [← hrecord]
      unfold closureOut
      rw [List.filter_append, List.map_append]
    rw [happend, h.records, List.map_append]
    rfl
  · obtain ⟨o, ho, hkind⟩ := h.refused hf
    exact ⟨o, List.mem_append_left _ ho, hkind⟩

end Matched

/-- `Matched`, of a state. -/
def RollBack.Matched (s : RollBack) : Prop :=
  Recovery.Matched s.outstanding s.unreconstructible s.fencedDeferred

theorem legacyStep_matched (w : World) (durable : Bool) (pairing : Pairing) (s : RollBack)
    (e : Effect) (h : s.Matched) : (legacyStep w durable pairing s e).state.Matched := by
  unfold legacyStep
  cases pairing.described e with
  | some d => exact h
  | none =>
  cases pairing.offsetBy e with
  | some d => exact h
  | none =>
  cases referentKey w e with
  | none => exact h
  | some referent =>
  cases e.inverse with
  | closure reason => exact h.closure e _ reason referent
  | reconstructible op undoIdempotent register =>
    obtain ⟨trace, fencedSeqs, hfence⟩ := s.spendFence_eq w durable
      (replayTier register undoIdempotent) e.seq
    simp only [hfence]
    split_ifs
    · exact h
    · exact h.hard rfl _
    · exact h.hard rfl _
    · split <;> exact h

theorem transactionalStep_matched (w : World) (durable abortCompleted : Bool)
    (discharged : List Int) (s : RollBack) (d : Descriptor) (h : s.Matched) :
    (transactionalStep w durable abortCompleted discharged s d).state.Matched := by
  unfold transactionalStep
  obtain ⟨trace, fencedSeqs, hfence⟩ := s.spendFence_eq w durable
    (replayTier d.register d.undoIdempotent) (some d.seq)
  simp only [hfence]
  split_ifs
  · exact h
  · exact h
  · exact h.hard rfl _
  · exact h.hard rfl _
  · split
    · exact h.hard rfl _
    · exact h

theorem compensationStep_matched (w : World) (ranByAbort discharged : List Int) (s : RollBack)
    (d : Descriptor) (h : s.Matched) :
    (compensationStep w ranByAbort discharged s d).state.Matched := by
  unfold compensationStep
  simp only
  split_ifs
  · exact h
  · exact h
  · exact h.hard rfl _
  · split
    · exact h
    · exact h.hard rfl _

/-- A binding never answers that an effect is closure-only. -/
theorem bindingRecord_kind (w : World) (b : Bound) (state : BindingOutcome) :
    isUnreconstructible (bindingRecord w b state) = false := by
  cases state with
  | failed =>
    unfold isUnreconstructible bindingRecord bindingText
    simp only
    split_ifs <;> rfl
  | _ => rfl

theorem uncapturedRecord_kind (b : Bound) : isUnreconstructible (uncapturedRecord b) = false := by
  unfold isUnreconstructible uncapturedRecord
  simp only
  split_ifs <;> rfl

theorem bindingStep_matched (w : World) (outcome : Option Int → BindingOutcome) (s : RollBack)
    (b : Bound) (h : s.Matched) : (bindingStep w outcome s b).Matched := by
  unfold bindingStep
  simp only
  split
  · split
    · exact h
    · split_ifs <;> exact h
  · exact h
  · have hhard := fun fenced => h.hard (bindingRecord_kind w b (outcome b.seq)) fenced
    split_ifs
    · exact hhard _
    · exact hhard _
    · exact hhard _

theorem replayThroughBinding_matched (w : World) (batch : List Bound) (s : RollBack)
    (h : s.Matched) : (replayThroughBinding w batch s).Matched := by
  unfold replayThroughBinding
  simp only
  refine List.foldlRecOn (motive := RollBack.Matched) _ _ ?_
    fun s hs b _ => bindingStep_matched w _ s b hs
  have huncaptured : RollBack.Matched ((batch.filter fun b => !replayable b).foldl
      (fun s b => s.report (uncapturedRecord b)) s) :=
    List.foldlRecOn (motive := RollBack.Matched) _ _ h
      fun s hs b _ => Recovery.Matched.hard hs (uncapturedRecord_kind b) _
  split_ifs
  · exact huncaptured
  · exact huncaptured

/-- The effect lane keeps one record for each closure-only effect. -/
theorem effectLane_matched {w : World} {durable : Bool} {wal : Wal} {s : RollBack}
    (h : effectLane w durable wal = .ok s) : s.Matched :=
  Outcome.runSteps_inv_ok h (show (seedEffects w wal).Matched from Matched.nil)
    fun e _ s hs => legacyStep_matched w durable _ s e hs

/-! ## Descriptors -/

/-- A descriptor that was run, rolled back or settled. -/
def Accounted (s : RollBack) (d : Descriptor) : Prop :=
  match d.entry with
  | .transactional =>
    (∃ x ∈ s.rolledBack, x.seq = d.seq) ∨ ∃ x ∈ s.settledByReplay, x.seq = some d.seq
  | .compensation =>
    (∃ x ∈ s.compensationsRan, x.seq = d.seq) ∨ (∃ x ∈ s.settledByReplay, x.seq = some d.seq) ∨
      ∃ x ∈ s.compensationsSettled, x.seq = some d.seq

theorem Accounted.grows {s t : RollBack} {d : Descriptor} (h : Accounted s d) (k : Grows s t) :
    Accounted t d := by
  unfold Accounted at *
  cases hentry : d.entry with
  | transactional =>
    rw [hentry] at h
    rcases h with ⟨x, hx, hseq⟩ | ⟨x, hx, hseq⟩
    · exact .inl ⟨x, k.rolledBack.subset hx, hseq⟩
    · exact .inr ⟨x, k.settledByReplay.subset hx, hseq⟩
  | compensation =>
    rw [hentry] at h
    rcases h with ⟨x, hx, hseq⟩ | ⟨x, hx, hseq⟩ | ⟨x, hx, hseq⟩
    · exact .inl ⟨x, k.compensationsRan.subset hx, hseq⟩
    · exact .inr (.inl ⟨x, k.settledByReplay.subset hx, hseq⟩)
    · exact .inr (.inr ⟨x, k.compensationsSettled.subset hx, hseq⟩)

theorem HardResidue.grows {s t : RollBack} (h : HardResidue s.outstanding) (k : Grows s t) :
    HardResidue t.outstanding := by
  obtain ⟨o, ho, hkind⟩ := h
  exact ⟨o, k.outstanding.subset ho, hkind⟩

theorem hardResidue_report (s : RollBack) {o : Residue} (ho : isUnreconstructible o = false) :
    HardResidue (s.report o).outstanding :=
  ⟨o, List.mem_append_right _ List.mem_cons_self, ho⟩

/-- Against a world that takes single calls an open descriptor is accounted for, or leaves
residue. -/
theorem unbound_accounted {w : World} {durable : Bool} {wal : Wal} {t : RollBack}
    (hbinding : w.replaysDescriptors = false) (h : rollBack w durable wal = .ok t)
    {d : Descriptor} (hd : d ∈ descriptorsOf wal.records)
    (hopen : d.seq ∉ dischargedOf wal.records) : Accounted t d ∨ HardResidue t.outstanding := by
  cases hentry : d.entry with
  | transactional =>
    have hmem : d ∈ transactionalOf wal.records := List.mem_filter.2 ⟨hd, by simpa using hentry⟩
    obtain ⟨s₁, s₂, -, hstep, hend⟩ := transactional_step hbinding h hmem
    suffices hreport : Accounted s₂ d ∨ HardResidue s₂.outstanding from
      hreport.imp (·.grows hend) (·.grows hend)
    unfold transactionalStep at hstep
    simp only [if_neg hopen] at hstep
    unfold Accounted
    rw [hentry]
    split_ifs at hstep
    · obtain rfl := Outcome.ok.inj hstep
      exact .inl (.inl ⟨_, List.mem_append_right _ List.mem_cons_self, rfl⟩)
    · obtain rfl := Outcome.ok.inj hstep
      exact .inr (hardResidue_report s₁ rfl)
    · obtain rfl := Outcome.ok.inj hstep
      exact .inr (hardResidue_report s₁ rfl)
    · split at hstep
      · obtain rfl := Outcome.ok.inj hstep
        exact .inr (hardResidue_report _ rfl)
      · obtain rfl := Outcome.ok.inj hstep
        exact .inl (.inl ⟨_, List.mem_append_right _ List.mem_cons_self, rfl⟩)
  | compensation =>
    have hmem : d ∈ compensationsOf wal.records := List.mem_filter.2 ⟨hd, by simpa using hentry⟩
    obtain ⟨s₁, s₂, hstep, hend⟩ := compensation_step hbinding h hmem
    suffices hreport : Accounted s₂ d ∨ HardResidue s₂.outstanding from
      hreport.imp (·.grows hend) (·.grows hend)
    unfold compensationStep at hstep
    simp only [if_neg hopen] at hstep
    unfold Accounted
    rw [hentry]
    split_ifs at hstep
    · obtain rfl := Outcome.ok.inj hstep
      exact .inl (.inr (.inr ⟨_, List.mem_append_right _ List.mem_cons_self, rfl⟩))
    · obtain rfl := Outcome.ok.inj hstep
      exact .inr (hardResidue_report s₁ rfl)
    · split at hstep
      · cases hstep
      · obtain rfl := Outcome.ok.inj hstep
        exact .inr (hardResidue_report _ rfl)

/-- One entry of the batch. -/
theorem bindingStep_accounted (w : World) (outcome : Option Int → BindingOutcome) (s : RollBack)
    (d : Descriptor) : Accounted (bindingStep w outcome s (.descriptor d)) d ∨
      HardResidue (bindingStep w outcome s (.descriptor d)).outstanding := by
  unfold bindingStep Accounted
  simp only
  cases hstate : outcome (Bound.descriptor d).seq with
  | ran =>
    left
    cases hentry : d.entry with
    | transactional => exact .inl ⟨_, List.mem_append_right _ List.mem_cons_self, rfl⟩
    | compensation => exact .inl ⟨_, List.mem_append_right _ List.mem_cons_self, rfl⟩
  | settled =>
    left
    cases hentry : d.entry with
    | transactional => exact .inr ⟨_, List.mem_append_right _ List.mem_cons_self, rfl⟩
    | compensation => exact .inr (.inl ⟨_, List.mem_append_right _ List.mem_cons_self, rfl⟩)
  | _ =>
    right
    have hhard := hardResidue_report s (bindingRecord_kind w (.descriptor d) (outcome d.seq))
    rw [← show Bound.seq (.descriptor d) = some d.seq from rfl, hstate] at hhard
    simp only
    split_ifs <;> exact hhard

/-- Reporting what is not captured changes the residue only. -/
theorem foldl_report (f : Bound → Residue) (bs : List Bound) (s : RollBack) :
    bs.foldl (fun s b => s.report (f b)) s =
      { s with outstanding := s.outstanding ++ bs.map f } := by
  induction bs generalizing s with
  | nil => simp
  | cons b bs ih =>
    rw [List.foldl_cons, ih]
    simp [RollBack.report]

/-- Every descriptor of the batch is accounted for, or leaves residue. -/
theorem replayThroughBinding_accounted (w : World) (batch : List Bound) (s : RollBack)
    {d : Descriptor} (hd : .descriptor d ∈ batch) :
    Accounted (replayThroughBinding w batch s) d ∨
      HardResidue (replayThroughBinding w batch s).outstanding := by
  unfold replayThroughBinding
  simp only
  by_cases hcaptured : replayable (.descriptor d) = true
  · have hmem : Bound.descriptor d ∈ batch.filter replayable :=
      List.mem_filter.2 ⟨hd, hcaptured⟩
    obtain ⟨s₁, -, hend⟩ := Outcome.foldl_mem Grows.refl (fun _ _ _ => Grows.trans)
      (fun b _ s => bindingStep_grows w _ s b) _ hmem
    exact (bindingStep_accounted w _ s₁ d).imp (·.grows hend) (·.grows hend)
  · right
    have hmem : Bound.descriptor d ∈ batch.filter fun b => !replayable b :=
      List.mem_filter.2 ⟨hd, by simpa using hcaptured⟩
    refine HardResidue.grows ?_ (List.foldlRecOn (motive := Grows _) _ _ (Grows.refl _)
      fun t ht b _ => ht.trans (bindingStep_grows w _ t b))
    rw [foldl_report]
    have hout : uncapturedRecord (.descriptor d) ∈ s.outstanding ++
        (batch.filter fun b => !replayable b).map uncapturedRecord :=
      List.mem_append_right _ (List.mem_map_of_mem hmem)
    split_ifs
    · exact ⟨_, hout, uncapturedRecord_kind _⟩
    · exact ⟨_, hout, uncapturedRecord_kind _⟩

/-! ## The second look at the offsets -/

/-- Whether the pairing offsets a closure-only effect. -/
def offsetNow (p : Pairing) (u : Unreconstructible) : Bool := (p.offsetBySeq u.entry.seq).isSome

/-- The referents of the effects the pairing offsets. -/
def offsetReferents (p : Pairing) (us : List Unreconstructible) : List String :=
  (us.filter (offsetNow p)).map Unreconstructible.stillOut

/-- Whether a residue record is of a closure-only effect with one of the referents. -/
def takenBack (referents : List String) (o : Residue) : Bool :=
  isUnreconstructible o && decide (o.referent ∈ referents)

theorem takenBack_cons (r : String) (referents : List String) (o : Residue) :
    takenBack (r :: referents) o =
      (isUnreconstructible o && o.referent == r || takenBack referents o) := by
  unfold takenBack
  by_cases hreferent : o.referent = r
  · cases isUnreconstructible o <;> simp [hreferent]
  · cases isUnreconstructible o <;> simp [hreferent]

/-- The second look keeps what the pairing does not offset, and takes back every record with the
referent of something it does. -/
theorem foldl_offsetStep (p : Pairing) (us : List Unreconstructible) (s : RollBack) :
    ∃ offset, us.foldl (offsetStep p) s =
      { s with
        unreconstructible := s.unreconstructible ++ us.filter fun u => !offsetNow p u
        offset := offset
        outstanding := s.outstanding.filter fun o => !takenBack (offsetReferents p us) o } := by
  induction us generalizing s with
  | nil => exact ⟨s.offset, by simp [takenBack, offsetReferents]⟩
  | cons u us ih =>
    obtain ⟨offset, hrest⟩ := ih (offsetStep p s u)
    refine ⟨offset, ?_⟩
    rw [List.foldl_cons, hrest]
    unfold offsetStep
    cases hu : p.offsetBySeq u.entry.seq with
    | none => simp [offsetNow, offsetReferents, hu]
    | some d =>
      simp only [offsetNow, offsetReferents, hu, List.filter_filter, List.filter_cons,
        Option.isSome_some, Bool.not_true, Bool.false_eq_true, if_false, if_true, List.map_cons,
        RollBack.mk.injEq, and_true, true_and]
      refine List.filter_congr fun o _ => ?_
      rw [takenBack_cons, Bool.not_or, Bool.and_comm]
      rfl

/-- What the second look takes back, in terms of the referents of the effects still out. -/
theorem closureOut_takenBack (referents : List String) (outstanding : List Residue) :
    closureOut (outstanding.filter fun o => !takenBack referents o) =
      (closureOut outstanding).filter fun r => decide (r ∉ referents) := by
  unfold closureOut
  rw [List.filter_filter, List.filter_map, List.filter_filter]
  refine congrArg (List.map Residue.referent) (List.filter_congr fun o _ => ?_)
  unfold takenBack
  cases isUnreconstructible o <;> simp

/-- Taking back by referent takes back the offset effects' own records, and no others, exactly
when no effect left out has an offset effect's referent. -/
theorem takenBack_exact_iff (p : Pairing) (us : List Unreconstructible) :
    (us.map Unreconstructible.stillOut).filter (fun r => decide (r ∉ offsetReferents p us)) =
        (us.filter fun u => !offsetNow p u).map Unreconstructible.stillOut ↔
      ∀ u ∈ us, offsetNow p u = false → u.stillOut ∉ offsetReferents p us := by
  rw [List.filter_map]
  constructor
  · intro heq u hu hleft hmem
    have hout : u.stillOut ∈ (us.filter fun u => !offsetNow p u).map Unreconstructible.stillOut :=
      List.mem_map_of_mem (List.mem_filter.2 ⟨hu, by simp [hleft]⟩)
    rw [← heq] at hout
    obtain ⟨u', hu', hsame⟩ := List.mem_map.1 hout
    have := (List.mem_filter.1 hu').2
    simp only [Function.comp_apply, decide_eq_true_eq] at this
    exact this (hsame ▸ hmem)
  · intro hdisjoint
    refine congrArg (List.map Unreconstructible.stillOut) (List.filter_congr fun u hu => ?_)
    cases hnow : offsetNow p u with
    | true =>
      have hmem : u.stillOut ∈ offsetReferents p us :=
        List.mem_map_of_mem (List.mem_filter.2 ⟨hu, hnow⟩)
      simp [hmem]
    | false => simpa using hdisjoint u hu hnow

/-! ## What a binding's replay offsets -/

/-- The closure-only effects of the effect lane. -/
def closureOnly (w : World) (p : Pairing) (e : Effect) : Option Unreconstructible :=
  if (p.described e).isSome || (p.offsetBy e).isSome then none
  else
    match referentKey w e, e.inverse with
    | some referent, .closure reason => some ⟨Entry.ofEffect e, reason, referent⟩
    | _, _ => none

/-- The boundary inverses a binding takes with the descriptors. -/
def boundLegacyOf (w : World) (p : Pairing) (e : Effect) : Option Bound :=
  if (p.described e).isSome || (p.offsetBy e).isSome then none
  else
    match referentKey w e, e.inverse with
    | some _, .reconstructible op _ _ => some (.legacy (Entry.ofEffect e) e op)
    | _, _ => none

/-- The batch a binding takes. -/
def replayBatch (w : World) (wal : Wal) : List Bound :=
  (ownEffects wal).reverse.filterMap (boundLegacyOf w wal.pairing) ++
    ((transactionalOf wal.records ++ compensationsOf wal.records).filter
      (·.seq ∉ dischargedOf wal.records)).map Bound.descriptor

/-- What the binding answers. -/
def replayAnswer (w : World) (wal : Wal) : Option Int → BindingOutcome :=
  w.replayDescriptors
    (effectSeeds w wal.pairing (ownEffects wal) ++
      descriptorSeeds w wal.pairing (descriptorsOf wal.records))
    (((replayBatch w wal).filter replayable).map Bound.handed)

/-- The seq an answer settles: a compensation that ran, or anything already settled. -/
def settledBy (answer : Option Int → BindingOutcome) (b : Bound) : Option Int :=
  match answer b.seq, b with
  | .ran, .descriptor d => if d.entry = .compensation then some d.seq else none
  | .settled, b => b.seq
  | _, _ => none

/-- The pairing once the binding answered. -/
def replayPairing (w : World) (wal : Wal) : Pairing :=
  wal.pairing.settle
    (((replayBatch w wal).filter replayable).filterMap (settledBy (replayAnswer w wal)))

/-- A closure-only effect the replay leaves out has the referent of one it offsets. -/
def SharesOffsetReferent (w : World) (wal : Wal) : Prop :=
  ∃ e ∈ ownEffects wal, ∃ e' ∈ ownEffects wal, ∃ u u',
    closureOnly w wal.pairing e = some u ∧ closureOnly w wal.pairing e' = some u' ∧
      u.stillOut = u'.stillOut ∧ offsetNow (replayPairing w wal) u = false ∧
        offsetNow (replayPairing w wal) u' = true

/-- The effect lane of a world with a binding. -/
structure BoundEffects (w : World) (p : Pairing) (trace : List Event) (done : List Effect)
    (s : RollBack) : Prop where
  trace : s.trace = trace
  unreconstructible : s.unreconstructible = done.filterMap (closureOnly w p)
  boundLegacy : s.boundLegacy = done.filterMap (boundLegacyOf w p)
  ran : s.compensationsRan = []
  settled : s.settledByReplay = []

theorem boundEffects_step {w : World} (hbinding : w.replaysDescriptors = true) (durable : Bool)
    (p : Pairing) {trace : List Event} {done : List Effect} {s : RollBack} (e : Effect)
    (h : BoundEffects w p trace done s) :
    ∃ t, legacyStep w durable p s e = .ok t ∧ BoundEffects w p trace (done ++ [e]) t := by
  have hskip : closureOnly w p e = none → boundLegacyOf w p e = none → ∀ t : RollBack,
      t.trace = s.trace → t.unreconstructible = s.unreconstructible →
      t.boundLegacy = s.boundLegacy → t.compensationsRan = s.compensationsRan →
      t.settledByReplay = s.settledByReplay → BoundEffects w p trace (done ++ [e]) t := by
    intro hclosure hlegacy t ht hu hb hc hs
    refine ⟨ht.trans h.trace, ?_, ?_, hc.trans h.ran, hs.trans h.settled⟩
    · rw [hu, h.unreconstructible, List.filterMap_append]
      simp [hclosure]
    · rw [hb, h.boundLegacy, List.filterMap_append]
      simp [hlegacy]
  unfold legacyStep
  cases hdescribed : p.described e with
  | some d =>
    exact ⟨_, rfl, hskip (by simp [closureOnly, hdescribed]) (by simp [boundLegacyOf, hdescribed])
      _ rfl rfl rfl rfl rfl⟩
  | none =>
  cases hoffset : p.offsetBy e with
  | some d =>
    exact ⟨_, rfl, hskip (by simp [closureOnly, hoffset]) (by simp [boundLegacyOf, hoffset])
      _ rfl rfl rfl rfl rfl⟩
  | none =>
  cases hreferent : referentKey w e with
  | none =>
    exact ⟨_, rfl, hskip (by simp [closureOnly, hreferent]) (by simp [boundLegacyOf, hreferent])
      _ rfl rfl rfl rfl rfl⟩
  | some referent =>
  cases hinverse : e.inverse with
  | closure reason =>
    refine ⟨_, rfl, h.trace, ?_, ?_, h.ran, h.settled⟩
    · show s.unreconstructible ++ _ = _
      rw [h.unreconstructible, List.filterMap_append]
      simp [closureOnly, hdescribed, hoffset, hreferent, hinverse]
    · rw [List.filterMap_append]
      show s.boundLegacy = _
      simpa [boundLegacyOf, hinverse] using h.boundLegacy
  | reconstructible op undoIdempotent register =>
    simp only [hbinding, if_true]
    refine ⟨_, rfl, h.trace, ?_, ?_, h.ran, h.settled⟩
    · rw [List.filterMap_append]
      simpa [closureOnly, hinverse] using h.unreconstructible
    · show s.boundLegacy ++ _ = _
      rw [h.boundLegacy, List.filterMap_append]
      simp [boundLegacyOf, hdescribed, hoffset, hreferent, hinverse]

/-- Against a world with a binding the effect lane runs through. -/
theorem boundEffects_lane {w : World} (hbinding : w.replaysDescriptors = true) (durable : Bool)
    (wal : Wal) :
    ∃ s, effectLane w durable wal = .ok s ∧
      BoundEffects w wal.pairing (effectSeeds w wal.pairing (ownEffects wal))
        (ownEffects wal).reverse s := by
  suffices h : ∀ (es done : List Effect) (s : RollBack) (trace : List Event),
      BoundEffects w wal.pairing trace done s →
      ∃ t, Outcome.runSteps (legacyStep w durable wal.pairing) es s = .ok t ∧
        BoundEffects w wal.pairing trace (done ++ es) t by
    obtain ⟨t, ht, hbound⟩ := h (ownEffects wal).reverse [] (seedEffects w wal) _
      ⟨rfl, rfl, rfl, rfl, rfl⟩
    exact ⟨t, ht, hbound⟩
  intro es
  induction es with
  | nil =>
    intro done s trace h
    exact ⟨s, rfl, by rwa [List.append_nil]⟩
  | cons e es ih =>
    intro done s trace h
    obtain ⟨t, ht, hnext⟩ := boundEffects_step hbinding durable wal.pairing e h
    obtain ⟨u, hu, hrest⟩ := ih _ t trace hnext
    refine ⟨u, ?_, ?_⟩
    · rw [Outcome.runSteps_cons, ht, Outcome.andThen_ok, hu]
    · rwa [List.append_assoc, List.singleton_append] at hrest

/-- What the batch settles. -/
theorem mem_replaySettled_foldl (w : World) (answer : Option Int → BindingOutcome)
    (bs : List Bound) (s : RollBack) (seq : Int) :
    seq ∈ (bs.foldl (bindingStep w answer) s).replaySettled ↔
      seq ∈ s.replaySettled ∨ seq ∈ bs.filterMap (settledBy answer) := by
  induction bs generalizing s with
  | nil => simp
  | cons b bs ih =>
    have hstep : seq ∈ (bindingStep w answer s b).replaySettled ↔
        seq ∈ s.replaySettled ∨ settledBy answer b = some seq := by
      unfold bindingStep settledBy RollBack.replaySettled
      simp only
      cases hanswer : answer b.seq with
      | ran =>
        cases b with
        | legacy entry e op => simp
        | descriptor d =>
          cases hentry : d.entry with
          | transactional => simp [hentry]
          | compensation =>
            simp only [hentry, List.map_append, List.map_cons, List.map_nil, List.mem_append,
              List.mem_singleton, if_true, Option.some.injEq, reduceCtorEq, if_false]
            rw [eq_comm, or_right_comm]
      | settled => simp [List.filterMap_append, or_assoc]
      | _ =>
        simp only
        split_ifs <;> simp [RollBack.report]
    rw [List.foldl_cons, ih, hstep, or_assoc, List.filterMap_cons]
    cases settledBy answer b with
    | none => simp
    | some n => simp [eq_comm]

theorem foldl_bindingStep_unreconstructible (w : World) (answer : Option Int → BindingOutcome)
    (bs : List Bound) (s : RollBack) :
    (bs.foldl (bindingStep w answer) s).unreconstructible = s.unreconstructible := by
  refine List.foldlRecOn (motive := fun t : RollBack =>
    t.unreconstructible = s.unreconstructible) _ _ rfl fun t ht b _ => ?_
  rw [← ht]
  unfold bindingStep
  simp only
  split
  · split
    · rfl
    · split_ifs <;> rfl
  · rfl
  · split_ifs <;> rfl

/-- What the batch leaves: the closure-only effects, and what the binding settled. -/
theorem replayThroughBinding_spec (w : World) (batch : List Bound) (s : RollBack)
    (hran : s.compensationsRan = []) (hsettled : s.settledByReplay = []) :
    (replayThroughBinding w batch s).unreconstructible = s.unreconstructible ∧
      ∀ seq, seq ∈ (replayThroughBinding w batch s).replaySettled ↔
        seq ∈ (batch.filter replayable).filterMap (settledBy
          (w.replayDescriptors s.trace ((batch.filter replayable).map Bound.handed))) := by
  unfold replayThroughBinding
  simp only
  rw [foldl_report, foldl_bindingStep_unreconstructible]
  refine ⟨?_, fun seq => ?_⟩
  · split_ifs <;> rfl
  · rw [mem_replaySettled_foldl]
    have hnone : seq ∉ s.replaySettled := by
      unfold RollBack.replaySettled
      rw [hran, hsettled]
      exact List.not_mem_nil
    split_ifs
    · exact or_iff_right hnone
    · exact or_iff_right hnone

/-- The pairing asks only which seqs are settled. -/
theorem offsetNow_settle_congr (p : Pairing) {l m : List Int} (h : ∀ seq, seq ∈ l ↔ seq ∈ m)
    (u : Unreconstructible) : offsetNow (p.settle l) u = offsetNow (p.settle m) u := by
  have hmem : ∀ seq, decide (seq ∈ (p.settle l).settled) = decide (seq ∈ (p.settle m).settled) := by
    intro seq
    unfold Pairing.settle
    simp [h]
  unfold offsetNow Pairing.offsetBySeq
  simp only [hmem]
  rfl

/-- The walk of a world with a binding, from the batch on. -/
theorem rollBack_bound {w : World} (hbinding : w.replaysDescriptors = true) (durable : Bool)
    (wal : Wal) :
    ∃ s₁ offset skipped, BoundEffects w wal.pairing
        (effectSeeds w wal.pairing (ownEffects wal)) (ownEffects wal).reverse s₁ ∧
      s₁.Matched ∧
      let s := replayThroughBinding w (replayBatch w wal) (seedDescriptors w wal s₁)
      let p := wal.pairing.settle s.replaySettled
      rollBack w durable wal = .ok { s with
        unreconstructible := s.unreconstructible.filter fun u => !offsetNow p u
        offset := offset
        outstanding := s.outstanding.filter fun o =>
          !takenBack (offsetReferents p s.unreconstructible) o
        dischargedSkipped := skipped } := by
  obtain ⟨s₁, heffect, hbound⟩ := boundEffects_lane hbinding durable wal
  have hbatch : s₁.boundLegacy ++ ((transactionalOf wal.records ++
      compensationsOf wal.records).filter (·.seq ∉ dischargedOf wal.records)).map
        Bound.descriptor = replayBatch w wal := by
    rw [hbound.boundLegacy]
    rfl
  let s := replayThroughBinding w (replayBatch w wal) (seedDescriptors w wal s₁)
  obtain ⟨offset, hoffset⟩ := foldl_offsetStep (wal.pairing.settle s.replaySettled)
    s.unreconstructible { s with unreconstructible := [] }
  refine ⟨s₁, offset, ?_, hbound, effectLane_matched heffect, ?_⟩
  rotate_left
  · simp only
    unfold rollBack
    rw [heffect, Outcome.andThen_ok]
    simp only [hbinding, if_true]
    unfold bindingLane
    simp only
    rw [show (seedDescriptors w wal s₁).boundLegacy = s₁.boundLegacy from rfl, hbatch]
    unfold offsetAgain
    rw [show replayThroughBinding w (replayBatch w wal) (seedDescriptors w wal s₁) = s from rfl,
      hoffset]
    rfl

/-! ## Honesty -/

/-- A clean report leaves nothing out: no closure-only effect, no refused attempt, no open
descriptor unaccounted for. And the effects still out are the ones with a closure-only residue
record. -/
def Honest (w : World) (durable : Bool) (wal : Wal) : Prop :=
  ∀ s, rollBack w durable wal = .ok s →
    ((rollBackReport w wal s).clean = true →
      s.unreconstructible = [] ∧ s.fencedDeferred = [] ∧
        ∀ d ∈ descriptorsOf wal.records, d.seq ∉ dischargedOf wal.records → Accounted s d) ∧
      closureOut s.outstanding = s.unreconstructible.map Unreconstructible.stillOut

/-- A state with its records matched, and every open descriptor accounted for or residue, makes
an honest report. -/
theorem honest_of_matched {w : World} {wal : Wal} {s : RollBack} (h : s.Matched)
    (hopen : ∀ d ∈ descriptorsOf wal.records, d.seq ∉ dischargedOf wal.records →
      Accounted s d ∨ HardResidue s.outstanding) :
    ((rollBackReport w wal s).clean = true →
      s.unreconstructible = [] ∧ s.fencedDeferred = [] ∧
        ∀ d ∈ descriptorsOf wal.records, d.seq ∉ dischargedOf wal.records → Accounted s d) ∧
      closureOut s.outstanding = s.unreconstructible.map Unreconstructible.stillOut := by
  refine ⟨fun hclean => ?_, h.records⟩
  have hnone : s.outstanding = [] := List.isEmpty_iff.1 hclean
  have hsoft : ¬HardResidue s.outstanding := by
    rintro ⟨o, ho, -⟩
    rw [hnone] at ho
    cases ho
  refine ⟨?_, ?_, fun d hd hd' => (hopen d hd hd').resolve_right hsoft⟩
  · have hrecords := h.records
    rw [hnone] at hrecords
    exact List.map_eq_nil_iff.1 hrecords.symm
  · by_contra hrefused
    exact hsoft (h.refused hrefused)

/-- Against a world that takes single calls every report is honest. -/
theorem honest_unbound {w : World} (hbinding : w.replaysDescriptors = false) (durable : Bool)
    (wal : Wal) : Honest w durable wal := by
  intro t ht
  obtain ⟨s₁, s₂, heffect, htransactional, hcompensation, -⟩ := rollBack_lanes hbinding ht
  have h₁ : s₁.Matched := effectLane_matched heffect
  have h₂ : s₂.Matched := Outcome.runSteps_inv_ok htransactional
    (show (seedDescriptors w wal s₁).Matched from h₁) fun d _ s hs => transactionalStep_matched w durable _ _ s d hs
  have h₃ : t.Matched := Outcome.runSteps_inv_ok hcompensation h₂
    fun d _ s hs => compensationStep_matched w _ _ s d hs
  exact honest_of_matched h₃ fun d hd hopen => unbound_accounted hbinding ht hd hopen

/-- A residue record that is not of a closure-only effect is never taken back. -/
theorem HardResidue.kept {outstanding : List Residue} (h : HardResidue outstanding)
    (referents : List String) :
    HardResidue (outstanding.filter fun o => !takenBack referents o) := by
  obtain ⟨o, ho, hkind⟩ := h
  exact ⟨o, List.mem_filter.2 ⟨ho, by simp [takenBack, hkind]⟩, hkind⟩

theorem mem_replayBatch {w : World} {wal : Wal} {d : Descriptor}
    (hd : d ∈ descriptorsOf wal.records) (hopen : d.seq ∉ dischargedOf wal.records) :
    .descriptor d ∈ replayBatch w wal := by
  refine List.mem_append_right _ (List.mem_map_of_mem (List.mem_filter.2 ⟨?_, by simpa using hopen⟩))
  cases hentry : d.entry with
  | transactional =>
    exact List.mem_append_left _ (List.mem_filter.2 ⟨hd, by simpa using hentry⟩)
  | compensation =>
    exact List.mem_append_right _ (List.mem_filter.2 ⟨hd, by simpa using hentry⟩)

/-- Two effects share a referent, one offset and one not, exactly when taking back by referent
is not exact. -/
theorem sharesOffsetReferent_iff (w : World) (wal : Wal) :
    SharesOffsetReferent w wal ↔
      ∃ u ∈ (ownEffects wal).reverse.filterMap (closureOnly w wal.pairing),
        offsetNow (replayPairing w wal) u = false ∧
          u.stillOut ∈ offsetReferents (replayPairing w wal)
            ((ownEffects wal).reverse.filterMap (closureOnly w wal.pairing)) := by
  constructor
  · rintro ⟨e, he, e', he', u, u', hu, hu', hsame, hleft, hoffset⟩
    refine ⟨u, List.mem_filterMap.2 ⟨e, List.mem_reverse.2 he, hu⟩, hleft, ?_⟩
    rw [hsame]
    exact List.mem_map_of_mem (List.mem_filter.2
      ⟨List.mem_filterMap.2 ⟨e', List.mem_reverse.2 he', hu'⟩, hoffset⟩)
  · rintro ⟨u, hu, hleft, hmem⟩
    obtain ⟨e, he, hu⟩ := List.mem_filterMap.1 hu
    obtain ⟨u', hu', hsame⟩ := List.mem_map.1 hmem
    obtain ⟨hu', hoffset⟩ := List.mem_filter.1 hu'
    obtain ⟨e', he', hu'⟩ := List.mem_filterMap.1 hu'
    exact ⟨e, List.mem_reverse.1 he, e', List.mem_reverse.1 he', u, u', hu, hu', hsame.symm, hleft,
      hoffset⟩

/-- Through a binding a report is honest exactly when taking back by referent is exact. -/
theorem honest_bound_iff {w : World} (hbinding : w.replaysDescriptors = true) (durable : Bool)
    (wal : Wal) : Honest w durable wal ↔ ¬SharesOffsetReferent w wal := by
  obtain ⟨s₁, offset, skipped, hbound, hmatched, hrun⟩ := rollBack_bound hbinding durable wal
  simp only at hrun
  set s := replayThroughBinding w (replayBatch w wal) (seedDescriptors w wal s₁) with hs
  set p := wal.pairing.settle s.replaySettled with hp
  have hspec := replayThroughBinding_spec w (replayBatch w wal) (seedDescriptors w wal s₁)
    hbound.ran hbound.settled
  rw [← hs] at hspec
  have hmatched' : s.Matched := replayThroughBinding_matched w _ _ hmatched
  have hus : s.unreconstructible =
      (ownEffects wal).reverse.filterMap (closureOnly w wal.pairing) :=
    hspec.1.trans hbound.unreconstructible
  have htrace : (seedDescriptors w wal s₁).trace = effectSeeds w wal.pairing (ownEffects wal) ++
      descriptorSeeds w wal.pairing (descriptorsOf wal.records) := by
    show s₁.trace ++ _ = _
    rw [hbound.trace]
  -- the pairing of the walk is the one the binding's answers give
  have hnow : offsetNow p = offsetNow (replayPairing w wal) := by
    funext u
    refine offsetNow_settle_congr wal.pairing (fun seq => ?_) u
    rw [hspec.2, htrace]
    rfl
  have hexact := takenBack_exact_iff p s.unreconstructible
  rw [sharesOffsetReferent_iff, ← hus]
  have hreferents : offsetReferents (replayPairing w wal) s.unreconstructible =
      offsetReferents p s.unreconstructible := by
    unfold offsetReferents
    rw [hnow]
  rw [hreferents, ← hnow]
  constructor
  · rintro h ⟨u, hu, hleft, hmem⟩
    have hrecords := (h _ hrun).2
    simp only [closureOut_takenBack, hmatched'.records] at hrecords
    exact hexact.1 hrecords u hu hleft hmem
  · intro hnone t ht
    obtain rfl := Outcome.ok.inj (hrun.symm.trans ht)
    refine honest_of_matched ⟨?_, ?_⟩ ?_
    · simp only [closureOut_takenBack, hmatched'.records]
      exact hexact.2 fun u hu hleft hmem => hnone ⟨u, hu, hleft, hmem⟩
    · intro hrefused
      exact (hmatched'.refused hrefused).kept _
    · intro d hd hopen
      have hreport := replayThroughBinding_accounted w _ (seedDescriptors w wal s₁)
        (mem_replayBatch (w := w) hd hopen)
      exact hreport.imp id (·.kept _)

/-- **A roll-back's report is honest, whatever the world, exactly when a binding's replay leaves
no closure-only effect out that has the referent of one it offsets.** -/
theorem honest_iff (w : World) (durable : Bool) (wal : Wal) :
    Honest w durable wal ↔ (w.replaysDescriptors = true → ¬SharesOffsetReferent w wal) := by
  cases hbinding : w.replaysDescriptors with
  | false => exact ⟨fun _ h => (by cases h), fun _ => honest_unbound hbinding durable wal⟩
  | true => exact (honest_bound_iff hbinding durable wal).trans ⟨fun h _ => h, fun h => h rfl⟩

/-- An emission made by one component with one argument. -/
def orderPlaced (seq : Int) : Effect where
  seq := some seq
  component := some "Shop"
  stepIndex := some seq
  kind := .emission
  label := some "orders.place"
  site := none
  origin := ⟨some "orders", none, some "place", [.str "A1"], none⟩
  boundary := ⟨.emission, some .processCrossing, none, some "orders", some "place", [.str "A1"]⟩
  inverse := .closure (some "an emission has no inverse")
  within := none

/-- The same emission made twice, the first one with a compensation. -/
def placedTwice : Wal where
  records := [.effect (orderPlaced 1), .effect (orderPlaced 2),
    .descriptor ⟨3, .compensation, ⟨some "orders", some "cancel", some [.str "A1"]⟩,
      ⟨some "orders", none, some "place", [.str "A1"], none⟩, none, false, none, some 1⟩]
  torn := false
  callers _ := []

/-- A composition binding that runs everything it is handed. -/
def runningBinding : World :=
  { dictWorld with
    kind := .real
    replaysDescriptors := true
    reIssuesCalls := false
    reissuesDeferred := true
    reclaimsShared := true
    replayDescriptors := fun _ _ _ => .ran }

/-- The compensation of the first order takes back the residue of the second. -/
theorem not_honest_placedTwice : ¬Honest runningBinding true placedTwice := by
  rw [honest_bound_iff rfl, not_not]
  exact ⟨orderPlaced 2, by simp [mem_ownEffects, placedTwice, isNested, enclosed, orderPlaced],
    orderPlaced 1, by simp [mem_ownEffects, placedTwice, isNested, enclosed, orderPlaced],
    _, _, rfl, rfl, rfl, rfl, rfl⟩

end Revl.Recovery
