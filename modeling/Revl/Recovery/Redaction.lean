import Revl.Recovery.AbortScope
import Revl.Recovery.Recover

/-!
# Redacted arguments

A redacted argument is a placeholder. A call with one must not be issued again: it would go to
another referent. Three of the five lanes look for it; the effect lane and the shared grants do
not.

- `NoRedactedCall`: no call handed to the world has a redacted argument.
- `RefusedAreResidue`: a call that was due and has one ends as residue.
- `RedactionSafe`: no such call is due in the two lanes that do not look.
- `neverReissued_iff`: **recovery never issues a redacted call exactly when none is due there**.
-/

namespace Revl.Recovery

/-- No call handed to `apply_inverse`, `apply_compensation` or `reissue` has a redacted
argument. -/
def NoRedactedCall (events : List Event) : Prop :=
  ∀ event ∈ events, ∀ op, event.call? = some op → hasRedactedArg op = false

namespace NoRedactedCall

theorem nil : NoRedactedCall [] := fun _ h => by cases h

theorem append {l m : List Event} (hl : NoRedactedCall l) (hm : NoRedactedCall m) :
    NoRedactedCall (l ++ m) := by
  intro event hevent
  rcases List.mem_append.1 hevent with h | h
  · exact hl event h
  · exact hm event h

theorem singleton {event : Event} (h : ∀ op, event.call? = some op → hasRedactedArg op = false) :
    NoRedactedCall [event] := by
  intro e he
  obtain rfl := List.mem_singleton.1 he
  exact h

/-- An event that is no call. -/
theorem silent {event : Event} (h : event.call? = none) : NoRedactedCall [event] :=
  singleton fun op hop => by rw [h] at hop; cases hop

/-- A call without a redacted argument. -/
theorem call {event : Event} {op : Call} (h : event.call? = some op)
    (hop : ¬hasRedactedArg op = true) : NoRedactedCall [event] :=
  singleton fun op' hop' => by
    rw [h] at hop'
    obtain rfl := Option.some.inj hop'
    simpa using hop

end NoRedactedCall

/-- A fence is no call. -/
theorem noRedactedCall_spendFence {s : RollBack} (h : NoRedactedCall s.trace) (w : World)
    (durable : Bool) (tier : Tier) (seq : Option Int) :
    NoRedactedCall (s.spendFence w durable tier seq).trace := by
  unfold RollBack.spendFence
  cases seq with
  | none => exact h
  | some n =>
    simp only
    split_ifs
    · exact h.append (.silent rfl)
    · exact h

/-! ## The two lanes that do not look -/

/-- A boundary inverse with a redacted argument that the effect lane issues. -/
structure IssuedRedacted (wal : Wal) (e : Effect) (op : Call) (undoIdempotent : Bool)
    (register : Option Register) : Prop where
  own : e ∈ ownEffects wal
  undescribed : wal.pairing.described e = none
  notOffset : wal.pairing.offsetBy e = none
  outlives : outlives e.boundary.referent = true
  inverse : e.inverse = .reconstructible op undoIdempotent register
  redacted : hasRedactedArg op = true
  unfenced : ¬(replayTier register undoIdempotent = .fenced ∧ e.seq ∈ replayFencesOf wal.records)

/-- A shared grant that is still owed, with no fence. -/
structure OwedGrant (records : List WalRecord) (g : Grant) : Prop where
  latest : g ∈ latestGrants records
  incomplete : g.handle ∉ sharedCompletedOf records
  unfenced : g.handle ∉ sharedFencesOf records
  held : g.holders ≠ []

/-- The logs recovery rolls back. -/
structure RollsBack (wal : Wal) : Prop where
  alive : frozenAt wal.records = none
  incomplete : wal.complete = false
  unapproved : wal.records.any isCommitApproved = false

/-- No redacted call is due in the two lanes that do not look for one. -/
structure RedactionSafe (wal : Wal) : Prop where
  effects : RollsBack wal → ∀ e op undoIdempotent register,
    ¬IssuedRedacted wal e op undoIdempotent register
  grants : frozenAt wal.records = none → ∀ g, OwedGrant wal.records g →
    hasRedactedArg g.inverse = false

/-! ## What a call that was due ends as -/

/-- A residue record about a forward crossing. -/
def HasResidue (outstanding : List Residue) (crossing : Crossing) : Prop :=
  ∃ o ∈ outstanding, o.crossing = crossing

/-- The redacted calls of a roll-back, in its report. -/
structure RollBackRefuses (wal : Wal) (s : RollBack) : Prop where
  effects : ∀ e ∈ ownEffects wal, wal.pairing.described e = none →
    wal.pairing.offsetBy e = none → outlives e.boundary.referent = true →
    ∀ op undoIdempotent register, e.inverse = .reconstructible op undoIdempotent register →
      hasRedactedArg op = true → HasResidue s.outstanding (crossingOfEffect e)
  transactional : ∀ d ∈ transactionalOf wal.records, d.seq ∉ dischargedOf wal.records →
    hasRedactedArg d.call = true →
      CountedByAbort s d.seq ∨ HasResidue s.outstanding (crossingOfDescriptor d)
  compensations : ∀ d ∈ compensationsOf wal.records, d.seq ∉ abortedOf wal.records →
    d.seq ∉ dischargedOf wal.records → hasRedactedArg d.call = true →
      HasResidue s.outstanding (crossingOfDescriptor d)

/-- The redacted emissions of a window, in its report. -/
def WindowRefuses (records : List WalRecord) (s : Window) : Prop :=
  ∀ d ∈ deferredOf records, d.seq.any (· ∈ flushedOf records) = false →
    hasRedactedArg d.call = true → HasResidue s.outstanding (crossingOfDeferred d)

/-- The redacted grants, in the report. -/
def GrantsRefused (records : List WalRecord) (reclaims : List Reclaim) : Prop :=
  ∀ g ∈ latestGrants records, g.handle ∉ sharedCompletedOf records → g.holders ≠ [] →
    hasRedactedArg g.inverse = true → ∃ r ∈ reclaims, r.handle = g.handle ∧ r.ok = false

/-- A call that was due and has a redacted argument ends as residue. -/
def RefusedAreResidue (wal : Wal) (r : Recovered) : Prop :=
  match r.verdict with
  | none => True
  | some (.forkRetired _) => True
  | some (.rolledForward _) => GrantsRefused wal.records r.reclaims
  | some (.window report) =>
    WindowRefuses wal.records report.toWindow ∧ GrantsRefused wal.records r.reclaims
  | some (.rolledBack report) =>
    RollBackRefuses wal report.toRollBack ∧ GrantsRefused wal.records r.reclaims

/-- Recovery issues no redacted call, and reports each one that was due. -/
def NeverReissued (w : World) (strength : Option Strength) (basis : Basis) (wal : Wal) : Prop :=
  let r := recover w strength basis wal
  NoRedactedCall r.trace ∧ RefusedAreResidue wal r

theorem referentKey_isSome (w : World) (e : Effect) :
    (referentKey w e).isSome = outlives e.boundary.referent := by
  unfold referentKey
  cases outlives e.boundary.referent with
  | false => rfl
  | true => cases e.inverse <;> rfl

/-! ## The calls of the lanes -/

section Lanes

variable {w : World} {durable : Bool} {wal : Wal}

/-- The effect lane, where nothing redacted is due. -/
theorem legacyStep_noRedactedCall
    (hsafe : ∀ e op undoIdempotent register, ¬IssuedRedacted wal e op undoIdempotent register)
    (hbinding : w.replaysDescriptors = false) {s : RollBack} {e : Effect}
    (he : e ∈ ownEffects wal) (hfences : replayFencesOf wal.records ⊆ s.fencedSeqs)
    (h : NoRedactedCall s.trace) :
    NoRedactedCall (legacyStep w durable wal.pairing s e).state.trace := by
  unfold legacyStep
  cases hdescribed : wal.pairing.described e with
  | some d => exact h
  | none =>
  cases hoffset : wal.pairing.offsetBy e with
  | some d => exact h
  | none =>
  cases hreferent : referentKey w e with
  | none => exact h
  | some referent =>
  cases hinverse : e.inverse with
  | closure reason => exact h
  | reconstructible op undoIdempotent register =>
    simp only [hbinding, Bool.false_eq_true, if_false]
    split_ifs with hcalls hfenced
    · exact h
    · exact h
    · have hclean : ¬hasRedactedArg op = true := by
        intro hredacted
        refine hsafe e op undoIdempotent register
          ⟨he, hdescribed, hoffset, ?_, hinverse, hredacted, ?_⟩
        · rw [← referentKey_isSome w, hreferent]
          rfl
        · rintro ⟨htier, hseq⟩
          exact hfenced ⟨htier, hfences hseq⟩
      have hcalled : NoRedactedCall ((s.spendFence w durable
          (replayTier register undoIdempotent) e.seq).emit (.applyInverse
            (.legacy e.seq (replayTier register undoIdempotent)) op)).trace :=
        (noRedactedCall_spendFence h w durable _ _).append (.call rfl hclean)
      split <;> exact hcalled

theorem transactionalStep_noRedactedCall {abortCompleted : Bool} {discharged : List Int}
    {s : RollBack} {d : Descriptor} (h : NoRedactedCall s.trace) :
    NoRedactedCall (transactionalStep w durable abortCompleted discharged s d).state.trace := by
  unfold transactionalStep
  simp only
  split_ifs with hdischarged hfenced habort hredacted
  · exact h
  · exact h
  · exact h
  · exact h
  · have hcalled : NoRedactedCall ((s.spendFence w durable
        (replayTier d.register d.undoIdempotent) (some d.seq)).emit (.applyInverse
          (.transactional d.seq (replayTier d.register d.undoIdempotent)) d.call)).trace :=
      (noRedactedCall_spendFence h w durable _ _).append (.call rfl hredacted)
    split <;> exact hcalled

theorem compensationStep_noRedactedCall {ranByAbort discharged : List Int} {s : RollBack}
    {d : Descriptor} (h : NoRedactedCall s.trace) :
    NoRedactedCall (compensationStep w ranByAbort discharged s d).state.trace := by
  unfold compensationStep
  simp only
  split_ifs with hran hdischarged hredacted
  · exact h
  · exact h
  · exact h
  · have hcalled : NoRedactedCall (s.emit (.applyCompensation d.call)).trace :=
      h.append (.call rfl hredacted)
    split <;> exact hcalled

theorem effectSeeds_noRedactedCall (p : Pairing) (es : List Effect) :
    NoRedactedCall (effectSeeds w p es) := by
  intro event hevent op hop
  obtain ⟨e, -, he⟩ := List.mem_filterMap.1 hevent
  split_ifs at he
  obtain ⟨referent, -, rfl⟩ := Option.map_eq_some_iff.1 he
  cases hop

theorem descriptorSeeds_noRedactedCall (p : Pairing) (ds : List Descriptor) :
    NoRedactedCall (descriptorSeeds w p ds) := by
  intro event hevent op hop
  obtain ⟨d, -, hd⟩ := List.mem_filterMap.1 hevent
  split_ifs at hd
  cases hd
  cases hop

/-- The whole walk, raised or not. -/
theorem rollBack_noRedactedCall
    (hsafe : ∀ e op undoIdempotent register, ¬IssuedRedacted wal e op undoIdempotent register)
    (hbinding : w.replaysDescriptors = false) :
    NoRedactedCall (rollBack w durable wal).state.trace := by
  unfold rollBack
  simp only [hbinding, Bool.false_eq_true, if_false]
  let P := fun s : RollBack => NoRedactedCall s.trace
  refine Outcome.andThen_inv (P := P) ?_ fun s hs => ?_
  · let Q := fun s : RollBack => replayFencesOf wal.records ⊆ s.fencedSeqs ∧ NoRedactedCall s.trace
    have heffects : Q (effectLane w durable wal).state := by
      refine Outcome.runSteps_inv (P := Q) (fun e he s hs => ⟨?_, ?_⟩) ⟨?_, ?_⟩
      · exact List.Subset.trans hs.1 (legacyStep_grows w durable wal.pairing s e).fencedSeqs
      · exact legacyStep_noRedactedCall hsafe hbinding (List.mem_reverse.1 he) hs.1 hs.2
      · exact List.Subset.refl _
      · exact effectSeeds_noRedactedCall _ _
    exact heffects.2
  · refine Outcome.andThen_inv (P := P) ?_ fun t ht => ?_
    · refine Outcome.runSteps_inv (P := P)
        (fun d _ s hs => transactionalStep_noRedactedCall hs) ?_
      exact hs.append (descriptorSeeds_noRedactedCall _ _)
    · exact Outcome.runSteps_inv (P := P) (fun d _ s hs => compensationStep_noRedactedCall hs) ht

/-- Firing an owed emission again: its arguments are looked at first. -/
theorem reissueOwed_noRedactedCall (trace : List Event) (d : Deferred) :
    NoRedactedCall (reissueOwed w durable trace d).1 := by
  have hfence : NoRedactedCall (reissueFence w durable d) := by
    unfold reissueFence
    cases d.seq with
    | none => exact .nil
    | some n =>
      simp only
      split_ifs
      · exact .silent rfl
      · exact .nil
  unfold reissueOwed
  split_ifs with hredacted hbinding hcalls
  · exact .nil
  · unfold reissueThroughBinding
    simp only
    split_ifs
    · exact hfence.append (.silent rfl)
    · exact hfence.append (.silent rfl)
    · exact NoRedactedCall.nil.append (.silent rfl)
    · exact NoRedactedCall.nil.append (.silent rfl)
  · exact .nil
  · simp only
    split
    · exact hfence.append (.call rfl hredacted)
    · exact hfence.append (.call rfl hredacted)

theorem window_noRedactedCall (strength : Option Strength) (records : List WalRecord) :
    NoRedactedCall (rollForwardWindow w durable strength records).trace := by
  unfold rollForwardWindow
  simp only
  refine List.foldlRecOn (motive := fun s : Window => NoRedactedCall s.trace) _ _ ?_
    fun s hs d _ => ?_
  · split_ifs
    · exact .nil
    · exact .silent rfl
  · unfold windowStep
    simp only
    split
    · exact hs
    · split
      · exact hs
      · split_ifs
        · have hattempt : NoRedactedCall (s.trace ++ (reissueOwed w durable s.trace d).1) :=
            hs.append (reissueOwed_noRedactedCall _ _)
          split <;> exact hattempt
        · exact hs
        · exact hs

/-- The grants, where nothing redacted is owed. -/
theorem shared_noRedactedCall {basis : Basis} {records : List WalRecord} {trace : List Event}
    (hsafe : ∀ g, OwedGrant records g → hasRedactedArg g.inverse = false)
    (h : NoRedactedCall trace) :
    NoRedactedCall (recoverSharedGrants w durable basis records trace).trace := by
  refine List.foldlRecOn (motive := fun s : Shared => NoRedactedCall s.trace)
    (latestGrants records) _ h fun s hs g hg => ?_
  unfold sharedStep
  simp only
  split_ifs with hcompleted hfenced hheld hbinding hstate hcalls hspends
  · exact hs
  · exact hs
  · exact hs
  · exact hs.append (.silent rfl)
  · exact hs.append (.silent rfl)
  · exact hs
  · have hclean : ¬hasRedactedArg g.inverse = true := by
      rw [hsafe g ⟨hg, hcompleted, hfenced, hheld⟩]
      exact Bool.false_ne_true
    have hcalled : NoRedactedCall (s.trace ++ [.sharedReclaimFence g.handle] ++
        [.applyInverse (.shared g.handle) g.inverse]) :=
      (hs.append (.silent rfl)).append (.call rfl hclean)
    split <;> exact hcalled
  · have hclean : ¬hasRedactedArg g.inverse = true := by
      rw [hsafe g ⟨hg, hcompleted, hfenced, hheld⟩]
      exact Bool.false_ne_true
    have hcalled : NoRedactedCall (s.trace ++ [.applyInverse (.shared g.handle) g.inverse]) :=
      hs.append (.call rfl hclean)
    split <;> exact hcalled

end Lanes

/-! ## The residue of the lanes -/

theorem HasResidue.mono {l m : List Residue} {crossing : Crossing} (h : HasResidue l crossing)
    (k : l <+: m) : HasResidue m crossing := by
  obtain ⟨o, ho, hcrossing⟩ := h
  exact ⟨o, k.subset ho, hcrossing⟩

theorem hasResidue_push (l : List Residue) (o : Residue) : HasResidue (l ++ [o]) o.crossing :=
  ⟨o, List.mem_append_right _ List.mem_cons_self, rfl⟩

/-- A roll-back that ran through reports each redacted call that was due. -/
theorem rollBack_refuses {w : World} {durable : Bool} {wal : Wal} {t : RollBack}
    (hsafe : ∀ e op undoIdempotent register, ¬IssuedRedacted wal e op undoIdempotent register)
    (hbinding : w.replaysDescriptors = false) (h : rollBack w durable wal = .ok t) :
    RollBackRefuses wal t := by
  refine ⟨?_, ?_, ?_⟩
  · intro e he hdescribed hoffset houtlives op undoIdempotent register hinverse hredacted
    obtain ⟨s₁, s₂, hstart, hstep, hend⟩ := legacy_step hbinding h he
    obtain ⟨referent, hreferent⟩ : ∃ referent, referentKey w e = some referent := by
      rw [← Option.isSome_iff_exists, referentKey_isSome, houtlives]
    unfold legacyStep at hstep
    simp only [hdescribed, hoffset, hreferent, hinverse, hbinding, Bool.false_eq_true,
      if_false] at hstep
    split_ifs at hstep with hcalls hfenced
    · obtain rfl := Outcome.ok.inj hstep
      exact (hasResidue_push s₁.outstanding _).mono hend.outstanding
    · obtain rfl := Outcome.ok.inj hstep
      exact (hasResidue_push _ (legacyFencedRecord e op referent)).mono hend.outstanding
    · -- the lane would issue it, which is what the log has none of
      refine absurd ?_ (hsafe e op undoIdempotent register)
      refine ⟨he, hdescribed, hoffset, houtlives, hinverse, hredacted, ?_⟩
      rintro ⟨htier, hseq⟩
      exact hfenced ⟨htier, hstart.fencedSeqs hseq⟩
  · intro d hd hopen hredacted
    obtain ⟨s₁, s₂, -, hstep, hend⟩ := transactional_step hbinding h hd
    unfold transactionalStep at hstep
    simp only [if_neg hopen, if_pos hredacted] at hstep
    split_ifs at hstep
    · obtain rfl := Outcome.ok.inj hstep
      left
      refine ⟨⟨d.seq, w.key d.call, d.call, .abortPhase1⟩, ?_, rfl, rfl⟩
      exact hend.rolledBack.subset (List.mem_append_right _ List.mem_cons_self)
    · obtain rfl := Outcome.ok.inj hstep
      exact .inr ((hasResidue_push _ (fencedRecord d (w.key d.call))).mono hend.outstanding)
    · obtain rfl := Outcome.ok.inj hstep
      exact .inr ((hasResidue_push _ (redactedInverseRecord d (w.key d.call))).mono
        hend.outstanding)
  · intro d hd hran hopen hredacted
    obtain ⟨s₁, s₂, hstep, hend⟩ := compensation_step hbinding h hd
    have hran' : d.seq ∉ wal.pairing.ranByAbort := hran
    unfold compensationStep at hstep
    simp only [if_neg hran', if_neg hopen, if_pos hredacted] at hstep
    obtain rfl := Outcome.ok.inj hstep
    exact (hasResidue_push _ (redactedCompensationRecord d (w.key d.call))).mono hend.outstanding

/-- One emission of the window: its residue stays, and a redacted one leaves some. -/
theorem windowStep_outstanding (w : World) (durable : Bool) (strength : Option Strength)
    (records : List WalRecord) (s : Window) (d : Deferred) :
    s.outstanding <+: (windowStep w durable strength records s d).outstanding ∧
      (d.seq.any (· ∈ flushedOf records) = false → hasRedactedArg d.call = true →
        HasResidue (windowStep w durable strength records s d).outstanding
          (crossingOfDeferred d)) := by
  unfold windowStep
  simp only
  have hpush : ∀ o : Residue, o.crossing = crossingOfDeferred d →
      s.outstanding <+: s.outstanding ++ [o] ∧
        (d.seq.any (· ∈ flushedOf records) = false → hasRedactedArg d.call = true →
          HasResidue (s.outstanding ++ [o]) (crossingOfDeferred d)) :=
    fun o ho => ⟨List.prefix_append _ _,
      fun _ _ => ⟨o, List.mem_append_right _ List.mem_cons_self, ho⟩⟩
  split
  · next hflushed =>
    exact ⟨List.prefix_refl _, fun h => by rw [hflushed] at h; cases h⟩
  · split
    · exact hpush _ rfl
    · split_ifs
      · split
        · next entry hentry =>
          refine ⟨List.prefix_refl _, fun _ hredacted => ?_⟩
          -- a redacted emission is refused before it is fired
          unfold reissueOwed at hentry
          rw [if_pos hredacted] at hentry
          cases hentry
        · next residue hresidue =>
          refine ⟨List.prefix_append _ _, fun _ hredacted => ?_⟩
          unfold reissueOwed at hresidue
          rw [if_pos hredacted] at hresidue
          obtain rfl := Except.error.inj hresidue
          exact ⟨_, List.mem_append_right _ List.mem_cons_self, rfl⟩
      · exact hpush _ rfl
      · exact hpush _ rfl

theorem window_refuses (w : World) (durable : Bool) (strength : Option Strength)
    (records : List WalRecord) :
    WindowRefuses records (rollForwardWindow w durable strength records).toWindow := by
  intro d hd hflushed hredacted
  obtain ⟨s, -, hend⟩ := Outcome.foldl_mem
    (R := fun s t : Window => s.outstanding <+: t.outstanding) (fun _ => List.prefix_refl _)
    (fun _ _ _ h k => h.trans k)
    (fun d _ s => (windowStep_outstanding w durable strength records s d).1)
    ⟨if owedDischarge records = [] then [] else [.discharge (owedDischarge records)],
      [], [], [], []⟩ hd
  obtain ⟨o, ho, hcrossing⟩ :=
    (windowStep_outstanding w durable strength records s d).2 hflushed hredacted
  exact ⟨o, hend.subset ho, hcrossing⟩

/-- What was done and reported about the grants stays. -/
structure SharedGrows (s t : Shared) : Prop where
  trace : s.trace <+: t.trace
  reclaims : s.reclaims <+: t.reclaims

theorem SharedGrows.refl (s : Shared) : SharedGrows s s := ⟨List.prefix_refl _, List.prefix_refl _⟩

theorem SharedGrows.trans {s t u : Shared} (h : SharedGrows s t) (k : SharedGrows t u) :
    SharedGrows s u := ⟨h.trace.trans k.trace, h.reclaims.trans k.reclaims⟩

theorem SharedGrows.add (s : Shared) (r : Reclaim) : SharedGrows s (s.add r) :=
  ⟨List.prefix_refl _, List.prefix_append _ _⟩

theorem SharedGrows.emit (s : Shared) (event : Event) : SharedGrows s (s.emit event) :=
  ⟨List.prefix_append _ _, List.prefix_refl _⟩

theorem sharedStep_grows (w : World) (durable : Bool) (basis : Basis) (records : List WalRecord)
    (s : Shared) (g : Grant) : SharedGrows s (sharedStep w durable basis records s g) := by
  unfold sharedStep
  simp only
  split_ifs
  · exact .refl s
  · exact .add s _
  · exact .refl s
  · exact (SharedGrows.emit s _).trans (.add _ _)
  · exact (SharedGrows.emit s _).trans (.add _ _)
  · exact .add s _
  · have hcalled := (SharedGrows.emit s (.sharedReclaimFence g.handle)).trans
      (.emit _ (.applyInverse (.shared g.handle) g.inverse))
    split <;> exact hcalled.trans (.add _ _)
  · have hcalled := SharedGrows.emit s (.applyInverse (.shared g.handle) g.inverse)
    split <;> exact hcalled.trans (.add _ _)

/-- Where the walk of the grants took one. -/
theorem shared_step (w : World) (durable : Bool) (basis : Basis) {records : List WalRecord}
    (trace : List Event) {g : Grant} (hg : g ∈ latestGrants records) :
    ∃ s, SharedGrows (sharedStep w durable basis records s g)
      (recoverSharedGrants w durable basis records trace) := by
  obtain ⟨s, -, hend⟩ := Outcome.foldl_mem SharedGrows.refl (fun _ _ _ => SharedGrows.trans)
    (fun g _ s => sharedStep_grows w durable basis records s g) ⟨trace, []⟩ hg
  exact ⟨s, hend⟩

theorem grants_refused {w : World} (hbinding : w.reclaimsShared = false) {durable : Bool}
    {basis : Basis} {records : List WalRecord} {trace : List Event}
    (hsafe : ∀ g, OwedGrant records g → hasRedactedArg g.inverse = false) :
    GrantsRefused records (recoverSharedGrants w durable basis records trace).reclaims := by
  intro g hg hcompleted hheld hredacted
  obtain ⟨s, hend⟩ := shared_step w durable basis trace hg
  suffices hreport : ∃ r ∈ (sharedStep w durable basis records s g).reclaims,
      r.handle = g.handle ∧ r.ok = false by
    obtain ⟨r, hr, hfailed⟩ := hreport
    exact ⟨r, hend.reclaims.subset hr, hfailed⟩
  unfold sharedStep
  simp only [if_neg hcompleted, if_neg hheld, hbinding, Bool.false_eq_true, if_false]
  split_ifs with hfenced hcalls
  · exact ⟨_, List.mem_append_right _ List.mem_cons_self, rfl, rfl⟩
  · exact ⟨_, List.mem_append_right _ List.mem_cons_self, rfl, rfl⟩
  all_goals
    have hclean := hsafe g ⟨hg, hcompleted, hfenced, hheld⟩
    rw [hredacted] at hclean
    cases hclean

/-! ## Recovery as a whole -/

/-- On a safe log no redacted call is issued, and each one that was due ends as residue. -/
theorem neverReissued_of_safe {w : World} (hw : w.Unbound) (strength : Option Strength)
    (basis : Basis) {wal : Wal} (hsafe : RedactionSafe wal) :
    NeverReissued w strength basis wal := by
  obtain ⟨hbinding, -, hshared⟩ := hw
  unfold NeverReissued recover
  simp only
  cases hfrozen : frozenAt wal.records with
  | some at_ => exact ⟨.nil, trivial⟩
  | none =>
    have hgrants := hsafe.grants hfrozen
    simp only
    split_ifs with hcomplete happroved
    · exact ⟨shared_noRedactedCall hgrants .nil, grants_refused hshared hgrants⟩
    · exact ⟨shared_noRedactedCall hgrants (window_noRedactedCall strength wal.records),
        window_refuses w true strength wal.records, grants_refused hshared hgrants⟩
    · have heffects := hsafe.effects ⟨hfrozen, by simpa using hcomplete, by simpa using happroved⟩
      have htrace : NoRedactedCall (rollBack w true wal).state.trace :=
        rollBack_noRedactedCall heffects hbinding
      cases hrun : rollBack w true wal with
      | raised error s =>
        rw [hrun] at htrace
        exact ⟨htrace, trivial⟩
      | ok s =>
        rw [hrun] at htrace
        exact ⟨shared_noRedactedCall hgrants htrace, rollBack_refuses heffects hbinding hrun,
          grants_refused hshared hgrants⟩

/-- The model spends no fence. -/
theorem dictWorld_spendFence (s : RollBack) (durable : Bool) (tier : Tier) (seq : Option Int) :
    s.spendFence dictWorld durable tier seq = s := by
  unfold RollBack.spendFence
  cases seq with
  | none => rfl
  | some n => exact if_neg fun h => Bool.false_ne_true h.2.2

/-- So its fences stay the fences of the log. -/
theorem dictWorld_legacyStep_fencedSeqs (durable : Bool) (p : Pairing) (s : RollBack)
    (e : Effect) : (legacyStep dictWorld durable p s e).state.fencedSeqs = s.fencedSeqs := by
  unfold legacyStep
  cases p.described e with
  | some d => rfl
  | none =>
  cases p.offsetBy e with
  | some d => rfl
  | none =>
  cases referentKey dictWorld e with
  | none => rfl
  | some referent =>
  cases e.inverse with
  | closure reason => rfl
  | reconstructible op undoIdempotent register =>
    simp only [dictWorld_spendFence]
    split_ifs
    · rfl
    · rfl
    · rfl
    · split <;> rfl

/-- The model issues a redacted inverse that is due in the effect lane. -/
theorem dictWorld_issues {wal : Wal} {e : Effect} {op : Call} {undoIdempotent : Bool}
    {register : Option Register} (h : IssuedRedacted wal e op undoIdempotent register)
    {t : RollBack} (ht : rollBack dictWorld true wal = .ok t) :
    .applyInverse (.legacy e.seq (replayTier register undoIdempotent)) op ∈ t.trace := by
  obtain ⟨r₁, r₂, heffect, -, -, -, hseed, htransactional, hcompensation⟩ :=
    rollBack_lanes rfl ht
  obtain ⟨s₁, s₂, hstart, hstep, hend⟩ := Outcome.runSteps_mem
    (R := fun s t : RollBack => Grows s t ∧ t.fencedSeqs = s.fencedSeqs)
    (fun s => ⟨.refl s, rfl⟩) (fun _ _ _ h k => ⟨h.1.trans k.1, k.2.trans h.2⟩)
    (fun e _ s => ⟨legacyStep_grows dictWorld true wal.pairing s e,
      dictWorld_legacyStep_fencedSeqs true wal.pairing s e⟩)
    heffect (List.mem_reverse.2 h.own)
  have hunfenced : ¬(replayTier register undoIdempotent = .fenced ∧ e.seq ∈ s₁.fencedSeqs) := by
    rw [hstart.2]
    exact h.unfenced
  obtain ⟨referent, hreferent⟩ : ∃ referent, referentKey dictWorld e = some referent := by
    rw [← Option.isSome_iff_exists, referentKey_isSome, h.outlives]
  unfold legacyStep at hstep
  simp only [h.undescribed, h.notOffset, hreferent, h.inverse, if_neg hunfenced,
    dictWorld_spendFence] at hstep
  have hgrows := hend.1.trans (hseed.trans (htransactional.trans hcompensation))
  refine hgrows.trace.subset ?_
  have hstate : s₂ = { s₁.emit (.applyInverse
      (.legacy e.seq (replayTier register undoIdempotent)) op) with
        ran := s₁.ran ++ [⟨Entry.ofEffect e, op, .tier (replayTier register undoIdempotent)⟩] } :=
    (Outcome.ok.inj hstep).symm
  rw [hstate]
  exact List.mem_append_right _ List.mem_cons_self

/-- The model issues the inverse of a grant that is owed. -/
theorem dictWorld_reclaims {records : List WalRecord} {g : Grant} (h : OwedGrant records g)
    (basis : Basis) (trace : List Event) :
    .applyInverse (.shared g.handle) g.inverse ∈
      (recoverSharedGrants dictWorld true basis records trace).trace := by
  obtain ⟨s, hend⟩ := shared_step dictWorld true basis trace h.latest
  refine hend.trace.subset ?_
  unfold sharedStep
  simp only [if_neg h.incomplete, if_neg h.unfenced, if_neg h.held]
  exact List.mem_append_right _ List.mem_cons_self

theorem withShared_trace (w : World) (basis : Basis) (records : List WalRecord)
    (trace : List Event) (verdict : Verdict) :
    trace <+: (withShared w basis records trace verdict).trace := by
  obtain ⟨events, htrace, -⟩ := recoverSharedGrants_trace w true basis records trace
  exact ⟨events, htrace.symm⟩

/-- **A redacted call is never issued and always ends as residue, for every world without a
binding and every re-issue strength, exactly when none is due in the effect lane or among the
shared grants.** -/
theorem neverReissued_iff (wal : Wal) :
    (∀ w strength basis, w.Unbound → NeverReissued w strength basis wal) ↔ RedactionSafe wal := by
  constructor
  · intro h
    have hmodel := (h dictWorld none .wholeProcess dictWorld_unbound).1
    refine ⟨?_, ?_⟩
    · rintro ⟨hfrozen, hcomplete, hunapproved⟩ e op undoIdempotent register hissued
      obtain ⟨t, ht⟩ := rollBack_ok dictWorld_unraising true wal
      unfold recover at hmodel
      simp only [hfrozen, hcomplete, hunapproved, ht, Bool.false_eq_true, if_false] at hmodel
      have hevent := (withShared_trace dictWorld .wholeProcess wal.records t.trace
        (.rolledBack (rollBackReport dictWorld wal t))).subset (dictWorld_issues hissued ht)
      have := hmodel _ hevent op rfl
      rw [hissued.redacted] at this
      cases this
    · intro hfrozen g howed
      -- every branch ends with the grants
      obtain ⟨trace, verdict, hrun⟩ : ∃ trace verdict,
          recover dictWorld none .wholeProcess wal =
            withShared dictWorld .wholeProcess wal.records trace verdict := by
        unfold recover
        simp only [hfrozen]
        split_ifs
        · exact ⟨_, _, rfl⟩
        · exact ⟨_, _, rfl⟩
        · obtain ⟨t, ht⟩ := rollBack_ok dictWorld_unraising true wal
          rw [ht]
          exact ⟨_, _, rfl⟩
      simp only [hrun] at hmodel
      exact hmodel _ (dictWorld_reclaims howed .wholeProcess trace) g.inverse rfl
  · intro hsafe w strength basis hw
    exact neverReissued_of_safe hw strength basis hsafe

/-- A boundary effect whose inverse has a redacted argument. -/
def redactedBoundary : Wal where
  records := [.effect
    { seq := some 1
      component := some "Vault"
      stepIndex := some 1
      kind := .other none
      label := some "open"
      site := none
      origin := ⟨some "vault", none, some "open", [], none⟩
      boundary := ⟨.other none, some .outlivesProcess, none, none, none, []⟩
      inverse := .reconstructible ⟨some "vault", some "close", some [.str redactedSecret]⟩ false
        none
      within := none }]
  torn := false
  callers _ := []

/-- The effect lane issues it. -/
theorem not_neverReissued_redactedBoundary :
    ¬NeverReissued dictWorld none .wholeProcess redactedBoundary := by
  rintro ⟨hissued, -⟩
  have := hissued (.applyInverse (.legacy (some 1) .fenced)
    ⟨some "vault", some "close", some [.str redactedSecret]⟩)
    (List.mem_cons_of_mem _ List.mem_cons_self) _ rfl
  cases this

end Revl.Recovery
