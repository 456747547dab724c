import Revl.Recovery.RollBack

/-!
# What the steps of a roll-back do

- `Grows`: no step takes back what was reported or done before it.
- `legacyStep_grows`, `transactionalStep_grows`, `compensationStep_grows`, `bindingStep_grows`.
- `legacy_step`, `transactional_step`, `compensation_step`: where a walk that ran through took a
  record.
- `Unraising`: a world that raises nothing, where the whole walk runs through.
-/

namespace Revl.Recovery

/-- What was reported and done stays. -/
structure Grows (s t : RollBack) : Prop where
  trace : s.trace <+: t.trace
  fencedSeqs : s.fencedSeqs ⊆ t.fencedSeqs
  fencedDeferred : s.fencedDeferred <+: t.fencedDeferred
  outstanding : s.outstanding <+: t.outstanding
  rolledBack : s.rolledBack <+: t.rolledBack
  settledByReplay : s.settledByReplay <+: t.settledByReplay
  compensationsRan : s.compensationsRan <+: t.compensationsRan
  compensationsSettled : s.compensationsSettled <+: t.compensationsSettled

namespace Grows

@[refl] theorem refl (s : RollBack) : Grows s s where
  trace := List.prefix_refl _
  fencedSeqs := List.Subset.refl _
  fencedDeferred := List.prefix_refl _
  outstanding := List.prefix_refl _
  rolledBack := List.prefix_refl _
  settledByReplay := List.prefix_refl _
  compensationsRan := List.prefix_refl _
  compensationsSettled := List.prefix_refl _

theorem trans {s t u : RollBack} (h : Grows s t) (k : Grows t u) : Grows s u where
  trace := h.trace.trans k.trace
  fencedSeqs := List.Subset.trans h.fencedSeqs k.fencedSeqs
  fencedDeferred := h.fencedDeferred.trans k.fencedDeferred
  outstanding := h.outstanding.trans k.outstanding
  rolledBack := h.rolledBack.trans k.rolledBack
  settledByReplay := h.settledByReplay.trans k.settledByReplay
  compensationsRan := h.compensationsRan.trans k.compensationsRan
  compensationsSettled := h.compensationsSettled.trans k.compensationsSettled

theorem report (s : RollBack) (r : Residue) : Grows s (s.report r) :=
  { refl s with outstanding := List.prefix_append _ _ }

theorem emit (s : RollBack) (event : Event) : Grows s (s.emit event) :=
  { refl s with trace := List.prefix_append _ _ }

theorem spendFence (s : RollBack) (w : World) (durable : Bool) (tier : Tier)
    (seq : Option Int) : Grows s (s.spendFence w durable tier seq) := by
  unfold RollBack.spendFence
  cases seq with
  | none => exact refl s
  | some n =>
    simp only
    split_ifs
    · exact { refl s with
        trace := List.prefix_append _ _
        fencedSeqs := List.subset_cons_self _ _ }
    · exact refl s

/-- The fence and the call. -/
theorem call (s : RollBack) (w : World) (durable : Bool) (tier : Tier) (seq : Option Int)
    (event : Event) : Grows s ((s.spendFence w durable tier seq).emit event) :=
  (spendFence s w durable tier seq).trans (emit _ event)

end Grows

/-- Spending a fence reports nothing. -/
theorem RollBack.spendFence_eq (s : RollBack) (w : World) (durable : Bool) (tier : Tier)
    (seq : Option Int) :
    ∃ trace fencedSeqs, s.spendFence w durable tier seq =
      { s with trace := trace, fencedSeqs := fencedSeqs } := by
  unfold RollBack.spendFence
  cases seq with
  | none => exact ⟨s.trace, s.fencedSeqs, rfl⟩
  | some n =>
    simp only
    split_ifs
    · exact ⟨s.trace ++ [.replayFence n], some n :: s.fencedSeqs, rfl⟩
    · exact ⟨s.trace, s.fencedSeqs, rfl⟩

theorem legacyStep_grows (w : World) (durable : Bool) (pairing : Pairing) (s : RollBack)
    (e : Effect) : Grows s (legacyStep w durable pairing s e).state := by
  unfold legacyStep
  cases pairing.described e with
  | some d => exact { Grows.refl s with }
  | none =>
  cases pairing.offsetBy e with
  | some d => exact { Grows.refl s with }
  | none =>
  cases referentKey w e with
  | none => exact { Grows.refl s with }
  | some referent =>
  cases e.inverse with
  | closure reason => exact { Grows.report s _ with }
  | reconstructible op undoIdempotent register =>
    simp only
    split_ifs with hbinding hcalls hfenced
    · exact { Grows.refl s with }
    · exact Grows.report s _
    · exact { Grows.report s _ with fencedDeferred := List.prefix_append _ _ }
    · have hcall := Grows.call s w durable (replayTier register undoIdempotent) e.seq
        (.applyInverse (.legacy e.seq (replayTier register undoIdempotent)) op)
      split
      · exact hcall
      · exact { hcall with }

theorem transactionalStep_grows (w : World) (durable abortCompleted : Bool)
    (discharged : List Int) (s : RollBack) (d : Descriptor) :
    Grows s (transactionalStep w durable abortCompleted discharged s d).state := by
  unfold transactionalStep
  simp only
  split_ifs with hdischarged hfenced habort hredacted
  · exact { Grows.refl s with }
  · exact { Grows.refl s with rolledBack := List.prefix_append _ _ }
  · exact { Grows.report s _ with fencedDeferred := List.prefix_append _ _ }
  · exact { Grows.report s _ with }
  · have hcall := Grows.call s w durable (replayTier d.register d.undoIdempotent) (some d.seq)
      (.applyInverse (.transactional d.seq (replayTier d.register d.undoIdempotent)) d.call)
    obtain ⟨trace, fencedSeqs, hfence⟩ := s.spendFence_eq w durable
      (replayTier d.register d.undoIdempotent) (some d.seq)
    rw [hfence] at hcall ⊢
    split
    · exact { hcall with outstanding := List.prefix_append _ _ }
    · exact { hcall with rolledBack := List.prefix_append _ _ }

theorem compensationStep_grows (w : World) (ranByAbort discharged : List Int) (s : RollBack)
    (d : Descriptor) : Grows s (compensationStep w ranByAbort discharged s d).state := by
  unfold compensationStep
  simp only
  split_ifs with hran hdischarged hredacted
  · exact { Grows.refl s with compensationsSettled := List.prefix_append _ _ }
  · exact { Grows.refl s with }
  · exact Grows.report s _
  · split
    · exact Grows.emit s _
    · exact { Grows.emit s _ with outstanding := List.prefix_append _ _ }

theorem bindingStep_grows (w : World) (outcome : Option Int → BindingOutcome) (s : RollBack)
    (b : Bound) : Grows s (bindingStep w outcome s b) := by
  unfold bindingStep
  simp only
  split
  · split
    · exact { Grows.refl s with }
    · split_ifs
      · exact { Grows.refl s with rolledBack := List.prefix_append _ _ }
      · exact { Grows.refl s with compensationsRan := List.prefix_append _ _ }
  · exact { Grows.refl s with settledByReplay := List.prefix_append _ _ }
  · split_ifs
    · exact { Grows.report s _ with fencedDeferred := List.prefix_append _ _ }
    · exact { Grows.report s _ with }
    · exact Grows.report s _

/-! ## Lanes -/

theorem mem_newestFirst {d : Descriptor} {ds : List Descriptor} :
    d ∈ newestFirst ds ↔ d ∈ ds := List.mem_insertionSort _

theorem effectLane_grows (w : World) (durable : Bool) (wal : Wal) :
    Grows (seedEffects w wal) (effectLane w durable wal).state :=
  Outcome.runSteps_rel Grows.refl (fun _ _ _ => Grows.trans)
    (fun e _ s => legacyStep_grows w durable wal.pairing s e) _

theorem seedDescriptors_grows (w : World) (wal : Wal) (s : RollBack) :
    Grows s (seedDescriptors w wal s) :=
  { Grows.refl s with trace := List.prefix_append _ _ }

theorem transactionalLane_grows (w : World) (durable : Bool) (wal : Wal) (s : RollBack) :
    Grows s (transactionalLane w durable wal s).state :=
  Outcome.runSteps_rel Grows.refl (fun _ _ _ => Grows.trans)
    (fun d _ s => transactionalStep_grows w durable _ _ s d) s

theorem compensationLane_grows (w : World) (wal : Wal) (s : RollBack) :
    Grows s (compensationLane w wal s).state :=
  Outcome.runSteps_rel Grows.refl (fun _ _ _ => Grows.trans)
    (fun d _ s => compensationStep_grows w _ _ s d) s

section Unbound

variable {w : World} {durable : Bool} {wal : Wal} {t : RollBack}
  (hbinding : w.replaysDescriptors = false) (h : rollBack w durable wal = .ok t)

include hbinding h

/-- A walk that ran through, against a world that takes single calls: the three lanes. -/
theorem rollBack_lanes :
    ∃ s₁ s₂, effectLane w durable wal = .ok s₁ ∧
      transactionalLane w durable wal (seedDescriptors w wal s₁) = .ok s₂ ∧
      compensationLane w wal s₂ = .ok t ∧
      Grows (seedEffects w wal) s₁ ∧ Grows s₁ (seedDescriptors w wal s₁) ∧
      Grows (seedDescriptors w wal s₁) s₂ ∧ Grows s₂ t := by
  unfold rollBack at h
  obtain ⟨s₁, h₁, h⟩ := Outcome.andThen_eq_ok.1 h
  simp only [hbinding, Bool.false_eq_true, if_false] at h
  obtain ⟨s₂, h₂, h₃⟩ := Outcome.andThen_eq_ok.1 h
  have heffect := effectLane_grows w durable wal
  have htransactional := transactionalLane_grows w durable wal (seedDescriptors w wal s₁)
  have hcompensation := compensationLane_grows w wal s₂
  rw [h₁] at heffect
  rw [h₂] at htransactional
  rw [h₃] at hcompensation
  exact ⟨s₁, s₂, h₁, h₂, h₃, heffect, seedDescriptors_grows w wal s₁, htransactional,
    hcompensation⟩

/-- Where the walk took an effect. -/
theorem legacy_step {e : Effect} (he : e ∈ ownEffects wal) :
    ∃ s₁ s₂, Grows (seedEffects w wal) s₁ ∧ legacyStep w durable wal.pairing s₁ e = .ok s₂ ∧
      Grows s₂ t := by
  obtain ⟨r₁, r₂, heffect, -, -, -, hseed, htransactional, hcompensation⟩ :=
    rollBack_lanes hbinding h
  obtain ⟨s₁, s₂, hstart, hstep, hend⟩ := Outcome.runSteps_mem Grows.refl
    (fun _ _ _ => Grows.trans) (fun e _ s => legacyStep_grows w durable wal.pairing s e)
    heffect (List.mem_reverse.2 he)
  exact ⟨s₁, s₂, hstart, hstep, hend.trans (hseed.trans (htransactional.trans hcompensation))⟩

/-- Where the walk took a transactional descriptor. -/
theorem transactional_step {d : Descriptor} (hd : d ∈ transactionalOf wal.records) :
    ∃ s₁ s₂, Grows (seedEffects w wal) s₁ ∧
      transactionalStep w durable (wal.records.any isAborted) (dischargedOf wal.records) s₁ d =
        .ok s₂ ∧ Grows s₂ t := by
  obtain ⟨r₁, r₂, -, htransactional, -, heffect, hseed, -, hcompensation⟩ :=
    rollBack_lanes hbinding h
  obtain ⟨s₁, s₂, hstart, hstep, hend⟩ := Outcome.runSteps_mem Grows.refl
    (fun _ _ _ => Grows.trans) (fun d _ s => transactionalStep_grows w durable _ _ s d)
    htransactional (mem_newestFirst.2 hd)
  exact ⟨s₁, s₂, heffect.trans (hseed.trans hstart), hstep, hend.trans hcompensation⟩

/-- Where the walk took a compensation. -/
theorem compensation_step {d : Descriptor} (hd : d ∈ compensationsOf wal.records) :
    ∃ s₁ s₂, compensationStep w wal.pairing.ranByAbort (dischargedOf wal.records) s₁ d = .ok s₂ ∧
      Grows s₂ t := by
  obtain ⟨r₁, r₂, -, -, hcompensation, -, -, -, -⟩ := rollBack_lanes hbinding h
  obtain ⟨s₁, s₂, -, hstep, hend⟩ := Outcome.runSteps_mem Grows.refl
    (fun _ _ _ => Grows.trans) (fun d _ s => compensationStep_grows w _ _ s d)
    hcompensation (mem_newestFirst.2 hd)
  exact ⟨s₁, s₂, hstep, hend⟩

end Unbound

/-! ## Worlds that raise nothing -/

/-- A world none of whose calls raises. -/
structure Unraising (w : World) : Prop where
  applyInverse : ∀ trace op, w.applyInverse trace op = none
  applyCompensation : ∀ trace op, w.applyCompensation trace op = none

theorem dictWorld_unraising : Unraising dictWorld := ⟨fun _ _ => rfl, fun _ _ => rfl⟩

theorem legacyStep_ok {w : World} (hw : Unraising w) (durable : Bool) (pairing : Pairing)
    (s : RollBack) (e : Effect) : ∃ t, legacyStep w durable pairing s e = .ok t := by
  unfold legacyStep
  cases pairing.described e with
  | some d => exact ⟨_, rfl⟩
  | none =>
  cases pairing.offsetBy e with
  | some d => exact ⟨_, rfl⟩
  | none =>
  cases referentKey w e with
  | none => exact ⟨_, rfl⟩
  | some referent =>
  cases e.inverse with
  | closure reason => exact ⟨_, rfl⟩
  | reconstructible op undoIdempotent register =>
    simp only [hw.applyInverse]
    split_ifs <;> exact ⟨_, rfl⟩

theorem transactionalStep_ok (w : World) (durable abortCompleted : Bool) (discharged : List Int)
    (s : RollBack) (d : Descriptor) :
    ∃ t, transactionalStep w durable abortCompleted discharged s d = .ok t := by
  unfold transactionalStep
  simp only
  split_ifs
  · exact ⟨_, rfl⟩
  · exact ⟨_, rfl⟩
  · exact ⟨_, rfl⟩
  · exact ⟨_, rfl⟩
  · split <;> exact ⟨_, rfl⟩

theorem compensationStep_ok {w : World} (hw : Unraising w) (ranByAbort discharged : List Int)
    (s : RollBack) (d : Descriptor) :
    ∃ t, compensationStep w ranByAbort discharged s d = .ok t := by
  unfold compensationStep
  simp only [hw.applyCompensation]
  split_ifs <;> exact ⟨_, rfl⟩

/-- Where nothing raises the walk runs through. -/
theorem rollBack_ok {w : World} (hw : Unraising w) (durable : Bool) (wal : Wal) :
    ∃ t, rollBack w durable wal = .ok t := by
  unfold rollBack
  obtain ⟨s, hs⟩ : ∃ s, effectLane w durable wal = .ok s :=
    Outcome.runSteps_ok (fun e _ s => legacyStep_ok hw durable wal.pairing s e) _
  rw [hs, Outcome.andThen_ok]
  simp only
  split_ifs
  · exact ⟨_, rfl⟩
  · obtain ⟨t, ht⟩ : ∃ t, transactionalLane w durable wal (seedDescriptors w wal s) = .ok t :=
      Outcome.runSteps_ok (fun d _ s => transactionalStep_ok w durable _ _ s d) _
    rw [ht, Outcome.andThen_ok]
    exact Outcome.runSteps_ok (fun d _ s => compensationStep_ok hw _ _ s d) t

end Revl.Recovery
