import Revl.Recovery.AtMostOnce
import Revl.Recovery.Lanes

/-!
# What a run of recovery spares

A fence in the log is an attempt already spent. A world that is handed single calls is not handed
the undeclared inverse of that seq.

- `Spares`: what every step of a roll-back keeps.
- `recover_spares`: **recovery applies no undeclared inverse whose fence is in the log**, whatever
  the kind of the world.
-/

namespace Revl.Recovery

open Fence

/-- Whether an event applies the undeclared transactional inverse of a seq. -/
def appliesUndeclared (n : Int) : Event → Bool
  | .applyInverse (.transactional seq tier) _ => tier == .fenced && seq == n
  | _ => false

/-- A trace that spares the inverse of a seq, with every fence of the log known. -/
structure Spares (records : List WalRecord) (n : Int) (s : RollBack) : Prop where
  known : replayFencesOf records ⊆ s.fencedSeqs
  spared : ∀ event ∈ s.trace, appliesUndeclared n event = false

section Spares

variable {records : List WalRecord} {n : Int} {s : RollBack}

theorem Spares.emit (h : Spares records n s) (event : Event)
    (hevent : appliesUndeclared n event = false) : Spares records n (s.emit event) where
  known := h.known
  spared e he := by
    rcases List.mem_append.1 he with he | he
    · exact h.spared e he
    · rw [List.mem_singleton.1 he]
      exact hevent

/-- A fence and a call. -/
theorem Spares.call (h : Spares records n s) (w : World) (durable : Bool) (tier : Tier)
    (seq : Option Int) (event : Event) (hevent : appliesUndeclared n event = false) :
    Spares records n ((s.spendFence w durable tier seq).emit event) := by
  refine Spares.emit ?_ event hevent
  unfold RollBack.spendFence
  cases seq with
  | none => exact h
  | some m =>
    simp only
    split_ifs
    · have hfence := h.emit (.replayFence m) rfl
      exact ⟨fun k hk => List.mem_cons_of_mem _ (h.known hk), hfence.spared⟩
    · exact h

theorem Spares.legacyStep {w : World} (hbinding : w.replaysDescriptors = false) (durable : Bool)
    (pairing : Pairing) (h : Spares records n s) (e : Effect) :
    Spares records n (legacyStep w durable pairing s e).state := by
  unfold Recovery.legacyStep
  cases pairing.described e with
  | some d => exact ⟨h.known, h.spared⟩
  | none =>
  cases pairing.offsetBy e with
  | some d => exact ⟨h.known, h.spared⟩
  | none =>
  cases referentKey w e with
  | none => exact ⟨h.known, h.spared⟩
  | some referent =>
  cases e.inverse with
  | closure reason => exact ⟨h.known, h.spared⟩
  | reconstructible op undoIdempotent register =>
    simp only [hbinding, Bool.false_eq_true, if_false]
    split_ifs
    · exact ⟨h.known, h.spared⟩
    · exact ⟨h.known, h.spared⟩
    · have hcall := h.call w durable (replayTier register undoIdempotent) e.seq
        (.applyInverse (.legacy e.seq (replayTier register undoIdempotent)) op) rfl
      split
      · exact hcall
      · exact ⟨hcall.known, hcall.spared⟩

/-- The one step that could apply it finds its fence. -/
theorem Spares.transactionalStep (w : World) (durable abortCompleted : Bool)
    (discharged : List Int) (h : Spares records n s) {d : Descriptor}
    (hd : d.seq = n → replayTier d.register d.undoIdempotent = .fenced →
      some n ∈ replayFencesOf records) :
    Spares records n (transactionalStep w durable abortCompleted discharged s d).state := by
  unfold Recovery.transactionalStep
  simp only
  split_ifs with hdischarged hfenced habort hredacted
  · exact ⟨h.known, h.spared⟩
  · exact ⟨h.known, h.spared⟩
  · exact ⟨h.known, h.spared⟩
  · exact ⟨h.known, h.spared⟩
  · have hevent : appliesUndeclared n (.applyInverse (.transactional d.seq
        (replayTier d.register d.undoIdempotent)) d.call) = false := by
      by_contra hyes
      simp only [appliesUndeclared, Bool.not_eq_false, Bool.and_eq_true, beq_iff_eq] at hyes
      exact hfenced ⟨hyes.1, hyes.2.symm ▸ h.known (hd hyes.2 hyes.1)⟩
    have hcall := h.call w durable (replayTier d.register d.undoIdempotent) (some d.seq) _ hevent
    split
    · exact ⟨hcall.known, hcall.spared⟩
    · exact ⟨hcall.known, hcall.spared⟩

theorem Spares.compensationStep (w : World) (ranByAbort discharged : List Int)
    (h : Spares records n s) (d : Descriptor) :
    Spares records n (compensationStep w ranByAbort discharged s d).state := by
  unfold Recovery.compensationStep
  simp only
  split_ifs
  · exact ⟨h.known, h.spared⟩
  · exact ⟨h.known, h.spared⟩
  · exact ⟨h.known, h.spared⟩
  · have hcall := h.emit (.applyCompensation d.call) rfl
    split
    · exact hcall
    · exact ⟨hcall.known, hcall.spared⟩

end Spares

theorem rollBack_spares {w : World} (hbinding : w.replaysDescriptors = false) (durable : Bool)
    (wal : Wal) {n : Int} (hd : ∀ d ∈ transactionalOf wal.records, d.seq = n →
      replayTier d.register d.undoIdempotent = .fenced → some n ∈ replayFencesOf wal.records) :
    ∀ event ∈ (rollBack w durable wal).state.trace, appliesUndeclared n event = false := by
  suffices h : Spares wal.records n (rollBack w durable wal).state from h.spared
  unfold rollBack
  simp only [hbinding, Bool.false_eq_true, if_false]
  refine Outcome.andThen_inv (P := Spares wal.records n) ?_ fun s hs => ?_
  · refine Outcome.runSteps_inv (P := Spares wal.records n)
      (fun e _ s hs => hs.legacyStep hbinding durable _ e) ⟨fun _ hk => hk, fun event hevent => ?_⟩
    obtain ⟨e, -, he⟩ := List.mem_filterMap.1 hevent
    split_ifs at he
    obtain ⟨referent, -, rfl⟩ := Option.map_eq_some_iff.1 he
    rfl
  · refine Outcome.andThen_inv (P := Spares wal.records n) ?_ fun t ht => ?_
    · refine Outcome.runSteps_inv (P := Spares wal.records n)
        (fun d hmem s hs => hs.transactionalStep w durable _ _ (hd d (mem_newestFirst.1 hmem)))
        ⟨hs.known, fun event hevent => ?_⟩
      rcases List.mem_append.1 hevent with hevent | hevent
      · exact hs.spared event hevent
      · obtain ⟨d, -, hd⟩ := List.mem_filterMap.1 hevent
        split_ifs at hd
        cases hd
        rfl
    · exact Outcome.runSteps_inv (P := Spares wal.records n)
        (fun d _ s hs => hs.compensationStep w _ _ d) ht

/-- An undeclared transactional inverse that is applied is handed over. -/
theorem appliesUndeclared_of_handsOver {n : Int} {event : Event} (h : ¬handsOver n event = true) :
    appliesUndeclared n event = false := by
  by_contra hyes
  cases event with
  | applyInverse source op =>
    cases source with
    | transactional seq tier => exact h (by simpa [appliesUndeclared, handsOver] using hyes)
    | _ => simp [appliesUndeclared] at hyes
  | _ => simp [appliesUndeclared] at hyes

/-- **Recovery applies no undeclared inverse whose fence is in the log.** -/
theorem recover_spares {w : World} (hbinding : w.replaysDescriptors = false)
    (strength : Option Strength) (basis : Basis) (wal : Wal) {n : Int}
    (hd : ∀ d ∈ transactionalOf wal.records, d.seq = n →
      replayTier d.register d.undoIdempotent = .fenced → some n ∈ replayFencesOf wal.records) :
    ∀ event ∈ (recover w strength basis wal).trace, appliesUndeclared n event = false := by
  have hshared {trace : List Event} (h : ∀ event ∈ trace, appliesUndeclared n event = false) :
      ∀ event ∈ (recoverSharedGrants w true basis wal.records trace).trace,
        appliesUndeclared n event = false := by
    obtain ⟨events, htrace, hevents⟩ := recoverSharedGrants_trace w true basis wal.records trace
    rw [htrace]
    intro event hevent
    rcases List.mem_append.1 hevent with hold | hnew
    · exact h event hold
    · refine appliesUndeclared_of_handsOver fun hk => ?_
      rw [handsOver_iff, fenceAct_ofShared (hevents event hnew)] at hk
      exact nomatch hk
  unfold recover
  simp only
  split
  · exact fun event hevent => (List.not_mem_nil hevent).elim
  · split_ifs
    · exact hshared fun event hevent => (List.not_mem_nil hevent).elim
    · -- nothing of the window is an inverse
      exact hshared fun event hevent =>
        appliesUndeclared_of_handsOver (window_hands_nothing strength wal.records n event hevent)
    · have hspares := rollBack_spares hbinding true wal hd
      split
      · next e s hrun =>
        rw [hrun] at hspares
        exact hspares
      · next s hrun =>
        rw [hrun] at hspares
        exact hshared hspares

end Revl.Recovery
