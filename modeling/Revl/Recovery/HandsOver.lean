import Revl.Recovery.Redaction
import Revl.Recovery.AtMostOnce

/-!
# Which undeclared inverses recovery hands over

Only a roll-back hands one over, from the effect lane or from Phase 1. A fence in the log stands in
its way, and nothing else does once its record is due.

- `Issues`: a record of the log is due under a seq.
- `Traced`: what every step of a roll-back keeps of what it handed over and fenced.
- `recover_hands_over_iff`: **the exact seqs that no run against a real world hands over.**
-/

namespace Revl.Recovery

open Fence

/-- Whether recovery may run an inverse of a record once only. -/
def Inverse.undeclared : Inverse → Bool
  | .reconstructible _ undoIdempotent register => replayTier register undoIdempotent == .fenced
  | .closure _ => false

/-- An effect whose undeclared inverse is due in the effect lane. -/
structure IssuesEffect (wal : Wal) (seq : Int) (e : Effect) : Prop where
  own : e ∈ ownEffects wal
  seq_eq : e.seq = some seq
  outlives : outlives e.boundary.referent = true
  undeclared : e.inverse.undeclared = true
  undescribed : wal.pairing.described e = none
  notOffset : wal.pairing.offsetBy e = none

/-- A descriptor whose undeclared inverse is due in Phase 1. -/
structure IssuesDescriptor (wal : Wal) (seq : Int) (d : Descriptor) : Prop where
  mem : d ∈ transactionalOf wal.records
  seq_eq : d.seq = seq
  undischarged : d.seq ∉ dischargedOf wal.records
  undeclared : replayTier d.register d.undoIdempotent = .fenced
  shown : hasRedactedArg d.call = false

/-- A record is due under a seq. -/
def Issues (wal : Wal) (seq : Int) : Prop :=
  (∃ e, IssuesEffect wal seq e) ∨ ∃ d, IssuesDescriptor wal seq d

/-- What was handed over was due, and what is fenced was fenced before or handed over. -/
structure Traced (wal : Wal) (s : RollBack) : Prop where
  issued : ∀ k, ∀ event ∈ s.trace, handsOver k event = true → Issues wal k
  fenced : ∀ k, some k ∈ s.fencedSeqs →
    some k ∈ replayFencesOf wal.records ∨ ∃ event ∈ s.trace, handsOver k event = true

namespace Traced

variable {wal : Wal} {s : RollBack}

theorem emit (h : Traced wal s) (event : Event)
    (hevent : ∀ k, handsOver k event = true → Issues wal k) : Traced wal (s.emit event) where
  issued k x hx hk := by
    rcases List.mem_append.1 hx with hx | hx
    · exact h.issued k x hx hk
    · rw [List.mem_singleton.1 hx] at hk
      exact hevent k hk
  fenced k hk := by
    rcases h.fenced k hk with hlog | ⟨x, hx, hover⟩
    · exact .inl hlog
    · exact .inr ⟨x, List.mem_append_left _ hx, hover⟩

/-- A fence and then the call it is for. -/
theorem call (h : Traced wal s) (w : World) (durable : Bool) (tier : Tier) (seq : Option Int)
    (event : Event) (hevent : fenceAct event = attemptAct tier seq)
    (hissues : ∀ k, tier = .fenced → seq = some k → Issues wal k) :
    Traced wal ((s.spendFence w durable tier seq).emit event) := by
  have hover : ∀ k, handsOver k event = true ↔ tier = .fenced ∧ seq = some k := fun k => by
    rw [handsOver_iff, hevent, attemptAct_eq_attempt]
  have hdue : ∀ k, handsOver k event = true → Issues wal k := fun k hk =>
    hissues k ((hover k).1 hk).1 ((hover k).1 hk).2
  unfold RollBack.spendFence
  cases seq with
  | none => exact h.emit event hdue
  | some n =>
    simp only
    split_ifs with hspent
    · have hfenceless : Traced wal (s.emit (.replayFence n)) :=
        h.emit _ fun k hk => Bool.noConfusion hk
      have hcalled := hfenceless.emit event hdue
      refine ⟨hcalled.issued, fun k hk => ?_⟩
      rcases List.mem_cons.1 hk with hnew | hold
      · -- the fence is new, and its call is the last event
        exact .inr ⟨event, List.mem_append_right _ List.mem_cons_self,
          (hover k).2 ⟨hspent.1, hnew.symm⟩⟩
      · exact hcalled.fenced k hold
    · exact h.emit event hdue

/-- One boundary effect. -/
theorem legacyStep {w : World} (hbinding : w.replaysDescriptors = false) (durable : Bool)
    (h : Traced wal s) {e : Effect} (he : e ∈ ownEffects wal) :
    Traced wal (legacyStep w durable wal.pairing s e).state := by
  unfold Recovery.legacyStep
  cases hdescribed : wal.pairing.described e with
  | some d => exact ⟨h.issued, h.fenced⟩
  | none =>
  cases hoffset : wal.pairing.offsetBy e with
  | some d => exact ⟨h.issued, h.fenced⟩
  | none =>
  cases hreferent : referentKey w e with
  | none => exact ⟨h.issued, h.fenced⟩
  | some referent =>
  cases hinverse : e.inverse with
  | closure reason => exact ⟨h.issued, h.fenced⟩
  | reconstructible op undoIdempotent register =>
    simp only [hbinding, Bool.false_eq_true, if_false]
    split_ifs
    · exact ⟨h.issued, h.fenced⟩
    · exact ⟨h.issued, h.fenced⟩
    · have hcalled := h.call w durable (replayTier register undoIdempotent) e.seq
        (.applyInverse (.legacy e.seq (replayTier register undoIdempotent)) op) rfl
        fun k htier hseq => .inl ⟨e, he, hseq, by
          rw [← referentKey_isSome w, hreferent]
          rfl, by
          rw [hinverse]
          simpa [Inverse.undeclared] using htier, hdescribed, hoffset⟩
      split
      · exact hcalled
      · exact ⟨hcalled.issued, hcalled.fenced⟩

/-- One transactional descriptor. -/
theorem transactionalStep (w : World) (durable abortCompleted : Bool) (h : Traced wal s)
    {d : Descriptor} (hd : d ∈ transactionalOf wal.records) :
    Traced wal
      (transactionalStep w durable abortCompleted (dischargedOf wal.records) s d).state := by
  unfold Recovery.transactionalStep
  simp only
  split_ifs with hdischarged hfenced habort hredacted
  · exact ⟨h.issued, h.fenced⟩
  · exact ⟨h.issued, h.fenced⟩
  · exact ⟨h.issued, h.fenced⟩
  · exact ⟨h.issued, h.fenced⟩
  · have hcalled := h.call w durable (replayTier d.register d.undoIdempotent) (some d.seq)
      (.applyInverse (.transactional d.seq (replayTier d.register d.undoIdempotent)) d.call) rfl
      fun k htier hseq => .inr ⟨d, hd, Option.some.inj hseq, hdischarged, htier,
        Bool.eq_false_iff.2 hredacted⟩
    split
    · exact ⟨hcalled.issued, hcalled.fenced⟩
    · exact ⟨hcalled.issued, hcalled.fenced⟩

/-- One compensation: no inverse is handed over. -/
theorem compensationStep (w : World) (ranByAbort discharged : List Int) (h : Traced wal s)
    (d : Descriptor) : Traced wal (compensationStep w ranByAbort discharged s d).state := by
  unfold Recovery.compensationStep
  simp only
  split_ifs
  · exact ⟨h.issued, h.fenced⟩
  · exact ⟨h.issued, h.fenced⟩
  · exact ⟨h.issued, h.fenced⟩
  · have hcalled := h.emit (.applyCompensation d.call) fun k hk => Bool.noConfusion hk
    split
    · exact hcalled
    · exact ⟨hcalled.issued, hcalled.fenced⟩

/-- Seeds are no inverses. -/
theorem seeds (h : Traced wal s) {events : List Event}
    (hevents : ∀ event ∈ events, fenceAct event = .other) :
    Traced wal { s with trace := s.trace ++ events } where
  issued k event hevent hk := by
    rcases List.mem_append.1 hevent with hold | hnew
    · exact h.issued k event hold hk
    · rw [handsOver_iff, hevents event hnew] at hk
      exact nomatch hk
  fenced k hk := by
    rcases h.fenced k hk with hlog | ⟨x, hx, hover⟩
    · exact .inl hlog
    · exact .inr ⟨x, List.mem_append_left _ hx, hover⟩

end Traced

/-- **The whole walk keeps it.** -/
theorem rollBack_traced {w : World} (hbinding : w.replaysDescriptors = false) (durable : Bool)
    (wal : Wal) : Traced wal (rollBack w durable wal).state := by
  unfold rollBack
  simp only [hbinding, Bool.false_eq_true, if_false]
  have hstart : Traced wal (RollBack.start wal.records) :=
    ⟨fun _ _ hevent => (nomatch hevent), fun _ hk => .inl hk⟩
  refine Outcome.andThen_inv (P := Traced wal) ?_ fun s hs => ?_
  · refine Outcome.runSteps_inv (P := Traced wal)
      (fun e he s hs => hs.legacyStep hbinding durable (List.mem_reverse.1 he)) ?_
    refine hstart.seeds fun event hevent => ?_
    obtain ⟨e, -, he⟩ := List.mem_filterMap.1 hevent
    split_ifs at he
    obtain ⟨referent, -, rfl⟩ := Option.map_eq_some_iff.1 he
    rfl
  · refine Outcome.andThen_inv (P := Traced wal) ?_ fun t ht => ?_
    · refine Outcome.runSteps_inv (P := Traced wal)
        (fun d hd s hs => hs.transactionalStep w durable _ (mem_newestFirst.1 hd)) ?_
      refine hs.seeds fun event hevent => ?_
      obtain ⟨d, -, hd⟩ := List.mem_filterMap.1 hevent
      split_ifs at hd
      cases hd
      rfl
    · exact Outcome.runSteps_inv (P := Traced wal)
        (fun d _ s hs => hs.compensationStep w _ _ d) ht

/-! ## Recovery as a whole -/

/-- The inverse of a shared grant has no seq. -/
theorem mem_of_withShared {w : World} {basis : Basis} {records : List WalRecord}
    {trace : List Event} {verdict : Verdict} {k : Int} {event : Event}
    (hevent : event ∈ (withShared w basis records trace verdict).trace)
    (hk : handsOver k event = true) : event ∈ trace := by
  obtain ⟨events, htrace, hshared⟩ := recoverSharedGrants_trace w true basis records trace
  have hmem : event ∈ (recoverSharedGrants w true basis records trace).trace := hevent
  rw [htrace] at hmem
  rcases List.mem_append.1 hmem with hold | hnew
  · exact hold
  · rw [handsOver_iff, fenceAct_ofShared (hshared event hnew)] at hk
    exact nomatch hk

/-- What recovery hands over was due, on a log it rolls back. -/
theorem issues_of_recover {w : World} (hbinding : w.replaysDescriptors = false)
    {strength : Option Strength} {basis : Basis} {wal : Wal} {k : Int} {event : Event}
    (hevent : event ∈ (recover w strength basis wal).trace) (hk : handsOver k event = true) :
    RollsBack wal ∧ Issues wal k := by
  unfold recover at hevent
  simp only at hevent
  cases hfrozen : frozenAt wal.records with
  | some at_ =>
    rw [hfrozen] at hevent
    exact nomatch hevent
  | none =>
    rw [hfrozen] at hevent
    simp only at hevent
    split_ifs at hevent with hcomplete happroved
    · exact nomatch mem_of_withShared hevent hk
    · exact absurd hk (window_hands_nothing strength wal.records k event
        (mem_of_withShared hevent hk))
    · have hrolls : RollsBack wal := ⟨hfrozen, by simpa using hcomplete, by simpa using happroved⟩
      have htraced := rollBack_traced hbinding true wal
      cases hrun : rollBack w true wal with
      | raised error s =>
        rw [hrun] at hevent htraced
        exact ⟨hrolls, htraced.issued k event hevent hk⟩
      | ok s =>
        rw [hrun] at hevent htraced
        exact ⟨hrolls, htraced.issued k event (mem_of_withShared hevent hk) hk⟩

theorem realDictWorld_unraising : Unraising realDictWorld := ⟨fun _ _ => rfl, fun _ _ => rfl⟩

section RealDictWorld

variable {wal : Wal} {k : Int} {t : RollBack} (ht : rollBack realDictWorld true wal = .ok t)
  (hfree : some k ∉ t.fencedSeqs)

include ht hfree

/-- The effect lane reaches an effect that is due, with no fence in the way. -/
theorem handsOver_effect {e : Effect} (he : IssuesEffect wal k e) :
    ∃ event ∈ t.trace, handsOver k event = true := by
  obtain ⟨s₁, s₂, -, hstep, hend⟩ := legacy_step rfl ht he.own
  have hgrows := legacyStep_grows realDictWorld true wal.pairing s₁ e
  rw [hstep] at hgrows
  obtain ⟨referent, hreferent⟩ : ∃ referent, referentKey realDictWorld e = some referent := by
    rw [← Option.isSome_iff_exists, referentKey_isSome, he.outlives]
  have hundeclared := he.undeclared
  cases hinverse : e.inverse with
  | closure reason =>
    rw [hinverse] at hundeclared
    exact nomatch hundeclared
  | reconstructible op undoIdempotent register =>
    rw [hinverse] at hundeclared
    have htier : replayTier register undoIdempotent = .fenced := by
      simpa [Inverse.undeclared] using hundeclared
    have hunfenced : ¬(replayTier register undoIdempotent = .fenced ∧ e.seq ∈ s₁.fencedSeqs) :=
      fun hmem => hfree (hend.fencedSeqs (hgrows.fencedSeqs (he.seq_eq ▸ hmem.2)))
    unfold legacyStep at hstep
    simp only [he.undescribed, he.notOffset, hreferent, hinverse, if_neg hunfenced] at hstep
    have hstate : s₂ = _ := (Outcome.ok.inj hstep).symm
    refine ⟨.applyInverse (.legacy e.seq (replayTier register undoIdempotent)) op,
      hend.trace.subset ?_, ?_⟩
    · rw [hstate]
      exact List.mem_append_right _ List.mem_cons_self
    · rw [handsOver_iff]
      exact attemptAct_eq_attempt.2 ⟨htier, he.seq_eq⟩

/-- So does Phase 1, a descriptor. -/
theorem handsOver_descriptor {d : Descriptor} (hd : IssuesDescriptor wal k d) :
    ∃ event ∈ t.trace, handsOver k event = true := by
  obtain ⟨s₁, s₂, -, hstep, hend⟩ := transactional_step rfl ht hd.mem
  have hgrows := transactionalStep_grows realDictWorld true (wal.records.any isAborted)
    (dischargedOf wal.records) s₁ d
  rw [hstep] at hgrows
  have hunfenced : ¬(replayTier d.register d.undoIdempotent = .fenced ∧
      some d.seq ∈ s₁.fencedSeqs) := fun hmem =>
    hfree (hend.fencedSeqs (hgrows.fencedSeqs (hd.seq_eq ▸ hmem.2)))
  unfold transactionalStep at hstep
  simp only [if_neg hd.undischarged, if_neg hunfenced, hd.shown, Bool.false_eq_true,
    if_false] at hstep
  have hstate : s₂ = _ := (Outcome.ok.inj hstep).symm
  refine ⟨.applyInverse (.transactional d.seq (replayTier d.register d.undoIdempotent)) d.call,
    hend.trace.subset ?_, ?_⟩
  · rw [hstate]
    exact List.mem_append_right _ List.mem_cons_self
  · rw [handsOver_iff]
    exact attemptAct_eq_attempt.2 ⟨hd.undeclared, by rw [hd.seq_eq]⟩

end RealDictWorld

/-- The model declared real hands over what is due and not fenced in the log. -/
theorem exists_handsOver {wal : Wal} {k : Int} (hissues : Issues wal k)
    (hunfenced : some k ∉ replayFencesOf wal.records) {t : RollBack}
    (ht : rollBack realDictWorld true wal = .ok t) :
    ∃ event ∈ t.trace, handsOver k event = true := by
  have htraced : Traced wal (rollBack realDictWorld true wal).state := rollBack_traced rfl true wal
  rw [ht] at htraced
  by_contra hnone
  -- so nothing fenced it on the way either
  have hfree : some k ∉ t.fencedSeqs := fun hmem =>
    (htraced.fenced k hmem).elim hunfenced hnone
  rcases hissues with ⟨e, he⟩ | ⟨d, hd⟩
  · exact hnone (handsOver_effect ht hfree he)
  · exact hnone (handsOver_descriptor ht hfree hd)

theorem handedOver_eq_zero {k : Int} {events : List Event} :
    handedOver k events = 0 ↔ ∀ event ∈ events, ¬handsOver k event = true :=
  List.countP_eq_zero

/-- **No run against a real world hands over an undeclared inverse exactly when its fence is in the
log, or the log is not rolled back, or no record of it is due.** -/
theorem recover_hands_over_iff (wal : Wal) (seq : Int) :
    (∀ w strength basis, w.kind = .real → w.replaysDescriptors = false →
      handedOver seq (recover w strength basis wal).trace = 0) ↔
      some seq ∈ replayFencesOf wal.records ∨ ¬(RollsBack wal ∧ Issues wal seq) := by
  constructor
  · intro h
    by_contra hnot
    rw [not_or, not_not] at hnot
    obtain ⟨hunfenced, hrolls, hissues⟩ := hnot
    obtain ⟨t, ht⟩ := rollBack_ok realDictWorld_unraising true wal
    obtain ⟨event, hevent, hk⟩ := exists_handsOver hissues hunfenced ht
    have hzero := handedOver_eq_zero.1 (h realDictWorld none .wholeProcess rfl rfl)
    unfold recover at hzero
    simp only [hrolls.alive, hrolls.incomplete, hrolls.unapproved, ht, Bool.false_eq_true,
      if_false] at hzero
    exact hzero event ((withShared_trace realDictWorld .wholeProcess wal.records t.trace
      (.rolledBack (rollBackReport realDictWorld wal t))).subset hevent) hk
  · rintro (hfenced | hnot) w strength basis hreal hbinding
    · rw [handedOver_eq_count]
      exact count_eq_zero_of_spent (recover_guarded hreal hbinding strength basis wal) hfenced
        (by simp)
    · rw [handedOver_eq_zero]
      exact fun event hevent hk => hnot (issues_of_recover hbinding hevent hk)

end Revl.Recovery
