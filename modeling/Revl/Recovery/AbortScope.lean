import Revl.Recovery.Lanes

/-!
# Whose abort a fence belongs to

A fence says that an attempt was about to start. An abort that completed after it and names
the seq says how it ended. A log may hold the aborts of several runs; the walk asks whether
there is any.

- `AbortCovers`: an `aborted` record after the last fence of a seq names it.
- `FencedInverse`: an undeclared transactional inverse that is open and fenced.
- `AbortScoped`: such an inverse counts as done only when an abort covers it, and is fenced
  residue otherwise.
- `abortScoped_iff`: **so it is exactly when no abort of another run is on the log**.
-/

namespace Revl.Recovery

/-- An `aborted` record that names the seq stands after its last fence. -/
def AbortCovers (records : List WalRecord) (seq : Int) : Prop :=
  ∃ before replayed later, records = before ++ .aborted replayed :: later ∧ seq ∈ replayed ∧
    .replayFence (some seq) ∈ before ∧ .replayFence (some seq) ∉ later

/-- An undeclared transactional inverse, not discharged, with a fence on the log. -/
structure FencedInverse (records : List WalRecord) (d : Descriptor) : Prop where
  transactional : d ∈ transactionalOf records
  undischarged : d.seq ∉ dischargedOf records
  undeclared : replayTier d.register d.undoIdempotent = .fenced
  fenced : .replayFence (some d.seq) ∈ records

/-- A seq reported as rolled back by an abort that completed. -/
def CountedByAbort (s : RollBack) (seq : Int) : Prop :=
  ∃ done ∈ s.rolledBack, done.seq = seq ∧ done.replay = .abortPhase1

/-- A descriptor reported as fenced residue, its outcome unknown. -/
def FencedResidue (w : World) (s : RollBack) (d : Descriptor) : Prop :=
  ⟨some d.seq, w.key d.call⟩ ∈ s.fencedDeferred ∧ fencedRecord d (w.key d.call) ∈ s.outstanding

/-- The report counts a fenced inverse as done only on the strength of its own abort. -/
def AbortScoped (w : World) (durable : Bool) (wal : Wal) : Prop :=
  ∀ s, rollBack w durable wal = .ok s → ∀ d, FencedInverse wal.records d →
    (CountedByAbort s d.seq → AbortCovers wal.records d.seq) ∧
      (¬AbortCovers wal.records d.seq → FencedResidue w s d)

/-- No fenced inverse stands on a log with an abort that does not cover it. -/
def AbortsCoverFences (records : List WalRecord) : Prop :=
  ∀ d, FencedInverse records d → records.any isAborted = true → AbortCovers records d.seq

/-! ## What the walk reports -/

/-- Nothing is counted by an abort where the log has none. -/
def NoAbortCount (s : RollBack) : Prop := ∀ done ∈ s.rolledBack, done.replay ≠ .abortPhase1

theorem NoAbortCount.push {rolledBack : List Done}
    (h : ∀ done ∈ rolledBack, done.replay ≠ .abortPhase1) {done : Done}
    (hdone : done.replay ≠ .abortPhase1) :
    ∀ d ∈ rolledBack ++ [done], d.replay ≠ .abortPhase1 := by
  intro d hd
  rcases List.mem_append.1 hd with hd | hd
  · exact h d hd
  · obtain rfl := List.mem_singleton.1 hd
    exact hdone

theorem legacyStep_rolledBack (w : World) (durable : Bool) (pairing : Pairing) (s : RollBack)
    (e : Effect) : (legacyStep w durable pairing s e).state.rolledBack = s.rolledBack := by
  unfold legacyStep
  cases pairing.described e with
  | some d => rfl
  | none =>
  cases pairing.offsetBy e with
  | some d => rfl
  | none =>
  cases referentKey w e with
  | none => rfl
  | some referent =>
  cases e.inverse with
  | closure reason => rfl
  | reconstructible op undoIdempotent register =>
    obtain ⟨trace, fencedSeqs, hfence⟩ := s.spendFence_eq w durable
      (replayTier register undoIdempotent) e.seq
    simp only [hfence]
    split_ifs
    · rfl
    · rfl
    · rfl
    · split <;> rfl

theorem transactionalStep_noAbortCount (w : World) (durable : Bool) (discharged : List Int)
    (s : RollBack) (d : Descriptor) (h : NoAbortCount s) :
    NoAbortCount (transactionalStep w durable false discharged s d).state := by
  unfold transactionalStep
  obtain ⟨trace, fencedSeqs, hfence⟩ := s.spendFence_eq w durable
    (replayTier d.register d.undoIdempotent) (some d.seq)
  simp only [hfence, Bool.false_eq_true, if_false]
  split_ifs
  · exact h
  · exact h
  · exact h
  · split
    · exact h
    · exact NoAbortCount.push h (by simp)

theorem compensationStep_rolledBack (w : World) (ranByAbort discharged : List Int)
    (s : RollBack) (d : Descriptor) :
    (compensationStep w ranByAbort discharged s d).state.rolledBack = s.rolledBack := by
  unfold compensationStep
  simp only
  split_ifs
  · rfl
  · rfl
  · rfl
  · split <;> rfl

/-- Without an `aborted` record nothing is counted by one. -/
theorem rollBack_noAbortCount {w : World} {durable : Bool} {wal : Wal} {t : RollBack}
    (hbinding : w.replaysDescriptors = false) (h : rollBack w durable wal = .ok t)
    (hnone : wal.records.any isAborted = false) : NoAbortCount t := by
  obtain ⟨s₁, s₂, heffect, htransactional, hcompensation, -⟩ := rollBack_lanes hbinding h
  have h₁ : NoAbortCount s₁ := by
    refine Outcome.runSteps_inv_ok heffect (fun done hdone => by cases hdone) fun e _ s hs => ?_
    unfold NoAbortCount
    rw [legacyStep_rolledBack]
    exact hs
  have h₂ : NoAbortCount s₂ := by
    rw [transactionalLane, hnone] at htransactional
    exact Outcome.runSteps_inv_ok htransactional (show NoAbortCount (seedDescriptors w wal s₁)
      from h₁) fun d _ s hs => transactionalStep_noAbortCount w durable _ s d hs
  refine Outcome.runSteps_inv_ok hcompensation h₂ fun d _ s hs => ?_
  unfold NoAbortCount
  rw [compensationStep_rolledBack]
  exact hs

/-- What the walk reports of a fenced inverse: whether there is any abort decides. -/
theorem rollBack_fencedInverse {w : World} {durable : Bool} {wal : Wal} {t : RollBack}
    (hbinding : w.replaysDescriptors = false) (h : rollBack w durable wal = .ok t)
    {d : Descriptor} (hd : FencedInverse wal.records d) :
    if wal.records.any isAborted then CountedByAbort t d.seq else FencedResidue w t d := by
  obtain ⟨s₁, s₂, hstart, hstep, hend⟩ := transactional_step hbinding h hd.transactional
  have hfenced : some d.seq ∈ s₁.fencedSeqs :=
    hstart.fencedSeqs (mem_replayFencesOf.2 hd.fenced)
  unfold transactionalStep at hstep
  simp only [if_neg hd.undischarged, if_pos (And.intro hd.undeclared hfenced)] at hstep
  split_ifs at hstep ⊢
  · obtain rfl := Outcome.ok.inj hstep
    refine ⟨⟨d.seq, w.key d.call, d.call, .abortPhase1⟩, ?_, rfl, rfl⟩
    exact hend.rolledBack.subset (List.mem_append_right _ List.mem_cons_self)
  · obtain rfl := Outcome.ok.inj hstep
    refine ⟨?_, ?_⟩
    · exact hend.fencedDeferred.subset (List.mem_append_right _ List.mem_cons_self)
    · exact hend.outstanding.subset (List.mem_append_right _ List.mem_cons_self)

/-- **A fenced inverse counts as done only on the strength of its own abort, against every
world that takes single calls, exactly when each abort on the log covers the fenced inverses
on it.** -/
theorem abortScoped_iff (wal : Wal) :
    (∀ w durable, w.replaysDescriptors = false → AbortScoped w durable wal) ↔
      AbortsCoverFences wal.records := by
  constructor
  · intro h d hd habort
    obtain ⟨t, ht⟩ := rollBack_ok dictWorld_unraising true wal
    have hcounted := rollBack_fencedInverse rfl ht hd
    rw [if_pos habort] at hcounted
    exact ((h dictWorld true rfl) t ht d hd).1 hcounted
  · intro hcover w durable hbinding s hs d hd
    have hreport := rollBack_fencedInverse hbinding hs hd
    by_cases habort : wal.records.any isAborted = true
    · have hcovered := hcover d hd habort
      exact ⟨fun _ => hcovered, fun hnot => absurd hcovered hnot⟩
    · rw [if_neg habort] at hreport
      refine ⟨?_, fun _ => hreport⟩
      rintro ⟨done, hmem, -, hphase⟩
      have hnone := rollBack_noAbortCount hbinding hs (by simpa using habort)
      exact absurd hphase (hnone done hmem)

/-- A run that aborted, and a later one that was cut after a fence. -/
def abortOfAnotherRun : Wal where
  records := [.aborted [3],
    .descriptor ⟨7, .transactional, ⟨some "fs", some "remove", some [.str "a.txt"]⟩,
      ⟨some "fs", none, some "write", [.str "a.txt"], none⟩, none, false, none, none⟩,
    .replayFence (some 7)]
  torn := false
  callers _ := []

/-- The cut run's inverse is reported as rolled back by the abort of the earlier one. -/
theorem not_abortScoped_abortOfAnotherRun : ¬AbortScoped dictWorld true abortOfAnotherRun := by
  intro h
  have hinverse : FencedInverse abortOfAnotherRun.records
      ⟨7, .transactional, ⟨some "fs", some "remove", some [.str "a.txt"]⟩,
        ⟨some "fs", none, some "write", [.str "a.txt"], none⟩, none, false, none, none⟩ :=
    ⟨by simp [abortOfAnotherRun, transactionalOf, descriptorsOf],
      by simp [abortOfAnotherRun, dischargedOf], rfl, by simp [abortOfAnotherRun]⟩
  obtain ⟨t, ht⟩ := rollBack_ok dictWorld_unraising true abortOfAnotherRun
  have hcounted : CountedByAbort t 7 := rollBack_fencedInverse rfl ht hinverse
  obtain ⟨before, replayed, later, hrecords, hseq, -⟩ := (h t ht _ hinverse).1 hcounted
  -- the one `aborted` record names another seq
  have habort : WalRecord.aborted replayed ∈ abortOfAnotherRun.records := by
    rw [hrecords]
    exact List.mem_append_right _ List.mem_cons_self
  have : replayed = [3] := by simpa [abortOfAnotherRun] using habort
  rw [this] at hseq
  exact absurd hseq (by decide)

end Revl.Recovery
