import Revl.Runtime.Frame

/-!
# One disposition for each entry

Committing, aborting, withdrawing, failing and halting all pass through the same callables. What
each of them does to an entry is settled once, entry by entry, and carried over the loops.

- `Keeps`: what no step of a teardown changes, and the inventory of a halt.
- `settledCount`: how often an entry was discharged, started, passed over or held.
- `dispose_count`, `guarded_count`, `compensate_count`: **one step settles its own entry and no
  other**.
-/

namespace Revl.Runtime

open Recovery (EntryKind)

namespace Process

/-! ## What a teardown keeps -/

/-- A frame without the queues a teardown takes from. -/
def bare (f : Frame) : Frame :=
  { f with
    deferredTransactional := []
    deferredCompensations := []
    pendingCompensations := [] }

/-- The inventory of a halt: no entry twice, and every entry that could be named. -/
def Inventory (s : Process) : Prop :=
  s.stranded.Nodup ∧ (s.halted = true → ∀ e ∈ s.nameable, e ∈ s.stranded)

/-- Frames keep their entries and flags, and a halt stays. -/
structure Keeps (s t : Process) : Prop where
  bare : ∀ i, bare (t.frames i) = bare (s.frames i)
  built : t.built = s.built
  owned : t.owned = s.owned
  verdict : t.verdict = s.verdict
  halts : s.halted = true → t.halted = true
  inventory : Inventory s → Inventory t

theorem Keeps.refl (s : Process) : Keeps s s := ⟨fun _ => rfl, rfl, rfl, rfl, id, id⟩

theorem Keeps.trans {s t u : Process} (h₁ : Keeps s t) (h₂ : Keeps t u) : Keeps s u where
  bare i := (h₂.bare i).trans (h₁.bare i)
  built := h₂.built.trans h₁.built
  owned := h₂.owned.trans h₁.owned
  verdict := h₂.verdict.trans h₁.verdict
  halts h := h₂.halts (h₁.halts h)
  inventory h := h₂.inventory (h₁.inventory h)

namespace Keeps

variable {s t : Process} (h : Keeps s t)

include h

theorem transactional (i : Nat) : (t.frames i).transactional = (s.frames i).transactional :=
  congrArg (·.transactional) (h.bare i)

theorem compensations (i : Nat) : (t.frames i).compensations = (s.frames i).compensations :=
  congrArg (·.compensations) (h.bare i)

theorem stack (i : Nat) : (t.frames i).stack = (s.frames i).stack :=
  congrArg (·.stack) (h.bare i)

theorem committed (i : Nat) : (t.frames i).committed = (s.frames i).committed :=
  congrArg (·.committed) (h.bare i)

theorem aborting (i : Nat) : (t.frames i).aborting = (s.frames i).aborting :=
  congrArg (·.aborting) (h.bare i)

theorem holding (i : Nat) : (t.frames i).holding = (s.frames i).holding :=
  congrArg (·.holding) (h.bare i)

theorem nameable : t.nameable = s.nameable := by
  unfold Process.nameable
  simp only [h.built, h.transactional, h.compensations]

theorem holds (e : Entry) : t.holds e = s.holds e := by
  unfold Process.holds
  rw [h.owned, h.verdict, h.aborting, h.holding]

end Keeps

/-- A step that leaves the frames and the E-Stop alone. -/
theorem Keeps.of_eq {s t : Process} (hframes : ∀ i, Process.bare (t.frames i) =
    Process.bare (s.frames i)) (hbuilt : t.built = s.built) (howned : t.owned = s.owned)
    (hverdict : t.verdict = s.verdict) (hhalted : t.halted = s.halted)
    (hstranded : t.stranded = s.stranded) : Keeps s t := by
  refine ⟨hframes, hbuilt, howned, hverdict, fun h => hhalted.trans h, fun h => ?_⟩
  have hname : t.nameable = s.nameable := by
    unfold Process.nameable
    rw [hbuilt]
    refine congrArg (fun g => s.built.flatMap g) (funext fun i => ?_)
    rw [show (t.frames i).transactional = (s.frames i).transactional from
        congrArg (·.transactional) (hframes i),
      show (t.frames i).compensations = (s.frames i).compensations from
        congrArg (·.compensations) (hframes i)]
  unfold Inventory
  rw [hstranded, hhalted, hname]
  exact h

theorem mem_mark {e x : Entry} {l : List Entry} : x ∈ mark e l ↔ x = e ∨ x ∈ l := by
  unfold mark
  split
  · next h =>
    constructor
    · exact Or.inr
    · rintro (rfl | hx)
      · exact h
      · exact hx
  · simp [or_comm]

theorem nodup_mark {e : Entry} {l : List Entry} (h : l.Nodup) : (mark e l).Nodup := by
  unfold mark
  split
  · exact h
  · next hne => exact List.nodup_append.2 ⟨h, List.nodup_singleton e, by
      rintro a ha b hb rfl
      exact hne (List.mem_singleton.1 hb ▸ ha)⟩

theorem count_mark_self {e : Entry} {l : List Entry} (h : l.count e = 0) :
    (mark e l).count e = 1 := by
  have hne : e ∉ l := List.count_eq_zero.1 h
  simp [mark, hne, h]

theorem count_mark_ne {e x : Entry} {l : List Entry} (h : x ≠ e) :
    (mark e l).count x = l.count x := by
  unfold mark
  split
  · rfl
  · simp [List.count_append, h.symm]

theorem keeps_strand (s : Process) (e : Entry) : Keeps s (s.strand e) := by
  refine ⟨fun _ => rfl, rfl, rfl, rfl, id, fun h => ⟨nodup_mark h.1, fun hh x hx => ?_⟩⟩
  exact mem_mark.2 (Or.inr (h.2 hh x hx))

theorem keeps_foldl {α : Type} {f : Process → α → Process} (hf : ∀ s a, Keeps s (f s a))
    (l : List α) (s : Process) : Keeps s (l.foldl f s) := by
  induction l generalizing s with
  | nil => exact Keeps.refl s
  | cons a l ih => exact (hf s a).trans (ih (f s a))

theorem mem_foldl_strand {x : Entry} {l : List Entry} {s : Process} :
    x ∈ (l.foldl strand s).stranded ↔ x ∈ s.stranded ∨ x ∈ l := by
  induction l generalizing s with
  | nil => simp
  | cons e l ih =>
    rw [List.foldl_cons, ih, List.mem_cons]
    show x ∈ mark e s.stranded ∨ x ∈ l ↔ _
    rw [mem_mark]
    tauto

theorem keeps_engage (s : Process) : Keeps s s.engage := by
  unfold engage
  split
  · exact Keeps.refl s
  · have h := keeps_foldl keeps_strand s.nameable s
    refine ⟨h.bare, h.built, h.owned, h.verdict, fun _ => rfl, fun hinv => ?_⟩
    refine ⟨(h.inventory hinv).1, fun _ x hx => ?_⟩
    have hname : x ∈ s.nameable := h.nameable ▸ hx
    exact mem_foldl_strand.2 (Or.inr hname)

/-- Stranding touches the inventory alone. -/
theorem foldl_strand_eq (l : List Entry) (s : Process) :
    ∃ named, l.foldl strand s = { s with stranded := named } := by
  induction l generalizing s with
  | nil => exact ⟨s.stranded, rfl⟩
  | cons e l ih =>
    obtain ⟨named, h⟩ := ih (s.strand e)
    exact ⟨named, h⟩

theorem foldl_strand_marks (l : List Entry) (s : Process) : (l.foldl strand s).marks = s.marks := by
  obtain ⟨named, h⟩ := foldl_strand_eq l s
  rw [h]

theorem foldl_strand_frames (l : List Entry) (s : Process) :
    (l.foldl strand s).frames = s.frames := by
  obtain ⟨named, h⟩ := foldl_strand_eq l s
  rw [h]

theorem foldl_strand_halted (l : List Entry) (s : Process) :
    (l.foldl strand s).halted = s.halted := by
  obtain ⟨named, h⟩ := foldl_strand_eq l s
  rw [h]

/-- A halt touches the E-Stop's own fields. -/
theorem engage_eq (s : Process) : ∃ halted named inFlight, s.engage =
    { s with
      halted := halted
      stranded := named
      ambiguous := inFlight } := by
  unfold engage
  split
  · exact ⟨s.halted, s.stranded, s.ambiguous, rfl⟩
  · obtain ⟨named, h⟩ := foldl_strand_eq s.nameable s
    rw [h]
    exact ⟨true, named, _, rfl⟩

theorem engage_marks (s : Process) : s.engage.marks = s.marks := by
  obtain ⟨_, _, _, h⟩ := engage_eq s
  rw [h]

theorem engage_frames (s : Process) : s.engage.frames = s.frames := by
  obtain ⟨_, _, _, h⟩ := engage_eq s
  rw [h]

variable (env : Env)

theorem keeps_poll (s : Process) : Keeps s (s.poll env) := by
  have htick : Keeps s { s with tick := s.tick + 1 } :=
    Keeps.of_eq (fun _ => rfl) rfl rfl rfl rfl rfl
  unfold poll
  split_ifs
  · exact Keeps.refl s
  · exact htick.trans (keeps_engage _)
  · exact htick

theorem poll_eq (s : Process) : ∃ halted named inFlight tick, s.poll env =
    { s with
      halted := halted
      stranded := named
      ambiguous := inFlight
      tick := tick } := by
  unfold poll
  split_ifs
  · exact ⟨s.halted, s.stranded, s.ambiguous, s.tick, rfl⟩
  · obtain ⟨_, _, _, h⟩ := engage_eq { s with tick := s.tick + 1 }
    rw [h]
    exact ⟨_, _, _, _, rfl⟩
  · exact ⟨s.halted, s.stranded, s.ambiguous, s.tick + 1, rfl⟩

theorem poll_marks (s : Process) : (s.poll env).marks = s.marks := by
  obtain ⟨_, _, _, _, h⟩ := poll_eq env s
  rw [h]

theorem poll_frames (s : Process) : (s.poll env).frames = s.frames := by
  obtain ⟨_, _, _, _, h⟩ := poll_eq env s
  rw [h]

theorem poll_nextStamp (s : Process) : (s.poll env).nextStamp = s.nextStamp := by
  obtain ⟨_, _, _, _, h⟩ := poll_eq env s
  rw [h]

theorem poll_of_halted {s : Process} (h : s.halted = true) : s.poll env = s := by
  unfold poll
  rw [if_pos h]

/-! ## One entry -/

/-- How often an entry was discharged, started, passed over by the budget or held. -/
def settledCount (s : Process) (e : Entry) : Nat :=
  s.marks.discharged.count e + s.marks.started.count e + s.marks.notAttempted.count e +
    s.marks.held.count e

theorem settledCount_congr {s t : Process} (h : t.marks = s.marks) (e : Entry) :
    t.settledCount e = s.settledCount e := by
  unfold settledCount
  rw [h]

theorem settledCount_eq_zero {s : Process} {e : Entry} :
    s.settledCount e = 0 ↔ e ∉ s.marks.discharged ∧ e ∉ s.marks.started ∧
      e ∉ s.marks.notAttempted ∧ e ∉ s.marks.held := by
  unfold settledCount
  simp only [Nat.add_eq_zero_iff, List.count_eq_zero, and_assoc]

theorem host_marks (e : Entry) (s : Process) :
    (s.host env e).marks = { s.marks with started := s.marks.started ++ [e] } := by
  unfold host
  show Process.marks (if _ then _ else _) = _
  split
  · exact engage_marks _
  · rfl

theorem host_frames (e : Entry) (s : Process) : (s.host env e).frames = s.frames := by
  unfold host
  show Process.frames (if _ then _ else _) = _
  split
  · exact engage_frames _
  · rfl

theorem keeps_host (e : Entry) (s : Process) : Keeps s (s.host env e) := by
  have hstart : Keeps s { s with marks := { s.marks with started := s.marks.started ++ [e] } } :=
    Keeps.of_eq (fun _ => rfl) rfl rfl rfl rfl rfl
  have htick (u : Process) : Keeps u { u with tick := u.tick + 1 } :=
    Keeps.of_eq (fun _ => rfl) rfl rfl rfl rfl rfl
  unfold host
  dsimp only
  split
  · exact (hstart.trans (keeps_engage _)).trans (htick _)
  · exact hstart.trans (htick _)

theorem fence_eq (e : Entry) (s : Process) :
    s.fence e = s ∨ ∃ r, s.fence e = s.append r := by
  unfold fence
  split
  · exact Or.inr ⟨_, rfl⟩
  · exact Or.inl rfl

theorem fence_marks (e : Entry) (s : Process) : (s.fence e).marks = s.marks := by
  rcases fence_eq e s with h | ⟨r, h⟩ <;> simp only [h, append]

theorem fence_frames (e : Entry) (s : Process) : (s.fence e).frames = s.frames := by
  rcases fence_eq e s with h | ⟨r, h⟩ <;> simp only [h, append]

theorem keeps_append (r : Recovery.WalRecord) (s : Process) : Keeps s (s.append r) :=
  Keeps.of_eq (fun _ => rfl) rfl rfl rfl rfl rfl

theorem keeps_fence (e : Entry) (s : Process) : Keeps s (s.fence e) := by
  rcases fence_eq e s with h | ⟨r, h⟩ <;> rw [h]
  · exact Keeps.refl s
  · exact keeps_append r s

/-- What one attempt at a host body does: a halt strands the entry, or it is started. -/
structure Attempt (e : Entry) (s t : Process) : Prop where
  keeps : Keeps s t
  frames : t.frames = s.frames
  marks : (t.halted = true ∧ t.marks = s.marks) ∨ (s.spent e = true ∧ t.marks = s.marks) ∨
    s.halted = false ∧ t.marks = { s.marks with started := s.marks.started ++ [e] }

theorem spent_congr {s t : Process} (h : t.marks = s.marks) (e : Entry) :
    t.spent e = s.spent e := by
  unfold spent
  rw [h]

/-- An attempt polls, and what it does between the polls and the host body touches no entry. -/
theorem attempt_of (e : Entry) (s : Process) {fenced : Process → Process}
    (hkeeps : ∀ t, Keeps t (fenced t)) (hframes : ∀ t, (fenced t).frames = t.frames)
    (hmarks : ∀ t, (fenced t).marks = t.marks) :
    Attempt e s (if (s.poll env).halted = true then (s.poll env).strand e
      else if (s.poll env).spent e then s.poll env else host env e (fenced (s.poll env))) := by
  have hpoll := keeps_poll env s
  by_cases hh : (s.poll env).halted = true
  · rw [if_pos hh]
    exact
      { keeps := hpoll.trans (keeps_strand _ e)
        frames := poll_frames env s
        marks := Or.inl ⟨hh, poll_marks env s⟩ }
  · rw [if_neg hh]
    by_cases hs : (s.poll env).spent e = true
    · rw [if_pos hs]
      exact
        { keeps := hpoll
          frames := poll_frames env s
          marks := Or.inr (Or.inl ⟨spent_congr (poll_marks env s) e ▸ hs, poll_marks env s⟩) }
    · rw [if_neg hs]
      refine
        { keeps := (hpoll.trans (hkeeps _)).trans (keeps_host env e _)
          frames := by rw [host_frames, hframes, poll_frames]
          marks := Or.inr (Or.inr ⟨?_, by rw [host_marks, hmarks, poll_marks]⟩) }
      exact Bool.eq_false_iff.2 fun h => hh (hpoll.halts h)

theorem replay_attempt (e : Entry) (s : Process) : Attempt e s (s.replay env e) :=
  attempt_of env e s (keeps_fence e) (fence_frames e) (fence_marks e)

theorem runPhase2_attempt (e : Entry) (s : Process) : Attempt e s (s.runPhase2 env e) :=
  attempt_of env e s Keeps.refl (fun _ => rfl) (fun _ => rfl)

/-- What one step of a teardown does to its own entry and to the others. -/
structure Settles (e : Entry) (s t : Process) : Prop where
  keeps : Keeps s t
  others : ∀ x, x ≠ e → t.settledCount x = s.settledCount x
  pending : ∀ i, (t.frames i).pendingCompensations = (s.frames i).pendingCompensations ∨
    i = e.frame ∧ e.kind = .compensation ∧ s.holds e = false ∧
      (s.frames e.frame).committed = false ∧ t.marks = s.marks ∧
      (t.frames i).pendingCompensations = (s.frames i).pendingCompensations ++ [e]
  own : s.settledCount e = 0 → t.settledCount e = 1 ∨
    t.settledCount e = 0 ∧ (t.halted = true ∨ e ∈ (t.frames e.frame).pendingCompensations)

theorem settledCount_started {s t : Process} {e : Entry}
    (h : t.marks = { s.marks with started := s.marks.started ++ [e] }) (x : Entry) :
    t.settledCount x = s.settledCount x + if x = e then 1 else 0 := by
  unfold settledCount
  rw [h]
  by_cases hx : x = e
  · subst hx
    simp
    omega
  · have : ¬e = x := fun he => hx he.symm
    simp [hx, this, List.count_append]

/-- An attempt settles its entry, unless a halt is in force. -/
theorem Attempt.settles {e : Entry} {s t : Process} (h : Attempt e s t) : Settles e s t := by
  refine ⟨h.keeps, ?_, fun i => Or.inl (by rw [h.frames]), ?_⟩
  · intro x hx
    rcases h.marks with ⟨-, hm⟩ | ⟨-, hm⟩ | ⟨-, hm⟩
    · exact settledCount_congr hm x
    · exact settledCount_congr hm x
    · rw [settledCount_started hm x, if_neg hx, Nat.add_zero]
  · intro h0
    rcases h.marks with ⟨hh, hm⟩ | ⟨hs, -⟩ | ⟨-, hm⟩
    · exact Or.inr ⟨(settledCount_congr hm e).trans h0, Or.inl hh⟩
    · obtain ⟨hd, hst, -, -⟩ := settledCount_eq_zero.1 h0
      simp [spent, hd, hst] at hs
    · rw [settledCount_started hm e, if_pos rfl, h0]
      exact Or.inl rfl

theorem hold_settles (e : Entry) (s : Process) : Settles e s (s.hold e) := by
  refine ⟨Keeps.of_eq (fun _ => rfl) rfl rfl rfl rfl rfl, ?_, fun _ => Or.inl rfl, ?_⟩
  · intro x hx
    show _ + _ + _ + (mark e s.marks.held).count x = _
    rw [count_mark_ne hx]
    rfl
  · intro h0
    obtain ⟨hd, hst, hn, hheld⟩ := settledCount_eq_zero.1 h0
    refine Or.inl ?_
    show s.marks.discharged.count e + s.marks.started.count e + s.marks.notAttempted.count e +
      (mark e s.marks.held).count e = 1
    rw [count_mark_self (List.count_eq_zero.2 hheld), List.count_eq_zero.2 hd,
      List.count_eq_zero.2 hst, List.count_eq_zero.2 hn]

theorem call_settles (e : Entry) (s : Process) : Settles e s (s.call env e) := by
  unfold call
  by_cases hhold : s.holds e = true
  · rw [if_pos hhold]
    exact hold_settles e s
  rw [if_neg hhold]
  by_cases hcommit : (s.frames e.frame).committed = true
  · rw [if_pos hcommit]
    refine ⟨Keeps.of_eq (fun _ => rfl) rfl rfl rfl rfl rfl, ?_, fun _ => Or.inl rfl, ?_⟩
    · intro x hx
      show (mark e s.marks.discharged).count x + _ + _ + _ = _
      rw [count_mark_ne hx]
      rfl
    · intro h0
      obtain ⟨hd, hst, hn, hheld⟩ := settledCount_eq_zero.1 h0
      refine Or.inl ?_
      show (mark e s.marks.discharged).count e + s.marks.started.count e +
        s.marks.notAttempted.count e + s.marks.held.count e = 1
      rw [count_mark_self (List.count_eq_zero.2 hd), List.count_eq_zero.2 hst,
        List.count_eq_zero.2 hn, List.count_eq_zero.2 hheld]
  rw [if_neg hcommit]
  cases hk : e.kind with
  | transactional => exact (replay_attempt env e s).settles
  | compensation =>
    have hself : ((s.updateFrame e.frame fun f => { f with
        pendingCompensations := f.pendingCompensations ++ [e] }).frames
          e.frame).pendingCompensations = (s.frames e.frame).pendingCompensations ++ [e] := by
      simp [updateFrame]
    refine ⟨Keeps.of_eq (fun i => ?_) rfl rfl rfl rfl rfl, fun _ _ => rfl, fun i => ?_, fun h0 => ?_⟩
    · by_cases hi : i = e.frame
      · subst hi
        simp [updateFrame, bare]
      · simp [updateFrame, hi]
    · by_cases hi : i = e.frame
      · subst hi
        exact Or.inr ⟨rfl, hk, Bool.eq_false_iff.2 hhold, Bool.eq_false_iff.2 hcommit, rfl, hself⟩
      · simp [updateFrame, hi]
    · refine Or.inr ⟨h0, Or.inr ?_⟩
      rw [hself]
      exact List.mem_append_right _ (List.mem_singleton.2 rfl)

/-- Residue is kept beside the flags. -/
theorem Settles.of_fields {e : Entry} {s t u : Process} (h : Settles e s t)
    (hk : Keeps t u) (hm : u.marks = t.marks) (hf : u.frames = t.frames)
    (hh : u.halted = t.halted) : Settles e s u := by
  refine ⟨h.keeps.trans hk, fun x hx => (settledCount_congr hm x).trans (h.others x hx), ?_, ?_⟩
  · intro i
    rw [hf, hm]
    exact h.pending i
  · intro h0
    rw [settledCount_congr hm e, hh, hf]
    exact h.own h0

theorem recordRaise_eq (e : Entry) (s t : Process) :
    recordRaise env e s t = t ∨ recordRaise env e s t = { t with raised := t.raised ++ [e] } := by
  unfold recordRaise
  split
  · exact Or.inr rfl
  · exact Or.inl rfl

theorem Settles.recordRaise {e : Entry} {s t : Process} (h : Settles e s t) :
    Settles e s (recordRaise env e s t) := by
  rcases recordRaise_eq env e s t with heq | heq <;> rw [heq]
  · exact h
  · exact h.of_fields (Keeps.of_eq (fun _ => rfl) rfl rfl rfl rfl rfl) rfl rfl rfl

theorem dispose_settles (e : Entry) (s : Process) : Settles e s (s.dispose env e) :=
  (call_settles env e s).recordRaise env

theorem guarded_settles (e : Entry) (s : Process) : Settles e s (s.guarded env e) := by
  unfold guarded
  dsimp only
  have hpoll := keeps_poll env s
  by_cases hh : (s.poll env).halted = true
  · rw [if_pos hh]
    refine ⟨hpoll.trans (keeps_strand _ e), ?_, fun i => Or.inl ?_, fun h0 => Or.inr ⟨?_, Or.inl hh⟩⟩
    · exact fun x _ => settledCount_congr (poll_marks env s) x
    · exact congrArg (fun g : Nat → Frame => (g i).pendingCompensations) (poll_frames env s)
    · exact (settledCount_congr (poll_marks env s) e).trans h0
  · rw [if_neg hh]
    have henter : Keeps s ((s.poll env).enter e) :=
      hpoll.trans (Keeps.of_eq (fun _ => rfl) rfl rfl rfl rfl rfl)
    have hd := dispose_settles env e ((s.poll env).enter e)
    have hmarks : ((s.poll env).enter e).marks = s.marks := poll_marks env s
    have hframes : ((s.poll env).enter e).frames = s.frames := poll_frames env s
    have hcalled : Settles e s (((s.poll env).enter e).dispose env e) := by
      refine ⟨henter.trans hd.keeps, fun x hx => ?_, fun i => ?_, fun h0 => ?_⟩
      · exact (hd.others x hx).trans (settledCount_congr hmarks x)
      · have h := hd.pending i
        rwa [henter.holds, hframes, hmarks] at h
      · exact hd.own ((settledCount_congr hmarks e).trans h0)
    exact hcalled.of_fields (Keeps.of_eq (fun _ => rfl) rfl rfl rfl rfl rfl) rfl rfl rfl

theorem compensate_settles (e : Entry) (s : Process) : Settles e s (s.compensate env e) := by
  have htick : Keeps s { s with tick := s.tick + 1 } :=
    Keeps.of_eq (fun _ => rfl) rfl rfl rfl rfl rfl
  unfold compensate
  dsimp only
  by_cases hx : env.expired s.tick = true
  · rw [if_pos hx]
    refine ⟨Keeps.of_eq (fun _ => rfl) rfl rfl rfl rfl rfl, fun x hne => ?_,
      fun _ => Or.inl rfl, fun h0 => Or.inl ?_⟩
    · show _ + _ + (mark e s.marks.notAttempted).count x + _ = _
      rw [count_mark_ne hne]
      rfl
    · obtain ⟨hd, hst, hn, hheld⟩ := settledCount_eq_zero.1 h0
      show s.marks.discharged.count e + s.marks.started.count e +
        (mark e s.marks.notAttempted).count e + s.marks.held.count e = 1
      rw [count_mark_self (List.count_eq_zero.2 hn), List.count_eq_zero.2 hst,
        List.count_eq_zero.2 hd, List.count_eq_zero.2 hheld]
  · rw [if_neg hx]
    have ha := (runPhase2_attempt env e { s with tick := s.tick + 1 }).settles.recordRaise env
    exact ⟨htick.trans ha.keeps, ha.others, fun i => ha.pending i, fun h0 => ha.own h0⟩

/-! ## Loops -/

/-- The entries a step may queue for Phase 2. -/
def queues (s : Process) (i : Nat) (e : Entry) : Bool :=
  e.frame = i && e.kind = .compensation && !s.holds e && !(s.frames e.frame).committed

/-- **A loop settles each of its entries once**, unless a halt is in force, or queues it. -/
theorem foldl_settles {f : Process → Entry → Process} (hf : ∀ s e, Settles e s (f s e))
    {l : List Entry} (hn : l.Nodup) {s : Process} (h0 : ∀ e ∈ l, s.settledCount e = 0) :
    Keeps s (l.foldl f s) ∧
      (∀ x, x ∉ l → (l.foldl f s).settledCount x = s.settledCount x) ∧
      (∀ i, ∃ q, q.Sublist (l.filter (s.queues i)) ∧
        (∀ x ∈ q, (l.foldl f s).settledCount x = 0) ∧
        ((l.foldl f s).frames i).pendingCompensations =
          (s.frames i).pendingCompensations ++ q) ∧
      ∀ e ∈ l, (l.foldl f s).settledCount e = 1 ∨ (l.foldl f s).settledCount e = 0 ∧
        ((l.foldl f s).halted = true ∨
          e ∈ ((l.foldl f s).frames e.frame).pendingCompensations) := by
  induction l generalizing s with
  | nil => exact ⟨Keeps.refl s, fun _ _ => rfl, fun i => ⟨[], List.nil_sublist _, by simp, by simp⟩,
      by simp⟩
  | cons e l ih =>
    obtain ⟨hnot, hn⟩ := List.nodup_cons.1 hn
    have hstep := hf s e
    have h0' : ∀ x ∈ l, (f s e).settledCount x = 0 := by
      intro x hx
      rw [hstep.others x fun h => hnot (h ▸ hx)]
      exact h0 x (List.mem_cons_of_mem _ hx)
    obtain ⟨hk, hothers, hpend, hown⟩ := ih hn h0'
    have hqueues : ∀ i, (f s e).queues i = s.queues i := by
      intro i
      funext x
      unfold queues
      rw [hstep.keeps.holds, hstep.keeps.committed]
    rw [List.foldl_cons]
    refine ⟨hstep.keeps.trans hk, fun x hx => ?_, fun i => ?_, fun x hx => ?_⟩
    · have hxe : x ≠ e := fun h => hx (h ▸ List.mem_cons_self)
      have hxl : x ∉ l := fun h => hx (List.mem_cons_of_mem _ h)
      exact (hothers x hxl).trans (hstep.others x hxe)
    · obtain ⟨q, hq, hzero, heq⟩ := hpend i
      rw [hqueues] at hq
      rcases hstep.pending i with hsame | ⟨hi, hkind, hhold, hcommit, hmarks, hadd⟩
      · exact ⟨q, hq.trans (List.Sublist.filter _ (List.sublist_cons_self e l)), hzero,
          by rw [heq, hsame]⟩
      · have hpe : s.queues i e = true := by
          simp [queues, hi, hkind, hhold, hcommit]
        refine ⟨e :: q, ?_, List.forall_mem_cons.2 ⟨?_, hzero⟩, by rw [heq, hadd]; simp⟩
        · rw [List.filter_cons_of_pos hpe]
          exact hq.cons_cons e
        · rw [hothers e hnot, settledCount_congr hmarks]
          exact h0 e List.mem_cons_self
    · rcases List.mem_cons.1 hx with rfl | hx
      · -- the loop goes on without it: settled stays settled, queued stays queued
        rw [hothers x hnot]
        rcases hstep.own (h0 x List.mem_cons_self) with h1 | ⟨hz, hh | hq⟩
        · exact Or.inl h1
        · exact Or.inr ⟨hz, Or.inl (hk.halts hh)⟩
        · obtain ⟨q, -, -, heq⟩ := hpend x.frame
          exact Or.inr ⟨hz, Or.inr (heq ▸ List.mem_append_left q hq)⟩
      · exact hown x hx

/-! ## The order of the inverses -/

/-- What one step of Phase 1 does to the trace of started bodies and to the flags. -/
structure Starts (e : Entry) (s t : Process) : Prop where
  quiet : s.halted = true → t.marks.started = s.marks.started
  trace : t.marks.started = s.marks.started ∨
    e.kind = .transactional ∧ t.marks.started = s.marks.started ++ [e]
  idle : s.holds e = true ∨ (s.frames e.frame).committed = true →
    t.marks.started = s.marks.started
  must : s.holds e = false → (s.frames e.frame).committed = false → e.kind = .transactional →
    s.settledCount e = 0 → t.halted = false → t.marks.started = s.marks.started ++ [e]
  passed : t.marks.notAttempted = s.marks.notAttempted
  held : s.holds e = false → t.marks.held = s.marks.held
  discharged : s.holds e = true ∨ (s.frames e.frame).committed = false →
    t.marks.discharged = s.marks.discharged

/-- A step that changes no flag starts nothing. -/
theorem Starts.of_marks {e : Entry} {s t : Process} (hm : t.marks = s.marks)
    (hmust : s.holds e = false → (s.frames e.frame).committed = false → e.kind = .transactional →
      s.settledCount e = 0 → t.halted = true) : Starts e s t where
  quiet _ := by rw [hm]
  trace := Or.inl (by rw [hm])
  idle _ := by rw [hm]
  must h₁ h₂ h₃ h₄ h := by
    rw [hmust h₁ h₂ h₃ h₄] at h
    cases h
  passed := by rw [hm]
  held _ := by rw [hm]
  discharged _ := by rw [hm]

theorem hold_starts {e : Entry} {s : Process} (h : s.holds e = true) : Starts e s (s.hold e) where
  quiet _ := rfl
  trace := Or.inl rfl
  idle _ := rfl
  must hh := by
    rw [h] at hh
    cases hh
  passed := rfl
  held hh := by
    rw [h] at hh
    cases hh
  discharged _ := rfl

theorem call_starts (e : Entry) (s : Process) : Starts e s (s.call env e) := by
  unfold call
  by_cases hhold : s.holds e = true
  · rw [if_pos hhold]
    exact hold_starts hhold
  rw [if_neg hhold]
  by_cases hcommit : (s.frames e.frame).committed = true
  · rw [if_pos hcommit]
    exact
      { quiet := fun _ => rfl
        trace := Or.inl rfl
        idle := fun _ => rfl
        must := fun _ h => absurd hcommit (by simp [h])
        passed := rfl
        held := fun _ => rfl
        discharged := fun h => absurd h (by simp [hhold, hcommit]) }
  rw [if_neg hcommit]
  cases hk : e.kind with
  | compensation =>
    exact Starts.of_marks rfl fun _ _ h => by
      rw [hk] at h
      cases h
  | transactional =>
    rcases (replay_attempt env e s).marks with ⟨hh, hm⟩ | ⟨hs, hm⟩ | ⟨hh, hm⟩
    · exact Starts.of_marks hm fun _ _ _ _ => hh
    · refine Starts.of_marks hm fun _ _ _ h0 => ?_
      obtain ⟨hd, hst, -, -⟩ := settledCount_eq_zero.1 h0
      simp [spent, hd, hst] at hs
    · exact
        { quiet := fun h => by simp [h] at hh
          trace := Or.inr ⟨hk, by rw [hm]⟩
          idle := fun h => (h.elim hhold hcommit).elim
          must := fun _ _ _ _ _ => by rw [hm]
          passed := by rw [hm]
          held := fun _ => by rw [hm]
          discharged := fun _ => by rw [hm] }

theorem Starts.of_fields {e : Entry} {s s' t u : Process} (h : Starts e s' t) (hk : Keeps s s')
    (hm : s'.marks = s.marks) (hf : s'.frames = s.frames) (htm : u.marks = t.marks)
    (hth : u.halted = t.halted) : Starts e s u where
  quiet hh := by
    rw [htm, h.quiet (hk.halts hh), hm]
  trace := by
    rw [htm, ← hm]
    exact h.trace
  idle hi := by
    rw [htm, h.idle (by rwa [hk.holds, hf]), hm]
  must hh hc hkind h0 hend := by
    rw [htm, ← hm]
    exact h.must (hk.holds e ▸ hh) (hf ▸ hc) hkind ((settledCount_congr hm e).trans h0)
      (hth ▸ hend)
  passed := by rw [htm, h.passed, hm]
  held hh := by
    rw [htm, h.held (hk.holds e ▸ hh), hm]
  discharged hd := by
    rw [htm, h.discharged (by rwa [hk.holds, hf]), hm]

theorem dispose_starts (e : Entry) (s : Process) : Starts e s (s.dispose env e) := by
  have h := call_starts env e s
  unfold dispose
  rcases recordRaise_eq env e s (s.call env e) with heq | heq <;> rw [heq]
  · exact h
  · exact h.of_fields (Keeps.refl s) rfl rfl rfl rfl

theorem guarded_starts (e : Entry) (s : Process) : Starts e s (s.guarded env e) := by
  unfold guarded
  dsimp only
  have hpoll := keeps_poll env s
  have hmarks := poll_marks env s
  by_cases hh : (s.poll env).halted = true
  · rw [if_pos hh]
    exact Starts.of_marks hmarks fun _ _ _ _ => hh
  · rw [if_neg hh]
    exact (dispose_starts env e ((s.poll env).enter e)).of_fields
      (hpoll.trans (Keeps.of_eq (fun _ => rfl) rfl rfl rfl rfl rfl)) hmarks (poll_frames env s)
      rfl rfl

/-- **A loop starts the inverses it is given, in its order**, up to a halt. -/
theorem foldl_starts {f : Process → Entry → Process} (hf : ∀ s e, Settles e s (f s e))
    {l : List Entry} (hn : l.Nodup) {s : Process}
    (hs : ∀ e ∈ l, ∀ t, Keeps s t → Starts e t (f t e))
    (h0 : ∀ e ∈ l, s.settledCount e = 0)
    (hmode : ∀ e ∈ l, s.holds e = false ∧ (s.frames e.frame).committed = false) :
    ∃ done, done <+: l.filter (·.kind = .transactional) ∧
      (l.foldl f s).marks.started = s.marks.started ++ done ∧
      ((l.foldl f s).halted = false → done = l.filter (·.kind = .transactional)) ∧
      (s.halted = true → done = []) := by
  induction l generalizing s with
  | nil => exact ⟨[], List.prefix_refl _, by simp, fun _ => rfl, fun _ => rfl⟩
  | cons e l ih =>
    obtain ⟨hnot, hn⟩ := List.nodup_cons.1 hn
    have hstep := hf s e
    have hstart := hs e List.mem_cons_self s (Keeps.refl s)
    have h0' : ∀ x ∈ l, (f s e).settledCount x = 0 := by
      intro x hx
      rw [hstep.others x fun h => hnot (h ▸ hx)]
      exact h0 x (List.mem_cons_of_mem _ hx)
    have hmode' : ∀ x ∈ l, (f s e).holds x = false ∧
        ((f s e).frames x.frame).committed = false := by
      intro x hx
      rw [hstep.keeps.holds, hstep.keeps.committed]
      exact hmode x (List.mem_cons_of_mem _ hx)
    obtain ⟨done, hpre, heq, hall, hnone⟩ := ih hn
      (fun x hx t ht => hs x (List.mem_cons_of_mem _ hx) t (hstep.keeps.trans ht)) h0' hmode'
    have hrest : (List.foldl f (f s e) l).halted = false → (f s e).halted = false := by
      intro hend
      have hk := (foldl_settles hf hn h0').1
      exact Bool.eq_false_iff.2 fun h => by simp [hk.halts h] at hend
    rw [List.foldl_cons]
    obtain ⟨hhold, hcommit⟩ := hmode e List.mem_cons_self
    by_cases hkind : e.kind = .transactional
    · rw [List.filter_cons_of_pos (by simpa using hkind)]
      rcases hstart.trace with hsame | ⟨-, hadd⟩
      · -- the inverse was not started, so a halt is in force and nothing follows
        have hstop : (f s e).halted = true := by
          by_contra hgo
          rw [Bool.not_eq_true] at hgo
          have hmust := hstart.must hhold hcommit hkind (h0 e List.mem_cons_self) hgo
          rw [hsame] at hmust
          simp at hmust
        refine ⟨[], List.nil_prefix, ?_, fun hend => ?_, fun _ => rfl⟩
        · rw [heq, hnone hstop, hsame]
        · rw [hrest hend] at hstop
          cases hstop
      · refine ⟨e :: done, List.cons_prefix_cons.2 ⟨rfl, hpre⟩, ?_, fun hend => ?_, fun hh => ?_⟩
        · rw [heq, hadd, List.append_assoc]
          rfl
        · rw [hall hend]
        · rw [hstart.quiet hh] at hadd
          simp at hadd
    · rw [List.filter_cons_of_neg (by simpa using hkind)]
      have hsame : (f s e).marks.started = s.marks.started :=
        hstart.trace.resolve_right fun h => hkind h.1
      refine ⟨done, hpre, by rw [heq, hsame], hall, fun hh => hnone (hstep.keeps.halts hh)⟩

/-- The flags a loop leaves alone. -/
theorem foldl_flags {f : Process → Entry → Process} (hf : ∀ s e, Settles e s (f s e))
    {l : List Entry} {s : Process} (hs : ∀ e ∈ l, ∀ t, Keeps s t → Starts e t (f t e)) :
    (l.foldl f s).marks.notAttempted = s.marks.notAttempted ∧
      ((∀ e ∈ l, s.holds e = false) → (l.foldl f s).marks.held = s.marks.held) ∧
      ((∀ e ∈ l, s.holds e = true ∨ (s.frames e.frame).committed = false) →
        (l.foldl f s).marks.discharged = s.marks.discharged) ∧
      ((∀ e ∈ l, s.holds e = true ∨ (s.frames e.frame).committed = true) →
        (l.foldl f s).marks.started = s.marks.started) := by
  induction l generalizing s with
  | nil => exact ⟨rfl, fun _ => rfl, fun _ => rfl, fun _ => rfl⟩
  | cons e l ih =>
    have hk := (hf s e).keeps
    have hstep := hs e List.mem_cons_self s (Keeps.refl s)
    obtain ⟨h₁, h₂, h₃, h₄⟩ := ih (s := f s e)
      fun x hx t ht => hs x (List.mem_cons_of_mem _ hx) t (hk.trans ht)
    simp only [hk.holds, hk.committed] at h₂ h₃ h₄
    rw [List.foldl_cons]
    refine ⟨h₁.trans hstep.passed, fun h => ?_, fun h => ?_, fun h => ?_⟩
    · exact (h₂ fun x hx => h x (List.mem_cons_of_mem _ hx)).trans
        (hstep.held (h e List.mem_cons_self))
    · exact (h₃ fun x hx => h x (List.mem_cons_of_mem _ hx)).trans
        (hstep.discharged (h e List.mem_cons_self))
    · exact (h₄ fun x hx => h x (List.mem_cons_of_mem _ hx)).trans
        (hstep.idle (h e List.mem_cons_self))

end Process

end Revl.Runtime
