import Revl.Runtime.Teardown

/-!
# A whole teardown

From one entry to the frame: `drain` on top, the body's disposers newest first, `begin` at the
bottom.

- `Parked`, `Ready`: a frame whose entries are still to be disposed, some of them or all.
- `stages_spec`, `drainPhase2_spec`: the two phases.
- `Disposed`: an entry has one disposition, and a stranded one is named once.
- `teardown_spec`: **what a committing, an aborting and a failed teardown do to every entry**.
-/

namespace Revl.Runtime

open Recovery (EntryKind)

/-- Marks that differ in the held entries only. -/
theorem Marks.eq_of_idle {m n : Marks} (hd : m.discharged = n.discharged)
    (hs : m.started = n.started) (hp : m.notAttempted = n.notAttempted) :
    m = { n with held := m.held } := by
  cases m
  cases n
  cases hd
  cases hs
  cases hp
  rfl

namespace Process

variable (env : Env)

/-! ## Phase 2 -/

theorem recordRaise_marks (e : Entry) (s t : Process) :
    (recordRaise env e s t).marks = t.marks := by
  rcases recordRaise_eq env e s t with h | h <;> rw [h]

theorem recordRaise_frames (e : Entry) (s t : Process) :
    (recordRaise env e s t).frames = t.frames := by
  rcases recordRaise_eq env e s t with h | h <;> rw [h]

theorem compensate_frames (s : Process) (e : Entry) : (s.compensate env e).frames = s.frames := by
  unfold compensate
  dsimp only
  split
  · rfl
  · rw [recordRaise_frames]
    exact (runPhase2_attempt env e _).frames

theorem compensate_started (s : Process) (e : Entry) :
    (s.compensate env e).marks.started = s.marks.started ∨
      s.halted = false ∧ (s.compensate env e).marks.started = s.marks.started ++ [e] := by
  unfold compensate
  dsimp only
  split
  · exact Or.inl rfl
  · rw [recordRaise_marks]
    rcases (runPhase2_attempt env e { s with tick := s.tick + 1 }).marks with
      ⟨-, hm⟩ | ⟨-, hm⟩ | ⟨hh, hm⟩
    · exact Or.inl (by rw [hm])
    · exact Or.inl (by rw [hm])
    · exact Or.inr ⟨hh, by rw [hm]⟩

theorem foldl_compensate (l : List Entry) (s : Process) :
    (l.foldl (compensate env) s).frames = s.frames ∧
      ∃ done, done.Sublist l ∧
        (l.foldl (compensate env) s).marks.started = s.marks.started ++ done := by
  induction l generalizing s with
  | nil => exact ⟨rfl, [], List.nil_sublist _, by simp⟩
  | cons e l ih =>
    obtain ⟨hf, done, hsub, heq⟩ := ih (s.compensate env e)
    refine ⟨hf.trans (compensate_frames env s e), ?_⟩
    rw [List.foldl_cons, heq]
    rcases compensate_started env s e with hsame | ⟨-, hadd⟩
    · exact ⟨done, hsub.cons e, by rw [hsame]⟩
    · exact ⟨e :: done, hsub.cons_cons e, by rw [hadd, List.append_assoc]; rfl⟩

/-- Phase 2 settles what Phase 1 queued, unless a halt is in force, and starts nothing else. -/
theorem runCompensations_spec {l : List Entry} (hn : l.Nodup) {s : Process}
    (h0 : ∀ e ∈ l, s.settledCount e = 0)
    (hpend : ∀ e ∈ l, e ∉ (s.frames e.frame).pendingCompensations) :
    Keeps s (s.runCompensations env l) ∧ (s.runCompensations env l).frames = s.frames ∧
      (∀ x, x ∉ l → (s.runCompensations env l).settledCount x = s.settledCount x) ∧
      (∀ e ∈ l, (s.runCompensations env l).settledCount e = 1 ∨
        (s.runCompensations env l).settledCount e = 0 ∧
          (s.runCompensations env l).halted = true) ∧
      ∃ done, done.Sublist l ∧
        (s.runCompensations env l).marks.started = s.marks.started ++ done ∧
        (s.halted = true → done = []) := by
  unfold runCompensations
  by_cases hl : l = []
  · rw [if_pos hl, hl]
    exact ⟨Keeps.refl s, rfl, fun _ _ => rfl, by simp, [], List.nil_sublist _, by simp, fun _ => rfl⟩
  rw [if_neg hl]
  have hpoll := keeps_poll env s
  have hmarks := poll_marks env s
  dsimp only
  by_cases hh : (s.poll env).halted = true
  · rw [if_pos hh]
    have hm : (l.foldl strand (s.poll env)).marks = s.marks :=
      (foldl_strand_marks l _).trans hmarks
    refine ⟨hpoll.trans (keeps_foldl keeps_strand l _), ?_, fun x _ => settledCount_congr hm x,
      fun e he => Or.inr ⟨(settledCount_congr hm e).trans (h0 e he), ?_⟩, [],
      List.nil_sublist _, by rw [hm]; simp, fun _ => rfl⟩
    · rw [foldl_strand_frames, poll_frames]
    · rw [foldl_strand_halted, hh]
  · rw [if_neg hh]
    have h0' : ∀ e ∈ l, (s.poll env).settledCount e = 0 :=
      fun e he => (settledCount_congr hmarks e).trans (h0 e he)
    obtain ⟨hk, hothers, -, hown⟩ := foldl_settles (fun s e => compensate_settles env e s) hn h0'
    obtain ⟨hframes, done, hsub, hstarted⟩ := foldl_compensate env l (s.poll env)
    refine ⟨hpoll.trans hk, hframes.trans (poll_frames env s),
      fun x hx => (hothers x hx).trans (settledCount_congr hmarks x), fun e he => ?_, done, hsub,
      by rw [hstarted, hmarks], fun h => absurd (hpoll.halts h) hh⟩
    rcases hown e he with h1 | ⟨hz, hend | hq⟩
    · exact Or.inl h1
    · exact Or.inr ⟨hz, hend⟩
    · rw [hframes, poll_frames] at hq
      exact absurd hq (hpend e he)

theorem updateFrame_keeps {i : Nat} {g : Frame → Frame} (h : ∀ f, bare (g f) = bare f)
    (s : Process) : Keeps s (s.updateFrame i g) := by
  refine Keeps.of_eq (fun j => ?_) rfl rfl rfl rfl rfl
  by_cases hj : j = i
  · subst hj
    simp [updateFrame, h]
  · simp [updateFrame, hj]

/-- The bottom of the stack: a committed frame has nothing to do, another one runs Phase 2. -/
theorem drainPhase2_spec {i : Nat} {s : Process}
    (hn : (s.frames i).pendingCompensations.Nodup)
    (hframe : ∀ e ∈ (s.frames i).pendingCompensations, e.frame = i)
    (h0 : ∀ e ∈ (s.frames i).pendingCompensations, s.settledCount e = 0) :
    Keeps s (s.drainPhase2 env i) ∧
      ((s.drainPhase2 env i).frames i).pendingCompensations = [] ∧
      (∀ x, x ∉ (s.frames i).pendingCompensations →
        (s.drainPhase2 env i).settledCount x = s.settledCount x) ∧
      (∀ e ∈ (s.frames i).pendingCompensations, (s.drainPhase2 env i).settledCount e = 1 ∨
        (s.drainPhase2 env i).settledCount e = 0 ∧ (s.drainPhase2 env i).halted = true) ∧
      ∃ done, done.Sublist (s.frames i).pendingCompensations ∧
        (s.drainPhase2 env i).marks.started = s.marks.started ++ done ∧
        (s.halted = true → done = []) := by
  unfold drainPhase2
  have hclear : Keeps s (s.updateFrame i fun f => { f with pendingCompensations := [] }) :=
    updateFrame_keeps (g := fun f => { f with pendingCompensations := [] }) (fun _ => rfl) s
  have hempty : ((s.updateFrame i fun f => { f with pendingCompensations := [] }).frames
      i).pendingCompensations = [] := by
    simp [updateFrame]
  obtain ⟨hk, hf, hothers, hown, hdone⟩ := runCompensations_spec env hn
    (s := s.updateFrame i fun f => { f with pendingCompensations := [] }) h0 (by
      intro e he
      rw [hframe e he, hempty]
      exact List.not_mem_nil)
  exact ⟨hclear.trans hk, by rw [hf, hempty], hothers, hown, hdone⟩

/-! ## Phase 1 -/

/-- The parked entries, then the body's. -/
theorem stages_spec {f g : Process → Entry → Process} (hf : ∀ s e, Settles e s (f s e))
    (hg : ∀ s e, Settles e s (g s e)) {l m : List Entry} (hn : (l ++ m).Nodup) {s : Process}
    (h0 : ∀ e ∈ l ++ m, s.settledCount e = 0) :
    Keeps s (m.foldl g (l.foldl f s)) ∧
      (∀ x, x ∉ l ++ m → (m.foldl g (l.foldl f s)).settledCount x = s.settledCount x) ∧
      (∀ i, ∃ q, q.Sublist ((l ++ m).filter (s.queues i)) ∧
        (∀ x ∈ q, (m.foldl g (l.foldl f s)).settledCount x = 0) ∧
        ((m.foldl g (l.foldl f s)).frames i).pendingCompensations =
          (s.frames i).pendingCompensations ++ q) ∧
      ∀ e ∈ l ++ m, (m.foldl g (l.foldl f s)).settledCount e = 1 ∨
        (m.foldl g (l.foldl f s)).settledCount e = 0 ∧
          ((m.foldl g (l.foldl f s)).halted = true ∨
            e ∈ ((m.foldl g (l.foldl f s)).frames e.frame).pendingCompensations) := by
  obtain ⟨hnl, hnm, hdisj⟩ := List.nodup_append.1 hn
  have hsep : ∀ e ∈ m, e ∉ l := fun e hm hl => hdisj e hl e hm rfl
  obtain ⟨hk₁, hothers₁, hpend₁, hown₁⟩ := foldl_settles hf hnl
    fun e he => h0 e (List.mem_append_left m he)
  have h0m : ∀ e ∈ m, (l.foldl f s).settledCount e = 0 := by
    intro e he
    rw [hothers₁ e (hsep e he)]
    exact h0 e (List.mem_append_right l he)
  obtain ⟨hk₂, hothers₂, hpend₂, hown₂⟩ := foldl_settles hg hnm h0m
  refine ⟨hk₁.trans hk₂, fun x hx => ?_, fun i => ?_, fun e he => ?_⟩
  · rw [hothers₂ x fun h => hx (List.mem_append_right l h),
      hothers₁ x fun h => hx (List.mem_append_left m h)]
  · obtain ⟨q₁, hsub₁, hz₁, heq₁⟩ := hpend₁ i
    obtain ⟨q₂, hsub₂, hz₂, heq₂⟩ := hpend₂ i
    have hqueues : (l.foldl f s).queues i = s.queues i := by
      funext x
      unfold queues
      rw [hk₁.holds, hk₁.committed]
    rw [hqueues] at hsub₂
    refine ⟨q₁ ++ q₂, ?_, fun x hx => ?_, by rw [heq₂, heq₁, List.append_assoc]⟩
    · rw [List.filter_append]
      exact hsub₁.append hsub₂
    · rcases List.mem_append.1 hx with hx | hx
      · have hxl : x ∈ l := List.mem_of_mem_filter (hsub₁.subset hx)
        rw [hothers₂ x fun h => hsep x h hxl]
        exact hz₁ x hx
      · exact hz₂ x hx
  · rcases List.mem_append.1 he with hl | hm
    · rw [hothers₂ e fun h => hsep e h hl]
      rcases hown₁ e hl with h1 | ⟨hz, hh | hq⟩
      · exact Or.inl h1
      · exact Or.inr ⟨hz, Or.inl (hk₂.halts hh)⟩
      · obtain ⟨q, -, -, heq⟩ := hpend₂ e.frame
        exact Or.inr ⟨hz, Or.inr (heq ▸ List.mem_append_left q hq)⟩
    · exact hown₂ e hm

theorem stages_started {f g : Process → Entry → Process} (hf : ∀ s e, Settles e s (f s e))
    (hg : ∀ s e, Settles e s (g s e)) (hgs : ∀ s e, Starts e s (g s e)) {l m : List Entry}
    (hn : (l ++ m).Nodup) {s : Process} (hfs : ∀ e ∈ l, ∀ t, Keeps s t → Starts e t (f t e))
    (h0 : ∀ e ∈ l ++ m, s.settledCount e = 0)
    (hmode : ∀ e ∈ l ++ m, s.holds e = false ∧ (s.frames e.frame).committed = false) :
    ∃ done, done <+: (l ++ m).filter (·.kind = .transactional) ∧
      (m.foldl g (l.foldl f s)).marks.started = s.marks.started ++ done ∧
      ((m.foldl g (l.foldl f s)).halted = false →
        done = (l ++ m).filter (·.kind = .transactional)) := by
  obtain ⟨hnl, hnm, hdisj⟩ := List.nodup_append.1 hn
  have h0l : ∀ e ∈ l, s.settledCount e = 0 := fun e he => h0 e (List.mem_append_left m he)
  obtain ⟨hk₁, hothers₁, -, -⟩ := foldl_settles hf hnl h0l
  obtain ⟨d₁, hpre₁, heq₁, hall₁, -⟩ := foldl_starts hf hnl hfs h0l
    fun e he => hmode e (List.mem_append_left m he)
  have h0m : ∀ e ∈ m, (l.foldl f s).settledCount e = 0 := by
    intro e he
    rw [hothers₁ e fun hl => hdisj e hl e he rfl]
    exact h0 e (List.mem_append_right l he)
  obtain ⟨hk₂, -⟩ := foldl_settles hg hnm h0m
  obtain ⟨d₂, hpre₂, heq₂, hall₂, hnone₂⟩ := foldl_starts hg hnm
    (fun e _ t _ => hgs t e) h0m (by
    intro e he
    rw [hk₁.holds, hk₁.committed]
    exact hmode e (List.mem_append_right l he))
  rw [List.filter_append]
  refine ⟨d₁ ++ d₂, ?_, by rw [heq₂, heq₁, List.append_assoc], fun hend => ?_⟩
  · by_cases hh : (l.foldl f s).halted = true
    · -- a halt during the first loop leaves the second one nothing to start
      rw [hnone₂ hh, List.append_nil]
      exact hpre₁.trans (List.prefix_append _ _)
    · rw [hall₁ (Bool.eq_false_iff.2 hh)]
      exact (List.prefix_append_right_inj _).2 hpre₂
  · have hgo : (l.foldl f s).halted = false :=
      Bool.eq_false_iff.2 fun h => by simp [hk₂.halts h] at hend
    rw [hall₁ hgo, hall₂ hend]

/-! ## The end of a teardown -/

/-- After the host took the frame's disposers, `begin` ends every wait. -/
theorem begin_spec {i : Nat} {s : Process} {l : List Entry} (hframe : ∀ e ∈ l, e.frame = i)
    (hn : (s.frames i).pendingCompensations.Nodup)
    (hsub : ∀ e ∈ (s.frames i).pendingCompensations, e ∈ l)
    (h0 : ∀ e ∈ (s.frames i).pendingCompensations, s.settledCount e = 0)
    (hcommit : (s.frames i).committed = true → (s.frames i).pendingCompensations = [])
    (hown : ∀ e ∈ l, s.settledCount e = 1 ∨ s.settledCount e = 0 ∧
      (s.halted = true ∨ e ∈ (s.frames e.frame).pendingCompensations)) :
    Keeps s (s.begin_ env i) ∧ ((s.begin_ env i).frames i).pendingCompensations = [] ∧
      (∀ x, x ∉ l → (s.begin_ env i).settledCount x = s.settledCount x) ∧
      (∀ e ∈ l, (s.begin_ env i).settledCount e = 1 ∨
        (s.begin_ env i).settledCount e = 0 ∧ (s.begin_ env i).halted = true) ∧
      ∃ done, done.Sublist (s.frames i).pendingCompensations ∧
        (s.begin_ env i).marks.started = s.marks.started ++ done ∧
        (s.halted = true → done = []) := by
  unfold begin_
  by_cases hc : (s.frames i).committed = true
  · rw [if_pos hc]
    refine ⟨Keeps.refl s, hcommit hc, fun _ _ => rfl, fun e he => ?_, [], List.nil_sublist _,
      by simp, fun _ => rfl⟩
    rcases hown e he with h1 | ⟨hz, hh | hq⟩
    · exact Or.inl h1
    · exact Or.inr ⟨hz, hh⟩
    · rw [hframe e he, hcommit hc] at hq
      cases hq
  · rw [if_neg hc]
    obtain ⟨hk, hempty, hothers, hpend, hdone⟩ := drainPhase2_spec env hn
      (fun e he => hframe e (hsub e he)) h0
    refine ⟨hk, hempty, fun x hx => hothers x fun h => hx (hsub x h), fun e he => ?_, hdone⟩
    by_cases hq : e ∈ (s.frames i).pendingCompensations
    · exact hpend e hq
    · rw [hothers e hq]
      rcases hown e he with h1 | ⟨hz, hh | hq'⟩
      · exact Or.inl h1
      · exact Or.inr ⟨hz, hk.halts hh⟩
      · rw [hframe e he] at hq'
        exact absurd hq' hq

/-- What the two loops and `begin` do, from a state whose flags are set. -/
theorem teardown_stages {f : Process → Entry → Process} (hf : ∀ s e, Settles e s (f s e))
    {i : Nat} {l m : List Entry} (hn : (l ++ m).Nodup) (hframe : ∀ e ∈ l ++ m, e.frame = i)
    {s : Process} (hfs : ∀ e ∈ l, ∀ t, Keeps s t → Starts e t (f t e))
    (hpend : (s.frames i).pendingCompensations = [])
    (h0 : ∀ e ∈ l ++ m, s.settledCount e = 0) :
    let t := (m.foldl (fun s e => guarded env e s) (l.foldl f s)).begin_ env i
    Keeps s t ∧ (t.frames i).pendingCompensations = [] ∧
      (∀ x, x ∉ l ++ m → t.settledCount x = s.settledCount x) ∧
      (∀ e ∈ l ++ m, t.settledCount e = 1 ∨ t.settledCount e = 0 ∧ t.halted = true) ∧
      ((∀ e ∈ l ++ m, s.holds e = true ∨ (s.frames e.frame).committed = true) →
        t.marks.started = s.marks.started ∧ t.marks.notAttempted = s.marks.notAttempted ∧
          ((∀ e ∈ l ++ m, s.holds e = false) → t.marks.held = s.marks.held) ∧
          ((∀ e ∈ l ++ m, s.holds e = true) → t.marks.discharged = s.marks.discharged)) ∧
      ((∀ e ∈ l ++ m, s.holds e = false ∧ (s.frames e.frame).committed = false) →
        ∃ inverses offsets, t.marks.started = s.marks.started ++ inverses ++ offsets ∧
          inverses <+: (l ++ m).filter (·.kind = .transactional) ∧
          offsets.Sublist ((l ++ m).filter (·.kind = .compensation)) ∧
          (t.halted = false ∨ offsets ≠ [] →
            inverses = (l ++ m).filter (·.kind = .transactional))) := by
  intro t
  obtain ⟨hk, hothers, hqueue, hown⟩ := stages_spec hf (fun s e => guarded_settles env e s) hn h0
  obtain ⟨q, hsub, hz, heq⟩ := hqueue i
  rw [hpend, List.nil_append] at heq
  let u := m.foldl (fun s e => guarded env e s) (l.foldl f s)
  have hsubset : q.Sublist (l ++ m) := hsub.trans List.filter_sublist
  have hkinds : q.Sublist ((l ++ m).filter (·.kind = .compensation)) := by
    refine hsub.trans (List.monotone_filter_right _ fun e he => ?_)
    unfold queues at he
    simp only [Bool.and_eq_true, decide_eq_true_eq] at he ⊢
    exact he.1.1.2
  obtain ⟨hkb, hempty, hbothers, hbown, done, hdone, hstarted, hquiet⟩ := begin_spec env
    (i := i) (s := u) (l := l ++ m) hframe
    (by rw [heq]; exact hsubset.nodup hn)
    (by rw [heq]; exact fun e he => hsubset.subset he)
    (by rw [heq]; exact hz)
    (by
      intro hc
      rw [heq]
      rw [hk.committed] at hc
      refine List.eq_nil_iff_forall_not_mem.2 fun e he => ?_
      have hmem := hsub.subset he
      have hei : e.frame = i := hframe e (hsubset.subset he)
      rw [List.mem_filter] at hmem
      unfold queues at hmem
      rw [hei, hc] at hmem
      simp at hmem)
    hown
  rw [heq] at hdone
  refine ⟨hk.trans hkb, hempty, fun x hx => (hbothers x hx).trans (hothers x hx), hbown,
    fun hmode => ?_, fun hmode => ?_⟩
  · -- nothing is queued either, so Phase 2 is empty
    have hqnil : q = [] := by
      refine List.eq_nil_iff_forall_not_mem.2 fun e he => ?_
      have hmem := hsub.subset he
      rw [List.mem_filter] at hmem
      unfold queues at hmem
      rcases hmode e hmem.1 with h | h <;> simp [h] at hmem
    have hmarks : t.marks = u.marks := by
      show (u.begin_ env i).marks = u.marks
      unfold begin_
      split
      · rfl
      · unfold drainPhase2
        rw [heq, hqnil]
        rfl
    have hl := foldl_flags hf hfs
    have hm := foldl_flags (l := m) (s := l.foldl f s) (fun s e => guarded_settles env e s)
      fun e _ t _ => guarded_starts env e t
    have hkl : Keeps s (l.foldl f s) := (foldl_settles hf (List.nodup_append.1 hn).1
      fun e he => h0 e (List.mem_append_left m he)).1
    simp only [hkl.holds, hkl.committed] at hm
    rw [hmarks]
    refine ⟨?_, hm.1.trans hl.1, fun h => ?_, fun h => ?_⟩
    · exact (hm.2.2.2 fun e he => hmode e (List.mem_append_right l he)).trans
        (hl.2.2.2 fun e he => hmode e (List.mem_append_left m he))
    · exact (hm.2.1 fun e he => h e (List.mem_append_right l he)).trans
        (hl.2.1 fun e he => h e (List.mem_append_left m he))
    · exact (hm.2.2.1 fun e he => Or.inl (h e (List.mem_append_right l he))).trans
        (hl.2.2.1 fun e he => Or.inl (h e (List.mem_append_left m he)))
  · obtain ⟨inverses, hpre, hstart, hall⟩ := stages_started hf
      (fun s e => guarded_settles env e s) (fun s e => guarded_starts env e s) hn hfs h0 hmode
    refine ⟨inverses, done, ?_, hpre, hdone.trans hkinds, fun hend => hall ?_⟩
    · rw [← hstart]
      exact hstarted
    · refine Bool.eq_false_iff.2 fun hh => ?_
      rcases hend with hend | hne
      · have htt : t.halted = true := hkb.halts hh
        simp [htt] at hend
      · exact hne (hquiet hh)

/-! ## The whole teardown -/

/-- The entries a frame registered. -/
def entries (s : Process) (i : Nat) : List Entry :=
  (s.frames i).transactional ++ (s.frames i).compensations

/-- The entries still to be disposed, newest first within each list: the parked inverses, the
parked compensations, what the body yielded. -/
def undisposed (s : Process) (i : Nat) : List Entry :=
  ((s.frames i).deferredTransactional.reverse ++ (s.frames i).deferredCompensations.reverse) ++
    (s.frames i).stack.reverse

/-- A frame whose parked and yielded entries have not been disposed. -/
structure Parked (i : Nat) (s : Process) : Prop where
  built : i ∈ s.built
  nodup : (s.undisposed i).Nodup
  registered : ∀ e ∈ s.undisposed i, e ∈ s.entries i
  frame : ∀ e ∈ s.undisposed i, e.frame = i
  inverses : ∀ e ∈ (s.frames i).deferredTransactional, e.kind = .transactional
  offsets : ∀ e ∈ (s.frames i).deferredCompensations, e.kind = .compensation
  pending : (s.frames i).pendingCompensations = []
  committed : (s.frames i).committed = false
  holding : (s.frames i).holding = false
  fresh : ∀ e ∈ s.undisposed i, s.settledCount e = 0
  inventory : Inventory s

/-- A frame none of whose entries has been disposed. -/
structure Ready (i : Nat) (s : Process) : Prop extends Parked i s where
  complete : ∀ e, e ∈ s.entries i ↔ e ∈ s.undisposed i

/-- No frame gained or lost an entry. -/
structure SameEntries (s t : Process) : Prop where
  transactional : ∀ j, (t.frames j).transactional = (s.frames j).transactional
  compensations : ∀ j, (t.frames j).compensations = (s.frames j).compensations
  built : t.built = s.built

theorem SameEntries.entries {s t : Process} (h : SameEntries s t) (j : Nat) :
    t.entries j = s.entries j := by
  unfold Process.entries
  rw [h.transactional, h.compensations]

theorem SameEntries.nameable {s t : Process} (h : SameEntries s t) : t.nameable = s.nameable := by
  show t.built.flatMap t.entries = s.built.flatMap s.entries
  rw [h.built, funext h.entries]

theorem SameEntries.trans {s t u : Process} (h₁ : SameEntries s t) (h₂ : SameEntries t u) :
    SameEntries s u where
  transactional j := (h₂.transactional j).trans (h₁.transactional j)
  compensations j := (h₂.compensations j).trans (h₁.compensations j)
  built := h₂.built.trans h₁.built

theorem Keeps.same {s t : Process} (h : Keeps s t) : SameEntries s t :=
  ⟨h.transactional, h.compensations, h.built⟩

/-- What a teardown leaves of a frame, whichever way it went. -/
structure Torn (i : Nat) (l : List Entry) (s t : Process) : Prop where
  inventory : Inventory t
  same : SameEntries s t
  pending : (t.frames i).pendingCompensations = []
  others : ∀ x, x ∉ l → t.settledCount x = s.settledCount x
  own : ∀ e ∈ l, t.settledCount e = 1 ∨ t.settledCount e = 0 ∧ t.halted = true

/-- A change of a frame's flags and queues keeps the inventory. -/
theorem inventory_updateFrame {i : Nat} {g : Frame → Frame}
    (ht : ∀ f, (g f).transactional = f.transactional)
    (hc : ∀ f, (g f).compensations = f.compensations) (s : Process) :
    SameEntries s (s.updateFrame i g) ∧ (Inventory s → Inventory (s.updateFrame i g)) := by
  have hsame : SameEntries s (s.updateFrame i g) := by
    refine ⟨fun j => ?_, fun j => ?_, rfl⟩ <;> by_cases hj : j = i
    · subst hj
      simp [updateFrame, ht]
    · simp [updateFrame, hj]
    · subst hj
      simp [updateFrame, hc]
    · simp [updateFrame, hj]
  exact ⟨hsame, fun h => ⟨h.1, fun hh x hx => h.2 hh x (hsame.nameable ▸ hx)⟩⟩

theorem withdrawBit_inventory (i : Nat) (s : Process) :
    SameEntries s (s.withdrawBit i) ∧ (Inventory s → Inventory (s.withdrawBit i)) := by
  have h := inventory_updateFrame (i := i) (g := fun f => { f with
    holding := true
    deferredTransactional := []
    deferredCompensations := [] }) (fun _ => rfl) (fun _ => rfl)
    { s with registry := s.registry.erase i }
  exact ⟨⟨h.1.transactional, h.1.compensations, h.1.built⟩, h.2⟩

theorem settleBit_inventory (i : Nat) (s : Process) :
    SameEntries s (s.settleBit i) ∧ (Inventory s → Inventory (s.settleBit i)) := by
  have h := inventory_updateFrame (i := i) (g := fun f => { f with
    committed := f.committed || !f.aborting
    deferredTransactional := []
    deferredCompensations := [] }) (fun _ => rfl) (fun _ => rfl) s
  unfold settleBit
  dsimp only
  split
  · exact ⟨⟨h.1.transactional, h.1.compensations, h.1.built⟩, h.2⟩
  · exact h

theorem updateFrame_self (i : Nat) (g : Frame → Frame) (s : Process) :
    (s.updateFrame i g).frames i = g (s.frames i) := by
  simp [updateFrame]

/-- The stages from a state whose flags are set, for the entries of a ready frame. -/
theorem torn_of_stages {i : Nat} {s u : Process} (h : Parked i s)
    {f : Process → Entry → Process} (hf : ∀ s e, Settles e s (f s e)) {l m : List Entry}
    (hfs : ∀ e ∈ l, ∀ t, Keeps u t → Starts e t (f t e)) (hperm : (l ++ m).Perm (s.undisposed i))
    (hmarks : u.marks = s.marks) (hinv : Inventory u) (hsame : SameEntries s u)
    (hpend : (u.frames i).pendingCompensations = []) :
    Torn i (s.undisposed i) s
      ((m.foldl (fun s e => guarded env e s) (l.foldl f u)).begin_ env i) ∧
    ∀ e ∈ l ++ m, e.frame = i ∧ u.settledCount e = 0 := by
  have hown (e : Entry) (he : e ∈ l ++ m) : e.frame = i ∧ u.settledCount e = 0 :=
    ⟨h.frame e (hperm.subset he), (settledCount_congr hmarks e).trans (h.fresh e (hperm.subset he))⟩
  obtain ⟨hk, hempty, hothers, hdisposed, -⟩ := teardown_stages env hf
    (hperm.nodup_iff.2 h.nodup) (fun e he => (hown e he).1) hfs hpend fun e he => (hown e he).2
  refine ⟨⟨hk.inventory hinv, hsame.trans hk.same, hempty, fun x hx => ?_, fun e he => ?_⟩, hown⟩
  · rw [hothers x fun hmem => hx (hperm.subset hmem), settledCount_congr hmarks]
  · exact hdisposed e (hperm.symm.subset he)

section Branches

variable {i : Nat} {s : Process} (h : Parked i s)

include h

omit h in
/-- Under a halt each disposer the host reaches is stranded. -/
theorem unwind_eq_halted (hh : (s.poll env).halted = true) :
    s.unwind env i = ((s.frames i).stack.reverse.foldl strand
      ((s.poll env).drainHalted i)).begin_ env i := by
  have hguard (l : List Entry) (v : Process) (hv : v.halted = true) :
      l.foldl (fun s e => guarded env e s) v = l.foldl strand v := by
    induction l generalizing v with
    | nil => rfl
    | cons e l ih =>
      have hone : guarded env e v = v.strand e := by
        unfold guarded
        dsimp only
        rw [poll_of_halted env hv, if_pos hv]
      rw [List.foldl_cons, List.foldl_cons, hone]
      exact ih _ hv
  have huh : ((s.poll env).drainHalted i).halted = true := by
    show (List.foldl strand (s.poll env) _).halted = true
    rw [foldl_strand_halted, hh]
  have hstack : (((s.poll env).drainHalted i).frames i).stack = (s.frames i).stack := by
    simp only [drainHalted, updateFrame_self, foldl_strand_frames, poll_frames]
  unfold unwind drain disposeStack
  rw [if_pos hh, hguard _ _ huh, hstack]

/-- Under a halt nothing is disposed. -/
theorem unwind_halted (hh : (s.poll env).halted = true) :
    Torn i (s.undisposed i) s (s.unwind env i) ∧ (s.unwind env i).halted = true ∧
      (s.unwind env i).marks = s.marks := by
  let u := (s.poll env).drainHalted i
  have hu : Keeps s u := by
    have hclear (v : Process) := updateFrame_keeps (i := i) (g := fun f => { f with
      deferredTransactional := []
      deferredCompensations := []
      pendingCompensations := [] }) (fun _ => rfl) v
    exact (keeps_poll env s).trans ((keeps_foldl keeps_strand _ _).trans (hclear _))
  have hempty : (u.frames i).pendingCompensations = [] := by
    simp only [u, drainHalted, updateFrame_self]
  have hmarks : u.marks = s.marks := (foldl_strand_marks _ _).trans (poll_marks env s)
  have huh : u.halted = true := by
    show (List.foldl strand (s.poll env) _).halted = true
    rw [foldl_strand_halted, hh]
  let v := (s.frames i).stack.reverse.foldl strand u
  have hv : Keeps s v := hu.trans (keeps_foldl keeps_strand _ _)
  have hvframes : v.frames = u.frames := foldl_strand_frames _ _
  have hvhalted : v.halted = true := (foldl_strand_halted _ _).trans huh
  have hvmarks : v.marks = s.marks := (foldl_strand_marks _ _).trans hmarks
  have hunwind : s.unwind env i = v.begin_ env i := unwind_eq_halted env hh
  have hbegin : Keeps v (v.begin_ env i) ∧ ((v.begin_ env i).frames i).pendingCompensations = [] ∧
      (v.begin_ env i).marks = v.marks := by
    unfold begin_
    split
    · exact ⟨Keeps.refl v, by rw [hvframes, hempty], rfl⟩
    · unfold drainPhase2
      rw [hvframes, hempty]
      refine ⟨?_, ?_, rfl⟩
      · exact updateFrame_keeps (g := fun f => { f with pendingCompensations := [] })
          (fun _ => rfl) v
      · simp only [runCompensations, if_true, updateFrame_self]
  obtain ⟨hk, hpend, hm⟩ := hbegin
  rw [hunwind]
  have hall : Keeps s (v.begin_ env i) := hv.trans hk
  have hsame : (v.begin_ env i).marks = s.marks := hm.trans hvmarks
  refine ⟨⟨hall.inventory h.inventory, hall.same, hpend, fun x _ => settledCount_congr hsame x,
    fun e he => Or.inr ⟨?_, hk.halts hvhalted⟩⟩, hk.halts hvhalted, hsame⟩
  exact (settledCount_congr hsame e).trans (h.fresh e he)

omit h in
/-- A withdrawal holds the parked entries, then the host reaches the body's. -/
theorem unwind_eq_withdraw (hgo : (s.poll env).halted = false) (howned : s.owned = true)
    (hverdict : s.verdict = none) (habort : (s.frames i).aborting = false) :
    s.unwind env i = ((s.frames i).stack.reverse.foldl (fun s e => guarded env e s)
      (((s.frames i).deferredTransactional ++ (s.frames i).deferredCompensations).foldl
        (fun s e => s.hold e) ((s.poll env).withdrawBit i))).begin_ env i := by
  have hpoll := keeps_poll env s
  let u := (s.poll env).withdrawBit i
  let l := (s.frames i).deferredTransactional ++ (s.frames i).deferredCompensations
  have huframe : (u.frames i).stack = (s.frames i).stack := by
    simp only [u, withdrawBit, updateFrame_self, poll_frames]
  have hdrain : s.drain env i = l.foldl (fun s e => s.hold e) u := by
    unfold drain
    rw [if_neg (by simp [hgo]), if_pos (by simp [hpoll.owned, howned, hpoll.verdict, hverdict,
      poll_frames, habort])]
    unfold drainWithdraw
    simp only [poll_frames, u, l]
  have hk : Keeps u (l.foldl (fun s e => s.hold e) u) :=
    keeps_foldl (fun t e => (hold_settles e t).keeps) l u
  have hstack : ((l.foldl (fun s e => s.hold e) u).frames i).stack = (s.frames i).stack := by
    rw [hk.stack, huframe]
  unfold unwind disposeStack
  rw [hdrain, hstack]

/-- A withdrawal holds every entry for the session. -/
theorem unwind_withdraw (hgo : (s.poll env).halted = false) (howned : s.owned = true)
    (hverdict : s.verdict = none) (habort : (s.frames i).aborting = false) :
    Torn i (s.undisposed i) s (s.unwind env i) ∧
      (s.unwind env i).marks =
        { s.marks with held := (s.unwind env i).marks.held } ∧
      ((s.unwind env i).frames i).committed = false ∧
      ∀ e ∈ s.undisposed i, (s.unwind env i).halted = false → e ∈ (s.unwind env i).marks.held := by
  have hpoll := keeps_poll env s
  let u := (s.poll env).withdrawBit i
  have huframe : u.frames i = { s.frames i with
      holding := true
      deferredTransactional := []
      deferredCompensations := [] } := by
    simp only [u, withdrawBit, updateFrame_self, poll_frames]
  have huinv := withdrawBit_inventory i (s.poll env)
  have hmarks : u.marks = s.marks := poll_marks env s
  have hholds : ∀ e, e.frame = i → u.holds e = true := by
    rintro e rfl
    have ho : u.owned = true := hpoll.owned.trans howned
    have hv : u.verdict = none := hpoll.verdict.trans hverdict
    simp [holds, ho, hv, huframe, habort]
  let l := (s.frames i).deferredTransactional ++ (s.frames i).deferredCompensations
  have hperm : (l ++ (s.frames i).stack.reverse).Perm (s.undisposed i) :=
    (((List.reverse_perm _).symm.append (List.reverse_perm _).symm)).append_right _
  have hfs : ∀ e ∈ l, ∀ t, Keeps u t → Starts e t (t.hold e) := by
    intro e he t ht
    refine hold_starts ?_
    rw [ht.holds]
    exact hholds e (h.frame e (hperm.subset (List.mem_append_left _ he)))
  have hunwind : s.unwind env i = ((s.frames i).stack.reverse.foldl (fun s e => guarded env e s)
      (l.foldl (fun s e => s.hold e) u)).begin_ env i :=
    unwind_eq_withdraw env hgo howned hverdict habort
  obtain ⟨htorn, hown⟩ := torn_of_stages env h (fun t e => hold_settles e t) hfs hperm hmarks
    (huinv.2 (hpoll.inventory h.inventory)) (hpoll.same.trans huinv.1)
    (by rw [huframe]; exact h.pending)
  obtain ⟨hk, -, -, -, hidle, -⟩ := teardown_stages env (fun t e => hold_settles e t)
    (hperm.nodup_iff.2 h.nodup) (fun e he => (hown e he).1) hfs (by rw [huframe]; exact h.pending)
    fun e he => (hown e he).2
  have hmode : ∀ e ∈ l ++ (s.frames i).stack.reverse, u.holds e = true :=
    fun e he => hholds e (hown e he).1
  obtain ⟨hstarted, hpassed, -, hdischarged⟩ := hidle fun e he => Or.inl (hmode e he)
  rw [hunwind]
  refine ⟨htorn, ?_, ?_, fun e he hend => ?_⟩
  · exact Marks.eq_of_idle ((hdischarged hmode).trans (congrArg Marks.discharged hmarks))
      (hstarted.trans (congrArg Marks.started hmarks))
      (hpassed.trans (congrArg Marks.notAttempted hmarks))
  · rw [hk.committed, huframe]
    exact h.committed
  -- the one disposition left is that of a held entry
  have h0 := settledCount_eq_zero.1 (hown e (hperm.symm.subset he)).2
  rcases htorn.own e he with h1 | ⟨-, hh⟩
  · unfold settledCount at h1
    rw [hstarted, hpassed, hdischarged hmode, List.count_eq_zero.2 h0.1,
      List.count_eq_zero.2 h0.2.1, List.count_eq_zero.2 h0.2.2.1] at h1
    exact List.count_pos_iff.1 (by omega)
  · rw [hend] at hh
    cases hh

/-- What a teardown that settles the commit bit does, before the bit is known. -/
theorem unwind_settle (hgo : (s.poll env).halted = false)
    (hmode : s.owned = false ∨ s.verdict ≠ none ∨ (s.frames i).aborting = true) :
    let u := (s.poll env).settleBit i
    let l := (s.frames i).deferredTransactional.reverse ++
      (s.frames i).deferredCompensations.reverse
    Torn i (s.undisposed i) s (s.unwind env i) ∧
      s.unwind env i = ((s.frames i).stack.reverse.foldl (fun s e => guarded env e s)
        (l.foldl (fun s e => dispose env e s) u)).begin_ env i ∧
      u.marks = s.marks ∧ (u.frames i).pendingCompensations = [] ∧
      (u.frames i).committed = !(s.frames i).aborting ∧
      (∀ e ∈ s.undisposed i, u.settledCount e = 0 ∧ u.holds e = false) := by
  intro u l
  have hpoll := keeps_poll env s
  have huinv := settleBit_inventory i (s.poll env)
  have hmarks : u.marks = s.marks := by
    have hm : u.marks = (s.poll env).marks := by
      simp only [u, settleBit]
      split <;> rfl
    rw [hm, poll_marks]
  have huframe : u.frames i = { s.frames i with
      committed := (s.frames i).committed || !(s.frames i).aborting
      deferredTransactional := []
      deferredCompensations := [] } := by
    have hf : u.frames i = ((s.poll env).updateFrame i fun f => { f with
        committed := f.committed || !f.aborting
        deferredTransactional := []
        deferredCompensations := [] }).frames i := by
      simp only [u, settleBit]
      split <;> rfl
    rw [hf, updateFrame_self, poll_frames]
  have howner : u.owned = s.owned ∧ u.verdict = s.verdict := by
    have ho : u.owned = (s.poll env).owned ∧ u.verdict = (s.poll env).verdict := by
      simp only [u, settleBit]
      split <;> exact ⟨rfl, rfl⟩
    exact ⟨ho.1.trans hpoll.owned, ho.2.trans hpoll.verdict⟩
  have hholds : ∀ e, e.frame = i → u.holds e = false := by
    rintro e rfl
    simp [holds, huframe, h.holding]
  have hdrain : s.drain env i = l.foldl (fun s e => dispose env e s) u := by
    unfold drain
    rw [if_neg (by simp [hgo]), if_neg]
    · unfold drainSettle
      simp only [poll_frames, u, l]
    · rw [hpoll.owned, hpoll.verdict, poll_frames]
      rcases hmode with ho | hv | ha
      · simp [ho]
      · simp [hv]
      · simp [ha]
  have hunwind : s.unwind env i = ((s.frames i).stack.reverse.foldl (fun s e => guarded env e s)
      (l.foldl (fun s e => dispose env e s) u)).begin_ env i := by
    have hk : Keeps u (l.foldl (fun s e => dispose env e s) u) :=
      keeps_foldl (fun t e => (dispose_settles env e t).keeps) l u
    have hstack : ((l.foldl (fun s e => dispose env e s) u).frames i).stack =
        (s.frames i).stack := by
      rw [hk.stack, huframe]
    unfold unwind disposeStack
    rw [hdrain, hstack]
  have hpend : (u.frames i).pendingCompensations = [] := by
    rw [huframe]
    exact h.pending
  obtain ⟨htorn, hown⟩ := torn_of_stages env h (fun t e => dispose_settles env e t)
    (fun e _ t _ => dispose_starts env e t) (List.Perm.refl (s.undisposed i)) hmarks
    (huinv.2 (hpoll.inventory h.inventory)) (hpoll.same.trans huinv.1) hpend
  refine ⟨hunwind ▸ htorn, hunwind, hmarks, hpend, ?_, fun e he => ⟨(hown e he).2, ?_⟩⟩
  · rw [huframe, h.committed, Bool.false_or]
  · exact hholds e (h.frame e he)

/-- A commit runs nothing, passes nothing over and holds nothing, and discharges every entry. -/
theorem unwind_commit (hgo : (s.poll env).halted = false)
    (hmode : s.owned = false ∨ s.verdict ≠ none) (habort : (s.frames i).aborting = false) :
    Torn i (s.undisposed i) s (s.unwind env i) ∧
      (s.unwind env i).marks.started = s.marks.started ∧
      (s.unwind env i).marks.notAttempted = s.marks.notAttempted ∧
      (s.unwind env i).marks.held = s.marks.held ∧
      ∀ e ∈ s.undisposed i, (s.unwind env i).halted = false →
        e ∈ (s.unwind env i).marks.discharged := by
  obtain ⟨htorn, hunwind, hmarks, hpend, hcommit, hown⟩ := unwind_settle env h hgo
    (hmode.imp_right Or.inl)
  rw [habort, Bool.not_false] at hcommit
  obtain ⟨-, -, -, -, hidle, -⟩ := teardown_stages env (fun t e => dispose_settles env e t)
    h.nodup h.frame (fun e _ t _ => dispose_starts env e t) hpend fun e he => (hown e he).1
  obtain ⟨hstarted, hpassed, hheld, -⟩ := hidle fun e he => Or.inr (h.frame e he ▸ hcommit)
  have hnotheld := hheld fun e he => (hown e he).2
  rw [hunwind] at htorn ⊢
  refine ⟨htorn, hstarted.trans (congrArg Marks.started hmarks),
    hpassed.trans (congrArg Marks.notAttempted hmarks),
    hnotheld.trans (congrArg Marks.held hmarks), fun e he hend => ?_⟩
  have h0 := settledCount_eq_zero.1 (hown e he).1
  rcases htorn.own e he with h1 | ⟨-, hh⟩
  · unfold settledCount at h1
    rw [hstarted, hpassed, hnotheld, List.count_eq_zero.2 h0.2.1, List.count_eq_zero.2 h0.2.2.1,
      List.count_eq_zero.2 h0.2.2.2] at h1
    exact List.count_pos_iff.1 (by omega)
  · rw [hend] at hh
    cases hh

/-- An abort attempts every inverse, the parked ones and then the body's, newest first, and the
compensations behind them. -/
theorem unwind_abort (hgo : (s.poll env).halted = false) (habort : (s.frames i).aborting = true) :
    Torn i (s.undisposed i) s (s.unwind env i) ∧
      ∃ inverses offsets, (s.unwind env i).marks.started =
          s.marks.started ++ inverses ++ offsets ∧
        inverses <+: (s.undisposed i).filter (·.kind = .transactional) ∧
        offsets.Sublist ((s.undisposed i).filter (·.kind = .compensation)) ∧
        ((s.unwind env i).halted = false ∨ offsets ≠ [] →
          inverses = (s.undisposed i).filter (·.kind = .transactional)) := by
  obtain ⟨htorn, hunwind, hmarks, hpend, hcommit, hown⟩ := unwind_settle env h hgo
    (Or.inr (Or.inr habort))
  rw [habort, Bool.not_true] at hcommit
  obtain ⟨-, -, -, -, -, hrun⟩ := teardown_stages env (fun t e => dispose_settles env e t)
    h.nodup h.frame (fun e _ t _ => dispose_starts env e t) hpend fun e he => (hown e he).1
  have hres := hrun fun e he => ⟨(hown e he).2, h.frame e he ▸ hcommit⟩
  rw [← hunwind, hmarks] at hres
  exact ⟨htorn, hres⟩

/-- A failed activation undoes what its body yielded, newest first, and runs Phase 2. -/
theorem fault_spec :
    Torn i (s.frames i).stack.reverse s (s.fault env i) ∧
      ∃ inverses offsets, (s.fault env i).marks.started =
          s.marks.started ++ inverses ++ offsets ∧
        inverses <+: (s.frames i).stack.reverse.filter (·.kind = .transactional) ∧
        offsets.Sublist ((s.frames i).stack.reverse.filter (·.kind = .compensation)) ∧
        ((s.fault env i).halted = false ∨ offsets ≠ [] →
          inverses = (s.frames i).stack.reverse.filter (·.kind = .transactional)) := by
  have hmem : ∀ e ∈ (s.frames i).stack.reverse, e ∈ s.undisposed i :=
    fun e he => List.mem_append_right _ he
  have hnodup : (s.frames i).stack.reverse.Nodup := (List.nodup_append.1 h.nodup).2.1
  have hframe : ∀ e ∈ (s.frames i).stack.reverse, e.frame = i := fun e he => h.frame e (hmem e he)
  obtain ⟨hk, hempty, hothers, hown, -, hrun⟩ := teardown_stages env (l := [])
    (fun t e => dispose_settles env e t) hnodup hframe (fun e he => by cases he) h.pending
    fun e he => h.fresh e (hmem e he)
  let t := ((s.frames i).stack.reverse.foldl (fun s e => guarded env e s) s).begin_ env i
  -- `install` finds the queue empty
  have hagain : s.fault env i = t.updateFrame i fun f => { f with pendingCompensations := [] } := by
    show t.drainPhase2 env i = _
    have hpend : (t.frames i).pendingCompensations = [] := hempty
    unfold drainPhase2
    rw [hpend]
    rfl
  have hclear := updateFrame_keeps (i := i) (g := fun f => { f with pendingCompensations := [] })
    (fun _ => rfl) t
  rw [hagain]
  refine ⟨⟨hclear.inventory (hk.inventory h.inventory), hk.same.trans hclear.same, ?_,
    hothers, hown⟩, ?_⟩
  · rw [updateFrame_self]
  · refine hrun fun e he => ⟨?_, ?_⟩
    · simp [holds, hframe e he, h.holding]
    · rw [hframe e he, h.committed]

end Branches

/-! ## Registrations -/

/-- A process with one frame and nothing registered. -/
def start (name : String) (owned : Bool) (verdict : Option Verdict) (log : Bool) : Process where
  frames := fun _ => Frame.new name
  built := [0]
  owned := owned
  verdict := verdict
  registry := [0]
  escrow := []
  marks := ⟨[], [], [], []⟩
  raised := []
  halted := false
  stranded := []
  inFlight := []
  ambiguous := []
  nextStamp := 0
  wal := if log then some [] else none
  nextSeq := 0
  tick := 0

/-- Registrations of one frame, in order. -/
def registerAll (i : Nat) (regs : List (Seam × Registration)) (s : Process) : Process :=
  regs.foldl (fun s r => s.register env i r.1 r.2) s

/-- The body's registrations come before those of its provide methods. -/
def Phased (regs : List (Seam × Registration)) : Prop :=
  regs.Pairwise fun a b => a.1 = .method → b.1 = .method

/-- A parked frame, with stamps that are still to be given. -/
structure Enrolling (i : Nat) (s : Process) : Prop extends Parked i s where
  stamps : ∀ e, e.frame = i → s.nextStamp ≤ e.stamp →
    e ∉ s.undisposed i ∧ s.settledCount e = 0

/-- A ready frame, with stamps that are still to be given. -/
structure Registering (i : Nat) (s : Process) : Prop extends Ready i s where
  stamps : ∀ e, e.frame = i → s.nextStamp ≤ e.stamp →
    e ∉ s.undisposed i ∧ s.settledCount e = 0

theorem Registering.enrolling {i : Nat} {s : Process} (h : Registering i s) : Enrolling i s :=
  ⟨h.toParked, h.stamps⟩

theorem start_registering (name : String) (owned : Bool) (verdict : Option Verdict) (log : Bool) :
    Registering 0 (start name owned verdict log) where
  built := List.mem_singleton.2 rfl
  nodup := List.nodup_nil
  registered _ he := he
  complete _ := Iff.rfl
  frame _ he := by cases he
  inverses _ he := by cases he
  offsets _ he := by cases he
  pending := rfl
  committed := rfl
  holding := rfl
  fresh _ he := by cases he
  inventory := ⟨List.nodup_nil, fun h => by cases h⟩
  stamps _ _ _ := ⟨List.not_mem_nil, rfl⟩

theorem Enrolling.poll {i : Nat} {s : Process} (h : Enrolling i s) :
    Enrolling i (s.poll env) := by
  have hf := poll_frames env s
  have hm := poll_marks env s
  have hu : (s.poll env).undisposed i = s.undisposed i := by
    unfold undisposed
    rw [hf]
  have he : (s.poll env).entries i = s.entries i := by
    unfold entries
    rw [hf]
  exact
    { built := (keeps_poll env s).built ▸ h.built
      nodup := hu ▸ h.nodup
      registered := he ▸ hu ▸ h.registered
      frame := hu ▸ h.frame
      inverses := hf ▸ h.inverses
      offsets := hf ▸ h.offsets
      pending := hf ▸ h.pending
      committed := hf ▸ h.committed
      holding := hf ▸ h.holding
      fresh := fun x hx => (settledCount_congr hm x).trans (h.fresh x (hu ▸ hx))
      inventory := (keeps_poll env s).inventory h.inventory
      stamps := fun x hi hx => ⟨hu ▸ (h.stamps x hi (poll_nextStamp env s ▸ hx)).1,
        (settledCount_congr hm x).trans (h.stamps x hi (poll_nextStamp env s ▸ hx)).2⟩ }

/-- An entry that is registered joins the entries and what is to be disposed. -/
theorem push_undisposed (seam : Seam) (e : Entry) (i : Nat) (s : Process) :
    ((s.updateFrame i (Frame.push seam e)).undisposed i).Perm (e :: s.undisposed i) ∧
      ((s.updateFrame i (Frame.push seam e)).entries i).Perm (e :: s.entries i) := by
  unfold undisposed entries
  rw [updateFrame_self, List.perm_iff_count, List.perm_iff_count]
  constructor
  · intro x
    cases seam <;> cases hk : e.kind <;>
      simp [Frame.push, hk, List.count_append, List.count_cons] <;> omega
  · intro x
    cases seam <;> cases hk : e.kind <;>
      simp [Frame.push, hk, List.count_append, List.count_cons] <;> omega

theorem push_flags (seam : Seam) (e : Entry) (f : Frame) :
    (Frame.push seam e f).pendingCompensations = f.pendingCompensations ∧
      (Frame.push seam e f).committed = f.committed ∧
      (Frame.push seam e f).holding = f.holding ∧ (Frame.push seam e f).aborting = f.aborting := by
  cases seam <;> cases hk : e.kind <;> simp [Frame.push, hk]

theorem push_parked (seam : Seam) (e : Entry) {f : Frame}
    (hi : ∀ x ∈ f.deferredTransactional, x.kind = .transactional)
    (hc : ∀ x ∈ f.deferredCompensations, x.kind = .compensation) :
    (∀ x ∈ (Frame.push seam e f).deferredTransactional, x.kind = .transactional) ∧
      ∀ x ∈ (Frame.push seam e f).deferredCompensations, x.kind = .compensation := by
  cases seam <;> cases hk : e.kind <;> simp [Frame.push, hk]
  · exact ⟨hi, hc⟩
  · exact ⟨hi, hc⟩
  · refine ⟨fun x hx => hx.elim (hi x) fun h => h ▸ hk, hc⟩
  · refine ⟨hi, fun x hx => hx.elim (hc x) fun h => h ▸ hk⟩

theorem Enrolling.register {i : Nat} {s : Process} (h : Enrolling i s) (seam : Seam)
    (r : Registration) : Enrolling i (s.register env i seam r) := by
  have hp := h.poll env
  unfold Process.register
  dsimp only
  by_cases hh : (s.poll env).halted = true
  · rw [if_pos hh]
    exact hp
  rw [if_neg hh]
  generalize s.poll env = p at hp hh
  let e := p.newEntry i r
  obtain ⟨hperm, hentries⟩ := push_undisposed seam e i p
  obtain ⟨hpend, hcommit, hhold, -⟩ := push_flags seam e (p.frames i)
  obtain ⟨hinv, hoff⟩ := push_parked seam e hp.inverses hp.offsets
  have hself := updateFrame_self i (Frame.push seam e) p
  have hnew := hp.stamps e rfl (Nat.le_refl _)
  exact
    { built := hp.built
      nodup := hperm.nodup_iff.2 (List.nodup_cons.2 ⟨hnew.1, hp.nodup⟩)
      registered := fun x hx => hentries.symm.subset
        ((List.mem_cons.1 (hperm.subset hx)).elim (fun h => h ▸ List.mem_cons_self)
          fun h => List.mem_cons_of_mem _ (hp.registered x h))
      frame := fun x hx => by
        rcases List.mem_cons.1 (hperm.subset hx) with rfl | hx
        · rfl
        · exact hp.frame x hx
      inverses := fun x hx => hinv x (hself ▸ hx)
      offsets := fun x hx => hoff x (hself ▸ hx)
      pending := by
        show ((p.updateFrame i (Frame.push seam e)).frames i).pendingCompensations = []
        rw [hself, hpend, hp.pending]
      committed := by
        show ((p.updateFrame i (Frame.push seam e)).frames i).committed = false
        rw [hself, hcommit, hp.committed]
      holding := by
        show ((p.updateFrame i (Frame.push seam e)).frames i).holding = false
        rw [hself, hhold, hp.holding]
      fresh := fun x hx => by
        rcases List.mem_cons.1 (hperm.subset hx) with rfl | hx
        · exact hnew.2
        · exact hp.fresh x hx
      inventory := ⟨hp.inventory.1, fun hhalt => absurd hhalt hh⟩
      stamps := fun x hi hx => by
        have hle : p.nextStamp + 1 ≤ x.stamp := hx
        have hold := hp.stamps x hi (by omega)
        refine ⟨fun hmem => ?_, hold.2⟩
        rcases List.mem_cons.1 (hperm.subset hmem) with rfl | hmem
        · exact absurd hle (by simp [e, newEntry])
        · exact hold.1 hmem }

/-- A frame none of whose entries was disposed stays one. -/
theorem Registering.register {i : Nat} {s : Process} (h : Registering i s) (seam : Seam)
    (r : Registration) : Registering i (s.register env i seam r) := by
  have hnew := h.enrolling.register env seam r
  refine { toReady := { toParked := hnew.toParked, complete := fun x => ?_ }, stamps := hnew.stamps }
  have hf := poll_frames env s
  have hpoll : x ∈ (s.poll env).entries i ↔ x ∈ (s.poll env).undisposed i := by
    unfold entries undisposed
    rw [hf]
    exact h.complete x
  unfold Process.register
  dsimp only
  split
  · exact hpoll
  · obtain ⟨hperm, hentries⟩ := push_undisposed seam ((s.poll env).newEntry i r) i (s.poll env)
    show x ∈ ((s.poll env).updateFrame i _).entries i ↔ x ∈ ((s.poll env).updateFrame i _).undisposed i
    rw [hperm.mem_iff, hentries.mem_iff, List.mem_cons, List.mem_cons, hpoll]

theorem Registering.registerAll {i : Nat} {s : Process} (h : Registering i s)
    (regs : List (Seam × Registration)) : Registering i (s.registerAll env i regs) := by
  unfold Process.registerAll
  induction regs generalizing s with
  | nil => exact h
  | cons r regs ih => exact ih (h.register env r.1 r.2)

/-- Marking a frame as aborting changes nothing else. -/
theorem Parked.abort {i : Nat} {s : Process} (h : Parked i s) : Parked i (s.abort i) := by
  have hinv := inventory_updateFrame (i := i) (g := fun f => { f with aborting := true })
    (fun _ => rfl) (fun _ => rfl) s
  have hu : (s.abort i).undisposed i = s.undisposed i := by
    simp only [undisposed, Process.abort, updateFrame_self]
  have he : (s.abort i).entries i = s.entries i := by
    simp only [entries, Process.abort, updateFrame_self]
  have hself : (s.abort i).frames i = { s.frames i with aborting := true } :=
    updateFrame_self i _ s
  exact
    { built := h.built
      nodup := hu ▸ h.nodup
      registered := he ▸ hu ▸ h.registered
      frame := hu ▸ h.frame
      inverses := hself ▸ h.inverses
      offsets := hself ▸ h.offsets
      pending := hself ▸ h.pending
      committed := hself ▸ h.committed
      holding := hself ▸ h.holding
      fresh := fun x hx => h.fresh x (hu ▸ hx)
      inventory := hinv.2 h.inventory }

/-- A registration leaves the owner, the verdict and the frame's flags. -/
theorem registerAll_flags (i : Nat) (regs : List (Seam × Registration)) (s : Process) :
    (s.registerAll env i regs).owned = s.owned ∧ (s.registerAll env i regs).verdict = s.verdict ∧
      ((s.registerAll env i regs).frames i).aborting = (s.frames i).aborting := by
  unfold registerAll
  induction regs generalizing s with
  | nil => exact ⟨rfl, rfl, rfl⟩
  | cons r regs ih =>
    obtain ⟨ho, hv, ha⟩ := ih (s.register env i r.1 r.2)
    have hk := keeps_poll env s
    have hone : (s.register env i r.1 r.2).owned = s.owned ∧
        (s.register env i r.1 r.2).verdict = s.verdict ∧
        ((s.register env i r.1 r.2).frames i).aborting = (s.frames i).aborting := by
      unfold register
      dsimp only
      split
      · exact ⟨hk.owned, hk.verdict, hk.aborting i⟩
      · refine ⟨hk.owned, hk.verdict, ?_⟩
        show (((s.poll env).updateFrame i _).frames i).aborting = _
        rw [updateFrame_self, (push_flags _ _ _).2.2.2, hk.aborting]
    exact ⟨ho.trans hone.1, hv.trans hone.2.1, ha.trans hone.2.2⟩

/-- Registered body first, the inverses stand in the frame's list in the order of disposal. -/
theorem registerAll_order {i : Nat} {regs : List (Seam × Registration)} (hp : Phased regs)
    {s : Process} (horder : (s.frames i).transactional =
      (s.frames i).stack.filter (·.kind = .transactional) ++ (s.frames i).deferredTransactional)
    (hbody : (∃ r ∈ regs, r.1 = .body) → (s.frames i).deferredTransactional = []) :
    ((s.registerAll env i regs).frames i).transactional =
      ((s.registerAll env i regs).frames i).stack.filter (·.kind = .transactional) ++
        ((s.registerAll env i regs).frames i).deferredTransactional := by
  unfold registerAll
  induction regs generalizing s with
  | nil => exact horder
  | cons r regs ih =>
    obtain ⟨hfirst, hp⟩ := List.pairwise_cons.1 hp
    have hpoll := poll_frames env s
    have hstep : (s.register env i r.1 r.2).frames i = s.frames i ∨
        ∃ e, (s.register env i r.1 r.2).frames i = Frame.push r.1 e (s.frames i) := by
      unfold register
      dsimp only
      split
      · exact Or.inl (by rw [hpoll])
      · refine Or.inr ⟨(s.poll env).newEntry i r.2, ?_⟩
        show ((s.poll env).updateFrame i _).frames i = _
        rw [updateFrame_self, hpoll]
    refine ih hp ?_ ?_
    · rcases hstep with hsame | ⟨e, hpush⟩
      · rw [hsame]
        exact horder
      · rw [hpush]
        cases hseam : r.1 with
        | body =>
          have hnone := hbody ⟨r, List.mem_cons_self, hseam⟩
          rw [hnone, List.append_nil] at horder
          cases hk : e.kind <;> simp [Frame.push, hk, hnone, horder]
        | method => cases hk : e.kind <;> simp [Frame.push, hk, horder]
    · rintro ⟨r', hr', hb⟩
      -- a later body registration means this one is of the body too
      have hseam : r.1 = .body := by
        cases hs : r.1 with
        | body => rfl
        | method => rw [hfirst r' hr' hs] at hb; cases hb
      have hnone := hbody ⟨r, List.mem_cons_self, hseam⟩
      rcases hstep with hsame | ⟨e, hpush⟩
      · rw [hsame, hnone]
      · rw [hpush, hseam]
        cases hk : e.kind <;> simp [Frame.push, hk, hnone]

theorem Parked.undisposed_inverses {i : Nat} {s : Process} (h : Parked i s) :
    (s.undisposed i).filter (·.kind = .transactional) =
      ((s.frames i).stack.filter (·.kind = .transactional) ++
        (s.frames i).deferredTransactional).reverse := by
  have hinverses : (s.frames i).deferredTransactional.reverse.filter (·.kind = .transactional) =
      (s.frames i).deferredTransactional.reverse :=
    List.filter_eq_self.2 fun e he => decide_eq_true (h.inverses e (List.mem_reverse.1 he))
  have hoffsets : (s.frames i).deferredCompensations.reverse.filter (·.kind = .transactional) =
      [] := by
    refine List.filter_eq_nil_iff.2 fun e he => ?_
    rw [h.offsets e (List.mem_reverse.1 he)]
    decide
  unfold undisposed
  rw [List.filter_append, List.filter_append, hinverses, hoffsets, List.append_nil,
    List.reverse_append, List.filter_reverse]

/-! ## The disposition of every entry -/

/-- An entry has one disposition: it was discharged, started, passed over by the budget or held
once, or it is stranded and named once. -/
def Disposed (t : Process) (e : Entry) : Prop :=
  t.settledCount e = 1 ∨ t.settledCount e = 0 ∧ t.halted = true ∧ t.stranded.count e = 1

theorem Torn.disposed {i : Nat} {l : List Entry} {s t : Process} (h : Torn i l s t) {e : Entry}
    (he : e ∈ l) (hname : e ∈ s.nameable) : Disposed t e := by
  rcases h.own e he with h1 | ⟨h0, hh⟩
  · exact Or.inl h1
  · have hmem : e ∈ t.stranded := h.inventory.2 hh e (h.same.nameable ▸ hname)
    exact Or.inr ⟨h0, hh, List.count_eq_one_of_mem h.inventory.1 hmem⟩

theorem Parked.nameable {i : Nat} {s : Process} (h : Parked i s) {e : Entry}
    (he : e ∈ s.undisposed i) : e ∈ s.nameable := by
  unfold Process.nameable
  exact List.mem_flatMap.2 ⟨i, h.built, h.registered e he⟩

/-- **Whichever way a ready frame is torn down, each entry has one disposition.** -/
theorem Parked.unwind_disposed {i : Nat} {s : Process} (h : Parked i s) :
    Torn i (s.undisposed i) s (s.unwind env i) := by
  by_cases hh : (s.poll env).halted = true
  · exact (unwind_halted env h hh).1
  · rw [Bool.not_eq_true] at hh
    by_cases hmode : s.owned = false ∨ s.verdict ≠ none ∨ (s.frames i).aborting = true
    · exact (unwind_settle env h hh hmode).1
    · simp only [not_or, Bool.not_eq_false, ne_eq, not_not, Bool.not_eq_true] at hmode
      exact (unwind_withdraw env h hh hmode.1 hmode.2.1 hmode.2.2).1

end Process

open Process

/-- A frame after its registrations. -/
def registered (env : Env) (name : String) (owned : Bool) (verdict : Option Verdict) (log : Bool)
    (regs : List (Seam × Registration)) : Process :=
  (start name owned verdict log).registerAll env 0 regs

/-- A clean teardown: no body is started, and without a halt every entry is discharged. -/
def Discharges (s t : Process) (l : List Entry) : Prop :=
  (∀ e ∈ l, Disposed t e) ∧ t.marks.started = s.marks.started ∧
    (t.halted = false → ∀ e ∈ l, e ∈ t.marks.discharged)

/-- A teardown that undoes: the inverses are started in the order given, up to a halt, and the
compensations behind them. -/
def Undoes (s t : Process) (l : List Entry) : Prop :=
  (∀ e ∈ l, Disposed t e) ∧
    ∃ inverses offsets, t.marks.started = s.marks.started ++ inverses ++ offsets ∧
      inverses <+: l.filter (·.kind = .transactional) ∧
      offsets.Sublist (l.filter (·.kind = .compensation)) ∧
      (t.halted = false ∨ offsets ≠ [] → inverses = l.filter (·.kind = .transactional))

theorem unwind_undoes (env : Env) {i : Nat} {s : Process} (h : Parked i s)
    (habort : (s.frames i).aborting = true) : Undoes s (s.unwind env i) (s.undisposed i) := by
  refine ⟨fun e he => (h.unwind_disposed env).disposed he (h.nameable he), ?_⟩
  by_cases hh : (s.poll env).halted = true
  · obtain ⟨-, hhalt, hmarks⟩ := unwind_halted env h hh
    refine ⟨[], [], by rw [hmarks]; simp, List.nil_prefix, List.nil_sublist _, fun hend => ?_⟩
    simp [hhalt] at hend
  · exact (unwind_abort env h (Bool.eq_false_iff.2 hh) habort).2

theorem unwind_discharges (env : Env) {i : Nat} {s : Process} (h : Parked i s)
    (hmode : s.owned = false ∨ s.verdict ≠ none) (habort : (s.frames i).aborting = false) :
    Discharges s (s.unwind env i) (s.undisposed i) := by
  refine ⟨fun e he => (h.unwind_disposed env).disposed he (h.nameable he), ?_⟩
  by_cases hh : (s.poll env).halted = true
  · obtain ⟨-, hhalt, hmarks⟩ := unwind_halted env h hh
    refine ⟨by rw [hmarks], fun hend => ?_⟩
    rw [hhalt] at hend
    cases hend
  · obtain ⟨-, hstarted, -, -, hall⟩ := unwind_commit env h (Bool.eq_false_iff.2 hh) hmode habort
    exact ⟨hstarted, fun hend e he => hall e he hend⟩

/-- **A teardown gives each registered entry one disposition.** A clean one starts no body and
discharges every entry. An aborting one attempts every inverse, the parked ones and then the
body's, newest first, and starts the compensations behind them; that is the reverse of the order
of registration when the body registered first. A failed activation does the same with what its
body yielded, and a withdrawal starts nothing. -/
theorem teardown_spec (env : Env) (name : String) (owned : Bool) (verdict : Option Verdict)
    (log : Bool) (regs : List (Seam × Registration)) :
    let s := registered env name owned verdict log regs
    (∀ e, e ∈ s.entries 0 ↔ e ∈ s.undisposed 0) ∧ (s.undisposed 0).Nodup ∧
    (owned = false ∨ verdict ≠ none → Discharges s (s.unwind env 0) (s.undisposed 0)) ∧
    (∀ e ∈ s.undisposed 0, Disposed (s.unwind env 0) e) ∧
    Undoes s ((s.abort 0).unwind env 0) (s.undisposed 0) ∧
    (Phased regs → (s.undisposed 0).filter (·.kind = .transactional) =
      (s.frames 0).transactional.reverse) ∧
    Undoes s (s.fault env 0) (s.frames 0).stack.reverse := by
  intro s
  have hready : Ready 0 s :=
    ((start_registering name owned verdict log).registerAll env regs).toReady
  obtain ⟨howned, hverdict, habort⟩ := registerAll_flags env 0 regs (start name owned verdict log)
  have hab := hready.toParked.abort
  have hundisposed : (s.abort 0).undisposed 0 = s.undisposed 0 := by
    simp only [undisposed, Process.abort, updateFrame_self]
  refine ⟨hready.complete, hready.nodup, fun hmode => ?_, fun e he => ?_, ?_, fun hp => ?_, ?_⟩
  · exact unwind_discharges env hready.toParked
      (hmode.imp (fun h => howned.trans h) fun h => hverdict ▸ h) habort
  · exact (hready.unwind_disposed env).disposed he (hready.nameable he)
  · rw [← hundisposed]
    exact unwind_undoes env hab (by rw [Process.abort, updateFrame_self])
  · rw [hready.undisposed_inverses]
    exact congrArg List.reverse (registerAll_order env hp rfl fun _ => rfl).symm
  · obtain ⟨htorn, hrun⟩ := fault_spec env hready.toParked
    have hmem : ∀ e ∈ (s.frames 0).stack.reverse, e ∈ s.undisposed 0 :=
      fun e he => List.mem_append_right _ he
    exact ⟨fun e he => htorn.disposed he (hready.nameable (hmem e he)), hrun⟩

/-! ## Teardowns outside it -/

def someInverse : Registration := ⟨.transactional, ⟨none, some "undo", none⟩, true, none, none, none⟩

def someOffset : Registration := ⟨.compensation, ⟨none, some "offset", none⟩, false, none, none, none⟩

/-- No halt, nothing raises, and the Phase-2 budget is as given. -/
def quietEnv (expired : Bool) : Env := ⟨fun _ => false, fun _ => false, fun _ => false, fun _ => expired⟩

/-- One compensation. -/
def oneOffset : Process := registered (quietEnv true) "Vault" false none false [(.body, someOffset)]

/-- A host-bound inverse registered while the body runs, and one of the body behind it. -/
def hostBound : Process :=
  registered (quietEnv false) "Vault" false none false [(.method, someInverse), (.body, someInverse)]

/-- With the budget spent a compensation is not attempted, and none of the other dispositions is
its. The host-bound inverse is undone before the newer one, and is not reached when the body
fails. -/
theorem teardown_limits :
    ((oneOffset.entries 0).map (·.stamp) = [0] ∧
      ((oneOffset.abort 0).unwind (quietEnv true) 0).marks.discharged = [] ∧
      ((oneOffset.abort 0).unwind (quietEnv true) 0).marks.started = [] ∧
      ((oneOffset.abort 0).unwind (quietEnv true) 0).marks.held = [] ∧
      ((oneOffset.abort 0).unwind (quietEnv true) 0).stranded = []) ∧
    ((hostBound.abort 0).unwind (quietEnv false) 0).marks.started.map (·.stamp) = [0, 1] ∧
    (hostBound.fault (quietEnv false) 0).marks.started.map (·.stamp) = [1] :=
  ⟨⟨rfl, rfl, rfl, rfl, rfl⟩, rfl, rfl⟩

end Revl.Runtime
