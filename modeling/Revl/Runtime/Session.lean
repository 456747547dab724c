import Revl.Runtime.Disposition

/-!
# The end of a session

A session owner holds the registry of live frames and the escrow of withdrawn ones. An abort marks
the frames, lets the host tear the live ones down, and replays the escrow behind them.

- `beginAbort`, `cascade`, `finalizeAbort`: the abort.
- `SessionOp`, `runSession`: what a session does before its verdict.
- `Local`: **tearing one frame down leaves every other frame and its entries alone**.
-/

namespace Revl.Runtime

open Recovery (EntryKind WalRecord descriptorsOf)

namespace Process

variable (env : Env)

/-! ## The abort -/

/-- `begin_abort`: mark the live frames and those of the escrow. -/
def beginAbort (s : Process) : Process :=
  (s.registry ++ s.escrow.map (·.frame)).foldl (fun s i => s.abort i)
    { s with verdict := some .abort }

/-- The host tears the live frames down, in its own order. -/
def cascade (order : List Nat) (s : Process) : Process :=
  order.foldl (fun s i => s.unwind env i) s

/-- The key the escrow is sorted by. -/
def seqKey (e : Entry) : Int := e.seq.getD 0

/-- The order of the escrow: by `(seq or 0, stamp)`, reversed. -/
def Newer (a b : Entry) : Prop :=
  seqKey b < seqKey a ∨ seqKey a = seqKey b ∧ b.stamp ≤ a.stamp

instance : DecidableRel Newer := fun _ _ => inferInstanceAs (Decidable (_ ∨ _ ∧ _))

def newestFirst (l : List Entry) : List Entry := l.insertionSort Newer

/-- The compensation of an escrowed entry runs without a budget. -/
def offset (s : Process) (e : Entry) : Process := recordRaise env e s (s.runPhase2 env e)

/-- The inverses that ran to their end, of the escrow and of the frames still registered. -/
def replayedSeqs (escrowed : List Entry) (s : Process) : List Int :=
  let ran : Entry → Bool := fun e => e ∈ s.marks.started && e ∉ s.raised
  ((escrowed ++ s.registry.flatMap fun i => (s.frames i).transactional).filter ran).filterMap (·.seq)

/-- `finalize_abort`: replay the escrow in its two phases, then name what was replayed. -/
def finalizeAbort (s : Process) : Process :=
  let escrow := newestFirst s.escrow
  let inverses := escrow.filter (·.kind = .transactional)
  let s := inverses.foldl (fun s e => dispose env e s) s
  let s := (escrow.filter (·.kind = .compensation)).foldl (offset env) s
  let s := { s with escrow := [] }
  s.append (.aborted ((replayedSeqs inverses s).dedup.insertionSort (· ≤ ·)))

/-! ## Before the verdict -/

inductive SessionOp where
  | newFrame (name : String)
  | register (i : Nat) (seam : Seam) (r : Registration)
  /-- A swap or an undo tears a live frame down while the session goes on. -/
  | withdraw (i : Nat)

/-- A component activates: its frame joins the registry. -/
def newFrame (name : String) (s : Process) : Process :=
  { s with
    frames := Function.update s.frames s.built.length (Frame.new name)
    built := s.built ++ [s.built.length]
    registry := s.registry ++ [s.built.length] }

def sessionStep (s : Process) : SessionOp → Process
  | .newFrame name => s.newFrame name
  | .register i seam r => if i ∈ s.registry then s.register env i seam r else s
  | .withdraw i => if i ∈ s.registry then s.unwind env i else s

/-- A session before any frame was built. -/
def newSession (log : Bool) : Process where
  frames := fun _ => Frame.new ""
  built := []
  owned := true
  verdict := none
  registry := []
  escrow := []
  marks := ⟨[], [], [], []⟩
  raised := []
  halted := false
  stranded := []
  inFlight := []
  ambiguous := []
  nextStamp := 0
  wal := if log then some [] else none
  nextSeq := 0
  tick := 0

def runSession (log : Bool) (ops : List SessionOp) : Process :=
  ops.foldl (sessionStep env) (newSession log)

/-! ## One frame at a time -/

/-- How often each flag of an entry is set. -/
def counts (s : Process) (e : Entry) : Nat × Nat × Nat × Nat :=
  (s.marks.discharged.count e, s.marks.started.count e, s.marks.notAttempted.count e,
    s.marks.held.count e)

/-- The records of the log. -/
def records (s : Process) : List WalRecord := s.wal.getD []

/-- The fence of an undeclared inverse is in the log. -/
def Fenced (s : Process) (e : Entry) : Prop :=
  e.kind = .transactional → e.undoIdempotent = false → ∀ n, e.seq = some n →
    WalRecord.replayFence (some n) ∈ s.records

/-- What a step adds to the log: no descriptor, and the fence of each inverse it starts. -/
structure Traced (s t : Process) : Prop where
  records : ∃ m, t.records = s.records ++ m ∧ descriptorsOf m = []
  fenced : s.wal.isSome = true → ∀ e ∈ t.marks.started, e ∉ s.marks.started → Fenced t e

theorem Traced.of_same {s t : Process} (hs : t.marks.started = s.marks.started)
    (hw : t.wal = s.wal) : Traced s t where
  records := ⟨[], by unfold Process.records; rw [hw, List.append_nil], rfl⟩
  fenced _ e he hnot := absurd (hs ▸ he) hnot

theorem Traced.trans {s t u : Process} (h₁ : Traced s t) (h₂ : Traced t u)
    (hwal : t.wal.isSome = s.wal.isSome) : Traced s u := by
  obtain ⟨m₁, h₁m, h₁d⟩ := h₁.records
  obtain ⟨m₂, h₂m, h₂d⟩ := h₂.records
  refine ⟨⟨m₁ ++ m₂, by rw [h₂m, h₁m, List.append_assoc], ?_⟩, fun hs e he hnot => ?_⟩
  · rw [descriptorsOf, List.filterMap_append]
    exact List.append_eq_nil_iff.2 ⟨h₁d, h₂d⟩
  · by_cases hmid : e ∈ t.marks.started
    · intro hkind hidem n hn
      rw [h₂m]
      exact List.mem_append_left _ (h₁.fenced hs e hmid hnot hkind hidem n hn)
    · exact h₂.fenced (hwal.trans hs) e he hmid

/-- A step on behalf of one frame. -/
structure Local (i : Nat) (s t : Process) : Prop where
  elsewhere : ∀ j, j ≠ i → t.frames j = s.frames j
  counts : ∀ e : Entry, e.frame ≠ i → t.counts e = s.counts e
  built : t.built = s.built
  owned : t.owned = s.owned
  verdict : t.verdict = s.verdict
  registry : t.registry = s.registry ∨ t.registry = s.registry.erase i
  nextStamp : t.nextStamp = s.nextStamp
  log : t.wal.isSome = s.wal.isSome ∧ t.nextSeq = s.nextSeq
  /-- The escrow grows with the entries' own flag. -/
  linked : s.escrow = s.marks.held → t.escrow = t.marks.held
  /-- A verdict closes the escrow. -/
  settled : s.verdict ≠ none → t.escrow = s.escrow
  trace : Traced s t

theorem Local.refl (i : Nat) (s : Process) : Local i s s :=
  ⟨fun _ _ => rfl, fun _ _ => rfl, rfl, rfl, rfl, Or.inl rfl, rfl, ⟨rfl, rfl⟩, id, fun _ => rfl,
    Traced.of_same rfl rfl⟩

theorem Local.trans_same {i : Nat} {s t u : Process} (h₁ : Local i s t) (h₂ : Local i t u)
    (hreg : u.registry = t.registry) : Local i s u where
  elsewhere j hj := (h₂.elsewhere j hj).trans (h₁.elsewhere j hj)
  counts e he := (h₂.counts e he).trans (h₁.counts e he)
  built := h₂.built.trans h₁.built
  owned := h₂.owned.trans h₁.owned
  verdict := h₂.verdict.trans h₁.verdict
  registry := h₁.registry.imp hreg.trans hreg.trans
  nextStamp := h₂.nextStamp.trans h₁.nextStamp
  log := ⟨h₂.log.1.trans h₁.log.1, h₂.log.2.trans h₁.log.2⟩
  linked h := h₂.linked (h₁.linked h)
  settled h := (h₂.settled (by rwa [h₁.verdict])).trans (h₁.settled h)
  trace := h₁.trace.trans h₂.trace h₁.log.1

/-- A step that keeps the registry too. -/
def Quiet (i : Nat) (s t : Process) : Prop := Local i s t ∧ t.registry = s.registry

theorem Quiet.refl (i : Nat) (s : Process) : Quiet i s s := ⟨Local.refl i s, rfl⟩

theorem Quiet.trans {i : Nat} {s t u : Process} (h₁ : Quiet i s t) (h₂ : Quiet i t u) :
    Quiet i s u :=
  ⟨h₁.1.trans_same h₂.1 h₂.2, h₂.2.trans h₁.2⟩

theorem quiet_foldl {i : Nat} {l : List Entry} {f : Process → Entry → Process} {s : Process}
    (hf : ∀ e ∈ l, ∀ t, t.verdict = s.verdict → Quiet i t (f t e)) : Quiet i s (l.foldl f s) := by
  induction l generalizing s with
  | nil => exact Quiet.refl i s
  | cons e l ih =>
    have hstep := hf e List.mem_cons_self s rfl
    refine hstep.trans (ih fun x hx t ht => ?_)
    exact hf x (List.mem_cons_of_mem _ hx) t (ht.trans hstep.1.verdict)

/-- What a change of the E-Stop, the residue or the clock leaves. -/
def core (s : Process) :=
  (s.frames, s.marks, s.built, s.owned, s.verdict, s.registry, s.nextStamp, s.escrow, s.nextSeq,
    s.wal)

theorem quiet_of_core {i : Nat} {s t : Process} (h : t.core = s.core) : Quiet i s t := by
  simp only [core, Prod.mk.injEq] at h
  obtain ⟨hf, hm, hb, ho, hv, hr, hn, he, hs, hw⟩ := h
  exact ⟨⟨fun j _ => by rw [hf], fun e _ => by unfold Process.counts; rw [hm], hb, ho, hv,
    Or.inl hr, hn, ⟨by rw [hw], hs⟩, fun h => by rw [he, hm, h], fun _ => he,
    Traced.of_same (by rw [hm]) hw⟩, hr⟩

theorem records_append (r : WalRecord) {s : Process} (h : s.wal.isSome = true) :
    (s.append r).records = s.records ++ [r] := by
  obtain ⟨l, hl⟩ := Option.isSome_iff_exists.1 h
  simp [records, append, hl]

theorem quiet_append (i : Nat) {r : WalRecord} (hr : descriptorsOf [r] = []) (s : Process) :
    Quiet i s (s.append r) := by
  refine ⟨⟨fun _ _ => rfl, fun _ _ => rfl, rfl, rfl, rfl, Or.inl rfl, rfl, ⟨?_, rfl⟩, id,
    fun _ => rfl, ⟨?_, fun _ e he hnot => absurd he hnot⟩⟩, rfl⟩
  · simp [append]
  · cases hw : s.wal with
    | none => exact ⟨[], by simp [records, append, hw], rfl⟩
    | some l => exact ⟨[r], by simp [records, append, hw], hr⟩

theorem quiet_strand (i : Nat) (s : Process) (e : Entry) : Quiet i s (s.strand e) :=
  quiet_of_core rfl

theorem quiet_engage (i : Nat) (s : Process) : Quiet i s s.engage := by
  obtain ⟨_, _, _, h⟩ := engage_eq s
  rw [h]
  exact quiet_of_core rfl

theorem quiet_poll (i : Nat) (s : Process) : Quiet i s (s.poll env) := by
  obtain ⟨_, _, _, _, h⟩ := poll_eq env s
  rw [h]
  exact quiet_of_core rfl

theorem quiet_updateFrame (i : Nat) (g : Frame → Frame) (s : Process) :
    Quiet i s (s.updateFrame i g) :=
  ⟨⟨fun j hj => by simp [updateFrame, hj], fun _ _ => rfl, rfl, rfl, rfl, Or.inl rfl, rfl, ⟨rfl, rfl⟩, id,
    fun _ => rfl, Traced.of_same rfl rfl⟩, rfl⟩

theorem count_append_ne {e x : Entry} {l : List Entry} (h : x ≠ e) :
    (l ++ [e]).count x = l.count x := by
  simp [List.count_append, h.symm]

theorem quiet_host (e : Entry) {s : Process} (hf : s.wal.isSome = true → Fenced s e) :
    Quiet e.frame s (s.host env e) := by
  have hstart : Quiet e.frame s
      { s with marks := { s.marks with started := s.marks.started ++ [e] } } := by
    refine ⟨⟨fun _ _ => rfl, fun x hx => ?_, rfl, rfl, rfl, Or.inl rfl, rfl, ⟨rfl, rfl⟩, id,
      fun _ => rfl, ⟨⟨[], (List.append_nil _).symm, rfl⟩, fun hs x hx hnot => ?_⟩⟩, rfl⟩
    · have hne : x ≠ e := fun h => hx (h ▸ rfl)
      show (_, (s.marks.started ++ [e]).count x, _, _) = _
      rw [count_append_ne hne]
      rfl
    · -- the one body started is that of the entry
      rcases List.mem_append.1 hx with hx | hx
      · exact absurd hx hnot
      · rw [List.mem_singleton.1 hx]
        exact hf hs
  have htick (u : Process) : Quiet e.frame u { u with tick := u.tick + 1 } :=
    quiet_of_core rfl
  unfold host
  dsimp only
  split
  · exact (hstart.trans (quiet_engage _ _)).trans (htick _)
  · exact hstart.trans (htick _)

theorem quiet_fence (i : Nat) (e : Entry) (s : Process) : Quiet i s (s.fence e) := by
  unfold fence
  split
  · exact quiet_append i rfl s
  · exact Quiet.refl i s

/-- Consume before fire. -/
theorem fence_fenced (e : Entry) {s : Process} (h : (s.fence e).wal.isSome = true) :
    Fenced (s.fence e) e := by
  intro _ hidem n hn
  unfold fence at h ⊢
  rw [hidem, hn] at h ⊢
  have hwal : s.wal.isSome = true := by simpa [append] using h
  show _ ∈ (s.append _).records
  rw [records_append _ hwal]
  exact List.mem_append_right _ (List.mem_singleton_self _)

theorem quiet_replay (e : Entry) (s : Process) : Quiet e.frame s (s.replay env e) := by
  unfold replay
  dsimp only
  split_ifs
  · exact (quiet_poll env _ s).trans (quiet_strand _ _ e)
  · exact quiet_poll env _ s
  · exact ((quiet_poll env _ s).trans (quiet_fence _ e _)).trans
      (quiet_host env e fun h => fence_fenced e h)

theorem quiet_runPhase2 {e : Entry} (hkind : e.kind = .compensation) (s : Process) :
    Quiet e.frame s (s.runPhase2 env e) := by
  unfold runPhase2
  dsimp only
  split_ifs
  · exact (quiet_poll env _ s).trans (quiet_strand _ _ e)
  · exact quiet_poll env _ s
  · refine (quiet_poll env _ s).trans (quiet_host env e fun _ htrans => ?_)
    rw [hkind] at htrans
    cases htrans

theorem quiet_hold (e : Entry) {s : Process} (hv : s.verdict = none) :
    Quiet e.frame s (s.hold e) := by
  refine ⟨⟨fun _ _ => rfl, fun x hx => ?_, rfl, rfl, rfl, Or.inl rfl, rfl, ⟨rfl, rfl⟩,
    fun h => ?_, fun h => absurd hv h, Traced.of_same rfl rfl⟩, rfl⟩
  · have hne : x ≠ e := fun h => hx (h ▸ rfl)
    show (_, _, _, (mark e s.marks.held).count x) = _
    rw [count_mark_ne hne]
    rfl
  · show mark e s.escrow = mark e s.marks.held
    rw [h]

theorem quiet_call (e : Entry) (s : Process) : Quiet e.frame s (s.call env e) := by
  unfold call
  split_ifs with hhold
  · refine quiet_hold e ?_
    simp only [holds, Bool.and_eq_true, Option.isNone_iff_eq_none] at hhold
    exact hhold.1.1.2
  · refine ⟨⟨fun _ _ => rfl, fun x hx => ?_, rfl, rfl, rfl, Or.inl rfl, rfl, ⟨rfl, rfl⟩, id,
    fun _ => rfl, Traced.of_same rfl rfl⟩, rfl⟩
    have hne : x ≠ e := fun h => hx (h ▸ rfl)
    show ((mark e s.marks.discharged).count x, _, _, _) = _
    rw [count_mark_ne hne]
    rfl
  · cases e.kind with
    | transactional => exact quiet_replay env e s
    | compensation => exact quiet_updateFrame _ _ s

theorem quiet_recordRaise {i : Nat} {e : Entry} {s t : Process} (h : Quiet i s t) :
    Quiet i s (recordRaise env e s t) := by
  rcases recordRaise_eq env e s t with heq | heq <;> rw [heq]
  · exact h
  · exact h.trans (quiet_of_core rfl)

theorem quiet_dispose (e : Entry) (s : Process) : Quiet e.frame s (s.dispose env e) :=
  quiet_recordRaise env (quiet_call env e s)

theorem quiet_guarded (e : Entry) (s : Process) : Quiet e.frame s (s.guarded env e) := by
  unfold guarded
  dsimp only
  split_ifs
  · exact (quiet_poll env _ s).trans (quiet_strand _ _ e)
  · have henter (u : Process) : Quiet e.frame u (u.enter e) :=
      quiet_of_core rfl
    have hleave (u : Process) : Quiet e.frame u (u.leave e) :=
      quiet_of_core rfl
    exact (((quiet_poll env _ s).trans (henter _)).trans (quiet_dispose env e _)).trans (hleave _)

theorem quiet_compensate {e : Entry} (hkind : e.kind = .compensation) (s : Process) :
    Quiet e.frame s (s.compensate env e) := by
  unfold compensate
  dsimp only
  split_ifs
  · refine ⟨⟨fun _ _ => rfl, fun x hx => ?_, rfl, rfl, rfl, Or.inl rfl, rfl, ⟨rfl, rfl⟩, id,
    fun _ => rfl, Traced.of_same rfl rfl⟩, rfl⟩
    have hne : x ≠ e := fun h => hx (h ▸ rfl)
    show (_, _, (mark e s.marks.notAttempted).count x, _) = _
    rw [count_mark_ne hne]
    rfl
  · have htick : Quiet e.frame s { s with tick := s.tick + 1 } :=
      quiet_of_core rfl
    exact htick.trans (quiet_recordRaise env (quiet_runPhase2 env hkind _))

theorem quiet_runCompensations {i : Nat} {l : List Entry}
    (hl : ∀ e ∈ l, e.frame = i ∧ e.kind = .compensation) (s : Process) : Quiet i s (s.runCompensations env l) := by
  unfold runCompensations
  dsimp only
  split_ifs
  · exact Quiet.refl i s
  · exact (quiet_poll env i s).trans (quiet_foldl fun e _ t _ => quiet_strand i t e)
  · refine (quiet_poll env i s).trans (quiet_foldl fun e he t _ => ?_)
    rw [← (hl e he).1]
    exact quiet_compensate env (hl e he).2 t

theorem quiet_drainPhase2 {i : Nat} {s : Process}
    (hl : ∀ e ∈ (s.frames i).pendingCompensations, e.frame = i ∧ e.kind = .compensation) :
    Quiet i s (s.drainPhase2 env i) :=
  (quiet_updateFrame i _ s).trans (quiet_runCompensations env hl _)

/-- The two loops and `begin` work for one frame. -/
theorem quiet_stages {f : Process → Entry → Process} (hf : ∀ s e, Settles e s (f s e)) {i : Nat}
    {l m : List Entry} {s : Process}
    (hq : ∀ e ∈ l, ∀ t, t.verdict = s.verdict → Quiet i t (f t e)) (hn : (l ++ m).Nodup)
    (hframe : ∀ e ∈ l ++ m, e.frame = i)
    (hpend : (s.frames i).pendingCompensations = [])
    (h0 : ∀ e ∈ l ++ m, s.settledCount e = 0) :
    Quiet i s ((m.foldl (fun s e => guarded env e s) (l.foldl f s)).begin_ env i) := by
  obtain ⟨-, -, hqueue, -⟩ := stages_spec hf (fun s e => guarded_settles env e s) hn h0
  obtain ⟨q, hsub, -, heq⟩ := hqueue i
  rw [hpend, List.nil_append] at heq
  have hloops : Quiet i s (m.foldl (fun s e => guarded env e s) (l.foldl f s)) := by
    refine (quiet_foldl hq).trans (quiet_foldl fun e he t _ => ?_)
    rw [← hframe e (List.mem_append_right l he)]
    exact quiet_guarded env e t
  refine hloops.trans ?_
  unfold begin_
  split
  · exact Quiet.refl i _
  · refine quiet_drainPhase2 env fun e he => ?_
    rw [heq] at he
    obtain ⟨hmem, hqueues⟩ := List.mem_filter.1 (hsub.subset he)
    refine ⟨hframe e hmem, ?_⟩
    simp only [queues, Bool.and_eq_true, decide_eq_true_eq] at hqueues
    exact hqueues.1.1.2

theorem quiet_settleBit (i : Nat) (s : Process) : Quiet i s (s.settleBit i) := by
  unfold settleBit
  dsimp only
  split
  · exact (quiet_updateFrame i _ s).trans (quiet_append i rfl _)
  · exact quiet_updateFrame i _ s

theorem local_withdrawBit (i : Nat) (s : Process) :
    Local i s (s.withdrawBit i) ∧ (s.withdrawBit i).registry = s.registry.erase i :=
  ⟨⟨fun j hj => by simp [withdrawBit, updateFrame, hj], fun _ _ => rfl, rfl, rfl, rfl, Or.inr rfl,
    rfl, ⟨rfl, rfl⟩, id,
    fun _ => rfl, Traced.of_same rfl rfl⟩, rfl⟩

/-- A teardown under a halt works for its frame. -/
theorem unwind_quiet_halted {i : Nat} {s : Process} (hh : (s.poll env).halted = true) :
    Quiet i s (s.unwind env i) := by
  have hdrain : Quiet i (s.poll env) ((s.poll env).drainHalted i) :=
    (quiet_foldl fun e _ t _ => quiet_strand i t e).trans (quiet_updateFrame i _ _)
  have hstack : Quiet i ((s.poll env).drainHalted i)
      ((s.frames i).stack.reverse.foldl strand ((s.poll env).drainHalted i)) :=
    quiet_foldl fun e _ t _ => quiet_strand i t e
  rw [unwind_eq_halted env hh]
  refine ((quiet_poll env i s).trans (hdrain.trans hstack)).trans ?_
  unfold begin_
  split
  · exact Quiet.refl i _
  · refine quiet_drainPhase2 env fun e he => ?_
    rw [foldl_strand_frames] at he
    simp only [drainHalted, updateFrame_self] at he
    cases he

section Unwind

variable {i : Nat} {s : Process} (h : Parked i s) (hgo : (s.poll env).halted = false)

include h hgo

/-- Tearing a frame down under a verdict, or aborting, keeps the registry. -/
theorem unwind_quiet
    (hmode : s.owned = false ∨ s.verdict ≠ none ∨ (s.frames i).aborting = true) :
    Quiet i s (s.unwind env i) := by
  obtain ⟨-, hunwind, -, hpend, -, hown⟩ := unwind_settle env h hgo hmode
  rw [hunwind]
  refine ((quiet_poll env i s).trans (quiet_settleBit i _)).trans ?_
  refine quiet_stages env (fun t e => dispose_settles env e t) (fun e he t _ => ?_) h.nodup h.frame
    hpend fun e he => (hown e he).1
  rw [← h.frame e (List.mem_append_left _ he)]
  exact quiet_dispose env e t

/-- A withdrawal takes the frame out of the registry. -/
theorem unwind_local (howned : s.owned = true) (hverdict : s.verdict = none)
    (habort : (s.frames i).aborting = false) :
    Local i s (s.unwind env i) ∧ (s.unwind env i).registry = s.registry.erase i := by
  have hpoll := quiet_poll env i s
  obtain ⟨hbit, hreg⟩ := local_withdrawBit i (s.poll env)
  have hfirst : Local i s ((s.poll env).withdrawBit i) :=
    { elsewhere := fun j hj => (hbit.elsewhere j hj).trans (hpoll.1.elsewhere j hj)
      counts := fun e he => (hbit.counts e he).trans (hpoll.1.counts e he)
      built := hbit.built.trans hpoll.1.built
      owned := hbit.owned.trans hpoll.1.owned
      verdict := hbit.verdict.trans hpoll.1.verdict
      registry := Or.inr (by rw [hreg, hpoll.2])
      nextStamp := hbit.nextStamp.trans hpoll.1.nextStamp
      log := ⟨hbit.log.1.trans hpoll.1.log.1, hbit.log.2.trans hpoll.1.log.2⟩
      linked := fun hl => hbit.linked (hpoll.1.linked hl)
      settled := fun hv => absurd hverdict hv
      trace := hpoll.1.trace.trans hbit.trace hpoll.1.log.1 }
  let l := (s.frames i).deferredTransactional ++ (s.frames i).deferredCompensations
  have hperm : (l ++ (s.frames i).stack.reverse).Perm (s.undisposed i) :=
    (((List.reverse_perm _).symm.append (List.reverse_perm _).symm)).append_right _
  have hmarks : ((s.poll env).withdrawBit i).marks = s.marks := poll_marks env s
  have hrest : Quiet i ((s.poll env).withdrawBit i) (s.unwind env i) := by
    rw [unwind_eq_withdraw env hgo howned hverdict habort]
    have hv : ((s.poll env).withdrawBit i).verdict = none := by
      rw [hbit.verdict, hpoll.1.verdict, hverdict]
    refine quiet_stages env (fun t e => hold_settles e t) (fun e he t ht => ?_)
      (hperm.nodup_iff.2 h.nodup) (fun e he => h.frame e (hperm.subset he)) ?_ fun e he => ?_
    · rw [← h.frame e (hperm.subset (List.mem_append_left _ he))]
      exact quiet_hold e (ht.trans hv)
    · simp only [withdrawBit, updateFrame_self, poll_frames]
      exact h.pending
    · exact (settledCount_congr hmarks e).trans (h.fresh e (hperm.subset he))
  exact ⟨hfirst.trans_same hrest.1 hrest.2, by rw [hrest.2, hreg, hpoll.2]⟩

end Unwind

end Process

end Revl.Runtime
