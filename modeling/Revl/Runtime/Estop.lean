import Revl.Runtime.Commit

/-!
# The E-Stop

A session takes one small step after another, and a halt may be found or land at any of them. The
steps of a teardown, of a failed unit and of an approval are put on a list of tasks and taken one
at a time.

- `OwnerOp`, `opStep`, `Move`, `move`: a session taking step after step.
- `perform`, `run_operation`: **the steps of an operation end, and compute the operation whole.**
- `Clear`: the steps under which an E-Stop does what it says.
- `estop_spec`: **after a halt nothing is started, fired or discharged, and each entry is named
  once**.
-/

namespace Revl.Runtime

open Recovery (EntryKind WalRecord dischargedOf)

/-- What a session has still to do. -/
inductive Task where
  | drain (i : Nat)
  | hold (e : Entry)
  | dispose (e : Entry)
  /-- The host takes the disposers the body yielded. -/
  | stack (i : Nat)
  | guarded (e : Entry)
  /-- `begin`, at the bottom of the stack. -/
  | bottom (i : Nat)
  | phase2 (i : Nat)
  | attempt (e : Entry)
  | compensations (l : List Entry)
  | compensate (e : Entry)
  | fire (d : Deferral)

inductive OwnerOp where
  | newFrame (name : String)
  | register (i : Nat) (seam : Seam) (r : Registration)
  | enqueue (m : Emission)
  /-- A gated crossing, marked in flight when it spends an approval. -/
  | cross (label : String) (marked : Bool)
  /-- `Frame.abort`, the reject of a live component. -/
  | abort (i : Nat)
  | teardown (i : Nat)
  /-- The activation body raises. -/
  | fail (i : Nat)
  /-- A unit of a live frame fails. -/
  | settle (i : Nat) (stamps : List Nat)
  | approve (confirmed : String)
  | finalizeCommit

/-- A session: its owner, and what is to be done before the next operation. -/
structure Session where
  owner : Owner
  todo : List Task

inductive Move where
  | op (op : OwnerOp)
  | step
  /-- An operator calls `estop` directly. -/
  | halt

namespace Owner

variable (env : CommitEnv)

def withProcess (s : Process) (o : Owner) : Owner := { o with process := s }

/-- The first task, and what it puts in front of the others. -/
def runTask (o : Owner) : Task → Owner × List Task
  | .drain i =>
    let s := o.process.poll env.toEnv
    let f := s.frames i
    if s.halted = true then (o.withProcess (s.drainHalted i), [])
    else if s.owned && s.verdict.isNone && !f.aborting then
      (o.withProcess (s.withdrawBit i),
        (f.deferredTransactional ++ f.deferredCompensations).map .hold)
    else
      (o.withProcess (s.settleBit i),
        (f.deferredTransactional.reverse ++ f.deferredCompensations.reverse).map .dispose)
  | .hold e => (o.withProcess (o.process.hold e), [])
  | .dispose e => (o.withProcess (o.process.dispose env.toEnv e), [])
  | .stack i => (o, (o.process.frames i).stack.reverse.map .guarded)
  | .guarded e => (o.withProcess (o.process.guarded env.toEnv e), [])
  | .bottom i => (o, if (o.process.frames i).committed then [] else [.phase2 i])
  | .phase2 i =>
    (o.withProcess (o.process.updateFrame i fun f => { f with pendingCompensations := [] }),
      [.compensations (o.process.frames i).pendingCompensations])
  | .attempt e => (o.withProcess (o.process.attempt env.toEnv e), [])
  | .compensations l =>
    if l = [] then (o, [])
    else
      let s := o.process.poll env.toEnv
      if s.halted = true then (o.withProcess (l.foldl Process.strand s), [])
      else (o.withProcess s, l.map .compensate)
  | .compensate e => (o.withProcess (o.process.compensate env.toEnv e), [])
  | .fire d => (o.fire env d, [])

/-- A crossing's own body, refused under a halt. -/
def cross (label : String) (marked : Bool) (o : Owner) : Owner :=
  let s := o.process.poll env.toEnv
  if s.halted = true then o.withProcess s
  else { o.withProcess s with crossed := o.crossed ++ [label] }.dispatch env
    (if marked then some (.crossing label) else none)

/-- The tasks of a teardown. -/
def teardownTasks (i : Nat) : List Task := [.drain i, .stack i, .bottom i]

/-- The tasks of a failed activation. -/
def failTasks (i : Nat) : List Task := [.stack i, .bottom i, .phase2 i]

/-- A unit's entries leave the parked lists. -/
def leave (i : Nat) (unit : Scope) (s : Process) : Process :=
  s.updateFrame i fun f => { f with
    deferredTransactional := f.deferredTransactional.filter
      (· ∉ unit.transactional.filter (· ∈ (s.frames i).deferredTransactional))
    deferredCompensations := f.deferredCompensations.filter
      (· ∉ unit.compensations.filter (· ∈ (s.frames i).deferredCompensations)) }

/-- The tasks of a failed unit. -/
def unitTasks (i : Nat) (unit : Scope) (s : Process) : List Task :=
  (unit.transactional.filter (· ∈ (s.frames i).deferredTransactional)).reverse.map .attempt ++
    [.compensations (unit.compensations.filter (· ∈ (s.frames i).deferredCompensations)).reverse]

def opStep (hash : Target → String) (o : Owner) : OwnerOp → Owner × List Task
  | .newFrame name => (o.withProcess (o.process.newFrame name), [])
  | .register i seam r =>
    (if i ∈ o.process.registry then o.withProcess (o.process.register env.toEnv i seam r) else o, [])
  | .enqueue m => (o.enqueue env m, [])
  | .cross label marked => (o.cross env label marked, [])
  | .abort i => (if i ∈ o.process.registry then o.withProcess (o.process.abort i) else o, [])
  | .teardown i => (o, if i ∈ o.process.registry then teardownTasks i else [])
  | .fail i => (o, if i ∈ o.process.registry then failTasks i else [])
  | .settle i stamps =>
    if i ∈ o.process.registry ∧ o.process.halted = false then
      (o.withProcess (leave i (unitAt i stamps o.process) o.process),
        unitTasks i (unitAt i stamps o.process) o.process)
    else (o, [])
  | .approve confirmed =>
    if confirmed ≠ hash o.target then (o, []) else (o.confirm confirmed, o.queue.map .fire)
  | .finalizeCommit => (o.finalizeCommit, [])

/-- An operation taken whole. -/
def perform (hash : Target → String) (o : Owner) : OwnerOp → Owner
  | .teardown i =>
    if i ∈ o.process.registry then o.withProcess (o.process.unwind env.toEnv i) else o
  | .fail i => if i ∈ o.process.registry then o.withProcess (o.process.fault env.toEnv i) else o
  | .settle i stamps =>
    if i ∈ o.process.registry ∧ o.process.halted = false then
      o.withProcess (o.process.unwindUnit env.toEnv i (unitAt i stamps o.process))
    else o
  | .approve confirmed => (o.approve env hash confirmed).toOption.getD o
  | op => (o.opStep env hash op).1

end Owner

namespace Session

variable (env : CommitEnv) (hash : Target → String)

/-- An operation waits until nothing is left to do. -/
def move (m : Session) : Move → Session
  | .op op =>
    match m.todo with
    | [] => ⟨(m.owner.opStep env hash op).1, (m.owner.opStep env hash op).2⟩
    | _ :: _ => m
  | .step =>
    match m.todo with
    | [] => m
    | t :: rest => ⟨(m.owner.runTask env t).1, (m.owner.runTask env t).2 ++ rest⟩
  | .halt => { m with owner := m.owner.withProcess m.owner.process.engage }

def start (log : Bool) : Session := ⟨Owner.new log, []⟩

def run (moves : List Move) (m : Session) : Session := moves.foldl (move env hash) m

end Session

/-! ## The tasks compute the operations -/

namespace Session

variable (env : CommitEnv)

/-- Tasks are taken one after the other. -/
def Reaches (m n : Session) : Prop :=
  Relation.ReflTransGen (fun m n => ∃ t rest, m.todo = t :: rest ∧
    n = ⟨(m.owner.runTask env t).1, (m.owner.runTask env t).2 ++ rest⟩) m n

theorem reaches_step (o : Owner) (t : Task) (rest : List Task) :
    Reaches env ⟨o, t :: rest⟩ ⟨(o.runTask env t).1, (o.runTask env t).2 ++ rest⟩ :=
  Relation.ReflTransGen.single ⟨t, rest, rfl, rfl⟩

/-- A list of tasks that each do one thing. -/
theorem reaches_map {α : Type} {g : Owner → α → Owner} {f : α → Task}
    (hf : ∀ (o : Owner) a, o.runTask env (f a) = (g o a, [])) (l : List α) (o : Owner) (rest : List Task) :
    Reaches env ⟨o, l.map f ++ rest⟩ ⟨l.foldl g o, rest⟩ := by
  induction l generalizing o with
  | nil => exact Relation.ReflTransGen.refl
  | cons a l ih =>
    have hstep := reaches_step env o (f a) (l.map f ++ rest)
    rw [hf] at hstep
    exact hstep.trans (ih (g o a))

/-- The same for tasks on the process alone. -/
theorem reaches_process {α : Type} {g : Process → α → Process} {f : α → Task}
    (hf : ∀ (o : Owner) a, o.runTask env (f a) = (o.withProcess (g o.process a), [])) (l : List α)
    (o : Owner) (rest : List Task) :
    Reaches env ⟨o, l.map f ++ rest⟩ ⟨o.withProcess (l.foldl g o.process), rest⟩ := by
  have hfold : ∀ p : Owner, l.foldl (fun p a => p.withProcess (g p.process a)) p =
      p.withProcess (l.foldl g p.process) := by
    induction l with
    | nil => exact fun _ => rfl
    | cons a l ih => exact fun p => ih (p.withProcess (g p.process a))
  rw [← hfold]
  exact reaches_map env (g := fun p a => p.withProcess (g p.process a)) hf l o rest

theorem reaches_compensations (l : List Entry) (o : Owner) (rest : List Task) :
    Reaches env ⟨o, .compensations l :: rest⟩
      ⟨o.withProcess (o.process.runCompensations env.toEnv l), rest⟩ := by
  have hstep := reaches_step env o (.compensations l) rest
  unfold Process.runCompensations
  by_cases hl : l = []
  · rw [if_pos hl]
    simp only [Owner.runTask, if_pos hl] at hstep
    exact hstep
  rw [if_neg hl]
  dsimp only
  by_cases hh : (o.process.poll env.toEnv).halted = true
  · rw [if_pos hh]
    simp only [Owner.runTask, if_neg hl, if_pos hh] at hstep
    exact hstep
  · rw [if_neg hh]
    simp only [Owner.runTask, if_neg hl, if_neg hh] at hstep
    exact hstep.trans (reaches_process env (fun _ _ => rfl) l _ rest)

theorem reaches_phase2 (i : Nat) (o : Owner) (rest : List Task) :
    Reaches env ⟨o, .phase2 i :: rest⟩ ⟨o.withProcess (o.process.drainPhase2 env.toEnv i), rest⟩ :=
  (reaches_step env o (.phase2 i) rest).trans (reaches_compensations env _ _ rest)

theorem reaches_bottom (i : Nat) (o : Owner) (rest : List Task) :
    Reaches env ⟨o, .bottom i :: rest⟩ ⟨o.withProcess (o.process.begin_ env.toEnv i), rest⟩ := by
  have hstep := reaches_step env o (.bottom i) rest
  unfold Process.begin_
  by_cases hc : (o.process.frames i).committed = true
  · rw [if_pos hc]
    simp only [Owner.runTask, if_pos hc] at hstep
    exact hstep
  · rw [if_neg hc]
    simp only [Owner.runTask, if_neg hc] at hstep
    exact hstep.trans (reaches_phase2 env i o rest)

theorem reaches_drain (i : Nat) (o : Owner) (rest : List Task) :
    Reaches env ⟨o, .drain i :: rest⟩ ⟨o.withProcess (o.process.drain env.toEnv i), rest⟩ := by
  have hstep := reaches_step env o (.drain i) rest
  unfold Process.drain
  dsimp only
  by_cases hh : (o.process.poll env.toEnv).halted = true
  · rw [if_pos hh]
    simp only [Owner.runTask, if_pos hh] at hstep
    exact hstep
  rw [if_neg hh]
  simp only [Owner.runTask, if_neg hh] at hstep
  split
  · rw [if_pos ‹_›] at hstep
    exact hstep.trans (reaches_process env (fun _ _ => rfl) _ _ rest)
  · rw [if_neg ‹_›] at hstep
    exact hstep.trans (reaches_process env (fun _ _ => rfl) _ _ rest)

theorem reaches_stack (i : Nat) (o : Owner) (rest : List Task) :
    Reaches env ⟨o, .stack i :: rest⟩
      ⟨o.withProcess (o.process.disposeStack env.toEnv i), rest⟩ :=
  (reaches_step env o (.stack i) rest).trans
    (reaches_process env (g := fun s e => s.guarded env.toEnv e) (fun _ _ => rfl) _ o rest)

/-- **The tasks of a teardown compute it.** -/
theorem reaches_unwind (i : Nat) (o : Owner) (rest : List Task) :
    Reaches env ⟨o, Owner.teardownTasks i ++ rest⟩
      ⟨o.withProcess (o.process.unwind env.toEnv i), rest⟩ :=
  (reaches_drain env i o _).trans ((reaches_stack env i _ _).trans (reaches_bottom env i _ rest))

/-- **The tasks of a failed activation compute its unwinding.** -/
theorem reaches_fault (i : Nat) (o : Owner) (rest : List Task) :
    Reaches env ⟨o, Owner.failTasks i ++ rest⟩
      ⟨o.withProcess (o.process.fault env.toEnv i), rest⟩ :=
  (reaches_stack env i o _).trans ((reaches_bottom env i _ _).trans (reaches_phase2 env i _ rest))

/-- **The tasks of a failed unit compute its settlement.** -/
theorem reaches_unwindUnit (i : Nat) (unit : Scope) (o : Owner) (rest : List Task)
    (hgo : o.process.halted = false) :
    Reaches env ⟨o.withProcess (Owner.leave i unit o.process),
        Owner.unitTasks i unit o.process ++ rest⟩
      ⟨o.withProcess (o.process.unwindUnit env.toEnv i unit), rest⟩ := by
  unfold Process.unwindUnit Owner.unitTasks
  rw [if_neg (by simp [hgo]), List.append_assoc]
  refine (reaches_process env (fun _ _ => rfl) _ _ _).trans ?_
  exact reaches_compensations env _ _ rest

theorem run_of_reaches (hash : Target → String) {m n : Session} (h : Reaches env m n) :
    ∃ k, run env hash (List.replicate k .step) m = n := by
  induction h with
  | refl => exact ⟨0, rfl⟩
  | tail _ hstep ih =>
    obtain ⟨k, hk⟩ := ih
    obtain ⟨t, rest, htodo, rfl⟩ := hstep
    refine ⟨k + 1, ?_⟩
    rw [List.replicate_succ', run, List.foldl_append]
    show move env hash (run env hash (List.replicate k .step) m) .step = _
    rw [hk, move, htodo]

/-- **The steps compute the operations.** A session at rest takes any operation and, with no halt of
an operator in between, finitely many steps later it is at rest with what the operation does whole:
the teardown of a frame, a failed activation, a failed unit, an approval. -/
theorem run_operation (hash : Target → String) (o : Owner) (op : OwnerOp) :
    ∃ k, run env hash (.op op :: List.replicate k .step) ⟨o, []⟩ = ⟨o.perform env hash op, []⟩ := by
  refine run_of_reaches env hash (m := ⟨(o.opStep env hash op).1, (o.opStep env hash op).2⟩) ?_
  cases op with
  | teardown i =>
    simp only [Owner.opStep, Owner.perform]
    split_ifs
    · simpa using reaches_unwind env i o []
    · exact Relation.ReflTransGen.refl
  | fail i =>
    simp only [Owner.opStep, Owner.perform]
    split_ifs
    · simpa using reaches_fault env i o []
    · exact Relation.ReflTransGen.refl
  | settle i stamps =>
    simp only [Owner.opStep, Owner.perform]
    split_ifs with hgo
    · simpa using reaches_unwindUnit env i (Owner.unitAt i stamps o.process) o [] hgo.2
    · exact Relation.ReflTransGen.refl
  | approve confirmed =>
    simp only [Owner.opStep, Owner.perform, Owner.approve]
    split_ifs
    · exact Relation.ReflTransGen.refl
    · have h := reaches_map env (g := Owner.fire env) (f := .fire) (fun _ _ => rfl) o.queue
        (o.confirm confirmed) []
      rwa [List.append_nil] at h
  | _ => exact Relation.ReflTransGen.refl

end Session

namespace Process

variable (env : Env)

/-! ## Under a halt -/

/-- What a step under a halt leaves: it starts no body and writes nothing. -/
structure Still (s t : Process) : Prop where
  halted : t.halted = true
  started : t.marks.started = s.marks.started
  wal : t.wal = s.wal

variable {s : Process} (hh : s.halted = true)

include hh

theorem still_foldl {α : Type} {f : Process → α → Process} (l : List α)
    (hf : ∀ t a, t.halted = true → Still t (f t a)) : Still s (l.foldl f s) := by
  induction l generalizing s with
  | nil => exact ⟨hh, rfl, rfl⟩
  | cons a l ih =>
    have hstep := hf s a hh
    have hrest := ih hstep.halted
    exact ⟨hrest.halted, hrest.started.trans hstep.started, hrest.wal.trans hstep.wal⟩

theorem still_replay (e : Entry) : Still s (s.replay env e) := by
  unfold replay
  rw [poll_of_halted env hh]
  dsimp only
  rw [if_pos hh]
  exact ⟨hh, rfl, rfl⟩

theorem still_runPhase2 (e : Entry) : Still s (s.runPhase2 env e) := by
  unfold runPhase2
  rw [poll_of_halted env hh]
  dsimp only
  rw [if_pos hh]
  exact ⟨hh, rfl, rfl⟩

theorem still_call (e : Entry) : Still s (s.call env e) := by
  unfold call
  split_ifs
  · exact ⟨hh, rfl, rfl⟩
  · exact ⟨hh, rfl, rfl⟩
  · cases e.kind with
    | transactional => exact still_replay env hh e
    | compensation => exact ⟨hh, rfl, rfl⟩

omit hh in
theorem Still.recordRaise {t : Process} (h : Still s t) (e : Entry) :
    Still s (recordRaise env e s t) := by
  rcases recordRaise_eq env e s t with heq | heq <;> rw [heq]
  · exact h
  · exact ⟨h.halted, h.started, h.wal⟩

theorem still_guarded (e : Entry) : Still s (s.guarded env e) := by
  unfold guarded
  rw [poll_of_halted env hh]
  dsimp only
  rw [if_pos hh]
  exact ⟨hh, rfl, rfl⟩

theorem still_compensate (e : Entry) : Still s (s.compensate env e) := by
  unfold compensate
  dsimp only
  split
  · exact ⟨hh, rfl, rfl⟩
  · have hstep := still_runPhase2 env (s := { s with tick := s.tick + 1 }) hh e
    have hraise := hstep.recordRaise env e
    exact ⟨hraise.halted, hraise.started, hraise.wal⟩

end Process

namespace Owner

variable (env : CommitEnv)

/-- The host bodies that were started, and the seqs the discharge records name. -/
def output (o : Owner) : List Entry × List Deferral × List String × List Int :=
  (o.process.marks.started, o.fired, o.crossed, dischargedOf o.process.records)

theorem output_withProcess {o : Owner} {s : Process} (h : Process.Still o.process s) :
    (o.withProcess s).output = o.output := by
  unfold output withProcess Process.records
  rw [h.started, h.wal]

/-- A record that discharges nothing. -/
theorem dischargedOf_append {r : WalRecord} (hr : dischargedOf [r] = []) (s : Process) :
    dischargedOf (s.append r).records = dischargedOf s.records := by
  unfold Process.records Process.append
  cases s.wal with
  | none => rfl
  | some l =>
    show dischargedOf (l ++ [r]) = dischargedOf l
    unfold dischargedOf at hr ⊢
    rw [List.flatMap_append, hr, List.append_nil]

/-- Under a halt no task starts, fires or discharges anything. -/
theorem runTask_frozen {o : Owner} (hh : o.process.halted = true) (t : Task) :
    (o.runTask env t).1.process.halted = true ∧ (o.runTask env t).1.output = o.output := by
  have hpoll := Process.poll_of_halted env.toEnv hh
  have hdone {s : Process} (h : Process.Still o.process s) :
      (o.withProcess s).process.halted = true ∧ (o.withProcess s).output = o.output :=
    ⟨h.halted, output_withProcess h⟩
  have hstrand (l : List Entry) : Process.Still o.process (l.foldl Process.strand o.process) :=
    Process.still_foldl hh l fun t a ht => ⟨ht, rfl, rfl⟩
  cases t with
  | drain i =>
    simp only [runTask, hpoll, if_pos hh]
    obtain ⟨h, hs, hw⟩ := hstrand
      ((o.process.frames i).transactional ++ (o.process.frames i).compensations)
    exact hdone ⟨h, hs, hw⟩
  | hold e => exact hdone ⟨hh, rfl, rfl⟩
  | dispose e => exact hdone ((Process.still_call env.toEnv hh e).recordRaise env.toEnv e)
  | stack i => exact ⟨hh, rfl⟩
  | guarded e => exact hdone (Process.still_guarded env.toEnv hh e)
  | bottom i => exact ⟨hh, rfl⟩
  | phase2 i => exact hdone ⟨hh, rfl, rfl⟩
  | attempt e => exact hdone ((Process.still_replay env.toEnv hh e).recordRaise env.toEnv e)
  | compensations l =>
    simp only [runTask, hpoll, if_pos hh]
    split
    · exact ⟨hh, rfl⟩
    · exact hdone (hstrand l)
  | compensate e => exact hdone (Process.still_compensate env.toEnv hh e)
  | fire d =>
    simp only [runTask, fire, hpoll, if_pos hh]
    unfold residue record
    split
    · refine ⟨hh, ?_⟩
      unfold output
      dsimp only
      rw [dischargedOf_append rfl]
      rfl
    · exact ⟨hh, rfl⟩

theorem opStep_frozen (hash : Target → String) {o : Owner} (hh : o.process.halted = true)
    {op : OwnerOp} (hop : op = .finalizeCommit → o.process.witnessedSeqs = []) :
    (o.opStep env hash op).1.process.halted = true ∧
      (o.opStep env hash op).1.output = o.output := by
  have hpoll := Process.poll_of_halted env.toEnv hh
  cases op with
  | newFrame name => exact ⟨hh, rfl⟩
  | register i seam r =>
    simp only [opStep]
    split
    · simp only [Process.register, hpoll, if_pos hh]
      exact ⟨hh, rfl⟩
    · exact ⟨hh, rfl⟩
  | enqueue m =>
    simp only [opStep, enqueue, hpoll, if_pos hh]
    exact ⟨hh, trivial⟩
  | cross label marked =>
    simp only [opStep, cross, hpoll, if_pos hh]
    exact ⟨hh, rfl⟩
  | abort i =>
    simp only [opStep]
    split <;> exact ⟨hh, rfl⟩
  | teardown i => exact ⟨hh, rfl⟩
  | fail i => exact ⟨hh, rfl⟩
  | settle i stamps =>
    have hno : ¬(i ∈ o.process.registry ∧ o.process.halted = false) := by simp [hh]
    simp only [opStep, if_neg hno]
    exact ⟨hh, trivial⟩
  | approve confirmed =>
    simp only [opStep]
    split
    · exact ⟨hh, rfl⟩
    · refine ⟨hh, ?_⟩
      show (_, _, _, dischargedOf (o.process.append (.commitApproved (some confirmed))).records) = _
      rw [dischargedOf_append rfl]
      rfl
  | finalizeCommit =>
    simp only [opStep, finalizeCommit, if_pos (hop rfl)]
    exact ⟨hh, trivial⟩

end Owner

namespace Process

variable (env : Env)

/-! ## What a halt names -/

/-- No entry is in flight, and none was when a halt landed. -/
structure Reported (s : Process) : Prop where
  inventory : Inventory s
  inFlight : s.inFlight = []
  ambiguous : s.ambiguous = []

/-- No halt lands while the disposer of an entry runs. -/
def undisturbed (e : Entry) (s : Process) : Bool :=
  s.holds e || (s.frames e.frame).committed || e.kind = .compensation ||
    (!env.latch s.tick && (s.spent e || !env.during (s.tick + 1)))

theorem Reported.of_keeps {s t : Process} (h : Reported s) (hk : Keeps s t)
    (hf : t.inFlight = s.inFlight) (ha : t.ambiguous = s.ambiguous) : Reported t :=
  ⟨hk.inventory h.inventory, hf.trans h.inFlight, ha.trans h.ambiguous⟩

theorem reported_foldl {α : Type} {f : Process → α → Process} {l : List α}
    (hf : ∀ t, Reported t → ∀ a ∈ l, Reported (f t a)) {s : Process} (h : Reported s) :
    Reported (l.foldl f s) := by
  induction l generalizing s with
  | nil => exact h
  | cons a l ih =>
    exact ih (fun t ht x hx => hf t ht x (List.mem_cons_of_mem _ hx)) (hf s h a List.mem_cons_self)

namespace Reported

variable {s : Process} (h : Reported s)

include h

theorem strand (e : Entry) : Reported (s.strand e) := h.of_keeps (keeps_strand s e) rfl rfl

theorem engage : Reported s.engage := by
  refine ⟨(keeps_engage s).inventory h.inventory, ?_, ?_⟩ <;> unfold Process.engage <;> split
  · exact h.inFlight
  · obtain ⟨named, hnamed⟩ := foldl_strand_eq s.nameable s
    rw [hnamed]
    exact h.inFlight
  · exact h.ambiguous
  · show s.ambiguous ++ s.inFlight = []
    rw [h.ambiguous, h.inFlight, List.nil_append]

theorem tick (n : Nat) : Reported { s with tick := n } :=
  h.of_keeps (Keeps.of_eq (fun _ => rfl) rfl rfl rfl rfl rfl) rfl rfl

theorem poll : Reported (s.poll env) := by
  unfold Process.poll
  split_ifs
  · exact h
  · exact (h.tick _).engage
  · exact h.tick _

theorem append (r : WalRecord) : Reported (s.append r) := h.of_keeps (keeps_append r s) rfl rfl

theorem host (e : Entry) : Reported (s.host env e) := by
  have hbody (m : Marks) : Reported { s with marks := m } :=
    h.of_keeps (Keeps.of_eq (fun _ => rfl) rfl rfl rfl rfl rfl) rfl rfl
  unfold Process.host
  dsimp only
  split
  · exact ((hbody _).engage).tick _
  · exact (hbody _).tick _

theorem fence (e : Entry) : Reported (s.fence e) := by
  rcases fence_eq e s with heq | ⟨r, heq⟩ <;> rw [heq]
  · exact h
  · exact h.append r

theorem replay (e : Entry) : Reported (s.replay env e) := by
  have hp := h.poll env
  unfold Process.replay
  dsimp only
  split_ifs
  · exact hp.strand e
  · exact hp
  · exact (hp.fence e).host env e

theorem runPhase2 (e : Entry) : Reported (s.runPhase2 env e) := by
  have hp := h.poll env
  unfold Process.runPhase2
  dsimp only
  split_ifs
  · exact hp.strand e
  · exact hp
  · exact hp.host env e

/-- A change of a frame's flags and queues. -/
theorem updateFrame {g : Frame → Frame} (i : Nat)
    (ht : ∀ f, (g f).transactional = f.transactional)
    (hc : ∀ f, (g f).compensations = f.compensations) : Reported (s.updateFrame i g) :=
  ⟨(inventory_updateFrame ht hc s).2 h.inventory, h.inFlight, h.ambiguous⟩

theorem call (e : Entry) : Reported (s.call env e) := by
  unfold Process.call
  split_ifs
  · exact h.of_keeps (hold_settles e s).keeps rfl rfl
  · exact h.of_keeps (Keeps.of_eq (fun _ => rfl) rfl rfl rfl rfl rfl) rfl rfl
  · cases e.kind with
    | transactional => exact h.replay env e
    | compensation => exact h.updateFrame _ (fun _ => rfl) fun _ => rfl

omit h in
theorem recordRaise {t : Process} (h : Reported t) (e : Entry) :
    Reported (recordRaise env e s t) := by
  rcases recordRaise_eq env e s t with heq | heq <;> rw [heq]
  · exact h
  · exact h.of_keeps (Keeps.of_eq (fun _ => rfl) rfl rfl rfl rfl rfl) rfl rfl

theorem compensate (e : Entry) : Reported (s.compensate env e) := by
  unfold Process.compensate
  dsimp only
  split
  · exact h.of_keeps (Keeps.of_eq (fun _ => rfl) rfl rfl rfl rfl rfl) rfl rfl
  · exact Reported.recordRaise env ((h.tick _).runPhase2 env e) e

end Reported

/-- A disposer that is not disturbed leaves the E-Stop's own fields alone. -/
theorem dispose_undisturbed {e : Entry} {s : Process} (hgo : s.halted = false)
    (h : s.undisturbed env e = true) :
    (s.dispose env e).ambiguous = s.ambiguous ∧ (s.dispose env e).inFlight = s.inFlight := by
  have hcall : (s.call env e).ambiguous = s.ambiguous ∧ (s.call env e).inFlight = s.inFlight := by
    unfold undisturbed at h
    unfold call
    split_ifs with hhold hcommit
    · exact ⟨rfl, rfl⟩
    · exact ⟨rfl, rfl⟩
    · cases hk : e.kind with
      | compensation => exact ⟨rfl, rfl⟩
      | transactional =>
        simp only [hhold, hcommit, hk, Bool.false_or, Bool.or_eq_true, Bool.and_eq_true,
          Bool.not_eq_true', decide_eq_true_eq, reduceCtorEq, false_or] at h
        obtain ⟨hlatch, hspent⟩ := h
        have hpoll : s.poll env = { s with tick := s.tick + 1 } := by
          unfold poll
          rw [if_neg (by simp [hgo]), if_neg (by simp [hlatch])]
        show (s.replay env e).ambiguous = _ ∧ (s.replay env e).inFlight = _
        unfold replay
        rw [hpoll]
        dsimp only
        rw [if_neg (by simp [hgo])]
        split
        · exact ⟨rfl, rfl⟩
        · -- the body runs and no halt lands
          have hquiet : env.during (s.tick + 1) = false := by
            rcases hspent with hspent | hquiet
            · exact absurd hspent ‹_›
            · exact hquiet
          rcases fence_eq e { s with tick := s.tick + 1 } with heq | ⟨r, heq⟩ <;> rw [heq]
          all_goals
            unfold host
            dsimp only [append]
            rw [hquiet]
            exact ⟨rfl, rfl⟩
  unfold dispose
  rcases recordRaise_eq env e s (s.call env e) with heq | heq <;> rw [heq]
  · exact hcall
  · exact hcall

theorem Reported.guarded {e : Entry} {s : Process} (h : Reported s)
    (hclear : (s.poll env).halted = true ∨ ((s.poll env).enter e).undisturbed env e = true) :
    Reported (s.guarded env e) := by
  have hp := h.poll env
  have hinv := (guarded_settles env e s).keeps.inventory h.inventory
  unfold Process.guarded at hinv ⊢
  dsimp only at hinv ⊢
  by_cases hh : (s.poll env).halted = true
  · rw [if_pos hh]
    exact hp.strand e
  · rw [if_neg hh] at hinv ⊢
    obtain ⟨ha, hf⟩ := dispose_undisturbed env (s := (s.poll env).enter e)
      (Bool.not_eq_true _ ▸ hh) (hclear.resolve_left hh)
    refine ⟨hinv, ?_, ha.trans hp.ambiguous⟩
    show (((s.poll env).enter e).dispose env e).inFlight.erase e = []
    rw [hf]
    show ((s.poll env).inFlight ++ [e]).erase e = []
    rw [hp.inFlight]
    simp

theorem Reported.newFrame {s : Process} (h : Reported s) (name : String) :
    Reported (s.newFrame name) := by
  refine ⟨⟨h.inventory.1, fun hh e he => h.inventory.2 hh e ?_⟩, h.inFlight, h.ambiguous⟩
  -- a new frame has no entry
  obtain ⟨j, hj, he⟩ := List.mem_flatMap.1 he
  have hframes : (s.newFrame name).frames j = Frame.new name ∨
      j ∈ s.built ∧ (s.newFrame name).frames j = s.frames j := by
    by_cases hjn : j = s.built.length
    · subst hjn
      exact Or.inl (Function.update_self ..)
    · refine Or.inr ⟨?_, Function.update_of_ne hjn ..⟩
      rcases List.mem_append.1 hj with hj | hj
      · exact hj
      · exact absurd (List.mem_singleton.1 hj) hjn
  rcases hframes with hf | ⟨hj, hf⟩ <;> rw [hf] at he
  · cases he
  · exact List.mem_flatMap.2 ⟨j, hj, he⟩

theorem Reported.register {s : Process} (h : Reported s) (i : Nat) (seam : Seam)
    (r : Registration) : Reported (s.register env i seam r) := by
  have hp := h.poll env
  unfold Process.register
  dsimp only
  by_cases hh : (s.poll env).halted = true
  · rw [if_pos hh]
    exact hp
  · rw [if_neg hh]
    exact ⟨⟨hp.inventory.1, fun hh' => absurd hh' hh⟩, hp.inFlight, hp.ambiguous⟩

end Process

namespace Owner

variable (env : CommitEnv)

theorem reported_record {o : Owner} (h : Process.Reported o.process) (d : Deferral)
    (r : WalRecord) : Process.Reported (o.record d r).process := by
  unfold record
  split
  · exact h.append r
  · exact h

theorem reported_residue {o : Owner} (h : Process.Reported o.process) (d : Deferral)
    (error : Recovery.ErrorInfo) : Process.Reported (o.residue d error).process :=
  reported_record (o := { o with flushResidue := o.flushResidue ++ [(d.seq, error)] }) h d _

theorem reported_dispatch {o : Owner} (h : Process.Reported o.process) (f : Option Flight) :
    Process.Reported (o.dispatch env f).process := by
  unfold dispatch
  dsimp only
  split
  · exact h.engage.tick _
  · exact h.tick _

theorem reported_fire {o : Owner} (h : Process.Reported o.process) (d : Deferral) :
    Process.Reported (o.fire env d).process := by
  have hp := h.poll env.toEnv
  unfold fire
  dsimp only
  split
  · exact reported_residue (o := { o with process := o.process.poll env.toEnv }) hp d _
  · have hsent := reported_dispatch env (o := { o with
      process := o.process.poll env.toEnv
      fired := o.fired ++ [d] }) hp (some (.emission d))
    split
    · exact reported_residue hsent d _
    · exact reported_record hsent d _

theorem runTask_reported {o : Owner} (h : Process.Reported o.process) {t : Task}
    (ht : ∀ e, t = .guarded e → (o.process.poll env.toEnv).halted = true ∨
      ((o.process.poll env.toEnv).enter e).undisturbed env.toEnv e = true) :
    Process.Reported (o.runTask env t).1.process := by
  have hp := h.poll env.toEnv
  have hstrand (l : List Entry) :
      Process.Reported (l.foldl Process.strand (o.process.poll env.toEnv)) :=
    Process.reported_foldl (fun _ ht e _ => ht.strand e) hp
  cases t with
  | drain i =>
    simp only [runTask]
    split_ifs
    · have hall := hstrand (((o.process.poll env.toEnv).frames i).transactional ++
        ((o.process.poll env.toEnv).frames i).compensations)
      exact hall.updateFrame (g := fun f => { f with
        deferredTransactional := []
        deferredCompensations := []
        pendingCompensations := [] }) i (fun _ => rfl) fun _ => rfl
    · exact ⟨(Process.withdrawBit_inventory i _).2 hp.inventory, hp.inFlight, hp.ambiguous⟩
    · have hbit := (Process.settleBit_inventory i (o.process.poll env.toEnv)).2 hp.inventory
      refine ⟨hbit, ?_, ?_⟩ <;> simp only [withProcess, Process.settleBit] <;> split
      · exact hp.inFlight
      · exact hp.inFlight
      · exact hp.ambiguous
      · exact hp.ambiguous
  | hold e => exact h.of_keeps (Process.hold_settles e o.process).keeps rfl rfl
  | dispose e => exact Process.Reported.recordRaise env.toEnv (h.call env.toEnv e) e
  | stack i => exact h
  | guarded e => exact h.guarded env.toEnv (ht e rfl)
  | bottom i => exact h
  | phase2 i =>
    exact h.updateFrame (g := fun f => { f with pendingCompensations := [] }) i (fun _ => rfl)
      fun _ => rfl
  | attempt e => exact Process.Reported.recordRaise env.toEnv (h.replay env.toEnv e) e
  | compensations l =>
    simp only [runTask]
    split_ifs
    · exact h
    · exact hstrand l
    · exact hp
  | compensate e => exact h.compensate env.toEnv e
  | fire d => exact reported_fire env h d

theorem opStep_reported (hash : Target → String) {o : Owner} (h : Process.Reported o.process)
    (op : OwnerOp) : Process.Reported (o.opStep env hash op).1.process := by
  have hp := h.poll env.toEnv
  cases op with
  | newFrame name => exact h.newFrame name
  | register i seam r =>
    simp only [opStep]
    split
    · exact h.register env.toEnv i seam r
    · exact h
  | enqueue m =>
    simp only [opStep, enqueue]
    split
    · exact hp
    · have hlogged := hp.append (emissionRecord m (o.process.poll env.toEnv).nextSeq)
      exact ⟨hlogged.inventory, hlogged.inFlight, hlogged.ambiguous⟩
  | cross label marked =>
    simp only [opStep, cross]
    split
    · exact hp
    · exact reported_dispatch env (o := { o.withProcess (o.process.poll env.toEnv) with
        crossed := o.crossed ++ [label] }) hp _
  | abort i =>
    simp only [opStep]
    split
    · exact h.updateFrame (g := fun f => { f with aborting := true }) i (fun _ => rfl) fun _ => rfl
    · exact h
  | teardown i => exact h
  | fail i => exact h
  | settle i stamps =>
    have hleave : Process.Reported (leave i (unitAt i stamps o.process) o.process) := by
      unfold leave
      exact h.updateFrame i (fun _ => rfl) fun _ => rfl
    simp only [opStep]
    split
    · exact hleave
    · exact h
  | approve confirmed =>
    simp only [opStep]
    split
    · exact h
    · have hlogged := h.append (.commitApproved (some confirmed))
      exact ⟨hlogged.inventory, hlogged.inFlight, hlogged.ambiguous⟩
  | finalizeCommit =>
    simp only [opStep, finalizeCommit]
    split
    · exact h
    · exact h.append _

end Owner

namespace Session

variable (env : CommitEnv) (hash : Target → String)

/-- The moves under which an E-Stop does what it says: no commit is finalized under a halt while a
logged entry is live, and no halt lands while the host runs a disposer. -/
def clear (m : Session) : Move → Bool
  | .op .finalizeCommit =>
    !m.todo.isEmpty || !m.owner.process.halted || m.owner.process.witnessedSeqs = []
  | .step =>
    match m.todo with
    | .guarded e :: _ =>
      let s := m.owner.process.poll env.toEnv
      s.halted || (s.enter e).undisturbed env.toEnv e
    | _ => true
  | _ => true

/-- A run of such moves. -/
def clearRun (m : Session) : List Move → Bool
  | [] => true
  | v :: vs => m.clear env v && (m.move env hash v).clearRun vs

theorem move_frozen {m : Session} (hh : m.owner.process.halted = true) {v : Move}
    (hclear : m.clear env v = true) :
    (m.move env hash v).owner.process.halted = true ∧
      (m.move env hash v).owner.output = m.owner.output := by
  obtain ⟨o, todo⟩ := m
  cases v with
  | op op =>
    cases todo with
    | cons t rest => exact ⟨hh, rfl⟩
    | nil =>
      change o.process.halted = true at hh
      refine Owner.opStep_frozen env hash hh fun hop => ?_
      subst hop
      simpa [clear, hh] using hclear
  | step =>
    cases todo with
    | nil => exact ⟨hh, rfl⟩
    | cons t rest => exact Owner.runTask_frozen env hh t
  | halt =>
    have hsame : o.process.engage = o.process := by
      unfold Process.engage
      rw [if_pos hh]
    show (o.withProcess o.process.engage).process.halted = true ∧
      (o.withProcess o.process.engage).output = o.output
    rw [hsame]
    exact ⟨hh, rfl⟩

theorem move_reported {m : Session} (h : Process.Reported m.owner.process) {v : Move}
    (hclear : m.clear env v = true) : Process.Reported (m.move env hash v).owner.process := by
  obtain ⟨o, todo⟩ := m
  cases v with
  | op op =>
    cases todo with
    | nil => exact Owner.opStep_reported env hash h op
    | cons t rest => exact h
  | step =>
    cases todo with
    | nil => exact h
    | cons t rest =>
      refine Owner.runTask_reported env h fun e he => ?_
      subst he
      simpa [clear] using hclear
  | halt => exact h.engage

theorem run_frozen {m : Session} (hh : m.owner.process.halted = true) {moves : List Move}
    (hclear : m.clearRun env hash moves = true) :
    (m.run env hash moves).owner.process.halted = true ∧
      (m.run env hash moves).owner.output = m.owner.output := by
  induction moves generalizing m with
  | nil => exact ⟨hh, rfl⟩
  | cons v vs ih =>
    rw [clearRun, Bool.and_eq_true] at hclear
    obtain ⟨hstay, hsame⟩ := move_frozen env hash hh hclear.1
    obtain ⟨hend, hout⟩ := ih hstay hclear.2
    exact ⟨hend, hout.trans hsame⟩

theorem run_reported {m : Session} (h : Process.Reported m.owner.process) {moves : List Move}
    (hclear : m.clearRun env hash moves = true) :
    Process.Reported (m.run env hash moves).owner.process := by
  induction moves generalizing m with
  | nil => exact h
  | cons v vs ih =>
    rw [clearRun, Bool.and_eq_true] at hclear
    exact ih (move_reported env hash h hclear.1) hclear.2

theorem clearRun_append {m : Session} {l k : List Move} :
    m.clearRun env hash (l ++ k) = (m.clearRun env hash l && (m.run env hash l).clearRun env hash k) := by
  induction l generalizing m with
  | nil => rfl
  | cons v vs ih =>
    rw [List.cons_append, clearRun, clearRun, ih, Bool.and_assoc]
    rfl

/-- **An E-Stop replays nothing and discharges nothing.** In every session of clear moves, wherever
the halt is found or lands: from then on no host body is started, no emission is fired, no crossing
is made and no discharge record is written; and every registered entry is named by the halt, once,
as stranded or as in flight. -/
theorem estop_spec (log : Bool) (before after : List Move)
    (hclear : (start log).clearRun env hash (before ++ after) = true)
    (hh : ((start log).run env hash before).owner.process.halted = true) :
    ((start log).run env hash (before ++ after)).owner.output =
        ((start log).run env hash before).owner.output ∧
      let s := ((start log).run env hash (before ++ after)).owner.process
      ∀ e ∈ s.nameable, (s.stranded ++ s.ambiguous).count e = 1 := by
  have hstart : Process.Reported (start log).owner.process :=
    ⟨⟨List.nodup_nil, fun hh => by cases hh⟩, rfl, rfl⟩
  have hend := run_reported env hash hstart hclear
  rw [clearRun_append, Bool.and_eq_true] at hclear
  have hsplit : (start log).run env hash (before ++ after) =
      ((start log).run env hash before).run env hash after := List.foldl_append
  rw [hsplit] at hend ⊢
  obtain ⟨hstay, hsame⟩ := run_frozen env hash hh hclear.2
  refine ⟨hsame, fun e he => ?_⟩
  rw [hend.ambiguous, List.append_nil]
  exact List.count_eq_one_of_mem hend.inventory.1 (hend.inventory.2 hstay e he)

end Session

/-! ## A halt in a session -/

namespace Session

/-- A component with one witnessed effect, in a logged session. -/
def activated : List Move := [.op (.newFrame "Vault"), .op (.register 0 .body someInverse)]

/-- It is rejected, and torn down as far as its first disposer. -/
def rejected : List Move := [.op (.abort 0), .op (.teardown 0), .step, .step, .step]

/-- A halt lands at one reading of the clock, while a host body runs. -/
def haltDuring (n : Nat) : CommitEnv :=
  ⟨⟨fun _ => false, (· = n), fun _ => false, fun _ => false⟩, fun _ => none,
    fun _ => ⟨"EstopHalted", ""⟩⟩

theorem estop_spec_rejected :
    ((start true).run Owner.quietCommit (fun _ => "") ((activated ++ [.halt]) ++ rejected)).owner.output =
        ((start true).run Owner.quietCommit (fun _ => "") (activated ++ [.halt])).owner.output ∧
      let s := ((start true).run Owner.quietCommit (fun _ => "")
        ((activated ++ [.halt]) ++ rejected)).owner.process
      ∀ e ∈ s.nameable, (s.stranded ++ s.ambiguous).count e = 1 :=
  estop_spec Owner.quietCommit _ true _ _ (by decide) (by decide)

/-- A commit finalized after a halt writes a discharge record, and an entry whose inverse a halt
lands in is named twice. -/
theorem estop_limits :
    let s := (start true).run Owner.quietCommit (fun _ => "") (activated ++ [.halt])
    let t := (s.move Owner.quietCommit (fun _ => "") (.op .finalizeCommit)).owner.process
    let u := ((start true).run (haltDuring 4) (fun _ => "") (activated ++ rejected)).owner.process
    (s.owner.process.halted = true ∧ dischargedOf t.records = [0]) ∧
      u.halted = true ∧ u.marks.discharged = [] ∧
      u.nameable.map (fun e => (u.stranded ++ u.ambiguous).count e) = [2] := by
  decide

end Session

end Revl.Runtime
