import Revl.Recovery.Record

/-!
# Activation frames and their teardown

A frame accumulates the entries its component registers: witnessed inverses and compensations,
yielded by the activation body onto the host's disposer stack or registered by a provide method
and parked for `drain`. Tearing the frame down hands each entry to one callable that decides, from
the frame's flags and the session's verdict, whether to hold, discharge or replay it.

- `Entry`, `Frame`, `Process`: the data; `Marks` keeps the entries whose flag is set.
- `Env`: what the run does not decide: when a halt lands, which bodies raise, the clock.
- `call`, `guarded`, `drain`, `drainPhase2`, `begin_`: the pieces of a teardown.
- `unwind`, `fault`: the host tearing down a completed activation, and a failed one.
-/

namespace Revl.Runtime

open Recovery (Call EntryKind Register WalRecord)

/-! ## Data -/

/-- What a registration hands over. -/
structure Registration where
  kind : EntryKind
  call : Call
  undoIdempotent : Bool
  register : Option Register
  idempotency : Option String
  offsets : Option Int
  deriving DecidableEq

/-- A registered `_Transactional` or `_Compensation`; `stamp` is its place in the process. -/
structure Entry where
  stamp : Nat
  frame : Nat
  kind : EntryKind
  call : Call
  undoIdempotent : Bool
  seq : Option Int
  deriving DecidableEq

structure Frame where
  name : String
  transactional : List Entry
  compensations : List Entry
  /-- The entries provide methods registered; `drain` disposes them. -/
  deferredTransactional : List Entry
  deferredCompensations : List Entry
  pendingCompensations : List Entry
  /-- The disposers the body yielded to the host, oldest first. -/
  stack : List Entry
  committed : Bool
  aborting : Bool
  holding : Bool

def Frame.new (name : String) : Frame := ⟨name, [], [], [], [], [], [], false, false, false⟩

/-- Where an entry is registered. -/
inductive Seam where
  | body
  | method
  deriving DecidableEq, Repr

/-- The frame after an entry joined its lists. -/
def Frame.push (seam : Seam) (e : Entry) (f : Frame) : Frame :=
  let f := match e.kind with
    | .transactional => { f with transactional := f.transactional ++ [e] }
    | .compensation => { f with compensations := f.compensations ++ [e] }
  match seam, e.kind with
  | .body, _ => { f with stack := f.stack ++ [e] }
  | .method, .transactional => { f with deferredTransactional := f.deferredTransactional ++ [e] }
  | .method, .compensation => { f with deferredCompensations := f.deferredCompensations ++ [e] }

inductive Verdict where
  | commit
  | abort
  deriving DecidableEq, Repr

/-- The flags of the entries, as the lists of entries whose flag is set. `started` is every host
body of an entry that was invoked, in order. -/
structure Marks where
  discharged : List Entry
  started : List Entry
  notAttempted : List Entry
  held : List Entry

/-- The process: its frames, the session owner, the E-Stop and the log. -/
structure Process where
  frames : Nat → Frame
  /-- Every frame that was built, oldest first. -/
  built : List Nat
  /-- Whether a session owner is registered. -/
  owned : Bool
  verdict : Option Verdict
  registry : List Nat
  escrow : List Entry
  marks : Marks
  /-- The entries whose body raised, as residue names them. -/
  raised : List Entry
  halted : Bool
  stranded : List Entry
  inFlight : List Entry
  ambiguous : List Entry
  nextStamp : Nat
  /-- The log, if one is open, and the seq it gives next. -/
  wal : Option (List WalRecord)
  nextSeq : Int
  /-- How often the surroundings were asked anything. -/
  tick : Nat

/-- What the surroundings decide. -/
structure Env where
  /-- Whether a poll finds a halt that was armed since the last one. -/
  latch : Nat → Bool
  /-- Whether a halt lands while a host body runs. -/
  during : Nat → Bool
  /-- Whether the host body of an entry raises. -/
  raises : Nat → Bool
  /-- Whether a clock reading is past the Phase-2 deadline. -/
  expired : Nat → Bool

namespace Process

def updateFrame (i : Nat) (g : Frame → Frame) (s : Process) : Process :=
  { s with frames := Function.update s.frames i (g (s.frames i)) }

def append (r : WalRecord) (s : Process) : Process := { s with wal := s.wal.map (· ++ [r]) }

/-- Set a flag of an entry. -/
def mark (e : Entry) (l : List Entry) : List Entry := if e ∈ l then l else l ++ [e]

/-! ## The E-Stop -/

/-- Record an entry as stranded, once. -/
def strand (s : Process) (e : Entry) : Process := { s with stranded := mark e s.stranded }

/-- The entries the halt can name. -/
def nameable (s : Process) : List Entry :=
  s.built.flatMap fun i => (s.frames i).transactional ++ (s.frames i).compensations

/-- `estop`: idempotent. -/
def engage (s : Process) : Process :=
  if s.halted = true then s
  else { s.nameable.foldl strand s with
    halted := true
    ambiguous := s.ambiguous ++ s.inFlight }

variable (env : Env)

/-- `_estop_poll`: whether a halt is in force, engaging one that was armed. -/
def poll (s : Process) : Process :=
  if s.halted = true then s
  else if env.latch s.tick then engage { s with tick := s.tick + 1 }
  else { s with tick := s.tick + 1 }

/-! ## One entry -/

/-- The host body of an entry runs; a halt may land meanwhile. -/
def host (e : Entry) (s : Process) : Process :=
  let s := { s with marks := { s.marks with started := s.marks.started ++ [e] } }
  let s := if env.during s.tick then engage s else s
  { s with tick := s.tick + 1 }

/-- Whether the entry has dropped its callable. -/
def spent (e : Entry) (s : Process) : Bool := e ∈ s.marks.started || e ∈ s.marks.discharged

/-- An undeclared inverse is fenced in the log before it is applied. -/
def fence (e : Entry) (s : Process) : Process :=
  match e.undoIdempotent, e.seq with
  | false, some n => s.append (.replayFence (some n))
  | _, _ => s

/-- `_Transactional._replay`. -/
def replay (e : Entry) (s : Process) : Process :=
  let s := s.poll env
  if s.halted = true then s.strand e
  else if s.spent e then s
  else host env e (s.fence e)

/-- `_Compensation._run_phase2`. -/
def runPhase2 (e : Entry) (s : Process) : Process :=
  let s := s.poll env
  if s.halted = true then s.strand e
  else if s.spent e then s
  else host env e s

/-- `_hold_for_session`: a withdrawal with the verdict still pending. -/
def holds (e : Entry) (s : Process) : Bool :=
  s.owned && s.verdict.isNone && !(s.frames e.frame).aborting && (s.frames e.frame).holding

/-- `SessionOwner.escrow` with the entry's own flag. -/
def hold (e : Entry) (s : Process) : Process :=
  { s with
    escrow := mark e s.escrow
    marks := { s.marks with held := mark e s.marks.held } }

/-- `__call__` of an entry. -/
def call (e : Entry) (s : Process) : Process :=
  if s.holds e then s.hold e
  else if (s.frames e.frame).committed then
    { s with marks := { s.marks with discharged := mark e s.marks.discharged } }
  else match e.kind with
    | .transactional => s.replay env e
    | .compensation => s.updateFrame e.frame fun f =>
        { f with pendingCompensations := f.pendingCompensations ++ [e] }

/-- A body that was started and raises is recorded as residue. -/
def recordRaise (e : Entry) (before s : Process) : Process :=
  if env.raises e.stamp && decide (before.marks.started.length < s.marks.started.length) then
    { s with raised := s.raised ++ [e] }
  else s

/-- Call an entry, catch and record. -/
def dispose (e : Entry) (s : Process) : Process :=
  recordRaise env e s (s.call env e)

/-- `_InFlight`: the call of an entry is marked while it runs. -/
def enter (e : Entry) (s : Process) : Process := { s with inFlight := s.inFlight ++ [e] }

def leave (e : Entry) (s : Process) : Process := { s with inFlight := s.inFlight.erase e }

/-- The disposer `_guard` wraps around an entry the body yielded. -/
def guarded (e : Entry) (s : Process) : Process :=
  let s := s.poll env
  if s.halted = true then s.strand e
  else ((s.enter e).dispose env e).leave e

/-! ## Phase 2 -/

/-- One compensation of Phase 2, under the budget. -/
def compensate (s : Process) (e : Entry) : Process :=
  if env.expired s.tick then
    { s with
      tick := s.tick + 1
      marks := { s.marks with notAttempted := mark e s.marks.notAttempted } }
  else
    let before := { s with tick := s.tick + 1 }
    recordRaise env e before (before.runPhase2 env e)

/-- `_run_compensations`. -/
def runCompensations (pending : List Entry) (s : Process) : Process :=
  if pending = [] then s
  else
    let s := s.poll env
    if s.halted = true then pending.foldl strand s
    else pending.foldl (compensate env) s

/-- `_drain_phase2`. -/
def drainPhase2 (i : Nat) (s : Process) : Process :=
  runCompensations env (s.frames i).pendingCompensations
    (s.updateFrame i fun f => { f with pendingCompensations := [] })

/-- `begin`, at the bottom of the frame's stack. -/
def begin_ (i : Nat) (s : Process) : Process :=
  if (s.frames i).committed then s else s.drainPhase2 env i

/-! ## Drain -/

/-- The branch of `drain` under a halt: the entries are stranded and none is disposed. -/
def drainHalted (i : Nat) (s : Process) : Process :=
  (((s.frames i).transactional ++ (s.frames i).compensations).foldl strand s).updateFrame i
    fun f => { f with
      deferredTransactional := []
      deferredCompensations := []
      pendingCompensations := [] }

/-- The frame leaves the registry and hands its parked entries over. -/
def withdrawBit (i : Nat) (s : Process) : Process :=
  { s with registry := s.registry.erase i }.updateFrame i fun f => { f with
    holding := true
    deferredTransactional := []
    deferredCompensations := [] }

/-- The branch of a withdrawal with the verdict pending: the entries go to the escrow, the parked
ones here and the body's as the host unwinds them. -/
def drainWithdraw (i : Nat) (s : Process) : Process :=
  ((s.frames i).deferredTransactional ++ (s.frames i).deferredCompensations).foldl
    (fun s e => s.hold e) (s.withdrawBit i)

/-- The seqs of a frame's entries, in its own discharge record. -/
def dischargeSeqs (f : Frame) : List Int :=
  f.transactional.filterMap (·.seq) ++ f.compensations.filterMap (·.seq)

/-- Settle the commit bit; a frame without a session owner writes its discharge record. -/
def settleBit (i : Nat) (s : Process) : Process :=
  let f := s.frames i
  let s := s.updateFrame i fun f => { f with
    committed := f.committed || !f.aborting
    deferredTransactional := []
    deferredCompensations := [] }
  if (f.committed || !f.aborting) && !s.owned && dischargeSeqs f ≠ [] then
    s.append (.discharge (dischargeSeqs f))
  else s

/-- Dispose the parked entries newest first, the inverses before the compensations. -/
def drainSettle (i : Nat) (s : Process) : Process :=
  ((s.frames i).deferredTransactional.reverse ++
    (s.frames i).deferredCompensations.reverse).foldl (fun s e => dispose env e s) (s.settleBit i)

/-- `drain`, at the top of a completed activation's stack. -/
def drain (i : Nat) (s : Process) : Process :=
  let s := s.poll env
  if s.halted = true then s.drainHalted i
  else if s.owned && s.verdict.isNone && !(s.frames i).aborting then s.drainWithdraw i
  else s.drainSettle env i

/-! ## The host's unwind -/

/-- The host disposes what the body yielded, newest first; it does so once. -/
def disposeStack (i : Nat) (s : Process) : Process :=
  (s.frames i).stack.reverse.foldl (fun s e => guarded env e s) s

/-- Tear a completed activation down: `drain` on top, `begin` at the bottom. -/
def unwind (i : Nat) (s : Process) : Process :=
  ((s.drain env i).disposeStack env i).begin_ env i

/-- The body raised: it never yielded `drain`, and `install` drains Phase 2 once more. -/
def fault (i : Nat) (s : Process) : Process :=
  ((s.disposeStack env i).begin_ env i).drainPhase2 env i

/-- `Frame.abort`. -/
def abort (i : Nat) (s : Process) : Process :=
  s.updateFrame i fun f => { f with aborting := true }

/-! ## Registration -/

/-- The descriptor the log gets for an entry. -/
def descriptor (f : Frame) (r : Registration) (seq : Int) : WalRecord :=
  .descriptor ⟨seq, r.kind, r.call, ⟨some f.name, none, none, [], none⟩, r.register,
    r.undoIdempotent, r.idempotency, r.offsets⟩

def newEntry (i : Nat) (r : Registration) (s : Process) : Entry :=
  ⟨s.nextStamp, i, r.kind, r.call, r.undoIdempotent, s.wal.map fun _ => s.nextSeq⟩

/-- `transactional`, `transactional_method`, `compensation` and `compensation_method`: refused
under a halt. -/
def register (i : Nat) (seam : Seam) (r : Registration) (s : Process) : Process :=
  let s := s.poll env
  if s.halted = true then s
  else
    let f := s.frames i
    let e := s.newEntry i r
    { (s.updateFrame i (Frame.push seam e)).append (descriptor f r s.nextSeq) with
      nextStamp := s.nextStamp + 1
      nextSeq := if s.wal.isSome then s.nextSeq + 1 else s.nextSeq }

end Process

end Revl.Runtime
