import Revl.Fork.Partition
import Revl.Recovery.Admissions
import Revl.Recovery.HandsOver
import Revl.Runtime.Replay

/-!
# Recovery of a forked parent

A session fork writes `fork-begin` to the parent's log, rewinds the tail, and writes `fork-frozen`.
Recovery retires a log with a `fork-frozen` record at once. A crash before it leaves the log to the
roll-back, with the fences the rewind wrote.

- `recoverLog`: the answer on a whole log.
- `stepBackScoped`, `midFork`: the rewind, and the log a crash during it leaves.
- `fenced_of_started`: where every disposer fences its inverse, so does any cut of the rewind.
- `fork_leaves_nothing`: **the exact logs on which a clean retired fork hides nothing, and the
  exact crashes after which no started inverse is handed over.**
-/

namespace Revl.Recovery

open Fence
open Fork (Kind Scope scopeHostConfined)
open Runtime.Process (replayDescriptors replayDescriptors_fenced)

/-! ## The log -/

/-- A record of a whole log. The entries of `fork-begin` are read by their index alone. -/
inductive LogRecord where
  | base (r : WalRecord)
  | admission (r : AdmitRecord)
  | forkBegin (at_ : Option Int) (crossed wouldCross : List (Option Int))
  | forkComplete (branch : Option String)
  deriving DecidableEq

def baseOf (records : List LogRecord) : List WalRecord :=
  records.filterMap fun
    | .base r => some r
    | _ => none

def admissionsOf (records : List LogRecord) : List AdmitRecord :=
  records.filterMap fun
    | .admission r => some r
    | _ => none

/-- A log as it was read. -/
structure Log where
  records : List LogRecord
  torn : Bool
  callers : String → List Int

/-- What the roll-back reads of a log. -/
def Log.wal (log : Log) : Wal := ⟨baseOf log.records, log.torn, log.callers⟩

/-! ## The answer -/

/-- `_fork_retired` -/
structure ForkRetired where
  at_ : Option Int
  branch : Option String
  forkComplete : Bool
  outstanding : List (Option Int)

/-- `residue.clean` -/
def ForkRetired.clean (report : ForkRetired) : Bool := report.outstanding.isEmpty

/-- What the first `fork-begin` enumerates: the crossed emissions, then the inverses not fired. -/
def enumeratedAtFork (records : List LogRecord) : List (Option Int) :=
  (records.findSome? fun
    | .forkBegin _ crossed wouldCross => some (crossed ++ wouldCross)
    | _ => none).getD []

/-- The branch of the first `fork-complete`. -/
def branchOf (records : List LogRecord) : Option (Option String) :=
  records.findSome? fun
    | .forkComplete branch => some branch
    | _ => none

/-- `_fork_retired` of a log frozen at a step. -/
def forkRetired (records : List LogRecord) (at_ : Option Int) : ForkRetired where
  at_ := at_
  branch := (branchOf records).bind id
  forkComplete := (branchOf records).isSome
  outstanding := enumeratedAtFork records

/-- The answer of `recover`, the admissions scan included. -/
inductive LogAnswer where
  | retired (report : ForkRetired)
  | live (recovered : Recovered) (admissions : List Scanned)

/-- `recover`, over a whole log. A frozen log leaves before any other record is read. -/
def recoverLog (w : World) (strength : Option Strength) (basis : Basis)
    (session : Option RestoredSession) (forward : Bool) (log : Log) : LogAnswer :=
  match frozenAt log.wal.records with
  | some at_ => .retired (forkRetired log.records at_)
  | none =>
    .live (recover w strength basis log.wal)
      (recoverForwardAdmissions (admissionsOf log.records) session forward true)

/-- What an answer's run did against the world. -/
def LogAnswer.trace : LogAnswer → List Event
  | .retired _ => []
  | .live recovered _ => recovered.trace

/-- A frozen log is retired. -/
theorem recoverLog_of_frozen {w : World} {strength : Option Strength} {basis : Basis}
    {session : Option RestoredSession} {forward : Bool} {log : Log} {at_ : Option Int}
    (h : frozenAt log.wal.records = some at_) :
    recoverLog w strength basis session forward log = .retired (forkRetired log.records at_) := by
  unfold recoverLog
  rw [h]

/-- The run on a whole log is the run on what the roll-back reads of it. -/
theorem recoverLog_trace (w : World) (strength : Option Strength) (basis : Basis)
    (session : Option RestoredSession) (forward : Bool) (log : Log) :
    (recoverLog w strength basis session forward log).trace =
      (recover w strength basis log.wal).trace := by
  cases hfrozen : frozenAt log.wal.records with
  | some at_ =>
    rw [recoverLog_of_frozen hfrozen]
    unfold recover
    simp only [hfrozen]
    rfl
  | none =>
    unfold recoverLog
    rw [hfrozen]
    rfl

/-! ## The rewind -/

/-- A registered transactional entry, as `_Transactional.__call__` finds it. -/
structure TransactionalEntry where
  /-- The seq of its descriptor, where a log was attached when it was registered. -/
  seq : Option Int
  undoIdempotent : Bool
  /-- `_hold_for_session`: escrowed until the session's verdict. -/
  held : Bool
  committed : Bool
  /-- `_estop_poll` -/
  halted : Bool
  /-- Its inverse was taken by an earlier call. -/
  spent : Bool
  /-- `frame._wal()` answers a log. -/
  walAttached : Bool

/-- What a step's `undo` runs. A durable close describes itself to the log; a closure cannot. -/
inductive Disposer where
  | transactional (t : TransactionalEntry)
  | durableClose
  | closure

/-- What a rewind does: a `replay-fence` appended, or an inverse started under the seq of its record
in the log, undeclared or not. -/
inductive RewindEvent where
  | fence (seq : Int)
  | started (seq : Option Int) (undeclared : Bool)
  deriving DecidableEq, Repr

namespace TransactionalEntry

/-- `_Transactional._replay`: the fence of an undeclared inverse is on disk before it runs. -/
def replay (t : TransactionalEntry) : List RewindEvent :=
  if t.halted || t.spent then []
  else
    match t.seq with
    | some seq =>
      if !t.undoIdempotent && t.walAttached then [.fence seq, .started (some seq) true]
      else [.started (some seq) (!t.undoIdempotent)]
    | none => [.started none (!t.undoIdempotent)]

/-- `_Transactional.__call__` -/
def call (t : TransactionalEntry) : List RewindEvent :=
  if t.held then [] else if t.committed then [] else t.replay

end TransactionalEntry

/-- A step of the tail: what the rewind reads of it, and its record. -/
structure ForkStep where
  kind : Kind
  scope : Option Scope
  undone : Bool
  disposer : Disposer
  /-- Its inverse raises when it is run. The rewind goes on, and reports the step as failed. -/
  raises : Bool
  effect : Effect

namespace ForkStep

/-- `_step_back_scoped` runs the inverse of a step: a provision's withdrawal, and an effect's whose
scope stays on the host. -/
def runs (s : ForkStep) : Bool :=
  (s.kind == .provision || (s.kind == .effect && scopeHostConfined s.scope)) && !s.undone

/-- What the rewind does at a step. -/
def events (s : ForkStep) : List RewindEvent :=
  if s.runs then
    match s.disposer with
    | .transactional t => t.call
    | .durableClose => [.started s.effect.seq s.effect.inverse.undeclared]
    | .closure => [.started none false]
  else []

/-- A step whose inverse is fenced where recovery may run it once only: a transactional entry of a
frame with a log, or one that declares its inverse idempotent. A durable close has no fence. -/
def Fenced (s : ForkStep) : Prop :=
  s.runs = true →
    match s.disposer with
    | .transactional t => t.seq = none ∨ t.undoIdempotent = true ∨ t.walAttached = true
    | .durableClose => s.effect.seq = none ∨ s.effect.inverse.undeclared = false
    | .closure => True

end ForkStep

/-- `_step_back_scoped`, over the tail newest first. -/
def stepBackScoped (steps : List ForkStep) : List RewindEvent := steps.flatMap ForkStep.events

/-- The records a rewind appended. -/
def rewindRecords (events : List RewindEvent) : List LogRecord :=
  events.filterMap fun
    | .fence seq => some (.base (.replayFence (some seq)))
    | .started .. => none

/-- The log of a fork that crashed when its rewind had done `cut` of its events. -/
def midFork (log : Log) (at_ : Option Int) (crossed wouldCross : List (Option Int))
    (steps : List ForkStep) (cut : Nat) : Log where
  records := log.records ++
    .forkBegin at_ crossed wouldCross :: rewindRecords ((stepBackScoped steps).take cut)
  torn := log.torn
  callers := log.callers

/-- What a call of an entry does: nothing, a fenced inverse, or one that needs no fence. -/
theorem TransactionalEntry.call_cases (t : TransactionalEntry)
    (h : t.seq = none ∨ t.undoIdempotent = true ∨ t.walAttached = true) :
    t.call = [] ∨ (∃ seq, t.call = [.fence seq, .started (some seq) true]) ∨
      ∃ seq undeclared, (seq = none ∨ undeclared = false) ∧ t.call = [.started seq undeclared] := by
  unfold call replay
  split
  · exact .inl rfl
  split
  · exact .inl rfl
  split
  · exact .inl rfl
  · split
    · next seq hseq =>
      split
      · exact .inr (.inl ⟨seq, rfl⟩)
      · next hfence =>
        -- not fenced, so declared
        refine .inr (.inr ⟨some seq, !t.undoIdempotent, .inr ?_, rfl⟩)
        rcases h with hnone | hdecl | hwal
        · rw [hseq] at hnone
          exact nomatch hnone
        · rw [hdecl]
          rfl
        · simpa [hwal] using hfence
    · exact .inr (.inr ⟨none, _, .inl rfl, rfl⟩)

/-- What a step does, the same way. -/
theorem ForkStep.events_cases {s : ForkStep} (h : s.Fenced) :
    s.events = [] ∨ (∃ seq, s.events = [.fence seq, .started (some seq) true]) ∨
      ∃ seq undeclared, (seq = none ∨ undeclared = false) ∧
        s.events = [.started seq undeclared] := by
  unfold events
  split
  · next hruns =>
    have hfenced := h hruns
    split
    · next t ht =>
      rw [ht] at hfenced
      exact t.call_cases hfenced
    · next hclose =>
      rw [hclose] at hfenced
      exact .inr (.inr ⟨_, _, hfenced, rfl⟩)
    · exact .inr (.inr ⟨none, false, .inl rfl, rfl⟩)
  · exact .inl rfl

/-- A cut of a step that started an undeclared inverse has its fence. -/
theorem ForkStep.fence_of_started {s : ForkStep} (h : s.Fenced) {cut : Nat} {seq : Int}
    (hs : .started (some seq) true ∈ s.events.take cut) : .fence seq ∈ s.events.take cut := by
  rcases s.events_cases h with hnil | ⟨n, hfenced⟩ | ⟨n, undeclared, hfree, hstarted⟩
  · rw [hnil, List.take_nil] at hs
    cases hs
  · rw [hfenced] at hs ⊢
    -- the fence is the first event, so a cut that has any has it
    rcases cut with _ | _ | cut
    · cases hs
    · simp at hs
    · simp only [List.take_succ_cons, List.take_nil, List.mem_cons, RewindEvent.started.injEq,
        reduceCtorEq, List.not_mem_nil, or_false, false_or, Option.some.injEq, and_true] at hs ⊢
      rw [hs]
  · rw [hstarted] at hs
    have hmem := List.mem_of_mem_take hs
    rw [List.mem_singleton, RewindEvent.started.injEq] at hmem
    obtain ⟨rfl, rfl⟩ := hmem
    rcases hfree with hnone | hdeclared
    · cases hnone
    · cases hdeclared

/-- **The rewind fences before it fires**: any cut of it that started an undeclared inverse has the
fence. -/
theorem fenced_of_started {steps : List ForkStep} (h : ∀ s ∈ steps, s.Fenced) {cut : Nat}
    {seq : Int} (hs : .started (some seq) true ∈ (stepBackScoped steps).take cut) :
    .fence seq ∈ (stepBackScoped steps).take cut := by
  induction steps generalizing cut with
  | nil =>
    rw [stepBackScoped, List.flatMap_nil, List.take_nil] at hs
    exact nomatch hs
  | cons s steps ih =>
    rw [stepBackScoped, List.flatMap_cons, List.take_append, List.mem_append] at hs ⊢
    rcases hs with hhere | hlater
    · exact .inl (ForkStep.fence_of_started (h s List.mem_cons_self) hhere)
    · exact .inr (ih (fun s hs => h s (List.mem_cons_of_mem _ hs)) hlater)

/-- A fence the rewind wrote is in the log of the crash. -/
theorem mem_fences_midFork {log : Log} {at_ : Option Int} {crossed wouldCross : List (Option Int)}
    {steps : List ForkStep} {cut : Nat} {seq : Int}
    (h : .fence seq ∈ (stepBackScoped steps).take cut) :
    some seq ∈ replayFencesOf (midFork log at_ crossed wouldCross steps cut).wal.records := by
  rw [mem_replayFencesOf]
  have hrecord : .base (.replayFence (some seq)) ∈
      rewindRecords ((stepBackScoped steps).take cut) :=
    List.mem_filterMap.2 ⟨_, h, rfl⟩
  exact List.mem_filterMap.2
    ⟨_, List.mem_append_right _ (List.mem_cons_of_mem _ hrecord), rfl⟩

/-- **A crash during the fork**: no run of recovery, and no later one, hands over an undeclared
inverse that the rewind had started, and no batch given to a composition binding starts it. -/
theorem midFork_hands_over_nothing {log : Log} {at_ : Option Int}
    {crossed wouldCross : List (Option Int)} {steps : List ForkStep} {cut : Nat}
    (h : ∀ s ∈ steps, s.Fenced) {runs : List CutRun}
    (hreal : ∀ run ∈ runs, run.world.kind = .real ∧ run.world.replaysDescriptors = false)
    {seq : Int} (hs : .started (some seq) true ∈ (stepBackScoped steps).take cut) :
    handedOver seq (runEvents (midFork log at_ crossed wouldCross steps cut).wal runs).flatten =
        0 ∧
      ∀ env engaged resolves batch, ∀ x ∈ (replayDescriptors env engaged
          (midFork log at_ crossed wouldCross steps cut).wal.records resolves batch).marks.started,
        x.kind = .transactional → x.undoIdempotent = false → x.seq ≠ some seq := by
  have hfence : some seq ∈
      replayFencesOf (midFork log at_ crossed wouldCross steps cut).wal.records :=
    mem_fences_midFork (fenced_of_started h hs)
  constructor
  · rw [handedOver_runs]
    exact runs_of_spent (runEvents_guarded hreal _) hfence
  · intro env engaged resolves batch
    exact replayDescriptors_fenced env engaged _ resolves batch hfence

/-! ## What a retired fork leaves out -/

/-- Whether an event of recovery is about a record. -/
def Event.concerns : Event → LogRecord → Prop
  | .applyInverse (.legacy seq _) _, .base (.effect e) => e.seq = seq
  | .applyInverse (.transactional seq _) _, .base (.descriptor d) => d.seq = seq
  | .applyInverse (.shared handle) _, .base (.sharedGrant g) => g.handle = handle
  | .applyCompensation op, .base (.descriptor d) => d.call = op
  | .reissue op, .base (.deferred d) => d.call = op
  | .replayDescriptors handed, .base (.descriptor d) => .descriptor d ∈ handed
  | .reissueDeferred d, .base (.deferred d') => d = d'
  | .reclaimShared g, .base (.sharedGrant g') => g = g'
  | _, _ => False

/-- Whether the residue of a retired fork lists a record: by the index of its step. -/
def ForkRetired.lists (report : ForkRetired) : LogRecord → Prop
  | .base (.effect e) => e.stepIndex ∈ report.outstanding
  | _ => False

/-- The records recovery answers for: effects, descriptors, deferred emissions, shared grants, and
admissions that were not finished. -/
def answersFor (records : List LogRecord) : LogRecord → Prop
  | .base (.effect _) => True
  | .base (.descriptor _) => True
  | .base (.deferred _) => True
  | .base (.sharedGrant _) => True
  | .admission (.decided d) => admissionSettled (admissionsOf records) d.decisionId = false
  | _ => False

def LogRecord.isFrozen : LogRecord → Bool
  | .base r => isForkFrozen r
  | _ => false

/-- The records of the frozen session. -/
def untilFrozen (records : List LogRecord) : List LogRecord :=
  records.takeWhile fun r => !r.isFrozen

/-- The records after the first `fork-frozen`. -/
def sinceFrozen (records : List LogRecord) : List LogRecord :=
  (records.dropWhile fun r => !r.isFrozen).tail

/-- The rewind ran the inverse of a record, and it did not raise. -/
def rewound (steps : List ForkStep) : LogRecord → Prop
  | .base (.effect e) =>
    ∃ s ∈ steps, s.raises = false ∧ s.effect = e ∧
      ∃ seq undeclared, .started seq undeclared ∈ s.events
  | .base (.descriptor d) =>
    ∃ s ∈ steps, s.raises = false ∧ ∃ undeclared, .started (some d.seq) undeclared ∈ s.events
  | _ => False

/-- A record that is left to recovery: it came after the fork, or the fork neither rewound it nor
handed it to the branch. -/
def LeftToRecovery (steps : List ForkStep) (handed : LogRecord → Prop) (records : List LogRecord)
    (r : LogRecord) : Prop :=
  answersFor records r ∧
    (r ∈ sinceFrozen records ∨ (r ∈ untilFrozen records ∧ ¬rewound steps r ∧ ¬handed r))

/-- A clean answer of a retired fork recovers or lists every record of a kind. -/
def HidesNothing (answer : LogAnswer) (left : LogRecord → Prop) : Prop :=
  ∀ report, answer = .retired report → report.clean = true →
    ∀ r, left r → (∃ event ∈ answer.trace, event.concerns r) ∨ report.lists r

/-- Nothing is left to recovery: no record it answers for follows the first `fork-frozen`, and the
fork rewound or handed over every one before it. -/
def NothingLeft (steps : List ForkStep) (handed : LogRecord → Prop) (records : List LogRecord) :
    Prop :=
  (∀ r ∈ sinceFrozen records, ¬answersFor records r) ∧
    ∀ r ∈ untilFrozen records, answersFor records r → rewound steps r ∨ handed r

theorem nothingLeft_iff (steps : List ForkStep) (handed : LogRecord → Prop)
    (records : List LogRecord) :
    NothingLeft steps handed records ↔ ∀ r, ¬LeftToRecovery steps handed records r := by
  constructor
  · rintro ⟨hsince, huntil⟩ r ⟨howed, hr | ⟨hr, hrewound, hhanded⟩⟩
    · exact hsince r hr howed
    · exact (huntil r hr howed).elim hrewound hhanded
  · intro h
    refine ⟨fun r hr howed => h r ⟨howed, .inl hr⟩, fun r hr howed => ?_⟩
    by_contra hleft
    rw [not_or] at hleft
    exact h r ⟨howed, .inr ⟨hr, hleft⟩⟩

/-- A clean report lists no record. -/
theorem ForkRetired.not_lists {report : ForkRetired} (h : report.clean = true) (r : LogRecord) :
    ¬report.lists r := by
  have hnil : report.outstanding = [] := List.isEmpty_iff.1 h
  intro hr
  cases r with
  | base r =>
    cases r with
    | effect e =>
      have hmem : e.stepIndex ∈ report.outstanding := hr
      rw [hnil] at hmem
      exact nomatch hmem
    | _ => exact hr
  | _ => exact hr

/-- **When a clean retired fork hides nothing**: the log has no `fork-frozen`, its `fork-begin`
enumerates something, or nothing is left to recovery. -/
theorem hidesNothing_iff (w : World) (strength : Option Strength) (basis : Basis)
    (session : Option RestoredSession) (forward : Bool) (log : Log) (steps : List ForkStep)
    (handed : LogRecord → Prop) :
    HidesNothing (recoverLog w strength basis session forward log)
        (LeftToRecovery steps handed log.records) ↔
      frozenAt log.wal.records = none ∨ enumeratedAtFork log.records ≠ [] ∨
        NothingLeft steps handed log.records := by
  cases hfrozen : frozenAt log.wal.records with
  | none =>
    refine iff_of_true (fun report hreport => ?_) (.inl rfl)
    unfold recoverLog at hreport
    rw [hfrozen] at hreport
    exact nomatch hreport
  | some at_ =>
    rw [recoverLog_of_frozen hfrozen, nothingLeft_iff]
    constructor
    · intro h
      by_cases henumerated : enumeratedAtFork log.records = []
      · -- the answer is clean, and it neither did nor listed anything
        have hclean : (forkRetired log.records at_).clean = true := List.isEmpty_iff.2 henumerated
        refine .inr (.inr fun r hr => ?_)
        rcases h _ rfl hclean r hr with ⟨event, hevent, -⟩ | hlisted
        · exact nomatch hevent
        · exact ForkRetired.not_lists hclean r hlisted
      · exact .inr (.inl henumerated)
    · rintro (hnone | henumerated | hleft)
      · exact nomatch hnone
      · intro report hreport hclean
        obtain rfl := LogAnswer.retired.inj hreport
        exact absurd (List.isEmpty_iff.1 hclean) henumerated
      · intro report _ _ r hr
        exact absurd hr (hleft r)

/-! ## A crash during the fork -/

/-- No run of recovery on the log of the crash hands over an undeclared inverse that the rewind had
started, whatever the real world, as long as it takes single calls. -/
def RefiresNothing (log : Log) (steps : List ForkStep) (cut : Nat) : Prop :=
  ∀ seq, .started (some seq) true ∈ (stepBackScoped steps).take cut →
    ∀ w strength basis session forward, w.kind = .real → w.replaysDescriptors = false →
      handedOver seq (recoverLog w strength basis session forward log).trace = 0

/-- Each undeclared inverse that the rewind had started has its fence in the log of the crash, or
the log is not rolled back, or no record of the inverse is due. -/
def StartedSpent (log : Log) (steps : List ForkStep) (cut : Nat) : Prop :=
  ∀ seq, .started (some seq) true ∈ (stepBackScoped steps).take cut →
    some seq ∈ replayFencesOf log.wal.records ∨ ¬(RollsBack log.wal ∧ Issues log.wal seq)

theorem refiresNothing_iff (log : Log) (steps : List ForkStep) (cut : Nat) :
    RefiresNothing log steps cut ↔ StartedSpent log steps cut := by
  constructor
  · intro h seq hs
    rw [← recover_hands_over_iff]
    intro w strength basis hreal hbinding
    have hzero := h seq hs w strength basis none false hreal hbinding
    rwa [recoverLog_trace] at hzero
  · intro h seq hs w strength basis session forward hreal hbinding
    rw [recoverLog_trace]
    exact (recover_hands_over_iff log.wal seq).2 (h seq hs) w strength basis hreal hbinding

/-- **What a fork leaves to recovery.** A clean retired fork hides nothing exactly when the log is
not frozen, its `fork-begin` enumerates something, or nothing is left to recovery. A crash during
the rewind makes recovery hand over none of the undeclared inverses that were started exactly when
each is spent or not due; where every disposer fences, that is so for any sequence of cut runs, and
for any batch a composition binding is given. -/
theorem fork_leaves_nothing (log : Log) (steps : List ForkStep) (handed : LogRecord → Prop)
    (at_ : Option Int) (crossed wouldCross : List (Option Int)) (cut : Nat) :
    (∀ w strength basis session forward,
      HidesNothing (recoverLog w strength basis session forward log)
          (LeftToRecovery steps handed log.records) ↔
        frozenAt log.wal.records = none ∨ enumeratedAtFork log.records ≠ [] ∨
          NothingLeft steps handed log.records) ∧
    (RefiresNothing (midFork log at_ crossed wouldCross steps cut) steps cut ↔
      StartedSpent (midFork log at_ crossed wouldCross steps cut) steps cut) ∧
    ((∀ s ∈ steps, s.Fenced) →
      ∀ runs : List CutRun,
        (∀ run ∈ runs, run.world.kind = .real ∧ run.world.replaysDescriptors = false) →
        ∀ seq, .started (some seq) true ∈ (stepBackScoped steps).take cut →
          handedOver seq
              (runEvents (midFork log at_ crossed wouldCross steps cut).wal runs).flatten = 0 ∧
            ∀ env engaged resolves batch, ∀ x ∈ (replayDescriptors env engaged
                (midFork log at_ crossed wouldCross steps cut).wal.records resolves
                batch).marks.started,
              x.kind = .transactional → x.undoIdempotent = false → x.seq ≠ some seq) := by
  refine ⟨fun w strength basis session forward => ?_, ?_, fun hfenced runs hreal seq hs => ?_⟩
  · exact hidesNothing_iff w strength basis session forward log steps handed
  · exact refiresNothing_iff _ steps cut
  · exact midFork_hands_over_nothing hfenced hreal hs

/-- An undeclared transactional inverse under seq 7. -/
def removeFile : Descriptor where
  seq := 7
  entry := .transactional
  call := ⟨some "fs", some "remove", some [.str "a.txt"]⟩
  origin := ⟨some "fs", none, some "write", [.str "a.txt"], none⟩
  register := none
  undoIdempotent := false
  idempotency := none
  offsets := none

/-- The timeline's record of an effect of one component. -/
def stepRecord (seq : Int) (inverse : Inverse) : Effect where
  seq := some seq
  component := some "Orders"
  stepIndex := some 1
  kind := .other (some "effect")
  label := some "effect"
  site := none
  origin := ⟨none, none, none, [], none⟩
  boundary := ⟨.other (some "acquire"), some .outlivesProcess, none, none, none, []⟩
  inverse := inverse
  within := none

/-- The rewind's step over a file that was written. -/
def rewindWrite : ForkStep where
  kind := .effect
  scope := some ⟨false, false, ["fs"]⟩
  undone := false
  disposer := .transactional ⟨some 7, false, false, false, false, false, true⟩
  raises := false
  effect := stepRecord 8 (.closure none)

/-- A fork of the write alone, frozen. -/
def forkedWrite : Log where
  records := [.base (.descriptor removeFile), .base (.effect rewindWrite.effect),
    .forkBegin (some 0) [] [], .base (.replayFence (some 7)), .base (.forkFrozen (some 0)),
    .forkComplete (some "branch")]
  torn := false
  callers _ := []

theorem nothingLeft_forkedWrite :
    NothingLeft [rewindWrite] (fun _ => False) forkedWrite.records := by
  refine ⟨fun r hr => ?_, fun r hr howed => .inl ?_⟩
  · have hmem : r ∈ [LogRecord.forkComplete (some "branch")] := hr
    rw [List.mem_singleton.1 hmem]
    exact id
  · have hmem : r ∈ [LogRecord.base (.descriptor removeFile),
        .base (.effect rewindWrite.effect), .forkBegin (some 0) [] [],
        .base (.replayFence (some 7))] := hr
    simp only [List.mem_cons, List.not_mem_nil, or_false] at hmem
    rcases hmem with rfl | rfl | rfl | rfl
    · exact ⟨rewindWrite, List.mem_singleton_self _, rfl, true, by decide⟩
    · exact ⟨rewindWrite, List.mem_singleton_self _, rfl, rfl, some 7, true, by decide⟩
    · exact howed.elim
    · exact howed.elim

theorem fork_leaves_nothing_of_write :
    HidesNothing (recoverLog realDictWorld none .wholeProcess none false forkedWrite)
      (LeftToRecovery [rewindWrite] (fun _ => False) forkedWrite.records) ∧
    handedOver 7 (runEvents (midFork ⟨[.base (.descriptor removeFile)], false, fun _ => []⟩
      (some 0) [] [] [rewindWrite] 2).wal [uncut, uncut]).flatten = 0 := by
  have hfenced : ∀ s ∈ [rewindWrite], s.Fenced := by
    intro s hs _
    rw [List.mem_singleton.1 hs]
    exact .inr (.inr rfl)
  constructor
  · exact ((fork_leaves_nothing forkedWrite [rewindWrite] (fun _ => False) none [] [] 2).1
      realDictWorld none .wholeProcess none false).2 (.inr (.inr nothingLeft_forkedWrite))
  · exact ((fork_leaves_nothing ⟨[.base (.descriptor removeFile)], false, fun _ => []⟩
      [rewindWrite] (fun _ => False) (some 0) [] [] 2).2.2 hfenced [uncut, uncut]
      (by simp [uncut, realDictWorld, dictWorld]) 7 (by decide)).1

/-- The log of a frozen session that a later run opened again: the run took a shared handle and
crashed. -/
def reopenedAfterFork : Log where
  records := [.forkBegin (some 0) [] [], .base (.forkFrozen (some 0)),
    .forkComplete (some "branch"),
    .base (.sharedGrant ⟨"db", ⟨some "db", some "close", some [.str "db"]⟩, ["Orders"]⟩)]
  torn := false
  callers _ := []

/-- A subscription with a durable cursor: it declares no capability, so the rewind closes it. -/
def durableSubscription : ForkStep where
  kind := .effect
  scope := some Fork.noDeclaredCapabilities
  undone := false
  disposer := .durableClose
  raises := false
  effect := stepRecord 3
    (.reconstructible ⟨some "Stream", some "close", some [.str "orders"]⟩ false none)

/-- The grant is neither reclaimed nor listed, and the subscription's close, started by the rewind
without a fence, is handed over again. -/
theorem fork_leaves_grant_and_close :
    ¬HidesNothing (recoverLog realDictWorld none .wholeProcess none false reopenedAfterFork)
        (LeftToRecovery [] (fun _ => False) reopenedAfterFork.records) ∧
    ¬RefiresNothing (midFork ⟨[.base (.effect durableSubscription.effect)], false, fun _ => []⟩
      (some 0) [] [] [durableSubscription] 1) [durableSubscription] 1 := by
  constructor
  · intro h
    have hleft : LeftToRecovery [] (fun _ => False) reopenedAfterFork.records
        (.base (.sharedGrant ⟨"db", ⟨some "db", some "close", some [.str "db"]⟩, ["Orders"]⟩)) :=
      ⟨trivial, .inl (List.mem_cons_of_mem _ List.mem_cons_self)⟩
    rcases h _ rfl rfl _ hleft with ⟨event, hevent, -⟩ | hlisted
    · exact nomatch hevent
    · exact hlisted
  · intro h
    have hzero := h 3 (by decide) realDictWorld none .wholeProcess none false rfl rfl
    exact absurd hzero (by decide +kernel)

end Revl.Recovery
