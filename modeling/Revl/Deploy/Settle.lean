import Revl.Deploy.RunDeploy
import Revl.Recovery.Recover

/-!
# Settling a federation update (`deploy.py`, `_deploy_participant.py`)

The coordinator of a deploy, the processes of its participants and the settlement of the crashed
ones, one step at a time. Three records decide: the commit ledger of the coordinator, the decision
file, and the markers of each participant's own log.

- `Process`, `commitRecords`, `unwindRecords`: a participant's process and what it writes.
- `readDecision`, `settleStranded`: the settlement of one participant, by `recover`.
- `SettlesOnDecision`: what is read where a crashed participant is settled.
- `no_split_brain`: **in every run whose settlements meet it, no participant ends applied or
  rolled forward while another ends rolled back.**
-/

namespace Revl.Deploy

open Revl.Recovery

/-! ## A participant's process -/

structure SliceEffect where
  name : String
  reversible : Bool
  deriving DecidableEq, Repr

/-- What a participant is to apply, and the step its commit fails at if it does. -/
structure Slice where
  effects : List SliceEffect
  failAt : Option Nat
  refusePrepare : Option String
  deriving DecidableEq, Repr

/-- `_referent`. -/
def referent (identity : String) (e : SliceEffect) : String := identity ++ ":" ++ e.name

/-- The record `_apply_one` appends. -/
def effectRecord (identity : String) (seq : Nat) (e : SliceEffect) : WalRecord :=
  .effect
    { seq := some seq
      component := some identity
      stepIndex := none
      kind := .other none
      label := some (referent identity e)
      site := none
      origin := ⟨none, none, none, [], none⟩
      boundary := ⟨.other none, some .outlivesProcess, none, none, none, []⟩
      inverse :=
        if e.reversible then
          .reconstructible ⟨some identity, some "remove", some [.str e.name]⟩ true none
        else .closure none
      within := none }

/-- The records of `_unwind`, newest effect first. -/
def unwindRecords (applied : List SliceEffect) : List WalRecord :=
  applied.reverse.map (fun e => .other (if e.reversible then "undo" else "residue") none) ++
    [.aborted []]

/-- What a commit writes, what it leaves applied, and whether it answers `ok`. -/
structure CommitRun where
  records : List WalRecord
  applied : List SliceEffect
  ok : Bool

/-- The records of applying some effects in order. -/
def applyRecords (identity : String) (effects : List SliceEffect) : List WalRecord :=
  effects.mapIdx fun i e => effectRecord identity (i + 1) e

/-- `_Participant.commit`. -/
def Slice.commit (identity : String) (slice : Slice) : CommitRun :=
  match slice.failAt with
  | some i =>
    if i < slice.effects.length then
      -- the failure is unwound before the answer
      let applied := slice.effects.take i
      ⟨applyRecords identity applied ++ unwindRecords applied, [], false⟩
    else
      ⟨applyRecords identity slice.effects ++ [.activationComplete], slice.effects, true⟩
  | none => ⟨applyRecords identity slice.effects ++ [.activationComplete], slice.effects, true⟩

inductive Command where
  | commit (ok : Bool)
  | abort
  deriving DecidableEq, Repr

/-- A participant's process: its log, and what it has still to write for the command it serves. -/
structure Process where
  alive : Bool
  wal : List WalRecord
  walOpen : Bool
  applied : List SliceEffect
  serving : Option Command
  todo : List WalRecord

namespace Process

def start (wal : List WalRecord) : Process := ⟨true, wal, false, [], none, []⟩

/-- Takes a command. The header precedes the first record of the process. -/
def serve (p : Process) (command : Command) (records : List WalRecord)
    (applied : List SliceEffect) : Process :=
  { p with
    walOpen := true
    applied := applied
    serving := some command
    todo := (if p.walOpen then [] else [.other "header" none]) ++ records }

/-- The command is done and answered. -/
def answered (p : Process) : Process := { p with serving := none }

def crashed (p : Process) : Process := ⟨false, p.wal, false, [], none, []⟩

/-- Appends the next record. -/
def append (p : Process) (r : WalRecord) (rest : List WalRecord) : Process :=
  { p with wal := p.wal ++ [r], todo := rest }

end Process

/-! ## The decision and the settlement -/

/-- The decision records of the file, and whether its last line is torn. -/
structure DecisionFile where
  records : List Decision
  torn : Bool
  deriving DecidableEq

/-- `read_decision`: the last decision. A torn record raises. -/
def readDecision (file : DecisionFile) : Except Unit (Option Decision) :=
  if file.torn then .error () else .ok file.records.getLast?

inductive Settlement where
  | unresolved
  | settled (decision : Option Decision) (recovered : Recovered)

/-- A participant's log, read by itself. -/
def ownWal (records : List WalRecord) (torn : Bool) : Wal := ⟨records, torn, fun _ => []⟩

/-- `settle_stranded`: the log it leaves, and what it returns. -/
def settleStranded (w : World) (basis : Basis) (torn : Bool) (file : DecisionFile)
    (wal : List WalRecord) : List WalRecord × Settlement :=
  match readDecision file with
  | .error _ => (wal, .unresolved)
  | .ok (some (.approved federation generation participants)) =>
    let wal := wal ++ [.commitApproved (some federation)]
    let recovered := recover w none basis (ownWal wal false)
    (wal ++ appended recovered.trace,
      .settled (some (.approved federation generation participants)) recovered)
  | .ok decision =>
    let recovered := recover w none basis (ownWal wal torn)
    (wal ++ appended recovered.trace, .settled decision recovered)

/-- How a participant ends. -/
inductive End where
  | applied
  | rolledForward
  | rolledBack
  deriving DecidableEq, Repr

/-- The end a settlement reports, where it reports one. -/
def Settlement.end? : Settlement → Option End
  | .unresolved => none
  | .settled _ recovered =>
    match recovered.verdict with
    | some (.rolledForward _) => some .rolledForward
    | some (.window _) => some .rolledForward
    | some (.rolledBack _) => some .rolledBack
    | some (.forkRetired _) => none
    | none => none

/-! ## The system -/

/-- Where the coordinator is in `run_deploy`. -/
inductive Phase where
  | preparing (todo : List String)
  | refused
  | ready (todo : List String)
  | awaiting (participant : String) (todo : List String)
  | failed (failure : Failure)
  | aborting (todo : List String)
  | unwinding (participant : String) (todo : List String)
  | applied
  deriving DecidableEq

/-- The participants of one deploy, and what each is to apply. -/
structure Update where
  federation : Federation
  ids : List String
  distinct : ids.Nodup
  slices : String → Slice

/-- The coordinator, the processes and the decision file, with the ends reached so far. -/
structure State where
  phase : Phase
  ledger : List String
  procs : String → Process
  file : DecisionFile
  ended : List (String × End)

/-- One step of somebody. -/
inductive Step where
  /-- The coordinator takes the answer to the next PREPARE. -/
  | prepare (ok : Bool)
  /-- It sends the next COMMIT, which may not arrive. -/
  | commit (received : Bool)
  /-- It takes the answer it awaits. -/
  | heard
  /-- It gives the answer up. -/
  | lost (message : String)
  /-- Its decision record is on the way to the disk. -/
  | tear
  /-- Its decision record is durable. -/
  | decide
  /-- It sends the next ABORT, which may not arrive. -/
  | abort (received : Bool)
  /-- A participant appends its next record. -/
  | write (participant : String)
  | crash (participant : String)
  /-- `settle_stranded` over the log of a crashed participant. -/
  | settle (participant : String) (w : World) (basis : Basis) (torn : Bool)

namespace State

/-- A deploy that has sent nothing yet. The logs and the decision file are as they were left. -/
def start (u : Update) (wals : String → List WalRecord) (file : List Decision) : State where
  phase := .preparing u.ids
  ledger := []
  procs p := .start (wals p)
  file := ⟨file, false⟩
  ended := []

def setProc (s : State) (p : String) (process : Process) : State :=
  { s with procs := Function.update s.procs p process }

/-- The reason a participant gives for a commit that failed. -/
def localFailure (u : Update) (p : String) : Failure :=
  let slice := u.slices p
  let index := slice.failAt.getD 0
  ⟨p, some (p ++ ": applying '" ++ ((slice.effects.map SliceEffect.name)[index]?).getD "" ++
    "' failed at step " ++ toString index)⟩

/-- What taking an answer does, where there is one to take. -/
def heard (u : Update) (s : State) : Option State :=
  match s.phase with
  | .awaiting p todo =>
    let process := s.procs p
    if process.alive && process.todo.isEmpty then
      match process.serving with
      | some (.commit true) =>
        some { s.setProc p process.answered with phase := .ready todo, ledger := s.ledger ++ [p] }
      | some (.commit false) =>
        some { s.setProc p process.answered with phase := .failed (localFailure u p) }
      | _ => none
    else none
  | .unwinding p todo =>
    let process := s.procs p
    if process.alive && process.todo.isEmpty && process.serving = some .abort then
      some { s.setProc p process.answered with phase := .aborting todo }
    else none
  | _ => none

/-- What giving an answer up does. -/
def lost (s : State) (message : String) : Option State :=
  match s.phase with
  | .awaiting p _ =>
    some { s with phase := .failed ⟨p, some ("unreachable during COMMIT: " ++ message)⟩ }
  | .unwinding _ todo => some { s with phase := .aborting todo }
  | _ => none

/-- What the durable decision does. -/
def decision (u : Update) (s : State) : Option State :=
  match s.phase with
  | .ready [] =>
    some { s with
      phase := .applied
      file := ⟨s.file.records ++ [.approved u.federation.id u.federation.generation
        (u.ids.mergeSort (· ≤ ·))], false⟩
      ended := s.ended ++ s.ledger.map fun p => (p, .applied) }
  | .failed failure =>
    some { s with
      phase := .aborting s.ledger.reverse
      file := ⟨s.file.records ++ [.aborted u.federation.id u.federation.generation failure.reason
        failure.identity], false⟩ }
  | _ => none

/-- What a settlement does. -/
def settle (s : State) (p : String) (w : World) (basis : Basis) (torn : Bool) : State :=
  let (wal, settlement) := settleStranded w basis torn s.file (s.procs p).wal
  { s.setProc p { s.procs p with wal := wal } with
    ended := s.ended ++ settlement.end?.toList.map fun e => (p, e) }

/-- One step, where it can be made. -/
def step (u : Update) (s : State) : Step → Option State
  | .prepare ok =>
    match s.phase with
    | .preparing (p :: todo) =>
      if ok then
        if (s.procs p).alive && (u.slices p).refusePrepare.isNone then
          some { s with phase := .preparing todo }
        else none
      else some { s with phase := .refused }
    | .preparing [] => some { s with phase := .ready u.ids }
    | _ => none
  | .commit received =>
    match s.phase with
    | .ready (p :: todo) =>
      if received then
        if (s.procs p).alive then
          let run := (u.slices p).commit p
          some { s.setProc p ((s.procs p).serve (.commit run.ok) run.records run.applied) with
            phase := .awaiting p todo }
        else none
      else some { s with phase := .awaiting p todo }
    | _ => none
  | .heard => s.heard u
  | .lost message => s.lost message
  | .tear =>
    match s.phase with
    | .ready [] => some { s with file := { s.file with torn := true } }
    | .failed _ => some { s with file := { s.file with torn := true } }
    | _ => none
  | .decide => s.decision u
  | .abort received =>
    match s.phase with
    | .aborting (p :: todo) =>
      if received then
        if (s.procs p).alive then
          some { s.setProc p ((s.procs p).serve .abort (unwindRecords (s.procs p).applied) []) with
            phase := .unwinding p todo }
        else none
      else some { s with phase := .unwinding p todo }
    | _ => none
  | .write p =>
    if (s.procs p).alive then
      match (s.procs p).todo with
      | r :: rest =>
        -- the last record of an unwind
        some { s.setProc p ((s.procs p).append r rest) with
          ended := s.ended ++ if isAborted r then [(p, .rolledBack)] else [] }
      | [] => none
    else none
  | .crash p => if (s.procs p).alive then some (s.setProc p (s.procs p).crashed) else none
  | .settle p w basis torn =>
    if p ∈ u.ids ∧ (s.procs p).alive = false then some (s.settle p w basis torn) else none

end State

/-- The states the steps reach, each step allowed. -/
inductive Reached (allowed : State → Step → Bool) (u : Update) : State → Prop where
  | start (wals : String → List WalRecord) (file : List Decision) :
      Reached allowed u (.start u wals file)
  | step {s s' : State} (a : Step) : Reached allowed u s → allowed s a = true →
      s.step u a = some s' → Reached allowed u s'

/-- The condition: a settlement that reads an approval reads the approval of this deploy, and any
other runs over a log that carries neither marker. -/
def settlesOnDecision (s : State) : Step → Bool
  | .settle p _ _ _ =>
    match readDecision s.file with
    | .error _ => true
    | .ok (some (.approved _ _ _)) => s.phase == .applied
    | .ok _ =>
      !(s.procs p).wal.any isActivationComplete && !(s.procs p).wal.any isCommitApproved
  | _ => true

/-- The abort is on record. -/
def Phase.decidedAbort : Phase → Bool
  | .aborting _ => true
  | .unwinding _ _ => true
  | _ => false

/-- The outcomes agree. -/
structure NoSplitBrain (s : State) : Prop where
  agree : ∀ p q e, (p, e) ∈ s.ended → e ≠ .rolledBack → (q, .rolledBack) ∉ s.ended
  aborted : s.phase.decidedAbort = true → ∀ p, (p, .rolledForward) ∉ s.ended
  approved : s.phase = .applied → ∀ p, (p, .rolledBack) ∉ s.ended

/-! ## What a settlement reports -/

theorem verdict_withShared (w : World) (basis : Basis) (records : List WalRecord)
    (trace : List Event) (verdict : Recovery.Verdict) :
    (withShared w basis records trace verdict).verdict = some verdict := rfl

/-- A roll-forward keys off a marker of the log, and a roll-back finds neither. -/
theorem marked_of_end {w : World} {basis : Basis} {wal : Wal} {decision : Option Decision}
    {how : End}
    (h : (Settlement.settled decision (recover w none basis wal)).end? = some how) :
    (how = .rolledForward → wal.complete = true ∨ wal.records.any isCommitApproved = true) ∧
      (how = .rolledBack →
        wal.complete = false ∧ wal.records.any isCommitApproved = false) := by
  unfold Settlement.end? recover at h
  cases hfrozen : frozenAt wal.records with
  | some at_ =>
    simp only [hfrozen] at h
    cases h
  | none =>
    by_cases hcomplete : wal.complete = true
    · simp [hfrozen, hcomplete, verdict_withShared] at h
      simp [hcomplete, ← h]
    by_cases happroved : wal.records.any isCommitApproved = true
    · simp [hfrozen, hcomplete, happroved, verdict_withShared] at h
      simp [happroved, ← h]
    refine ⟨?_, fun _ =>
      ⟨Bool.eq_false_iff.mpr hcomplete, Bool.eq_false_iff.mpr happroved⟩⟩
    rintro rfl
    simp only [hfrozen, hcomplete, happroved] at h
    cases hback : rollBack w true wal with
    | raised e s =>
      simp [hback] at h
    | ok s =>
      simp [hback, verdict_withShared] at h

/-- **What an allowed settlement does**: the log only grows; a roll-forward follows this deploy's
approval, and a roll-back runs over a log that is not complete. -/
theorem settled_cases {s : State} {p : String} {w : World} {basis : Basis} {torn : Bool}
    (hallowed : settlesOnDecision s (.settle p w basis torn) = true) :
    ∃ extra settlement, settleStranded w basis torn s.file (s.procs p).wal =
        ((s.procs p).wal ++ extra, settlement) ∧
      (settlement.end? = some .rolledForward → s.phase = .applied) ∧
      (settlement.end? = some .rolledBack → .activationComplete ∉ (s.procs p).wal) ∧
      settlement.end? ≠ some .applied := by
  have hend : ∀ d r, (Settlement.settled d r).end? ≠ some .applied := by
    intro d r
    unfold Settlement.end?
    rcases r with ⟨-, _ | ⟨_ | _ | _ | _⟩, -⟩ <;> simp
  -- a log without a marker is rolled back, where recovery reports anything
  have hunmarked : (!(s.procs p).wal.any isActivationComplete &&
      !(s.procs p).wal.any isCommitApproved) = true → ∀ d r,
      r = recover w none basis (ownWal (s.procs p).wal torn) →
        (Settlement.settled d r).end? ≠ some .rolledForward ∧
          .activationComplete ∉ (s.procs p).wal := by
    intro hnone d r hr
    obtain ⟨hincomplete, hunapproved⟩ := Bool.and_eq_true _ _ ▸ hnone
    constructor
    · intro hforward
      rw [hr] at hforward
      rcases (marked_of_end hforward).1 rfl with h | h
      · exact Bool.false_ne_true ((Bool.not_eq_true' _ ▸ hincomplete).symm.trans h)
      · exact Bool.false_ne_true ((Bool.not_eq_true' _ ▸ hunapproved).symm.trans h)
    · intro hmem
      have hany : (s.procs p).wal.any isActivationComplete = true :=
        List.any_eq_true.mpr ⟨_, hmem, rfl⟩
      rw [hany] at hincomplete
      cases hincomplete
  unfold settlesOnDecision at hallowed
  unfold settleStranded
  cases hread : readDecision s.file with
  | error e => exact ⟨[], .unresolved, by rw [List.append_nil], nofun, nofun, nofun⟩
  | ok decision =>
    rw [hread] at hallowed
    match decision, hallowed with
    | some (.approved federation generation participants), hallowed =>
      refine ⟨[.commitApproved (some federation)] ++ _, _,
        congrArg₂ Prod.mk (List.append_assoc ..) rfl, ?_, ?_, hend _ _⟩
      · exact fun _ => beq_iff_eq.mp hallowed
      · -- the marker that was just appended rules a roll-back out
        intro hback
        have hmarked := ((marked_of_end hback).2 rfl).2
        simp [ownWal, isCommitApproved] at hmarked
    | some (.aborted _ _ _ _), hallowed =>
      obtain ⟨hforward, hback⟩ := hunmarked hallowed _ _ rfl
      exact ⟨_, _, rfl, fun h => absurd h hforward, fun _ => hback, hend _ _⟩
    | none, hallowed =>
      obtain ⟨hforward, hback⟩ := hunmarked hallowed _ _ rfl
      exact ⟨_, _, rfl, fun h => absurd h hforward, fun _ => hback, hend _ _⟩

/-! ## What a participant writes -/

theorem not_aborted_of_apply {identity : String} {effects : List SliceEffect} {r : WalRecord}
    (h : r ∈ applyRecords identity effects) : isAborted r = false := by
  unfold applyRecords at h
  obtain ⟨i, hi, rfl⟩ := List.mem_mapIdx.mp h
  rfl

/-- A commit that answers `ok` completes its log, and unwinds nothing. -/
theorem commit_spec (identity : String) (slice : Slice) :
    ((slice.commit identity).ok = true →
        .activationComplete ∈ (slice.commit identity).records) ∧
      ∀ r ∈ (slice.commit identity).records, isAborted r = true →
        (slice.commit identity).ok = false := by
  have hwhole : ∀ r ∈ applyRecords identity slice.effects ++ [.activationComplete],
      isAborted r = false := by
    intro r hr
    rcases List.mem_append.mp hr with hr | hr
    · exact not_aborted_of_apply hr
    · rw [List.mem_singleton.mp hr]
      rfl
  have hdone : .activationComplete ∈
      applyRecords identity slice.effects ++ [WalRecord.activationComplete] :=
    List.mem_append_right _ (List.mem_singleton.mpr rfl)
  unfold Slice.commit
  cases slice.failAt with
  | none => exact ⟨fun _ => hdone, fun r hr h => absurd h (by rw [hwhole r hr]; decide)⟩
  | some i =>
    dsimp only
    split
    · exact ⟨fun h => (nomatch h), fun _ _ _ => rfl⟩
    · exact ⟨fun _ => hdone, fun r hr h => absurd h (by rw [hwhole r hr]; decide)⟩

/-! ## One step -/

namespace Phase

/-- No approval can follow. -/
def lost : Phase → Bool
  | .refused => true
  | .failed _ => true
  | .aborting _ => true
  | .unwinding _ _ => true
  | _ => false

/-- Who is still to be sent COMMIT. -/
def pending (ids : List String) : Phase → List String
  | .preparing _ => ids
  | .ready todo => todo
  | .awaiting _ todo => todo
  | _ => []

/-- Who is still to be sent ABORT, or to answer it. -/
def unwound : Phase → List String
  | .aborting todo => todo
  | .unwinding p todo => p :: todo
  | _ => []

/-- How the ledger divides the participants. -/
def Divides (ids ledger : List String) : Phase → Prop
  | .preparing _ => ledger = []
  | .ready todo => ids = ledger ++ todo
  | .awaiting p todo => ids = ledger ++ p :: todo
  | .applied => ids = ledger
  | _ => True

end Phase

variable {u : Update} {φ φ' : Phase} {ledger : List String} {procs : String → Process}
  {ended : List (String × End)} {s s' : State}

/-- What a process keeps, where the coordinator is. -/
structure Served (u : Update) (φ : Phase) (p : String) (process : Process) : Prop where
  mine : process.serving ≠ none → p ∈ u.ids
  commit : ∀ ok, process.serving = some (.commit ok) →
    (∃ rest, φ = .awaiting p rest) ∨ φ.lost = true
  abort : process.serving = some .abort → φ.lost = true
  completing : process.serving = some (.commit true) →
    .activationComplete ∈ process.wal ++ process.todo
  unwinding : ∀ r ∈ process.todo, isAborted r = true →
    process.serving = some (.commit false) ∨ process.serving = some .abort

/-- A participant that approves nothing any more. -/
def Out (u : Update) (φ : Phase) (ledger : List String) (q : String) (process : Process) : Prop :=
  φ.lost = true ∨ (q ∉ ledger ∧ (process.alive = true →
    q ∉ φ.pending u.ids ∧ process.serving ≠ some (.commit true)))

/-- What a step keeps. -/
structure Kept (u : Update) (φ : Phase) (ledger : List String) (procs : String → Process)
    (ended : List (String × End)) : Prop where
  divides : φ.Divides u.ids ledger
  listed : ∀ p ∈ ledger, p ∈ u.ids
  unwound : ∀ p ∈ φ.unwound, p ∈ u.ids
  committed : ∀ p ∈ ledger, .activationComplete ∈ (procs p).wal
  served : ∀ p, Served u φ p (procs p)
  forward : ∀ p e, (p, e) ∈ ended → e ≠ .rolledBack → φ = .applied
  back : ∀ q, (q, .rolledBack) ∈ ended → q ∈ u.ids ∧ Out u φ ledger q (procs q)

/-- The process of a participant nobody waits for, where the coordinator goes on. -/
theorem Served.moves {p : String} {process : Process} (h : Served u φ p process)
    (hlost : φ.lost = true → φ'.lost = true)
    (hawait : ∀ rest, φ = .awaiting p rest → (∃ rest', φ' = .awaiting p rest') ∨ φ'.lost = true) :
    Served u φ' p process where
  mine := h.mine
  commit ok hserving := by
    rcases h.commit ok hserving with ⟨rest, hφ⟩ | hφ
    · exact hawait rest hφ
    · exact Or.inr (hlost hφ)
  abort hserving := hlost (h.abort hserving)
  completing := h.completing
  unwinding := h.unwinding

/-- The process of a participant whose command is done. -/
theorem served_answered {p : String} {process : Process} (htodo : process.todo = [])
    (φ : Phase) : Served u φ p process.answered where
  mine hserving := absurd rfl hserving
  commit _ hserving := nomatch hserving
  abort hserving := nomatch hserving
  completing hserving := nomatch hserving
  unwinding r hr := by
    rw [show process.answered.todo = process.todo from rfl, htodo] at hr
    cases hr

theorem served_crashed (u : Update) (φ : Phase) (p : String) (process : Process) :
    Served u φ p process.crashed where
  mine hserving := absurd rfl hserving
  commit _ hserving := nomatch hserving
  abort hserving := nomatch hserving
  completing hserving := nomatch hserving
  unwinding _ hr := nomatch hr

/-- What a command of the coordinator writes. -/
theorem served_serve {p : String} {process : Process} {command : Command}
    {records : List WalRecord} {applied : List SliceEffect} (hp : p ∈ u.ids)
    (hcommit : ∀ ok, command = .commit ok → (∃ rest, φ = .awaiting p rest) ∨ φ.lost = true)
    (habort : command = .abort → φ.lost = true)
    (hcompleting : command = .commit true → .activationComplete ∈ records)
    (hunwinding : ∀ r ∈ records, isAborted r = true →
      command = .commit false ∨ command = .abort) :
    Served u φ p (process.serve command records applied) where
  mine _ := hp
  commit ok hserving := hcommit ok (Option.some.inj hserving)
  abort hserving := habort (Option.some.inj hserving)
  completing hserving :=
    List.mem_append_right _ (List.mem_append_right _ (hcompleting (Option.some.inj hserving)))
  unwinding r hr haborted := by
    rcases List.mem_append.mp hr with hr | hr
    · -- the header is no `aborted` record
      split at hr
      · cases hr
      · rw [List.mem_singleton.mp hr] at haborted
        cases haborted
    · rcases hunwinding r hr haborted with h | h
      · exact Or.inl (congrArg some h)
      · exact Or.inr (congrArg some h)

/-- The deploy is lost: nothing more is asked of the ledger than that its logs are complete. -/
theorem Kept.loses (hs : Kept u φ ledger procs ended) (hlost : φ'.lost = true)
    (hφ : φ ≠ .applied) (hunwound : ∀ p ∈ φ'.unwound, p ∈ u.ids) :
    Kept u φ' ledger procs ended where
  divides := by
    cases φ' with
    | refused => trivial
    | failed _ => trivial
    | aborting _ => trivial
    | unwinding _ _ => trivial
    | preparing _ => cases hlost
    | ready _ => cases hlost
    | awaiting _ _ => cases hlost
    | applied => cases hlost
  listed := hs.listed
  unwound := hunwound
  committed := hs.committed
  -- whatever a process still does, a lost deploy allows
  served p := (hs.served p).moves (fun _ => hlost) (fun _ _ => Or.inr hlost)
  forward p e hmem hne := absurd (hs.forward p e hmem hne) hφ
  back q hmem := ⟨(hs.back q hmem).1, Or.inl hlost⟩

/-- One process changes, and its log only grows. -/
theorem Kept.setProc (hs : Kept u φ ledger procs ended) {p : String} {process : Process}
    (hserved : Served u φ p process) (hwal : (procs p).wal ⊆ process.wal)
    (halive : process.alive = true → (procs p).alive = true)
    (hserving : process.serving = some (.commit true) →
      (procs p).serving = some (.commit true)) :
    Kept u φ ledger (Function.update procs p process) ended where
  divides := hs.divides
  listed := hs.listed
  unwound := hs.unwound
  committed q hq := by
    by_cases hqp : q = p
    · subst hqp
      rw [Function.update_self]
      exact hwal (hs.committed q hq)
    · rw [Function.update_of_ne hqp]
      exact hs.committed q hq
  served q := by
    by_cases hqp : q = p
    · subst hqp
      rw [Function.update_self]
      exact hserved
    · rw [Function.update_of_ne hqp]
      exact hs.served q
  forward := hs.forward
  back q hmem := by
    obtain ⟨hq, hout⟩ := hs.back q hmem
    refine ⟨hq, ?_⟩
    by_cases hqp : q = p
    · subst hqp
      rw [Function.update_self]
      rcases hout with hlost | ⟨hledger, hasked⟩
      · exact Or.inl hlost
      · refine Or.inr ⟨hledger, fun h => ⟨(hasked (halive h)).1, fun hcommit => ?_⟩⟩
        exact (hasked (halive h)).2 (hserving hcommit)
    · rw [Function.update_of_ne hqp]
      exact hout

theorem Kept.prepare (hs : Kept u s.phase s.ledger s.procs s.ended) {ok : Bool}
    (h : s.step u (.prepare ok) = some s') : Kept u s'.phase s'.ledger s'.procs s'.ended := by
  unfold State.step at h
  dsimp only at h
  -- nothing was asked of anybody yet
  have hmoves : ∀ {todo : List String} {φ' : Phase}, s.phase = .preparing todo →
      φ'.Divides u.ids s.ledger → φ'.pending u.ids = u.ids → φ'.unwound = [] →
        Kept u φ' s.ledger s.procs s.ended := by
    intro todo φ' hφ hdivides hpending hunwound
    refine ⟨hdivides, hs.listed, fun p hp => ?_, hs.committed, fun p => ?_, ?_, ?_⟩
    · rw [hunwound] at hp
      cases hp
    · refine (hs.served p).moves (fun hlost => ?_) (fun rest hrest => ?_)
      · rw [hφ] at hlost
        cases hlost
      · rw [hφ] at hrest
        cases hrest
    · intro p e hmem hne
      have := hs.forward p e hmem hne
      rw [hφ] at this
      cases this
    · intro q hmem
      obtain ⟨hq, hlost | ⟨hledger, hasked⟩⟩ := hs.back q hmem
      · rw [hφ] at hlost
        cases hlost
      · rw [hφ] at hasked
        refine ⟨hq, Or.inr ⟨hledger, fun halive => ?_⟩⟩
        rw [hpending]
        exact hasked halive
  have hdiv := hs.divides
  split at h
  · rename_i p todo hφ
    rw [hφ] at hdiv
    split at h
    · split at h
      · cases h
        exact hmoves hφ hdiv rfl rfl
      · cases h
    · cases h
      exact hs.loses rfl (by rw [hφ]; nofun) (fun p hp => nomatch hp)
  · rename_i hφ
    rw [hφ] at hdiv
    cases h
    exact hmoves hφ (by rw [show s.ledger = [] from hdiv]; rfl) rfl rfl
  · cases h

/-- The coordinator goes on from one participant to the others, and has lost nothing yet. -/
theorem Kept.goesOn (hs : Kept u φ ledger procs ended) (hφ : φ ≠ .applied)
    (hnot : φ.lost = false) {p : String} {process : Process} {ledger' : List String}
    (hdivides : φ'.Divides u.ids ledger') (hunwound : φ'.unwound = [])
    (hlisted : ∀ q ∈ ledger', q ∈ ledger ∨ (q = p ∧ q ∈ u.ids ∧
      .activationComplete ∈ process.wal))
    (hwal : (procs p).wal ⊆ process.wal) (hserved : Served u φ' p process)
    (hothers : ∀ q ≠ p, Served u φ' q (procs q))
    (hback : ∀ q ∈ u.ids, q ∉ ledger → ((procs q).alive = true →
      q ∉ φ.pending u.ids ∧ (procs q).serving ≠ some (.commit true)) →
        Out u φ' ledger' q (Function.update procs p process q)) :
    Kept u φ' ledger' (Function.update procs p process) ended where
  divides := hdivides
  listed q hq := by
    rcases hlisted q hq with h | ⟨-, h, -⟩
    · exact hs.listed q h
    · exact h
  unwound q hq := by
    rw [hunwound] at hq
    cases hq
  committed q hq := by
    by_cases hqp : q = p
    · subst hqp
      rw [Function.update_self]
      rcases hlisted q hq with h | ⟨-, -, h⟩
      · exact hwal (hs.committed q h)
      · exact h
    · rw [Function.update_of_ne hqp]
      -- only the participant that answered can be new in the ledger
      rcases hlisted q hq with h | ⟨h, -⟩
      · exact hs.committed q h
      · exact absurd h hqp
  served q := by
    by_cases hqp : q = p
    · subst hqp
      rw [Function.update_self]
      exact hserved
    · rw [Function.update_of_ne hqp]
      exact hothers q hqp
  forward q e hmem hne := absurd (hs.forward q e hmem hne) hφ
  back q hmem := by
    obtain ⟨hq, hlost | ⟨hledger, hasked⟩⟩ := hs.back q hmem
    · rw [hnot] at hlost
      cases hlost
    · exact ⟨hq, hback q hq hledger hasked⟩

theorem Kept.commit (hs : Kept u s.phase s.ledger s.procs s.ended) {received : Bool}
    (h : s.step u (.commit received) = some s') :
    Kept u s'.phase s'.ledger s'.procs s'.ended := by
  unfold State.step at h
  dsimp only at h
  split at h
  swap
  · cases h
  rename_i p todo hφ
  have hdiv : u.ids = s.ledger ++ p :: todo := by
    have := hs.divides
    rw [hφ] at this
    exact this
  have hp : p ∈ u.ids := by
    rw [hdiv]
    exact List.mem_append_right _ List.mem_cons_self
  have hne : s.phase ≠ .applied := by
    rw [hφ]
    nofun
  have hnot : s.phase.lost = false := by
    rw [hφ]
    rfl
  have hmoves : ∀ q, Served u (.awaiting p todo) q (s.procs q) := by
    intro q
    refine (hs.served q).moves (fun hlost => ?_) (fun rest hrest => ?_)
    · rw [hnot] at hlost
      cases hlost
    · rw [hφ] at hrest
      cases hrest
  have hpending : ∀ q, q ∉ s.phase.pending u.ids → q ≠ p ∧ q ∉ todo := by
    intro q hq
    rw [hφ] at hq
    exact ⟨fun heq => hq (heq ▸ List.mem_cons_self), fun hmem => hq (List.mem_cons_of_mem _ hmem)⟩
  split at h
  · split at h
    swap
    · cases h
    rename_i halive
    cases h
    refine hs.goesOn hne hnot hdiv rfl (fun q hq => Or.inl hq) (fun _ h => h) ?_
      (fun q _ => hmoves q) ?_
    · obtain ⟨hcomplete, hunwinding⟩ := commit_spec p (u.slices p)
      refine served_serve hp (fun _ _ => Or.inl ⟨todo, rfl⟩) (fun h => nomatch h) (fun hok => ?_)
        (fun r hr haborted => ?_)
      · exact hcomplete (Command.commit.inj hok)
      · exact Or.inl (congrArg Command.commit (hunwinding r hr haborted))
    · intro q _ hledger hasked
      refine Or.inr ⟨hledger, fun hlive => ?_⟩
      by_cases hqp : q = p
      · -- it was alive and had still to be asked
        subst hqp
        exact absurd rfl (hpending q (hasked halive).1).1
      · rw [Function.update_of_ne hqp] at hlive ⊢
        exact ⟨(hpending q (hasked hlive).1).2, (hasked hlive).2⟩
  · cases h
    rw [← Function.update_eq_self p s.procs]
    refine hs.goesOn hne hnot hdiv rfl (fun q hq => Or.inl hq) (fun _ h => h) (hmoves p)
      (fun q _ => hmoves q) ?_
    intro q _ hledger hasked
    rw [Function.update_eq_self]
    exact Or.inr ⟨hledger, fun hlive => ⟨(hpending q (hasked hlive).1).2, (hasked hlive).2⟩⟩

theorem Kept.heard (hs : Kept u s.phase s.ledger s.procs s.ended) (h : s.heard u = some s') :
    Kept u s'.phase s'.ledger s'.procs s'.ended := by
  unfold State.heard at h
  split at h
  · rename_i p todo hφ
    have hdiv : u.ids = s.ledger ++ p :: todo := by
      have := hs.divides
      rw [hφ] at this
      exact this
    have hp : p ∈ u.ids := by
      rw [hdiv]
      exact List.mem_append_right _ List.mem_cons_self
    have hne : s.phase ≠ .applied := by
      rw [hφ]
      nofun
    have hnot : s.phase.lost = false := by
      rw [hφ]
      rfl
    dsimp only at h
    split at h
    swap
    · cases h
    rename_i hidle
    obtain ⟨halive, htodo⟩ := Bool.and_eq_true _ _ ▸ hidle
    have htodo : (s.procs p).todo = [] := List.isEmpty_iff.mp htodo
    split at h
    · -- a receipt: the participant joins the ledger
      rename_i hserving
      cases h
      refine hs.goesOn (p := p) hne hnot (hdiv.trans (List.append_cons ..)) rfl ?_
        (fun _ h => h) (served_answered htodo _) (fun q hqp => ?_) ?_
      · intro q hq
        rcases List.mem_append.mp hq with hq | hq
        · exact Or.inl hq
        · have hcomplete := (hs.served p).completing hserving
          rw [htodo, List.append_nil] at hcomplete
          obtain rfl := List.mem_singleton.mp hq
          exact Or.inr ⟨rfl, hp, hcomplete⟩
      · refine (hs.served q).moves (fun hlost => ?_) (fun rest hrest => ?_)
        · rw [hnot] at hlost
          cases hlost
        · rw [hφ] at hrest
          exact absurd (Phase.awaiting.inj hrest).1.symm hqp
      · intro q _ hledger hasked
        by_cases hqp : q = p
        · subst hqp
          exact absurd hserving (hasked halive).2
        · refine Or.inr ⟨?_, fun hlive => ?_⟩
          · rw [List.mem_append, not_or]
            exact ⟨hledger, fun hmem => hqp (List.mem_singleton.mp hmem)⟩
          · rw [Function.update_of_ne hqp] at hlive ⊢
            rw [hφ] at hasked
            exact hasked hlive
    · -- its commit failed
      rename_i hserving
      cases h
      refine Kept.loses (hs.setProc (served_answered htodo _) (fun _ h => h) (fun h => h) ?_) rfl
        hne (fun q hq => nomatch hq)
      exact fun h => nomatch h
    · cases h
  · rename_i p todo hφ
    have hne : s.phase ≠ .applied := by
      rw [hφ]
      nofun
    dsimp only at h
    split at h
    swap
    · cases h
    rename_i hidle
    obtain ⟨hidle, -⟩ := Bool.and_eq_true _ _ ▸ hidle
    obtain ⟨-, htodo⟩ := Bool.and_eq_true _ _ ▸ hidle
    cases h
    refine Kept.loses (hs.setProc (served_answered (List.isEmpty_iff.mp htodo) _) (fun _ h => h)
      (fun h => h) (fun h => nomatch h)) rfl hne (fun q hq => hs.unwound q ?_)
    rw [hφ]
    exact List.mem_cons_of_mem _ hq
  · cases h

theorem Kept.lost (hs : Kept u s.phase s.ledger s.procs s.ended) {message : String}
    (h : s.lost message = some s') : Kept u s'.phase s'.ledger s'.procs s'.ended := by
  unfold State.lost at h
  split at h
  · rename_i p todo hφ
    cases h
    exact hs.loses rfl (by rw [hφ]; nofun) (fun q hq => nomatch hq)
  · rename_i p todo hφ
    cases h
    refine hs.loses rfl (by rw [hφ]; nofun) (fun q hq => hs.unwound q ?_)
    rw [hφ]
    exact List.mem_cons_of_mem _ hq
  · cases h

/-- **The approval is recorded where every participant is in the ledger.** -/
theorem Kept.decision (hs : Kept u s.phase s.ledger s.procs s.ended) (h : s.decision u = some s') :
    Kept u s'.phase s'.ledger s'.procs s'.ended := by
  unfold State.decision at h
  split at h
  · rename_i hφ
    have hdiv : u.ids = s.ledger ++ [] := by
      have := hs.divides
      rw [hφ] at this
      exact this
    rw [List.append_nil] at hdiv
    cases h
    refine ⟨hdiv, hs.listed, fun p hp => (nomatch hp), hs.committed, fun p => ?_,
      fun _ _ _ _ => rfl, fun q hmem => ?_⟩
    · refine (hs.served p).moves (fun hlost => ?_) (fun rest hrest => ?_)
      · rw [hφ] at hlost
        cases hlost
      · rw [hφ] at hrest
        cases hrest
    · -- whoever was rolled back is not in the ledger
      rcases List.mem_append.mp hmem with hmem | hmem
      · obtain ⟨hq, hlost | ⟨hledger, -⟩⟩ := hs.back q hmem
        · rw [hφ] at hlost
          cases hlost
        · exact absurd (hdiv ▸ hq) hledger
      · obtain ⟨p, -, hp⟩ := List.mem_map.mp hmem
        cases (Prod.mk.inj hp).2
  · rename_i failure hφ
    cases h
    refine hs.loses rfl (by rw [hφ]; nofun) (fun p hp => hs.listed p ?_)
    exact List.mem_reverse.mp hp
  · cases h

theorem Kept.abort (hs : Kept u s.phase s.ledger s.procs s.ended) {received : Bool}
    (h : s.step u (.abort received) = some s') :
    Kept u s'.phase s'.ledger s'.procs s'.ended := by
  unfold State.step at h
  dsimp only at h
  split at h
  swap
  · cases h
  rename_i p todo hφ
  have hne : s.phase ≠ .applied := by
    rw [hφ]
    nofun
  have hlost : s.phase.lost = true := by
    rw [hφ]
    rfl
  have hunwound : ∀ q ∈ p :: todo, q ∈ u.ids := by
    have := hs.unwound
    rw [hφ] at this
    exact this
  split at h
  · split at h
    swap
    · cases h
    cases h
    -- an unwind is asked for in a deploy that is lost already
    refine Kept.loses (hs.setProc ?_ (fun _ h => h) (fun h => h) (fun h => nomatch h)) rfl hne
      hunwound
    exact served_serve (hunwound p List.mem_cons_self) (fun _ h => nomatch h) (fun _ => hlost)
      (fun h => nomatch h) (fun _ _ _ => Or.inr rfl)
  · cases h
    exact hs.loses rfl hne hunwound

/-- A participant that appends the last record of an unwind is out. -/
theorem Kept.write (hs : Kept u s.phase s.ledger s.procs s.ended) {p : String}
    (h : s.step u (.write p) = some s') : Kept u s'.phase s'.ledger s'.procs s'.ended := by
  unfold State.step at h
  dsimp only at h
  split at h
  swap
  · cases h
  rename_i halive
  split at h
  swap
  · cases h
  rename_i r rest htodo
  cases h
  have hserved := hs.served p
  have hset : Kept u s.phase s.ledger (Function.update s.procs p ((s.procs p).append r rest))
      s.ended := by
    refine hs.setProc ⟨hserved.mine, hserved.commit, hserved.abort, fun hserving => ?_,
      fun r' hr' => ?_⟩ (List.subset_append_left _ _) (fun h => h) (fun h => h)
    · have hcomplete := hserved.completing hserving
      rw [htodo] at hcomplete
      show _ ∈ ((s.procs p).wal ++ [r]) ++ rest
      rw [List.append_assoc]
      exact hcomplete
    · exact hserved.unwinding r' (htodo ▸ List.mem_cons_of_mem _ hr')
  by_cases haborted : isAborted r = true
  swap
  · rw [if_neg haborted, List.append_nil]
    exact hset
  rw [if_pos haborted]
  have hserving := hserved.unwinding r (htodo ▸ List.mem_cons_self) haborted
  have hmine : p ∈ u.ids := by
    refine hserved.mine fun hnone => ?_
    rw [hnone] at hserving
    rcases hserving with h | h
    · cases h
    · cases h
  -- the coordinator waits for this very participant, or has lost the deploy
  have hphase : (∃ todo, s.phase = .awaiting p todo ∧ (s.procs p).serving = some (.commit false)) ∨
      s.phase.lost = true := by
    rcases hserving with hserving | hserving
    · rcases hserved.commit false hserving with ⟨todo, hφ⟩ | hlost
      · exact Or.inl ⟨todo, hφ, hserving⟩
      · exact Or.inr hlost
    · exact Or.inr (hserved.abort hserving)
  have hout : Out u s.phase s.ledger p ((s.procs p).append r rest) := by
    rcases hphase with ⟨todo, hφ, hfalse⟩ | hlost
    · have hdiv := hs.divides
      rw [hφ] at hdiv
      have hnodup : (s.ledger ++ p :: todo).Nodup := hdiv ▸ u.distinct
      obtain ⟨-, hcons, hdisjoint⟩ := List.nodup_append'.mp hnodup
      refine Or.inr ⟨fun hledger => hdisjoint hledger List.mem_cons_self, fun _ => ⟨?_, ?_⟩⟩
      · rw [hφ]
        exact (List.nodup_cons.mp hcons).1
      · show (s.procs p).serving ≠ _
        rw [hfalse]
        nofun
    · exact Or.inl hlost
  refine ⟨hset.divides, hset.listed, hset.unwound, hset.committed, hset.served, ?_, ?_⟩
  · intro q e hmem hne
    rcases List.mem_append.mp hmem with hmem | hmem
    · exact hset.forward q e hmem hne
    · rw [List.mem_singleton, Prod.mk.injEq] at hmem
      exact absurd hmem.2 hne
  · intro q hmem
    rcases List.mem_append.mp hmem with hmem | hmem
    · exact hset.back q hmem
    · rw [List.mem_singleton, Prod.mk.injEq] at hmem
      obtain ⟨rfl, -⟩ := hmem
      refine ⟨hmine, ?_⟩
      show Out u s.phase s.ledger q (Function.update s.procs q _ q)
      rw [Function.update_self]
      exact hout

/-- A settlement: what it reports agrees with where the coordinator is. -/
theorem Kept.settle (hs : Kept u s.phase s.ledger s.procs s.ended) {p : String} {w : World}
    {basis : Basis} {torn : Bool} (hp : p ∈ u.ids) (hdead : (s.procs p).alive = false)
    (hallowed : settlesOnDecision s (.settle p w basis torn) = true) :
    Kept u (s.settle p w basis torn).phase (s.settle p w basis torn).ledger
      (s.settle p w basis torn).procs (s.settle p w basis torn).ended := by
  obtain ⟨extra, settlement, heq, hforward, hback, happlied⟩ := settled_cases hallowed
  unfold State.settle
  rw [heq]
  have hserved := hs.served p
  have hset : Kept u s.phase s.ledger (Function.update s.procs p
      { s.procs p with wal := (s.procs p).wal ++ extra }) s.ended := by
    refine hs.setProc ⟨hserved.mine, hserved.commit, hserved.abort, fun hserving => ?_,
      hserved.unwinding⟩ (List.subset_append_left _ _) (fun h => h) (fun h => h)
    show _ ∈ ((s.procs p).wal ++ extra) ++ (s.procs p).todo
    rcases List.mem_append.mp (hserved.completing hserving) with h | h
    · exact List.mem_append_left _ (List.mem_append_left _ h)
    · exact List.mem_append_right _ h
  refine ⟨hset.divides, hset.listed, hset.unwound, hset.committed, hset.served, ?_, ?_⟩
  · intro q e hmem hne
    rcases List.mem_append.mp hmem with hmem | hmem
    · exact hset.forward q e hmem hne
    · obtain ⟨e', he', heq'⟩ := List.mem_map.mp hmem
      obtain ⟨-, rfl⟩ := Prod.mk.inj heq'
      have hend : settlement.end? = some e' := Option.mem_toList.mp he'
      cases e' with
      | applied => exact absurd hend happlied
      | rolledForward => exact hforward hend
      | rolledBack => exact absurd rfl hne
  · intro q hmem
    rcases List.mem_append.mp hmem with hmem | hmem
    · exact hset.back q hmem
    · obtain ⟨e', he', heq'⟩ := List.mem_map.mp hmem
      obtain ⟨rfl, rfl⟩ := Prod.mk.inj heq'
      have hend : settlement.end? = some .rolledBack := Option.mem_toList.mp he'
      refine ⟨hp, Or.inr ⟨fun hledger => hback hend (hs.committed p hledger), fun halive => ?_⟩⟩
      exfalso
      have halive : (Function.update s.procs p
        { s.procs p with wal := (s.procs p).wal ++ extra } p).alive = true := halive
      rw [Function.update_self] at halive
      exact Bool.false_ne_true (hdead.symm.trans halive)

/-- **One step keeps the agreement**, where a settlement reads what it may. -/
theorem Kept.step (hs : Kept u s.phase s.ledger s.procs s.ended) {a : Step}
    (hallowed : settlesOnDecision s a = true) (h : s.step u a = some s') :
    Kept u s'.phase s'.ledger s'.procs s'.ended := by
  cases a with
  | prepare ok => exact hs.prepare h
  | commit received => exact hs.commit h
  | heard => exact hs.heard h
  | lost message => exact hs.lost h
  | tear =>
    unfold State.step at h
    dsimp only at h
    split at h
    · cases h
      exact hs
    · cases h
      exact hs
    · cases h
  | decide => exact hs.decision h
  | abort received => exact hs.abort h
  | write p => exact hs.write h
  | crash p =>
    unfold State.step at h
    dsimp only at h
    split at h
    · cases h
      exact hs.setProc (served_crashed ..) (fun _ h => h) (fun h => nomatch h) (fun h => nomatch h)
    · cases h
  | settle p w basis torn =>
    unfold State.step at h
    dsimp only at h
    split at h
    · rename_i hguard
      cases h
      exact hs.settle hguard.1 hguard.2 hallowed
    · cases h

/-! ## The result -/

theorem kept_start (u : Update) (wals : String → List WalRecord) (file : List Decision) :
    Kept u (State.start u wals file).phase (State.start u wals file).ledger
      (State.start u wals file).procs (State.start u wals file).ended where
  divides := rfl
  listed _ hp := nomatch hp
  unwound _ hp := nomatch hp
  committed _ hp := nomatch hp
  served _ :=
    { mine := fun hserving => absurd rfl hserving
      commit := fun _ hserving => nomatch hserving
      abort := fun hserving => nomatch hserving
      completing := fun hserving => nomatch hserving
      unwinding := fun _ hr => nomatch hr }
  forward _ _ hmem := nomatch hmem
  back _ hmem := nomatch hmem

theorem Reached.kept (h : Reached settlesOnDecision u s) :
    Kept u s.phase s.ledger s.procs s.ended := by
  induction h with
  | start wals file => exact kept_start u wals file
  | step a _ hallowed hstep ih => exact ih.step hallowed hstep

/-- Nobody is out of a deploy that was approved. -/
theorem Kept.not_back (hs : Kept u .applied ledger procs ended) (q : String) :
    (q, .rolledBack) ∉ ended := by
  intro hmem
  obtain ⟨hq, hlost | ⟨hledger, -⟩⟩ := hs.back q hmem
  · cases hlost
  · have hdiv : u.ids = ledger := hs.divides
    exact hledger (hdiv ▸ hq)

/-- **No split brain**, in every run of the coordinator, the participants, their crashes and the
settlements, where each settlement reads this deploy's approval or runs over a log that carries
neither `activation-complete` nor `commit-approved`: no participant ends applied or rolled forward
while another ends rolled back, none is rolled forward once the abort is on record, and none that
was rolled back is part of a deploy recorded as approved. -/
theorem no_split_brain (h : Reached settlesOnDecision u s) : NoSplitBrain s := by
  have hs := h.kept
  constructor
  · intro p q e hmem hne hback
    have hφ := hs.forward p e hmem hne
    rw [hφ] at hs
    exact hs.not_back q hback
  · intro habort p hmem
    rw [hs.forward p .rolledForward hmem (by decide)] at habort
    cases habort
  · intro hφ p hback
    rw [hφ] at hs
    exact hs.not_back p hback

/-- The state some steps lead to, where each can be made and is allowed. -/
def runAll (allowed : State → Step → Bool) (u : Update) : List Step → State → Option State
  | [], s => some s
  | a :: rest, s => if allowed s a then (s.step u a).bind (runAll allowed u rest) else none

theorem Reached.runAll {allowed : State → Step → Bool} (h : Reached allowed u s)
    {steps : List Step} (hrun : runAll allowed u steps s = some s') : Reached allowed u s' := by
  induction steps generalizing s with
  | nil =>
    obtain rfl := Option.some.inj hrun
    exact h
  | cons a rest ih =>
    unfold Deploy.runAll at hrun
    split at hrun
    · rename_i hallowed
      obtain ⟨t, hstep, hrest⟩ := Option.bind_eq_some_iff.mp hrun
      exact ih (.step a h hallowed hstep) hrest
    · cases hrun

/-- Two participants of one effect each. The commit of `cache` fails at its first step. -/
def pair : Update where
  federation := ⟨"deploy", 0⟩
  ids := ["store", "cache"]
  distinct := by decide
  slices p :=
    if p = "cache" then ⟨[⟨"index", true⟩], some 0, none⟩ else ⟨[⟨"table", true⟩], none, none⟩

/-- Both are prepared and `store` commits, with its receipt taken; then the commit of `cache`
fails and is unwound. -/
def committedThenFailed : List Step :=
  [.prepare true, .prepare true, .prepare true, .commit true, .write "store", .write "store",
    .write "store", .heard, .commit true, .write "cache", .write "cache", .heard]

/-- The abort is recorded and reaches `store`, which unwinds and answers; `cache` crashes
afterwards, and is settled from the record. -/
def orderlyAbort : List Step :=
  committedThenFailed ++ [.tear, .decide, .abort true, .write "store", .write "store", .heard,
    .crash "cache", .settle "cache" dictWorld .wholeProcess false]

theorem no_split_brain_orderly : ∃ s, NoSplitBrain s ∧
    runAll settlesOnDecision pair orderlyAbort (.start pair (fun _ => []) []) = some s ∧
    s.ended = [("cache", .rolledBack), ("store", .rolledBack), ("cache", .rolledBack)] := by
  obtain ⟨s, hs⟩ : ∃ s, runAll settlesOnDecision pair orderlyAbort
      (.start pair (fun _ => []) []) = some s := Option.isSome_iff_exists.mp (by decide +kernel)
  refine ⟨s, no_split_brain (.runAll (.start _ _) hs), hs, ?_⟩
  have hended : (runAll settlesOnDecision pair orderlyAbort
      (.start pair (fun _ => []) [])).map State.ended =
        some [("cache", .rolledBack), ("store", .rolledBack), ("cache", .rolledBack)] := by
    decide +kernel
  rw [hs] at hended
  exact Option.some.inj hended

/-- `store` crashes before the abort reaches it, and is settled once the abort is on record. -/
def crashedReceipt : List Step :=
  committedThenFailed ++ [.crash "store", .tear, .decide, .abort false, .lost "broken pipe",
    .settle "store" dictWorld .wholeProcess false]

/-- **A settlement goes against the recorded abort**: the log of `store` is complete, so it is
rolled forward, while `cache` is rolled back. -/
theorem aborted_and_rolled_forward :
    ¬ ∀ (u : Update) (s : State), Reached (fun _ _ => true) u s → NoSplitBrain s := by
  intro hclaim
  obtain ⟨s, hs⟩ : ∃ s, runAll (fun _ _ => true) pair crashedReceipt
      (.start pair (fun _ => []) []) = some s := Option.isSome_iff_exists.mp (by decide +kernel)
  have hended : (runAll (fun _ _ => true) pair crashedReceipt
      (.start pair (fun _ => []) [])).map State.ended =
        some [("cache", .rolledBack), ("store", .rolledForward)] := by
    decide +kernel
  rw [hs] at hended
  have hended : s.ended = [("cache", .rolledBack), ("store", .rolledForward)] :=
    Option.some.inj hended
  refine (hclaim pair s (.runAll (.start _ _) hs)).agree "store" "cache" .rolledForward ?_
    (by decide) ?_
  · rw [hended]
    decide
  · rw [hended]
    decide

end Revl.Deploy
