import Revl.Lib.Steps
import Revl.Recovery.Pairing

/-!
# Rolling back

An activation that did not complete is rolled back newest first. Two families of records are
walked: the boundary effects, and the discharge descriptors with their transactional inverses
and compensations. A world with a composition binding takes the second family as one batch.

- `legacyStep`, `transactionalStep`, `compensationStep`: one record of each family.
- `replayThroughBinding`: the batch.
- `rollBack`: the walk; a call that raises where nothing catches it ends it.
- `RollBackReport`: what is reported.
-/

namespace Revl.Recovery

/-- An effect as the report names it. -/
structure Entry where
  component : Option String
  label : Option String
  kind : StepKind
  cls : BoundaryClass
  referent : Option Lifetime
  seq : Option Int
  deriving DecidableEq

def Entry.ofEffect (e : Effect) : Entry :=
  ⟨e.component, e.label, e.kind, e.boundary.cls, e.boundary.referent, e.seq⟩

/-- How an inverse came to be done. -/
inductive Replay where
  | tier (t : Tier)
  | abortPhase1
  | binding
  deriving DecidableEq, Repr

structure Ran where
  entry : Entry
  op : Call
  replay : Replay
  deriving DecidableEq

structure Unreconstructible where
  entry : Entry
  reason : Option String
  stillOut : String
  deriving DecidableEq

structure Offset where
  entry : Entry
  compensation : Int
  deriving DecidableEq

/-- A call that was made or counted as made. -/
structure Done where
  seq : Int
  referent : String
  op : Call
  replay : Replay
  deriving DecidableEq

structure Skipped where
  seq : Int
  referent : String
  retained : Bool
  deriving DecidableEq

structure Named where
  seq : Option Int
  referent : String
  deriving DecidableEq, Repr

structure Settled where
  seq : Option Int
  referent : String
  entry : EntryKind
  deriving DecidableEq

/-- An entry of the batch a composition binding takes. -/
inductive Bound where
  | legacy (entry : Entry) (e : Effect) (op : Call)
  | descriptor (d : Descriptor)
  deriving DecidableEq

namespace Bound

def seq : Bound → Option Int
  | .legacy _ e _ => e.seq
  | .descriptor d => some d.seq

def call : Bound → Call
  | .legacy _ _ op => op
  | .descriptor d => d.call

def entryKind : Bound → EntryKind
  | .legacy _ _ _ => .transactional
  | .descriptor d => d.entry

def crossing : Bound → Crossing
  | .legacy _ e _ => crossingOfEffect e
  | .descriptor d => crossingOfDescriptor d

def phase (b : Bound) : Nat := if b.entryKind = .transactional then 1 else 2

/-- What the binding sees of an entry. -/
def handed : Bound → Handed
  | .legacy _ e op =>
    let declared := match e.inverse with
      | .reconstructible _ undoIdempotent register => undoIdempotent || register == some .read
      | .closure _ => false
    .legacy e.seq op declared
  | .descriptor d => .descriptor d

end Bound

/-- The state of the walk. -/
structure RollBack where
  trace : List Event
  fencedSeqs : List (Option Int)
  fencedDeferred : List Named
  outstanding : List Residue
  ran : List Ran
  moot : List Entry
  unreconstructible : List Unreconstructible
  offset : List Offset
  described : List (Entry × Int)
  boundLegacy : List Bound
  rolledBack : List Done
  dischargedSkipped : List Skipped
  restoreResidue : List Named
  settledByReplay : List Settled
  compensationsRan : List Done
  compensationsReissued : List Named
  compensationsSettled : List Named

/-- The walk before it starts: the fences the log has, and nothing reported. -/
def RollBack.start (records : List WalRecord) : RollBack :=
  ⟨[], replayFencesOf records, [], [], [], [], [], [], [], [], [], [], [], [], [], [], []⟩

namespace RollBack

/-- Do one thing in the world. -/
def emit (s : RollBack) (event : Event) : RollBack := { s with trace := s.trace ++ [event] }

/-- Report one residue record. -/
def report (s : RollBack) (r : Residue) : RollBack :=
  { s with outstanding := s.outstanding ++ [r] }

/-- Spend the fence of an undeclared inverse before its one attempt. `durable` is whether there
is a log to append to. -/
def spendFence (s : RollBack) (w : World) (durable : Bool) (tier : Tier) (seq : Option Int) :
    RollBack :=
  match seq with
  | none => s
  | some n =>
    if tier = .fenced ∧ durable ∧ w.spendsFences then
      { s.emit (.replayFence n) with fencedSeqs := some n :: s.fencedSeqs }
    else s

end RollBack

/-! ## The boundary effects -/

/-- Residue for an inverse whose one attempt an earlier run of recovery fenced. -/
def legacyFencedRecord (e : Effect) (op : Call) (referent : String) : Residue where
  kind := .fenced
  crossing := crossingOfEffect e
  attempted := .ofCall op none
  error := ⟨"fenced-before-attempt", "fenced-before-attempt, outcome unknown, will not re-run — " ++
    "an earlier recovery run fenced this undeclared inverse; a second attempt cannot be proven " ++
    "safe"⟩
  attemptedFlag := false
  outcome := .unknown
  referent := referent
  hint := "declare the boundary inverse idempotent (free replay) or finish this inverse by hand " ++
    "— its at-most-once attempt is already spent (item 309)"

/-- Residue for an inverse only found as a closure. -/
def unreconstructibleRecord (e : Effect) (reason : Option String) (referent : String) :
    Residue where
  kind := .unreconstructible
  crossing := crossingOfEffect e
  attempted := .nothing
  error := ⟨"unreconstructible", (orText reason (some "closure-only inverse")).getD ""⟩
  attemptedFlag := false
  outcome := .notAttempted
  referent := referent
  hint := "declare a reconstructible inverse (extern `acquire … undo …`, a witnessed `undo`, or " ++
    "an emission `compensate`) so a fresh process can re-issue it"

local instance lawfulSeq : LawfulBEq (Option Int) := inferInstance

/-- The effect lane, one record. Nothing catches what `apply_inverse` raises here. -/
def legacyStep (w : World) (durable : Bool) (pairing : Pairing) (s : RollBack) (e : Effect) :
    Outcome ErrorInfo RollBack :=
  let entry := Entry.ofEffect e
  match pairing.described e with
  | some d => .ok { s with described := s.described ++ [(entry, d)] }
  | none =>
  match pairing.offsetBy e with
  | some d => .ok { s with offset := s.offset ++ [⟨entry, d⟩] }
  | none =>
  match referentKey w e with
  | none => .ok { s with moot := s.moot ++ [entry] }
  | some referent =>
  match e.inverse with
  | .closure reason =>
    .ok { s.report (unreconstructibleRecord e reason referent) with
      unreconstructible := s.unreconstructible ++ [⟨entry, reason, referent⟩] }
  | .reconstructible op undoIdempotent register =>
    if w.replaysDescriptors then
      .ok { s with boundLegacy := s.boundLegacy ++ [.legacy entry e op] }
    else if !w.reIssuesCalls then
      .ok (s.report (unboundRecord (crossingOfEffect e) op referent
        "this world makes no calls outside the discharge-descriptor family"))
    else
      let tier := replayTier register undoIdempotent
      if tier = .fenced ∧ e.seq ∈ s.fencedSeqs then
        .ok { s.report (legacyFencedRecord e op referent) with
          fencedDeferred := s.fencedDeferred ++ [⟨e.seq, referent⟩] }
      else
        let s := s.spendFence w durable tier e.seq
        let called := s.emit (.applyInverse (.legacy e.seq tier) op)
        match w.applyInverse s.trace op with
        | some error => .raised error called
        | none => .ok { called with ran := s.ran ++ [⟨entry, op, .tier tier⟩] }

/-! ## The discharge descriptors -/

/-- Residue for a descriptor whose one attempt an abort or an earlier run fenced. -/
def fencedRecord (d : Descriptor) (referent : String) : Residue where
  kind := .fenced
  crossing := crossingOfDescriptor d
  attempted := .ofCall d.call (some 1)
  error := ⟨"fenced-before-attempt", "fenced-before-attempt, outcome unknown, will not re-run — " ++
    "a prior apply path (abort Phase 1 or an earlier recovery run) fenced this undeclared " ++
    "inverse; a second attempt cannot be proven safe"⟩
  attemptedFlag := false
  outcome := .unknown
  referent := referent
  hint := "declare `undo idempotent` (free replay) or add an idempotency key, or finish this " ++
    "inverse by hand — its at-most-once attempt is already spent (item 309)"

/-- Residue for an inverse with a redacted argument. -/
def redactedInverseRecord (d : Descriptor) (referent : String) : Residue where
  kind := .redacted
  crossing := crossingOfDescriptor d
  attempted := .ofCall d.call (some 1)
  error := ⟨"redacted-argument", "the inverse's argument was declared `Secret[T]` and is " ++
    "redacted in the log, so the call cannot be reconstructed — not attempted"⟩
  attemptedFlag := false
  outcome := .unknown
  referent := referent
  hint := "a confidential value is never written to the WAL (it is plaintext at rest). Re-issue " ++
    "this inverse by hand with the value from its own store, or carry a non-confidential handle " ++
    "(an idempotency key, a row id) as the witness"

/-- Residue for an inverse that raised. -/
def restoreRecord (d : Descriptor) (referent : String) (error : ErrorInfo) : Residue where
  kind := .restore
  crossing := crossingOfDescriptor d
  attempted := .ofCall d.call (some 1)
  error := error
  attemptedFlag := true
  outcome := .failed
  referent := referent
  hint := "the witnessed inverse failed on re-issue (anticipated, 243 rule 6); check the " ++
    "referent and finish the restore by hand"

/-- Phase 1, one transactional inverse. What `apply_inverse` raises is caught here. -/
def transactionalStep (w : World) (durable abortCompleted : Bool) (discharged : List Int)
    (s : RollBack) (d : Descriptor) : Outcome ErrorInfo RollBack :=
  let referent := w.key d.call
  let tier := replayTier d.register d.undoIdempotent
  if d.seq ∈ discharged then
    .ok { s with dischargedSkipped := s.dischargedSkipped ++ [⟨d.seq, referent, true⟩] }
  else if tier = .fenced ∧ some d.seq ∈ s.fencedSeqs then
    if abortCompleted then
      .ok { s with rolledBack := s.rolledBack ++ [⟨d.seq, referent, d.call, .abortPhase1⟩] }
    else
      .ok { s.report (fencedRecord d referent) with
        fencedDeferred := s.fencedDeferred ++ [⟨some d.seq, referent⟩] }
  else if hasRedactedArg d.call then
    .ok { s.report (redactedInverseRecord d referent) with
      restoreResidue := s.restoreResidue ++ [⟨some d.seq, referent⟩] }
  else
    let s := s.spendFence w durable tier (some d.seq)
    let called := s.emit (.applyInverse (.transactional d.seq tier) d.call)
    match w.applyInverse s.trace d.call with
    | some error =>
      .ok { called.report (restoreRecord d referent error) with
        restoreResidue := s.restoreResidue ++ [⟨some d.seq, referent⟩] }
    | none => .ok { called with rolledBack := s.rolledBack ++ [⟨d.seq, referent, d.call, .tier tier⟩] }

/-- Residue for a compensation with a redacted argument. -/
def redactedCompensationRecord (d : Descriptor) (referent : String) : Residue where
  kind := .redacted
  crossing := crossingOfDescriptor d
  attempted := .ofCall d.call (some 2)
  error := ⟨"redacted-argument", "the compensation's argument was declared `Secret[T]` and is " ++
    "redacted in the log, so the call cannot be reconstructed — not attempted"⟩
  attemptedFlag := false
  outcome := .unknown
  referent := referent
  hint := "the forward crossing is still out. Offset it by hand with the value from its own " ++
    "store, or carry a non-confidential handle as the compensation's argument"

/-- Residue for a compensation that was issued again: it is never confirmed. -/
def compensationRecord (d : Descriptor) (referent : String) : Residue :=
  let text := match d.idempotency.filter (· ≠ "") with
    | some keyed =>
      ("re-issued under a stable idempotency key; the remote's dedup contract prevents " ++
        "double-apply (the contract, conditional on its retention window — never the confirmed " ++
        "fact of a dedup)",
      "the compensation was re-attempted best-effort under key `" ++ keyed ++ "`; revl verified " ++
        "the key was stable, not that the remote dedup'd — the forward referent is still out")
    | none =>
      ("re-issued best-effort; the emission's landing cannot be confirmed in a fresh process",
      "the compensation was re-attempted best-effort; its landing cannot be confirmed after a " ++
        "crash — the forward referent is still out. Verify it was offset, or carry an " ++
        "idempotency key")
  { kind := .compensation
    crossing := crossingOfDescriptor d
    attempted := .ofCall d.call (some 2)
    error := ⟨"unconfirmed", text.1⟩
    attemptedFlag := true
    outcome := .unknown
    referent := referent
    hint := text.2 }

/-- Phase 2, one compensation. Nothing catches what `apply_compensation` raises. -/
def compensationStep (w : World) (ranByAbort discharged : List Int) (s : RollBack)
    (d : Descriptor) : Outcome ErrorInfo RollBack :=
  let referent := w.key d.call
  if d.seq ∈ ranByAbort then
    .ok { s with compensationsSettled := s.compensationsSettled ++ [⟨some d.seq, referent⟩] }
  else if d.seq ∈ discharged then
    .ok { s with dischargedSkipped := s.dischargedSkipped ++ [⟨d.seq, referent, false⟩] }
  else if hasRedactedArg d.call then
    .ok (s.report (redactedCompensationRecord d referent))
  else
    let called := s.emit (.applyCompensation d.call)
    match w.applyCompensation s.trace d.call with
    | some error => .raised error called
    | none =>
      .ok { called.report (compensationRecord d referent) with
        compensationsReissued := s.compensationsReissued ++ [⟨some d.seq, referent⟩] }

/-! ## Through a composition binding -/

/-- Residue for a call whose arguments the log does not have. -/
def uncapturedRecord (b : Bound) : Residue :=
  let redacted := b.call.args.isSome
  { kind := if redacted then .redacted else .unresolved
    crossing := b.crossing
    attempted := .ofCall b.call (some b.phase)
    error := ⟨if redacted then "redacted-argument" else "args-not-captured",
      namedCall b.call ++ ": " ++
        (if redacted then "an argument was declared `Secret[T]` and is redacted in the log"
        else "its arguments were not captured at registration (an argument is itself a call)") ++
        "; not attempted"⟩
    attemptedFlag := false
    outcome := .unknown
    referent := namedCall b.call
    hint := "finish this call by hand; recovery never guesses an argument" }

/-- What a binding outcome other than `ran` and `settled` says: message, kind and hint. -/
def bindingText (w : World) (b : Bound) : BindingOutcome → String × ResidueKind × String
  | .failed =>
    (namedCall b.call ++ " raised when the runtime replayed it",
      if b.entryKind = .transactional then .restore else .compensation,
      "the host body raised; check the referent and finish it by hand")
  | .fenced =>
    (namedCall b.call ++ ": fenced-before-attempt, outcome unknown, will not re-run: an earlier " ++
        "attempt fenced this undeclared inverse", .fenced,
      "declare `undo idempotent`, or finish this inverse by hand: its at-most-once attempt is " ++
        "already spent")
  | .stranded =>
    (namedCall b.call ++ ": an E-Stop is in force, so nothing ran", .stranded,
      "clear the latch (`revl estop --clear`) and recover again")
  | .otherGeneration =>
    (namedCall b.call ++ ": " ++ w.generationNote (.seq b.seq) ++ "; not attempted", .generation,
      "run `revl recover --composition` again with the composition that generation ran")
  | .wouldReactivate =>
    (namedCall b.call ++ ": " ++ w.reactivationNote b.call.receiver ++ "; not attempted",
      .reactivation,
      "finish this call by hand, or give the provider an activation that crosses nothing, so " ++
        "recover can boot it without crossing again")
  | _ =>
    (namedCall b.call ++ ": names no host body in this composition binding; not attempted",
      .unresolved,
      "the call's receiver or method is not bound here; finish it by hand")

def bindingRecord (w : World) (b : Bound) (state : BindingOutcome) : Residue :=
  let text := bindingText w b state
  { kind := text.2.1
    crossing := b.crossing
    attempted := .ofCall b.call (some b.phase)
    error := ⟨state.name, text.1⟩
    attemptedFlag := state == .failed
    outcome := if state = .failed then .failed else .unknown
    referent := namedCall b.call
    hint := text.2.2 }

/-- `_DECLINED`. -/
def declinedOutcomes : List BindingOutcome := [.otherGeneration, .wouldReactivate]

/-- One entry of the batch, with the outcome the binding answered. -/
def bindingStep (w : World) (outcome : Option Int → BindingOutcome) (s : RollBack) (b : Bound) :
    RollBack :=
  let named := namedCall b.call
  let state := outcome b.seq
  match state with
  | .ran =>
    match b with
    | .legacy entry _ op => { s with ran := s.ran ++ [⟨entry, op, .binding⟩] }
    | .descriptor d =>
      if d.entry = .transactional then
        { s with rolledBack := s.rolledBack ++ [⟨d.seq, named, d.call, .binding⟩] }
      else
        { s with compensationsRan := s.compensationsRan ++ [⟨d.seq, named, d.call, .binding⟩] }
  | .settled =>
    { s with settledByReplay := s.settledByReplay ++ [⟨b.seq, named, b.entryKind⟩] }
  | _ =>
    let s := s.report (bindingRecord w b state)
    if state = .fenced then { s with fencedDeferred := s.fencedDeferred ++ [⟨b.seq, named⟩] }
    else if b.entryKind = .transactional ∧ state ∉ declinedOutcomes then
      { s with restoreResidue := s.restoreResidue ++ [⟨b.seq, named⟩] }
    else s

/-- Whether the log has the arguments of an entry's call. -/
def replayable (b : Bound) : Bool := !hasRedactedArg b.call && b.call.args.isSome

/-- `_replay_through_binding`. -/
def replayThroughBinding (w : World) (batch : List Bound) (s : RollBack) : RollBack :=
  let calls := batch.filter replayable
  let uncaptured := batch.filter fun b => !replayable b
  let s := uncaptured.foldl (fun s b => s.report (uncapturedRecord b)) s
  let handed := calls.map Bound.handed
  let outcome := w.replayDescriptors s.trace handed
  let s := if calls.isEmpty then s else s.emit (.replayDescriptors handed)
  calls.foldl (bindingStep w outcome) s

/-- One effect still counted closure-only: when a compensation of this replay offsets it, its
residue is taken back. -/
def offsetStep (pairing : Pairing) (s : RollBack) (u : Unreconstructible) : RollBack :=
  match pairing.offsetBySeq u.entry.seq with
  | none => { s with unreconstructible := s.unreconstructible ++ [u] }
  | some d =>
    { s with
      offset := s.offset ++ [⟨u.entry, d⟩]
      outstanding := s.outstanding.filter fun o =>
        !(o.kind == .unreconstructible && o.referent == u.stillOut) }

/-- Ask the pairing again for every effect still counted closure-only. -/
def offsetAgain (pairing : Pairing) (s : RollBack) : RollBack :=
  s.unreconstructible.foldl (offsetStep pairing) { s with unreconstructible := [] }

/-- The seqs a replay in this run settled. -/
def RollBack.replaySettled (s : RollBack) : List Int :=
  s.compensationsRan.map Done.seq ++ s.settledByReplay.filterMap Settled.seq

/-- The descriptor family through a binding: the batch, the second look at the offsets, and the
descriptors that were skipped. -/
def bindingLane (w : World) (pairing : Pairing) (discharged : List Int)
    (transactional compensations : List Descriptor) (s : RollBack) : RollBack :=
  let descriptors := transactional ++ compensations
  let batch := s.boundLegacy ++
    (descriptors.filter (·.seq ∉ discharged)).map Bound.descriptor
  let s := replayThroughBinding w batch s
  let s := offsetAgain (pairing.settle s.replaySettled) s
  let skipped := descriptors.filterMap fun d =>
    if d.seq ∈ discharged then
      some (⟨d.seq, w.key d.call, d.entry == .transactional⟩ : Skipped)
    else none
  { s with dischargedSkipped := s.dischargedSkipped ++ skipped }

/-! ## The walk -/

/-- The seeds of the effects: what the log says was created and outlives the process. -/
def effectSeeds (w : World) (pairing : Pairing) (effects : List Effect) : List Event :=
  effects.filterMap fun e =>
    if (pairing.described e).isSome || (pairing.offsetBy e).isSome then none
    else (referentKey w e).map fun referent => .seed referent e.label

def EntryKind.name : EntryKind → String
  | .transactional => "transactional"
  | .compensation => "compensation"

/-- The seeds of the descriptors: the forward referent of everything not already done. -/
def descriptorSeeds (w : World) (pairing : Pairing) (descriptors : List Descriptor) :
    List Event :=
  descriptors.filterMap fun d =>
    if d.entry = .compensation ∧ d.seq ∈ pairing.ranByAbort then none
    else some (.seed (w.key d.call) (some d.entry.name))

/-- Newest first; equal seqs keep the order of the log. -/
def newestFirst (descriptors : List Descriptor) : List Descriptor :=
  descriptors.insertionSort fun a b => b.seq ≤ a.seq

def transactionalOf (records : List WalRecord) : List Descriptor :=
  (descriptorsOf records).filter (·.entry = .transactional)

def compensationsOf (records : List WalRecord) : List Descriptor :=
  (descriptorsOf records).filter (·.entry = .compensation)

/-- The pairing of a log. -/
def Wal.pairing (wal : Wal) : Pairing :=
  compensationPairing wal.records (ownEffects wal) (descriptorsOf wal.records)

/-- The walk once the effects are seeded. -/
def seedEffects (w : World) (wal : Wal) : RollBack :=
  { RollBack.start wal.records with trace := effectSeeds w wal.pairing (ownEffects wal) }

/-- The effect lane, newest first. -/
def effectLane (w : World) (durable : Bool) (wal : Wal) : Outcome ErrorInfo RollBack :=
  Outcome.runSteps (legacyStep w durable wal.pairing) (ownEffects wal).reverse
    (seedEffects w wal)

/-- Seed the forward referents of the descriptors. -/
def seedDescriptors (w : World) (wal : Wal) (s : RollBack) : RollBack :=
  { s with trace := s.trace ++ descriptorSeeds w wal.pairing (descriptorsOf wal.records) }

/-- Phase 1. -/
def transactionalLane (w : World) (durable : Bool) (wal : Wal) (s : RollBack) :
    Outcome ErrorInfo RollBack :=
  Outcome.runSteps
    (transactionalStep w durable (wal.records.any isAborted) (dischargedOf wal.records))
    (newestFirst (transactionalOf wal.records)) s

/-- Phase 2. -/
def compensationLane (w : World) (wal : Wal) (s : RollBack) : Outcome ErrorInfo RollBack :=
  Outcome.runSteps
    (compensationStep w wal.pairing.ranByAbort (dischargedOf wal.records))
    (newestFirst (compensationsOf wal.records)) s

/-- `_roll_back`, up to the report. -/
def rollBack (w : World) (durable : Bool) (wal : Wal) : Outcome ErrorInfo RollBack :=
  (effectLane w durable wal).andThen fun s =>
    let s := seedDescriptors w wal s
    if w.replaysDescriptors then
      .ok (bindingLane w wal.pairing (dischargedOf wal.records) (transactionalOf wal.records)
        (compensationsOf wal.records) s)
    else (transactionalLane w durable wal s).andThen (compensationLane w wal)

/-- An emission counted with the crossing it was made inside. -/
structure NestedEntry where
  component : Option String
  label : Option String
  seq : Option Int
  within : Within
  why : String
  deriving DecidableEq, Repr

/-- `_nested_entries`, one effect. -/
def nestedEntry (e : Effect) : NestedEntry :=
  let within := e.within.getD ⟨none, none, none⟩
  let inProcess := match within.process.filter (· ≠ "") with
    | some process => " in process " ++ process
    | none => ""
  { component := e.component
    label := e.label
    seq := e.seq
    within := within
    why := "made inside " ++ Json.pyNone within.label ++
      " (seq " ++ Json.pyNone (within.seq.map toString) ++ inProcess ++
      "), the same crossing; counted there" }

/-- What `_roll_back` reports beside its lanes. -/
structure RollBackReport extends RollBack where
  committedEffects : Nat
  torn : Bool
  nested : List NestedEntry
  droppedDeferred : List Named
  abortCompleted : Bool
  clean : Bool
  worldRemaining : List String

/-- A deferred emission by its receiver and method. -/
def deferredReferent (d : Deferred) : String :=
  Json.pyNone d.call.receiver ++ "." ++ Json.pyNone d.call.method

/-- The report of a walk that raised nothing. -/
def rollBackReport (w : World) (wal : Wal) (s : RollBack) : RollBackReport where
  toRollBack := s
  committedEffects := (effectsOf wal.records).length
  torn := wal.torn
  nested := (splitNested wal (effectsOf wal.records)).2.map nestedEntry
  droppedDeferred := (deferredOf wal.records).map fun d => ⟨d.seq, deferredReferent d⟩
  abortCompleted := wal.records.any isAborted
  clean := s.outstanding.isEmpty
  worldRemaining := w.remaining s.trace

end Revl.Recovery
