import Revl.Lib.Json.Repr

/-!
# The records recovery reads

A write-ahead log is a list of records in the order they were appended. A record is typed by
its kind, with the fields recovery reads; an optional field is one a writer may leave out.

- `Descriptor`: a transactional inverse or a compensation.
- `Deferred`: an emission that was queued.
- `Grant`: a shared grant.
- `WalRecord`: the records, and the sets of seqs read off a log.
-/

namespace Revl.Recovery

/-- A named call. `args` is absent where they were not captured. -/
structure Call where
  receiver : Option String
  method : Option String
  args : Option (List Json)
  deriving DecidableEq

/-- A call read off a record without one. -/
def Call.empty : Call := ⟨none, none, none⟩

/-- `call.get("args") or []`. -/
def Call.argList (c : Call) : List Json := c.args.getD []

/-- The placeholder of an argument the recorder redacted. -/
def redactedSecret : String := "<redacted:secret>"

/-- `_has_redacted_arg`. -/
def hasRedactedArg (c : Call) : Bool := c.argList.any fun arg => arg.str? == some redactedSecret

/-- The idempotency register of a journalled call. -/
inductive Register where
  | read
  | keyed
  | declared
  | other (name : String)
  deriving DecidableEq, Repr

/-- The kind of a timeline step. -/
inductive StepKind where
  | emission
  | compensation
  | other (name : Option String)
  deriving DecidableEq, Repr

/-- How long the referent of a boundary effect lives. -/
inductive Lifetime where
  | inProcess
  | processCrossing
  | outlivesProcess
  | unknown
  deriving DecidableEq, Repr

inductive BoundaryClass where
  | emission
  | other (name : Option String)
  deriving DecidableEq, Repr

/-- Where an entry came from: the forward crossing. -/
structure Origin where
  key : Option String
  receiver : Option String
  method : Option String
  args : List Json
  site : Option Json
  deriving DecidableEq

structure Boundary where
  cls : BoundaryClass
  referent : Option Lifetime
  /-- The step a compensation's timeline record belongs to. -/
  forStep : Option Int
  detailKey : Option String
  detailMethod : Option String
  detailArgs : List Json
  deriving DecidableEq

/-- An inverse: a named call a fresh process can issue, or a closure that died. -/
inductive Inverse where
  | reconstructible (op : Call) (undoIdempotent : Bool) (register : Option Register)
  | closure (reason : Option String)
  deriving DecidableEq

/-- The crossing an emission was made inside. -/
structure Within where
  seq : Option Int
  process : Option String
  label : Option String
  deriving DecidableEq, Repr

/-- An `effect` record. -/
structure Effect where
  seq : Option Int
  component : Option String
  stepIndex : Option Int
  kind : StepKind
  label : Option String
  site : Option Json
  origin : Origin
  boundary : Boundary
  inverse : Inverse
  within : Option Within
  deriving DecidableEq

inductive EntryKind where
  | transactional
  | compensation
  deriving DecidableEq, Repr

/-- A `discharge-descriptor` record. -/
structure Descriptor where
  seq : Int
  entry : EntryKind
  call : Call
  origin : Origin
  register : Option Register
  undoIdempotent : Bool
  idempotency : Option String
  offsets : Option Int
  deriving DecidableEq

/-- A `deferred-emission` record. -/
structure Deferred where
  seq : Option Int
  call : Call
  origin : Origin
  register : Option Register
  idempotency : Option String
  deriving DecidableEq

/-- An error as a record carries it. -/
structure ErrorInfo where
  type : String
  message : String
  deriving DecidableEq, Repr

/-- A `shared-grant` record. -/
structure Grant where
  handle : String
  inverse : Call
  holders : List String
  deriving DecidableEq

/-- A record of the log. `other` is a kind recovery does not read. -/
inductive WalRecord where
  | effect (e : Effect)
  | descriptor (d : Descriptor)
  | deferred (d : Deferred)
  | flushed (seq : Option Int)
  | flushResidue (seq : Option Int) (error : Option ErrorInfo)
  | commitApproved (hash : Option String)
  | discharge (discharged : List Int)
  | aborted (replayed : List Int)
  | replayFence (seq : Option Int)
  | reissueFence (seq : Option Int) (register : Option Register)
  | sharedGrant (g : Grant)
  | sharedComplete (handle : String)
  | sharedReclaimFence (handle : String)
  | activationComplete
  | runComplete
  | forkFrozen (at_ : Option Int)
  | other (kind : String) (seq : Option Int)
  deriving DecidableEq

/-! ## Reading a log -/

/-- The `effect` records. -/
def effectsOf (records : List WalRecord) : List Effect :=
  records.filterMap fun
    | .effect e => some e
    | _ => none

def descriptorsOf (records : List WalRecord) : List Descriptor :=
  records.filterMap fun
    | .descriptor d => some d
    | _ => none

def deferredOf (records : List WalRecord) : List Deferred :=
  records.filterMap fun
    | .deferred d => some d
    | _ => none

/-- Every seq a `discharge` record names. -/
def dischargedOf (records : List WalRecord) : List Int :=
  records.flatMap fun
    | .discharge seqs => seqs
    | _ => []

/-- Every seq an `aborted` record names. -/
def abortedOf (records : List WalRecord) : List Int :=
  records.flatMap fun
    | .aborted seqs => seqs
    | _ => []

/-- `settled_descriptor_seqs`. -/
def settledDescriptorSeqs (records : List WalRecord) : List Int :=
  dischargedOf records ++ abortedOf records

/-- `seqs_of(records, ("flushed",))`: the integer seqs. -/
def flushedOf (records : List WalRecord) : List Int :=
  records.filterMap fun
    | .flushed seq => seq
    | _ => none

/-- The `flush-residue` record of each seq, the last one in force. -/
def flushFailedOf (records : List WalRecord) : List (Option Int × Option ErrorInfo) :=
  records.filterMap fun
    | .flushResidue seq error => some (seq, error)
    | _ => none

/-- The seqs a `replay-fence` record names. -/
def replayFencesOf (records : List WalRecord) : List (Option Int) :=
  records.filterMap fun
    | .replayFence seq => some seq
    | _ => none

def reissueFencesOf (records : List WalRecord) : List (Option Int) :=
  records.filterMap fun
    | .reissueFence seq _ => some seq
    | _ => none

def grantsOf (records : List WalRecord) : List Grant :=
  records.filterMap fun
    | .sharedGrant g => some g
    | _ => none

def sharedCompletedOf (records : List WalRecord) : List String :=
  records.filterMap fun
    | .sharedComplete handle => some handle
    | _ => none

def sharedFencesOf (records : List WalRecord) : List String :=
  records.filterMap fun
    | .sharedReclaimFence handle => some handle
    | _ => none

def isAborted : WalRecord → Bool
  | .aborted _ => true
  | _ => false

def isCommitApproved : WalRecord → Bool
  | .commitApproved _ => true
  | _ => false

def isActivationComplete : WalRecord → Bool
  | .activationComplete => true
  | _ => false

def isForkFrozen : WalRecord → Bool
  | .forkFrozen _ => true
  | _ => false

@[simp] theorem replayFencesOf_append (l m : List WalRecord) :
    replayFencesOf (l ++ m) = replayFencesOf l ++ replayFencesOf m := List.filterMap_append

theorem mem_replayFencesOf {records : List WalRecord} {seq : Option Int} :
    seq ∈ replayFencesOf records ↔ .replayFence seq ∈ records := by
  unfold replayFencesOf
  rw [List.mem_filterMap]
  constructor
  · rintro ⟨r, hr, hseq⟩
    cases r <;> simp_all
  · intro h
    exact ⟨_, h, rfl⟩

/-! ## Replay tiers -/

/-- How an inverse may be run again. -/
inductive Tier where
  | read
  | free
  | fenced
  deriving DecidableEq, Repr

/-- `_replay_tier`: anything not declared is fenced. -/
def replayTier (register : Option Register) (declaredIdempotent : Bool) : Tier :=
  if register = some .read then .read
  else if declaredIdempotent then .free
  else .fenced

/-- `REDISPATCH_FREE`. -/
def redispatchFree (register : Option Register) : Bool :=
  register == some .read || register == some .keyed

end Revl.Recovery
