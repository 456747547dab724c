import Revl.Recovery.Record

/-!
# The world recovery acts on

Recovery calls an adapter over the outside world. What it did there is the list of events, in
order: the calls it made, and the records it appended to the log before and after them. A
world answers a call by what happened so far, so it may keep any state of its own.

- `Event`: a call against the world or an append to the log.
- `World`: an adapter; its calls may raise.
- `appended`: the records a run's events leave in the log.
- `dictWorld`: the default world, a set of referents in memory.
-/

namespace Revl.Recovery

/-- `World.kind`: whether a world is an adapter over the outside world or stands in for one. -/
inductive WorldKind where
  | model
  | real
  deriving DecidableEq, Repr

/-- What a call to `apply_inverse` was made for. -/
inductive Source where
  | legacy (seq : Option Int) (tier : Tier)
  | transactional (seq : Int) (tier : Tier)
  | shared (handle : String)
  deriving DecidableEq, Repr

/-- An entry as it is handed to a composition binding. A legacy boundary inverse is handed as
the transactional entry it is. -/
inductive Handed where
  | legacy (seq : Option Int) (call : Call) (undoIdempotent : Bool)
  | descriptor (d : Descriptor)
  deriving DecidableEq

inductive Event where
  | seed (referent : String) (value : Option String)
  | replayFence (seq : Int)
  | reissueFence (seq : Int) (register : Option Register)
  | sharedReclaimFence (handle : String)
  | discharge (seqs : List Int)
  | applyInverse (source : Source) (op : Call)
  | applyCompensation (op : Call)
  | reissue (op : Call)
  | replayDescriptors (handed : List Handed)
  | reissueDeferred (d : Deferred)
  | reclaimShared (g : Grant)
  deriving DecidableEq

/-- The record an event appends to the log. -/
def Event.record? : Event → Option WalRecord
  | .replayFence seq => some (.replayFence seq)
  | .reissueFence seq register => some (.reissueFence seq register)
  | .sharedReclaimFence handle => some (.sharedReclaimFence handle)
  | .discharge seqs => some (.discharge seqs)
  | _ => none

/-- The records a run's events leave in the log. -/
def appended (events : List Event) : List WalRecord := events.filterMap Event.record?

@[simp] theorem appended_append (l m : List Event) : appended (l ++ m) = appended l ++ appended m :=
  List.filterMap_append

/-- The call an event hands to `apply_inverse`, `apply_compensation` or `reissue`. -/
def Event.call? : Event → Option Call
  | .applyInverse _ op => some op
  | .applyCompensation op => some op
  | .reissue op => some op
  | _ => none

/-- What a composition binding answers for an entry. -/
inductive BindingOutcome where
  | ran
  | failed
  | fenced
  | settled
  | unresolved
  | stranded
  | otherGeneration
  | wouldReactivate
  | other (name : String)
  deriving DecidableEq, Repr

/-- The outcome as the binding spells it. -/
def BindingOutcome.name : BindingOutcome → String
  | .ran => "ran"
  | .failed => "failed"
  | .fenced => "fenced"
  | .settled => "settled"
  | .unresolved => "unresolved"
  | .stranded => "stranded"
  | .otherGeneration => "other-generation"
  | .wouldReactivate => "would-reactivate"
  | .other name => name

/-- The name a note is asked by: a seq or a handle. -/
inductive NoteKey where
  | seq (seq : Option Int)
  | handle (handle : String)
  deriving DecidableEq, Repr

/-- `World`. A call answers with the error it raises. What a binding does not name is
`unresolved`. -/
structure World where
  kind : WorldKind
  replaysDescriptors : Bool
  reIssuesCalls : Bool
  reissuesDeferred : Bool
  reclaimsShared : Bool
  key : Call → String
  applyInverse : List Event → Call → Option ErrorInfo
  applyCompensation : List Event → Call → Option ErrorInfo
  reissue : List Event → Call → Option ErrorInfo
  replayDescriptors : List Event → List Handed → Option Int → BindingOutcome
  reissueDeferred : List Event → Deferred → BindingOutcome
  reclaimShared : List Event → Grant → BindingOutcome
  declined : Option Int → Option String → Option BindingOutcome
  generationNote : NoteKey → String
  reactivationNote : Option String → String
  remaining : List Event → List String

namespace World

/-- `_spends_fences`: only an attempt against the outside world spends a fence. -/
def spendsFences (w : World) : Bool := w.kind == .real

/-- A world with no composition binding: none of the families goes to a runtime entry point. -/
def Unbound (w : World) : Prop :=
  w.replaysDescriptors = false ∧ w.reissuesDeferred = false ∧ w.reclaimsShared = false

instance (w : World) : Decidable w.Unbound := by
  unfold Unbound
  infer_instance

/-- `World.key`: the receiver and the first argument. -/
def baseKey (op : Call) : String :=
  Json.pyNone op.receiver ++ ":" ++
    match op.argList with
    | [] => ""
    | arg :: _ => Json.pyStr arg

end World

/-! ## The default world -/

namespace DictWorld

/-- The verbs that remove their referent. -/
def removeVerbs : List String :=
  ["remove", "delete", "unlink", "drop", "close", "release", "undo", "revoke", "rollback",
    "compensate", "pop"]

/-- `str.lower`, as far as the verbs can tell: the ASCII letters, and the one other code point
whose lower case is an ASCII letter. -/
def lower (s : String) : List Char :=
  s.toList.map fun c => if c = '\u212a' then 'k' else c.toLower

def removes (op : Call) : Bool :=
  removeVerbs.any fun verb => (lower (op.method.getD "")).tails.any verb.toList.isPrefixOf

/-- The keys of `state` after an event. -/
def afterEvent (state : List String) : Event → List String
  | .seed referent _ => state.insert referent
  | .applyInverse _ op =>
    if removes op then state.filter (· ≠ World.baseKey op)
    else state.insert ("compensation:" ++ World.baseKey op)
  | .applyCompensation op => state.insert ("compensation:" ++ World.baseKey op)
  | .reissue op => state.insert ("reissued:" ++ World.baseKey op)
  | _ => state

/-- The keys that are referents, in order. -/
def remaining (events : List Event) : List String :=
  ((events.foldl afterEvent []).filter fun k =>
      !("compensation:".isPrefixOf k || "reissued:".isPrefixOf k)).insertionSort (· ≤ ·)

end DictWorld

/-- `DictWorld`. Nothing it is asked raises, and nothing is bound. -/
def dictWorld : World where
  kind := .model
  replaysDescriptors := false
  reIssuesCalls := true
  reissuesDeferred := false
  reclaimsShared := false
  key := World.baseKey
  applyInverse _ _ := none
  applyCompensation _ _ := none
  reissue _ _ := none
  replayDescriptors _ _ _ := .unresolved
  reissueDeferred _ _ := .unresolved
  reclaimShared _ _ := .unresolved
  declined _ _ := none
  generationNote _ := ""
  reactivationNote _ := ""
  remaining := DictWorld.remaining

theorem dictWorld_unbound : dictWorld.Unbound := ⟨rfl, rfl, rfl⟩

end Revl.Recovery
