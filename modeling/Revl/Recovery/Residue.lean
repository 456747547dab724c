import Revl.Recovery.World

/-!
# Residue records

- `Residue`: one record of the merged residue schema.
- `crossingOfEffect`, `crossingOfDescriptor`: the forward crossing a record belonged to.
- `referentKey`: the referent a boundary effect left behind.
-/

namespace Revl.Recovery

/-- The forward crossing. -/
structure Crossing where
  key : Option String
  method : Option String
  args : List Json
  site : Option Json
  deriving DecidableEq

/-- The call recovery attempted, or would have. -/
structure Attempted where
  call : Option String
  args : List Json
  phase : Option Nat
  deriving DecidableEq

/-- `attempted or {...}`. -/
def Attempted.nothing : Attempted := ⟨none, [], none⟩

def Attempted.ofCall (call : Call) (phase : Option Nat) : Attempted :=
  ⟨call.method, call.argList, phase⟩

inductive ResidueKind where
  | unreconstructible
  | fenced
  | redacted
  | restore
  | compensation
  | unbound
  | unresolved
  | stranded
  | generation
  | reactivation
  | flush
  deriving DecidableEq, Repr

inductive ResidueOutcome where
  | notAttempted
  | failed
  | unknown
  deriving DecidableEq, Repr

/-- `_record`. -/
structure Residue where
  kind : ResidueKind
  crossing : Crossing
  attempted : Attempted
  error : ErrorInfo
  attemptedFlag : Bool
  outcome : ResidueOutcome
  referent : String
  hint : String
  deriving DecidableEq

/-- Python's `or` on an optional text: the empty one counts as absent. -/
def orText (a b : Option String) : Option String :=
  match a with
  | none => b
  | some s => if s = "" then b else some s

/-- Python's `or` on a list. -/
def orList (a b : List Json) : List Json := if a = [] then b else a

/-- `_crossing_of_effect`. -/
def crossingOfEffect (e : Effect) : Crossing where
  key := orText (orText e.origin.key e.boundary.detailKey) e.component
  method := orText (orText e.origin.method e.boundary.detailMethod) e.label
  args := orList e.origin.args e.boundary.detailArgs
  site := e.site

/-- `_crossing_of_descriptor`, from the origin and the call of a descriptor. -/
def crossingOfOrigin (origin : Origin) (call : Call) : Crossing where
  key := orText (orText origin.key origin.receiver) call.receiver
  method := orText origin.method call.method
  args := origin.args
  site := origin.site

def crossingOfDescriptor (d : Descriptor) : Crossing := crossingOfOrigin d.origin d.call

def crossingOfDeferred (d : Deferred) : Crossing := crossingOfOrigin d.origin d.call

/-- `_OUTLIVES`. -/
def outlives (referent : Option Lifetime) : Bool :=
  referent ∈ [some .processCrossing, some .outlivesProcess, some .unknown]

/-- `_referent_key`: `none` for an in-process effect. -/
def referentKey (w : World) (e : Effect) : Option String :=
  if outlives e.boundary.referent then
    match e.inverse with
    | .reconstructible op _ _ => some (w.key op)
    | .closure _ =>
      let ident := Json.pyTuple [Json.reprNone e.boundary.detailKey, Json.reprNone e.boundary.detailMethod,
        Json.pyTuple (e.boundary.detailArgs.map Json.pyRepr)]
      some (Json.pyNone e.component ++ ":" ++ Json.pyNone e.label ++ ":" ++ ident)
  else none

/-- `_named_call`. -/
def namedCall (call : Call) : String :=
  let shown := match call.args with
    | none => "<not captured>"
    | some args => ", ".intercalate (args.map Json.pyRepr)
  let receiver := match call.receiver with
    | none => ""
    | some r => if r = "" then "" else r ++ "."
  receiver ++ Json.pyNone call.method ++ "(" ++ shown ++ ")"

/-- Residue for a call the world cannot make. -/
def unboundRecord (crossing : Crossing) (call : Call) (referent reason : String) : Residue where
  kind := .unbound
  crossing := crossing
  attempted := .ofCall call none
  error := ⟨"not-bound", "not attempted: " ++ reason⟩
  attemptedFlag := false
  outcome := .notAttempted
  referent := referent
  hint := "finish it by hand, or recover against the model to see what the model would do " ++
    "(drop --composition)"

end Revl.Recovery
