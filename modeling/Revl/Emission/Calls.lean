import Revl.Lib.Json.Value

/-!
# Callees and first-class references of a lowered node (`emission_analysis.py`)

`_calls_in` walks a lowered tree and collects two channels: the names it calls, and
the names it references as values. The node a call names directly is not a value
reference, but what is nested inside a computed callee is.

- `Refs`: the two channels.
- `callsIn`: the walk, over every binding and item of the tree.
-/

namespace Revl.Emission

/-- The names a node calls, and the names it references as values. -/
structure Refs where
  called : List String
  values : List String
  deriving DecidableEq

namespace Refs

/-- Nothing referenced. -/
def none : Refs := ⟨[], []⟩

/-- Both channels, one after the other. -/
def append (r s : Refs) : Refs := ⟨r.called ++ s.called, r.values ++ s.values⟩

instance : Append Refs := ⟨append⟩

end Refs

/-- A node's kind is the given one. -/
def isKind (node : Json) (kind : String) : Bool := node.getStr? "kind" == some kind

/-- The name the callee of a call node spells directly. -/
def directCallee? (node : Json) : Option String :=
  if isKind node "call" then
    match node.get? "callee" with
    | some callee => if isKind callee "var" then callee.getStr? "name" else none
    | none => none
  else none

/-- What a dictionary node records before its children are visited: a `fn` node its name,
a call its direct callee, and a variable out of callee position a value reference. -/
def nodeRefs (calleePos : Bool) (node : Json) : Refs :=
  let own : List String :=
    if isKind node "fn" then (node.getStr? "name").toList else []
  match directCallee? node with
  | some name => ⟨own ++ [name], []⟩
  | none =>
    if isKind node "var" && !calleePos then ⟨own, (node.getStr? "name").toList⟩
    else ⟨own, []⟩

/-- An arrow whose suspension belongs to whoever awaits it. -/
def isAsyncArrow (node : Json) : Bool :=
  isKind node "arrow" && Json.truthy? (node.get? "async")

mutual

/-- `_calls_in`: the references of a node. `calleePos` bars the node itself, and not what is
below it, from the value channel. -/
def callsIn (stopAsyncArrows calleePos : Bool) : Json → Refs
  | .obj fields =>
    if stopAsyncArrows && isAsyncArrow (.obj fields) then Refs.none
    else
      nodeRefs calleePos (.obj fields) ++
        callsInFields stopAsyncArrows (isKind (.obj fields) "call") fields
  | .arr items => callsInItems stopAsyncArrows items
  | _ => Refs.none

def callsInItems (stopAsyncArrows : Bool) : List Json → Refs
  | [] => Refs.none
  | item :: items => callsIn stopAsyncArrows false item ++ callsInItems stopAsyncArrows items

def callsInFields (stopAsyncArrows inCall : Bool) : List (String × Json) → Refs
  | [] => Refs.none
  | field :: fields =>
    callsInField stopAsyncArrows inCall field ++ callsInFields stopAsyncArrows inCall fields

def callsInField (stopAsyncArrows inCall : Bool) : String × Json → Refs
  | (key, value) => callsIn stopAsyncArrows (key == "callee" && inCall) value

end

end Revl.Emission
