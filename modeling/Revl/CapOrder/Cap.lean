import Revl.Lib.Assoc
import Revl.Lib.PyText

/-!
# Parameterized capabilities (`cap_order.py`)

A capability is a token with a valuation of its parameters. The values are
canonical: a path is its component list, a discrete value its string, a ceiling
its integer, and a symbol the spelling a spawn site or a caller resolves later.

- `ParamValue`, `Cap`: the values and the pair `(T, P)`.
- `orderOf`, `canonValue`, `makeCap`: the registry and the one canonical point.
- `paramLeq`, `covers`, `disjoint`, `coversSet`: the order, read off the values.
- `substitute`: a spawn site's literal bindings replace `config.` symbols.
-/

namespace Revl.CapOrder

open PyText

/-- A malformed or unregistered capability. -/
structure CapError where
  message : String
  hint : Option String
  deriving DecidableEq, Repr

/-- A canonical parameter value; its constructor carries the value's order. -/
inductive ParamValue where
  | symbol (ref : String)
  | path (components : List String)
  | ceiling (n : Int)
  | discrete (s : String)
  deriving DecidableEq, Repr

/-- The prefix that marks a per-instance symbol. -/
def configPrefix : List Char := "config.".toList

/-- `Symbol.is_arg`: the symbol names the enclosing declaration's own parameter. -/
def isArg (ref : String) : Bool := !configPrefix.isPrefixOf ref.toList

/-- `Symbol.field`: what follows the first dot, or the whole spelling without one. -/
def symbolField (ref : String) : String :=
  if '.' ∈ ref.toList then String.ofList ((ref.toList.dropWhile (· ≠ '.')).drop 1) else ref

/-- `Symbol.is_symbol` on a value. -/
def ParamValue.isSymbol : ParamValue → Bool
  | .symbol _ => true
  | _ => false

/-- A capability: a token and its parameters, sorted by name. -/
structure Cap where
  token : String
  params : List (String × ParamValue)
  deriving DecidableEq, Repr

/-! ## The registry -/

inductive ParamKind where
  | resource
  | ceiling
  deriving DecidableEq, Repr

inductive ParamOrder where
  | path
  | discrete
  | ceiling
  | bytes
  | duration
  deriving DecidableEq, Repr

/-- The kinds a `capability` declaration may choose for its own dimensions. -/
inductive CoreKind where
  | path
  | discrete
  | ceiling
  deriving DecidableEq, Repr

/-- `_KIND_ORDERS`. -/
def kindOrders : CoreKind → ParamKind × ParamOrder
  | .path => (.resource, .path)
  | .discrete => (.resource, .discrete)
  | .ceiling => (.ceiling, .ceiling)

/-- `_REGISTRY`. -/
def registry : List (String × (ParamKind × ParamOrder)) :=
  [("path", (.resource, .path)), ("host", (.resource, .discrete)),
    ("table", (.resource, .discrete)), ("calls", (.ceiling, .ceiling)),
    ("size", (.ceiling, .bytes)), ("time", (.ceiling, .duration))]

/-- `_ALIASES`. -/
def aliases : List (String × String) :=
  [("requests", "calls"), ("bytes", "size")]

/-- `_normalize`. -/
def normalize (name : String) : String :=
  (Assoc.get? aliases name).getD name

/-- The declaration in force for a capability: none in scope, the sentinel of a stored
read, or the capability's own dimensions. -/
inductive Declared where
  | absent
  | admitUnknown
  | dims (kinds : List (String × CoreKind))
  deriving DecidableEq, Repr

/-- The names a declaration holds. -/
def Declared.names : Declared → List String
  | .dims kinds => kinds.map Prod.fst
  | _ => []

/-- `declared_order`. -/
def declaredOrder (name : String) : Declared → Option (ParamKind × ParamOrder)
  | .dims kinds => (Assoc.get? kinds name).map kindOrders
  | _ => none

/-- The row of a parameter name, the core registry first. -/
def orderRow (name : String) (declared : Declared) : Option (ParamKind × ParamOrder) :=
  (Assoc.get? registry name).or (declaredOrder name declared)

/-- `is_registered`. -/
def isRegistered (name : String) (declared : Declared) : Bool :=
  (Assoc.get? registry (normalize name)).isSome || (declaredOrder name declared).isSome

/-- `registered_names`. -/
def registeredNames (declared : Declared) : List String :=
  (registry.map Prod.fst ++ aliases.map Prod.fst ++ declared.names).dedup.insertionSort (· ≤ ·)

/-! ## Canonical values -/

/-- The `/`-separated parts of a path body. -/
def splitSlash : List Char → List (List Char)
  | [] => [[]]
  | c :: rest =>
    if c = '/' then [] :: splitSlash rest
    else
      match splitSlash rest with
      | part :: parts => (c :: part) :: parts
      | [] => [[c]]

/-- The components of a path, each checked in turn. -/
def pathComponents (raw : String) : List (List Char) → Except CapError (List String)
  | [] => .ok []
  | part :: parts =>
    if part = [] then
      .error ⟨s!"path value `{raw}` has an empty component (a `//`)",
        some "write each component once, separated by a single `/`"⟩
    else if part = ['.'] ∨ part = ['.', '.'] then
      .error ⟨s!"path value `{raw}` has a `{String.ofList part}` component",
        some ("the static path order is lexical and does not resolve " ++
          "`.`/`..`; spell the canonical path")⟩
    else do
      let rest ← pathComponents raw parts
      .ok (String.ofList part :: rest)

/-- `_canon_path`: an absolute path as its component list. -/
def canonPath (raw : String) : Except CapError (List String) :=
  match raw.toList with
  | '/' :: body => do
    let body := if body.getLast? = some '/' then body.dropLast else body
    let components ← pathComponents raw (if body = [] then [] else splitSlash body)
    if components = [] then
      .error ⟨"path value \"/\" narrows nothing",
        some ("a root-wide path is already spelled by the bare token " ++
          "(`fs.write` means all of `fs.write`); a `path=` value must " ++
          "have at least one component")⟩
    else .ok components
  | _ =>
    .error ⟨s!"path value `{raw}` is not absolute",
      some ("a `path=` capability parameter names an absolute path " ++
        "(`path=\"/data/incoming\"`); a relative path has no cone")⟩

/-- `_forbidden_chars`: the first character the token spelling reserves. -/
def forbiddenChars (raw name : String) : Except CapError Unit :=
  match ['"', '(', ')', ',', '='].find? (· ∈ raw.toList) with
  | some ch =>
    .error ⟨s!"capability parameter `{name}` value contains a `{ch}`",
      some ("a capability parameter value may not contain any of " ++
        "`\" ( ) , =` (the token spelling reserves them)")⟩
  | none => .ok ()

/-- `_BYTE_UNITS`, longest suffix first. -/
def byteUnits : List (String × Int) :=
  [("kb", 1024), ("mb", 1024 ^ 2), ("gb", 1024 ^ 3), ("tb", 1024 ^ 4), ("b", 1)]

/-- `_DURATION_UNITS`, longest suffix first. -/
def durationUnits : List (String × Int) :=
  [("ms", 1), ("s", 1000), ("m", 60000), ("h", 3600000)]

/-- `_parse_suffixed`: the first unit the value ends in decides. -/
def parseSuffixed (raw : String) (units : List (String × Int)) (name what sample : String) :
    Except CapError Int :=
  let low := lowerLatin (strip raw.toList)
  let parsed : Option Int :=
    match units.find? fun u => u.1.toList.isSuffixOf low with
    | some (unit, scale) =>
      (parseInt (low.take (low.length - unit.length))).map (· * scale)
    | none => none
  match parsed with
  | some n => .ok n
  | none =>
    let spelled := ", ".intercalate ((units.map Prod.fst).insertionSort (· ≤ ·))
    .error ⟨s!"capability parameter `{name}` value `{raw}` is not {what}",
      some s!"write e.g. `{sample}` (an integer with a unit suffix; units: {spelled})"⟩

/-- A ceiling's refusal of a symbol. -/
def symbolOnCeiling (name ref : String) : CapError :=
  let what := if isArg ref then "an argument-bound" else s!"a per-instance `{ref}`"
  ⟨s!"capability parameter `{name}` is a ceiling and takes a static integer, not {what} value",
    some (s!"write `{name}=10` (a static bound); a per-instance " ++
      "`config.` value or a caller argument bounds a destination " ++
      "(`path`/`host`/`table`), not a count")⟩

/-- The ceiling branch of `_canon_value`. -/
def canonCeiling (name : String) : ParamValue → Except CapError ParamValue
  | .ceiling n =>
    if n < 0 then
      .error ⟨s!"capability parameter `{name}={n}` is negative",
        some "a ceiling is a count of at most N; write a non-negative integer"⟩
    else .ok (.ceiling n)
  | _ =>
    .error ⟨s!"capability parameter `{name}` expects an integer ceiling",
      some s!"write `{name}=10` (a numeric bound); `{name}` is a ceiling parameter"⟩

/-- The byte and duration branch of `_canon_value`: an integer, or a suffixed string. -/
def canonBudget (units : List (String × Int)) (name what sample : String) :
    ParamValue → Except CapError ParamValue
  | .ceiling n =>
    if n < 0 then
      .error ⟨s!"capability parameter `{name}={n}` is negative",
        some "a ceiling is at most N; write a non-negative value"⟩
    else .ok (.ceiling n)
  | .discrete s => do
    let n ← parseSuffixed s units name what sample
    .ok (.ceiling n)
  | _ =>
    .error ⟨s!"capability parameter `{name}` expects an integer or a unit-suffixed string",
      none⟩

/-- A resource kind's refusal of anything but a string. -/
def expectsString (name : String) : CapError :=
  ⟨s!"capability parameter `{name}` expects a string value",
    some s!"write `{name}=\"...\"` (a string literal)"⟩

/-- The path branch of `_canon_value`: a component list passes, a string is parsed. -/
def canonPathValue (name : String) : ParamValue → Except CapError ParamValue
  | .path components => .ok (.path components)
  | .discrete s => do
    forbiddenChars s name
    let components ← canonPath s
    .ok (.path components)
  | _ => .error (expectsString name)

/-- The discrete branch of `_canon_value`. -/
def canonDiscreteValue (name : String) : ParamValue → Except CapError ParamValue
  | .discrete s => do
    forbiddenChars s name
    .ok (.discrete s)
  | _ => .error (expectsString name)

/-- `_canon_value` on a value that is no symbol, by the order of its name. -/
def canonByOrder (name : String) : ParamOrder → ParamValue → Except CapError ParamValue
  | .ceiling, v => canonCeiling name v
  | .bytes, v => canonBudget byteUnits name "a byte size" "bytes=\"10MB\"" v
  | .duration, v => canonBudget durationUnits name "a duration" "time=\"2s\"" v
  | .path, v => canonPathValue name v
  | .discrete, v => canonDiscreteValue name v

/-- `_canon_value`: check a raw value against the order its name denotes. -/
def canonValue (name : String) (value : ParamValue) (declared : Declared) :
    Except CapError ParamValue :=
  match orderRow name declared with
  | none => .error ⟨s!"unknown capability parameter `{name}`", none⟩
  | some (kind, order) =>
    match value with
    | .symbol ref =>
      if kind = .ceiling then .error (symbolOnCeiling name ref) else .ok (.symbol ref)
    | v => canonByOrder name order v

/-! ## Construction -/

/-- One parameter of `_make_cap`: a registered name is canonicalized, an unknown one is
kept as it is by a stored read and refused otherwise. -/
def canonParam (rawName : String) (value : ParamValue) (declared : Declared) :
    Except CapError ParamValue :=
  if isRegistered rawName declared then canonValue (normalize rawName) value declared
  else if declared = .admitUnknown then .ok value
  else
    let names := ", ".intercalate ((registeredNames declared).map fun n => s!"`{n}`")
    .error ⟨s!"unknown capability parameter `{normalize rawName}`",
      some (s!"the capability parameter registry is closed; known parameters are {names} " ++
        "(a typo narrows nothing and is refused rather than silently ignored)")⟩

/-- The loop of `_make_cap`, `seen` holding the names already bound. -/
def canonParams (declared : Declared) :
    List String → List (String × ParamValue) → Except CapError (List (String × ParamValue))
  | _, [] => .ok []
  | seen, (rawName, value) :: rest =>
    let name := normalize rawName
    if name ∈ seen then
      .error ⟨s!"duplicate capability parameter `{rawName}`", some "bind each parameter once"⟩
    else do
      let v ← canonParam rawName value declared
      let canon ← canonParams declared (name :: seen) rest
      .ok ((name, v) :: canon)

/-- Python's `sort(key=lambda kv: kv[0])`. -/
def sortByName (params : List (String × ParamValue)) : List (String × ParamValue) :=
  params.insertionSort fun p q => p.1 ≤ q.1

/-- `_make_cap`: the one canonical point a capability is built at. -/
def makeCap (token : String) (raw : List (String × ParamValue)) (declared : Declared) :
    Except CapError Cap :=
  if token = "" then .error ⟨"empty capability token", none⟩
  else if token = "*" ∧ raw ≠ [] then
    .error ⟨"`*` takes no capability parameters",
      some ("an unnameable reach cannot be bounded by name (the same rule " ++
        "that refuses approving `*`); drop the parameter list")⟩
  else do
    let canon ← canonParams declared [] raw
    .ok ⟨token, sortByName canon⟩

/-- One parameter of `substitute`: a bound `config.` symbol becomes its literal. -/
def resolveParam (bindings : List (String × String)) : ParamValue → ParamValue
  | .symbol ref =>
    if isArg ref then .symbol ref
    else
      match Assoc.get? bindings (symbolField ref) with
      | some literal => .discrete literal
      | none => .symbol ref
  | v => v

/-- The declaration `substitute` canonicalizes under: a stored read when none is given. -/
def Declared.orAdmit : Declared → Declared
  | .absent => .admitUnknown
  | d => d

/-- `substitute`: resolve a capability's per-instance symbols at a spawn site. -/
def substitute (c : Cap) (bindings : List (String × String)) (declared : Declared) :
    Except CapError Cap :=
  if c.params.any fun p => p.2.isSymbol then
    makeCap c.token (c.params.map fun p => (p.1, resolveParam bindings p.2)) declared.orAdmit
  else .ok c

/-! ## The order -/

/-- `_leq_path`: the wider path's components are a prefix of the narrower one's. -/
def leqPath (narrow wide : List String) : Bool :=
  if wide.length > narrow.length then false
  else decide (narrow.take wide.length = wide)

/-- `_param_leq`: the value order, chosen by the values' own kinds. -/
def paramLeq (narrow wide : ParamValue) : Bool :=
  if narrow.isSymbol || wide.isSymbol then decide (narrow = wide)
  else
    match narrow, wide with
    | .path n, .path w => leqPath n w
    | .ceiling n, .ceiling w => decide (n ≤ w)
    | _, _ => decide (narrow = wide)

@[simp] theorem paramLeq_ceiling (n w : Int) :
    paramLeq (.ceiling n) (.ceiling w) = true ↔ n ≤ w := by
  simp [paramLeq, ParamValue.isSymbol]

/-- The loop body of `covers`: `b` binds the parameter, to a value at or below it. -/
def narrowsParam (b : Cap) (p : String × ParamValue) : Bool :=
  match Assoc.get? b.params p.1 with
  | none => false
  | some bv => paramLeq bv p.2

/-- `covers`: `b` is at or below `a`. -/
def covers (a b : Cap) : Bool :=
  if a.token = "*" then decide (b.token = "*")
  else if b.token = "*" then false
  else if a.token ≠ b.token then false
  else a.params.all (narrowsParam b)

/-- `disjoint`: two capabilities can never touch the same declared resource. -/
def disjoint (a b : Cap) : Bool :=
  if a.token = "*" || b.token = "*" then false else decide (a.token ≠ b.token)

/-- `covered_by_any`. -/
def coveredByAny (held : List Cap) (c : Cap) : Bool := held.any fun h => covers h c

/-- `covers_set`: the reached capabilities no held one covers. -/
def coversSet (held reach : List Cap) : List Cap := reach.filter fun c => !coveredByAny held c

end Revl.CapOrder
