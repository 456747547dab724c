import Revl.CapOrder.Cap

/-!
# Reading a capability spelling (`cap_order.py`)

- `parseValue`: a quoted string, a symbol, or an integer.
- `splitParams`: the pieces between top-level commas.
- `parseCap`, `parseStoredCap`: a canonical spelling as a `Cap`, through `makeCap`.
-/

namespace Revl.CapOrder

open PyText

/-- `_ARGUMENT_RE`: a bare ASCII identifier. -/
def isArgumentName : List Char → Bool
  | [] => false
  | c :: rest => (c.isAlpha || c == '_') && rest.all fun d => d.isAlphanum || d == '_'

/-- `_parse_value`. -/
def parseValue (raw : List Char) : Except CapError ParamValue :=
  if 2 ≤ raw.length ∧ raw.head? = some '"' ∧ raw.getLast? = some '"' then
    .ok (.discrete (String.ofList (raw.drop 1).dropLast))
  else if configPrefix.isPrefixOf raw || isArgumentName raw then
    .ok (.symbol (String.ofList raw))
  else
    match parseInt raw with
    | some n => .ok (.ceiling n)
    | none => .error ⟨s!"malformed capability parameter value `{String.ofList raw}`", none⟩

/-- `_split_params`, `current` being the piece read so far. -/
def splitParams (inStr : Bool) (current : List Char) : List Char → List (List Char)
  | [] => [current]
  | ch :: rest =>
    if ch = '"' then splitParams (!inStr) (current ++ [ch]) rest
    else if ch = ',' ∧ inStr = false then current :: splitParams inStr [] rest
    else splitParams inStr (current ++ [ch]) rest

/-- One `name=value` piece. -/
def parseParam (piece : List Char) : Except CapError (String × ParamValue) :=
  if '=' ∈ piece then do
    let value ← parseValue (strip ((piece.dropWhile (· ≠ '=')).drop 1))
    .ok (String.ofList (strip (piece.takeWhile (· ≠ '='))), value)
  else .error ⟨s!"malformed capability parameter `{String.ofList piece}`", none⟩

/-- `parse_cap`. -/
def parseCap (text : String) (declared : Declared) : Except CapError Cap :=
  let chars := text.toList
  if '(' ∉ chars then makeCap text [] declared
  else if chars.getLast? ≠ some ')' then
    .error ⟨s!"malformed capability parameter list in `{text}`", none⟩
  else do
    let token := String.ofList (chars.takeWhile (· ≠ '('))
    let inner := ((chars.dropWhile (· ≠ '(')).drop 1).dropLast
    let raw ← if strip inner = [] then .ok [] else (splitParams false [] inner).mapM parseParam
    makeCap token raw declared

/-- `parse_stored_cap`: the declaration that named the parameters is not in scope. -/
def parseStoredCap (text : String) : Except CapError Cap := parseCap text .admitUnknown

example : parseStoredCap "fs.write(path=\"/tmp/\",size=10)" =
    .ok ⟨"fs.write", [("path", .path ["tmp"]), ("size", .ceiling 10)]⟩ := by rfl

end Revl.CapOrder
