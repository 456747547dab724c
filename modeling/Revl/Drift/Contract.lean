import Revl.Drift.Audit

/-!
# What a contract field admits (`run.py`)

The host injects the values of the boot component's contract. A value is held against its field's
declared type, then against its declared bound.

- `normpath`, `underViolation`: whether a path stays under a prefix, as texts.
- `Injected`, `pyEq`: the values a host can inject, and how one equals a literal.
- `Field.admits`: whether a field admits a value.
-/

namespace Revl.Drift

variable {F : Type}

/-! ## Fields -/

/-- The field of a name: of fields of one name the last. -/
def Audit.field? (audit : Audit F) (name : Name) : Option (Field F) :=
  Assoc.get? (audit.env.map fun field => (field.name, field)) name

theorem field?_mem {audit : Audit F} {name : Name} {field : Field F}
    (h : audit.field? name = some field) : field ∈ audit.env ∧ field.name = name := by
  obtain ⟨f, hf, heq⟩ := List.mem_map.mp (Assoc.mem_of_get? h)
  obtain ⟨rfl, rfl⟩ := Prod.mk.inj heq
  exact ⟨hf, rfl⟩

theorem field?_isSome {audit : Audit F} {field : Field F} (h : field ∈ audit.env) :
    (audit.field? field.name).isSome = true :=
  Assoc.get?_isSome_of_mem (List.mem_map_of_mem (f := fun field => (field.name, field)) h)

/-! ## Paths -/

def slashes (path : List Char) : List (List Char) := path.splitOn '/'

/-- The segments left of a path's, with the ones kept so far, the last kept one first. -/
def keepSegments (absolute : Bool) : List (List Char) → List (List Char) → List (List Char)
  | kept, [] => kept
  | kept, segment :: rest =>
    if segment = [] ∨ segment = ['.'] then keepSegments absolute kept rest
    else if segment ≠ ['.', '.'] ∨ (absolute = false ∧ kept = []) ∨
        kept.head? = some ['.', '.'] then
      keepSegments absolute (segment :: kept) rest
    else keepSegments absolute kept.tail rest

/-- `os.path.normpath`. -/
def normpath (path : List Char) : List Char :=
  let root : List Char :=
    if path.take 2 = ['/', '/'] ∧ path.take 3 ≠ ['/', '/', '/'] then ['/', '/']
    else if path.head? = some '/' then ['/']
    else []
  let normal := root ++
    ['/'].intercalate (keepSegments (!root.isEmpty) [] (slashes path)).reverse
  if normal = [] then ['.'] else normal

/-- `os.path.isabs`. -/
def isabs (path : List Char) : Bool := path.head? = some '/'

def rstripSlashes (path : List Char) : List Char := (path.reverse.dropWhile (· = '/')).reverse

/-! ## Values -/

/-- A value the host injects: one a literal can spell, or a collection or a date. -/
inductive Injected (F : Type) where
  | literal (l : Literal F)
  | compound

local instance lawfulSegment : LawfulBEq (List Char) := inferInstance

/-- `_under_violation`: why a value escapes the prefix. -/
def underViolation (value : Injected F) (path : String) : Option String :=
  match value with
  | .literal (.str s) =>
    let text := s.toList
    let base := path.toList
    if ['.', '.'] ∈ slashes (text.map fun c => if c = '\\' then '/' else c) then
      some "the value walks up out of the prefix with `..`"
    else if isabs text ≠ isabs base then
      let kind := if isabs text then "absolute" else "relative"
      let other := if isabs text then "relative" else "absolute"
      some ("the value is " ++ kind ++ " and the prefix is " ++ other ++
        ", so it cannot be inside it")
    else if normpath text = normpath base ∨
        (rstripSlashes (normpath base) ++ ['/']) <+: normpath text then none
    else some "the value resolves outside the prefix"
  | _ => some "the value is not a string, so it cannot be a path"

variable [Floats F]

/-- `==` on literals: a truth value counts as the number it is. -/
def Literal.pyEq : Literal F → Literal F → Bool
  | str s, str t => s = t
  | int n, int m => n = m
  | bool b, bool c => b = c
  | int n, bool b | bool b, int n => n = (if b then 1 else 0 : Int)
  | float x, float y => Floats.eq x y
  | float x, int n | int n, float x => Floats.eqInt x n
  | float x, bool b | bool b, float x => Floats.eqInt x (if b then 1 else 0)
  | null, null => true
  | _, _ => false

/-- The check of `_ENV_TYPE_CHECKS`: a truth value is no `Int`, and a type not listed checks
nothing. -/
def typeAdmits (type : String) (value : Injected F) : Bool :=
  if type = "Str" then value matches .literal (.str _)
  else if type = "Int" then value matches .literal (.int _)
  else if type = "Float" then value matches .literal (.int _) | .literal (.float _)
  else if type = "Bool" then value matches .literal (.bool _)
  else true

/-- The part of `_contract_violations` about the bound. -/
def boundAdmits : Option (Bound F) → Injected F → Bool
  | none, _ => true
  | some (.under path), value => (underViolation value path).isNone
  | some (.oneOf values), .literal l => values.any l.pyEq
  | some (.oneOf _), .compound => false

/-- Whether `_contract_violations` has nothing to say of a field's value. -/
def Field.admits (field : Field F) (value : Injected F) : Bool :=
  typeAdmits field.type value && boundAdmits field.bound value

end Revl.Drift
