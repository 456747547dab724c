import Revl.Lib.Assoc

/-!
# JSON values

Values as a Python program holds them after `json.loads`: `null`, booleans, integers,
floats, strings, lists and dictionaries.

- `Json`: the value type; a float is the literal it is written with.
- `Json.get?`: `dict.get`, `none` off a dictionary or an absent key.
- `Json.truthy`: what `if value` sees.
-/

/-- A JSON value. The fields of an object are its bindings in order. -/
inductive Json where
  | null
  | bool (b : Bool)
  | int (n : Int)
  | float (literal : String)
  | str (s : String)
  | arr (items : List Json)
  | obj (fields : List (String × Json))

namespace Json

/-- `value.get(key)` on a dictionary. -/
def get? (v : Json) (key : String) : Option Json :=
  match v with
  | .obj fields => Assoc.get? fields key
  | _ => none

/-- The string a value is. -/
def str? : Json → Option String
  | .str s => some s
  | _ => none

/-- The string bound to `key`. -/
def getStr? (v : Json) (key : String) : Option String := (v.get? key).bind str?

/-- A float literal of value zero: digits, none of them above zero, before an exponent. -/
def zeroFloat (literal : String) : Bool :=
  let mantissa := literal.toList.takeWhile fun c => c != 'e' && c != 'E'
  mantissa.any (·.isDigit) && mantissa.all fun c => !c.isDigit || c == '0'

/-- Python truthiness. -/
def truthy : Json → Bool
  | .null => false
  | .bool b => b
  | .int n => n != 0
  | .float literal => !zeroFloat literal
  | .str s => s != ""
  | .arr items => !items.isEmpty
  | .obj fields => !fields.isEmpty

/-- Truthiness of a lookup, an absent key being `None`. -/
def truthy? : Option Json → Bool
  | none => false
  | some v => v.truthy

/-! ## Decidable equality -/

mutual

/-- Equality of values, decided structurally. -/
def beq : Json → Json → Bool
  | .null, .null => true
  | .bool a, .bool b => a == b
  | .int a, .int b => a == b
  | .float a, .float b => a == b
  | .str a, .str b => a == b
  | .arr a, .arr b => beqItems a b
  | .obj a, .obj b => beqFields a b
  | _, _ => false

def beqItems : List Json → List Json → Bool
  | [], [] => true
  | a :: as, b :: bs => beq a b && beqItems as bs
  | _, _ => false

def beqFields : List (String × Json) → List (String × Json) → Bool
  | [], [] => true
  | a :: as, b :: bs => beqField a b && beqFields as bs
  | _, _ => false

def beqField : String × Json → String × Json → Bool
  | (k, a), (k', b) => k == k' && beq a b

end

mutual

theorem beq_iff : ∀ a b : Json, beq a b = true ↔ a = b
  | .arr a, b => by
    cases b with
    | arr b => rw [beq, beqItems_iff a b, Json.arr.injEq]
    | _ => simp [beq]
  | .obj a, b => by
    cases b with
    | obj b => rw [beq, beqFields_iff a b, Json.obj.injEq]
    | _ => simp [beq]
  | .null, b => by cases b <;> simp [beq]
  | .bool _, b => by cases b <;> simp [beq]
  | .int _, b => by cases b <;> simp [beq]
  | .float _, b => by cases b <;> simp [beq]
  | .str _, b => by cases b <;> simp [beq]

theorem beqItems_iff : ∀ a b : List Json, beqItems a b = true ↔ a = b
  | [], b => by cases b <;> simp [beqItems]
  | x :: a, b => by
    cases b with
    | nil => simp [beqItems]
    | cons y b => rw [beqItems, Bool.and_eq_true, beq_iff x y, beqItems_iff a b, List.cons.injEq]

theorem beqFields_iff : ∀ a b : List (String × Json), beqFields a b = true ↔ a = b
  | [], b => by cases b <;> simp [beqFields]
  | x :: a, b => by
    cases b with
    | nil => simp [beqFields]
    | cons y b =>
      rw [beqFields, Bool.and_eq_true, beqField_iff x y, beqFields_iff a b, List.cons.injEq]

theorem beqField_iff : ∀ a b : String × Json, beqField a b = true ↔ a = b
  | (k, x), (k', y) => by
    rw [beqField, Bool.and_eq_true, beq_iff_eq, beq_iff x y, Prod.mk.injEq]

end

instance : DecidableEq Json := fun a b => decidable_of_iff _ (beq_iff a b)

end Json
