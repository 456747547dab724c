import Revl.Lib.Json.Value

/-!
# How Python prints a JSON value

- `reprStr`: `repr` of a string, with its quotes and escapes.
- `Json.pyRepr`: `repr` of a value.
- `pyTuple`: `repr` of a tuple whose items are printed already.
- `pyNone`: an optional string in an f-string, `None` when it is absent.
-/

namespace Json

/-- The assigned code points `str.isprintable` rejects: controls, format characters,
separators other than the space, and private use. -/
def unprintable : List (Nat × Nat) :=
  [(0x0, 0x1F), (0x7F, 0xA0), (0xAD, 0xAD), (0x600, 0x605), (0x61C, 0x61C), (0x6DD, 0x6DD),
    (0x70F, 0x70F), (0x890, 0x891), (0x8E2, 0x8E2), (0x1680, 0x1680), (0x180E, 0x180E),
    (0x2000, 0x200F), (0x2028, 0x202F), (0x205F, 0x2064), (0x2066, 0x206F),
    (0x3000, 0x3000), (0xE000, 0xF8FF), (0xFEFF, 0xFEFF), (0xFFF9, 0xFFFB),
    (0x110BD, 0x110BD), (0x110CD, 0x110CD), (0x13430, 0x1343F), (0x1BCA0, 0x1BCA3),
    (0x1D173, 0x1D17A), (0xE0001, 0xE0001), (0xE0020, 0xE007F), (0xF0000, 0xFFFFD),
    (0x100000, 0x10FFFD)]

/-- A number in lower-case hexadecimal, padded with zeros to a width. -/
def hex (width n : Nat) : List Char :=
  let digits := Nat.toDigits 16 n
  List.replicate (width - digits.length) '0' ++ digits

/-- One character of a `repr`, inside the given quote. -/
def reprChar (quote c : Char) : List Char :=
  if c = quote ∨ c = '\\' then ['\\', c]
  else if c = '\n' then ['\\', 'n']
  else if c = '\r' then ['\\', 'r']
  else if c = '\t' then ['\\', 't']
  else if unprintable.any fun r => r.1 ≤ c.toNat && c.toNat ≤ r.2 then
    if c.toNat < 0x100 then ['\\', 'x'] ++ hex 2 c.toNat
    else if c.toNat < 0x10000 then ['\\', 'u'] ++ hex 4 c.toNat
    else ['\\', 'U'] ++ hex 8 c.toNat
  else [c]

/-- `repr` of a string: single quotes, unless it holds one and no double quote. -/
def reprStr (s : String) : String :=
  let quote := if '\'' ∈ s.toList ∧ '"' ∉ s.toList then '"' else '\''
  String.ofList (quote :: (s.toList.flatMap (reprChar quote) ++ [quote]))

/-- `repr` of a float, whose literal is its `repr` but for the names of the non-numbers. -/
def reprFloat (literal : String) : String :=
  if literal = "NaN" then "nan"
  else if literal = "Infinity" then "inf"
  else if literal = "-Infinity" then "-inf"
  else literal

mutual

/-- `repr` of a value. -/
def pyRepr : Json → String
  | .null => "None"
  | .bool true => "True"
  | .bool false => "False"
  | .int n => toString n
  | .float literal => reprFloat literal
  | .str s => reprStr s
  | .arr items => "[" ++ ", ".intercalate (pyReprItems items) ++ "]"
  | .obj fields => "\x7b" ++ ", ".intercalate (pyReprFields fields) ++ "\x7d"

def pyReprItems : List Json → List String
  | [] => []
  | item :: items => pyRepr item :: pyReprItems items

def pyReprFields : List (String × Json) → List String
  | [] => []
  | field :: fields => pyReprField field :: pyReprFields fields

def pyReprField : String × Json → String
  | (key, value) => reprStr key ++ ": " ++ pyRepr value

end

/-- `str` of a value: a string is itself. -/
def pyStr : Json → String
  | .str s => s
  | v => pyRepr v

/-- A tuple of printed items. -/
def pyTuple : List String → String
  | [] => "()"
  | [item] => "(" ++ item ++ ",)"
  | items => "(" ++ ", ".intercalate items ++ ")"

/-- An optional string in an f-string. -/
def pyNone (s : Option String) : String := s.getD "None"

/-- `repr` of an optional string. -/
def reprNone (s : Option String) : String := (s.map reprStr).getD "None"

example : pyRepr (.arr [.str "it's", .null, .int (-3)]) = "[\"it's\", None, -3]" := by decide

end Json
