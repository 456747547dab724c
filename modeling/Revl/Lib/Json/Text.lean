import Revl.Lib.Json.Value

/-!
# JSON text as Python writes and reads it

- `Json.dumps`: `json.dumps`: ASCII, `", "` and `": "` between the parts.
- `Json.loads`: `json.loads`; it reads whatever Python does, `NaN` and the infinities included.
- `scan_extends`: a longer text reads the same.
- `scanValue_mono`: more fuel reads the same.

A lone surrogate escape, which a `String` cannot hold, reads as the replacement character.
-/

namespace Json

/-! ## Writing -/

/-- `'{0:04x}'`. -/
def hex4 (n : Nat) : List Char :=
  [(n / 4096 % 16).digitChar, (n / 256 % 16).digitChar, (n / 16 % 16).digitChar,
    (n % 16).digitChar]

/-- The UTF-16 code units of a character. -/
def units (c : Char) : List Nat :=
  if c.toNat < 0x10000 then [c.toNat]
  else [0xD800 + (c.toNat - 0x10000) / 0x400, 0xDC00 + (c.toNat - 0x10000) % 0x400]

/-- The characters that stand for themselves: the space to the tilde. -/
def printable (c : Char) : Bool := 0x20 ≤ c.toNat && c.toNat ≤ 0x7E

/-- A character as it stands between the quotes. -/
def escape (c : Char) : List Char :=
  if c = '"' then ['\\', '"']
  else if c = '\\' then ['\\', '\\']
  else if printable c then [c]
  else if c = '\n' then ['\\', 'n']
  else if c = '\r' then ['\\', 'r']
  else if c = '\t' then ['\\', 't']
  else if c.toNat = 0x0C then ['\\', 'f']
  else if c.toNat = 0x08 then ['\\', 'b']
  else (units c).flatMap fun u => '\\' :: 'u' :: hex4 u

/-- A string with its quotes. -/
def dumpText (s : String) : List Char := '"' :: (s.toList.flatMap escape ++ ['"'])

/-- `int.__repr__`. -/
def dumpInt : Int → List Char
  | .ofNat n => Nat.toDigits 10 n
  | .negSucc n => '-' :: Nat.toDigits 10 (n + 1)

mutual

/-- `json.dumps`. -/
def dumps : Json → List Char
  | .null => ['n', 'u', 'l', 'l']
  | .bool true => ['t', 'r', 'u', 'e']
  | .bool false => ['f', 'a', 'l', 's', 'e']
  | .int n => dumpInt n
  | .float literal => literal.toList
  | .str s => dumpText s
  | .arr items => '[' :: dumpItems items
  | .obj fields => '\x7b' :: dumpFields fields

/-- The items of a list, and its end. -/
def dumpItems : List Json → List Char
  | [] => [']']
  | item :: items => dumps item ++ dumpMoreItems items

def dumpMoreItems : List Json → List Char
  | [] => [']']
  | item :: items => ',' :: ' ' :: (dumps item ++ dumpMoreItems items)

/-- The fields of a dictionary, and its end. -/
def dumpFields : List (String × Json) → List Char
  | [] => ['\x7d']
  | field :: fields => dumpField field ++ dumpMoreFields fields

def dumpMoreFields : List (String × Json) → List Char
  | [] => ['\x7d']
  | field :: fields => ',' :: ' ' :: (dumpField field ++ dumpMoreFields fields)

def dumpField : String × Json → List Char
  | (key, value) => dumpText key ++ (':' :: ' ' :: dumps value)

end

/-! ## Reading -/

def isWs (c : Char) : Bool := c = ' ' || c = '\t' || c = '\n' || c = '\r'

def skipWs (cs : List Char) : List Char := cs.dropWhile isWs

def hexVal? (c : Char) : Option Nat :=
  if '0' ≤ c ∧ c ≤ '9' then some (c.toNat - 48)
  else if 'a' ≤ c ∧ c ≤ 'f' then some (c.toNat - 87)
  else if 'A' ≤ c ∧ c ≤ 'F' then some (c.toNat - 55)
  else none

/-- The code unit of a `\u` escape. -/
def hex4? (a b c d : Char) : Option Nat :=
  match hexVal? a, hexVal? b, hexVal? c, hexVal? d with
  | some a, some b, some c, some d => some (a * 4096 + b * 256 + c * 16 + d)
  | _, _, _, _ => none

/-- The character of a short escape. -/
def shortEscape? (c : Char) : Option Nat :=
  if c = '"' then some 34
  else if c = '\\' then some 92
  else if c = '/' then some 47
  else if c = 'b' then some 8
  else if c = 'f' then some 12
  else if c = 'n' then some 10
  else if c = 'r' then some 13
  else if c = 't' then some 9
  else none

/-- One code unit in front of what the rest of a string reads as. -/
def pushUnit (u : Nat) (read : Option (List Nat × List Char)) : Option (List Nat × List Char) :=
  read.map fun p => (u :: p.1, p.2)

/-- A string after its first quote: its code units, and what stands after its last. -/
def scanUnits : List Char → Option (List Nat × List Char)
  | [] => none
  | c :: cs =>
    if c = '"' then some ([], cs)
    else if c = '\\' then
      match cs with
      | [] => none
      | e :: cs' =>
        if e = 'u' then
          match cs' with
          | h₁ :: h₂ :: h₃ :: h₄ :: rest =>
            match hex4? h₁ h₂ h₃ h₄ with
            | some u => pushUnit u (scanUnits rest)
            | none => none
          | _ => none
        else
          match shortEscape? e with
          | some u => pushUnit u (scanUnits cs')
          | none => none
    else if c.toNat < 0x20 then none
    else pushUnit c.toNat (scanUnits cs)

/-- The character of a code unit that is not part of a pair. -/
def charOf (u : Nat) : Char := if Nat.isValidChar u then Char.ofNat u else '\ufffd'

/-- Code units as characters, a high surrogate joined with the low one after it. -/
def joinUnits : List Nat → List Char
  | [] => []
  | [u] => [charOf u]
  | u :: v :: rest =>
    if 0xD800 ≤ u ∧ u < 0xDC00 ∧ 0xDC00 ≤ v ∧ v < 0xE000 then
      charOf (0x10000 + (u - 0xD800) * 0x400 + (v - 0xDC00)) :: joinUnits rest
    else charOf u :: joinUnits (v :: rest)

/-- A string after its first quote. -/
def scanText (cs : List Char) : Option (String × List Char) :=
  (scanUnits cs).map fun p => (String.ofList (joinUnits p.1), p.2)

/-- The characters a number is made of. -/
def numChar (c : Char) : Bool := c.isDigit || c = '+' || c = '-' || c = '.' || c = 'e' || c = 'E'

/-- An exponent, or nothing. -/
def exponentOk : List Char → Bool
  | [] => true
  | c :: cs =>
    let digits := match cs with
      | '+' :: rest => rest
      | '-' :: rest => rest
      | rest => rest
    (c = 'e' || c = 'E') && !digits.isEmpty && digits.all Char.isDigit

/-- A fraction and an exponent, one of them at least. -/
def fractionOk : List Char → Bool
  | '.' :: cs => !(cs.takeWhile Char.isDigit).isEmpty && exponentOk (cs.dropWhile Char.isDigit)
  | cs => !cs.isEmpty && exponentOk cs

/-- A number, as a whole. -/
def number? (cs : List Char) : Option Json :=
  let negative := cs.head? == some '-'
  let body := if negative then cs.tail else cs
  let digits := body.takeWhile Char.isDigit
  let rest := body.dropWhile Char.isDigit
  if digits = [] ∨ (digits.head? = some '0' ∧ digits ≠ ['0']) then none
  else if rest = [] then
    let n : Int := Nat.ofDigitChars 10 digits 0
    some (.int (if negative then -n else n))
  else if fractionOk rest then some (.float (String.ofList cs))
  else none

/-- A number, as long as its characters go on. What Python leaves of a shorter one is an error
at the next token. -/
def scanNumber (cs : List Char) : Option (Json × List Char) :=
  (number? (cs.takeWhile numChar)).map fun v => (v, cs.dropWhile numChar)

/-- The rest of a word that stands for a value. -/
def scanWord (word : List Char) (v : Json) (cs : List Char) : Option (Json × List Char) :=
  if word.isPrefixOf cs then some (v, cs.drop word.length) else none

/-- A value that is neither a string, a list nor a dictionary. -/
def scanAtom (cs : List Char) : Option (Json × List Char) :=
  match cs with
  | [] => none
  | c :: rest =>
    if c = 'n' then scanWord ['u', 'l', 'l'] .null rest
    else if c = 't' then scanWord ['r', 'u', 'e'] (.bool true) rest
    else if c = 'f' then scanWord ['a', 'l', 's', 'e'] (.bool false) rest
    else if c = 'N' then scanWord ['a', 'N'] (.float "NaN") rest
    else if c = 'I' then scanWord "nfinity".toList (.float "Infinity") rest
    else if c = '-' ∧ rest.head? = some 'I' then
      scanWord "Infinity".toList (.float "-Infinity") rest
    else scanNumber cs

/-- The members of a list or a dictionary, after its bracket. -/
def scanGroup {α : Type} (close : Char) (members : List Char → Option (List α × List Char))
    (cs : List Char) : Option (List α × List Char) :=
  if (skipWs cs).head? = some close then some ([], (skipWs cs).tail) else members (skipWs cs)

/-- What follows a member: the end, or a comma and more members. -/
def scanMore {α : Type} (close : Char) (members : List Char → Option (List α × List Char))
    (member : α) (cs : List Char) : Option (List α × List Char) :=
  match skipWs cs with
  | [] => none
  | d :: rest =>
    if d = close then some ([member], rest)
    else if d = ',' then (members (skipWs rest)).map fun p => (member :: p.1, p.2)
    else none

/-- A key and its colon. -/
def scanKey : List Char → Option (String × List Char)
  | [] => none
  | c :: cs =>
    if c = '"' then
      match scanText cs with
      | none => none
      | some (key, rest) =>
        match skipWs rest with
        | [] => none
        | d :: rest => if d = ':' then some (key, rest) else none
    else none

mutual

/-- A value. -/
def scanValue : Nat → List Char → Option (Json × List Char)
  | 0, _ => none
  | _ + 1, [] => none
  | n + 1, c :: cs =>
    if c = '"' then (scanText cs).map fun p => (.str p.1, p.2)
    else if c = '\x7b' then (scanGroup '\x7d' (scanFields n) cs).map fun p => (.obj p.1, p.2)
    else if c = '[' then (scanGroup ']' (scanItems n) cs).map fun p => (.arr p.1, p.2)
    else scanAtom (c :: cs)

/-- The items of a list, to its end. -/
def scanItems : Nat → List Char → Option (List Json × List Char)
  | 0, _ => none
  | n + 1, cs =>
    match scanValue n cs with
    | none => none
    | some (v, rest) => scanMore ']' (scanItems n) v rest

/-- The fields of a dictionary, to its end. -/
def scanFields : Nat → List Char → Option (List (String × Json) × List Char)
  | 0, _ => none
  | n + 1, cs =>
    match scanKey cs with
    | none => none
    | some (key, rest) =>
      match scanValue n (skipWs rest) with
      | none => none
      | some (v, rest) => scanMore '\x7d' (scanFields n) (key, v) rest

end

/-- `json.loads`: `none` is its `JSONDecodeError`. -/
def loads (cs : List Char) : Option Json :=
  match scanValue (cs.length + 1) (skipWs cs) with
  | none => none
  | some (v, rest) => if skipWs rest = [] then some v else none

/-! ## A longer text reads the same -/

/-- What a number ends before. -/
def Stops (cs : List Char) : Prop := ∀ c ∈ cs.head?, numChar c = false

theorem stops_cons {c : Char} (hc : numChar c = false) (cs : List Char) : Stops (c :: cs) :=
  fun _ hd => Option.some.inj hd ▸ hc

theorem skipWs_append {cs r : List Char} {d : Char} (h : skipWs cs = d :: r) (q : List Char) :
    skipWs (cs ++ q) = d :: (r ++ q) := by
  unfold skipWs at *
  rw [List.dropWhile_append, h]
  rfl

/-- What a value is followed by, in a list or a dictionary, ends a number. -/
theorem stops_of_skipWs {cs r : List Char} {d : Char} (h : skipWs cs = d :: r)
    (hd : numChar d = false) (q : List Char) : Stops (cs ++ q) := by
  cases cs with
  | nil => cases h
  | cons c cs =>
    intro c' hc'
    obtain rfl : c = c' := by simpa using hc'
    by_cases hws : isWs c = true
    · unfold isWs at hws
      simp only [Bool.or_eq_true, decide_eq_true_eq] at hws
      rcases hws with ((rfl | rfl) | rfl) | rfl <;> rfl
    · unfold skipWs at h
      rw [List.dropWhile_cons_of_neg hws] at h
      obtain ⟨rfl, -⟩ := List.cons.inj h
      exact hd

theorem scanNumber_append {cs rest : List Char} {v : Json} (h : scanNumber cs = some (v, rest))
    {q : List Char} (hq : Stops (rest ++ q)) : scanNumber (cs ++ q) = some (v, rest ++ q) := by
  unfold scanNumber at *
  obtain ⟨n, hn, heq⟩ := Option.map_eq_some_iff.1 h
  obtain ⟨rfl, rfl⟩ := Prod.mk.inj heq
  have htake : (cs ++ q).takeWhile numChar = cs.takeWhile numChar ∧
      (cs ++ q).dropWhile numChar = cs.dropWhile numChar ++ q := by
    rw [List.takeWhile_append, List.dropWhile_append]
    cases hrest : cs.dropWhile numChar with
    | nil =>
      have hall : cs.takeWhile numChar = cs := by
        have := List.takeWhile_append_dropWhile (p := numChar) (l := cs)
        rwa [hrest, List.append_nil] at this
      rw [hrest] at hq
      cases q with
      | nil => simp [hall]
      | cons c q =>
        have hc : numChar c = false := hq c rfl
        simp [hall, hc]
    | cons c r =>
      have hlen : (cs.takeWhile numChar).length ≠ cs.length := by
        have := congrArg List.length (List.takeWhile_append_dropWhile (p := numChar) (l := cs))
        rw [List.length_append, hrest, List.length_cons] at this
        omega
      simp [hlen]
  rw [htake.1, htake.2, hn]
  rfl

theorem scanWord_append {word cs rest : List Char} {v v' : Json}
    (h : scanWord word v cs = some (v', rest)) (q : List Char) :
    scanWord word v (cs ++ q) = some (v', rest ++ q) := by
  unfold scanWord at *
  split_ifs at h with hword
  obtain ⟨rfl, rfl⟩ := Prod.mk.inj (Option.some.inj h)
  have hlonger : word.isPrefixOf cs = true := hword
  rw [List.isPrefixOf_iff_prefix] at hword
  have hword' := hword.trans (List.prefix_append cs q)
  rw [if_pos (List.isPrefixOf_iff_prefix.2 hword'), List.drop_append_of_le_length hword.length_le]

theorem scanAtom_append {cs rest : List Char} {v : Json} (h : scanAtom cs = some (v, rest))
    {q : List Char} (hq : Stops (rest ++ q)) : scanAtom (cs ++ q) = some (v, rest ++ q) := by
  cases cs with
  | nil => cases h
  | cons c cs =>
    rw [List.cons_append]
    unfold scanAtom at *
    simp only at h ⊢
    split_ifs at h with hn ht hf hN hI hminus
    · rw [if_pos hn]
      exact scanWord_append h q
    · rw [if_neg hn, if_pos ht]
      exact scanWord_append h q
    · rw [if_neg hn, if_neg ht, if_pos hf]
      exact scanWord_append h q
    · rw [if_neg hn, if_neg ht, if_neg hf, if_pos hN]
      exact scanWord_append h q
    · rw [if_neg hn, if_neg ht, if_neg hf, if_neg hN, if_pos hI]
      exact scanWord_append h q
    · have hminus' : c = '-' ∧ (cs ++ q).head? = some 'I' := by
        refine ⟨hminus.1, ?_⟩
        rw [List.head?_append, hminus.2]
        rfl
      rw [if_neg hn, if_neg ht, if_neg hf, if_neg hN, if_neg hI, if_pos hminus']
      exact scanWord_append h q
    · have hminus' : ¬(c = '-' ∧ (cs ++ q).head? = some 'I') := by
        rintro ⟨rfl, hhead⟩
        cases cs with
        | nil =>
          -- a lone minus is no number
          cases h
        | cons d cs => exact hminus ⟨rfl, by simpa using hhead⟩
      rw [if_neg hn, if_neg ht, if_neg hf, if_neg hN, if_neg hI, if_neg hminus']
      exact scanNumber_append h hq

theorem pushUnit_eq_some {u : Nat} {read : Option (List Nat × List Char)} {us : List Nat}
    {rest : List Char} (h : pushUnit u read = some (us, rest)) :
    ∃ us', read = some (us', rest) ∧ us = u :: us' := by
  obtain ⟨⟨us', rest'⟩, hread, heq⟩ := Option.map_eq_some_iff.1 h
  obtain ⟨rfl, rfl⟩ := Prod.mk.inj heq
  exact ⟨us', hread, rfl⟩

/-! ### Strings, one character at a time -/

theorem scanUnits_quote (cs : List Char) : scanUnits ('"' :: cs) = some ([], cs) := by
  rw [scanUnits.eq_def]
  rfl

theorem scanUnits_hex {h₁ h₂ h₃ h₄ : Char} {u : Nat} (h : hex4? h₁ h₂ h₃ h₄ = some u)
    (cs : List Char) :
    scanUnits ('\\' :: 'u' :: h₁ :: h₂ :: h₃ :: h₄ :: cs) = pushUnit u (scanUnits cs) := by
  rw [scanUnits.eq_def]
  simp [h]

theorem scanUnits_short {e : Char} {u : Nat} (hu : e ≠ 'u') (h : shortEscape? e = some u)
    (cs : List Char) : scanUnits ('\\' :: e :: cs) = pushUnit u (scanUnits cs) := by
  rw [scanUnits.eq_def]
  simp [hu, h]

theorem scanUnits_plain {c : Char} (hquote : c ≠ '"') (hslash : c ≠ '\\')
    (hcontrol : ¬c.toNat < 0x20) (cs : List Char) :
    scanUnits (c :: cs) = pushUnit c.toNat (scanUnits cs) := by
  rw [scanUnits.eq_def]
  simp only [if_neg hquote, if_neg hslash, if_neg hcontrol]

theorem pushUnit_append {u : Nat} {cs rest q : List Char} {us : List Nat}
    (h : pushUnit u (scanUnits cs) = some (us, rest))
    (ih : ∀ {rest us}, scanUnits cs = some (us, rest) → scanUnits (cs ++ q) = some (us, rest ++ q)) :
    pushUnit u (scanUnits (cs ++ q)) = some (us, rest ++ q) := by
  obtain ⟨us', hread, rfl⟩ := pushUnit_eq_some h
  rw [ih hread]
  rfl

theorem scanUnits_append {cs rest : List Char} {us : List Nat}
    (h : scanUnits cs = some (us, rest)) (q : List Char) :
    scanUnits (cs ++ q) = some (us, rest ++ q) := by
  fun_induction scanUnits cs generalizing us rest with
  | case1 => cases h
  | case2 cs =>
    obtain ⟨rfl, rfl⟩ := Prod.mk.inj (Option.some.inj h)
    exact scanUnits_quote _
  | case3 => cases h
  | case4 h₁ h₂ h₃ h₄ cs u hhex hquote ih =>
    show scanUnits ('\\' :: 'u' :: h₁ :: h₂ :: h₃ :: h₄ :: (cs ++ q)) = _
    rw [scanUnits_hex hhex]
    exact pushUnit_append h ih
  | case5 => cases h
  | case6 => cases h
  | case7 e cs hu u hshort hquote ih =>
    show scanUnits ('\\' :: e :: (cs ++ q)) = _
    rw [scanUnits_short hu hshort]
    exact pushUnit_append h ih
  | case8 => cases h
  | case9 => cases h
  | case10 c cs hquote hslash hcontrol ih =>
    rw [List.cons_append, scanUnits_plain hquote hslash hcontrol]
    exact pushUnit_append h ih

/-! ### Values -/

/-- A scanner that reads the same from a longer text. -/
def Extends {α : Type} (scan : List Char → Option (α × List Char)) : Prop :=
  ∀ ⦃cs rest a⦄, scan cs = some (a, rest) → ∀ q, scan (cs ++ q) = some (a, rest ++ q)

theorem Extends.map {α β : Type} {scan : List Char → Option (α × List Char)} (h : Extends scan)
    (f : α → β) {cs rest : List Char} {b : β}
    (hb : (scan cs).map (fun p => (f p.1, p.2)) = some (b, rest)) (q : List Char) :
    (scan (cs ++ q)).map (fun p => (f p.1, p.2)) = some (b, rest ++ q) := by
  obtain ⟨⟨a, r⟩, hread, heq⟩ := Option.map_eq_some_iff.1 hb
  obtain ⟨rfl, rfl⟩ := Prod.mk.inj heq
  rw [h hread q]
  rfl

theorem scanText_extends : Extends scanText := by
  intro cs rest s h q
  unfold scanText at *
  obtain ⟨⟨us, rest'⟩, hread, heq⟩ := Option.map_eq_some_iff.1 h
  obtain ⟨rfl, rfl⟩ := Prod.mk.inj heq
  rw [scanUnits_append hread q]
  rfl

section Members

variable {α : Type} {members : List Char → Option (List α × List Char)}
  (hmembers : Extends members) (hnil : members [] = none)

include hmembers hnil

/-- Members that were read started somewhere, and do in the longer text. -/
theorem members_skipWs {cs rest : List Char} {l : List α}
    (h : members (skipWs cs) = some (l, rest)) (q : List Char) :
    skipWs (cs ++ q) = skipWs cs ++ q ∧ members (skipWs (cs ++ q)) = some (l, rest ++ q) := by
  cases hcs : skipWs cs with
  | nil =>
    rw [hcs, hnil] at h
    cases h
  | cons d r =>
    have hskip : skipWs (cs ++ q) = (d :: r) ++ q := skipWs_append hcs q
    rw [hskip]
    rw [hcs] at h
    exact ⟨rfl, hmembers h q⟩

theorem scanGroup_extends (close : Char) : Extends (scanGroup close members) := by
  intro cs rest l h q
  unfold scanGroup at *
  split_ifs at h with hempty
  · obtain ⟨r, hr⟩ := List.head?_eq_some_iff.1 hempty
    obtain ⟨rfl, rfl⟩ := Prod.mk.inj (Option.some.inj h)
    rw [skipWs_append hr, hr]
    simp
  · obtain ⟨hskip, hread⟩ := members_skipWs hmembers hnil h q
    have hne : skipWs cs ≠ [] := by
      intro hcs
      rw [hcs, hnil] at h
      cases h
    have hhead : (skipWs (cs ++ q)).head? ≠ some close := by
      rwa [hskip, List.head?_append_of_ne_nil _ hne]
    rw [if_neg hhead, hread]

theorem scanMore_extends (close : Char) (member : α) :
    Extends (scanMore close members member) := by
  intro cs rest l h q
  unfold scanMore at *
  cases hcs : skipWs cs with
  | nil => simp [hcs] at h
  | cons d r =>
    simp only [hcs, skipWs_append hcs] at h ⊢
    split_ifs at h ⊢ with hclose hcomma
    · obtain ⟨rfl, rfl⟩ := Prod.mk.inj (Option.some.inj h)
      rfl
    · obtain ⟨⟨l', r'⟩, hread, heq⟩ := Option.map_eq_some_iff.1 h
      obtain ⟨rfl, rfl⟩ := Prod.mk.inj heq
      rw [(members_skipWs hmembers hnil hread q).2]
      rfl

end Members

/-- What a member was followed by ended a number. -/
theorem stops_of_scanMore {α : Type} {close : Char} (hclose : numChar close = false)
    {members : List Char → Option (List α × List Char)} {member : α} {cs rest : List Char}
    {l : List α} (h : scanMore close members member cs = some (l, rest)) (q : List Char) :
    Stops (cs ++ q) := by
  unfold scanMore at h
  cases hcs : skipWs cs with
  | nil => simp [hcs] at h
  | cons d r =>
    simp only [hcs] at h
    split_ifs at h with hd hcomma
    · exact stops_of_skipWs hcs (hd ▸ hclose) q
    · exact stops_of_skipWs hcs (hcomma ▸ rfl) q

theorem scanKey_extends : Extends scanKey := by
  intro cs rest key h q
  cases cs with
  | nil => cases h
  | cons c cs =>
    rw [List.cons_append]
    unfold scanKey at *
    simp only at h ⊢
    split_ifs at h ⊢ with hquote
    cases htext : scanText cs with
    | none => simp [htext] at h
    | some p =>
      obtain ⟨s, r⟩ := p
      simp only [htext, scanText_extends htext q] at h ⊢
      cases hr : skipWs r with
      | nil => simp [hr] at h
      | cons d r' =>
        simp only [hr, skipWs_append hr] at h ⊢
        split_ifs at h ⊢ with hcolon
        obtain ⟨rfl, rfl⟩ := Prod.mk.inj (Option.some.inj h)
        rfl

theorem scanValue_nil (n : Nat) : scanValue n [] = none := by cases n <;> rfl

theorem scanItems_nil (n : Nat) : scanItems n [] = none := by
  cases n with
  | zero => rfl
  | succ n => simp [scanItems, scanValue_nil]

theorem scanFields_nil (n : Nat) : scanFields n [] = none := by cases n <;> rfl

/-- Lists and dictionaries read the same from a longer text, and so does a value where what
follows it ends a number. -/
theorem scan_extends (n : Nat) :
    (∀ {cs rest v q}, scanValue n cs = some (v, rest) → Stops (rest ++ q) →
        scanValue n (cs ++ q) = some (v, rest ++ q)) ∧
      Extends (scanItems n) ∧ Extends (scanFields n) := by
  induction n with
  | zero =>
    refine ⟨?_, ?_, ?_⟩
    · intro cs rest v q h
      cases h
    · intro cs rest v h
      cases h
    · intro cs rest v h
      cases h
  | succ n ih =>
    obtain ⟨ihvalue, ihitems, ihfields⟩ := ih
    refine ⟨?_, ?_, ?_⟩
    · intro cs rest v q h hq
      cases cs with
      | nil => cases h
      | cons c cs =>
        rw [List.cons_append]
        rw [scanValue] at h ⊢
        split_ifs at h ⊢
        · exact scanText_extends.map _ h q
        · exact (scanGroup_extends ihfields (scanFields_nil n) _).map _ h q
        · exact (scanGroup_extends ihitems (scanItems_nil n) _).map _ h q
        · exact scanAtom_append h hq
    · intro cs rest l h q
      rw [scanItems] at h ⊢
      cases hvalue : scanValue n cs with
      | none => simp [hvalue] at h
      | some p =>
        obtain ⟨v, r⟩ := p
        simp only [hvalue] at h
        have hstops := stops_of_scanMore rfl h q
        simp only [ihvalue hvalue hstops]
        exact scanMore_extends ihitems (scanItems_nil n) _ v h q
    · intro cs rest l h q
      rw [scanFields] at h ⊢
      cases hkey : scanKey cs with
      | none => simp [hkey] at h
      | some p =>
        obtain ⟨key, r⟩ := p
        simp only [hkey, scanKey_extends hkey q] at h ⊢
        cases hvalue : scanValue n (skipWs r) with
        | none => simp [hvalue] at h
        | some p =>
          obtain ⟨v, r'⟩ := p
          simp only [hvalue] at h
          have hstops := stops_of_scanMore rfl h q
          -- the value starts in the text already read
          have hskip : skipWs (r ++ q) = skipWs r ++ q := by
            cases hr : skipWs r with
            | nil =>
              rw [hr, scanValue_nil] at hvalue
              cases hvalue
            | cons d r'' => exact skipWs_append hr q
          simp only [hskip, ihvalue hvalue hstops]
          exact scanMore_extends ihfields (scanFields_nil n) _ (key, v) h q

/-! ### Fuel -/

/-- A scanner that reads whatever another one reads, the same way. -/
def Above {β : Type} (scan scan' : List Char → Option β) : Prop :=
  ∀ ⦃cs a⦄, scan cs = some a → scan' cs = some a

theorem Above.map {β γ : Type} {scan scan' : List Char → Option β} (h : Above scan scan')
    (f : β → γ) {cs : List Char} {c : γ} (hc : (scan cs).map f = some c) :
    (scan' cs).map f = some c := by
  obtain ⟨b, hb, rfl⟩ := Option.map_eq_some_iff.1 hc
  rw [h hb]
  rfl

theorem scanGroup_above {α : Type} {members members' : List Char → Option (List α × List Char)}
    (h : Above members members') (close : Char) :
    Above (scanGroup close members) (scanGroup close members') := by
  intro cs a ha
  unfold scanGroup at *
  split_ifs at ha ⊢
  · exact ha
  · exact h ha

theorem scanMore_above {α : Type} {members members' : List Char → Option (List α × List Char)}
    (h : Above members members') (close : Char) (member : α) :
    Above (scanMore close members member) (scanMore close members' member) := by
  intro cs a ha
  unfold scanMore at *
  cases hcs : skipWs cs with
  | nil => simp [hcs] at ha
  | cons d r =>
    simp only [hcs] at ha ⊢
    split_ifs at ha ⊢
    · exact ha
    · exact h.map _ ha

/-- More fuel reads the same. -/
theorem scan_succ (n : Nat) :
    Above (scanValue n) (scanValue (n + 1)) ∧ Above (scanItems n) (scanItems (n + 1)) ∧
      Above (scanFields n) (scanFields (n + 1)) := by
  induction n with
  | zero =>
    refine ⟨?_, ?_, ?_⟩
    · intro cs a h
      cases h
    · intro cs a h
      cases h
    · intro cs a h
      cases h
  | succ n ih =>
    obtain ⟨ihvalue, ihitems, ihfields⟩ := ih
    refine ⟨?_, ?_, ?_⟩
    · intro cs a h
      cases cs with
      | nil => cases h
      | cons c cs =>
        rw [scanValue] at h ⊢
        split_ifs at h ⊢
        · exact h
        · exact (scanGroup_above ihfields _).map _ h
        · exact (scanGroup_above ihitems _).map _ h
        · exact h
    · intro cs a h
      rw [scanItems] at h ⊢
      cases hvalue : scanValue n cs with
      | none => simp [hvalue] at h
      | some p =>
        simp only [hvalue, ihvalue hvalue] at h ⊢
        exact scanMore_above ihitems _ p.1 h
    · intro cs a h
      rw [scanFields] at h ⊢
      cases hkey : scanKey cs with
      | none => simp [hkey] at h
      | some p =>
        simp only [hkey] at h ⊢
        cases hvalue : scanValue n (skipWs p.2) with
        | none => simp [hvalue] at h
        | some p' =>
          simp only [hvalue, ihvalue hvalue] at h ⊢
          exact scanMore_above ihfields _ (p.1, p'.1) h

theorem scanValue_mono {n m : Nat} (h : n ≤ m) : Above (scanValue n) (scanValue m) := by
  induction h with
  | refl => exact fun _ _ h => h
  | step _ ih => exact fun cs a ha => (scan_succ _).1 (ih ha)

end Json
