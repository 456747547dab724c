import Revl.Lib.Json.Text
import Revl.Lib.Decimal

/-!
# What JSON text was written is read back

- `loads_dumps`: **what was written is read back**.
- `loads_cut`: **no proper beginning of a written object reads as anything**.
- `loads_joined`: **nor does a written object with more text after it**.
- `dumps_printable`: what was written is the space to the tilde, on one line.
-/

namespace Json

open PyText (isDigit_toDigits toDigits_head)

/-- A float literal as `float.__repr__` prints one. -/
def floatOk (literal : String) : Bool :=
  ["NaN", "Infinity", "-Infinity"].contains literal ||
    (literal.toList.all numChar && number? literal.toList == some (.float literal))

mutual

/-- Whether every float of a value has a literal a float prints as. -/
def floatsOk : Json → Bool
  | .float literal => floatOk literal
  | .arr items => itemsOk items
  | .obj fields => fieldsOk fields
  | _ => true

def itemsOk : List Json → Bool
  | [] => true
  | item :: items => floatsOk item && itemsOk items

def fieldsOk : List (String × Json) → Bool
  | [] => true
  | field :: fields => fieldOk field && fieldsOk fields

def fieldOk : String × Json → Bool
  | (_, value) => floatsOk value

end

theorem hexVal?_digitChar {d : Nat} (hd : d < 16) : hexVal? d.digitChar = some d := by
  have : ∀ d, d < 16 → hexVal? d.digitChar = some d := by decide
  exact this d hd

theorem hex4?_hex4 {u : Nat} (hu : u < 0x10000) :
    hex4? (u / 4096 % 16).digitChar (u / 256 % 16).digitChar (u / 16 % 16).digitChar
      (u % 16).digitChar = some u := by
  unfold hex4?
  rw [hexVal?_digitChar (Nat.mod_lt _ (by omega)), hexVal?_digitChar (Nat.mod_lt _ (by omega)),
    hexVal?_digitChar (Nat.mod_lt _ (by omega)), hexVal?_digitChar (Nat.mod_lt _ (by omega))]
  simp only [Option.some.injEq]
  omega

/-- Code units in front of what the rest reads as. -/
def pushUnits (us : List Nat) (read : Option (List Nat × List Char)) :
    Option (List Nat × List Char) := read.map fun p => (us ++ p.1, p.2)

theorem pushUnits_nil (read : Option (List Nat × List Char)) : pushUnits [] read = read := by
  cases read <;> rfl

theorem pushUnits_cons (u : Nat) (us : List Nat) (read : Option (List Nat × List Char)) :
    pushUnits (u :: us) read = pushUnit u (pushUnits us read) := by
  cases read <;> rfl

theorem scanUnits_hex4s {us : List Nat} (hus : ∀ u ∈ us, u < 0x10000) (cs : List Char) :
    scanUnits (us.flatMap (fun u => '\\' :: 'u' :: hex4 u) ++ cs) =
      pushUnits us (scanUnits cs) := by
  induction us with
  | nil => rw [pushUnits_nil, List.flatMap_nil, List.nil_append]
  | cons u us ih =>
    rw [List.flatMap_cons, List.append_assoc, pushUnits_cons,
      ← ih fun v hv => hus v (List.mem_cons_of_mem u hv)]
    exact scanUnits_hex (hex4?_hex4 (hus u List.mem_cons_self)) _

theorem toNat_valid (c : Char) : c.toNat < 0xD800 ∨ 0xDFFF < c.toNat ∧ c.toNat < 0x110000 := by
  have hvalid : Nat.isValidChar c.toNat := c.valid
  unfold Nat.isValidChar at hvalid
  omega

theorem units_lt (c : Char) : ∀ u ∈ units c, u < 0x10000 := by
  intro u hu
  have hvalid := toNat_valid c
  unfold units at hu
  split_ifs at hu
  · have hu' := List.mem_singleton.1 hu
    omega
  · rcases List.mem_cons.1 hu with hhigh | hlow
    · omega
    · have hlow' := List.mem_singleton.1 hlow
      omega

/-- An escaped character reads as its code units. -/
theorem scanUnits_escape (c : Char) (cs : List Char) :
    scanUnits (escape c ++ cs) = pushUnits (units c) (scanUnits cs) := by
  have hsmall : c.toNat < 0x10000 → pushUnits (units c) (scanUnits cs) =
      pushUnit c.toNat (scanUnits cs) := by
    intro h
    rw [units, if_pos h, pushUnits_cons, pushUnits_nil]
  unfold escape
  split_ifs with hquote hslash hplain hn hr ht hf hb
  · subst hquote
    rw [hsmall (by decide)]
    exact scanUnits_short (by decide) rfl cs
  · subst hslash
    rw [hsmall (by decide)]
    exact scanUnits_short (by decide) rfl cs
  · unfold printable at hplain
    simp only [Bool.and_eq_true, decide_eq_true_eq] at hplain
    rw [hsmall (by omega)]
    exact scanUnits_plain hquote hslash (by omega) cs
  · subst hn
    rw [hsmall (by decide)]
    exact scanUnits_short (by decide) rfl cs
  · subst hr
    rw [hsmall (by decide)]
    exact scanUnits_short (by decide) rfl cs
  · subst ht
    rw [hsmall (by decide)]
    exact scanUnits_short (by decide) rfl cs
  · rw [hsmall (by omega), hf]
    exact scanUnits_short (by decide) rfl cs
  · rw [hsmall (by omega), hb]
    exact scanUnits_short (by decide) rfl cs
  · exact scanUnits_hex4s (units_lt c) cs

theorem scanUnits_escapes (s rest : List Char) :
    scanUnits (s.flatMap escape ++ '"' :: rest) = some (s.flatMap units, rest) := by
  induction s with
  | nil => exact scanUnits_quote rest
  | cons c s ih =>
    rw [List.flatMap_cons, List.append_assoc, scanUnits_escape, ih]
    rfl

theorem charOf_toNat (c : Char) : charOf c.toNat = c := by
  unfold charOf
  rw [if_pos (show Nat.isValidChar c.toNat from c.valid), Char.ofNat_toNat]

/-- The code units of a character join to it. -/
theorem joinUnits_units (c : Char) (us : List Nat) :
    joinUnits (units c ++ us) = c :: joinUnits us := by
  have hvalid := toNat_valid c
  unfold units
  split_ifs with hsmall
  · cases us with
    | nil =>
      show [charOf c.toNat] = _
      rw [charOf_toNat]
      rfl
    | cons v us =>
      have hpair : ¬(0xD800 ≤ c.toNat ∧ c.toNat < 0xDC00 ∧ 0xDC00 ≤ v ∧ v < 0xE000) := by
        omega
      rw [List.singleton_append, joinUnits, if_neg hpair, charOf_toNat]
  · have hpair : 0xD800 ≤ 0xD800 + (c.toNat - 0x10000) / 0x400 ∧
        0xD800 + (c.toNat - 0x10000) / 0x400 < 0xDC00 ∧
        0xDC00 ≤ 0xDC00 + (c.toNat - 0x10000) % 0x400 ∧
        0xDC00 + (c.toNat - 0x10000) % 0x400 < 0xE000 := by omega
    have hjoin : 0x10000 + (0xD800 + (c.toNat - 0x10000) / 0x400 - 0xD800) * 0x400 +
        (0xDC00 + (c.toNat - 0x10000) % 0x400 - 0xDC00) = c.toNat := by omega
    rw [List.cons_append, List.singleton_append, joinUnits, if_pos hpair, hjoin, charOf_toNat]

theorem joinUnits_flatMap (s : List Char) : joinUnits (s.flatMap units) = s := by
  induction s with
  | nil => rfl
  | cons c s ih => rw [List.flatMap_cons, joinUnits_units, ih]

theorem scanText_dump (s : String) (rest : List Char) :
    scanText (s.toList.flatMap escape ++ '"' :: rest) = some (s, rest) := by
  unfold scanText
  rw [scanUnits_escapes, Option.map_some, joinUnits_flatMap, String.ofList_toList]

/-! ### Numbers -/

theorem numChar_of_isDigit {c : Char} (h : c.isDigit = true) : numChar c = true := by
  unfold numChar
  rw [h]
  rfl

theorem takeWhile_digits (n : Nat) :
    (Nat.toDigits 10 n).takeWhile Char.isDigit = Nat.toDigits 10 n ∧
      (Nat.toDigits 10 n).dropWhile Char.isDigit = [] :=
  ⟨List.takeWhile_eq_self_iff.2 (isDigit_toDigits n),
    List.dropWhile_eq_nil_iff.2 (isDigit_toDigits n)⟩

/-- The digits of a number, and a sign, read as it. -/
theorem number?_digits {cs : List Char} (negative : Bool) (n : Nat)
    (hhead : (cs.head? == some '-') = negative)
    (hbody : (if negative = true then cs.tail else cs) = Nat.toDigits 10 n) :
    number? cs = some (.int (if negative = true then -(n : Int) else n)) := by
  obtain ⟨htake, hdrop⟩ := takeWhile_digits n
  have hnum : ¬(Nat.toDigits 10 n = [] ∨
      (Nat.toDigits 10 n).head? = some '0' ∧ Nat.toDigits 10 n ≠ ['0']) := by
    rintro (hnil | ⟨hzero, hlong⟩)
    · exact Nat.toDigits_ne_nil hnil
    · obtain ⟨c, cs, hc, hne⟩ := (toDigits_head n).resolve_left hlong
      rw [hc] at hzero
      exact hne (Option.some.inj hzero)
  unfold number?
  simp only [hhead, hbody, htake, hdrop, if_neg hnum, if_true, Nat.ofDigitChars_ten_toDigits]

theorem digits_head_ne_minus (n : Nat) : ((Nat.toDigits 10 n).head? == some '-') = false := by
  by_contra h
  have hminus : (Nat.toDigits 10 n).head? = some '-' := by simpa using h
  have := isDigit_toDigits n '-' (List.mem_of_mem_head? hminus)
  exact absurd this (by decide)

theorem number?_dumpInt (n : Int) : number? (dumpInt n) = some (.int n) := by
  cases n with
  | ofNat n =>
    show number? (Nat.toDigits 10 n) = _
    rw [number?_digits false n (digits_head_ne_minus n) rfl]
    rfl
  | negSucc n =>
    show number? ('-' :: Nat.toDigits 10 (n + 1)) = _
    rw [number?_digits true (n + 1) rfl rfl]
    rfl

theorem dumpInt_numChar (n : Int) : ∀ c ∈ dumpInt n, numChar c = true := by
  intro c hc
  cases n with
  | ofNat n => exact numChar_of_isDigit (isDigit_toDigits n c hc)
  | negSucc n =>
    rcases List.mem_cons.1 hc with rfl | hc
    · rfl
    · exact numChar_of_isDigit (isDigit_toDigits (n + 1) c hc)

theorem dumpInt_ne_nil (n : Int) : dumpInt n ≠ [] := by
  cases n with
  | ofNat n => exact Nat.toDigits_ne_nil
  | negSucc n => exact List.cons_ne_nil _ _

theorem scanNumber_append_stop {cs : List Char} {v : Json} (hnum : ∀ c ∈ cs, numChar c = true)
    (hv : number? cs = some v) {rest : List Char} (hrest : Stops rest) :
    scanNumber (cs ++ rest) = some (v, rest) := by
  have hwhole : scanNumber cs = some (v, []) := by
    unfold scanNumber
    rw [List.takeWhile_eq_self_iff.2 hnum, List.dropWhile_eq_nil_iff.2 hnum, hv]
    rfl
  exact scanNumber_append hwhole hrest

/-- No value but a number starts with a number's character. -/
theorem scanValue_number {cs : List Char} {v : Json} (hne : cs ≠ [])
    (hnum : ∀ c ∈ cs, numChar c = true) (hv : number? cs = some v) {rest : List Char}
    (hrest : Stops rest) (n : Nat) : scanValue (n + 1) (cs ++ rest) = some (v, rest) := by
  have hscan := scanNumber_append_stop hnum hv hrest
  cases cs with
  | nil => exact absurd rfl hne
  | cons c cs =>
    have hc : numChar c = true := hnum c List.mem_cons_self
    have hother : ∀ d : Char, numChar d = false → c ≠ d := by
      rintro d hd rfl
      rw [hc] at hd
      cases hd
    have hinfinity : ¬(c = '-' ∧ (cs ++ rest).head? = some 'I') := by
      rintro ⟨rfl, hI⟩
      cases cs with
      | nil => simp [number?] at hv
      | cons d cs =>
        obtain rfl : d = 'I' := by simpa using hI
        exact absurd (hnum 'I' (by simp)) (by decide)
    rw [List.cons_append, scanValue, if_neg (hother _ rfl), if_neg (hother _ rfl),
      if_neg (hother _ rfl)]
    unfold scanAtom
    simp only
    rw [if_neg (hother _ rfl), if_neg (hother _ rfl), if_neg (hother _ rfl),
      if_neg (hother _ rfl), if_neg (hother _ rfl), if_neg hinfinity]
    exact hscan

/-! ### Values -/

theorem dumpText_append (s : String) (rest : List Char) :
    dumpText s ++ rest = '"' :: (s.toList.flatMap escape ++ '"' :: rest) := by
  unfold dumpText
  rw [List.cons_append, List.append_assoc]
  rfl

theorem floatOk_cases {literal : String} (h : floatOk literal = true) :
    (literal = "NaN" ∨ literal = "Infinity" ∨ literal = "-Infinity") ∨
      (∀ c ∈ literal.toList, numChar c = true) ∧
        number? literal.toList = some (.float literal) := by
  unfold floatOk at h
  rcases Bool.or_eq_true _ _ ▸ h with hname | hnum
  · left
    simpa using hname
  · right
    rw [Bool.and_eq_true, List.all_eq_true, beq_iff_eq] at hnum
    exact hnum

/-- A value with no parts starts with a character of a number, of a word or of a string. -/
theorem dumps_first {v : Json} (hitems : ∀ items, v ≠ .arr items)
    (hfields : ∀ fields, v ≠ .obj fields) (hv : floatsOk v = true) :
    ∃ c cs, dumps v = c :: cs ∧ (numChar c = true ∨ c ∈ ['n', 't', 'f', 'N', 'I', '"']) := by
  have hnumber : ∀ cs : List Char, cs ≠ [] → (∀ c ∈ cs, numChar c = true) →
      ∃ c cs', cs = c :: cs' ∧ (numChar c = true ∨ c ∈ ['n', 't', 'f', 'N', 'I', '"']) := by
    intro cs hne hnum
    obtain ⟨c, cs, rfl⟩ := List.exists_cons_of_ne_nil hne
    exact ⟨c, cs, rfl, .inl (hnum c List.mem_cons_self)⟩
  cases v with
  | null => exact ⟨_, _, rfl, by decide⟩
  | bool b => cases b <;> exact ⟨_, _, rfl, by decide⟩
  | int n => exact hnumber _ (dumpInt_ne_nil n) (dumpInt_numChar n)
  | float literal =>
    show ∃ c cs, literal.toList = c :: cs ∧ _
    rcases floatOk_cases hv with (rfl | rfl | rfl) | ⟨hnum, hread⟩
    · exact ⟨_, _, rfl, by decide⟩
    · exact ⟨_, _, rfl, by decide⟩
    · exact ⟨_, _, rfl, by decide⟩
    · refine hnumber _ ?_ hnum
      intro hnil
      rw [hnil] at hread
      cases hread
  | str s => exact ⟨_, _, rfl, by decide⟩
  | arr items => exact absurd rfl (hitems items)
  | obj fields => exact absurd rfl (hfields fields)

/-- What a value is written with starts like a value. -/
theorem dumps_head {v : Json} (hv : floatsOk v = true) :
    ∃ c cs, dumps v = c :: cs ∧ isWs c = false ∧ c ≠ ']' := by
  cases v with
  | arr items => exact ⟨_, _, rfl, rfl, by decide⟩
  | obj fields => exact ⟨_, _, rfl, rfl, by decide⟩
  | _ =>
    obtain ⟨c, cs, heq, hc⟩ := dumps_first (by rintro _ ⟨⟩) (by rintro _ ⟨⟩) hv
    refine ⟨c, cs, heq, ?_, ?_⟩
    · by_contra hws
      simp only [isWs, Bool.not_eq_false, Bool.or_eq_true, decide_eq_true_eq] at hws
      rcases hws with ((rfl | rfl) | rfl) | rfl <;> exact absurd hc (by decide)
    · rintro rfl
      exact absurd hc (by decide)

theorem skipWs_dumps {v : Json} (hv : floatsOk v = true) (rest : List Char) :
    skipWs (dumps v ++ rest) = dumps v ++ rest := by
  obtain ⟨c, cs, heq, hws, -⟩ := dumps_head hv
  rw [heq, List.cons_append]
  unfold skipWs
  rw [List.dropWhile_cons_of_neg (by rw [hws]; exact Bool.false_ne_true)]

theorem scanKey_dumpText (key : String) (rest : List Char) :
    scanKey (dumpText key ++ ':' :: rest) = some (key, rest) := by
  rw [dumpText_append]
  unfold scanKey
  simp only [if_true, scanText_dump]
  rfl

/-- What a member is followed by, where it is not the last. -/
theorem scanMore_comma {α : Type} {close : Char} (hclose : close ≠ ',')
    {members : List Char → Option (List α × List Char)} {cs rest : List Char} {l : List α}
    (hws : skipWs cs = cs) (h : members cs = some (l, rest)) (member : α) :
    scanMore close members member (',' :: ' ' :: cs) = some (member :: l, rest) := by
  have hcs : skipWs (' ' :: cs) = cs := hws
  show (if ',' = close then some ([member], ' ' :: cs)
    else if ',' = ',' then (members (skipWs (' ' :: cs))).map fun p => (member :: p.1, p.2)
    else none) = _
  rw [if_neg (Ne.symm hclose), if_pos rfl, hcs, h]
  rfl

theorem scanMore_close {α : Type} {close : Char} (hclose : isWs close = false)
    (members : List Char → Option (List α × List Char)) (rest : List Char) (member : α) :
    scanMore close members member (close :: rest) = some ([member], rest) := by
  have hskip : skipWs (close :: rest) = close :: rest := by
    unfold skipWs
    rw [List.dropWhile_cons_of_neg (by rw [hclose]; exact Bool.false_ne_true)]
  unfold scanMore
  rw [hskip]
  simp only [if_true]

theorem dumpMoreItems_stops (items : List Json) (rest : List Char) :
    Stops (dumpMoreItems items ++ rest) := by
  cases items with
  | nil => exact stops_cons rfl _
  | cons item items => exact stops_cons rfl _

theorem dumpMoreFields_stops (fields : List (String × Json)) (rest : List Char) :
    Stops (dumpMoreFields fields ++ rest) := by
  cases fields with
  | nil => exact stops_cons rfl _
  | cons field fields => exact stops_cons rfl _

theorem dumpMoreItems_cons (item : Json) (items : List Json) :
    dumpMoreItems (item :: items) = ',' :: ' ' :: dumpItems (item :: items) := by
  rw [dumpMoreItems, dumpItems]

theorem dumpMoreFields_cons (field : String × Json) (fields : List (String × Json)) :
    dumpMoreFields (field :: fields) = ',' :: ' ' :: dumpFields (field :: fields) := by
  rw [dumpMoreFields, dumpFields]

theorem skipWs_dumpItems {items : List Json} (hitems : itemsOk items = true)
    (rest : List Char) : skipWs (dumpItems items ++ rest) = dumpItems items ++ rest := by
  cases items with
  | nil => rfl
  | cons item items =>
    rw [itemsOk, Bool.and_eq_true] at hitems
    rw [dumpItems, List.append_assoc, skipWs_dumps hitems.1]

/-- The text of a dictionary that is not empty starts with its first key. -/
theorem dumpFields_head (field : String × Json) (fields : List (String × Json)) :
    ∃ cs, dumpFields (field :: fields) = '"' :: cs := by
  obtain ⟨key, value⟩ := field
  exact ⟨_, rfl⟩

theorem skipWs_dumpFields (fields : List (String × Json)) (rest : List Char) :
    skipWs (dumpFields fields ++ rest) = dumpFields fields ++ rest := by
  cases fields with
  | nil => rfl
  | cons field fields =>
    obtain ⟨cs, heq⟩ := dumpFields_head field fields
    rw [heq]
    rfl

/-- The text of a list that is not empty does not start with its end. -/
theorem head_dumpItems {item : Json} (hitem : floatsOk item = true) (items : List Json)
    (rest : List Char) : (dumpItems (item :: items) ++ rest).head? ≠ some ']' := by
  obtain ⟨c, cs, heq, -, hc⟩ := dumps_head hitem
  rw [dumpItems, heq]
  simpa using hc

mutual

/-- What a value is written as reads as it, whatever stands after it. -/
theorem scanValue_dumps : ∀ (v : Json) (n : Nat) (rest : List Char), floatsOk v = true →
    (dumps v).length ≤ n → Stops rest → scanValue n (dumps v ++ rest) = some (v, rest)
  | v, 0, rest, hv, hn, _ => by
    obtain ⟨c, cs, heq, -⟩ := dumps_head hv
    rw [heq] at hn
    simp at hn
  | .null, n + 1, rest, _, _, _ => by simp [dumps, scanValue, scanAtom, scanWord]
  | .bool true, n + 1, rest, _, _, _ => by simp [dumps, scanValue, scanAtom, scanWord]
  | .bool false, n + 1, rest, _, _, _ => by simp [dumps, scanValue, scanAtom, scanWord]
  | .int i, n + 1, rest, _, _, hrest =>
    scanValue_number (dumpInt_ne_nil i) (dumpInt_numChar i) (number?_dumpInt i) hrest n
  | .float literal, n + 1, rest, hv, _, hrest => by
    show scanValue (n + 1) (literal.toList ++ rest) = _
    rcases floatOk_cases hv with (rfl | rfl | rfl) | ⟨hnum, hread⟩
    · simp [scanValue, scanAtom, scanWord]
    · simp [scanValue, scanAtom, scanWord]
    · simp [scanValue, scanAtom, scanWord]
    · refine scanValue_number ?_ hnum hread hrest n
      intro hnil
      rw [hnil] at hread
      cases hread
  | .str s, n + 1, rest, _, _, _ => by
    rw [dumps, dumpText_append, scanValue, if_pos rfl, scanText_dump]
    rfl
  | .arr items, n + 1, rest, hv, hn, _ => by
    rw [floatsOk] at hv
    rw [dumps, List.length_cons] at hn
    rw [dumps, List.cons_append, scanValue, if_neg (by decide), if_neg (by decide), if_pos rfl]
    unfold scanGroup
    rw [skipWs_dumpItems hv]
    cases items with
    | nil => rfl
    | cons item items =>
      have hitem : floatsOk item = true := by
        rw [itemsOk, Bool.and_eq_true] at hv
        exact hv.1
      rw [if_neg (head_dumpItems hitem items rest),
        scanItems_dumps (item :: items) n rest hv (by omega) (List.cons_ne_nil _ _)]
      rfl
  | .obj fields, n + 1, rest, hv, hn, _ => by
    rw [floatsOk] at hv
    rw [dumps, List.length_cons] at hn
    rw [dumps, List.cons_append, scanValue, if_neg (by decide), if_pos rfl]
    unfold scanGroup
    rw [skipWs_dumpFields]
    cases fields with
    | nil => rfl
    | cons field fields =>
      have hhead : (dumpFields (field :: fields) ++ rest).head? ≠ some '\x7d' := by
        obtain ⟨cs, heq⟩ := dumpFields_head field fields
        rw [heq]
        simp
      rw [if_neg hhead,
        scanFields_dumps (field :: fields) n rest hv (by omega) (List.cons_ne_nil _ _)]
      rfl

theorem scanItems_dumps : ∀ (items : List Json) (n : Nat) (rest : List Char),
    itemsOk items = true → (dumpItems items).length ≤ n → items ≠ [] →
      scanItems n (dumpItems items ++ rest) = some (items, rest)
  | [], _, _, _, _, hne => absurd rfl hne
  | item :: items, 0, rest, hitems, hn, _ => by
    rw [itemsOk, Bool.and_eq_true] at hitems
    obtain ⟨c, cs, heq, -⟩ := dumps_head hitems.1
    rw [dumpItems, heq] at hn
    simp at hn
  | item :: items, n + 1, rest, hitems, hn, _ => by
    rw [itemsOk, Bool.and_eq_true] at hitems
    rw [dumpItems, List.length_append] at hn
    have hmore : 0 < (dumpMoreItems items).length := by
      cases items <;> simp [dumpMoreItems]
    rw [dumpItems, List.append_assoc, scanItems,
      scanValue_dumps item n _ hitems.1 (by omega) (dumpMoreItems_stops items rest)]
    simp only
    cases items with
    | nil => exact scanMore_close rfl _ rest item
    | cons item' items' =>
      rw [dumpMoreItems_cons] at hn ⊢
      simp only [List.length_cons] at hn
      refine scanMore_comma (by decide) (skipWs_dumpItems hitems.2 rest) ?_ item
      exact scanItems_dumps (item' :: items') n rest hitems.2 (by omega) (List.cons_ne_nil _ _)

theorem scanFields_dumps : ∀ (fields : List (String × Json)) (n : Nat) (rest : List Char),
    fieldsOk fields = true → (dumpFields fields).length ≤ n → fields ≠ [] →
      scanFields n (dumpFields fields ++ rest) = some (fields, rest)
  | [], _, _, _, _, hne => absurd rfl hne
  | field :: fields, 0, rest, _, hn, _ => by
    obtain ⟨cs, heq⟩ := dumpFields_head field fields
    rw [heq] at hn
    simp at hn
  | field :: fields, n + 1, rest, hfields, hn, _ => by
    rw [fieldsOk, Bool.and_eq_true] at hfields
    rw [dumpFields, List.length_append] at hn
    have hmore : 0 < (dumpMoreFields fields).length := by
      cases fields <;> simp [dumpMoreFields]
    rw [dumpFields, List.append_assoc]
    refine scanFields_field field n _ hfields.1 (by omega) (dumpMoreFields_stops fields rest) ?_
    cases fields with
    | nil => exact scanMore_close rfl _ rest field
    | cons field' fields' =>
      rw [dumpMoreFields_cons] at hn ⊢
      simp only [List.length_cons] at hn
      refine scanMore_comma (by decide) (skipWs_dumpFields (field' :: fields') rest) ?_ field
      exact scanFields_dumps (field' :: fields') n rest hfields.2 (by omega)
        (List.cons_ne_nil _ _)

/-- A field, and what the fields after it read as. -/
theorem scanFields_field : ∀ (field : String × Json) (n : Nat) (rest : List Char)
    {read : Option (List (String × Json) × List Char)}, fieldOk field = true →
      (dumpField field).length ≤ n + 1 → Stops rest →
        scanMore '\x7d' (scanFields n) field rest = read →
          scanFields (n + 1) (dumpField field ++ rest) = read
  | (key, value), n, rest, read, hfield, hn, hrest, hmore => by
    rw [fieldOk] at hfield
    have hlen : (dumps value).length ≤ n := by
      rw [dumpField, dumpText] at hn
      simp only [List.length_append, List.length_cons] at hn
      omega
    have hskip : skipWs (' ' :: dumps value ++ rest) = dumps value ++ rest :=
      skipWs_dumps hfield rest
    rw [dumpField, List.append_assoc, scanFields, List.cons_append, scanKey_dumpText]
    simp only [hskip, scanValue_dumps value n rest hfield hlen hrest]
    exact hmore

end

/-- **What was written is read back.** -/
theorem loads_dumps {v : Json} (hv : floatsOk v = true) : loads (dumps v) = some v := by
  have hskip : skipWs (dumps v) = dumps v := by simpa using skipWs_dumps hv []
  have hscan := scanValue_dumps v ((dumps v).length + 1) [] hv (by omega) (by simp [Stops])
  rw [List.append_nil] at hscan
  unfold loads
  rw [hskip, hscan]
  rfl

/-! ### Objects, cut short or run on -/

/-- A dictionary reads the same from a longer text. -/
theorem scanObject_extends (n : Nat) (cs : List Char) {v : Json} {rest : List Char}
    (h : scanValue n ('\x7b' :: cs) = some (v, rest)) (q : List Char) :
    scanValue n ('\x7b' :: (cs ++ q)) = some (v, rest ++ q) := by
  cases n with
  | zero => cases h
  | succ n =>
    have hfields := (scan_extends n).2.2
    rw [scanValue, if_neg (by decide), if_pos rfl] at h ⊢
    exact (scanGroup_extends hfields (scanFields_nil n) _).map _ h q

theorem scanObject_dumps {fields : List (String × Json)} (hv : floatsOk (.obj fields) = true)
    {n : Nat} (hn : (dumps (.obj fields)).length ≤ n) (q : List Char) :
    scanValue n (dumps (.obj fields) ++ q) = some (.obj fields, q) := by
  have hscan := scanValue_dumps (.obj fields) n [] hv hn (by simp [Stops])
  rw [List.append_nil] at hscan
  exact scanObject_extends n _ hscan q

/-- **No proper beginning of a written object reads as anything.** -/
theorem loads_cut {fields : List (String × Json)} (hv : floatsOk (.obj fields) = true)
    {cut q : List Char} (hcut : dumps (.obj fields) = cut ++ q) (hq : q ≠ []) :
    loads cut = none := by
  cases cut with
  | nil => rfl
  | cons c cut =>
    obtain ⟨hc, -⟩ := List.cons.inj hcut
    subst hc
    unfold loads
    cases hscan : scanValue (('\x7b' :: cut).length + 1) (skipWs ('\x7b' :: cut)) with
    | none => rfl
    | some p =>
      obtain ⟨v, rest⟩ := p
      -- the whole text reads to the same place, and it reads to its end
      have hwhole := scanObject_extends _ cut hscan q
      have hlen : ('\x7b' :: cut).length + 1 ≤ (dumps (.obj fields)).length + 1 := by
        rw [hcut, List.length_append]
        omega
      have hread := scanValue_mono hlen hwhole
      rw [show '\x7b' :: (cut ++ q) = dumps (.obj fields) ++ [] by simp [hcut],
        scanObject_dumps hv (by omega)] at hread
      obtain ⟨-, hrest⟩ := Prod.mk.inj (Option.some.inj hread)
      exact absurd (List.append_eq_nil_iff.1 hrest.symm).2 hq

/-- **Nor does a written object with more text after it.** -/
theorem loads_joined {fields : List (String × Json)} (hv : floatsOk (.obj fields) = true)
    {text : List Char} (htext : skipWs text ≠ []) :
    loads (dumps (.obj fields) ++ text) = none := by
  have hskip := skipWs_dumps hv text
  unfold loads
  rw [hskip, scanObject_dumps hv (by rw [List.length_append]; omega)]
  simp only [if_neg htext]

/-! ### What stands in a written text -/

theorem printable_of_numChar {c : Char} (h : numChar c = true) : printable c = true := by
  unfold numChar Char.isDigit at h
  simp only [Bool.or_eq_true, Bool.and_eq_true, decide_eq_true_eq] at h
  rcases h with ((((⟨hlow, hhigh⟩ | rfl) | rfl) | rfl) | rfl) | rfl
  · have hlow' : 48 ≤ c.toNat := hlow
    have hhigh' : c.toNat ≤ 57 := hhigh
    unfold printable
    simp only [Bool.and_eq_true, decide_eq_true_eq]
    omega
  all_goals rfl

theorem printable_of_all {cs : List Char} (h : cs.all printable = true) :
    ∀ c ∈ cs, printable c = true := List.all_eq_true.1 h

theorem hex4_printable (u : Nat) : ∀ c ∈ hex4 u, printable c = true := by
  have hdigit : ∀ d, d < 16 → printable d.digitChar = true := by decide
  intro c hc
  simp only [hex4, List.mem_cons, List.not_mem_nil, or_false] at hc
  rcases hc with rfl | rfl | rfl | rfl <;> exact hdigit _ (Nat.mod_lt _ (by omega))

theorem escape_printable (d : Char) : ∀ c ∈ escape d, printable c = true := by
  intro c hc
  unfold escape at hc
  split_ifs at hc with hquote hslash hplain
  · exact printable_of_all rfl c hc
  · exact printable_of_all rfl c hc
  · rwa [List.mem_singleton.1 hc]
  · exact printable_of_all rfl c hc
  · exact printable_of_all rfl c hc
  · exact printable_of_all rfl c hc
  · exact printable_of_all rfl c hc
  · exact printable_of_all rfl c hc
  · obtain ⟨u, -, hcu⟩ := List.mem_flatMap.1 hc
    rcases List.mem_cons.1 hcu with rfl | hcu
    · rfl
    · rcases List.mem_cons.1 hcu with rfl | hcu
      · rfl
      · exact hex4_printable u c hcu

theorem dumpText_printable (s : String) : ∀ c ∈ dumpText s, printable c = true := by
  refine List.forall_mem_cons.2 ⟨rfl, List.forall_mem_append.2 ⟨?_, printable_of_all rfl⟩⟩
  intro c hc
  obtain ⟨d, -, hd⟩ := List.mem_flatMap.1 hc
  exact escape_printable d c hd

theorem printable_comma {cs : List Char} (h : ∀ c ∈ cs, printable c = true) :
    ∀ c ∈ ',' :: ' ' :: cs, printable c = true :=
  List.forall_mem_cons.2 ⟨rfl, List.forall_mem_cons.2 ⟨rfl, h⟩⟩

mutual

/-- What was written is the space to the tilde. -/
theorem dumps_printable : ∀ v : Json, floatsOk v = true → ∀ c ∈ dumps v, printable c = true
  | .null, _ => printable_of_all rfl
  | .bool true, _ => printable_of_all rfl
  | .bool false, _ => printable_of_all rfl
  | .int n, _ => fun c hc => printable_of_numChar (dumpInt_numChar n c hc)
  | .float literal, hv => by
    show ∀ c ∈ literal.toList, printable c = true
    rcases floatOk_cases hv with (rfl | rfl | rfl) | ⟨hnum, -⟩
    · exact printable_of_all rfl
    · exact printable_of_all rfl
    · exact printable_of_all rfl
    · exact fun c hc => printable_of_numChar (hnum c hc)
  | .str s, _ => dumpText_printable s
  | .arr items, hv => List.forall_mem_cons.2 ⟨rfl, (dumpItems_printable items hv).1⟩
  | .obj fields, hv => List.forall_mem_cons.2 ⟨rfl, (dumpFields_printable fields hv).1⟩

theorem dumpItems_printable : ∀ items : List Json, itemsOk items = true →
    (∀ c ∈ dumpItems items, printable c = true) ∧ ∀ c ∈ dumpMoreItems items, printable c = true
  | [], _ => ⟨printable_of_all rfl, printable_of_all rfl⟩
  | item :: items, h => by
    rw [itemsOk, Bool.and_eq_true] at h
    have hitem := dumps_printable item h.1
    have hmore := (dumpItems_printable items h.2).2
    have hboth := List.forall_mem_append.2 ⟨hitem, hmore⟩
    exact ⟨hboth, printable_comma hboth⟩

theorem dumpFields_printable : ∀ fields : List (String × Json), fieldsOk fields = true →
    (∀ c ∈ dumpFields fields, printable c = true) ∧
      ∀ c ∈ dumpMoreFields fields, printable c = true
  | [], _ => ⟨printable_of_all rfl, printable_of_all rfl⟩
  | field :: fields, h => by
    rw [fieldsOk, Bool.and_eq_true] at h
    have hfield := dumpField_printable field h.1
    have hmore := (dumpFields_printable fields h.2).2
    have hboth := List.forall_mem_append.2 ⟨hfield, hmore⟩
    exact ⟨hboth, printable_comma hboth⟩

theorem dumpField_printable : ∀ field : String × Json, fieldOk field = true →
    ∀ c ∈ dumpField field, printable c = true
  | (key, value), h => by
    have hvalue : ∀ c ∈ ' ' :: dumps value, printable c = true :=
      List.forall_mem_cons.2 ⟨rfl, dumps_printable value h⟩
    exact List.forall_mem_append.2
      ⟨dumpText_printable key, List.forall_mem_cons.2 ⟨rfl, hvalue⟩⟩

end

theorem dumpMoreFields_last (fields : List (String × Json)) :
    (dumpMoreFields fields).getLast? = some '\x7d' := by
  induction fields with
  | nil => rfl
  | cons field fields ih =>
    rw [dumpMoreFields, List.getLast?_cons_cons, ← List.singleton_append, ← List.append_assoc,
      List.getLast?_append, ih]
    rfl

/-- A written dictionary ends with its brace. -/
theorem dumps_obj_last (fields : List (String × Json)) :
    (dumps (.obj fields)).getLast? = some '\x7d' := by
  cases fields with
  | nil => rfl
  | cons field fields =>
    show ('\x7b' :: (dumpField field ++ dumpMoreFields fields)).getLast? = _
    rw [← List.cons_append, List.getLast?_append, dumpMoreFields_last]
    rfl

end Json
