import Revl.Lib.Decimal

/-!
# Python text primitives

The `str` operations a Python program leans on, over character lists.

- `lowerLatin`: `str.lower`, as far as a comparison with ASCII letters can see it.
- `parseInt`: `int(text)`, with its signs, `_` separators, decimal digits of every
  script and the interpreter's limit on the number of digits.
- `parseInt_strInt`: what `str` writes of an integer, `int` reads.
- `join`: `sep.join(parts)`.
-/

namespace PyText

/-- The code points `str.isspace` holds of. -/
def isSpace (c : Char) : Bool :=
  let n := c.toNat
  (0x09 ≤ n && n ≤ 0x0D) || (0x1C ≤ n && n ≤ 0x20) || n == 0x85 || n == 0xA0 ||
    n == 0x1680 || (0x2000 ≤ n && n ≤ 0x200A) || n == 0x2028 || n == 0x2029 ||
    n == 0x202F || n == 0x205F || n == 0x3000

/-- `str.strip()`. -/
def strip (s : List Char) : List Char :=
  ((s.dropWhile isSpace).reverse.dropWhile isSpace).reverse

/-- What starts and ends with no blank is what stripping leaves, whatever blanks follow it. -/
theorem strip_append {s blanks : List Char} (hhead : ∀ c ∈ s.head?, isSpace c = false)
    (hlast : ∀ c ∈ s.getLast?, isSpace c = false) (hblanks : ∀ c ∈ blanks, isSpace c = true) :
    strip (s ++ blanks) = s := by
  cases s with
  | nil =>
    have hdrop : blanks.dropWhile isSpace = [] := List.dropWhile_eq_nil_iff.2 hblanks
    rw [strip, List.nil_append, hdrop]
    rfl
  | cons c s =>
    have hc : isSpace c = false := hhead c rfl
    have hrest : (c :: s).reverse.dropWhile isSpace = (c :: s).reverse := by
      rw [List.getLast?_eq_head?_reverse] at hlast
      cases hrev : (c :: s).reverse with
      | nil => rfl
      | cons d r =>
        rw [hrev] at hlast
        rw [List.dropWhile_cons_of_neg (by simp [hlast d rfl])]
    rw [strip, List.cons_append, List.dropWhile_cons_of_neg (by simp [hc]), ← List.cons_append,
      List.reverse_append, List.dropWhile_append_of_pos (by simpa using hblanks), hrest,
      List.reverse_reverse]

/-- Stripping leaves nothing only of blanks. -/
theorem strip_eq_nil {s : List Char} (h : strip s = []) : ∀ c ∈ s, isSpace c = true := by
  rw [strip, List.reverse_eq_nil_iff, List.dropWhile_eq_nil_iff] at h
  have hdrop : s.dropWhile isSpace = [] := by
    cases hs : s.dropWhile isSpace with
    | nil => rfl
    | cons c cs =>
      have hc := List.head?_dropWhile_not isSpace s
      rw [hs] at hc h
      have := h c (List.mem_reverse.mpr List.mem_cons_self)
      simp only [List.head?_cons] at hc
      rw [hc] at this
      exact absurd this (by simp)
  exact List.dropWhile_eq_nil_iff.mp hdrop

/-- What starts with no blank loses nothing but an end. -/
theorem strip_append_rest {s : List Char} (hhead : ∀ c ∈ s.head?, isSpace c = false) :
    ∃ t, s = strip s ++ t := by
  have hdrop : s.dropWhile isSpace = s := by
    cases s with
    | nil => rfl
    | cons c s => rw [List.dropWhile_cons_of_neg (by simp [hhead c rfl])]
  refine ⟨(s.reverse.takeWhile isSpace).reverse, ?_⟩
  have hsplit := List.takeWhile_append_dropWhile (p := isSpace) (l := s.reverse)
  rw [strip, hdrop, ← List.reverse_append, hsplit, List.reverse_reverse]

/-- `str.lower()` on the characters whose lower-case form holds an ASCII letter that a
unit suffix can end in; every other character is kept, and no suffix or numeral sees it. -/
def lowerLatin (s : List Char) : List Char :=
  s.map fun c => if c.toNat = 0x212A then 'k' else c.toLower

/-- The code points of the digit zero, one for each run of ten decimal digits. -/
def decimalZeros : List Nat :=
  [0x30, 0x660, 0x6F0, 0x7C0, 0x966, 0x9E6, 0xA66, 0xAE6, 0xB66, 0xBE6, 0xC66, 0xCE6,
    0xD66, 0xDE6, 0xE50, 0xED0, 0xF20, 0x1040, 0x1090, 0x17E0, 0x1810, 0x1946, 0x19D0,
    0x1A80, 0x1A90, 0x1B50, 0x1BB0, 0x1C40, 0x1C50, 0xA620, 0xA8D0, 0xA900, 0xA9D0,
    0xA9F0, 0xAA50, 0xABF0, 0xFF10, 0x104A0, 0x10D30, 0x11066, 0x110F0, 0x11136,
    0x111D0, 0x112F0, 0x11450, 0x114D0, 0x11650, 0x116C0, 0x11730, 0x118E0, 0x11950,
    0x11C50, 0x11D50, 0x11DA0, 0x11F50, 0x16A60, 0x16AC0, 0x16B50, 0x1D7CE, 0x1D7D8,
    0x1D7E2, 0x1D7EC, 0x1D7F6, 0x1E140, 0x1E2F0, 0x1E4F0, 0x1E950, 0x1FBF0]

/-- The value of a decimal digit. -/
def decimalDigit? (c : Char) : Option Nat :=
  decimalZeros.findSome? fun z =>
    if z ≤ c.toNat ∧ c.toNat < z + 10 then some (c.toNat - z) else none

/-- The rest of a numeral, `acc` having been read: digits, one `_` allowed before each. -/
def numeralFrom (acc : Nat) : List Char → Option Nat
  | [] => some acc
  | '_' :: c :: rest =>
    match decimalDigit? c with
    | some d => numeralFrom (acc * 10 + d) rest
    | none => none
  | c :: rest =>
    match decimalDigit? c with
    | some d => numeralFrom (acc * 10 + d) rest
    | none => none

/-- An unsigned numeral: it starts with a digit and holds at most 4300 of them. -/
def numeral : List Char → Option Nat
  | [] => none
  | c :: rest =>
    if (rest.filter (· != '_')).length + 1 > 4300 then none
    else
      match decimalDigit? c with
      | some d => numeralFrom d rest
      | none => none

/-- `int(text)`: `none` is its `ValueError`. -/
def parseInt (s : List Char) : Option Int :=
  match strip s with
  | '-' :: rest => (numeral rest).map fun n => -(n : Int)
  | '+' :: rest => (numeral rest).map fun n => (n : Int)
  | digits => (numeral digits).map fun n => (n : Int)

example : parseInt " -1_0 ".toList = some (-10) := by decide

/-- `str(n)`: `none` is the `ValueError` of an integer with too many digits. -/
def strInt (n : Int) : Option (List Char) :=
  let digits := Nat.toDigits 10 n.natAbs
  if digits.length > 4300 then none
  else some (if n < 0 then '-' :: digits else digits)

theorem digitChar_of_isDigit {c : Char} (h : c.isDigit = true) :
    ∃ d, d < 10 ∧ c = Nat.digitChar d := by
  have hc : 48 ≤ c.toNat ∧ c.toNat ≤ 57 := by
    simp only [Char.isDigit, Bool.and_eq_true, decide_eq_true_eq] at h
    exact ⟨UInt32.le_iff_toNat_le.1 h.1, UInt32.le_iff_toNat_le.1 h.2⟩
  refine ⟨c.toNat - 48, by omega, ?_⟩
  obtain ⟨n, hn⟩ : ∃ n, c.toNat = n := ⟨_, rfl⟩
  have hchar : c = Char.ofNat c.toNat := (Char.ofNat_toNat c).symm
  rw [hn] at hc hchar ⊢
  rw [hchar]
  obtain ⟨hlo, hhi⟩ := hc
  interval_cases n <;> rfl

theorem decimalDigit?_digitChar {d : Nat} (hd : d < 10) :
    decimalDigit? (Nat.digitChar d) = some d := by
  interval_cases d <;> rfl

theorem numeralFrom_cons {c : Char} (hc : c ≠ '_') (acc : Nat) (l : List Char) :
    numeralFrom acc (c :: l) =
      match decimalDigit? c with
      | some d => numeralFrom (acc * 10 + d) l
      | none => none := by
  rw [numeralFrom]
  intro _ _ heq
  exact absurd heq hc

/-- Digits alone are read one after the other. -/
theorem numeralFrom_digits {l : List Char} (hl : ∀ c ∈ l, c.isDigit = true) (acc : Nat) :
    numeralFrom acc l = some (Nat.ofDigitChars 10 l acc) := by
  induction l generalizing acc with
  | nil => simp [numeralFrom]
  | cons c l ih =>
    obtain ⟨d, hd, rfl⟩ := digitChar_of_isDigit (hl c List.mem_cons_self)
    have hne : Nat.digitChar d ≠ '_' := by
      interval_cases d <;> decide
    rw [numeralFrom_cons hne, decimalDigit?_digitChar hd,
      Nat.ofDigitChars_cons_digitChar_of_lt_ten hd, Nat.mul_comm 10 acc]
    exact ih (fun c hc => hl c (List.mem_cons_of_mem _ hc)) _

theorem numeral_digits {n : Nat} (hlen : (Nat.toDigits 10 n).length ≤ 4300) :
    numeral (Nat.toDigits 10 n) = some n := by
  have hdigits := isDigit_toDigits n
  have hvalue : Nat.ofDigitChars 10 (Nat.toDigits 10 n) 0 = n := Nat.ofDigitChars_ten_toDigits
  cases hcs : Nat.toDigits 10 n with
  | nil => exact absurd hcs Nat.toDigits_ne_nil
  | cons c rest =>
    rw [hcs] at hlen hdigits hvalue
    obtain ⟨d, hd, rfl⟩ := digitChar_of_isDigit (hdigits c List.mem_cons_self)
    have hfilter : (rest.filter (· != '_')).length ≤ rest.length := List.length_filter_le _ _
    rw [List.length_cons] at hlen
    rw [Nat.ofDigitChars_cons_digitChar_of_lt_ten hd] at hvalue
    simp only [numeral, decimalDigit?_digitChar hd]
    rw [if_neg (by omega),
      numeralFrom_digits (fun c hc => hdigits c (List.mem_cons_of_mem _ hc)), ← hvalue]
    simp

theorem isSpace_of_isDigit {c : Char} (h : c.isDigit = true) : isSpace c = false := by
  obtain ⟨d, hd, rfl⟩ := digitChar_of_isDigit h
  interval_cases d <;> rfl

/-- Text without a blank at either end loses nothing. -/
theorem strip_of_ends {s : List Char} (hhead : ∀ c ∈ s.head?, isSpace c = false)
    (hlast : ∀ c ∈ s.getLast?, isSpace c = false) : strip s = s := by
  have hstrip := strip_append hhead hlast fun c (hc : c ∈ []) => nomatch hc
  rwa [List.append_nil] at hstrip

theorem strip_eq_self {s : List Char} (h : ∀ c ∈ s, isSpace c = false) : strip s = s :=
  strip_of_ends (fun c hc => h c (List.mem_of_mem_head? hc))
    (fun c hc => h c (List.mem_of_mem_getLast? hc))

theorem strInt_digits {n : Int} {cs : List Char} (h : strInt n = some cs) :
    ∀ c ∈ cs, c = '-' ∨ c.isDigit = true := by
  simp only [strInt] at h
  split at h
  · exact nomatch h
  rw [Option.some.injEq] at h
  subst h
  intro c hc
  split at hc
  · rcases List.mem_cons.1 hc with rfl | hc
    · exact .inl rfl
    · exact .inr (isDigit_toDigits _ c hc)
  · exact .inr (isDigit_toDigits _ c hc)

/-- **What `str` writes of an integer, `int` reads.** -/
theorem parseInt_strInt {n : Int} {cs : List Char} (h : strInt n = some cs) :
    parseInt cs = some n := by
  have hblank : strip cs = cs := by
    refine strip_eq_self fun c hc => ?_
    rcases strInt_digits h c hc with rfl | hd
    · rfl
    · exact isSpace_of_isDigit hd
  simp only [strInt] at h
  split at h
  · exact nomatch h
  rename_i hlen
  rw [Option.some.injEq] at h
  subst h
  have hnum := numeral_digits (Nat.le_of_not_lt hlen)
  rw [parseInt, hblank]
  split_ifs with hneg
  · have habs : (n.natAbs : Int) = -n := by omega
    simp [hnum, habs]
  · split
    · rename_i rest heq
      have hmem : '-' ∈ Nat.toDigits 10 n.natAbs := heq ▸ List.mem_cons_self
      exact absurd (isDigit_toDigits _ _ hmem) (by decide)
    · rename_i rest heq
      have hmem : '+' ∈ Nat.toDigits 10 n.natAbs := heq ▸ List.mem_cons_self
      exact absurd (isDigit_toDigits _ _ hmem) (by decide)
    · have habs : (n.natAbs : Int) = n := by omega
      simp [hnum, habs]

/-- `sep.join(parts)`. -/
def join (sep : Char) : List (List Char) → List Char
  | [] => []
  | [part] => part
  | part :: next :: parts => part ++ sep :: join sep (next :: parts)

end PyText
