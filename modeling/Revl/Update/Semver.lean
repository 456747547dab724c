import Revl.Lib.PyText

/-!
# Semantic versions (`update/semver.py`)

A version is read with one regular expression and ordered by its precedence: the numbers, then the
prerelease, and never the build metadata. `<` follows the precedence, `<=` asks for equality of
every field first, and `>` and `>=` negate the two.

- `Version`, `parse`, `str`: a version, how it is read and how it is written.
- `lt`, `le`, `gt`, `ge`, `bumpKind`: the comparisons; `none` is the `ValueError` of a numeric
  identifier that `int` does not read.
- `Ordered`: the comparisons of two versions are the parts of that order.
- `order_exact`: **when they are**, the order itself, and the round trip.
-/

namespace Revl.Update

open PyText

/-! ## Versions -/

structure Version where
  major : Nat
  minor : Nat
  patch : Nat
  prerelease : List (List Char)
  build : Option (List Char)
  deriving DecidableEq

/-- `\d`: a decimal digit of any script. -/
def isDecimal (c : Char) : Bool := (decimalDigit? c).isSome

/-- `[0-9A-Za-z.-]` -/
def isLabelChar (c : Char) : Bool := c.isAlphanum || c = '.' || c = '-'

/-- `0|[1-9]\d*`, and what follows. -/
def number : List Char → Option (List Char × List Char)
  | [] => none
  | c :: rest =>
    if c = '0' then some ([c], rest)
    else if c.isDigit then some (c :: rest.takeWhile isDecimal, rest.dropWhile isDecimal)
    else none

/-- `(?:mark([0-9A-Za-z][0-9A-Za-z.-]*))?`, and what follows. -/
def label (mark : Char) : List Char → Option (List Char) × List Char
  | m :: c :: rest =>
    if m = mark ∧ c.isAlphanum then
      (some (c :: rest.takeWhile isLabelChar), rest.dropWhile isLabelChar)
    else (none, m :: c :: rest)
  | cs => (none, cs)

def afterDot : List Char → Option (List Char)
  | '.' :: rest => some rest
  | _ => none

/-- What is before the numbers: `v?` on the stripped text. -/
def afterV : List Char → List Char
  | 'v' :: rest => rest
  | cs => cs

/-- `Version.parse` on a string: `none` is its `VersionError`, or the `ValueError` of a number with
too many digits. -/
def parse (text : List Char) : Option Version := do
  let (major, cs) ← number (afterV (strip text))
  let cs ← afterDot cs
  let (minor, cs) ← number cs
  let cs ← afterDot cs
  let (patch, cs) ← number cs
  let (pre, cs) := label '-' cs
  let (build, cs) := label '+' cs
  if cs ≠ [] then none
  else
    let major ← numeral major
    let minor ← numeral minor
    let patch ← numeral patch
    return ⟨major, minor, patch, (pre.map (·.splitOn '.')).getD [], build⟩

namespace Version

/-- `Version.__str__` -/
def str (v : Version) : Option (List Char) := do
  let major ← strInt v.major
  let minor ← strInt v.minor
  let patch ← strInt v.patch
  let pre := if v.prerelease = [] then [] else '-' :: ['.'].intercalate v.prerelease
  let build := match v.build with
    | some (c :: rest) => '+' :: c :: rest
    | _ => []
  return major ++ '.' :: minor ++ '.' :: patch ++ pre ++ build

/-- `_triple`, in the order of Python's tuples. -/
def triple (v : Version) : ℕ ×ₗ ℕ ×ₗ ℕ := toLex (v.major, toLex (v.minor, v.patch))

end Version

/-- `part.isdigit()` on an identifier, which is ASCII. -/
def isNumeric (part : List Char) : Bool := !part.isEmpty && part.all (·.isDigit)

/-- An identifier in a precedence tuple: `(0, int(part))` is below `(1, part)`. -/
abbrev Identifier := ℕ ⊕ₗ List Char

def identifier (part : List Char) : Option Identifier :=
  if isNumeric part then (numeral part).map fun n => toLex (.inl n) else some (toLex (.inr part))

namespace Version

/-- `_precedence`: `(1,)`, that of a release, is above every `(0, identifiers)`. -/
def precedence (v : Version) : Option (WithTop (List Identifier)) :=
  if v.prerelease = [] then some ⊤ else (v.prerelease.mapM identifier).map WithTop.some

/-- `__lt__` -/
def lt (v w : Version) : Option Bool :=
  if v.triple ≠ w.triple then some (decide (v.triple < w.triple))
  else do
    let p ← v.precedence
    let q ← w.precedence
    return decide (p < q)

/-- `__le__` -/
def le (v w : Version) : Option Bool := if v = w then some true else v.lt w

/-- `__gt__` -/
def gt (v w : Version) : Option Bool := (v.le w).map (!·)

/-- `__ge__` -/
def ge (v w : Version) : Option Bool := (v.lt w).map (!·)

end Version

inductive BumpKind where
  | major | minor | patch | none
  deriving DecidableEq, Repr

/-- `bump_kind` -/
def bumpKind (current latest : Version) : Option BumpKind :=
  if latest.triple = current.triple then
    if latest = current then some .none
    else (latest.gt current).map fun newer => if newer then .patch else .none
  else
    (latest.lt current).map fun older =>
      if older then .none
      else if (latest.major, latest.minor) ≠ (current.major, current.minor) then
        if latest.major ≠ current.major then .major else .minor
      else if latest.minor ≠ current.minor then .minor
      else .patch

/-! ## The order of the specification -/

/-- The number a numeric identifier spells. -/
def value (part : List Char) : ℕ := Nat.ofDigitChars 10 part 0

/-- One identifier below another: numeric ones by their numbers, below all others, and these by
their characters. -/
inductive IdentifierBelow : List Char → List Char → Prop where
  | numeric {x y} : isNumeric x → isNumeric y → value x < value y → IdentifierBelow x y
  | mixed {x y} : isNumeric x → ¬ isNumeric y → IdentifierBelow x y
  | text {x y} : ¬ isNumeric x → ¬ isNumeric y → x < y → IdentifierBelow x y

/-- Identifiers of one precedence: the same, or numeric ones of one number. -/
def SameIdentifier (x y : List Char) : Prop :=
  x = y ∨ isNumeric x ∧ isNumeric y ∧ value x = value y

/-- Identifiers are compared from left to right, and a longer list is above its start. -/
inductive FieldsBelow : List (List Char) → List (List Char) → Prop where
  | longer {y ys} : FieldsBelow [] (y :: ys)
  | first {x y xs ys} : IdentifierBelow x y → FieldsBelow (x :: xs) (y :: ys)
  | later {x y xs ys} : SameIdentifier x y → FieldsBelow xs ys → FieldsBelow (x :: xs) (y :: ys)

/-- The precedence of one version is lower: by the numbers, or at the same numbers as a prerelease
of a release or of a later prerelease. -/
def Precedes (v w : Version) : Prop :=
  v.triple < w.triple ∨ v.triple = w.triple ∧ v.prerelease ≠ [] ∧
    (w.prerelease = [] ∨ FieldsBelow v.prerelease w.prerelease)

def SamePrecedence (v w : Version) : Prop :=
  v.triple = w.triple ∧ List.Forall₂ SameIdentifier v.prerelease w.prerelease

/-! ### Keys -/

/-- What an identifier is compared by. -/
def identifierKey (part : List Char) : Identifier :=
  if isNumeric part then toLex (.inl (value part)) else toLex (.inr part)

def prereleaseKey (fields : List (List Char)) : WithTop (List Identifier) :=
  if fields = [] then ⊤ else WithTop.some (fields.map identifierKey)

/-- What a version is compared by. -/
def key (v : Version) : (ℕ ×ₗ ℕ ×ₗ ℕ) ×ₗ WithTop (List Identifier) :=
  toLex (v.triple, prereleaseKey v.prerelease)

theorem identifierBelow_iff {x y : List Char} :
    IdentifierBelow x y ↔ identifierKey x < identifierKey y := by
  unfold identifierKey
  constructor
  · rintro (⟨hx, hy, hlt⟩ | ⟨hx, hy⟩ | ⟨hx, hy, hlt⟩)
    · rw [if_pos hx, if_pos hy]
      exact Sum.Lex.inl_lt_inl_iff.mpr hlt
    · rw [if_pos hx, if_neg hy]
      exact Sum.Lex.inl_lt_inr _ _
    · rw [if_neg hx, if_neg hy]
      exact Sum.Lex.inr_lt_inr_iff.mpr hlt
  · intro h
    split_ifs at h with hx hy hy
    · exact .numeric hx hy (Sum.Lex.inl_lt_inl_iff.mp h)
    · exact .mixed hx hy
    · exact absurd h Sum.Lex.not_inr_lt_inl
    · exact .text hx hy (Sum.Lex.inr_lt_inr_iff.mp h)

theorem sameIdentifier_iff {x y : List Char} :
    SameIdentifier x y ↔ identifierKey x = identifierKey y := by
  unfold SameIdentifier identifierKey
  constructor
  · rintro (rfl | ⟨hx, hy, heq⟩)
    · rfl
    · rw [if_pos hx, if_pos hy, heq]
  · intro h
    split_ifs at h with hx hy hy
    · exact .inr ⟨hx, hy, Sum.inl_injective (toLex_inj.mp h)⟩
    · exact absurd (toLex_inj.mp h) Sum.inl_ne_inr
    · exact absurd (toLex_inj.mp h) Sum.inr_ne_inl
    · exact .inl (Sum.inr_injective (toLex_inj.mp h))

theorem fieldsBelow_iff {xs ys : List (List Char)} :
    FieldsBelow xs ys ↔ xs.map identifierKey < ys.map identifierKey := by
  constructor
  · intro h
    induction h with
    | longer => exact List.Lex.nil
    | first hxy => exact List.Lex.rel (identifierBelow_iff.mp hxy)
    | later hxy _ ih =>
      rw [List.map_cons, List.map_cons, sameIdentifier_iff.mp hxy]
      exact List.Lex.cons ih
  · intro h
    induction xs generalizing ys with
    | nil =>
      cases ys with
      | nil => exact absurd h (lt_irrefl _)
      | cons y ys => exact .longer
    | cons x xs ih =>
      cases ys with
      | nil => exact absurd h (List.not_lt_nil _)
      | cons y ys =>
        rcases List.cons_lt_cons_iff.mp h with hlt | ⟨heq, hlt⟩
        · exact .first (identifierBelow_iff.mpr hlt)
        · exact .later (sameIdentifier_iff.mpr heq) (ih hlt)

theorem prereleaseKey_lt_iff {xs ys : List (List Char)} :
    prereleaseKey xs < prereleaseKey ys ↔ xs ≠ [] ∧ (ys = [] ∨ FieldsBelow xs ys) := by
  unfold prereleaseKey
  split_ifs with hx hy hy
  · simp [hx]
  · simp [hx]
  · simp [hx, hy]
  · rw [fieldsBelow_iff]
    simp only [hx, hy, ne_eq, not_false_eq_true, false_or, true_and]
    exact WithTop.coe_lt_coe

theorem prereleaseKey_eq_iff {xs ys : List (List Char)} :
    prereleaseKey xs = prereleaseKey ys ↔ List.Forall₂ SameIdentifier xs ys := by
  have hmap : xs.map identifierKey = ys.map identifierKey ↔ List.Forall₂ SameIdentifier xs ys := by
    rw [← List.forall₂_eq_eq_eq, List.forall₂_map_left_iff, List.forall₂_map_right_iff]
    simp only [← sameIdentifier_iff]
  rw [← hmap]
  unfold prereleaseKey
  split_ifs with hx hy hy
  · simp [hx, hy]
  · simp [hx, hy]
  · simp [hx, hy]
  · exact WithTop.coe_inj

theorem precedes_iff {v w : Version} : Precedes v w ↔ key v < key w := by
  rw [key, key, Prod.Lex.toLex_lt_toLex, prereleaseKey_lt_iff]
  exact Iff.rfl

theorem samePrecedence_iff {v w : Version} : SamePrecedence v w ↔ key v = key w := by
  rw [key, key, toLex_inj, Prod.mk.injEq, prereleaseKey_eq_iff]
  exact Iff.rfl

instance (v w : Version) : Decidable (Precedes v w) := decidable_of_iff _ precedes_iff.symm

/-! ## What the code computes -/

theorem numeral_of_isNumeric {part : List Char} (h : isNumeric part) :
    numeral part = if part.length ≤ 4300 then some (value part) else none := by
  rw [isNumeric, Bool.and_eq_true, List.all_eq_true] at h
  obtain ⟨hne, hdigits⟩ := h
  cases part with
  | nil => simp at hne
  | cons c rest =>
    obtain ⟨d, hd, rfl⟩ := digitChar_of_isDigit (hdigits c List.mem_cons_self)
    have hrest : ∀ c ∈ rest, c.isDigit = true := fun c hc => hdigits c (List.mem_cons_of_mem _ hc)
    have hfilter : rest.filter (· != '_') = rest := by
      refine List.filter_eq_self.mpr fun c hc => ?_
      rw [bne_iff_ne]
      rintro rfl
      exact absurd (hrest _ hc) (by decide)
    have hvalue : numeralFrom d rest = some (value (Nat.digitChar d :: rest)) := by
      rw [numeralFrom_digits hrest, value, Nat.ofDigitChars_cons_digitChar_of_lt_ten hd,
        Nat.mul_zero, Nat.zero_add]
    simp only [numeral, hfilter, decimalDigit?_digitChar hd, hvalue, List.length_cons]
    by_cases hlen : rest.length + 1 ≤ 4300
    · rw [if_neg (by omega), if_pos hlen]
    · rw [if_pos (by omega), if_neg hlen]

/-- `int` reads every numeric identifier. -/
def Readable (v : Version) : Prop := ∀ part ∈ v.prerelease, isNumeric part → part.length ≤ 4300

theorem identifier_eq (part : List Char) : identifier part =
    if isNumeric part → part.length ≤ 4300 then some (identifierKey part) else none := by
  unfold identifier identifierKey
  by_cases h : isNumeric part
  · rw [if_pos h, if_pos h, numeral_of_isNumeric h]
    by_cases hlen : part.length ≤ 4300
    · rw [if_pos hlen, if_pos fun _ => hlen, Option.map_some]
    · rw [if_neg hlen, if_neg fun hall => hlen (hall h), Option.map_none]
  · rw [if_neg h, if_neg h, if_pos fun hpos => absurd hpos h]

theorem mapM_identifier (fields : List (List Char)) : fields.mapM identifier =
    if ∀ part ∈ fields, isNumeric part → part.length ≤ 4300 then
      some (fields.map identifierKey) else none := by
  induction fields with
  | nil => simp
  | cons part fields ih =>
    rw [List.mapM_cons, identifier_eq, ih]
    simp only [List.forall_mem_cons]
    by_cases hpart : isNumeric part → part.length ≤ 4300
    · by_cases hfields : ∀ part ∈ fields, isNumeric part → part.length ≤ 4300
      · rw [if_pos hpart, if_pos hfields, if_pos ⟨hpart, hfields⟩]
        rfl
      · rw [if_pos hpart, if_neg hfields, if_neg fun h => hfields h.2]
        rfl
    · have hall : ¬ ((isNumeric part → part.length ≤ 4300) ∧
          ∀ part ∈ fields, isNumeric part → part.length ≤ 4300) := fun h => hpart h.1
      rw [if_neg hpart, if_neg hall]
      rfl

instance (v : Version) : Decidable (Readable v) :=
  inferInstanceAs (Decidable (∀ part ∈ v.prerelease, isNumeric part → part.length ≤ 4300))

theorem precedence_eq (v : Version) :
    v.precedence = if Readable v then some (prereleaseKey v.prerelease) else none := by
  unfold Version.precedence prereleaseKey
  by_cases h : v.prerelease = []
  · have hreadable : Readable v := by simp [Readable, h]
    rw [if_pos h, if_pos h, if_pos hreadable]
  · rw [if_neg h, if_neg h, mapM_identifier]
    exact apply_ite (Option.map WithTop.some) _ _ _

/-- `<` compares what has to be compared, and then follows the precedence. -/
theorem lt_eq (v w : Version) : v.lt w =
    if v.triple ≠ w.triple ∨ Readable v ∧ Readable w then some (decide (Precedes v w))
    else none := by
  unfold Version.lt
  by_cases htriple : v.triple = w.triple
  · have hprecedes : Precedes v w ↔ prereleaseKey v.prerelease < prereleaseKey w.prerelease := by
      rw [precedes_iff, key, key, htriple, Prod.Lex.toLex_lt_toLex]
      simp
    simp only [htriple, ne_eq, not_true_eq_false, if_false, false_or, precedence_eq]
    by_cases hv : Readable v
    · by_cases hw : Readable w
      · simp [hv, hw, hprecedes]
      · simp [hv, hw]
    · simp [hv]
  · have hprecedes : Precedes v w ↔ v.triple < w.triple := by simp [Precedes, htriple]
    simp [htriple, hprecedes]

/-- The comparisons of two versions are the parts of the order, and a move to the second is a bump
exactly when it is newer. -/
structure Ordered (v w : Version) : Prop where
  lt : v.lt w = some (decide (Precedes v w))
  le : v.le w = some (decide (¬ Precedes w v))
  gt : v.gt w = some (decide (Precedes w v))
  ge : v.ge w = some (decide (¬ Precedes v w))
  bump : ∃ kind, bumpKind v w = some kind ∧ (kind = .none ↔ ¬ Precedes v w)

theorem not_precedes_self (v : Version) : ¬ Precedes v v := by
  rw [precedes_iff]
  exact lt_irrefl _

/-- Where `<` answers, `<=` is right except on two versions of one precedence. -/
theorem le_eq_iff {v w : Version} (hlt : v.lt w = some (decide (Precedes v w))) :
    v.le w = some (decide (¬ Precedes w v)) ↔ (SamePrecedence v w → v = w) := by
  unfold Version.le
  by_cases heq : v = w
  · subst heq
    simp [not_precedes_self]
  · rw [if_neg heq, hlt]
    simp only [Option.some.injEq, decide_eq_decide, heq, imp_false, samePrecedence_iff,
      precedes_iff, not_lt]
    rcases lt_trichotomy (key v) (key w) with h | h | h
    · simp [h, h.le, h.ne]
    · simp [h]
    · simp [h.not_gt, h.not_ge, h.ne']

theorem bumpKind_eq {v w : Version} (hlt : w.lt v = some (decide (Precedes w v)))
    (hsame : SamePrecedence w v → w = v) :
    ∃ kind, bumpKind v w = some kind ∧ (kind = .none ↔ ¬ Precedes v w) := by
  unfold bumpKind
  by_cases htriple : w.triple = v.triple
  · rw [if_pos htriple]
    by_cases heq : w = v
    · exact ⟨.none, if_pos heq, by simp [heq, not_precedes_self]⟩
    · rw [if_neg heq, Version.gt, (le_eq_iff hlt).mpr hsame]
      by_cases h : Precedes v w
      · exact ⟨.patch, by simp [h], by simp [h]⟩
      · exact ⟨.none, by simp [h], by simp [h]⟩
  · rw [if_neg htriple, hlt]
    have hv : Precedes v w ↔ v.triple < w.triple := by simp [Precedes, Ne.symm htriple]
    have hw : Precedes w v ↔ w.triple < v.triple := by simp [Precedes, htriple]
    rcases lt_or_gt_of_ne htriple with h | h
    · exact ⟨.none, by simp [hw.mpr h], by simp [hv, h.not_gt]⟩
    · refine ⟨_, rfl, ?_⟩
      simp only [hw, h.not_gt, decide_false, Bool.false_eq_true, if_false, hv, h, not_true_eq_false,
        iff_false]
      split_ifs <;> simp

/-- **When the comparisons are right**, for two versions. -/
theorem ordered_iff (v w : Version) : Ordered v w ↔
    v.triple ≠ w.triple ∨ Readable v ∧ Readable w ∧ (SamePrecedence v w → v = w) := by
  constructor
  · intro h
    by_cases htriple : v.triple = w.triple
    · have hlt := h.lt
      rw [lt_eq] at hlt
      split_ifs at hlt with hread
      obtain ⟨hv, hw⟩ := hread.resolve_left (not_not.mpr htriple)
      exact .inr ⟨hv, hw, (le_eq_iff h.lt).mp h.le⟩
    · exact .inl htriple
  · intro h
    have hsame : SamePrecedence v w → v = w := fun hvw => by
      rcases h with h | ⟨-, -, h⟩
      · exact absurd hvw.1 h
      · exact h hvw
    have hlt : v.lt w = some (decide (Precedes v w)) := by
      rw [lt_eq, if_pos (h.imp_right fun h => ⟨h.1, h.2.1⟩)]
    have hgt : w.lt v = some (decide (Precedes w v)) := by
      rw [lt_eq, if_pos (h.imp Ne.symm fun h => ⟨h.2.1, h.1⟩)]
    have hle := (le_eq_iff hlt).mpr hsame
    refine ⟨hlt, hle, ?_, ?_, bumpKind_eq hgt fun hwv => ?_⟩
    · rw [Version.gt, hle]
      simp
    · rw [Version.ge, hlt]
      simp
    · rw [samePrecedence_iff] at hwv
      exact (hsame (samePrecedence_iff.mpr hwv.symm)).symm

/-! ## Round trip -/

/-- What a label of the expression matches. -/
def IsLabel (cs : List Char) : Prop :=
  ∃ c rest, cs = c :: rest ∧ c.isAlphanum ∧ ∀ d ∈ rest, isLabelChar d

/-- What every parsed version keeps. -/
structure Wellformed (v : Version) : Prop where
  major : (Nat.toDigits 10 v.major).length ≤ 4300
  minor : (Nat.toDigits 10 v.minor).length ≤ 4300
  patch : (Nat.toDigits 10 v.patch).length ≤ 4300
  prerelease : v.prerelease = [] ∨ ∃ pre, IsLabel pre ∧ v.prerelease = pre.splitOn '.'
  build : ∀ b ∈ v.build, IsLabel b

theorem decimalDigit?_lt {c : Char} {d : Nat} (h : decimalDigit? c = some d) : d < 10 := by
  obtain ⟨z, -, hz⟩ := List.exists_of_findSome?_eq_some h
  split_ifs at hz with hrange
  cases hz
  omega

theorem numeralFrom_lt {acc n : Nat} {cs : List Char} (h : numeralFrom acc cs = some n) :
    n < (acc + 1) * 10 ^ (cs.filter (· != '_')).length := by
  have hnext : ∀ {acc d k m : Nat}, d < 10 → m < (acc * 10 + d + 1) * 10 ^ k →
      m < (acc + 1) * 10 ^ (k + 1) := by
    intro acc d k m hd hm
    calc m < (acc * 10 + d + 1) * 10 ^ k := hm
      _ ≤ ((acc + 1) * 10) * 10 ^ k := Nat.mul_le_mul_right _ (by omega)
      _ = (acc + 1) * 10 ^ (k + 1) := by rw [pow_succ', Nat.mul_assoc]
  fun_induction numeralFrom acc cs with
  | case1 acc =>
    cases h
    simp
  | case2 acc c rest d hd ih =>
    by_cases hc : c = '_'
    · subst hc
      cases hd
    · have := hnext (decimalDigit?_lt hd) (ih h)
      simpa [hc] using this
  | case3 => cases h
  | case4 acc c rest hrest d hd ih =>
    by_cases hc : c = '_'
    · subst hc
      cases hd
    · have := hnext (decimalDigit?_lt hd) (ih h)
      simpa [hc] using this
  | case5 => cases h

theorem toDigits_of_numeral {n : Nat} {cs : List Char} (h : numeral cs = some n) :
    (Nat.toDigits 10 n).length ≤ 4300 := by
  cases cs with
  | nil => cases h
  | cons c rest =>
    rw [numeral] at h
    split_ifs at h with hlen
    cases hd : decimalDigit? c with
    | none => simp [hd] at h
    | some d =>
      simp only [hd] at h
      have hlt := numeralFrom_lt h
      have hd10 := decimalDigit?_lt hd
      have hle : (Nat.toDigits 10 n).length ≤ (rest.filter (· != '_')).length + 1 := by
        rw [Nat.length_toDigits_le_iff (by omega) (by omega), pow_succ']
        exact hlt.trans_le (Nat.mul_le_mul_right _ (by omega))
      omega

theorem label_isLabel {mark : Char} {cs l rest : List Char} (h : label mark cs = (some l, rest)) :
    IsLabel l := by
  unfold label at h
  split at h
  · rename_i m c cs
    split_ifs at h with hc
    · cases h
      exact ⟨c, _, rfl, hc.2, fun d hd => List.mem_takeWhile_imp hd⟩
    · cases h
  · cases h

theorem parse_wellformed {text : List Char} {v : Version} (h : parse text = some v) :
    Wellformed v := by
  simp only [parse, Option.bind_eq_bind, Option.bind_eq_some_iff, Option.pure_def,
    Prod.exists] at h
  obtain ⟨major, cs₁, -, cs₂, -, minor, cs₃, -, cs₄, -, patch, cs₅, -, h⟩ := h
  split_ifs at h with hend
  simp only [Option.bind_eq_some_iff, Option.some.injEq] at h
  obtain ⟨x, hx, y, hy, z, hz, rfl⟩ := h
  refine ⟨toDigits_of_numeral hx, toDigits_of_numeral hy, toDigits_of_numeral hz, ?_, ?_⟩
  · cases hpre : (label '-' cs₅).1 with
    | none => exact .inl rfl
    | some pre => exact .inr ⟨pre, label_isLabel (Prod.ext hpre rfl), rfl⟩
  · intro b hb
    exact label_isLabel (Prod.ext hb rfl)

theorem isDecimal_of_isDigit {c : Char} (h : c.isDigit = true) : isDecimal c = true := by
  obtain ⟨d, hd, rfl⟩ := digitChar_of_isDigit h
  rw [isDecimal, decimalDigit?_digitChar hd]
  rfl

/-- What a run of characters is followed by decides where it ends. -/
theorem span_append {p : Char → Bool} {l rest : List Char} (hl : ∀ c ∈ l, p c = true)
    (hrest : ∀ c ∈ rest.head?, p c = false) :
    (l ++ rest).takeWhile p = l ∧ (l ++ rest).dropWhile p = rest := by
  rw [List.takeWhile_append_of_pos hl, List.dropWhile_append_of_pos hl]
  cases rest with
  | nil => simp
  | cons c rest =>
    have hc : p c = false := hrest c rfl
    simp [hc]

theorem number_toDigits (n : Nat) {rest : List Char}
    (hrest : ∀ c ∈ rest.head?, isDecimal c = false) :
    number (Nat.toDigits 10 n ++ rest) = some (Nat.toDigits 10 n, rest) := by
  have hdigits := isDigit_toDigits n
  rcases toDigits_head n with hzero | ⟨c, ds, hc, hne⟩
  · rw [hzero]
    rfl
  · rw [hc] at hdigits ⊢
    obtain ⟨htake, hdrop⟩ := span_append (p := isDecimal)
      (fun d hd => isDecimal_of_isDigit (hdigits d (List.mem_cons_of_mem _ hd))) hrest
    rw [List.cons_append, number, if_neg hne, if_pos (hdigits c List.mem_cons_self), htake, hdrop]

theorem label_append {mark : Char} {l rest : List Char} (hl : IsLabel l)
    (hrest : ∀ c ∈ rest.head?, isLabelChar c = false) :
    label mark (mark :: l ++ rest) = (some l, rest) := by
  obtain ⟨c, ds, rfl, hc, hds⟩ := hl
  obtain ⟨htake, hdrop⟩ := span_append hds hrest
  rw [List.cons_append, List.cons_append, label, if_pos ⟨rfl, hc⟩, htake, hdrop]

theorem label_none {mark : Char} {cs : List Char} (h : cs.head? ≠ some mark) :
    label mark cs = (none, cs) := by
  unfold label
  split
  · rename_i m c rest
    rw [if_neg fun hm => h (by rw [hm.1]; rfl)]
  · rfl

theorem isSpace_of_isLabelChar {c : Char} (h : isLabelChar c = true) : isSpace c = false := by
  have hrange : (48 ≤ c.toNat ∧ c.toNat ≤ 57) ∨ (65 ≤ c.toNat ∧ c.toNat ≤ 90) ∨
      (97 ≤ c.toNat ∧ c.toNat ≤ 122) ∨ c.toNat = 46 ∨ c.toNat = 45 := by
    simp only [isLabelChar, Char.isAlphanum, Char.isAlpha, Char.isUpper, Char.isLower, Char.isDigit,
      Bool.or_eq_true, Bool.and_eq_true, decide_eq_true_eq] at h
    rcases h with ((h | h) | rfl) | rfl
    · rcases h with h | h
      · exact .inr (.inl ⟨UInt32.le_iff_toNat_le.1 h.1, UInt32.le_iff_toNat_le.1 h.2⟩)
      · exact .inr (.inr (.inl ⟨UInt32.le_iff_toNat_le.1 h.1, UInt32.le_iff_toNat_le.1 h.2⟩))
    · exact .inl ⟨UInt32.le_iff_toNat_le.1 h.1, UInt32.le_iff_toNat_le.1 h.2⟩
    · exact .inr (.inr (.inr (.inl rfl)))
    · exact .inr (.inr (.inr (.inr rfl)))
  simp only [isSpace, Bool.or_eq_false_iff, Bool.and_eq_false_iff, decide_eq_false_iff_not,
    beq_eq_false_iff_ne]
  omega

theorem IsLabel.chars {l : List Char} (h : IsLabel l) : ∀ c ∈ l, isLabelChar c = true := by
  obtain ⟨c, rest, rfl, hc, hrest⟩ := h
  intro d hd
  rcases List.mem_cons.mp hd with rfl | hd
  · simp [isLabelChar, hc]
  · exact hrest d hd

/-- The two labels of a version, as they are written. -/
def preText (v : Version) : List Char :=
  if v.prerelease = [] then [] else '-' :: ['.'].intercalate v.prerelease

def buildText (v : Version) : List Char :=
  match v.build with
  | some (c :: rest) => '+' :: c :: rest
  | _ => []

theorem str_eq {v : Version} (h : Wellformed v) : v.str = some
    (Nat.toDigits 10 v.major ++ '.' :: (Nat.toDigits 10 v.minor ++ '.' ::
      (Nat.toDigits 10 v.patch ++ (preText v ++ buildText v)))) := by
  have hstr : ∀ {n : Nat}, (Nat.toDigits 10 n).length ≤ 4300 →
      strInt (n : Int) = some (Nat.toDigits 10 n) := by
    intro n hn
    have hneg : ¬ (n : Int) < 0 := by omega
    simp only [strInt, Int.natAbs_natCast, if_neg (Nat.not_lt.mpr hn), if_neg hneg]
  simp only [Version.str, hstr h.major, hstr h.minor, hstr h.patch, Option.bind_eq_bind,
    Option.bind_some, Option.pure_def, preText, buildText, List.append_assoc, List.cons_append]

theorem label_buildText {v : Version} (h : Wellformed v) :
    label '+' (buildText v) = (v.build, []) := by
  unfold buildText
  cases hb : v.build with
  | none => rfl
  | some b =>
    have hlabel := h.build b hb
    obtain ⟨c, rest, rfl, -⟩ := id hlabel
    have happend : label '+' ('+' :: c :: rest ++ []) = (some (c :: rest), []) :=
      label_append hlabel (by simp)
    rwa [List.append_nil] at happend

theorem label_preText {v : Version} (h : Wellformed v) :
    ∃ pre, label '-' (preText v ++ buildText v) = (pre, buildText v) ∧
      (pre.map (·.splitOn '.')).getD [] = v.prerelease := by
  have hbuild : ∀ c ∈ (buildText v).head?, c = '+' := by
    unfold buildText
    intro c hc
    split at hc
    · exact (Option.some.inj hc).symm
    · cases hc
  rcases h.prerelease with hnil | ⟨pre, hlabel, hpre⟩
  · refine ⟨none, ?_, by simp [hnil]⟩
    rw [preText, if_pos hnil, List.nil_append]
    refine label_none fun hhead => ?_
    exact absurd (hbuild _ hhead) (by decide)
  · have hne : v.prerelease ≠ [] := hpre ▸ List.splitOn_ne_nil _ _
    have htext : preText v = '-' :: pre := by
      rw [preText, if_neg hne, hpre, List.intercalate_splitOn]
    refine ⟨some pre, ?_, by simp [hpre]⟩
    rw [htext]
    refine label_append hlabel fun c hc => ?_
    rw [hbuild c hc]
    decide

theorem isSpace_written {v : Version} (h : Wellformed v) :
    ∀ c ∈ preText v ++ buildText v, isSpace c = false := by
  intro c hc
  rcases List.mem_append.mp hc with hc | hc
  · rcases h.prerelease with hnil | ⟨pre, hlabel, hpre⟩
    · rw [preText, if_pos hnil] at hc
      cases hc
    · rw [preText, if_neg (hpre ▸ List.splitOn_ne_nil _ _), hpre, List.intercalate_splitOn] at hc
      rcases List.mem_cons.mp hc with rfl | hc
      · decide
      · exact isSpace_of_isLabelChar (hlabel.chars c hc)
  · unfold buildText at hc
    split at hc
    · rename_i d rest hb
      rcases List.mem_cons.mp hc with rfl | hc
      · decide
      · exact isSpace_of_isLabelChar ((h.build _ hb).chars c hc)
    · cases hc

/-- **What is written is read back.** -/
theorem parse_str {v : Version} (h : Wellformed v) : ∃ s, v.str = some s ∧ parse s = some v := by
  refine ⟨_, str_eq h, ?_⟩
  obtain ⟨pre, hpre, hprerelease⟩ := label_preText h
  have hspace : ∀ n, ∀ c ∈ Nat.toDigits 10 n, isSpace c = false := fun n c hc =>
    isSpace_of_isDigit (isDigit_toDigits n c hc)
  have hstrip : strip (Nat.toDigits 10 v.major ++ '.' :: (Nat.toDigits 10 v.minor ++ '.' ::
      (Nat.toDigits 10 v.patch ++ (preText v ++ buildText v)))) =
      Nat.toDigits 10 v.major ++ '.' :: (Nat.toDigits 10 v.minor ++ '.' ::
        (Nat.toDigits 10 v.patch ++ (preText v ++ buildText v))) := by
    have hdot : isSpace '.' = false := by decide
    refine strip_eq_self fun c hc => ?_
    simp only [List.mem_append (s := Nat.toDigits _ _), List.mem_cons] at hc
    rcases hc with hc | rfl | hc | rfl | hc | hc
    · exact hspace _ c hc
    · exact hdot
    · exact hspace _ c hc
    · exact hdot
    · exact hspace _ c hc
    · exact isSpace_written h c hc
  -- a number starts with no `v`
  have hv : ∀ rest, afterV (Nat.toDigits 10 v.major ++ rest) = Nat.toDigits 10 v.major ++ rest := by
    intro rest
    cases hds : Nat.toDigits 10 v.major with
    | nil => exact absurd hds Nat.toDigits_ne_nil
    | cons c ds =>
      have hc : c.isDigit = true := isDigit_toDigits v.major c (hds ▸ List.mem_cons_self)
      rw [List.cons_append, afterV]
      intro more heq
      obtain rfl := (List.cons.inj heq).1
      exact absurd hc (by decide)
  have hdot : ∀ {rest : List Char}, ∀ c ∈ ('.' :: rest).head?, isDecimal c = false := by
    rintro rest c ⟨⟩
    decide
  have hend : ∀ c ∈ (preText v ++ buildText v).head?, isDecimal c = false := by
    have hmarks : ∀ c ∈ (preText v ++ buildText v).head?, c = '-' ∨ c = '+' := by
      unfold preText buildText
      intro c hc
      split_ifs at hc
      · rw [List.nil_append] at hc
        split at hc
        · exact .inr (Option.some.inj hc).symm
        · cases hc
      · exact .inl (Option.some.inj hc).symm
    intro c hc
    rcases hmarks c hc with rfl | rfl <;> decide
  simp only [parse, hstrip, hv, number_toDigits _ hdot, number_toDigits _ hend, afterDot, hpre,
    label_buildText h, Option.bind_eq_bind, Option.bind_some, numeral_digits h.major,
    numeral_digits h.minor, numeral_digits h.patch, hprerelease, ne_eq, not_true_eq_false, if_false,
    Option.pure_def]

/-! ## The result -/

/-- The precedence is a strict weak order that build metadata plays no part in, what `str` writes of
a parsed version `parse` reads back, and the comparisons of two versions are the parts of the order
exactly when their numbers differ, or `int` reads their numeric identifiers and they are not two
versions of one precedence. -/
theorem order_exact (v w : Version) :
    IsStrictWeakOrder Version Precedes ∧
    (SamePrecedence v w ↔ ¬ Precedes v w ∧ ¬ Precedes w v) ∧
    (∀ build, SamePrecedence { v with build } v) ∧
    (∀ text, parse text = some v → ∃ s, v.str = some s ∧ parse s = some v) ∧
    (Ordered v w ↔
      v.triple ≠ w.triple ∨ Readable v ∧ Readable w ∧ (SamePrecedence v w → v = w)) := by
  refine ⟨?_, ?_, ?_, fun text h => parse_str (parse_wellformed h), ordered_iff v w⟩
  · have hirrefl : Std.Irrefl (α := Version) Precedes := ⟨not_precedes_self⟩
    refine { hirrefl with trans := ?_, incomp_trans := ?_ }
    · intro u v w huv hvw
      rw [precedes_iff] at *
      exact huv.trans hvw
    · rintro u v w ⟨huv, hvu⟩ ⟨hvw, hwv⟩
      simp only [precedes_iff, not_lt] at *
      exact ⟨hvw.trans huv, hvu.trans hwv⟩
  · rw [samePrecedence_iff, precedes_iff, precedes_iff, not_lt, not_lt]
    exact ⟨fun h => ⟨h.ge, h.le⟩, fun h => le_antisymm h.2 h.1⟩
  · intro build
    exact samePrecedence_iff.mpr rfl

/-- Two builds of one version: each is above the other, and a move between them is a patch. -/
theorem builds_above_each_other :
    let a : Version := ⟨1, 0, 0, [], some "a".toList⟩
    let b : Version := ⟨1, 0, 0, [], some "b".toList⟩
    parse "1.0.0+a".toList = some a ∧ parse "1.0.0+b".toList = some b ∧
      a.gt b = some true ∧ b.gt a = some true ∧ a.le b = some false ∧
      bumpKind a b = some .patch ∧ ¬ Ordered a b := by
  refine ⟨by decide, by decide, by decide, by decide, by decide, by decide, fun h => ?_⟩
  have := h.le
  revert this
  decide

end Revl.Update
