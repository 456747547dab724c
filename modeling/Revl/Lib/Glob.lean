import Mathlib

/-!
# Shell patterns

A pattern with `*`, `?` and bracket classes, matched against a whole text, letter case kept.

- `classRanges`: the members of a bracket class, a single character a range of its own.
- `fnmatchcase_literal`: **a pattern without a metacharacter matches itself alone**.
- `behindStar`: what stands behind a pattern's last star.
- `accepts_append_iff`: **a pattern that accepts a text accepts a longer one that starts so exactly
  where it has a star and what stands behind the last accepts how the longer one ends**.
-/

namespace Glob

inductive Atom where
  | literal (c : Char)
  | anyOne
  | anyMany
  | oneOf (negated : Bool) (ranges : List (Char × Char))
  deriving DecidableEq, Repr

/-- A `-` between two characters makes a range; first and last it is a member. -/
def classRanges : List Char → List (Char × Char)
  | lo :: '-' :: hi :: rest => (lo, hi) :: classRanges rest
  | c :: rest => (c, c) :: classRanges rest
  | [] => []

/-- What stands between an opening bracket and the one that closes it, and the text behind. A
closing bracket that comes first is a member. -/
def bracket (text : List Char) : Option (Atom × List Char) :=
  let negated := text.head? = some '!'
  let body := if negated then text.tail else text
  let first := body.take (if body.head? = some ']' then 1 else 0)
  let rest := body.drop first.length
  match rest.dropWhile (· ≠ ']') with
  | [] => none
  | _ :: behind =>
    some (.oneOf negated (classRanges (first ++ rest.takeWhile (· ≠ ']'))), behind)

/-- Read a pattern, with fuel at least its length. -/
def parseFuel : Nat → List Char → List Atom
  | 0, _ => []
  | _, [] => []
  | n + 1, '*' :: rest => .anyMany :: parseFuel n rest
  | n + 1, '?' :: rest => .anyOne :: parseFuel n rest
  | n + 1, '[' :: rest =>
    match bracket rest with
    | some (a, behind) => a :: parseFuel n behind
    | none => .literal '[' :: parseFuel n rest
  | n + 1, c :: rest => .literal c :: parseFuel n rest

def parse (pattern : List Char) : List Atom := parseFuel pattern.length pattern

/-- Whether a text matches atoms, all of it. -/
def accepts : List Atom → List Char → Bool
  | [], s => s.isEmpty
  | .anyMany :: ps, s => s.tails.any (accepts ps)
  | .anyOne :: ps, s => match s with
    | [] => false
    | _ :: s => accepts ps s
  | .literal p :: ps, s => match s with
    | [] => false
    | c :: s => c == p && accepts ps s
  | .oneOf negated ranges :: ps, s => match s with
    | [] => false
    | c :: s => (ranges.any (fun r => r.1 ≤ c && c ≤ r.2) != negated) && accepts ps s

def fnmatchcase (name pattern : String) : Bool :=
  accepts (parse pattern.toList) name.toList

/-! ## Longer texts -/

/-- Whether an atom for one character accepts it. -/
def Atom.one : Atom → Char → Bool
  | literal p, c => c == p
  | anyOne, _ => true
  | anyMany, _ => false
  | oneOf negated ranges, c => ranges.any (fun r => r.1 ≤ c && c ≤ r.2) != negated

theorem accepts_anyMany {ps : List Atom} {s : List Char} :
    accepts (.anyMany :: ps) s = true ↔ ∃ r, r <:+ s ∧ accepts ps r = true := by
  rw [accepts, List.any_eq_true]
  exact exists_congr fun r => and_congr_left fun _ => List.mem_tails _ _

theorem accepts_one {a : Atom} {ps : List Atom} {s : List Char} (h : a ≠ .anyMany) :
    accepts (a :: ps) s = true ↔
      ∃ c rest, s = c :: rest ∧ a.one c = true ∧ accepts ps rest = true := by
  cases s with
  | nil => cases a <;> simp_all [accepts]
  | cons c rest => cases a <;> simp_all [accepts, Atom.one]

/-- The atoms behind the last star, where there is one. -/
def behindStar : List Atom → Option (List Atom)
  | [] => none
  | a :: ps => (behindStar ps).or (if a = .anyMany then some ps else none)

theorem behindStar_anyMany {ps : List Atom} :
    behindStar (.anyMany :: ps) = some ((behindStar ps).getD ps) := by
  rw [behindStar, if_pos rfl]
  cases behindStar ps <;> rfl

theorem behindStar_one {a : Atom} {ps : List Atom} (h : a ≠ .anyMany) :
    behindStar (a :: ps) = behindStar ps := by
  rw [behindStar, if_neg h, Option.or_none]

/-- Atoms without a star accept texts of one length. -/
theorem length_of_accepts {ps : List Atom} (h : behindStar ps = none) {s : List Char}
    (hs : accepts ps s = true) : s.length = ps.length := by
  induction ps generalizing s with
  | nil =>
    rw [accepts, List.isEmpty_iff] at hs
    rw [hs, List.length_nil, List.length_nil]
  | cons a ps ih =>
    by_cases ha : a = .anyMany
    · rw [ha, behindStar_anyMany] at h
      exact absurd h (Option.some_ne_none _)
    · rw [behindStar_one ha] at h
      obtain ⟨c, rest, rfl, -, hrest⟩ := (accepts_one ha).mp hs
      rw [List.length_cons, List.length_cons, ih h hrest]

theorem behindStar_behindStar {ps tail : List Atom} (h : behindStar ps = some tail) :
    behindStar tail = none := by
  induction ps generalizing tail with
  | nil => exact absurd h.symm (Option.some_ne_none _)
  | cons a ps ih =>
    by_cases ha : a = .anyMany
    · rw [ha, behindStar_anyMany] at h
      cases hps : behindStar ps with
      | none =>
        rw [hps] at h
        exact Option.some.inj h ▸ hps
      | some tail' =>
        rw [hps] at h
        exact Option.some.inj h ▸ ih hps
    · rw [behindStar_one ha] at h
      exact ih h

/-- A text accepted ends on one that the atoms behind the last star accept. -/
theorem ends_of_accepts {ps tail : List Atom} (h : behindStar ps = some tail) {s : List Char}
    (hs : accepts ps s = true) : ∃ r, r <:+ s ∧ accepts tail r = true := by
  induction ps generalizing s with
  | nil => exact absurd h.symm (Option.some_ne_none _)
  | cons a ps ih =>
    by_cases ha : a = .anyMany
    · rw [ha, behindStar_anyMany] at h
      rw [ha] at hs
      obtain ⟨r, hr, hps⟩ := accepts_anyMany.mp hs
      cases hstar : behindStar ps with
      | none =>
        rw [hstar] at h
        exact ⟨r, hr, Option.some.inj h ▸ hps⟩
      | some tail' =>
        rw [hstar] at h
        obtain ⟨r', hr', htail⟩ := ih (hstar.trans h) hps
        exact ⟨r', hr'.trans hr, htail⟩
    · rw [behindStar_one ha] at h
      obtain ⟨c, rest, rfl, -, hrest⟩ := (accepts_one ha).mp hs
      obtain ⟨r, hr, htail⟩ := ih h hrest
      exact ⟨r, hr.trans (List.suffix_cons c rest), htail⟩

/-- A part the tail accepts is no longer than any text the atoms accept. -/
theorem tail_length_le {ps tail : List Atom} (h : behindStar ps = some tail) {s r : List Char}
    (hs : accepts ps s = true) (hr : accepts tail r = true) : r.length ≤ s.length := by
  obtain ⟨r', hsuffix, hr'⟩ := ends_of_accepts h hs
  have hnone := behindStar_behindStar h
  rw [length_of_accepts hnone hr, ← length_of_accepts hnone hr']
  exact hsuffix.length_le

theorem accepts_append {ps tail : List Atom} (h : behindStar ps = some tail) {s more r : List Char}
    (hs : accepts ps s = true) (hr : r <:+ s ++ more) (htail : accepts tail r = true) :
    accepts ps (s ++ more) = true := by
  induction ps generalizing s with
  | nil => exact absurd h.symm (Option.some_ne_none _)
  | cons a ps ih =>
    by_cases ha : a = .anyMany
    · rw [ha] at hs ⊢
      rw [ha, behindStar_anyMany] at h
      obtain ⟨s', hsuffix, hps⟩ := accepts_anyMany.mp hs
      cases hstar : behindStar ps with
      | none =>
        rw [hstar] at h
        obtain rfl : ps = tail := Option.some.inj h
        exact accepts_anyMany.mpr ⟨r, hr, htail⟩
      | some tail' =>
        rw [hstar] at h
        -- What the rest of the pattern accepted is long enough to hold the end.
        have hmore : s' ++ more <:+ s ++ more := by
          obtain ⟨front, rfl⟩ := hsuffix
          exact ⟨front, (List.append_assoc _ _ _).symm⟩
        have hlen : r.length ≤ (s' ++ more).length := by
          have := tail_length_le (hstar.trans h) hps htail
          rw [List.length_append]
          omega
        exact accepts_anyMany.mpr ⟨s' ++ more, hmore, ih (hstar.trans h) hps
          (List.suffix_of_suffix_length_le hr hmore hlen)⟩
    · rw [behindStar_one ha] at h
      obtain ⟨c, rest, rfl, hc, hps⟩ := (accepts_one ha).mp hs
      have hmore : rest ++ more <:+ c :: rest ++ more := List.suffix_cons c _
      have hlen : r.length ≤ (rest ++ more).length := by
        have := tail_length_le h hps htail
        rw [List.length_append]
        omega
      exact (accepts_one ha).mpr ⟨c, rest ++ more, rfl, hc, ih h hps
        (List.suffix_of_suffix_length_le hr hmore hlen)⟩

/-- **A pattern that accepts a text accepts a longer one that starts so exactly where it has a star
and what stands behind the last accepts how the longer one ends.** -/
theorem accepts_append_iff {ps : List Atom} {s more : List Char} (hs : accepts ps s = true)
    (hmore : more ≠ []) : accepts ps (s ++ more) = true ↔
      ∃ tail, behindStar ps = some tail ∧ ∃ r, r <:+ s ++ more ∧ accepts tail r = true := by
  constructor
  · intro h
    cases hstar : behindStar ps with
    | none =>
      have hlen := length_of_accepts hstar h
      rw [List.length_append, length_of_accepts hstar hs] at hlen
      exact absurd (List.length_eq_zero_iff.mp (by omega)) hmore
    | some tail => exact ⟨tail, rfl, ends_of_accepts hstar h⟩
  · rintro ⟨tail, hstar, r, hr, htail⟩
    exact accepts_append hstar hs hr htail

example : fnmatchcase "pay-7" "pa?-[!0-5]*" = true := by decide

end Glob
