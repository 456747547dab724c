import Mathlib

/-!
# Name trees

What the names of a file tree are bound to: a partial function on paths that is bound at finitely
many of them.

- `NameTree`: the bindings, with a list of paths that covers them.
- `set`, `erase`, `graft`: one name bound or freed, and a subtree moved to another name.
- `isEmptyBelow`: whether a name is a leaf.
-/

universe u v

/-- A partial function on paths with finite support. -/
structure NameTree (α : Type u) (V : Type v) where
  get : List α → Option V
  support : List (List α)
  covers : ∀ p, get p ≠ none → p ∈ support

namespace NameTree

variable {α : Type u} {V : Type v}

/-- The path with its leading `src` replaced by `dst`. -/
def rebase (src dst p : List α) : List α := dst ++ p.drop src.length

@[simp] theorem rebase_append (src dst r : List α) : rebase src dst (src ++ r) = dst ++ r := by
  rw [rebase, List.drop_left]

@[simp] theorem rebase_self (src dst : List α) : rebase src dst src = dst := by
  simpa using rebase_append src dst []

variable [DecidableEq α]

def set (t : NameTree α V) (p : List α) (v : V) : NameTree α V where
  get q := if q = p then some v else t.get q
  support := p :: t.support
  covers q hq := by
    by_cases h : q = p
    · exact h ▸ List.mem_cons_self
    · rw [if_neg h] at hq
      exact List.mem_cons_of_mem _ (t.covers q hq)

def erase (t : NameTree α V) (p : List α) : NameTree α V where
  get q := if q = p then none else t.get q
  support := t.support
  covers q hq := by
    by_cases h : q = p
    · rw [if_pos h] at hq
      exact absurd rfl hq
    · rw [if_neg h] at hq
      exact t.covers q hq

/-- The subtree at `src` moved to `dst`, over whatever was there. -/
def graft (t : NameTree α V) (src dst : List α) : NameTree α V where
  get q := if dst <+: q then t.get (rebase dst src q) else if src <+: q then none else t.get q
  support := t.support ++ t.support.map (rebase src dst)
  covers q hq := by
    by_cases hd : dst <+: q
    · obtain ⟨r, rfl⟩ := hd
      rw [if_pos (List.prefix_append dst r), rebase_append] at hq
      refine List.mem_append_right _ (List.mem_map.mpr ⟨src ++ r, t.covers _ hq, ?_⟩)
      exact rebase_append src dst r
    · rw [if_neg hd] at hq
      split_ifs at hq with hs
      · exact absurd rfl hq
      · exact List.mem_append_left _ (t.covers q hq)

/-- No name below `p` is bound. -/
def isEmptyBelow (t : NameTree α V) (p : List α) : Bool :=
  t.support.all fun q => !(decide (p <+: q ∧ q ≠ p)) || (t.get q).isNone

variable {t : NameTree α V} {p q src dst : List α}

theorem isEmptyBelow_iff : t.isEmptyBelow p = true ↔ ∀ q, p <+: q → q ≠ p → t.get q = none := by
  simp only [isEmptyBelow, List.all_eq_true, Bool.or_eq_true, Bool.not_eq_true',
    decide_eq_false_iff_not, not_and, Option.isNone_iff_eq_none]
  constructor
  · intro h q hpq hne
    by_contra hq
    rcases h q (t.covers q hq) with hno | hnone
    · exact hno hpq hne
    · exact hq hnone
  · intro h q _
    by_cases hq : p <+: q ∧ q ≠ p
    · exact .inr (h q hq.1 hq.2)
    · exact .inl fun hpq hne => hq ⟨hpq, hne⟩

theorem get_erase : (t.erase p).get q = if q = p then none else t.get q := rfl

theorem get_graft : (t.graft src dst).get q =
    if dst <+: q then t.get (rebase dst src q) else if src <+: q then none else t.get q := rfl

end NameTree
