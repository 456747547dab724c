import Mathlib

/-!
# Texts joined at a separator

Two parts joined by one separator are read back where one of them is free of it: the left part of
the first separator, or the right part of the last.

- `split_left`: the left parts are free of the separator.
- `split_right`: the right parts are.
-/

namespace Tagged

variable {α : Type} {sep : α} {left left' right right' : List α}

theorem split_left (h : sep ∉ left) (h' : sep ∉ left')
    (heq : left ++ sep :: right = left' ++ sep :: right') : left = left' ∧ right = right' := by
  induction left generalizing left' with
  | nil =>
    cases left' with
    | nil => exact ⟨rfl, List.tail_eq_of_cons_eq heq⟩
    | cons c cs =>
      rw [List.nil_append, List.cons_append] at heq
      exact absurd (List.head_eq_of_cons_eq heq ▸ List.mem_cons_self) h'
  | cons c cs ih =>
    cases left' with
    | nil =>
      rw [List.nil_append, List.cons_append] at heq
      exact absurd ((List.head_eq_of_cons_eq heq).symm ▸ List.mem_cons_self) h
    | cons d ds =>
      rw [List.cons_append, List.cons_append] at heq
      obtain ⟨rfl, htail⟩ := List.cons.inj heq
      rw [List.mem_cons, not_or] at h h'
      obtain ⟨rfl, hright⟩ := ih h.2 h'.2 htail
      exact ⟨rfl, hright⟩

/-- The mirror image: read from the back. -/
theorem split_right (h : sep ∉ right) (h' : sep ∉ right')
    (heq : left ++ sep :: right = left' ++ sep :: right') : left = left' ∧ right = right' := by
  have hrev : right.reverse ++ sep :: left.reverse = right'.reverse ++ sep :: left'.reverse := by
    have := congrArg List.reverse heq
    simpa using this
  obtain ⟨hright, hleft⟩ := split_left (by simpa using h) (by simpa using h') hrev
  exact ⟨List.reverse_injective hleft, List.reverse_injective hright⟩

end Tagged
