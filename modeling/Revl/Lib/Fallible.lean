import Revl.Lib.Assoc

/-!
# Computations that may fail

What a sequence of fallible steps that went through says of its steps.

- `bind_ok_iff`, `bind_ok`: one step after another.
- `mapError_ok`: a step whose error is named anew.
- `mapM_cons_ok`, `mapM_ok_iff`, `mapM_ok_mem`, `mapM_ok_of_mem`, `mapM_some_iff`: a step for each
  item of a list.
- `mapM_ok_of_forall`: the sequence goes through if every item's step does.
-/

namespace Fallible

variable {ε ε' α β : Type}

theorem bind_ok_iff {x : Except ε α} {f : α → Except ε β} {b : β} :
    x >>= f = .ok b ↔ ∃ a, x = .ok a ∧ f a = .ok b := by
  cases x with
  | error e => exact ⟨nofun, nofun⟩
  | ok a => exact ⟨fun h => ⟨a, rfl, h⟩, fun ⟨_, ha, h⟩ => Except.ok.inj ha ▸ h⟩

theorem bind_ok {x : Except ε α} {f : α → Except ε β} {b : β} (h : x >>= f = .ok b) :
    ∃ a, x = .ok a ∧ f a = .ok b :=
  bind_ok_iff.mp h

theorem mapError_ok {x : Except ε α} {f : ε → ε'} {a : α} (h : x.mapError f = .ok a) :
    x = .ok a := by
  cases x with
  | error e => cases h
  | ok b =>
    cases h
    rfl

/-- The results of one item and of the others. -/
theorem mapM_cons_ok {f : α → Except ε β} {x : α} {l : List α} {m : List β}
    (h : (x :: l).mapM f = .ok m) :
    ∃ y rest, f x = .ok y ∧ l.mapM f = .ok rest ∧ m = y :: rest := by
  rw [List.mapM_cons] at h
  obtain ⟨y, hy, h⟩ := bind_ok h
  obtain ⟨rest, hrest, h⟩ := bind_ok h
  exact ⟨y, rest, hy, hrest, (Except.ok.inj h).symm⟩

theorem mapM_ok_iff {f : α → Except ε β} {l : List α} {m : List β} :
    l.mapM f = .ok m ↔ List.Forall₂ (fun x y => f x = .ok y) l m := by
  induction l generalizing m with
  | nil =>
    rw [List.mapM_nil, List.forall₂_nil_left_iff]
    exact ⟨fun h => (Except.ok.inj h).symm, fun h => congrArg Except.ok h.symm⟩
  | cons x l ih =>
    rw [List.forall₂_cons_left_iff]
    constructor
    · intro h
      obtain ⟨y, rest, hy, hrest, rfl⟩ := mapM_cons_ok h
      exact ⟨y, rest, hy, ih.mp hrest, rfl⟩
    · rintro ⟨y, rest, hy, hrest, rfl⟩
      rw [List.mapM_cons, hy, ih.mpr hrest]
      rfl

theorem mapM_ok_mem {f : α → Except ε β} {l : List α} {m : List β} (h : l.mapM f = .ok m) {y : β}
    (hy : y ∈ m) : ∃ x ∈ l, f x = .ok y :=
  Entrywise.forall₂_right (mapM_ok_iff.mp h) hy

theorem mapM_ok_of_mem {f : α → Except ε β} {l : List α} {m : List β} (h : l.mapM f = .ok m)
    {x : α} (hx : x ∈ l) : ∃ y ∈ m, f x = .ok y :=
  Entrywise.forall₂_left (mapM_ok_iff.mp h) hx

theorem mapM_ok_of_forall {f : α → Except ε β} {l : List α} (h : ∀ x ∈ l, ∃ y, f x = .ok y) :
    ∃ m, l.mapM f = .ok m := by
  obtain ⟨m, hm⟩ := Entrywise.exists_forall₂ h
  exact ⟨m, mapM_ok_iff.mpr hm⟩

/-- A lookup for each item, all of which succeed. -/
theorem mapM_some_iff {f : α → Option β} {l : List α} {m : List β} :
    l.mapM f = some m ↔ List.Forall₂ (fun x y => f x = some y) l m := by
  induction l generalizing m with
  | nil =>
    rw [List.mapM_nil, List.forall₂_nil_left_iff]
    exact ⟨fun h => (Option.some.inj h).symm, fun h => congrArg some h.symm⟩
  | cons x l ih =>
    rw [List.mapM_cons, List.forall₂_cons_left_iff]
    constructor
    · intro h
      obtain ⟨y, hy, h⟩ := Option.bind_eq_some_iff.mp h
      obtain ⟨rest, hrest, h⟩ := Option.bind_eq_some_iff.mp h
      exact ⟨y, rest, hy, ih.mp hrest, (Option.some.inj h).symm⟩
    · rintro ⟨y, rest, hy, hrest, rfl⟩
      rw [hy, ih.mpr hrest]
      rfl

end Fallible
