import Revl.Lib.Assoc
import Revl.Lib.Fixpoint

/-!
# Closing sets under the edges of a graph

Each node holds a finite set. A pass goes over the edges in order and adds to the first node of
each what the second one holds; passes repeat until one adds nothing.

- `absorb`, `close`: the passes, with a bound on their number.
- `mem_start`, `start_subset`: a table of nodes made of items.
- `close_isSome`: **termination**. `mem_close_iff`: **a node ends up with what the nodes it
  leads to held.**
-/

universe u v

namespace EdgeClosure

open Fixpoint (Store weight weight_le weight_mono weight_update_lt le_update_union)

variable {K : Type u} {C : Type v} [DecidableEq K] [DecidableEq C]

/-- One edge: the first node takes over what the second one holds. -/
def absorb (r : Store K C × Bool) (edge : K × K) : Store K C × Bool :=
  let s := Function.update r.1 edge.1 (r.1 edge.1 ∪ r.1 edge.2)
  (s, r.2 || decide ((s edge.1).card ≠ (r.1 edge.1).card))

/-- The passes, until one adds nothing. -/
def close (edges : List (K × K)) : Nat → Store K C → Option (Store K C)
  | 0, _ => none
  | fuel + 1, s =>
    let r := edges.foldl absorb (s, false)
    if r.2 then close edges fuel r.1 else some r.1

/-- An edge leads from a node to another. -/
def Step (edges : List (K × K)) (a b : K) : Prop := (a, b) ∈ edges

/-! ## Where the nodes start -/

section Start

variable {ι : Type*} {items : List ι} {key : ι → K} {held : ι → Finset C}

omit [DecidableEq C] in
/-- What a node of a table starts with is held by the item it is made of. -/
theorem mem_start {k : K} {c : C}
    (h : c ∈ (Assoc.get? (items.map fun x => (key x, held x)) k).getD ∅) :
    ∃ x ∈ items, key x = k ∧ c ∈ held x := by
  cases hget : Assoc.get? (items.map fun x => (key x, held x)) k with
  | none =>
    rw [hget] at h
    exact absurd h (Finset.notMem_empty c)
  | some found =>
    obtain ⟨x, hx, heq⟩ := List.mem_map.mp (Assoc.mem_of_get? hget)
    obtain ⟨hkey, hfound⟩ := Prod.mk.inj heq
    rw [hget, Option.getD_some, ← hfound] at h
    exact ⟨x, hx, hkey, h⟩

theorem mem_foldr_union {c : C} :
    c ∈ items.foldr (fun x acc => held x ∪ acc) ∅ ↔ ∃ x ∈ items, c ∈ held x := by
  induction items with
  | nil => simp
  | cons x items ih => simp [ih]

/-- A table of nodes starts within all its items hold. -/
theorem start_subset (k : K) : (Assoc.get? (items.map fun x => (key x, held x)) k).getD ∅ ⊆
    items.foldr (fun x acc => held x ∪ acc) ∅ := by
  intro c hc
  obtain ⟨x, hx, -, hheld⟩ := mem_start hc
  exact mem_foldr_union.mpr ⟨x, hx, hheld⟩

end Start

/-! ## The passes -/

theorem absorb_of_subset {r : Store K C × Bool} {edge : K × K} (h : r.1 edge.2 ⊆ r.1 edge.1) :
    absorb r edge = r := by
  unfold absorb
  rw [Finset.union_eq_left.mpr h, Function.update_eq_self]
  simp

theorem absorb_of_not_subset {r : Store K C × Bool} {edge : K × K}
    (h : ¬ r.1 edge.2 ⊆ r.1 edge.1) :
    absorb r edge = (Function.update r.1 edge.1 (r.1 edge.1 ∪ r.1 edge.2), true) := by
  unfold absorb
  have hlt : (r.1 edge.1).card < (r.1 edge.1 ∪ r.1 edge.2).card := by
    refine Finset.card_lt_card (Finset.ssubset_iff_subset_ne.mpr ⟨Finset.subset_union_left, ?_⟩)
    exact fun heq => h (heq ▸ Finset.subset_union_right)
  simp only [Function.update_self, Prod.mk.injEq, true_and, Bool.or_eq_true, decide_eq_true_eq]
  exact .inr hlt.ne'

/-- What a pass does to the sets: they grow where the flag is raised, and are closed under the
edges where it is not. -/
theorem foldl_absorb {all : List K} {edges : List (K × K)} (hall : ∀ e ∈ edges, e.1 ∈ all)
    (r : Store K C × Bool) : ∃ r', edges.foldl absorb r = r' ∧ r.1 ≤ r'.1 ∧
      (r'.2 = true → r.2 = true ∨ weight all r.1 < weight all r'.1) ∧
      (r'.2 = false → r.2 = false ∧ r'.1 = r.1 ∧ ∀ e ∈ edges, r.1 e.2 ⊆ r.1 e.1) := by
  induction edges generalizing r with
  | nil => exact ⟨r, rfl, le_rfl, .inl, fun h => ⟨h, rfl, fun e he => absurd he List.not_mem_nil⟩⟩
  | cons edge edges ih =>
    obtain ⟨r', heq, hle, htrue, hfalse⟩ :=
      ih (fun e he => hall e (List.mem_cons_of_mem _ he)) (absorb r edge)
    by_cases hsub : r.1 edge.2 ⊆ r.1 edge.1
    · rw [absorb_of_subset hsub] at heq hle htrue hfalse
      refine ⟨r', ?_, hle, htrue, fun hf => ?_⟩
      · rw [List.foldl_cons, absorb_of_subset hsub, heq]
      · obtain ⟨hr, hsame, hclosed⟩ := hfalse hf
        refine ⟨hr, hsame, fun e he => ?_⟩
        rcases List.mem_cons.mp he with rfl | he
        · exact hsub
        · exact hclosed e he
    · have hgrow : weight all r.1 <
          weight all (Function.update r.1 edge.1 (r.1 edge.1 ∪ r.1 edge.2)) :=
        weight_update_lt (F := fun _ _ => r.1 edge.2) (hall edge List.mem_cons_self) hsub
      rw [absorb_of_not_subset hsub] at heq hle htrue hfalse
      refine ⟨r', ?_, (le_update_union _ _ _).trans hle, fun _ => .inr ?_, fun hf => ?_⟩
      · rw [List.foldl_cons, absorb_of_not_subset hsub, heq]
      · exact hgrow.trans_le (weight_mono all hle)
      · exact absurd (hfalse hf).1 (by simp)

/-- What the edges keep, a pass keeps. -/
theorem foldl_absorb_induction {P : K → C → Prop} {edges : List (K × K)}
    (hedge : ∀ e ∈ edges, ∀ c, P e.2 c → P e.1 c) (r : Store K C × Bool)
    (h : ∀ k c, c ∈ r.1 k → P k c) : ∀ k c, c ∈ (edges.foldl absorb r).1 k → P k c := by
  induction edges generalizing r with
  | nil => exact h
  | cons edge edges ih =>
    refine ih (fun e he => hedge e (List.mem_cons_of_mem _ he)) (absorb r edge) ?_
    intro k c hc
    unfold absorb at hc
    by_cases hk : k = edge.1
    · subst hk
      simp only [Function.update_self, Finset.mem_union] at hc
      rcases hc with hc | hc
      · exact h _ c hc
      · exact hedge edge List.mem_cons_self c (h _ c hc)
    · simp only [Function.update_of_ne hk] at hc
      exact h k c hc

variable {edges : List (K × K)}

/-- **Termination**: sets inside `U` grow no further than `U`. -/
theorem close_isSome {U : Finset C} (fuel : Nat) {s : Store K C} (hs : ∀ k, s k ⊆ U)
    (hfuel : (edges.map Prod.fst).toFinset.card * U.card < weight (edges.map Prod.fst) s + fuel) :
    ∃ r, close edges fuel s = some r := by
  induction fuel generalizing s with
  | zero =>
    have hle := weight_le fun k (_ : k ∈ edges.map Prod.fst) => hs k
    omega
  | succ fuel ih =>
    obtain ⟨⟨s', changed⟩, heq, -, htrue, -⟩ := foldl_absorb
      (fun e he => List.mem_map_of_mem (f := Prod.fst) he) (s, false)
    rw [close, heq]
    cases changed with
    | false => exact ⟨s', rfl⟩
    | true =>
      have hlt : weight (edges.map Prod.fst) s < weight (edges.map Prod.fst) s' :=
        (htrue rfl).resolve_left (by simp)
      have hsub : ∀ k, s' k ⊆ U := by
        have hkept : ∀ k c, c ∈ (edges.foldl absorb (s, false)).1 k → c ∈ U :=
          foldl_absorb_induction (P := fun _ c => c ∈ U) (fun _ _ _ hc => hc) (s, false)
            (fun k c hc => hs k hc)
        rw [heq] at hkept
        exact fun k c hc => hkept k c hc
      have hbound : (edges.map Prod.fst).toFinset.card * U.card <
          weight (edges.map Prod.fst) s' + fuel := by omega
      exact ih hsub hbound

/-- The result is above the start, closed under the edges, and holds nothing else. -/
theorem close_spec {fuel : Nat} {s r : Store K C} (h : close edges fuel s = some r) :
    s ≤ r ∧ (∀ e ∈ edges, r e.2 ⊆ r e.1) ∧
      ∀ P : K → C → Prop, (∀ e ∈ edges, ∀ c, P e.2 c → P e.1 c) → (∀ k c, c ∈ s k → P k c) →
        ∀ k c, c ∈ r k → P k c := by
  induction fuel generalizing s with
  | zero => cases h
  | succ fuel ih =>
    obtain ⟨⟨s', changed⟩, heq, hle, -, hfalse⟩ := foldl_absorb
      (fun e he => List.mem_map_of_mem (f := Prod.fst) he) (s, false)
    rw [close, heq] at h
    cases changed with
    | false =>
      obtain rfl : s' = r := by simpa using h
      obtain ⟨-, hsame, hclosed⟩ := hfalse rfl
      simp only at hsame
      subst hsame
      exact ⟨le_rfl, hclosed, fun P _ hs => hs⟩
    | true =>
      obtain ⟨hle', hclosed, hleast⟩ := ih h
      refine ⟨hle.trans hle', hclosed, fun P hedge hs => hleast P hedge ?_⟩
      have hkept := foldl_absorb_induction hedge (s, false) hs
      rw [heq] at hkept
      exact hkept

/-- **A node ends up with what the nodes it leads to held.** -/
theorem mem_close_iff {fuel : Nat} {s r : Store K C} (h : close edges fuel s = some r) {k : K}
    {c : C} : c ∈ r k ↔ ∃ j, Relation.ReflTransGen (Step edges) k j ∧ c ∈ s j := by
  obtain ⟨hle, hclosed, hleast⟩ := close_spec h
  constructor
  · refine hleast (fun k c => ∃ j, Relation.ReflTransGen (Step edges) k j ∧ c ∈ s j) ?_
      (fun k c hc => ⟨k, .refl, hc⟩) k c
    rintro e he c ⟨j, hway, hc⟩
    exact ⟨j, .head he hway, hc⟩
  · rintro ⟨j, hway, hc⟩
    induction hway using Relation.ReflTransGen.head_induction_on with
    | refl => exact hle j hc
    | head hstep _ ih => exact hclosed _ hstep ih

end EdgeClosure
