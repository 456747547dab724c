import Mathlib

/-!
# Association lists read as last-binding-wins maps

A finite map handed over as a list of `(key, value)` pairs, read the way a
mapping built from the pairs in order is read: a later binding of a key replaces
an earlier one.

- `eq_of_sorted_get?`: lists strictly sorted by key are determined by what they bind.
- `valuation`: the total reading of a list, an absent key being `⊤` ("free").
- `valuation_le_iff`: the pointwise order on valuations, in terms of bindings.
- `Entrywise`: lists related entry by entry.
-/

universe u v

namespace Assoc

variable {K : Type u} {V : Type v} [DecidableEq K]

/-- The value the last binding of `k` gives. -/
def get? : List (K × V) → K → Option V
  | [], _ => none
  | (k', v) :: rest, k =>
    match get? rest k with
    | some w => some w
    | none => if k' = k then some v else none

@[simp] theorem get?_nil (k : K) : get? ([] : List (K × V)) k = none := rfl

theorem get?_cons (k' : K) (v : V) (rest : List (K × V)) (k : K) :
    get? ((k', v) :: rest) k = (get? rest k).or (if k' = k then some v else none) := by
  rw [get?]
  cases get? rest k <;> rfl

theorem get?_append (l m : List (K × V)) (k : K) :
    get? (l ++ m) k = (get? m k).or (get? l k) := by
  induction l with
  | nil => simp
  | cons p l ih =>
    obtain ⟨k', v⟩ := p
    rw [List.cons_append, get?_cons, ih, get?_cons, Option.or_assoc]

theorem mem_of_get? {l : List (K × V)} {k : K} {v : V} (h : get? l k = some v) :
    (k, v) ∈ l := by
  induction l with
  | nil => simp at h
  | cons p l ih =>
    obtain ⟨k', w⟩ := p
    rw [get?_cons] at h
    cases hl : get? l k with
    | some x =>
      rw [hl] at h
      exact List.mem_cons_of_mem _ (ih (hl.trans h))
    | none =>
      rw [hl, Option.none_or] at h
      by_cases hk : k' = k
      · rw [if_pos hk, Option.some.injEq] at h
        rw [hk, h]
        exact List.mem_cons_self
      · rw [if_neg hk] at h
        exact absurd h (by simp)

theorem get?_isSome_of_mem {l : List (K × V)} {k : K} {v : V} (h : (k, v) ∈ l) :
    (get? l k).isSome := by
  induction l with
  | nil => simp at h
  | cons p l ih =>
    obtain ⟨k', w⟩ := p
    rw [get?_cons]
    rcases List.mem_cons.1 h with heq | hmem
    · obtain ⟨rfl, rfl⟩ := Prod.mk.inj heq
      cases get? l k <;> simp
    · obtain ⟨x, hx⟩ := Option.isSome_iff_exists.1 (ih hmem)
      simp [hx]

theorem get?_eq_none_iff {l : List (K × V)} {k : K} :
    get? l k = none ↔ ∀ v, (k, v) ∉ l := by
  constructor
  · intro h v hmem
    have := get?_isSome_of_mem hmem
    simp [h] at this
  · intro h
    cases hg : get? l k with
    | none => rfl
    | some v => exact absurd (mem_of_get? hg) (h v)

/-- Where every key is bound once, membership is lookup. -/
theorem get?_eq_some_iff {l : List (K × V)} (hl : (l.map Prod.fst).Nodup) {k : K} {v : V} :
    get? l k = some v ↔ (k, v) ∈ l := by
  refine ⟨mem_of_get?, fun h => ?_⟩
  obtain ⟨w, hw⟩ := Option.isSome_iff_exists.1 (get?_isSome_of_mem h)
  have hinj := List.inj_on_of_nodup_map hl h (mem_of_get? hw) rfl
  rw [hw, (Prod.mk.inj hinj).2]

/-- Where every key is bound once, the order of the bindings does not matter. -/
theorem get?_perm {l m : List (K × V)} (hl : (l.map Prod.fst).Nodup) (h : l.Perm m) (k : K) :
    get? l k = get? m k := by
  have hm : (m.map Prod.fst).Nodup := (h.map Prod.fst).nodup_iff.1 hl
  refine Option.ext fun v => ?_
  rw [get?_eq_some_iff hl, get?_eq_some_iff hm, h.mem_iff]

/-- The keys of the map, in the order they are first bound. -/
def keys (l : List (K × V)) : List K := (l.map Prod.fst).reverse.dedup.reverse

theorem mem_keys {l : List (K × V)} {k : K} : k ∈ keys l ↔ ∃ v, (k, v) ∈ l := by
  simp [keys]

theorem keys_perm {l m : List (K × V)} (h : l.Perm m) : (keys l).Perm (keys m) := by
  refine (List.reverse_perm _).trans (List.Perm.trans ?_ (List.reverse_perm _).symm)
  exact (((List.reverse_perm _).trans (h.map Prod.fst)).trans (List.reverse_perm _).symm).dedup

theorem get?_map_snd {W : Type v} (f : K → V → W) (l : List (K × V)) (k : K) :
    get? (l.map fun p => (p.1, f p.1 p.2)) k = (get? l k).map (f k) := by
  induction l with
  | nil => rfl
  | cons p l ih =>
    obtain ⟨k', v⟩ := p
    rw [List.map_cons, get?_cons, get?_cons, ih]
    by_cases hk : k' = k
    · subst hk
      cases get? l k' <;> simp
    · cases get? l k <;> simp [hk]

/-- Dropping keys. -/
theorem get?_filter_fst (p : K → Bool) (l : List (K × V)) (k : K) :
    get? (l.filter fun e => p e.1) k = if p k = true then get? l k else none := by
  induction l with
  | nil => simp
  | cons e l ih =>
    obtain ⟨k', v⟩ := e
    rw [List.filter_cons]
    by_cases hk' : p k' = true
    · rw [if_pos hk', get?_cons, ih, get?_cons]
      by_cases hk : k' = k
      · subst hk
        rw [if_pos hk', if_pos hk']
      · rw [if_neg hk, Option.or_none, Option.or_none]
    · rw [if_neg hk', ih, get?_cons]
      by_cases hk : k' = k
      · subst hk
        rw [if_neg hk', if_neg hk']
      · rw [if_neg hk, Option.or_none]

/-- The keys of `l`, each strictly below the next. -/
def KeysSorted [LT K] (l : List (K × V)) : Prop :=
  l.Pairwise fun p q => p.1 < q.1

section Sorted

variable [Preorder K]

omit [DecidableEq K] in
theorem KeysSorted.nodup {l : List (K × V)} (h : KeysSorted l) : (l.map Prod.fst).Nodup :=
  (List.pairwise_map.2 (h.imp fun hlt => ne_of_lt hlt))

/-- Two lists strictly sorted by key with the same bindings are the same list. -/
theorem eq_of_sorted_get? {l m : List (K × V)} (hl : KeysSorted l) (hm : KeysSorted m)
    (h : ∀ k, get? l k = get? m k) : l = m := by
  have hmem : ∀ p, p ∈ l ↔ p ∈ m := by
    rintro ⟨k, v⟩
    rw [← get?_eq_some_iff hl.nodup, ← get?_eq_some_iff hm.nodup, h]
  have hperm : l.Perm m :=
    (List.perm_ext_iff_of_nodup hl.nodup.of_map hm.nodup.of_map).2 hmem
  refine List.Perm.eq_of_pairwise ?_ hl hm hperm
  intro p q _ _ hpq hqp
  exact absurd hqp (lt_asymm hpq)

end Sorted

/-! ## Valuations -/

/-- The total reading of a list: an unbound key is free, the top of the order. -/
def valuation (l : List (K × V)) (k : K) : WithTop V :=
  match get? l k with
  | some v => (v : WithTop V)
  | none => ⊤

theorem valuation_eq_coe_iff {l : List (K × V)} {k : K} {v : V} :
    valuation l k = (v : WithTop V) ↔ get? l k = some v := by
  unfold valuation
  cases get? l k <;> simp

theorem valuation_injective {l m : List (K × V)} (h : valuation l = valuation m) (k : K) :
    get? l k = get? m k := by
  have hk := congrFun h k
  unfold valuation at hk
  cases hl : get? l k <;> cases hm : get? m k <;> simp_all

/-- Below, pointwise: everything the wider list binds, the narrower one binds to a
value at or below it. -/
theorem valuation_le_iff [PartialOrder V] {l m : List (K × V)} :
    valuation l ≤ valuation m ↔
      ∀ k w, get? m k = some w → ∃ v, get? l k = some v ∧ v ≤ w := by
  constructor
  · intro h k w hw
    have hk := h k
    rw [valuation_eq_coe_iff.2 hw] at hk
    obtain ⟨v, hv, hle⟩ := WithTop.le_coe_iff.1 hk
    exact ⟨v, valuation_eq_coe_iff.1 hv, hle⟩
  · intro h k
    cases hm : get? m k with
    | none =>
      have : valuation m k = ⊤ := by simp [valuation, hm]
      rw [this]
      exact le_top
    | some w =>
      obtain ⟨v, hv, hle⟩ := h k w hm
      rw [valuation_eq_coe_iff.2 hm, valuation_eq_coe_iff.2 hv]
      exact WithTop.coe_le_coe.2 hle

end Assoc

/-! ## Lists related entry by entry -/

namespace Entrywise

variable {α : Type u} {β : Type v} {R : α → β → Prop} {l : List α} {m : List β}

/-- Each entry on the left has its entry on the right. -/
theorem forall₂_left (h : List.Forall₂ R l m) {x : α} (hx : x ∈ l) : ∃ y ∈ m, R x y := by
  induction h with
  | nil => exact absurd hx List.not_mem_nil
  | cons hR _ ih =>
    rcases List.mem_cons.1 hx with rfl | hx
    · exact ⟨_, List.mem_cons_self, hR⟩
    · obtain ⟨y, hy, hR'⟩ := ih hx
      exact ⟨y, List.mem_cons_of_mem _ hy, hR'⟩

/-- Each entry on the right has its entry on the left. -/
theorem forall₂_right (h : List.Forall₂ R l m) {y : β} (hy : y ∈ m) : ∃ x ∈ l, R x y := by
  obtain ⟨x, hx, hR⟩ := forall₂_left h.flip hy
  exact ⟨x, hx, hR⟩

theorem exists_forall₂ (h : ∀ x ∈ l, ∃ y, R x y) : ∃ m, List.Forall₂ R l m := by
  induction l with
  | nil => exact ⟨[], .nil⟩
  | cons x l ih =>
    obtain ⟨y, hy⟩ := h x List.mem_cons_self
    obtain ⟨m, hm⟩ := ih fun z hz => h z (List.mem_cons_of_mem _ hz)
    exact ⟨y :: m, .cons hy hm⟩

theorem forall₂_trans {R : α → α → Prop} (hR : ∀ x y z, R x y → R y z → R x z)
    {l m n : List α} (h : List.Forall₂ R l m) (h' : List.Forall₂ R m n) : List.Forall₂ R l n := by
  induction h generalizing n with
  | nil =>
    cases h'
    exact .nil
  | cons hxy _ ih =>
    cases h' with
    | cons hyz h' => exact .cons (hR _ _ _ hxy hyz) (ih h')

end Entrywise
