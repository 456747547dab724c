import Mathlib

/-!
# In-place iteration of monotone set rules

A store gives each key a finite set. A rule says what a key should hold, given the
store. One pass visits the keys in some order and adds to each what its rule asks
for, each visit seeing the additions of the visits before it; passes repeat until one
adds nothing.

- `iterate_isSome`: **termination**, when the rules stay inside a finite universe.
- `iterate_isLeast`: the result is the least store above the seed closed under the rules.
- `iterate_induction`: what holds of the seed and is kept by every rule holds of the result.
- `iterate_perm`: the visiting order does not matter.
-/

universe u v

namespace Fixpoint

variable {K : Type u} {C : Type v} [DecidableEq K] [DecidableEq C]

/-- A finite set for each key. -/
abbrev Store (K : Type u) (C : Type v) := K → Finset C

/-- Visit one key: add what its rule asks for, and say whether anything was new. -/
def visit (F : Store K C → K → Finset C) (k : K) (st : Store K C × Bool) :
    Store K C × Bool :=
  if F st.1 k ⊆ st.1 k then st
  else (Function.update st.1 k (st.1 k ∪ F st.1 k), true)

/-- Visit the keys in order. -/
def pass (F : Store K C → K → Finset C) : List K → Store K C × Bool → Store K C × Bool
  | [], st => st
  | k :: ks, st => pass F ks (visit F k st)

/-- Pass over the keys until a pass adds nothing; `none` when the bound is reached. -/
def iterate (F : Store K C → K → Finset C) (ks : List K) : Nat → Store K C → Option (Store K C)
  | 0, _ => none
  | n + 1, s =>
    match pass F ks (s, false) with
    | (s', true) => iterate F ks n s'
    | (s', false) => some s'

/-- Nothing is left for the rules to add at the keys. -/
def Closed (F : Store K C → K → Finset C) (ks : List K) (s : Store K C) : Prop :=
  ∀ k ∈ ks, F s k ⊆ s k

variable {F : Store K C → K → Finset C}

theorem iterate_zero (ks : List K) (s : Store K C) : iterate F ks 0 s = none := by
  rw [iterate]

theorem iterate_of_changed {ks : List K} {n : Nat} {s s' : Store K C}
    (h : pass F ks (s, false) = (s', true)) : iterate F ks (n + 1) s = iterate F ks n s' := by
  rw [iterate, h]

theorem iterate_of_unchanged {ks : List K} {n : Nat} {s s' : Store K C}
    (h : pass F ks (s, false) = (s', false)) : iterate F ks (n + 1) s = some s' := by
  rw [iterate, h]

/-! ## One visit -/

theorem visit_cases (k : K) (st : Store K C × Bool) :
    (F st.1 k ⊆ st.1 k ∧ visit F k st = st) ∨
      (¬ F st.1 k ⊆ st.1 k ∧
        visit F k st = (Function.update st.1 k (st.1 k ∪ F st.1 k), true)) := by
  unfold visit
  by_cases h : F st.1 k ⊆ st.1 k
  · exact .inl ⟨h, if_pos h⟩
  · exact .inr ⟨h, if_neg h⟩

theorem le_update_union (s : Store K C) (k : K) (x : Finset C) :
    s ≤ Function.update s k (s k ∪ x) := by
  intro j
  by_cases hj : j = k
  · subst hj
    rw [Function.update_self]
    exact Finset.subset_union_left
  · rw [Function.update_of_ne hj]

theorem visit_le (k : K) (st : Store K C × Bool) : st.1 ≤ (visit F k st).1 := by
  rcases visit_cases (F := F) k st with ⟨-, h⟩ | ⟨-, h⟩
  · rw [h]
  · rw [h]
    exact le_update_union _ _ _

theorem mem_visit {k j : K} {st : Store K C × Bool} {c : C}
    (h : c ∈ (visit F k st).1 j) : c ∈ st.1 j ∨ (j = k ∧ c ∈ F st.1 k) := by
  rcases visit_cases (F := F) k st with ⟨-, hv⟩ | ⟨-, hv⟩
  · rw [hv] at h
    exact .inl h
  · rw [hv] at h
    by_cases hj : j = k
    · subst hj
      have : c ∈ st.1 j ∪ F st.1 j := by simpa using h
      exact (Finset.mem_union.1 this).imp_right fun hc => ⟨rfl, hc⟩
    · have : c ∈ st.1 j := by simpa [Function.update_of_ne hj] using h
      exact .inl this

/-! ## One pass -/

theorem pass_le (ks : List K) (st : Store K C × Bool) : st.1 ≤ (pass F ks st).1 := by
  induction ks generalizing st with
  | nil => exact le_rfl
  | cons k ks ih => exact (visit_le k st).trans (ih _)

/-- The flag, once set, stays set. -/
theorem pass_of_true (ks : List K) (s : Store K C) : (pass F ks (s, true)).2 = true := by
  induction ks generalizing s with
  | nil => rfl
  | cons k ks ih =>
    rcases visit_cases (F := F) k (s, true) with ⟨-, h⟩ | ⟨-, h⟩
    · rw [pass, h]
      exact ih s
    · rw [pass, h]
      exact ih _

/-- A pass that reports nothing new left the store alone, and found it closed. -/
theorem pass_of_unchanged {ks : List K} {s : Store K C}
    (h : (pass F ks (s, false)).2 = false) :
    (pass F ks (s, false)).1 = s ∧ Closed F ks s := by
  induction ks with
  | nil => exact ⟨rfl, fun k hk => absurd hk List.not_mem_nil⟩
  | cons k ks ih =>
    rw [pass] at h ⊢
    rcases visit_cases (F := F) k (s, false) with ⟨hsub, hv⟩ | ⟨-, hv⟩
    · rw [hv] at h ⊢
      obtain ⟨hs, hclosed⟩ := ih h
      exact ⟨hs, List.forall_mem_cons.2 ⟨hsub, hclosed⟩⟩
    · rw [hv, pass_of_true] at h
      exact absurd h (by simp)

/-- What every rule keeps, a pass keeps. -/
theorem pass_induction {P : K → C → Prop}
    (hrule : ∀ s k, (∀ j c, c ∈ s j → P j c) → ∀ c ∈ F s k, P k c) (ks : List K)
    (st : Store K C × Bool) (hst : ∀ j c, c ∈ st.1 j → P j c) :
    ∀ j c, c ∈ (pass F ks st).1 j → P j c := by
  induction ks generalizing st with
  | nil => exact hst
  | cons k ks ih =>
    refine ih _ fun j c hc => ?_
    rcases mem_visit hc with hc | ⟨rfl, hc⟩
    · exact hst j c hc
    · exact hrule _ _ hst c hc

/-! ## Termination -/

/-- The number of elements the keys hold. -/
def weight (ks : List K) (s : Store K C) : Nat := ∑ k ∈ ks.toFinset, (s k).card

omit [DecidableEq C] in
theorem weight_le {ks : List K} {s : Store K C} {U : Finset C}
    (h : ∀ k ∈ ks, s k ⊆ U) : weight ks s ≤ ks.toFinset.card * U.card := by
  calc weight ks s ≤ ∑ _k ∈ ks.toFinset, U.card :=
        Finset.sum_le_sum fun k hk => Finset.card_le_card (h k (List.mem_toFinset.1 hk))
    _ = ks.toFinset.card * U.card := by rw [Finset.sum_const, nsmul_eq_mul, Nat.cast_id]

omit [DecidableEq C] in
theorem weight_mono (ks : List K) {s t : Store K C} (h : s ≤ t) : weight ks s ≤ weight ks t :=
  Finset.sum_le_sum fun k _ => Finset.card_le_card (h k)

theorem weight_update_lt {ks : List K} {s : Store K C} {k : K} (hk : k ∈ ks)
    (h : ¬ F s k ⊆ s k) :
    weight ks s < weight ks (Function.update s k (s k ∪ F s k)) := by
  refine Finset.sum_lt_sum
    (fun j _ => Finset.card_le_card (le_update_union s k (F s k) j))
    ⟨k, List.mem_toFinset.2 hk, ?_⟩
  rw [Function.update_self]
  refine Finset.card_lt_card (Finset.ssubset_iff_subset_ne.2 ⟨Finset.subset_union_left, ?_⟩)
  intro heq
  exact h (heq ▸ Finset.subset_union_right)

/-- A pass that reports something new added at least one element. -/
theorem pass_weight_lt {all ks : List K} {s : Store K C} (hks : ∀ k ∈ ks, k ∈ all)
    (h : (pass F ks (s, false)).2 = true) :
    weight all s < weight all (pass F ks (s, false)).1 := by
  induction ks with
  | nil => simp [pass] at h
  | cons k ks ih =>
    rw [pass] at h ⊢
    obtain ⟨hk, hks⟩ := List.forall_mem_cons.1 hks
    rcases visit_cases (F := F) k (s, false) with ⟨-, hv⟩ | ⟨hnew, hv⟩
    · rw [hv] at h ⊢
      exact ih hks h
    · have hle := pass_le (F := F) ks (visit F k (s, false))
      rw [hv] at hle ⊢
      exact (weight_update_lt hk hnew).trans_le (weight_mono all hle)

section Universe

variable {ks : List K} {U : Finset C}
  (hU : ∀ s k, (∀ j, s j ⊆ U) → F s k ⊆ U)

include hU

theorem pass_subset (js : List K) (st : Store K C × Bool) (hst : ∀ j, st.1 j ⊆ U) :
    ∀ j, (pass F js st).1 j ⊆ U := by
  intro j c hc
  refine pass_induction (P := fun _ c => c ∈ U) (fun s k hs c hc => ?_) js st
    (fun j c hc => hst j hc) j c hc
  exact hU s k (fun j c hc => hs j c hc) hc

/-- **Termination**: rules that stay inside `U` stop within as many passes as there are
elements of `U` to add at the keys, and one more. -/
theorem iterate_isSome (n : Nat) (s : Store K C) (hs : ∀ j, s j ⊆ U)
    (hn : ks.toFinset.card * U.card < weight ks s + n) :
    (iterate F ks n s).isSome := by
  induction n generalizing s with
  | zero =>
    have := weight_le fun k (_ : k ∈ ks) => hs k
    omega
  | succ n ih =>
    cases hp : pass F ks (s, false) with
    | mk s' changed =>
      cases changed with
      | false =>
        rw [iterate_of_unchanged hp]
        rfl
      | true =>
        rw [iterate_of_changed hp]
        have hlt := pass_weight_lt (F := F) (s := s) (fun k (hk : k ∈ ks) => hk) (by rw [hp])
        have hsub := pass_subset hU ks (s, false) hs
        rw [hp] at hlt hsub
        simp only at hlt hsub
        exact ih s' hsub (by omega)

end Universe

/-! ## What the iteration computes -/

/-- More passes than it takes change nothing. -/
theorem iterate_mono {ks : List K} {n : Nat} {s r : Store K C}
    (h : iterate F ks n s = some r) {m : Nat} (hm : n ≤ m) :
    iterate F ks m s = some r := by
  induction n generalizing s m with
  | zero => simp [iterate_zero] at h
  | succ n ih =>
    obtain ⟨m, rfl⟩ := Nat.exists_eq_add_of_le' hm
    rw [show m + (n + 1) = (m + n) + 1 by omega]
    cases hp : pass F ks (s, false) with
    | mk s' changed =>
      cases changed with
      | false =>
        rw [iterate_of_unchanged hp] at h ⊢
        exact h
      | true =>
        rw [iterate_of_changed hp] at h ⊢
        exact ih h (by omega)

/-- What every pass keeps holds of the result, which one more pass leaves. -/
theorem iterate_run {P : Store K C → Prop} {ks : List K}
    (hpass : ∀ s, P s → P (pass F ks (s, false)).1) {n : Nat} {s r : Store K C} (hs : P s)
    (h : iterate F ks n s = some r) : P r ∧ Closed F ks r := by
  induction n generalizing s with
  | zero => simp [iterate_zero] at h
  | succ n ih =>
    have hkept := hpass s hs
    cases hp : pass F ks (s, false) with
    | mk s' changed =>
      rw [hp] at hkept
      cases changed with
      | false =>
        obtain ⟨hsame, hclosed⟩ := pass_of_unchanged (by rw [hp])
        rw [hp] at hsame
        rw [iterate_of_unchanged hp] at h
        rw [← Option.some.inj h]
        exact ⟨hkept, (show s' = s from hsame) ▸ hclosed⟩
      | true =>
        rw [iterate_of_changed hp] at h
        exact ih hkept h

theorem iterate_le {ks : List K} {n : Nat} {s r : Store K C}
    (h : iterate F ks n s = some r) : s ≤ r :=
  (iterate_run (fun t ht => ht.trans (pass_le ks (t, false))) (le_refl s) h).1

theorem iterate_closed {ks : List K} {n : Nat} {s r : Store K C}
    (h : iterate F ks n s = some r) : Closed F ks r :=
  (iterate_run (P := fun _ => True) (fun _ _ => trivial) trivial h).2

/-- **The induction rule**: what the seed satisfies and every rule keeps, the result
satisfies. -/
theorem iterate_induction {P : K → C → Prop}
    (hrule : ∀ s k, (∀ j c, c ∈ s j → P j c) → ∀ c ∈ F s k, P k c)
    {ks : List K} {n : Nat} {s r : Store K C} (hs : ∀ j c, c ∈ s j → P j c)
    (h : iterate F ks n s = some r) : ∀ j c, c ∈ r j → P j c :=
  (iterate_run (P := fun s => ∀ j c, c ∈ s j → P j c)
    (fun s hs => pass_induction hrule ks (s, false) hs) hs h).1

/-- **The result is the least closed store above the seed**, for a monotone rule that asks
for nothing away from the keys. -/
theorem iterate_isLeast (hmono : Monotone F) {ks : List K} (hkeys : ∀ s, ∀ k ∉ ks, F s k = ∅)
    {n : Nat} {s r : Store K C} (h : iterate F ks n s = some r) :
    IsLeast { t | s ≤ t ∧ Closed F ks t } r := by
  refine ⟨⟨iterate_le h, iterate_closed h⟩, fun t ⟨hst, hclosed⟩ j c hc => ?_⟩
  refine iterate_induction (P := fun j c => c ∈ t j) (fun u k hu c hc => ?_)
    (fun j c hc => hst j hc) h j c hc
  by_cases hk : k ∈ ks
  · exact hclosed k hk (hmono (fun j c hc => hu j c hc) k hc)
  · rw [hkeys u k hk] at hc
    exact absurd hc (Finset.notMem_empty c)

/-- The order the keys are visited in does not change the result. -/
theorem iterate_perm (hmono : Monotone F) {ks ks' : List K}
    (hkeys : ∀ s, ∀ k ∉ ks, F s k = ∅) (hperm : ks.Perm ks') {n n' : Nat}
    {s r r' : Store K C} (h : iterate F ks n s = some r)
    (h' : iterate F ks' n' s = some r') : r = r' := by
  have hleast' := iterate_isLeast hmono
    (fun t k hk => hkeys t k fun hmem => hk (hperm.mem_iff.1 hmem)) h'
  have hsame : { t | s ≤ t ∧ Closed F ks' t } = { t | s ≤ t ∧ Closed F ks t } := by
    ext t
    refine and_congr_right fun _ => ?_
    exact ⟨fun hc k hk => hc k (hperm.mem_iff.1 hk), fun hc k hk => hc k (hperm.mem_iff.2 hk)⟩
  rw [hsame] at hleast'
  exact (iterate_isLeast hmono hkeys h).unique hleast'

end Fixpoint
