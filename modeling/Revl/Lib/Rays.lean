import Mathlib

/-!
# Vectors of minimal support

The non-negative integer vectors on a finite ground set that some linear forms annul are built from
those of minimal support. One more form is annulled by elimination: the vectors it annuls, and the
combinations of one where it is positive and one where it is negative.

- `Flow`, `Below`, `Extreme`: the vectors, inclusion of supports, and the primitive vectors of
  minimal support.
- `Extreme.eq`: an extreme vector is known by its support.
- `Extreme.of_cons`: **elimination misses none.**
- `extreme_iff_least`: among vectors that miss none, the extreme are those of least support.
-/

universe u

namespace Rays

variable {P : Type u}

/-- The non-negative vectors on a ground set that the forms annul. -/
structure Flow (S : Finset P) (forms : Set ((P → ℤ) →ₗ[ℤ] ℤ)) (y : P → ℤ) : Prop where
  nonneg : ∀ p, 0 ≤ y p
  ground : ∀ p, y p ≠ 0 → p ∈ S
  annuls : ∀ f ∈ forms, f y = 0

/-- The support of one vector is within that of the other. -/
def Below (z y : P → ℤ) : Prop := ∀ p, y p = 0 → z p = 0

/-- No number but one divides all entries. -/
def Primitive (y : P → ℤ) : Prop := ∀ k : ℕ, (∀ p, (k : ℤ) ∣ y p) → k = 1

/-- A primitive vector of minimal support. -/
structure Extreme (S : Finset P) (forms : Set ((P → ℤ) →ₗ[ℤ] ℤ)) (y : P → ℤ) : Prop where
  flow : Flow S forms y
  ne_zero : y ≠ 0
  minimal : ∀ z, Flow S forms z → z ≠ 0 → Below z y → Below y z
  primitive : Primitive y

theorem Below.trans {x y z : P → ℤ} (h : Below x y) (h' : Below y z) : Below x z :=
  fun p hp => h p (h' p hp)

variable {S : Finset P} {forms : Set ((P → ℤ) →ₗ[ℤ] ℤ)} {x y z : P → ℤ}

theorem exists_ne_zero (h : y ≠ 0) : ∃ p, y p ≠ 0 := by
  by_contra hnone
  push Not at hnone
  exact h (funext hnone)

theorem Flow.pos (h : Flow S forms y) {p : P} (hp : y p ≠ 0) : 0 < y p :=
  lt_of_le_of_ne (h.nonneg p) (Ne.symm hp)

theorem Flow.mono {forms' : Set ((P → ℤ) →ₗ[ℤ] ℤ)} (h : Flow S forms y) (hsub : forms' ⊆ forms) :
    Flow S forms' y :=
  ⟨h.nonneg, h.ground, fun f hf => h.annuls f (hsub hf)⟩

/-- A non-negative combination of two vectors is one. -/
theorem Flow.add_smul (hy : Flow S forms y) (hz : Flow S forms z) {m n : ℤ} (hm : 0 ≤ m)
    (hn : 0 ≤ n) : Flow S forms (m • y + n • z) where
  nonneg := fun p => add_nonneg (mul_nonneg hm (hy.nonneg p)) (mul_nonneg hn (hz.nonneg p))
  ground := by
    intro p hp
    by_contra hout
    have hyp : y p = 0 := by_contra fun h => hout (hy.ground p h)
    have hzp : z p = 0 := by_contra fun h => hout (hz.ground p h)
    exact hp (by simp [hyp, hzp])
  annuls := fun f hf => by
    rw [map_add, map_smul, map_smul, hy.annuls f hf, hz.annuls f hf, smul_zero, smul_zero, add_zero]

/-- **One vector taken off another**, as often as the entries allow: some place of the support is
empty then. -/
theorem reduce (hy : Flow S forms y) (hz : Flow S forms z) (hne : z ≠ 0) (hbelow : Below z y) :
    ∃ m n : ℤ, 0 < m ∧ 0 < n ∧ Flow S forms (m • y - n • z) ∧ Below (m • y - n • z) y ∧
      ∃ p, y p ≠ 0 ∧ (m • y - n • z) p = 0 := by
  classical
  obtain ⟨q, hq⟩ := exists_ne_zero hne
  -- the place where the quotient of the entries is least
  obtain ⟨p, hp, hleast⟩ := (S.filter fun p => z p ≠ 0).exists_min_image
    (fun p => (y p : ℚ) / z p) ⟨q, Finset.mem_filter.mpr ⟨hz.ground q hq, hq⟩⟩
  have hzp : 0 < z p := hz.pos (Finset.mem_filter.mp hp).2
  have hyp : y p ≠ 0 := fun h => (Finset.mem_filter.mp hp).2 (hbelow p h)
  have happly : ∀ r, (z p • y - y p • z) r = z p * y r - y p * z r := fun r => rfl
  have hbelow' : Below (z p • y - y p • z) y := by
    intro r hr
    rw [happly, hr, hbelow r hr, mul_zero, mul_zero, sub_zero]
  refine ⟨z p, y p, hzp, hy.pos hyp, ⟨fun r => ?_, fun r hr => ?_, fun f hf => ?_⟩, hbelow', p, hyp,
    ?_⟩
  · rw [happly, sub_nonneg]
    by_cases hzr : z r = 0
    · rw [hzr, mul_zero]
      exact mul_nonneg hzp.le (hy.nonneg r)
    · have hquot := hleast r (Finset.mem_filter.mpr ⟨hz.ground r hzr, hzr⟩)
      have hzr' : 0 < z r := hz.pos hzr
      rw [div_le_div_iff₀ (by exact_mod_cast hzp) (by exact_mod_cast hzr')] at hquot
      have hcross : y p * z r ≤ y r * z p := by exact_mod_cast hquot
      rw [mul_comm (z p)]
      exact hcross
  · exact hy.ground r fun h => hr (hbelow' r h)
  · rw [map_sub, map_smul, map_smul, hy.annuls f hf, hz.annuls f hf, smul_zero, smul_zero, sub_zero]
  · rw [happly, mul_comm, sub_self]

/-- The places of the support. -/
noncomputable def size (S : Finset P) (y : P → ℤ) : ℕ := by
  classical exact (S.filter fun p => y p ≠ 0).card

theorem size_lt (hbelow : Below x y) (hy : Flow S forms y) {p : P} (hp : y p ≠ 0)
    (hx : x p = 0) : size S x < size S y := by
  classical
  refine Finset.card_lt_card (Finset.ssubset_iff_of_subset ?_ |>.mpr ⟨p, ?_, ?_⟩)
  · intro q hq
    rw [Finset.mem_filter] at hq ⊢
    exact ⟨hq.1, fun h => hq.2 (hbelow q h)⟩
  · exact Finset.mem_filter.mpr ⟨hy.ground p hp, hp⟩
  · rw [Finset.mem_filter]
    exact fun h => h.2 hx

/-! ## Primitive vectors -/

/-- Every vector is a multiple of a primitive one. -/
theorem exists_primitive (hy : Flow S forms y) (hne : y ≠ 0) :
    ∃ (g : ℕ) (x : P → ℤ), 0 < g ∧ y = (g : ℤ) • x ∧ Primitive x := by
  obtain ⟨q, hq⟩ := exists_ne_zero hne
  let g : ℕ := S.gcd fun p => (y p).natAbs
  have hdvd : ∀ p, (g : ℤ) ∣ y p := by
    intro p
    by_cases hp : y p = 0
    · rw [hp]
      exact dvd_zero _
    · exact Int.natCast_dvd.mpr (Finset.gcd_dvd (hy.ground p hp))
  have hpos : 0 < g := by
    refine Nat.pos_of_ne_zero fun h => hq ?_
    have := hdvd q
    rw [h] at this
    exact zero_dvd_iff.mp this
  choose x hx using hdvd
  refine ⟨g, x, hpos, funext hx, fun k hk => ?_⟩
  have hmul : k * g ∣ g := by
    refine Finset.dvd_gcd fun p _ => Int.natCast_dvd.mp ?_
    rw [hx p]
    push_cast
    rw [mul_comm]
    exact mul_dvd_mul_left _ (hk p)
  have hle : k * g ≤ 1 * g := by
    rw [one_mul]
    exact Nat.le_of_dvd hpos hmul
  have hk1 : k ≤ 1 := Nat.le_of_mul_le_mul_right hle hpos
  refine le_antisymm hk1 (Nat.pos_of_ne_zero fun h => ?_)
  rw [h, zero_mul] at hmul
  exact hpos.ne' (zero_dvd_iff.mp hmul)

/-- A vector whose multiple is a flow is one. -/
theorem Flow.of_smul {g : ℤ} (hg : 0 < g) (h : Flow S forms (g • x)) : Flow S forms x where
  nonneg := fun p => nonneg_of_mul_nonneg_right (h.nonneg p) hg
  ground := fun p hp => h.ground p (mul_ne_zero hg.ne' hp)
  annuls := fun f hf => by
    have := h.annuls f hf
    rw [map_smul, smul_eq_mul] at this
    exact (mul_eq_zero.mp this).resolve_left hg.ne'

theorem below_smul_iff {g : ℤ} (hg : g ≠ 0) : Below (g • x) y ↔ Below x y :=
  forall_congr' fun _ => imp_congr_right fun _ => by simp [hg]

theorem below_of_smul_iff {g : ℤ} (hg : g ≠ 0) : Below z (g • x) ↔ Below z x :=
  forall_congr' fun _ => by simp [hg]

/-- **Below every vector there is an extreme one.** -/
theorem exists_extreme (hy : Flow S forms y) (hne : y ≠ 0) :
    ∃ r, Extreme S forms r ∧ Below r y := by
  -- on the size of the support
  induction hn : size S y using Nat.strong_induction_on generalizing y with
  | _ n ih =>
    by_cases hmin : ∀ z, Flow S forms z → z ≠ 0 → Below z y → Below y z
    · obtain ⟨g, x, hg, rfl, hprim⟩ := exists_primitive hy hne
      have hg' : (0 : ℤ) < g := by exact_mod_cast hg
      refine ⟨x, ⟨hy.of_smul hg', ?_, fun z hz hz0 hzx => ?_, hprim⟩, ?_⟩
      · rintro rfl
        exact hne (smul_zero _)
      · exact (below_smul_iff hg'.ne').mp
          (hmin z hz hz0 ((below_of_smul_iff hg'.ne').mpr hzx))
      · exact (below_of_smul_iff hg'.ne').mpr fun _ => id
    · push Not at hmin
      obtain ⟨z, hz, hz0, hzy, hnot⟩ := hmin
      have hplace : ∃ p, y p ≠ 0 ∧ z p = 0 := by
        by_contra hall
        push Not at hall
        exact hnot fun p hzp => by_contra fun hyp => hall p hyp hzp
      obtain ⟨p, hp, hzp⟩ := hplace
      obtain ⟨r, hr, hrz⟩ := ih _ (hn ▸ size_lt hzy hy hp hzp) hz hz0 rfl
      exact ⟨r, hr, hrz.trans hzy⟩

/-- Vectors within the support of an extreme one are in proportion to it. -/
theorem Extreme.proportional (hy : Extreme S forms y) (hz : Flow S forms z) (hne : z ≠ 0)
    (hbelow : Below z y) : ∃ m n : ℤ, 0 < m ∧ 0 < n ∧ m • y = n • z := by
  obtain ⟨m, n, hm, hn, hflow, hless, p, hp, hzero⟩ := reduce hy.flow hz hne hbelow
  refine ⟨m, n, hm, hn, sub_eq_zero.mp ?_⟩
  by_contra h
  exact hp (hy.minimal _ hflow h hless p hzero)

/-- **An extreme vector is known by its support.** -/
theorem Extreme.eq (hy : Extreme S forms y) (hz : Extreme S forms z) (hbelow : Below z y) :
    z = y := by
  obtain ⟨m, n, hm, hn, heq⟩ := hy.proportional hz.flow hz.ne_zero hbelow
  lift m to ℕ using hm.le
  lift n to ℕ using hn.le
  have hm : 0 < m := by exact_mod_cast hm
  obtain ⟨d, m', n', hd, hcop, rfl, rfl⟩ : ∃ d m' n' : ℕ, 0 < d ∧ Nat.Coprime m' n' ∧
      m = m' * d ∧ n = n' * d := by
    obtain ⟨m', n', hcop, hm', hn'⟩ := Nat.exists_coprime m n
    exact ⟨Nat.gcd m n, m', n', Nat.gcd_pos_of_pos_left n hm, hcop, hm', hn'⟩
  have hentry : ∀ p, (m' : ℤ) * y p = n' * z p := by
    intro p
    have hp : ((m' * d : ℕ) : ℤ) * y p = ((n' * d : ℕ) : ℤ) * z p := congrFun heq p
    push_cast at hp
    have hd' : (d : ℤ) ≠ 0 := by exact_mod_cast hd.ne'
    refine mul_left_cancel₀ hd' ?_
    linarith
  have hn1 : n' = 1 := hy.primitive n' fun p =>
    (Nat.isCoprime_iff_coprime.mpr hcop).symm.dvd_of_dvd_mul_left (Dvd.intro _ (hentry p).symm)
  have hm1 : m' = 1 := hz.primitive m' fun p =>
    (Nat.isCoprime_iff_coprime.mpr hcop).dvd_of_dvd_mul_left (Dvd.intro _ (hentry p))
  funext p
  have hp := hentry p
  rw [hn1, hm1] at hp
  simpa using hp.symm

/-! ## Elimination -/

/-- A form that is negative at a vector is negative at an extreme one below it. -/
theorem exists_negative (f : (P → ℤ) →ₗ[ℤ] ℤ) (hy : Flow S forms y) (hneg : f y < 0) :
    ∃ r, Extreme S forms r ∧ Below r y ∧ f r < 0 := by
  induction hn : size S y using Nat.strong_induction_on generalizing y with
  | _ n ih =>
    have hne : y ≠ 0 := by
      rintro rfl
      rw [map_zero] at hneg
      exact lt_irrefl _ hneg
    obtain ⟨r, hr, hry⟩ := exists_extreme hy hne
    by_cases hfr : f r < 0
    · exact ⟨r, hr, hry, hfr⟩
    · obtain ⟨m, k, hm, hk, hflow, hless, p, hp, hzero⟩ := reduce hy hr.flow hr.ne_zero hry
      have hfw : f (m • y - k • r) < 0 := by
        rw [map_sub, map_smul, map_smul, smul_eq_mul, smul_eq_mul]
        have h₁ : m * f y < 0 := mul_neg_of_pos_of_neg hm hneg
        have h₂ : 0 ≤ k * f r := mul_nonneg hk.le (not_lt.mp hfr)
        linarith
      obtain ⟨r', hr', hrw, hfr'⟩ := ih _ (hn ▸ size_lt hless hy hp hzero) hflow hfw rfl
      exact ⟨r', hr', hrw.trans hless, hfr'⟩

/-- Where an extreme vector at which the form is positive is below one it annuls, so is an extreme
vector at which it is negative. -/
theorem exists_opposite (f : (P → ℤ) →ₗ[ℤ] ℤ) (hy : Flow S forms y) (hzero : f y = 0)
    (hx : Extreme S forms x) (hxy : Below x y) (hpos : 0 < f x) :
    ∃ r, Extreme S forms r ∧ Below r y ∧ f r < 0 := by
  obtain ⟨m, k, -, hk, hflow, hless, -⟩ := reduce hy hx.flow hx.ne_zero hxy
  have hfw : f (m • y - k • x) < 0 := by
    rw [map_sub, map_smul, map_smul, smul_eq_mul, smul_eq_mul, hzero, mul_zero, zero_sub]
    exact neg_lt_zero.mpr (mul_pos hk hpos)
  obtain ⟨r, hr, hrw, hfr⟩ := exists_negative f hflow hfw
  exact ⟨r, hr, hrw.trans hless, hfr⟩

/-- **Elimination misses none**: an extreme vector of one more form is an extreme vector the form
annuls, or has the support of a combination of two where it has opposite signs. -/
theorem Extreme.of_cons {f : (P → ℤ) →ₗ[ℤ] ℤ} (hy : Extreme S (insert f forms) y) :
    (Extreme S forms y ∧ f y = 0) ∨ ∃ r₁ r₂, Extreme S forms r₁ ∧ Extreme S forms r₂ ∧
      0 < f r₁ ∧ f r₂ < 0 ∧ Below (-f r₂ • r₁ + f r₁ • r₂) y := by
  have hflow : Flow S forms y := hy.flow.mono (Set.subset_insert _ _)
  have hzero : f y = 0 := hy.flow.annuls f (Set.mem_insert _ _)
  obtain ⟨r, hr, hry⟩ := exists_extreme hflow hy.ne_zero
  have hbelow : ∀ {r₁ r₂ : P → ℤ} (m n : ℤ), Below r₁ y → Below r₂ y →
      Below (m • r₁ + n • r₂) y := fun m n h₁ h₂ p hp => by
    show m * _ + n * _ = 0
    rw [h₁ p hp, h₂ p hp, mul_zero, mul_zero, add_zero]
  rcases lt_trichotomy (f r) 0 with hneg | hannul | hpos
  · obtain ⟨r₁, hr₁, hr₁y, hf₁⟩ := exists_opposite (-f) hflow (by simp [hzero]) hr hry
      (by simpa using hneg)
    exact .inr ⟨r₁, r, hr₁, hr, by simpa using hf₁, hneg, hbelow _ _ hr₁y hry⟩
  · refine .inl ⟨?_, hzero⟩
    have hr' : Flow S (insert f forms) r := ⟨hr.flow.nonneg, hr.flow.ground, fun g hg => by
      rcases Set.mem_insert_iff.mp hg with rfl | hg
      · exact hannul
      · exact hr.flow.annuls g hg⟩
    have hr'' : Extreme S (insert f forms) r := ⟨hr', hr.ne_zero, fun z hz hz0 hzr =>
      hr.minimal z (hz.mono (Set.subset_insert _ _)) hz0 hzr, hr.primitive⟩
    exact hy.eq hr'' hry ▸ hr
  · obtain ⟨r₂, hr₂, hr₂y, hf₂⟩ := exists_opposite f hflow hzero hr hry hpos
    exact .inr ⟨r, r₂, hr, hr₂, hpos, hf₂, hbelow _ _ hry hr₂y⟩

/-- **Among primitive vectors that miss no extreme one, the extreme are those of least support.** -/
theorem extreme_iff_least {Z : Set (P → ℤ)} (hflow : ∀ z ∈ Z, Flow S forms z ∧ z ≠ 0)
    (hprim : ∀ z ∈ Z, Primitive z) (hall : ∀ r, Extreme S forms r → r ∈ Z) (hy : y ∈ Z) :
    Extreme S forms y ↔ ∀ z ∈ Z, Below z y → Below y z := by
  constructor
  · exact fun h z hz hzy => h.minimal z (hflow z hz).1 (hflow z hz).2 hzy
  · intro hleast
    obtain ⟨r, hr, hry⟩ := exists_extreme (hflow y hy).1 (hflow y hy).2
    have hyr : Below y r := hleast r (hall r hr) hry
    exact ⟨(hflow y hy).1, (hflow y hy).2,
      fun z hz hz0 hzy => hyr.trans (hr.minimal z hz hz0 (hzy.trans hyr)), hprim y hy⟩

end Rays
