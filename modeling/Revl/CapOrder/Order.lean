import Revl.CapOrder.Cap

/-!
# The capability order

`covers` compares tokens by identity and parameters one by one, each in the order
its own value carries. On well-formed capabilities this is a partial order: the
order of points, a token with a valuation in which an unbound parameter is free.

- `ParamValue` is partially ordered by `paramLeq` (prefix, integer order, equality).
- `Point`, `covers_iff_point_le`: `covers` is the pointwise order of points.
- `WfCap`: well-formed capabilities, a partial order under `covers`.
- `coversSet_eq_nil_iff`: an empty `extra` means every reach is covered.
-/

namespace Revl.CapOrder

/-! ## The value orders -/

theorem leqPath_iff {narrow wide : List String} :
    leqPath narrow wide = true ↔ wide <+: narrow := by
  unfold leqPath
  constructor
  · intro h
    split at h
    · exact absurd h (by simp)
    · exact List.prefix_iff_eq_take.2 (of_decide_eq_true h).symm
  · intro h
    have hlen : ¬ wide.length > narrow.length := by
      have := h.length_le
      omega
    rw [if_neg hlen]
    exact decide_eq_true (List.prefix_iff_eq_take.1 h).symm

@[simp] theorem paramLeq_symbol_left (r : String) (w : ParamValue) :
    paramLeq (.symbol r) w = true ↔ w = .symbol r := by
  simp [paramLeq, ParamValue.isSymbol, eq_comm]

@[simp] theorem paramLeq_symbol_right (v : ParamValue) (r : String) :
    paramLeq v (.symbol r) = true ↔ v = .symbol r := by
  simp [paramLeq, ParamValue.isSymbol]

@[simp] theorem paramLeq_path (n w : List String) :
    paramLeq (.path n) (.path w) = true ↔ w <+: n := leqPath_iff

@[simp] theorem paramLeq_discrete_left (s : String) (w : ParamValue) :
    paramLeq (.discrete s) w = true ↔ w = .discrete s := by
  cases w <;> simp [paramLeq, ParamValue.isSymbol, eq_comm]

@[simp] theorem paramLeq_discrete_right (v : ParamValue) (s : String) :
    paramLeq v (.discrete s) = true ↔ v = .discrete s := by
  cases v <;> simp [paramLeq, ParamValue.isSymbol]

@[simp] theorem paramLeq_path_ceiling (n : List String) (w : Int) :
    paramLeq (.path n) (.ceiling w) = false := by
  simp [paramLeq, ParamValue.isSymbol]

@[simp] theorem paramLeq_ceiling_path (n : Int) (w : List String) :
    paramLeq (.ceiling n) (.path w) = false := by
  simp [paramLeq, ParamValue.isSymbol]

theorem paramLeq_refl (v : ParamValue) : paramLeq v v = true := by
  cases v <;> simp

theorem paramLeq_trans {u v w : ParamValue} (huv : paramLeq u v = true)
    (hvw : paramLeq v w = true) : paramLeq u w = true := by
  cases v with
  | symbol r =>
    rw [(paramLeq_symbol_right u r).1 huv]
    exact hvw
  | discrete s =>
    rw [(paramLeq_discrete_right u s).1 huv]
    exact hvw
  | path p =>
    cases u <;> cases w <;> simp_all
    exact hvw.trans huv
  | ceiling n =>
    cases u <;> cases w <;> simp_all
    exact huv.trans hvw

theorem paramLeq_antisymm {v w : ParamValue} (hvw : paramLeq v w = true)
    (hwv : paramLeq w v = true) : v = w := by
  cases v with
  | symbol r => exact ((paramLeq_symbol_left r w).1 hvw).symm
  | discrete s => exact ((paramLeq_discrete_left s w).1 hvw).symm
  | path p =>
    cases w <;> simp_all
    exact hwv.eq_of_length_le hvw.length_le
  | ceiling n =>
    cases w <;> simp_all
    exact le_antisymm hvw hwv

/-- Values in their own orders: a narrower value is below a wider one. -/
instance : PartialOrder ParamValue where
  le v w := paramLeq v w = true
  le_refl := paramLeq_refl
  le_trans _ _ _ := paramLeq_trans
  le_antisymm _ _ := paramLeq_antisymm

/-! ## Well-formed capabilities -/

/-- The values an order stores: a path or a symbol, a string or a symbol, an integer.
The sign of an integer is left open: the numeral of a suffixed budget may carry one. -/
def FitsOrder : ParamOrder → ParamValue → Prop
  | .path, .path _ => True
  | .path, .symbol _ => True
  | .discrete, .discrete _ => True
  | .discrete, .symbol _ => True
  | .ceiling, .ceiling _ => True
  | .bytes, .ceiling _ => True
  | .duration, .ceiling _ => True
  | _, _ => False

/-- A parameter as `canonParam` leaves it: the canonical name, and a value of the order
the name denotes where it denotes one. -/
def CanonicalParam (declared : Declared) (name : String) (v : ParamValue) : Prop :=
  normalize name = name ∧ ∀ row ∈ orderRow name declared, FitsOrder row.2 v

/-- What holds of a canonical capability: a token, no parameters on `*`, and sorted,
uniquely named parameters with canonical values. -/
structure Cap.WellFormed (declared : Declared) (c : Cap) : Prop where
  token_ne : c.token ≠ ""
  star_bare : c.token = "*" → c.params = []
  sorted : Assoc.KeysSorted c.params
  canonical : ∀ p ∈ c.params, CanonicalParam declared p.1 p.2

/-! ## Points -/

/-- What a capability denotes: a token and a valuation of every parameter. -/
structure Point where
  token : String
  valuation : String → WithTop ParamValue

namespace Point

/-- Below: the same token, and a narrower value at every parameter. -/
instance : PartialOrder Point where
  le p q := p.token = q.token ∧ p.valuation ≤ q.valuation
  le_refl p := ⟨rfl, le_rfl⟩
  le_trans _ _ _ hpq hqr := ⟨hpq.1.trans hqr.1, hpq.2.trans hqr.2⟩
  le_antisymm p q hpq hqp := by
    obtain ⟨t, v⟩ := p
    obtain ⟨t', v'⟩ := q
    obtain rfl : t = t' := hpq.1
    obtain rfl : v = v' := le_antisymm hpq.2 hqp.2
    rfl

theorem le_def {p q : Point} :
    p ≤ q ↔ p.token = q.token ∧ p.valuation ≤ q.valuation := Iff.rfl

end Point

/-- The point a capability denotes. -/
def Cap.point (c : Cap) : Point := ⟨c.token, Assoc.valuation c.params⟩

/-- A well-formed capability is determined by its point. -/
theorem Cap.WellFormed.eq_of_point_eq {d : Declared} {a b : Cap} (ha : a.WellFormed d)
    (hb : b.WellFormed d) (h : a.point = b.point) : a = b := by
  obtain ⟨ht, hv⟩ := Point.mk.inj h
  have hp := Assoc.eq_of_sorted_get? ha.sorted hb.sorted (Assoc.valuation_injective hv)
  cases a
  cases b
  simp_all

theorem narrowsParam_iff {b : Cap} {p : String × ParamValue} :
    narrowsParam b p = true ↔
      ∃ bv, Assoc.get? b.params p.1 = some bv ∧ paramLeq bv p.2 = true := by
  unfold narrowsParam
  cases Assoc.get? b.params p.1 <;> simp

/-- What `covers` decides: `*` against `*`, else token identity and every parameter the
wider side binds. -/
theorem covers_iff {a b : Cap} :
    covers a b = true ↔
      (a.token = "*" ∧ b.token = "*") ∨
      (a.token ≠ "*" ∧ a.token = b.token ∧
        ∀ p ∈ a.params, ∃ bv, Assoc.get? b.params p.1 = some bv ∧ paramLeq bv p.2 = true) := by
  have hall : a.params.all (narrowsParam b) = true ↔
      ∀ p ∈ a.params, ∃ bv, Assoc.get? b.params p.1 = some bv ∧ paramLeq bv p.2 = true := by
    rw [List.all_eq_true]
    exact forall₂_congr fun p _ => narrowsParam_iff
  unfold covers
  by_cases ha : a.token = "*"
  · simp [ha]
  · by_cases hb : b.token = "*"
    · simp [ha, hb]
    · by_cases ht : a.token = b.token
      · rw [if_neg ha, if_neg hb, if_neg (not_not.2 ht), hall]
        simp [hb, ht]
      · simp [ha, hb, ht]

/-- **`covers` is the order of points**, on capabilities that bind each name once. -/
theorem covers_iff_point_le {d : Declared} {a b : Cap} (ha : a.WellFormed d)
    (hb : b.WellFormed d) : covers a b = true ↔ b.point ≤ a.point := by
  have hparams : (∀ p ∈ a.params, ∃ bv,
      Assoc.get? b.params p.1 = some bv ∧ paramLeq bv p.2 = true) ↔
      Assoc.valuation b.params ≤ Assoc.valuation a.params := by
    rw [Assoc.valuation_le_iff]
    constructor
    · intro h k w hw
      exact h (k, w) (Assoc.mem_of_get? hw)
    · rintro h ⟨k, w⟩ hmem
      exact h k w ((Assoc.get?_eq_some_iff ha.sorted.nodup).2 hmem)
  rw [covers_iff, hparams, Point.le_def]
  constructor
  · rintro (⟨hat, hbt⟩ | ⟨_, ht, hle⟩)
    · have hpa := ha.star_bare hat
      have hpb := hb.star_bare hbt
      exact ⟨hbt.trans hat.symm, by simp [Cap.point, hpa, hpb]⟩
    · exact ⟨ht.symm, hle⟩
  · rintro ⟨ht, hle⟩
    by_cases hat : a.token = "*"
    · exact .inl ⟨hat, ht.trans hat⟩
    · exact .inr ⟨hat, ht.symm, hle⟩

/-! ## Well-formed capabilities as an order -/

/-- A capability that carries its well-formedness. -/
def WfCap (declared : Declared) : Type := { c : Cap // c.WellFormed declared }

namespace WfCap

variable {d : Declared}

instance : PartialOrder (WfCap d) where
  le b a := covers a.1 b.1 = true
  le_refl a := (covers_iff_point_le a.2 a.2).2 le_rfl
  le_trans c b a hcb hba :=
    (covers_iff_point_le a.2 c.2).2
      (((covers_iff_point_le b.2 c.2).1 hcb).trans ((covers_iff_point_le a.2 b.2).1 hba))
  le_antisymm b a hba hab :=
    Subtype.ext (b.2.eq_of_point_eq a.2
      (le_antisymm ((covers_iff_point_le a.2 b.2).1 hba) ((covers_iff_point_le b.2 a.2).1 hab)))

theorem le_def {a b : WfCap d} : b ≤ a ↔ covers a.1 b.1 = true := Iff.rfl

end WfCap

/-- `*` covers exactly what is `*`. -/
theorem covers_of_star {a b : Cap} (ha : a.token = "*") :
    covers a b = true ↔ b.token = "*" := by
  simp [covers, ha]

/-- `*` is covered exactly by what is `*`. -/
theorem star_covered_iff {a b : Cap} (hb : b.token = "*") :
    covers a b = true ↔ a.token = "*" := by
  by_cases ha : a.token = "*"
  · simp [covers, ha, hb]
  · simp [covers, ha, hb]

/-! ## Coverage of a reach -/

theorem coveredByAny_iff {held : List Cap} {c : Cap} :
    coveredByAny held c = true ↔ ∃ h ∈ held, covers h c = true := List.any_eq_true

/-- The `extra` of a coverage check is empty exactly when nothing widens. -/
theorem coversSet_eq_nil_iff {held reach : List Cap} :
    coversSet held reach = [] ↔ ∀ c ∈ reach, ∃ h ∈ held, covers h c = true := by
  unfold coversSet
  rw [List.filter_eq_nil_iff]
  refine forall₂_congr fun c _ => ?_
  rw [← coveredByAny_iff]
  simp

end Revl.CapOrder
