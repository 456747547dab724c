import Revl.Lib.Rays
import Revl.Petri.Net

/-!
# P-semiflows (`petri.py`)

A semiflow weighs the places so that no transition changes the weighted sum of tokens. The
elimination starts from one row for each place and annuls one transition after the other, from
pairs of rows of opposite sign; rows whose support is more than another's are dropped at every step.

- `eliminate`, `dropNonminimal`, `pSemiflows`: the elimination.
- `change`: the change of the weighted sum, a linear form for each transition.
- `Stage`: after some transitions the rows are the extreme vectors they annul.
- `pSemiflows_exact`: **exactly the semiflows of minimal support, each once**.
-/

namespace Revl.Petri

open Rays

/-- A row of integers; a key that is not there has none. -/
abbrev Row := Dict String Int

def coeff (row : Row) (key : String) : Int := (row.get? key).getD 0

/-- What a transition changes on a place. -/
def delta (t : Transition) (place : String) : Int :=
  (weight t.produce place : Int) - weight t.consume place

/-- The row of the incidence matrix for a place. -/
def Net.incidence (net : Net) (place : String) : Row :=
  net.transitions.foldl
    (fun row t => if delta t place = 0 then row else row.set t.id (delta t place)) .empty

/-- A row over the transitions, and the combination of places that made it. -/
structure Pair where
  a : Row
  b : Row

/-- The row a place starts with. -/
def placeRow (net : Net) (place : String) : Pair where
  a := net.transitions.foldl (fun row t =>
    if coeff (net.incidence place) t.id = 0 then row
    else row.set t.id (coeff (net.incidence place) t.id)) .empty
  b := Dict.empty.set place 1

/-- `_combine`: `w1 * r1 + w2 * r2`. -/
def combine (r₁ : Row) (w₁ : Int) (r₂ : Row) (w₂ : Int) : Row :=
  (Dict.tabulate (r₁.entries.map Prod.fst ++ r₂.entries.map Prod.fst)
    fun k => w₁ * coeff r₁ k + w₂ * coeff r₂ k).filter fun v => decide (v ≠ 0)

/-- The greatest common divisor of the entries. -/
def gcdOf (row : Row) : Nat := row.entries.foldl (fun g p => Nat.gcd g p.2.natAbs) 0

/-- The entries divided. -/
def divide (row : Row) (g : Nat) : Row := (row.filter fun v => decide (v ≠ 0)).map fun _ v => v / g

/-- `_normalize_pair` -/
def normalizePair (p : Pair) : Pair :=
  if gcdOf p.b ≤ 1 then p else ⟨divide p.a (gcdOf p.b), divide p.b (gcdOf p.b)⟩

/-- `_normalize` -/
def normalize (row : Row) : Row := if gcdOf row ≤ 1 then row else divide row (gcdOf row)

/-- A row where the transition is positive and one where it is negative, combined. -/
def join (tid : String) (p n : Pair) : Pair :=
  let c₁ := |coeff n.a tid|
  let c₂ := |coeff p.a tid|
  normalizePair ⟨(combine p.a c₁ n.a c₂).erase tid, combine p.b c₁ n.b c₂⟩

/-- One transition annulled. -/
def eliminate (tid : String) (rows : List Pair) : List Pair :=
  let pos := rows.filter fun r => decide (0 < coeff r.a tid)
  let neg := rows.filter fun r => decide (coeff r.a tid < 0)
  let zero := rows.filter fun r => decide (coeff r.a tid = 0)
  zero ++ pos.flatMap fun p => neg.map fun n => join tid p n

/-- The keys of a row. -/
def support (row : Row) : Finset String := (row.entries.map Prod.fst).toFinset

/-- The first row of each support. -/
def firstOfSupport (rows : List Pair) : List Pair :=
  rows.foldl (fun uniq r =>
    if uniq.any (fun q => decide (support q.b = support r.b)) then uniq else uniq ++ [r]) []

/-- `_drop_nonminimal` -/
def dropNonminimal (rows : List Pair) : List Pair :=
  let uniq := firstOfSupport rows
  uniq.filter fun r => !(decide ((support r.b).card ≠ 0) &&
    uniq.any fun q => decide (support q.b ⊂ support r.b))

/-- The items of a row in order. -/
def sortedItems (row : Row) : List (String × Int) := row.entries.insertionSort fun p q => p.1 ≤ q.1

/-- `_dedupe` -/
def dedupe (semiflows : List Row) : List Row :=
  (semiflows.foldl (fun (out, seen) y =>
    let key := sortedItems (normalize y)
    if key ≠ [] ∧ key ∉ seen then (out ++ [normalize y], key :: seen) else (out, seen))
      (([], []) : List Row × List (List (String × Int)))).1

/-- The rows after every transition. -/
def eliminateAll (net : Net) (order : List String) : List Pair :=
  net.transitions.foldl (fun rows t => dropNonminimal (eliminate t.id rows))
    (order.map (placeRow net))

/-- `p_semiflows`: over the given places. -/
def pSemiflowsOn (net : Net) (order : List String) : List Row :=
  dedupe (((eliminateAll net order).map Pair.b).filter fun b =>
    decide (b.entries ≠ []) && b.entries.all fun p => decide (0 < p.2))

/-- The places of a net in order. -/
def Net.sortedPlaces (net : Net) : List String := net.places.insertionSort (· ≤ ·)

/-- `p_semiflows`: over all places. -/
def pSemiflows (net : Net) : List Row := pSemiflowsOn net net.sortedPlaces

/-- `covered_places` -/
def coveredPlaces (net : Net) : Finset String :=
  ((pSemiflows net).flatMap fun y =>
    (y.entries.filter fun p => decide (0 < p.2)).map Prod.fst).toFinset

/-- `structurally_bounded` -/
def structurallyBounded (net : Net) : Bool :=
  decide (net.sortedPlaces.toFinset ⊆ coveredPlaces net)

/-! ## Rows -/

theorem coeff_set (row : Row) (k : String) (v : Int) (k' : String) :
    coeff (row.set k v) k' = if k' = k then v else coeff row k' := tokens_set row k v k'

theorem coeff_filter (row : Row) (k : String) :
    coeff (row.filter fun v => decide (v ≠ 0)) k = coeff row k := tokens_filter row k

theorem mem_support {row : Row} {k : String} : k ∈ support row ↔ ∃ v, row.get? k = some v := by
  simp only [support, List.mem_toFinset, List.mem_map, Prod.exists, exists_and_right,
    exists_eq_right, Dict.get?_eq_some_iff]

theorem coeff_eq_zero_of_notMem {row : Row} {k : String} (h : k ∉ support row) :
    coeff row k = 0 := by
  rw [coeff]
  cases hget : row.get? k with
  | none => rfl
  | some v => exact absurd (mem_support.mpr ⟨v, hget⟩) h

theorem coeff_combine (r₁ r₂ : Row) (w₁ w₂ : Int) (k : String) :
    coeff (combine r₁ w₁ r₂ w₂) k = w₁ * coeff r₁ k + w₂ * coeff r₂ k := by
  rw [combine, coeff_filter, coeff, Dict.get?_tabulate]
  by_cases h : k ∈ r₁.entries.map Prod.fst ++ r₂.entries.map Prod.fst
  · rw [if_pos h]
    rfl
  · rw [if_neg h, Option.getD_none]
    rw [List.mem_append, not_or] at h
    have h₁ : k ∉ support r₁ := fun hin => h.1 (List.mem_toFinset.mp hin)
    have h₂ : k ∉ support r₂ := fun hin => h.2 (List.mem_toFinset.mp hin)
    rw [coeff_eq_zero_of_notMem h₁, coeff_eq_zero_of_notMem h₂, mul_zero, mul_zero, add_zero]

theorem coeff_erase (row : Row) (k k' : String) :
    coeff (row.erase k) k' = if k' = k then 0 else coeff row k' := by
  rw [coeff, Dict.get?_erase]
  by_cases h : k' = k
  · rw [if_pos h, if_pos h]
    rfl
  · rw [if_neg h, if_neg h]
    rfl

theorem coeff_divide (row : Row) (g : Nat) (k : String) :
    coeff (divide row g) k = coeff row k / g := by
  rw [divide, coeff, Dict.get?_map, ← coeff_filter row k, coeff]
  cases (row.filter fun v => decide (v ≠ 0)).get? k with
  | none => exact (Int.zero_ediv _).symm
  | some v => rfl

/-- No entry of the row is zero. -/
def Nonzero (row : Row) : Prop := ∀ k v, row.get? k = some v → v ≠ 0

theorem Nonzero.mem_support {row : Row} (h : Nonzero row) {k : String} :
    k ∈ support row ↔ coeff row k ≠ 0 := by
  refine ⟨fun hk => ?_, fun hk => by_contra fun hnot => hk (coeff_eq_zero_of_notMem hnot)⟩
  obtain ⟨v, hv⟩ := Petri.mem_support.mp hk
  rw [coeff, hv]
  exact h k v hv

theorem Nonzero.support_subset_iff {r q : Row} (hr : Nonzero r) (hq : Nonzero q) :
    support q ⊆ support r ↔ Below (coeff q) (coeff r) := by
  simp only [Finset.subset_iff, hr.mem_support, hq.mem_support, Below, not_imp_not]

theorem nonzero_filter (row : Row) : Nonzero (row.filter fun v => decide (v ≠ 0)) := by
  intro k v hv
  rw [Dict.get?_filter, Option.filter_eq_some_iff] at hv
  exact of_decide_eq_true hv.2

/-! ### The greatest common divisor -/

theorem gcd_foldl (entries : List (String × Int)) (g : Nat) (k : Nat) :
    k ∣ entries.foldl (fun g p => Nat.gcd g p.2.natAbs) g ↔
      k ∣ g ∧ ∀ p ∈ entries, (k : Int) ∣ p.2 := by
  induction entries generalizing g with
  | nil => simp
  | cons p entries ih =>
    rw [List.foldl_cons, ih, Nat.dvd_gcd_iff, List.forall_mem_cons, and_assoc, Int.natCast_dvd]

theorem dvd_gcdOf_iff {row : Row} {k : Nat} :
    k ∣ gcdOf row ↔ ∀ key, (k : Int) ∣ coeff row key := by
  rw [gcdOf, gcd_foldl]
  constructor
  · rintro ⟨-, h⟩ key
    rw [coeff]
    cases hget : row.get? key with
    | none => exact dvd_zero _
    | some v => exact h (key, v) (Dict.get?_eq_some_iff.mp hget)
  · intro h
    refine ⟨dvd_zero _, fun p hp => ?_⟩
    have hkey := h p.1
    rw [coeff, Dict.get?_eq_some_iff.mpr (show (p.1, p.2) ∈ row.entries from hp)] at hkey
    exact hkey

/-- The row after the division, against the row before. -/
theorem coeff_eq_mul_divide {row : Row} {g : Nat} (hg : ∀ key, (g : Int) ∣ coeff row key)
    (k : String) : coeff row k = g * coeff (divide row g) k := by
  rw [coeff_divide, Int.mul_ediv_cancel' (hg k)]

theorem gcdOf_eq_one {row : Row} (h : Primitive (coeff row)) : gcdOf row = 1 :=
  h _ (dvd_gcdOf_iff.mp dvd_rfl)

theorem normalize_primitive {row : Row} (h : Primitive (coeff row)) : normalize row = row := by
  rw [normalize, gcdOf_eq_one h, if_pos le_rfl]

/-! ## Pairs -/

/-- The change a transition makes to a weighted sum of tokens. -/
def change (order : List String) (t : Transition) : (String → ℤ) →ₗ[ℤ] ℤ where
  toFun y := ∑ p ∈ order.toFinset, y p * delta t p
  map_add' y z := by
    rw [← Finset.sum_add_distrib]
    exact Finset.sum_congr rfl fun p _ => add_mul _ _ _
  map_smul' m y := by
    rw [RingHom.id_apply, smul_eq_mul, Finset.mul_sum]
    exact Finset.sum_congr rfl fun p _ => mul_assoc _ _ _

variable {net : Net} {order : List String}

variable (net order) in
/-- The row over the transitions is the change of the combination, which has no zero entries. -/
structure Consistent (r : Pair) : Prop where
  change : ∀ t ∈ net.transitions, coeff r.a t.id = Petri.change order t (coeff r.b)
  nonzero : Nonzero r.b

/-- **Normalizing**: the combination divided by all that divides it, and the row with it. -/
theorem normalizePair_spec {p : Pair} (h : Consistent net order p) (hne : coeff p.b ≠ 0) :
    Consistent net order (normalizePair p) ∧ Primitive (coeff (normalizePair p).b) ∧
      ∃ g : ℕ, 0 < g ∧ coeff p.b = (g : ℤ) • coeff (normalizePair p).b := by
  have hpos : 0 < gcdOf p.b := by
    refine Nat.pos_of_ne_zero fun hzero => hne (funext fun key => ?_)
    have hdvd := dvd_gcdOf_iff.mp (dvd_refl (gcdOf p.b)) key
    rw [hzero] at hdvd
    exact zero_dvd_iff.mp hdvd
  unfold normalizePair
  by_cases hone : gcdOf p.b ≤ 1
  · rw [if_pos hone]
    refine ⟨h, fun k hk => ?_, 1, one_pos, by simp⟩
    have hdvd := dvd_gcdOf_iff.mpr hk
    rw [show gcdOf p.b = 1 by omega] at hdvd
    exact Nat.dvd_one.mp hdvd
  rw [if_neg hone]
  have hdvd : ∀ key, ((gcdOf p.b : ℕ) : ℤ) ∣ coeff p.b key := dvd_gcdOf_iff.mp dvd_rfl
  have hmul : coeff p.b = ((gcdOf p.b : ℕ) : ℤ) • coeff (divide p.b (gcdOf p.b)) :=
    funext fun key => coeff_eq_mul_divide hdvd key
  have hcast : ((gcdOf p.b : ℕ) : ℤ) ≠ 0 := by exact_mod_cast hpos.ne'
  refine ⟨⟨fun t ht => ?_, fun k v hv => ?_⟩, fun k hk => ?_, gcdOf p.b, hpos, hmul⟩
  · simp only
    rw [coeff_divide, h.change t ht, hmul, map_smul, smul_eq_mul, Int.mul_ediv_cancel_left _ hcast]
  · simp only [divide, Dict.get?_map, Option.map_eq_some_iff] at hv
    obtain ⟨w, hw, rfl⟩ := hv
    have hwne : w ≠ 0 := nonzero_filter p.b k w hw
    have hget : p.b.get? k = some w := by
      rw [Dict.get?_filter, Option.filter_eq_some_iff] at hw
      exact hw.1
    have hwdvd := hdvd k
    rw [coeff, hget, Option.getD_some] at hwdvd
    exact fun hzero => hwne (by rw [← Int.mul_ediv_cancel' hwdvd, hzero, mul_zero])
  · have hle : k * gcdOf p.b ∣ gcdOf p.b := by
      refine dvd_gcdOf_iff.mpr fun key => ?_
      rw [coeff_eq_mul_divide hdvd key]
      push_cast
      rw [mul_comm]
      exact mul_dvd_mul_left _ (hk key)
    have hdvd1 : k * gcdOf p.b ∣ 1 * gcdOf p.b := by rwa [one_mul]
    exact Nat.dvd_one.mp (Nat.dvd_of_mul_dvd_mul_right hpos hdvd1)

variable (hdistinct : (net.transitions.map Transition.id).Nodup)

include hdistinct

/-- **Joining** a row where the transition is positive and one where it is negative. -/
theorem join_spec {t : Transition} (ht : t ∈ net.transitions) {p n : Pair}
    (hp : Consistent net order p) (hn : Consistent net order n)
    (hpos : 0 < change order t (coeff p.b)) (hneg : change order t (coeff n.b) < 0)
    (hne : -change order t (coeff n.b) • coeff p.b + change order t (coeff p.b) • coeff n.b ≠ 0) :
    Consistent net order (join t.id p n) ∧ Primitive (coeff (join t.id p n).b) ∧
      ∃ g : ℕ, 0 < g ∧ -change order t (coeff n.b) • coeff p.b +
        change order t (coeff p.b) • coeff n.b = (g : ℤ) • coeff (join t.id p n).b := by
  have hc₁ : |coeff n.a t.id| = -change order t (coeff n.b) := by
    rw [hn.change t ht, abs_of_neg hneg]
  have hc₂ : |coeff p.a t.id| = change order t (coeff p.b) := by
    rw [hp.change t ht, abs_of_pos hpos]
  have hb : coeff (combine p.b |coeff n.a t.id| n.b |coeff p.a t.id|) =
      -change order t (coeff n.b) • coeff p.b + change order t (coeff p.b) • coeff n.b := by
    funext k
    rw [coeff_combine, hc₁, hc₂]
    rfl
  have hconsistent : Consistent net order
      ⟨(combine p.a |coeff n.a t.id| n.a |coeff p.a t.id|).erase t.id,
        combine p.b |coeff n.a t.id| n.b |coeff p.a t.id|⟩ := by
    refine ⟨fun t' ht' => ?_, nonzero_filter _⟩
    simp only
    rw [coeff_erase, hb, map_add, map_smul, map_smul, smul_eq_mul, smul_eq_mul]
    by_cases hid : t'.id = t.id
    · -- the transition itself: the residual is zero
      obtain rfl := List.inj_on_of_nodup_map hdistinct ht' ht hid
      rw [if_pos rfl]
      ring
    · rw [if_neg hid, coeff_combine, hc₁, hc₂, hp.change t' ht', hn.change t' ht']
  obtain ⟨hc, hprim, g, hg, heq⟩ := normalizePair_spec hconsistent (by rw [hb]; exact hne)
  exact ⟨hc, hprim, g, hg, hb ▸ heq⟩

omit hdistinct

/-! ## Dropping rows -/

theorem firstOfSupport_spec (rows : List Pair) :
    (∀ r ∈ firstOfSupport rows, r ∈ rows) ∧
      ∀ r ∈ rows, ∃ q ∈ firstOfSupport rows, support q.b = support r.b := by
  have hinv : ∀ (rows uniq : List Pair),
      (∀ r ∈ rows.foldl (fun uniq r =>
        if uniq.any (fun q => decide (support q.b = support r.b)) then uniq else uniq ++ [r]) uniq,
          r ∈ uniq ∨ r ∈ rows) ∧
      ∀ r, r ∈ uniq ∨ r ∈ rows → ∃ q ∈ rows.foldl (fun uniq r =>
        if uniq.any (fun q => decide (support q.b = support r.b)) then uniq else uniq ++ [r]) uniq,
          support q.b = support r.b := by
    intro rows
    induction rows with
    | nil => exact fun uniq => ⟨fun r hr => .inl hr, fun r hr =>
        ⟨r, hr.resolve_right List.not_mem_nil, rfl⟩⟩
    | cons x rows ih =>
      intro uniq
      rw [List.foldl_cons]
      by_cases hany : uniq.any (fun q => decide (support q.b = support x.b)) = true
      · rw [if_pos hany]
        obtain ⟨hsub, hall⟩ := ih uniq
        refine ⟨fun r hr => (hsub r hr).imp_right (List.mem_cons_of_mem _), fun r hr => ?_⟩
        rcases hr with hr | hr
        · exact hall r (.inl hr)
        · rcases List.mem_cons.mp hr with rfl | hr
          · obtain ⟨q, hq, heq⟩ := List.any_eq_true.mp hany
            obtain ⟨q', hq', heq'⟩ := hall q (.inl hq)
            exact ⟨q', hq', heq'.trans (of_decide_eq_true heq)⟩
          · exact hall r (.inr hr)
      · rw [if_neg hany]
        obtain ⟨hsub, hall⟩ := ih (uniq ++ [x])
        refine ⟨fun r hr => ?_, fun r hr => hall r ?_⟩
        · rcases hsub r hr with hr | hr
          · rcases List.mem_append.mp hr with hr | hr
            · exact .inl hr
            · exact .inr (List.mem_singleton.mp hr ▸ List.mem_cons_self)
          · exact .inr (List.mem_cons_of_mem _ hr)
        · rcases hr with hr | hr
          · exact .inl (List.mem_append_left _ hr)
          · rcases List.mem_cons.mp hr with rfl | hr
            · exact .inl (List.mem_append_right _ (List.mem_singleton.mpr rfl))
            · exact .inr hr
  obtain ⟨hsub, hall⟩ := hinv rows []
  exact ⟨fun r hr => (hsub r hr).resolve_left List.not_mem_nil, fun r hr => hall r (.inr hr)⟩

/-- **What is kept**: rows whose support is no more than another's, one of each support. -/
theorem dropNonminimal_spec (rows : List Pair) :
    (∀ r ∈ dropNonminimal rows, r ∈ rows ∧ ∀ q ∈ rows, ¬ support q.b ⊂ support r.b) ∧
      ∀ r ∈ rows, (∀ q ∈ rows, ¬ support q.b ⊂ support r.b) →
        ∃ q ∈ dropNonminimal rows, support q.b = support r.b := by
  obtain ⟨hsub, hall⟩ := firstOfSupport_spec rows
  have hkept : ∀ r, r ∈ dropNonminimal rows ↔ r ∈ firstOfSupport rows ∧
      ∀ q ∈ firstOfSupport rows, ¬ support q.b ⊂ support r.b := by
    intro r
    rw [dropNonminimal, List.mem_filter]
    refine and_congr_right fun _ => ?_
    rw [Bool.not_eq_true', Bool.and_eq_false_iff, decide_eq_false_iff_not, not_not,
      List.any_eq_false]
    simp only [decide_eq_true_eq]
    refine ⟨fun h q hq hlt => ?_, .inr⟩
    rcases h with hempty | hnone
    · rw [Finset.card_eq_zero.mp hempty] at hlt
      exact Finset.not_ssubset_empty _ hlt
    · exact hnone q hq hlt
  refine ⟨fun r hr => ?_, fun r hr hleast => ?_⟩
  · obtain ⟨hmem, hleast⟩ := (hkept r).mp hr
    refine ⟨hsub r hmem, fun q hq hlt => ?_⟩
    obtain ⟨q', hq', heq⟩ := hall q hq
    exact hleast q' hq' (heq ▸ hlt)
  · obtain ⟨q, hq, heq⟩ := hall r hr
    exact ⟨q, (hkept q).mpr ⟨hq, fun q' hq' hlt => hleast q' (hsub q' hq') (heq ▸ hlt)⟩, heq⟩

/-! ## The stages -/

theorem coeff_foldl {v : Transition → Int} {ts : List Transition}
    (hnodup : (ts.map Transition.id).Nodup) (init : Row) :
    (∀ id, id ∉ ts.map Transition.id → coeff (ts.foldl
      (fun row t => if v t = 0 then row else row.set t.id (v t)) init) id = coeff init id) ∧
      ∀ t ∈ ts, coeff init t.id = 0 → coeff (ts.foldl
        (fun row t => if v t = 0 then row else row.set t.id (v t)) init) t.id = v t := by
  induction ts generalizing init with
  | nil => exact ⟨fun _ _ => rfl, fun _ ht => absurd ht List.not_mem_nil⟩
  | cons x ts ih =>
    rw [List.map_cons, List.nodup_cons] at hnodup
    have hhead : ∀ id, coeff (if v x = 0 then init else init.set x.id (v x)) id =
        if id = x.id ∧ v x ≠ 0 then v x else coeff init id := by
      intro id
      by_cases hzero : v x = 0
      · rw [if_pos hzero, if_neg fun h => h.2 hzero]
      · rw [if_neg hzero, coeff_set]
        by_cases hid : id = x.id
        · rw [if_pos hid, if_pos ⟨hid, hzero⟩]
        · rw [if_neg hid, if_neg fun h => hid h.1]
    obtain ⟨hout, hin⟩ := ih hnodup.2 (if v x = 0 then init else init.set x.id (v x))
    rw [List.foldl_cons]
    refine ⟨fun id hid => ?_, fun t ht hzero => ?_⟩
    · rw [List.map_cons, List.mem_cons, not_or] at hid
      rw [hout id hid.2, hhead, if_neg fun h => hid.1 h.1]
    · rcases List.mem_cons.mp ht with rfl | ht
      · rw [hout _ hnodup.1, hhead]
        by_cases hv : v t = 0
        · rw [if_neg fun h => h.2 hv, hv]
          exact hzero
        · rw [if_pos ⟨rfl, hv⟩]
      · refine hin t ht ?_
        rw [hhead, if_neg fun h => ?_]
        · exact hzero
        · exact hnodup.1 (h.1 ▸ List.mem_map_of_mem ht)

/-- The vector of a single place. -/
def unit (place : String) : String → ℤ := fun p => if p = place then 1 else 0

theorem coeff_placeRow_b (place : String) : coeff (placeRow net place).b = unit place :=
  funext fun p => coeff_set .empty place 1 p

theorem change_unit (t : Transition) {place : String} (h : place ∈ order) :
    change order t (unit place) = delta t place := by
  show ∑ p ∈ order.toFinset, unit place p * delta t p = _
  rw [Finset.sum_eq_single place]
  · rw [unit, if_pos rfl, one_mul]
  · intro p _ hne
    rw [unit, if_neg hne, zero_mul]
  · exact fun hnot => absurd (List.mem_toFinset.mpr h) hnot

theorem placeRow_consistent (hdistinct : (net.transitions.map Transition.id).Nodup)
    {place : String} (h : place ∈ order) : Consistent net order (placeRow net place) where
  change := by
    intro t ht
    have hinc : ∀ t ∈ net.transitions, coeff (net.incidence place) t.id = delta t place :=
      fun t ht => (coeff_foldl (v := fun t => delta t place) hdistinct .empty).2 t ht rfl
    rw [coeff_placeRow_b, change_unit t h, ← hinc t ht]
    exact (coeff_foldl (v := fun t => coeff (net.incidence place) t.id) hdistinct .empty).2 t ht rfl
  nonzero := by
    intro k v hv
    have hset : (Dict.empty.set place (1 : ℤ)).get? k = some v := hv
    rw [Dict.get?_set] at hset
    by_cases hk : k = place
    · rw [if_pos hk] at hset
      obtain rfl := Option.some.inj hset
      exact one_ne_zero
    · rw [if_neg hk] at hset
      cases hset

/-- The changes of some transitions. -/
def forms (order : List String) (done : List Transition) : Set ((String → ℤ) →ₗ[ℤ] ℤ) :=
  {f | ∃ t ∈ done, f = change order t}

theorem forms_append (done : List Transition) (t : Transition) :
    forms order (done ++ [t]) = insert (change order t) (forms order done) := by
  ext f
  simp only [forms, Set.mem_ofPred_eq, Set.mem_insert_iff, List.mem_append, List.mem_singleton,
    or_and_right, exists_or, exists_eq_left]
  exact or_comm

variable (net order) in
/-- **After some transitions** the rows are the extreme vectors they annul. -/
structure Stage (done : List Transition) (rows : List Pair) : Prop where
  consistent : ∀ r ∈ rows, Consistent net order r
  exact : ∀ y, Extreme order.toFinset (forms order done) y ↔ ∃ r ∈ rows, coeff r.b = y

theorem unit_extreme {place : String} (h : place ∈ order) :
    Extreme order.toFinset (forms order []) (unit place) where
  flow := {
    nonneg := fun p => by
      unfold unit
      split <;> decide
    ground := fun p hp => by
      by_cases hpp : p = place
      · exact hpp ▸ List.mem_toFinset.mpr h
      · exact absurd (if_neg hpp) hp
    annuls := fun _ ⟨_, ht, _⟩ => absurd ht List.not_mem_nil }
  ne_zero := fun hzero => by
    have hone := congrFun hzero place
    rw [unit, if_pos rfl] at hone
    cases hone
  minimal := fun z _ hne hbelow p hp => by
    by_cases hpp : p = place
    · obtain ⟨q, hq⟩ := exists_ne_zero hne
      have hqp : q = place := by
        by_contra hqp
        exact hq (hbelow q (if_neg hqp))
      rw [hpp, ← hqp] at hp
      exact absurd hp hq
    · exact if_neg hpp
  primitive := fun k hk => by
    have hone := hk place
    rw [unit, if_pos rfl] at hone
    exact Nat.dvd_one.mp (by exact_mod_cast hone)

theorem stage_start (hdistinct : (net.transitions.map Transition.id).Nodup) :
    Stage net order [] (order.map (placeRow net)) where
  consistent := by
    intro r hr
    obtain ⟨place, hplace, rfl⟩ := List.mem_map.mp hr
    exact placeRow_consistent hdistinct hplace
  exact := by
    intro y
    simp only [List.mem_map, exists_exists_and_eq_and, coeff_placeRow_b]
    constructor
    · intro hy
      obtain ⟨p, hp⟩ := exists_ne_zero hy.ne_zero
      have hmem : p ∈ order := List.mem_toFinset.mp (hy.flow.ground p hp)
      refine ⟨p, hmem, hy.eq (unit_extreme hmem) fun q hq => ?_⟩
      by_cases hqp : q = p
      · exact absurd (hqp ▸ hq) hp
      · exact if_neg hqp
    · rintro ⟨place, hplace, rfl⟩
      exact unit_extreme hplace

section Step

variable (hdistinct : (net.transitions.map Transition.id).Nodup) {done : List Transition}
  {rows : List Pair} (h : Stage net order done rows) {t : Transition} (ht : t ∈ net.transitions)

include h

theorem Stage.extreme_row {r : Pair} (hr : r ∈ rows) :
    Extreme order.toFinset (forms order done) (coeff r.b) := (h.exact _).mpr ⟨r, hr, rfl⟩

include ht

theorem Stage.change_row {r : Pair} (hr : r ∈ rows) :
    coeff r.a t.id = change order t (coeff r.b) := (h.consistent r hr).change t ht

omit ht

/-- What a combination of two rows is before it is normalized. -/
theorem Stage.combined {p n : Pair} (hp : p ∈ rows) (hn : n ∈ rows)
    (hpos : 0 < change order t (coeff p.b)) (hneg : change order t (coeff n.b) < 0) :
    Flow order.toFinset (forms order (done ++ [t]))
        (-change order t (coeff n.b) • coeff p.b + change order t (coeff p.b) • coeff n.b) ∧
      -change order t (coeff n.b) • coeff p.b + change order t (coeff p.b) • coeff n.b ≠ 0 := by
  have hflow := (h.extreme_row hp).flow.add_smul (h.extreme_row hn).flow (neg_nonneg.mpr hneg.le)
    hpos.le
  refine ⟨⟨hflow.nonneg, hflow.ground, fun f hf => ?_⟩, fun hzero => ?_⟩
  · rw [forms_append, Set.mem_insert_iff] at hf
    rcases hf with rfl | hf
    · rw [map_add, map_smul, map_smul, smul_eq_mul, smul_eq_mul]
      ring
    · exact hflow.annuls f hf
  · obtain ⟨q, hq⟩ := exists_ne_zero (h.extreme_row hp).ne_zero
    have hsum : -change order t (coeff n.b) * coeff p.b q +
        change order t (coeff p.b) * coeff n.b q = 0 := congrFun hzero q
    have h₁ : 0 < -change order t (coeff n.b) * coeff p.b q :=
      mul_pos (neg_pos.mpr hneg) ((h.extreme_row hp).flow.pos hq)
    have h₂ : 0 ≤ change order t (coeff p.b) * coeff n.b q :=
      mul_nonneg hpos.le ((h.extreme_row hn).flow.nonneg q)
    linarith

include hdistinct ht

/-- And after. -/
theorem Stage.joined {p n : Pair} (hp : p ∈ rows) (hn : n ∈ rows)
    (hpos : 0 < change order t (coeff p.b)) (hneg : change order t (coeff n.b) < 0) :
    Consistent net order (join t.id p n) ∧ Primitive (coeff (join t.id p n).b) ∧
      Flow order.toFinset (forms order (done ++ [t])) (coeff (join t.id p n).b) ∧
      coeff (join t.id p n).b ≠ 0 ∧
      ∀ y, Below
          (-change order t (coeff n.b) • coeff p.b + change order t (coeff p.b) • coeff n.b) y →
        Below (coeff (join t.id p n).b) y := by
  obtain ⟨hflow, hne⟩ := h.combined hp hn hpos hneg
  obtain ⟨hc, hprim, g, hg, heq⟩ := join_spec hdistinct ht (h.consistent p hp) (h.consistent n hn)
    hpos hneg hne
  have hg' : (0 : ℤ) < g := by exact_mod_cast hg
  rw [heq] at hflow hne ⊢
  exact ⟨hc, hprim, hflow.of_smul hg', fun hzero => hne (by rw [hzero, smul_zero]),
    fun y hbelow => (below_smul_iff hg'.ne').mp hbelow⟩

/-- Every row of the elimination. -/
theorem Stage.eliminate_row {c : Pair} (hc : c ∈ eliminate t.id rows) :
    Consistent net order c ∧ Primitive (coeff c.b) ∧
      Flow order.toFinset (forms order (done ++ [t])) (coeff c.b) ∧ coeff c.b ≠ 0 := by
  unfold eliminate at hc
  simp only [List.mem_append, List.mem_filter, decide_eq_true_eq, List.mem_flatMap,
    List.mem_map] at hc
  rcases hc with ⟨hmem, hzero⟩ | ⟨p, ⟨hp, hpos⟩, n, ⟨hn, hneg⟩, rfl⟩
  · have hx := h.extreme_row hmem
    refine ⟨h.consistent c hmem, hx.primitive, ⟨hx.flow.nonneg, hx.flow.ground, fun f hf => ?_⟩,
      hx.ne_zero⟩
    rw [forms_append, Set.mem_insert_iff] at hf
    rcases hf with rfl | hf
    · rw [← h.change_row ht hmem]
      exact hzero
    · exact hx.flow.annuls f hf
  · rw [h.change_row ht hp] at hpos
    rw [h.change_row ht hn] at hneg
    obtain ⟨hconsistent, hprim, hflow, hne, -⟩ := h.joined hdistinct ht hp hn hpos hneg
    exact ⟨hconsistent, hprim, hflow, hne⟩

/-- No extreme vector is missed. -/
theorem Stage.eliminate_complete {y : String → ℤ}
    (hy : Extreme order.toFinset (forms order (done ++ [t])) y) :
    ∃ c ∈ eliminate t.id rows, coeff c.b = y := by
  rw [forms_append] at hy
  rcases hy.of_cons with ⟨hx, hzero⟩ | ⟨r₁, r₂, hr₁, hr₂, hpos, hneg, hbelow⟩
  · obtain ⟨r, hr, rfl⟩ := (h.exact y).mp hx
    refine ⟨r, List.mem_append_left _ (List.mem_filter.mpr ⟨hr, decide_eq_true ?_⟩), rfl⟩
    rw [h.change_row ht hr]
    exact hzero
  · obtain ⟨p, hp, rfl⟩ := (h.exact r₁).mp hr₁
    obtain ⟨n, hn, rfl⟩ := (h.exact r₂).mp hr₂
    obtain ⟨-, hprim, hflow, hne, hunder⟩ := h.joined hdistinct ht hp hn hpos hneg
    rw [forms_append] at hflow
    have hbelow' : Below (coeff (join t.id p n).b) y := hunder y hbelow
    have hjoin : Extreme order.toFinset (insert (change order t) (forms order done))
        (coeff (join t.id p n).b) :=
      ⟨hflow, hne, fun z hz hz0 hzj => hbelow'.trans (hy.minimal z hz hz0 (hzj.trans hbelow')),
        hprim⟩
    refine ⟨join t.id p n, List.mem_append_right _ (List.mem_flatMap.mpr ⟨p, ?_, ?_⟩),
      hy.eq hjoin hbelow'⟩
    · exact List.mem_filter.mpr ⟨hp, decide_eq_true (by rw [h.change_row ht hp]; exact hpos)⟩
    · exact List.mem_map.mpr ⟨n, List.mem_filter.mpr
        ⟨hn, decide_eq_true (by rw [h.change_row ht hn]; exact hneg)⟩, rfl⟩

/-- The rows of least support are the extreme ones. -/
theorem Stage.extreme_iff_least_support {c : Pair} (hc : c ∈ eliminate t.id rows) :
    Extreme order.toFinset (forms order (done ++ [t])) (coeff c.b) ↔
      ∀ q ∈ eliminate t.id rows, ¬ support q.b ⊂ support c.b := by
  have hrow := fun q (hq : q ∈ eliminate t.id rows) => h.eliminate_row hdistinct ht hq
  have hiff := extreme_iff_least (Z := {z | ∃ c ∈ eliminate t.id rows, coeff c.b = z})
    (fun z ⟨q, hq, hz⟩ => hz ▸ (hrow q hq).2.2) (fun z ⟨q, hq, hz⟩ => hz ▸ (hrow q hq).2.1)
    (fun y hy => h.eliminate_complete hdistinct ht hy) ⟨c, hc, rfl⟩
  rw [hiff]
  constructor
  · intro hbelow q hq hlt
    have hqc := ((hrow c hc).1.nonzero.support_subset_iff (hrow q hq).1.nonzero).mp hlt.1
    exact hlt.2 (((hrow q hq).1.nonzero.support_subset_iff (hrow c hc).1.nonzero).mpr
      (hbelow _ ⟨q, hq, rfl⟩ hqc))
  · rintro hnone z ⟨q, hq, rfl⟩ hqc
    by_contra hnot
    refine hnone q hq ⟨((hrow c hc).1.nonzero.support_subset_iff (hrow q hq).1.nonzero).mpr hqc,
      fun hsub => hnot ?_⟩
    exact ((hrow q hq).1.nonzero.support_subset_iff (hrow c hc).1.nonzero).mp hsub

/-- **One more transition** annulled. -/
theorem Stage.step : Stage net order (done ++ [t]) (dropNonminimal (eliminate t.id rows)) := by
  obtain ⟨hkept, hfirst⟩ := dropNonminimal_spec (eliminate t.id rows)
  have hrow := fun q (hq : q ∈ eliminate t.id rows) => h.eliminate_row hdistinct ht hq
  have hleast := fun q (hq : q ∈ eliminate t.id rows) =>
    h.extreme_iff_least_support hdistinct ht hq
  refine ⟨fun r hr => (hrow r (hkept r hr).1).1, fun y => ⟨fun hy => ?_, ?_⟩⟩
  · obtain ⟨c, hc, rfl⟩ := h.eliminate_complete hdistinct ht hy
    obtain ⟨q, hq, hsupport⟩ := hfirst c hc ((hleast c hc).mp hy)
    have hq' := hkept q hq
    refine ⟨q, hq, hy.eq ((hleast q hq'.1).mpr hq'.2) ?_⟩
    exact ((hrow c hc).1.nonzero.support_subset_iff (hrow q hq'.1).1.nonzero).mp hsupport.le
  · rintro ⟨r, hr, rfl⟩
    exact (hleast r (hkept r hr).1).mpr (hkept r hr).2

end Step

/-- **The elimination**: the rows are the extreme semiflows. -/
theorem eliminateAll_stage (hdistinct : (net.transitions.map Transition.id).Nodup) :
    Stage net order net.transitions (eliminateAll net order) := by
  have hrun : ∀ (ts done : List Transition) (rows : List Pair), (∀ t ∈ ts, t ∈ net.transitions) →
      Stage net order done rows → Stage net order (done ++ ts)
        (ts.foldl (fun rows t => dropNonminimal (eliminate t.id rows)) rows) := by
    intro ts
    induction ts with
    | nil =>
      intro done rows _ h
      rw [List.append_nil]
      exact h
    | cons t ts ih =>
      intro done rows hmem h
      have hstep := ih (done ++ [t]) _ (fun x hx => hmem x (List.mem_cons_of_mem _ hx))
        (h.step hdistinct (hmem t List.mem_cons_self))
      rw [List.append_assoc] at hstep
      exact hstep
  exact hrun net.transitions [] _ (fun _ ht => ht) (stage_start hdistinct)

/-! ## The result -/

/-- The sorted items of a row without zeros are its canonical form. -/
theorem sortedItems_eq {row : Row} (h : Nonzero row) : sortedItems row = canon row := by
  have hfilter : row.entries.filter (fun p => decide (p.2 ≠ 0)) = row.entries := by
    refine List.filter_eq_self.mpr fun p hp => decide_eq_true ?_
    exact h p.1 p.2 (Dict.get?_eq_some_iff.mpr hp)
  rw [canon, hfilter, sortedItems]

theorem sortedItems_eq_iff {y z : Row} (hy : Nonzero y) (hz : Nonzero z) :
    sortedItems y = sortedItems z ↔ coeff y = coeff z := by
  rw [sortedItems_eq hy, sortedItems_eq hz, canon_eq_iff]
  exact funext_iff.symm

/-- **Dropping duplicates**: of primitive rows one for each vector. -/
theorem dedupe_spec {ys : List Row} (hnonzero : ∀ y ∈ ys, Nonzero y)
    (hprim : ∀ y ∈ ys, Primitive (coeff y)) (hne : ∀ y ∈ ys, coeff y ≠ 0) :
    (∀ y ∈ dedupe ys, y ∈ ys) ∧ (∀ y ∈ ys, ∃ z ∈ dedupe ys, coeff z = coeff y) ∧
      ((dedupe ys).map coeff).Nodup := by
  have hinv : ∀ (rest out : List Row) (seen : List (List (String × Int))),
      (∀ y ∈ rest, y ∈ ys) → (∀ y ∈ out, y ∈ ys) → (∀ k, k ∈ seen ↔ k ∈ out.map sortedItems) →
      (out.map coeff).Nodup →
      let final := (rest.foldl (fun (out, seen) y =>
        let key := sortedItems (normalize y)
        if key ≠ [] ∧ key ∉ seen then (out ++ [normalize y], key :: seen) else (out, seen))
          (out, seen)).1
      (∀ y ∈ final, y ∈ ys) ∧ (∀ y, y ∈ out ∨ y ∈ rest → ∃ z ∈ final, coeff z = coeff y) ∧
        (final.map coeff).Nodup := by
    intro rest
    induction rest with
    | nil =>
      intro out seen _ hout _ hnodup
      exact ⟨hout, fun y hy => ⟨y, hy.resolve_right List.not_mem_nil, rfl⟩, hnodup⟩
    | cons x rest ih =>
      intro out seen hrest hout hseen hnodup
      have hx : x ∈ ys := hrest x List.mem_cons_self
      have hrest' : ∀ y ∈ rest, y ∈ ys := fun y hy => hrest y (List.mem_cons_of_mem _ hy)
      have hkey : sortedItems x ≠ [] := by
        intro hnil
        refine hne x hx (funext fun k => ?_)
        rw [sortedItems_eq (hnonzero x hx)] at hnil
        exact canon_eq_iff.mp (show canon x = canon .empty from hnil) k
      have hmem : sortedItems x ∈ seen ↔ ∃ z ∈ out, coeff z = coeff x := by
        rw [hseen, List.mem_map]
        refine exists_congr fun z => and_congr_right fun hz => ?_
        exact sortedItems_eq_iff (hnonzero z (hout z hz)) (hnonzero x hx)
      simp only [List.foldl_cons, normalize_primitive (hprim x hx)]
      by_cases hin : sortedItems x ∈ seen
      · rw [if_neg fun h => h.2 hin]
        obtain ⟨hsub, hall, hdistinct⟩ := ih out seen hrest' hout hseen hnodup
        refine ⟨hsub, fun y hy => ?_, hdistinct⟩
        rcases hy with hy | hy
        · exact hall y (.inl hy)
        · rcases List.mem_cons.mp hy with rfl | hy
          · obtain ⟨z, hz, heq⟩ := hmem.mp hin
            obtain ⟨w, hw, heq'⟩ := hall z (.inl hz)
            exact ⟨w, hw, heq'.trans heq⟩
          · exact hall y (.inr hy)
      · rw [if_pos ⟨hkey, hin⟩]
        have hout' : ∀ y ∈ out ++ [x], y ∈ ys := by
          intro y hy
          rcases List.mem_append.mp hy with hy | hy
          · exact hout y hy
          · exact List.mem_singleton.mp hy ▸ hx
        have hseen' : ∀ k, k ∈ sortedItems x :: seen ↔ k ∈ (out ++ [x]).map sortedItems := by
          intro k
          rw [List.map_append, List.mem_append, ← hseen, List.mem_cons, or_comm, List.map_singleton,
            List.mem_singleton]
        have hnodup' : ((out ++ [x]).map coeff).Nodup := by
          rw [List.map_append]
          refine List.nodup_append'.mpr ⟨hnodup, List.nodup_singleton _, fun v hv hv' => ?_⟩
          obtain rfl := List.mem_singleton.mp hv'
          obtain ⟨z, hz, heq⟩ := List.mem_map.mp hv
          exact hin (hmem.mpr ⟨z, hz, heq⟩)
        obtain ⟨hsub, hall, hdistinct⟩ :=
          ih (out ++ [x]) (sortedItems x :: seen) hrest' hout' hseen' hnodup'
        refine ⟨hsub, fun y hy => hall y ?_, hdistinct⟩
        rcases hy with hy | hy
        · exact .inl (List.mem_append_left _ hy)
        · rcases List.mem_cons.mp hy with rfl | hy
          · exact .inl (List.mem_append_right _ (List.mem_singleton.mpr rfl))
          · exact .inr hy
  obtain ⟨hsub, hall, hnodup⟩ := hinv ys [] [] (fun _ h => h) (fun _ h => absurd h List.not_mem_nil)
    (fun k => by simp) List.nodup_nil
  exact ⟨hsub, fun y hy => hall y (.inr hy), hnodup⟩

variable (net order) in
/-- The semiflows over some places: non-negative weights no transition changes. -/
def Semiflow (y : String → ℤ) : Prop :=
  (∀ p, 0 ≤ y p) ∧ (∀ p, y p ≠ 0 → p ∈ order) ∧
    ∀ t ∈ net.transitions, ∑ p ∈ order.toFinset, y p * delta t p = 0

variable (net order) in
/-- A semiflow in lowest terms whose support holds that of no other. -/
structure MinimalSemiflow (y : String → ℤ) : Prop where
  semiflow : Semiflow net order y
  ne_zero : y ≠ 0
  minimal : ∀ z, Semiflow net order z → z ≠ 0 → (∀ p, z p ≠ 0 → y p ≠ 0) →
    ∀ p, y p ≠ 0 → z p ≠ 0
  lowest : ∀ k : ℕ, (∀ p, (k : ℤ) ∣ y p) → k = 1

theorem flow_iff {y : String → ℤ} :
    Flow order.toFinset (forms order net.transitions) y ↔ Semiflow net order y := by
  constructor
  · intro h
    exact ⟨h.nonneg, fun p hp => List.mem_toFinset.mp (h.ground p hp),
      fun t ht => h.annuls _ ⟨t, ht, rfl⟩⟩
  · rintro ⟨hnonneg, hground, hannuls⟩
    refine ⟨hnonneg, fun p hp => List.mem_toFinset.mpr (hground p hp), ?_⟩
    rintro f ⟨t, ht, rfl⟩
    exact hannuls t ht

theorem extreme_iff_minimal {y : String → ℤ} :
    Extreme order.toFinset (forms order net.transitions) y ↔ MinimalSemiflow net order y := by
  have hbelow : ∀ z y : String → ℤ, Below z y ↔ ∀ p, z p ≠ 0 → y p ≠ 0 :=
    fun z y => forall_congr' fun p => not_imp_not.symm
  constructor
  · intro h
    exact ⟨flow_iff.mp h.flow, h.ne_zero, fun z hz hz0 hzy =>
      (hbelow y z).mp (h.minimal z (flow_iff.mpr hz) hz0 ((hbelow z y).mpr hzy)), h.primitive⟩
  · intro h
    exact ⟨flow_iff.mpr h.semiflow, h.ne_zero, fun z hz hz0 hzy =>
      (hbelow y z).mpr (h.minimal z (flow_iff.mp hz) hz0 ((hbelow z y).mp hzy)), h.lowest⟩

/-- **What is returned** over some places: the minimal semiflows, each once. -/
theorem pSemiflowsOn_spec (order : List String)
    (hdistinct : (net.transitions.map Transition.id).Nodup) :
    (∀ y, MinimalSemiflow net order y ↔ ∃ row ∈ pSemiflowsOn net order, coeff row = y) ∧
      ((pSemiflowsOn net order).map coeff).Nodup := by
  have hstage : Stage net order net.transitions (eliminateAll net order) :=
    eliminateAll_stage hdistinct
  have hrows : ∀ b ∈ (eliminateAll net order).map Pair.b, Nonzero b ∧
      Extreme order.toFinset (forms order net.transitions) (coeff b) := by
    intro b hb
    obtain ⟨r, hr, rfl⟩ := List.mem_map.mp hb
    exact ⟨(hstage.consistent r hr).nonzero, (hstage.exact _).mpr ⟨r, hr, rfl⟩⟩
  have hfilter : ((eliminateAll net order).map Pair.b).filter (fun b =>
      decide (b.entries ≠ []) && b.entries.all fun p => decide (0 < p.2)) =
      (eliminateAll net order).map Pair.b := by
    refine List.filter_eq_self.mpr fun b hb => ?_
    obtain ⟨hnonzero, hextreme⟩ := hrows b hb
    rw [Bool.and_eq_true, decide_eq_true_eq, List.all_eq_true]
    refine ⟨fun hnil => hextreme.ne_zero (funext fun k => ?_), fun p hp => decide_eq_true ?_⟩
    · exact coeff_eq_zero_of_notMem fun hk => by
        rw [support, hnil] at hk
        exact absurd hk (Finset.notMem_empty _)
    · have hget : b.get? p.1 = some p.2 := Dict.get?_eq_some_iff.mpr hp
      have hcoeff : coeff b p.1 = p.2 := by rw [coeff, hget, Option.getD_some]
      rw [← hcoeff]
      exact hextreme.flow.pos (by rw [hcoeff]; exact hnonzero p.1 p.2 hget)
  obtain ⟨hsub, hall, hnodup⟩ := dedupe_spec (fun b hb => (hrows b hb).1)
    (fun b hb => (hrows b hb).2.primitive) (fun b hb => (hrows b hb).2.ne_zero)
  unfold pSemiflowsOn
  rw [hfilter]
  refine ⟨fun y => ?_, hnodup⟩
  rw [← extreme_iff_minimal, hstage.exact]
  constructor
  · rintro ⟨r, hr, rfl⟩
    exact hall r.b (List.mem_map_of_mem hr)
  · rintro ⟨row, hrow, rfl⟩
    obtain ⟨r, hr, heq⟩ := List.mem_map.mp (hsub row hrow)
    exact ⟨r, hr, by rw [heq]⟩

/-! ## What a semiflow conserves -/

/-- The weighted sum of tokens. -/
def weightedSum (y : String → ℤ) (order : List String) (m : Marking) : ℤ :=
  ∑ p ∈ order.toFinset, y p * tokens m p

/-- **A semiflow is conserved.** -/
theorem Semiflow.conserved {y : String → ℤ} (hy : Semiflow net order y) {m m' : Marking}
    (h : net.Reach m m') : weightedSum y order m' = weightedSum y order m := by
  induction h with
  | refl => rfl
  | tail _ hstep ih =>
    obtain ⟨t, ht, -, rfl⟩ := hstep
    rw [← ih, ← sub_eq_zero, weightedSum, weightedSum, ← Finset.sum_sub_distrib, ← hy.2.2 t ht]
    refine Finset.sum_congr rfl fun p _ => ?_
    rw [tokens_fire, delta]
    ring

/-- A place never holds less than the tokens it lacks at the start. -/
theorem tokens_ge {m m' : Marking} (h : net.Reach m m') (p : String) :
    -|tokens m p| ≤ tokens m' p := by
  induction h with
  | refl => exact neg_abs_le _
  | tail _ hstep ih =>
    obtain ⟨t, ht, hen, rfl⟩ := hstep
    rw [tokens_fire]
    rw [Transition.enabled, Bool.and_eq_true, covered_iff] at hen
    cases hget : t.consume.get? p with
    | none =>
      have hzero : weight t.consume p = 0 := by rw [weight, hget, Option.getD_none]
      rw [hzero]
      push_cast
      linarith [Int.natCast_nonneg (weight t.produce p)]
    | some w =>
      have hw : weight t.consume p = w := by rw [weight, hget, Option.getD_some]
      have hle := hen.1 p w hget
      rw [hw]
      linarith [Int.natCast_nonneg (weight t.produce p), abs_nonneg (tokens m p)]

/-- A place a semiflow weighs is bounded. -/
theorem Semiflow.bounds {y : String → ℤ} (hy : Semiflow net order y) {p : String} (hp : 0 < y p)
    (m : Marking) : ∃ bound : ℤ, ∀ m', net.Reach m m' → tokens m' p ≤ bound := by
  refine ⟨weightedSum y order m + ∑ q ∈ order.toFinset, y q * |tokens m q|, fun m' hreach => ?_⟩
  have hmem : p ∈ order.toFinset := List.mem_toFinset.mpr (hy.2.1 p hp.ne')
  have hsum : ∑ q ∈ order.toFinset, y q * (tokens m' q + |tokens m q|) =
      weightedSum y order m + ∑ q ∈ order.toFinset, y q * |tokens m q| := by
    rw [← hy.conserved hreach, weightedSum, ← Finset.sum_add_distrib]
    exact Finset.sum_congr rfl fun q _ => mul_add _ _ _
  have hterm : ∀ q, 0 ≤ tokens m' q + |tokens m q| := fun q => by
    have := tokens_ge hreach q
    linarith
  have hle : y p * (tokens m' p + |tokens m p|) ≤
      ∑ q ∈ order.toFinset, y q * (tokens m' q + |tokens m q|) :=
    Finset.single_le_sum (f := fun q => y q * (tokens m' q + |tokens m q|))
      (fun q _ => mul_nonneg (hy.1 q) (hterm q)) hmem
  rw [hsum] at hle
  have hone : tokens m' p + |tokens m p| ≤ y p * (tokens m' p + |tokens m p|) :=
    le_mul_of_one_le_left (hterm p) hp
  linarith [abs_nonneg (tokens m p)]

/-- A place on no arc keeps its tokens. -/
theorem tokens_of_notMem {p : String} (hp : p ∉ net.places) {m m' : Marking}
    (h : net.Reach m m') : tokens m' p = tokens m p := by
  induction h with
  | refl => rfl
  | tail _ hstep ih =>
    obtain ⟨t, ht, -, rfl⟩ := hstep
    have hnone : ∀ arcs : Arcs, (∀ w, (p, w) ∉ arcs.entries) → weight arcs p = 0 := by
      intro arcs hout
      rw [weight, Dict.get?_eq_none_iff.mpr hout, Option.getD_none]
    have hplace : ∀ w, (p, w) ∉ t.consume.entries ∧ (p, w) ∉ t.produce.entries := by
      intro w
      constructor <;> intro hw <;> refine hp (List.mem_dedup.mpr (List.mem_flatMap.mpr ⟨t, ht, ?_⟩))
      · exact List.mem_append_left _ (List.mem_append_left _ (List.mem_map.mpr ⟨_, hw, rfl⟩))
      · exact List.mem_append_left _ (List.mem_append_right _ (List.mem_map.mpr ⟨_, hw, rfl⟩))
    rw [tokens_fire, hnone _ fun w => (hplace w).1, hnone _ fun w => (hplace w).2, ih]
    simp

/-- **The P-semiflows are sound and complete.** For every net whose transitions have distinct names
`p_semiflows` returns exactly the minimal semiflows in lowest terms, each once; each is conserved in
every run; and where the net is structurally bounded every place has a bound in every run. -/
theorem pSemiflows_exact (net : Net) (hdistinct : (net.transitions.map Transition.id).Nodup) :
    (∀ y, MinimalSemiflow net net.sortedPlaces y ↔ ∃ row ∈ pSemiflows net, coeff row = y) ∧
      ((pSemiflows net).map coeff).Nodup ∧
      (∀ row ∈ pSemiflows net, ∀ m m', net.Reach m m' →
        weightedSum (coeff row) net.sortedPlaces m' = weightedSum (coeff row) net.sortedPlaces m) ∧
      (structurallyBounded net = true →
        ∀ m p, ∃ bound : ℤ, ∀ m', net.Reach m m' → tokens m' p ≤ bound) := by
  obtain ⟨hexact, hnodup⟩ := pSemiflowsOn_spec net.sortedPlaces hdistinct
  have hsemiflow : ∀ row ∈ pSemiflows net, Semiflow net net.sortedPlaces (coeff row) :=
    fun row hrow => ((hexact _).mpr ⟨row, hrow, rfl⟩).semiflow
  refine ⟨hexact, hnodup, fun row hrow m m' h => (hsemiflow row hrow).conserved h,
    fun hbounded m p => ?_⟩
  by_cases hp : p ∈ net.places
  · have hsorted : p ∈ net.sortedPlaces.toFinset :=
      List.mem_toFinset.mpr ((List.mem_insertionSort _).mpr hp)
    have hcovered := of_decide_eq_true hbounded hsorted
    simp only [coveredPlaces, List.mem_toFinset, List.mem_flatMap, List.mem_map, List.mem_filter,
      decide_eq_true_eq] at hcovered
    obtain ⟨row, hrow, entry, ⟨hentry, hpos⟩, rfl⟩ := hcovered
    refine (hsemiflow row hrow).bounds ?_ m
    rw [coeff, Dict.get?_eq_some_iff.mpr (show (entry.1, entry.2) ∈ row.entries from hentry)]
    exact hpos
  · exact ⟨tokens m p, fun m' h => (tokens_of_notMem hp h).le⟩

/-- Two places that pass one token back and forth. -/
def seesaw : Net where
  transitions := [⟨"go", Dict.empty.set "a" 1, Dict.empty.set "b" 1, .empty⟩,
    ⟨"back", Dict.empty.set "b" 1, Dict.empty.set "a" 1, .empty⟩]

theorem pSemiflows_exact_seesaw :
    (∀ y, MinimalSemiflow seesaw seesaw.sortedPlaces y ↔
      ∃ row ∈ pSemiflows seesaw, coeff row = y) ∧
      ((pSemiflows seesaw).map coeff).Nodup ∧
      (∀ row ∈ pSemiflows seesaw, ∀ m m', seesaw.Reach m m' →
        weightedSum (coeff row) seesaw.sortedPlaces m' =
          weightedSum (coeff row) seesaw.sortedPlaces m) ∧
      (structurallyBounded seesaw = true →
        ∀ m p, ∃ bound : ℤ, ∀ m', seesaw.Reach m m' → tokens m' p ≤ bound) :=
  pSemiflows_exact seesaw (by decide)

end Revl.Petri
