import Revl.CapOrder.Order
import Revl.Lib.Fallible

/-!
# Spawn-site substitution respects the capability order

`substitute` replaces the bound `config.` symbols of a capability and canonicalizes
the result through `makeCap`. A parent that covers a child before the bindings are
known covers it after, whatever literals the spawn site binds.

- `makeCap_wellFormed`, `substitute_wellFormed`: what the constructors guarantee.
- `canonParam_mono`: canonicalization keeps the value order, raising included.
- `substitute_mono`: **attenuation is monotone**.
- `covers_order_and_attenuation`: the algebra of the capability order in one place.
-/

namespace Revl.CapOrder

open Entrywise (forall₂_right exists_forall₂)
open Fallible (bind_ok)

/-! ## Canonicalization, value by value -/

theorem normalize_idem (name : String) : normalize (normalize name) = normalize name := by
  unfold normalize
  by_cases hb : name = "bytes"
  · subst hb; decide
  · by_cases hr : name = "requests"
    · subst hr; decide
    · have hnone : Assoc.get? aliases name = none := by
        simp [aliases, Assoc.get?, Ne.symm hb, Ne.symm hr]
      simp [hnone]

@[simp] theorem orderRow_orAdmit (name : String) (d : Declared) :
    orderRow name d.orAdmit = orderRow name d := by
  cases d <;> rfl

theorem isRegistered_iff {name : String} {d : Declared} (h : normalize name = name) :
    isRegistered name d = true ↔ (orderRow name d).isSome := by
  unfold isRegistered orderRow
  rw [h]
  cases Assoc.get? registry name <;> simp

/-- The rows: a resource kind is a path or a discrete order, a ceiling kind a number. -/
theorem orderRow_kind {name : String} {d : Declared} {kind : ParamKind} {order : ParamOrder}
    (h : orderRow name d = some (kind, order)) :
    kind = .resource ↔ order = .path ∨ order = .discrete := by
  unfold orderRow at h
  cases hreg : Assoc.get? registry name with
  | some row =>
    rw [hreg, Option.some_or, Option.some.injEq] at h
    have hmem := Assoc.mem_of_get? hreg
    rw [h] at hmem
    simp [registry] at hmem
    rcases hmem with h | h | h | h | h | h <;> simp [h]
  | none =>
    rw [hreg, Option.none_or] at h
    cases d with
    | dims kinds =>
      obtain ⟨core, _, hcore⟩ := Option.map_eq_some_iff.1 h
      cases core <;> simp_all [kindOrders, eq_comm]
    | absent => simp [declaredOrder] at h
    | admitUnknown => simp [declaredOrder] at h

theorem canonCeiling_ok {name : String} {v w : ParamValue}
    (h : canonCeiling name v = .ok w) : ∃ n, v = .ceiling n ∧ w = .ceiling n := by
  cases v with
  | ceiling n =>
    simp only [canonCeiling] at h
    split_ifs at h
    exact ⟨n, rfl, (Except.ok.inj h).symm⟩
  | symbol _ => simp [canonCeiling] at h
  | path _ => simp [canonCeiling] at h
  | discrete _ => simp [canonCeiling] at h

theorem canonBudget_ok {units : List (String × Int)} {name what sample : String}
    {v w : ParamValue} (h : canonBudget units name what sample v = .ok w) :
    ∃ n, w = .ceiling n ∧ (v = .ceiling n ∨ ∃ s, v = .discrete s) := by
  cases v with
  | ceiling n =>
    simp only [canonBudget] at h
    split_ifs at h
    exact ⟨n, (Except.ok.inj h).symm, .inl rfl⟩
  | discrete s =>
    obtain ⟨n, -, hn⟩ := bind_ok h
    exact ⟨n, (Except.ok.inj hn).symm, .inr ⟨s, rfl⟩⟩
  | symbol _ => simp [canonBudget] at h
  | path _ => simp [canonBudget] at h

theorem canonPathValue_ok {name : String} {v w : ParamValue}
    (h : canonPathValue name v = .ok w) :
    ∃ p, w = .path p ∧ (v = .path p ∨ ∃ s, v = .discrete s) := by
  cases v with
  | path p => exact ⟨p, (Except.ok.inj h).symm, .inl rfl⟩
  | discrete s =>
    obtain ⟨_, -, h⟩ := bind_ok h
    obtain ⟨p, -, hp⟩ := bind_ok h
    exact ⟨p, (Except.ok.inj hp).symm, .inr ⟨s, rfl⟩⟩
  | symbol _ => simp [canonPathValue] at h
  | ceiling _ => simp [canonPathValue] at h

theorem canonDiscreteValue_ok {name : String} {v w : ParamValue}
    (h : canonDiscreteValue name v = .ok w) : ∃ s, v = .discrete s ∧ w = .discrete s := by
  cases v with
  | discrete s =>
    obtain ⟨_, -, h⟩ := bind_ok h
    exact ⟨s, rfl, (Except.ok.inj h).symm⟩
  | path _ => simp [canonDiscreteValue] at h
  | symbol _ => simp [canonDiscreteValue] at h
  | ceiling _ => simp [canonDiscreteValue] at h

/-- A result is of the order asked for, and a value already of that order is the result. -/
theorem canonByOrder_ok {name : String} {order : ParamOrder} {v w : ParamValue}
    (h : canonByOrder name order v = .ok w) :
    FitsOrder order w ∧ (FitsOrder order v → w = v) := by
  cases order with
  | ceiling =>
    obtain ⟨n, rfl, rfl⟩ := canonCeiling_ok h
    exact ⟨trivial, fun _ => rfl⟩
  | bytes =>
    obtain ⟨n, rfl, rfl | ⟨s, rfl⟩⟩ := canonBudget_ok h
    · exact ⟨trivial, fun _ => rfl⟩
    · exact ⟨trivial, False.elim⟩
  | duration =>
    obtain ⟨n, rfl, rfl | ⟨s, rfl⟩⟩ := canonBudget_ok h
    · exact ⟨trivial, fun _ => rfl⟩
    · exact ⟨trivial, False.elim⟩
  | path =>
    obtain ⟨p, rfl, rfl | ⟨s, rfl⟩⟩ := canonPathValue_ok h
    · exact ⟨trivial, fun _ => rfl⟩
    · exact ⟨trivial, False.elim⟩
  | discrete =>
    obtain ⟨s, rfl, rfl⟩ := canonDiscreteValue_ok h
    exact ⟨trivial, fun _ => rfl⟩

/-- What `canonValue` can return: the symbol of a resource name, or `canonByOrder`'s. -/
theorem canonValue_ok {name : String} {v w : ParamValue} {d : Declared}
    (h : canonValue name v d = .ok w) :
    ∃ kind order, orderRow name d = some (kind, order) ∧
      ((∃ r, v = .symbol r ∧ w = .symbol r ∧ kind = .resource) ∨
        (v.isSymbol = false ∧ canonByOrder name order v = .ok w)) := by
  unfold canonValue at h
  cases hrow : orderRow name d with
  | none => simp [hrow] at h
  | some row =>
    obtain ⟨kind, order⟩ := row
    rw [hrow] at h
    refine ⟨kind, order, rfl, ?_⟩
    cases v with
    | symbol r =>
      cases kind with
      | ceiling => simp at h
      | resource => exact .inl ⟨r, rfl, (Except.ok.inj h).symm, rfl⟩
    | path _ => exact .inr ⟨rfl, h⟩
    | ceiling _ => exact .inr ⟨rfl, h⟩
    | discrete _ => exact .inr ⟨rfl, h⟩

/-- What canonicalization returns is of the order the name denotes, and a value already
of that order comes back unchanged. -/
theorem canonValue_fits {name : String} {v w : ParamValue} {d : Declared}
    (h : canonValue name v d = .ok w) :
    (∀ row ∈ orderRow name d, FitsOrder row.2 w) ∧
      ((∀ row ∈ orderRow name d, FitsOrder row.2 v) → w = v) := by
  obtain ⟨kind, order, hrow, ⟨r, rfl, rfl, hkind⟩ | ⟨-, hby⟩⟩ := canonValue_ok h
  · refine ⟨?_, fun _ => rfl⟩
    intro row hmem
    obtain rfl := Option.some.inj (hrow.symm.trans hmem)
    rcases (orderRow_kind hrow).1 hkind with rfl | rfl <;> trivial
  · obtain ⟨hw, hv⟩ := canonByOrder_ok hby
    refine ⟨?_, fun hfit => hv (hfit _ hrow)⟩
    intro row hmem
    obtain rfl := Option.some.inj (hrow.symm.trans hmem)
    exact hw

/-! ## Canonicalization keeps the value order -/

theorem canonByOrder_path_ok {name : String} {order : ParamOrder} {p : List String}
    {w : ParamValue} (h : canonByOrder name order (.path p) = .ok w) :
    ∀ q, canonByOrder name order (.path q) = .ok (.path q) := by
  intro q
  cases order <;> first | rfl | simp [canonByOrder, canonCeiling, canonBudget,
    canonDiscreteValue] at h

theorem canonCeiling_ceiling_iff {name : String} {n : Int} {w : ParamValue} :
    canonCeiling name (.ceiling n) = .ok w ↔ 0 ≤ n ∧ w = .ceiling n := by
  by_cases hn : n < 0
  · simp [canonCeiling, hn]
  · simp [canonCeiling, hn, not_lt.1 hn, eq_comm]

theorem canonBudget_ceiling_iff {units : List (String × Int)} {name what sample : String}
    {n : Int} {w : ParamValue} :
    canonBudget units name what sample (.ceiling n) = .ok w ↔ 0 ≤ n ∧ w = .ceiling n := by
  by_cases hn : n < 0
  · simp [canonBudget, hn]
  · simp [canonBudget, hn, not_lt.1 hn, eq_comm]

theorem canonByOrder_ceiling_mono {name : String} {order : ParamOrder} {n m : Int}
    (hnm : n ≤ m) {w : ParamValue} (h : canonByOrder name order (.ceiling n) = .ok w) :
    w = .ceiling n ∧ canonByOrder name order (.ceiling m) = .ok (.ceiling m) := by
  cases order with
  | ceiling =>
    rw [canonByOrder, canonCeiling_ceiling_iff] at h ⊢
    exact ⟨h.2, h.1.trans hnm, rfl⟩
  | bytes =>
    rw [canonByOrder, canonBudget_ceiling_iff] at h ⊢
    exact ⟨h.2, h.1.trans hnm, rfl⟩
  | duration =>
    rw [canonByOrder, canonBudget_ceiling_iff] at h ⊢
    exact ⟨h.2, h.1.trans hnm, rfl⟩
  | path => simp [canonByOrder, canonPathValue] at h
  | discrete => simp [canonByOrder, canonDiscreteValue] at h

theorem canonByOrder_mono {name : String} {order : ParamOrder} {n w n' : ParamValue}
    (hle : paramLeq n w = true) (hsym : n.isSymbol = false)
    (h : canonByOrder name order n = .ok n') :
    ∃ w', canonByOrder name order w = .ok w' ∧ paramLeq n' w' = true := by
  cases n with
  | symbol r => simp [ParamValue.isSymbol] at hsym
  | discrete s =>
    rw [(paramLeq_discrete_left s w).1 hle]
    exact ⟨n', h, paramLeq_refl n'⟩
  | path p =>
    cases w with
    | path q =>
      obtain rfl := Except.ok.inj (h.symm.trans (canonByOrder_path_ok h p))
      exact ⟨.path q, canonByOrder_path_ok h q, hle⟩
    | _ => simp at hle
  | ceiling k =>
    cases w with
    | ceiling m =>
      obtain ⟨rfl, hm⟩ := canonByOrder_ceiling_mono ((paramLeq_ceiling k m).1 hle) h
      exact ⟨.ceiling m, hm, hle⟩
    | _ => simp at hle

theorem canonValue_mono {name : String} {n w n' : ParamValue} {d : Declared}
    (hle : paramLeq n w = true) (h : canonValue name n d = .ok n') :
    ∃ w', canonValue name w d = .ok w' ∧ paramLeq n' w' = true := by
  obtain ⟨kind, order, hrow, ⟨r, rfl, rfl, -⟩ | ⟨hsym, hby⟩⟩ := canonValue_ok h
  · rw [(paramLeq_symbol_left r w).1 hle]
    exact ⟨.symbol r, h, paramLeq_refl _⟩
  · obtain ⟨w', hw', hle'⟩ := canonByOrder_mono hle hsym hby
    refine ⟨w', ?_, hle'⟩
    cases w with
    | symbol r =>
      rw [(paramLeq_symbol_right n r).1 hle] at hsym
      simp [ParamValue.isSymbol] at hsym
    | _ =>
      unfold canonValue
      rw [hrow]
      exact hw'

/-- One parameter of a capability under construction keeps the value order: where the
narrower value is admitted the wider one is too, and stays wider. -/
theorem canonParam_mono {name : String} {n w n' : ParamValue} {d : Declared}
    (hle : paramLeq n w = true) (h : canonParam name n d = .ok n') :
    ∃ w', canonParam name w d = .ok w' ∧ paramLeq n' w' = true := by
  unfold canonParam at h ⊢
  split_ifs at h ⊢ with hreg hadm
  · exact canonValue_mono hle h
  · obtain rfl := Except.ok.inj h
    exact ⟨w, rfl, hle⟩

theorem canonParam_fits {name : String} {v w : ParamValue} {d : Declared}
    (h : canonParam name v d = .ok w) :
    (∀ row ∈ orderRow (normalize name) d, FitsOrder row.2 w) ∧
      (CanonicalParam d name v → w = v) := by
  unfold canonParam at h
  split_ifs at h with hreg hadm
  · obtain ⟨hw, hv⟩ := canonValue_fits h
    refine ⟨hw, fun hc => hv ?_⟩
    rw [hc.1]
    exact hc.2
  · obtain rfl := Except.ok.inj h
    refine ⟨?_, fun _ => rfl⟩
    intro row hmem
    have hrow : (orderRow (normalize name) d).isSome := Option.isSome_iff_exists.2 ⟨row, hmem⟩
    rw [← isRegistered_iff (normalize_idem name)] at hrow
    subst hadm
    simp [isRegistered, normalize_idem, declaredOrder] at hrow hreg
    simp [hreg] at hrow

/-! ## The parameter loop -/

/-- The names a list of raw parameters binds are new and distinct. -/
def NamesFresh (seen : List String) (raw : List (String × ParamValue)) : Prop :=
  (∀ p ∈ raw, normalize p.1 ∉ seen) ∧ (raw.map fun p => normalize p.1).Nodup

/-- What one parameter becomes. -/
def CanonStep (d : Declared) (p o : String × ParamValue) : Prop :=
  o.1 = normalize p.1 ∧ canonParam p.1 p.2 d = .ok o.2

theorem namesFresh_cons {seen : List String} {p : String × ParamValue}
    {raw : List (String × ParamValue)} :
    NamesFresh seen (p :: raw) ↔
      normalize p.1 ∉ seen ∧ NamesFresh (normalize p.1 :: seen) raw := by
  unfold NamesFresh
  rw [List.forall_mem_cons, List.map_cons, List.nodup_cons]
  simp only [List.mem_map, List.mem_cons, not_or, not_exists, not_and]
  constructor
  · rintro ⟨⟨hp, hraw⟩, hne, hnd⟩
    exact ⟨hp, fun q hq => ⟨hne q hq, hraw q hq⟩, hnd⟩
  · rintro ⟨hp, hraw, hnd⟩
    exact ⟨⟨hp, fun q hq => (hraw q hq).2⟩, fun q hq => (hraw q hq).1, hnd⟩

/-- **The loop of `makeCap`**: it succeeds exactly when the names are distinct and every
parameter is admitted, and returns the admitted parameters in order. -/
theorem canonParams_eq_ok_iff {d : Declared} {seen : List String}
    {raw out : List (String × ParamValue)} :
    canonParams d seen raw = .ok out ↔
      NamesFresh seen raw ∧ List.Forall₂ (CanonStep d) raw out := by
  induction raw generalizing seen out with
  | nil => cases out <;> simp [canonParams, NamesFresh]
  | cons p raw ih =>
    obtain ⟨rawName, v⟩ := p
    rw [namesFresh_cons]
    by_cases hseen : normalize rawName ∈ seen
    · simp [canonParams, hseen]
    · constructor
      · intro h
        simp only [canonParams, if_neg hseen] at h
        obtain ⟨w, hw, h⟩ := bind_ok h
        obtain ⟨canon, hcanon, h⟩ := bind_ok h
        obtain rfl := Except.ok.inj h
        obtain ⟨hfresh, hall⟩ := ih.1 hcanon
        exact ⟨⟨hseen, hfresh⟩, .cons ⟨rfl, hw⟩ hall⟩
      · rintro ⟨⟨-, hfresh⟩, hall⟩
        obtain ⟨⟨name, w⟩, canon, ⟨hname, hw⟩, hrest, rfl⟩ :=
          List.forall₂_cons_left_iff.1 hall
        have hcanon := ih.2 ⟨hfresh, hrest⟩
        simp only at hname hw
        simp only [canonParams, if_neg hseen, hw, hcanon, hname]
        rfl

/-! ## Construction -/

theorem sortByName_eq_self {params : List (String × ParamValue)}
    (h : Assoc.KeysSorted params) : sortByName params = params :=
  List.Pairwise.insertionSort_eq (h.imp fun hlt => le_of_lt hlt)

theorem sortByName_keysSorted {params : List (String × ParamValue)}
    (h : (params.map Prod.fst).Nodup) : Assoc.KeysSorted (sortByName params) := by
  have hle : (sortByName params).Pairwise fun p q => p.1 ≤ q.1 :=
    List.pairwise_insertionSort (fun p q : String × ParamValue => p.1 ≤ q.1) params
  have hperm : (sortByName params).Perm params := List.perm_insertionSort _ params
  have hnd : (sortByName params).Pairwise fun p q => p.1 ≠ q.1 :=
    List.pairwise_map.1 ((hperm.map Prod.fst).nodup_iff.2 h)
  exact (hle.and hnd).imp fun ⟨h1, h2⟩ => lt_of_le_of_ne h1 h2

theorem makeCap_ok {token : String} {raw : List (String × ParamValue)} {d : Declared}
    {c : Cap} (h : makeCap token raw d = .ok c) :
    token ≠ "" ∧ (token = "*" → raw = []) ∧ ∃ out, NamesFresh [] raw ∧
      List.Forall₂ (CanonStep d) raw out ∧ c = ⟨token, sortByName out⟩ := by
  unfold makeCap at h
  split_ifs at h with htoken hstar
  obtain ⟨out, hout, h⟩ := bind_ok h
  obtain ⟨hfresh, hall⟩ := canonParams_eq_ok_iff.1 hout
  refine ⟨htoken, fun ht => ?_, out, hfresh, hall, (Except.ok.inj h).symm⟩
  by_contra hraw
  exact hstar ⟨ht, hraw⟩

theorem canonStep_keys {d : Declared} {raw out : List (String × ParamValue)}
    (h : List.Forall₂ (CanonStep d) raw out) :
    out.map Prod.fst = raw.map fun p => normalize p.1 := by
  induction h with
  | nil => rfl
  | cons hstep _ ih => simp [hstep.1, ih]

/-- Every parameter of a capability comes from a raw one. -/
theorem makeCap_mem {token : String} {raw : List (String × ParamValue)} {d : Declared}
    {c : Cap} (h : makeCap token raw d = .ok c) {o : String × ParamValue}
    (ho : o ∈ c.params) : ∃ p ∈ raw, CanonStep d p o := by
  obtain ⟨-, -, out, -, hall, rfl⟩ := makeCap_ok h
  exact forall₂_right hall ((List.mem_insertionSort _).1 ho)

/-- **What `makeCap` builds is well-formed.** -/
theorem makeCap_wellFormed {token : String} {raw : List (String × ParamValue)}
    {d : Declared} {c : Cap} (h : makeCap token raw d = .ok c) : c.WellFormed d := by
  have hmem := fun o ho => makeCap_mem h (o := o) ho
  obtain ⟨htoken, hstar, out, hfresh, hall, rfl⟩ := makeCap_ok h
  have hkeys := canonStep_keys hall
  refine ⟨htoken, fun ht => ?_, sortByName_keysSorted (hkeys ▸ hfresh.2), ?_⟩
  · rw [hstar ht, List.forall₂_nil_left_iff] at hall
    rw [hall]
    rfl
  · intro o ho
    obtain ⟨p, -, hname, hp⟩ := hmem o ho
    rw [hname]
    exact ⟨normalize_idem _, (canonParam_fits hp).1⟩

/-- Every raw parameter is bound in the capability, to its canonical value. -/
theorem makeCap_lookup {token : String} {raw : List (String × ParamValue)} {d : Declared}
    {c : Cap} (h : makeCap token raw d = .ok c) {p : String × ParamValue} (hp : p ∈ raw) :
    ∃ v, Assoc.get? c.params (normalize p.1) = some v ∧ canonParam p.1 p.2 d = .ok v := by
  have hnd := (makeCap_wellFormed h).sorted.nodup
  obtain ⟨-, -, out, -, hall, rfl⟩ := makeCap_ok h
  obtain ⟨o, ho, hname, hv⟩ := forall₂_right hall.flip hp
  refine ⟨o.2, (Assoc.get?_eq_some_iff hnd).2 ?_, hv⟩
  rw [← hname]
  exact (List.mem_insertionSort _).2 ho

theorem makeCap_exists {token : String} {raw : List (String × ParamValue)} {d : Declared}
    (htoken : token ≠ "") (hstar : token = "*" → raw = []) (hfresh : NamesFresh [] raw)
    (hraw : ∀ p ∈ raw, ∃ v, canonParam p.1 p.2 d = .ok v) :
    ∃ c, makeCap token raw d = .ok c ∧ c.token = token := by
  obtain ⟨out, hout⟩ : ∃ out, List.Forall₂ (CanonStep d) raw out := by
    refine exists_forall₂ fun p hp => ?_
    obtain ⟨v, hv⟩ := hraw p hp
    exact ⟨(normalize p.1, v), rfl, hv⟩
  refine ⟨⟨token, sortByName out⟩, ?_, rfl⟩
  unfold makeCap
  rw [if_neg htoken, if_neg fun hs => hs.2 (hstar hs.1),
    canonParams_eq_ok_iff.2 ⟨hfresh, hout⟩]
  rfl

/-! ## Substitution -/

/-- The raw parameters `substitute` hands to `makeCap`. -/
def resolvedParams (s : List (String × String)) (c : Cap) : List (String × ParamValue) :=
  c.params.map fun p => (p.1, resolveParam s p.2)

theorem substitute_of_symbol {c : Cap} (s : List (String × String)) (d : Declared)
    (h : (c.params.any fun p => p.2.isSymbol) = true) :
    substitute c s d = makeCap c.token (resolvedParams s c) d.orAdmit := by
  rw [substitute, if_pos h, resolvedParams]

theorem substitute_of_no_symbol {c : Cap} (s : List (String × String)) (d : Declared)
    (h : ¬ (c.params.any fun p => p.2.isSymbol) = true) : substitute c s d = .ok c := by
  rw [substitute, if_neg h]

theorem Cap.WellFormed.namesFresh {d : Declared} {c : Cap} (hc : c.WellFormed d)
    (s : List (String × String)) : NamesFresh [] (resolvedParams s c) := by
  refine ⟨fun _ _ => List.not_mem_nil, ?_⟩
  have hkeys : (resolvedParams s c).map (fun p => normalize p.1) = c.params.map Prod.fst := by
    rw [resolvedParams, List.map_map]
    exact List.map_congr_left fun p hp => (hc.canonical p hp).1
  rw [hkeys]
  exact hc.sorted.nodup

theorem resolveParam_of_not_symbol (s : List (String × String)) {v : ParamValue}
    (h : v.isSymbol = false) : resolveParam s v = v := by
  cases v <;> simp_all [ParamValue.isSymbol, resolveParam]

/-- Resolving both sides keeps the value order: a symbol is below itself alone. -/
theorem resolveParam_mono (s : List (String × String)) {n w : ParamValue}
    (h : paramLeq n w = true) : paramLeq (resolveParam s n) (resolveParam s w) = true := by
  by_cases hsym : n.isSymbol = true ∨ w.isSymbol = true
  · have heq : n = w := by
      cases n <;> cases w <;> simp_all [ParamValue.isSymbol, paramLeq]
    rw [heq]
    exact paramLeq_refl _
  · rw [not_or, Bool.not_eq_true, Bool.not_eq_true] at hsym
    rw [resolveParam_of_not_symbol s hsym.1, resolveParam_of_not_symbol s hsym.2]
    exact h

theorem substitute_wellFormed {d : Declared} {c c' : Cap} {s : List (String × String)}
    (hc : c.WellFormed d) (h : substitute c s d = .ok c') : c'.WellFormed d := by
  by_cases hsym : (c.params.any fun p => p.2.isSymbol) = true
  · rw [substitute_of_symbol s d hsym] at h
    obtain ⟨h1, h2, h3, h4⟩ := makeCap_wellFormed h
    refine ⟨h1, h2, h3, fun p hp => ?_⟩
    have := h4 p hp
    rwa [CanonicalParam, orderRow_orAdmit] at this
  · rw [substitute_of_no_symbol s d hsym] at h
    rw [← Except.ok.inj h]
    exact hc

/-- What a lookup in a substituted capability gives: the resolved value, and the value
itself where it was no symbol. -/
theorem substitute_lookup {d : Declared} {c c' : Cap} {s : List (String × String)}
    (hc : c.WellFormed d) (h : substitute c s d = .ok c') {k : String} {v : ParamValue}
    (hv : Assoc.get? c.params k = some v) :
    ∃ v', Assoc.get? c'.params k = some v' ∧ (v.isSymbol = false → v' = v) ∧
      ((c.params.any fun p => p.2.isSymbol) = true →
        canonParam k (resolveParam s v) d.orAdmit = .ok v') := by
  by_cases hsym : (c.params.any fun p => p.2.isSymbol) = true
  · have hmem := Assoc.mem_of_get? hv
    have hcan := hc.canonical _ hmem
    rw [substitute_of_symbol s d hsym] at h
    obtain ⟨v', hget, hv'⟩ := makeCap_lookup h (List.mem_map_of_mem hmem)
    simp only at hget hv'
    rw [hcan.1] at hget
    refine ⟨v', hget, fun hns => ?_, fun _ => hv'⟩
    rw [resolveParam_of_not_symbol s hns] at hv'
    refine (canonParam_fits hv').2 ⟨hcan.1, ?_⟩
    rw [orderRow_orAdmit]
    exact hcan.2
  · rw [substitute_of_no_symbol s d hsym] at h
    rw [← Except.ok.inj h]
    exact ⟨v, hv, fun _ => rfl, fun hs => absurd hs hsym⟩

theorem substitute_token {d : Declared} {c c' : Cap} {s : List (String × String)}
    (h : substitute c s d = .ok c') : c'.token = c.token := by
  by_cases hsym : (c.params.any fun p => p.2.isSymbol) = true
  · rw [substitute_of_symbol s d hsym] at h
    obtain ⟨-, -, out, -, -, rfl⟩ := makeCap_ok h
    rfl
  · rw [substitute_of_no_symbol s d hsym] at h
    rw [← Except.ok.inj h]

/-- **Attenuation is monotone**: where the child's substitution returns, the parent's
returns too and still covers it. -/
theorem substitute_mono {d : Declared} {a b b' : Cap} (ha : a.WellFormed d)
    (hb : b.WellFormed d) (s : List (String × String)) (hcov : covers a b = true)
    (hb' : substitute b s d = .ok b') :
    ∃ a', substitute a s d = .ok a' ∧ covers a' b' = true := by
  rcases covers_iff.1 hcov with ⟨hat, hbt⟩ | ⟨hat, htok, hparams⟩
  · -- `*` carries no parameters, so both sides are left as they are
    have hsym : ¬ (a.params.any fun p => p.2.isSymbol) = true := by
      simp [ha.star_bare hat]
    refine ⟨a, substitute_of_no_symbol s d hsym, ?_⟩
    rw [covers_of_star hat, substitute_token hb', hbt]
  · have hbtok : b'.token = b.token := substitute_token hb'
    by_cases hasym : (a.params.any fun p => p.2.isSymbol) = true
    · -- a symbol is covered by itself alone, so the child holds one too
      obtain ⟨q, hq, hqsym⟩ := List.any_eq_true.1 hasym
      have hbsym : (b.params.any fun p => p.2.isSymbol) = true := by
        obtain ⟨bv, hbv, hle⟩ := hparams q hq
        refine List.any_eq_true.2 ⟨(q.1, bv), Assoc.mem_of_get? hbv, ?_⟩
        cases hv : q.2 with
        | symbol r =>
          rw [hv, paramLeq_symbol_right] at hle
          rw [hle]
          rfl
        | _ => simp [hv, ParamValue.isSymbol] at hqsym
      -- every parameter of the parent is admitted because the child's is
      have hstep : ∀ p ∈ a.params, ∃ v', Assoc.get? b'.params p.1 = some v' ∧
          ∃ w', canonParam p.1 (resolveParam s p.2) d.orAdmit = .ok w' ∧
            paramLeq v' w' = true := by
        intro p hp
        obtain ⟨bv, hbv, hle⟩ := hparams p hp
        obtain ⟨v', hv', -, hcanon⟩ := substitute_lookup hb hb' hbv
        exact ⟨v', hv', canonParam_mono (resolveParam_mono s hle) (hcanon hbsym)⟩
      obtain ⟨a', ha', hatok⟩ := makeCap_exists (d := d.orAdmit) ha.token_ne
        (fun h => absurd h hat) (ha.namesFresh s) (by
          intro p hp
          obtain ⟨p0, hp0, rfl⟩ := List.mem_map.1 hp
          obtain ⟨-, -, w', hw', -⟩ := hstep p0 hp0
          exact ⟨w', hw'⟩)
      refine ⟨a', (substitute_of_symbol s d hasym).trans ha', ?_⟩
      rw [covers_iff]
      refine .inr ⟨hatok ▸ hat, by rw [hatok, hbtok, htok], fun o ho => ?_⟩
      obtain ⟨p, hp, hname, hval⟩ := makeCap_mem ha' ho
      obtain ⟨p0, hp0, rfl⟩ := List.mem_map.1 hp
      obtain ⟨v', hv', w', hw', hle⟩ := hstep p0 hp0
      simp only at hname hval
      rw [hname, (ha.canonical p0 hp0).1]
      refine ⟨v', hv', ?_⟩
      rw [← Except.ok.inj (hw'.symm.trans hval)]
      exact hle
    · refine ⟨a, substitute_of_no_symbol s d hasym, ?_⟩
      rw [covers_iff]
      refine .inr ⟨hat, by rw [hbtok, htok], fun p hp => ?_⟩
      obtain ⟨bv, hbv, hle⟩ := hparams p hp
      obtain ⟨v', hv', hsame, -⟩ := substitute_lookup hb hb' hbv
      have hns : bv.isSymbol = false := by
        cases bv with
        | symbol r =>
          rw [paramLeq_symbol_left] at hle
          refine absurd (List.any_eq_true.2 ⟨p, hp, ?_⟩) hasym
          rw [hle]
          rfl
        | _ => rfl
      exact ⟨v', hv', by rw [hsame hns]; exact hle⟩

/-- **The capability order.** Under any declaration `covers` is a partial order on the
well-formed capabilities, `*` is comparable with `*` alone, an empty `extra` means every
reach is covered, and a spawn site's bindings keep what was covered. -/
theorem covers_order_and_attenuation (d : Declared) :
    (∀ a : WfCap d, covers a.1 a.1 = true) ∧
    (∀ a b c : WfCap d, covers a.1 b.1 = true → covers b.1 c.1 = true →
      covers a.1 c.1 = true) ∧
    (∀ a b : WfCap d, covers a.1 b.1 = true → covers b.1 a.1 = true → a = b) ∧
    (∀ a b : Cap, a.token = "*" ∨ b.token = "*" →
      (covers a b = true ↔ a.token = "*" ∧ b.token = "*")) ∧
    (∀ held reach : List Cap, coversSet held reach = [] ↔
      ∀ c ∈ reach, ∃ h ∈ held, covers h c = true) ∧
    (∀ (s : List (String × String)) (a b : WfCap d) (b' : Cap), covers a.1 b.1 = true →
      substitute b.1 s d = .ok b' →
        ∃ a', substitute a.1 s d = .ok a' ∧ covers a' b' = true) := by
  refine ⟨fun a => le_refl a, fun a b c hab hbc => ?_, fun a b hab hba => ?_,
    fun a b hstar => ?_, fun held reach => coversSet_eq_nil_iff, fun s a b b' hab hb' => ?_⟩
  · exact WfCap.le_def.1 (le_trans (WfCap.le_def.2 hbc) (WfCap.le_def.2 hab))
  · exact le_antisymm (WfCap.le_def.2 hba) (WfCap.le_def.2 hab)
  · rcases hstar with ha | hb
    · rw [covers_of_star ha]
      exact ⟨fun h => ⟨ha, h⟩, fun h => h.2⟩
    · rw [star_covered_iff hb]
      exact ⟨fun h => ⟨h, hb⟩, fun h => h.1⟩
  · exact substitute_mono a.2 b.2 s hab hb'

/-- A parent holding a per-instance path, and a child that adds a table under it: both
end below the literal the spawn site binds. -/
theorem covers_order_and_attenuation_job_root :
    ∃ a', substitute ⟨"fs.write", [("path", .symbol "config.job_root")]⟩
        [("job_root", "/tmp/job")] .absent = .ok a' ∧
      covers a' ⟨"fs.write", [("path", .path ["tmp", "job"]), ("table", .discrete "t")]⟩ =
        true := by
  have hcan : ∀ p ∈ [("path", ParamValue.symbol "config.job_root"), ("table", .discrete "t")],
      CanonicalParam .absent p.1 p.2 := by
    intro p hp
    rcases List.mem_pair.1 hp with rfl | rfl
    · exact ⟨by decide, fun row hrow => by obtain rfl := Option.mem_some_iff.1 hrow; trivial⟩
    · exact ⟨by decide, fun row hrow => by obtain rfl := Option.mem_some_iff.1 hrow; trivial⟩
  exact (covers_order_and_attenuation .absent).2.2.2.2.2 [("job_root", "/tmp/job")]
    ⟨⟨"fs.write", [("path", .symbol "config.job_root")]⟩,
      by decide, by decide, by unfold Assoc.KeysSorted; decide,
      fun p hp => hcan p (by simp_all)⟩
    ⟨⟨"fs.write", [("path", .symbol "config.job_root"), ("table", .discrete "t")]⟩,
      by decide, by decide, by unfold Assoc.KeysSorted; decide, hcan⟩
    _ (by rfl) (by rfl)

end Revl.CapOrder
