import Revl.CapOrder.Spelling

/-!
# Declared intents and what refines them (`intent.py`)

- `Intent`, `Action`: what was declared, and what is about to run.
- `refine`: the first dimension of the declaration an action exceeds.
- `gateIntent`, `gateAction`: the two records the approval gate builds of a spelling.
- `refine_gate`: **what the gate's comparison decides**.
-/

namespace Revl.Mcp

open CapOrder

/-! ## Ceilings -/

/-- The value of a ceiling, which the value's own type tells. -/
def ceiling? : String × ParamValue → Option (String × Int)
  | (name, .ceiling n) => some (name, n)
  | _ => none

/-- `split_ceilings`: the resource projection and the ceilings. -/
def splitCeilings (c : Cap) : Cap × List (String × Int) :=
  (⟨c.token, c.params.filter fun p => (ceiling? p).isNone⟩, c.params.filterMap ceiling?)

/-- `is_ceiling`, without a declaration. -/
def isCeiling (name : String) : Bool :=
  (orderRow (normalize name) .absent).any fun row => row.1 == .ceiling

/-- `_canonical_ceilings`: every name a ceiling, every value not negative. -/
def canonicalCeilings (bounds : List (String × Int)) : Except String (List (String × Int)) :=
  match bounds.find? fun p => !isCeiling p.1 || decide (p.2 < 0) with
  | none => .ok (bounds.insertionSort fun p q => p.1 ≤ q.1)
  | some (name, n) =>
    if !isCeiling name then .error s!"`{name}` is not a ceiling parameter"
    else .error s!"`{name}={n}` is negative"

/-! ## The kernel -/

/-- What was declared. -/
structure Intent where
  object : Cap
  verbs : List String
  ceilings : List (String × Int)
  tenant : Option String
  related : List Cap
  scopes : List (String × List String)

/-- What is about to run. -/
structure Action where
  object : Cap
  verb : String
  amounts : List (String × Int)
  tenant : Option String
  scopes : List (String × List String)

inductive Violation where
  | extraCapability
  | object
  | verb
  | ceiling
  | scope
  | tenant
  deriving DecidableEq, Repr

/-- The dimension an action exceeds, with the ceiling or the scope it is about. -/
structure Refusal where
  violation : Violation
  name : Option String
  deriving DecidableEq, Repr

def Intent.objects (intent : Intent) : List Cap := intent.object :: intent.related

/-- `_object_violation`. -/
def objectViolation (intent : Intent) (action : Action) : Option Refusal :=
  if intent.objects.any fun declared => covers declared action.object then none
  else if action.object.token ∉ intent.objects.map Cap.token then some ⟨.extraCapability, none⟩
  else some ⟨.object, none⟩

/-- `_ceiling_violation`: a stated bound is met by a stated amount within it, and nothing is spent
on an unstated one. -/
def ceilingViolation (intent : Intent) (action : Action) : Option Refusal :=
  match (intent.ceilings ++ action.amounts).find? fun p => decide (p.2 < 0) with
  | some (name, _) => some ⟨.ceiling, some name⟩
  | none =>
    match intent.ceilings.find? fun p =>
        (Assoc.get? action.amounts p.1).all fun spent => decide (p.2 < spent) with
    | some (name, _) => some ⟨.ceiling, some name⟩
    | none =>
      match action.amounts.find? fun p => p.1 ∉ intent.ceilings.map Prod.fst with
      | some (name, _) => some ⟨.ceiling, some name⟩
      | none => none

/-- `_scope_violation`: containment, and an empty set is always admitted. -/
def scopeViolation (intent : Intent) (action : Action) : Option Refusal :=
  match intent.scopes.find? fun p =>
      (Assoc.get? action.scopes p.1).all fun members => members.any (· ∉ p.2) with
  | some (name, _) => some ⟨.scope, some name⟩
  | none =>
    match action.scopes.find? fun p => p.1 ∉ intent.scopes.map Prod.fst ∧ p.2 ≠ [] with
    | some (name, _) => some ⟨.scope, some name⟩
    | none => none

/-- `refine`: nothing, or the first dimension the action exceeds. -/
def refine (intent : Intent) (action : Action) : Option Refusal :=
  (objectViolation intent action).or <|
    (if action.verb ∉ intent.verbs then some ⟨.verb, none⟩ else none).or <|
      (ceilingViolation intent action).or <|
        (scopeViolation intent action).or <|
          if intent.tenant.isSome ∧ action.tenant ≠ intent.tenant then some ⟨.tenant, none⟩
          else none

/-! ## The gate's records -/

/-- `_GATE_VERB`. -/
def gateVerb : String := "cross"

/-- `_METERED_CEILINGS`: `remainingUses` meters them. -/
def meteredCeilings : List String := ["calls"]

/-- `_gate_ceilings`. -/
def gateCeilings (bounds : List (String × Int)) : Except String (List (String × Int)) :=
  canonicalCeilings (bounds.filter fun p => p.1 ∉ meteredCeilings)

/-- `dict.update`. -/
def dictUpdate (own more : List (String × Int)) : List (String × Int) :=
  own.filter (fun p => p.1 ∉ more.map Prod.fst) ++ more

/-- `_gate_intent`: nothing for a spelling that does not parse, and a `ValueError` for a bound
that is none. -/
def gateIntent (capability : String) (declared : List (String × Int)) :
    Except String (Option Intent) :=
  match parseCap capability .absent with
  | .error _ => .ok none
  | .ok cap => do
    let ceilings ← gateCeilings (dictUpdate (splitCeilings cap).2 declared)
    .ok (some ⟨(splitCeilings cap).1, [gateVerb], ceilings, none, [], []⟩)

/-- `_gate_action`. -/
def gateAction (capability : String) (amounts : Option (List (String × Int))) :
    Except String (Option Action) :=
  match parseCap capability .absent with
  | .error _ => .ok none
  | .ok cap => do
    let amounts ← gateCeilings (amounts.getD (splitCeilings cap).2)
    .ok (some ⟨(splitCeilings cap).1, gateVerb, amounts, none, []⟩)

/-! ## What the comparison decides -/

/-- Every amount is within the bound of its name, and every bound is met. -/
def Within (bounds amounts : List (String × Int)) : Prop :=
  (∀ p ∈ bounds, ∃ spent, Assoc.get? amounts p.1 = some spent ∧ spent ≤ p.2) ∧
    ∀ p ∈ amounts, p.1 ∈ bounds.map Prod.fst

theorem ceilingViolation_eq_none {intent : Intent} {action : Action} :
    ceilingViolation intent action = none ↔
      (∀ p ∈ intent.ceilings ++ action.amounts, 0 ≤ p.2) ∧
        Within intent.ceilings action.amounts := by
  have hfirst : ((intent.ceilings ++ action.amounts).find? fun p => decide (p.2 < 0)) = none ↔
      ∀ p ∈ intent.ceilings ++ action.amounts, 0 ≤ p.2 := by
    rw [List.find?_eq_none]
    simp only [decide_eq_true_eq, Int.not_lt]
  have hmet : (intent.ceilings.find? fun p =>
      (Assoc.get? action.amounts p.1).all fun spent => decide (p.2 < spent)) = none ↔
      ∀ p ∈ intent.ceilings, ∃ spent, Assoc.get? action.amounts p.1 = some spent ∧ spent ≤ p.2 := by
    rw [List.find?_eq_none]
    refine forall₂_congr fun p _ => ?_
    cases Assoc.get? action.amounts p.1 <;> simp
  have hstated : (action.amounts.find? fun p => p.1 ∉ intent.ceilings.map Prod.fst) = none ↔
      ∀ p ∈ action.amounts, p.1 ∈ intent.ceilings.map Prod.fst := by
    rw [List.find?_eq_none]
    simp only [decide_eq_true_eq, not_not]
  rw [Within, ← hfirst, ← hmet, ← hstated, ceilingViolation]
  cases (intent.ceilings ++ action.amounts).find? fun p => decide (p.2 < 0) with
  | some p => simp
  | none =>
    cases intent.ceilings.find? fun p =>
        (Assoc.get? action.amounts p.1).all fun spent => decide (p.2 < spent) with
    | some p => simp
    | none => cases action.amounts.find? fun p => p.1 ∉ intent.ceilings.map Prod.fst <;> simp

/-- **The gate's comparison**: the resource cone, and the ceilings. -/
theorem refine_gate {object object' : Cap} {ceilings amounts : List (String × Int)} :
    refine ⟨object, [gateVerb], ceilings, none, [], []⟩ ⟨object', gateVerb, amounts, none, []⟩ =
        none ↔
      covers object object' = true ∧ (∀ p ∈ ceilings ++ amounts, 0 ≤ p.2) ∧
        Within ceilings amounts := by
  have hobject : objectViolation ⟨object, [gateVerb], ceilings, none, [], []⟩
      ⟨object', gateVerb, amounts, none, []⟩ = none ↔ covers object object' = true := by
    simp only [objectViolation, Intent.objects, List.any_cons, List.any_nil, Bool.or_false]
    cases covers object object' with
    | true => simp
    | false => by_cases ht : object'.token = object.token <;> simp [ht]
  rw [refine, Option.or_eq_none_iff, hobject, Option.or_eq_none_iff, Option.or_eq_none_iff,
    ceilingViolation_eq_none]
  simp [scopeViolation]

/-! ## Resource and ceilings -/

theorem mem_ceilings {c : Cap} {p : String × Int} :
    p ∈ (splitCeilings c).2 ↔ (p.1, .ceiling p.2) ∈ c.params := by
  simp only [splitCeilings, List.mem_filterMap]
  constructor
  · rintro ⟨⟨name, v⟩, hmem, hv⟩
    cases v <;> simp [ceiling?] at hv
    exact hv ▸ hmem
  · exact fun h => ⟨_, h, rfl⟩

theorem mem_resource {c : Cap} {p : String × ParamValue} :
    p ∈ (splitCeilings c).1.params ↔ p ∈ c.params ∧ ceiling? p = none := by
  simp only [splitCeilings, List.mem_filter, Option.isNone_iff_eq_none]

theorem ceilings_nodup {c : Cap} (hnd : (c.params.map Prod.fst).Nodup) :
    ((splitCeilings c).2.map Prod.fst).Nodup := by
  refine List.Nodup.sublist ?_ hnd
  show ((c.params.filterMap ceiling?).map Prod.fst).Sublist _
  generalize c.params = params
  induction params with
  | nil => exact .slnil
  | cons p params ih =>
    obtain ⟨name, v⟩ := p
    cases v with
    | ceiling n => exact ih.cons_cons _
    | symbol r => exact ih.cons _
    | path p => exact ih.cons _
    | discrete s => exact ih.cons _

theorem get?_ceilings {c : Cap} (hnd : (c.params.map Prod.fst).Nodup) {name : String} {n : Int} :
    Assoc.get? (splitCeilings c).2 name = some n ↔ (name, .ceiling n) ∈ c.params := by
  rw [Assoc.get?_eq_some_iff (ceilings_nodup hnd), mem_ceilings]

/-- The projection has no ceilings of its own. -/
theorem splitCeilings_resource (c : Cap) :
    splitCeilings (splitCeilings c).1 = ((splitCeilings c).1, []) := by
  have hnone : (c.params.filter fun p => (ceiling? p).isNone).filterMap ceiling? = [] := by
    rw [List.filterMap_eq_nil_iff]
    intro p hp
    exact Option.isNone_iff_eq_none.1 (List.mem_filter.1 hp).2
  simp only [splitCeilings, List.filter_filter, Bool.and_self, hnone]

theorem splitCeilings_of_nil {c : Cap} (h : (splitCeilings c).2 = []) :
    (splitCeilings c).1 = c := by
  have hall : c.params.filter (fun p => (ceiling? p).isNone) = c.params := by
    rw [List.filter_eq_self]
    intro p hp
    exact Option.isNone_iff_eq_none.2 (List.filterMap_eq_nil_iff.1 h p hp)
  show Cap.mk c.token _ = c
  rw [hall]

theorem resource_wellFormed {d : Declared} {c : Cap} (h : c.WellFormed d) :
    (splitCeilings c).1.WellFormed d where
  token_ne := h.token_ne
  star_bare ht := by
    show c.params.filter _ = []
    rw [h.star_bare ht]
    rfl
  sorted := List.Pairwise.sublist List.filter_sublist h.sorted
  canonical p hp := h.canonical p (mem_resource.1 hp).1

/-- Every ceiling of a core capability is under a ceiling name. -/
theorem isCeiling_of_mem {c : Cap} (hwf : c.WellFormed .absent) {p : String × Int}
    (hp : p ∈ (splitCeilings c).2) (hcore : isCore p.1 = true) : isCeiling p.1 = true := by
  obtain ⟨hnorm, hfits⟩ := hwf.canonical _ (mem_ceilings.1 hp)
  obtain ⟨⟨kind, order⟩, hrow⟩ := Option.isSome_iff_exists.1 hcore
  have hrow' : orderRow p.1 .absent = some (kind, order) := by rw [orderRow, hrow, Option.some_or]
  have hfit : FitsOrder order (.ceiling p.2) := hfits _ hrow'
  have hkind : kind = .ceiling := by
    have := orderRow_kind hrow'
    cases kind with
    | ceiling => rfl
    | resource =>
      rcases this.1 rfl with rfl | rfl
      · exact hfit.elim
      · exact hfit.elim
  rw [isCeiling, hnorm, hrow', hkind]
  rfl

/-! ## The gate's ceilings -/

theorem gateCeilings_mem {bounds ceilings : List (String × Int)}
    (h : gateCeilings bounds = .ok ceilings) {p : String × Int} :
    p ∈ ceilings ↔ p ∈ bounds ∧ p.1 ∉ meteredCeilings := by
  simp only [gateCeilings, canonicalCeilings] at h
  split at h
  · cases h
    rw [List.mem_insertionSort, List.mem_filter, decide_eq_true_eq]
  · split_ifs at h

theorem gateCeilings_nodup {bounds ceilings : List (String × Int)}
    (h : gateCeilings bounds = .ok ceilings) (hnd : (bounds.map Prod.fst).Nodup) :
    (ceilings.map Prod.fst).Nodup := by
  simp only [gateCeilings, canonicalCeilings] at h
  split at h
  · cases h
    refine ((List.perm_insertionSort _ _).map Prod.fst).nodup_iff.2 ?_
    exact hnd.sublist (List.filter_sublist.map _)
  · split_ifs at h

theorem gateCeilings_exists {bounds : List (String × Int)}
    (h : ∀ p ∈ bounds, p.1 ∉ meteredCeilings → isCeiling p.1 = true ∧ 0 ≤ p.2) :
    ∃ ceilings, gateCeilings bounds = .ok ceilings := by
  have hnone : ((bounds.filter fun p => p.1 ∉ meteredCeilings).find? fun p =>
      !isCeiling p.1 || decide (p.2 < 0)) = none := by
    rw [List.find?_eq_none]
    intro p hp
    obtain ⟨hp, hmetered⟩ := List.mem_filter.1 hp
    obtain ⟨hname, hnn⟩ := h p hp (of_decide_eq_true hmetered)
    simp [hname, hnn]
  rw [gateCeilings, canonicalCeilings, hnone]
  exact ⟨_, rfl⟩

@[simp] theorem dictUpdate_nil_left (more : List (String × Int)) : dictUpdate [] more = more := rfl

@[simp] theorem dictUpdate_nil_right (own : List (String × Int)) : dictUpdate own [] = own := by
  simp [dictUpdate]

/-! ## The order, `calls` apart -/

/-- The capability without the ceilings a counter meters. -/
def unmetered (c : Cap) : Cap := ⟨c.token, c.params.filter fun p => p.1 ∉ meteredCeilings⟩

/-- The narrower spelling is at or below the wider one, but for the metered ceilings of the
wider. -/
def AtOrBelow (d : Declared) (wide narrow : String) : Prop :=
  wide = narrow ∨ ∃ w n, parseCap wide d = .ok w ∧ parseCap narrow d = .ok n ∧
    covers (unmetered w) n = true

theorem covers_unmetered_trans {a b c : Cap} (hab : covers a b = true)
    (hbc : covers (unmetered b) c = true) : covers (unmetered a) c = true := by
  rw [covers_iff] at hab hbc ⊢
  rcases hab with ⟨ha, hb⟩ | ⟨ha, hab, hparams⟩
  · rcases hbc with ⟨-, hc⟩ | ⟨hb', -, -⟩
    · exact .inl ⟨ha, hc⟩
    · exact absurd hb hb'
  · rcases hbc with ⟨hb, -⟩ | ⟨-, hbc, hparams'⟩
    · exact absurd (hab.trans hb) ha
    refine .inr ⟨ha, hab.trans hbc, ?_⟩
    intro p hp
    obtain ⟨hp, hname⟩ := List.mem_filter.1 hp
    obtain ⟨bv, hbv, hle⟩ := hparams p hp
    obtain ⟨cv, hcv, hle'⟩ := hparams' (p.1, bv) (List.mem_filter.2 ⟨Assoc.mem_of_get? hbv, hname⟩)
    exact ⟨cv, hcv, paramLeq_trans hle' hle⟩

/-- A metered name is bound to a ceiling. -/
theorem ceiling_of_metered {d : Declared} {c : Cap} (hwf : c.WellFormed d)
    {p : String × ParamValue} (hp : p ∈ c.params) (hname : p.1 ∈ meteredCeilings) :
    ceiling? p ≠ none := by
  obtain ⟨name, v⟩ := p
  obtain rfl : name = "calls" := List.mem_singleton.1 hname
  have hrow : orderRow "calls" d = some (.ceiling, .ceiling) := by
    rw [orderRow, show Assoc.get? registry "calls" = some (.ceiling, .ceiling) by decide,
      Option.some_or]
  have hfit := (hwf.canonical _ hp).2 _ hrow
  cases v with
  | ceiling n => simp [ceiling?]
  | symbol r => exact hfit.elim
  | path components => exact hfit.elim
  | discrete s => exact hfit.elim

theorem ceiling?_eq_none {p : String × ParamValue} :
    ceiling? p = none ↔ ∀ n, p.2 ≠ .ceiling n := by
  obtain ⟨name, v⟩ := p
  cases v with
  | ceiling n => exact ⟨fun h => (nomatch h), fun h => absurd rfl (h n)⟩
  | symbol r => exact ⟨fun _ _ => nofun, fun _ => rfl⟩
  | path components => exact ⟨fun _ _ => nofun, fun _ => rfl⟩
  | discrete s => exact ⟨fun _ _ => nofun, fun _ => rfl⟩

/-- A value at or below one that is no ceiling is none. -/
theorem ceiling?_of_paramLeq {name : String} {v w : ParamValue} (hle : paramLeq v w = true)
    (hnone : ceiling? (name, w) = none) : ceiling? (name, v) = none := by
  cases v with
  | ceiling n =>
    cases w with
    | ceiling m => exact absurd rfl (ceiling?_eq_none.1 hnone m)
    | symbol r => simp [paramLeq, ParamValue.isSymbol] at hle
    | path q => simp [paramLeq, ParamValue.isSymbol] at hle
    | discrete s => simp [paramLeq, ParamValue.isSymbol] at hle
  | symbol r => rfl
  | path components => rfl
  | discrete s => rfl

/-- **The order is the cone and the ceilings.** -/
theorem covers_unmetered_iff {d d' : Declared} {a b : Cap} (ha : a.WellFormed d)
    (hb : b.WellFormed d') :
    covers (unmetered a) b = true ↔
      covers (splitCeilings a).1 (splitCeilings b).1 = true ∧
        ∀ p ∈ (splitCeilings a).2, p.1 ∉ meteredCeilings →
          ∃ n, Assoc.get? (splitCeilings b).2 p.1 = some n ∧ n ≤ p.2 := by
  have hnd := hb.sorted.nodup
  have hndr := (resource_wellFormed hb).sorted.nodup
  rw [covers_iff, covers_iff]
  constructor
  · rintro (⟨hat, hbt⟩ | ⟨hat, hab, hparams⟩)
    · refine ⟨.inl ⟨hat, hbt⟩, fun p hp => ?_⟩
      rw [mem_ceilings, ha.star_bare hat] at hp
      exact nomatch hp
    refine ⟨.inr ⟨hat, hab, fun p hp => ?_⟩, fun p hp hname => ?_⟩
    · obtain ⟨hp, hnone⟩ := mem_resource.1 hp
      have hname : p.1 ∉ meteredCeilings := fun hm => ceiling_of_metered ha hp hm hnone
      obtain ⟨bv, hbv, hle⟩ := hparams p (List.mem_filter.2 ⟨hp, decide_eq_true hname⟩)
      refine ⟨bv, ?_, hle⟩
      rw [Assoc.get?_eq_some_iff hndr, mem_resource, ← Assoc.get?_eq_some_iff hnd]
      exact ⟨hbv, ceiling?_of_paramLeq hle hnone⟩
    · obtain ⟨bv, hbv, hle⟩ := hparams (p.1, .ceiling p.2)
        (List.mem_filter.2 ⟨mem_ceilings.1 hp, decide_eq_true hname⟩)
      cases bv with
      | ceiling n =>
        refine ⟨n, (get?_ceilings hnd).2 (Assoc.mem_of_get? hbv), ?_⟩
        simpa [paramLeq, ParamValue.isSymbol] using hle
      | symbol r => simp [paramLeq, ParamValue.isSymbol] at hle
      | path q => simp [paramLeq, ParamValue.isSymbol] at hle
      | discrete s => simp [paramLeq, ParamValue.isSymbol] at hle
  · rintro ⟨hat | ⟨hat, hab, hparams⟩, hceilings⟩
    · exact .inl hat
    refine .inr ⟨hat, hab, fun p hp => ?_⟩
    obtain ⟨hp, hname⟩ := List.mem_filter.1 hp
    obtain ⟨name, v⟩ := p
    cases hv : ceiling? (name, v) with
    | none =>
      obtain ⟨bv, hbv, hle⟩ := hparams _ (mem_resource.2 ⟨hp, hv⟩)
      exact ⟨bv, (Assoc.get?_eq_some_iff hnd).2 (mem_resource.1 (Assoc.mem_of_get? hbv)).1, hle⟩
    | some q =>
      obtain ⟨n, rfl⟩ : ∃ n, v = .ceiling n := by
        cases v <;> simp [ceiling?] at hv
        exact ⟨_, rfl⟩
      obtain ⟨m, hm, hle⟩ :=
        hceilings (name, n) (mem_ceilings.2 hp) (of_decide_eq_true hname)
      refine ⟨.ceiling m, (Assoc.get?_eq_some_iff hnd).2 ((get?_ceilings hnd).1 hm), ?_⟩
      simpa [paramLeq, ParamValue.isSymbol] using hle

theorem covers_unmetered {a b : Cap} (h : covers a b = true) : covers (unmetered a) b = true := by
  rw [covers_iff] at h ⊢
  refine h.imp_right ?_
  rintro ⟨ha, hab, hparams⟩
  exact ⟨ha, hab, fun p hp => hparams p (List.mem_filter.1 hp).1⟩

end Revl.Mcp
