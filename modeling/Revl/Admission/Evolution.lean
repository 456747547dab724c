import Revl.Admission.Interface

/-!
# Safe evolution of an interface (`admission.py`, `_service_compatible`)

The comparison read from its other side: a change that is safe for consumers is a list of small
ones, and the question is which combinations it refuses.

- `SafeOperation`, `SafeService`: parameters widen, results narrow, emissions go or name less, and
  so do witnessed bounds. Types flow as the table of declared records says.
- `DropsScope`, `FlowsBare`: what trips a rule of another attribute, and what the comparison cannot
  see without the table.
- `SameService`: what is left while a provider stays.
- `evolution_exact`: **which safe changes are admitted**, and all that a retained provider admits.
-/

namespace Revl.Admission

open Typecheck (Ty TypeTable compatible)

/-! ## Safe changes -/

section Safe

variable (types : TypeTable)

/-- A parameter that takes no less. -/
inductive Widened : Option Ty → Option Ty → Prop where
  | same (t : Option Ty) : Widened t t
  | untyped (old : Option Ty) : Widened old none
  | wider (old new : Ty) : compatible types new old = true → Widened (some old) (some new)

/-- A result that can be used as the older one was. -/
inductive Narrowed : Option Ty → Option Ty → Prop where
  | same (t : Option Ty) : Narrowed t t
  | unused (new : Option Ty) : Narrowed none new
  | narrower (old new : Ty) : compatible types old new = true → Narrowed (some old) (some new)

/-- A scope that names no more. No scope is any capability. -/
def NoWider (old new : Option (List String)) : Prop :=
  ∀ o, old = some o → ∃ n, new = some n ∧ ∀ cap ∈ n, cap ∈ o

/-- The scope of a witnessed bound: a bare one is any capability. -/
def boundScope : List String → Option (List String)
  | [] => none
  | cap :: caps => some (cap :: caps)

/-- An operation changed in ways that are safe for its consumers, each attribute or none. -/
structure SafeOperation (om nm : MethodDecl) : Prop where
  params : List.Forall₂ (fun p q => Widened types p.2 q.2) om.params nm.params
  returns : Narrowed types om.returns nm.returns
  emission : nm.emission = true → om.emission = true ∧ NoWider om.capabilities nm.capabilities
  witnessed : ∀ new, nm.witnessed = some new → ∃ old, om.witnessed = some old ∧
    NoWider (boundScope old) (boundScope new)
  async : nm.async = om.async
  commutative : nm.commutative = om.commutative

/-- A service changed in such ways, or by more operations. -/
structure SafeService (old new : ServiceDecl) : Prop where
  commutative : new.commutative = old.commutative
  methods : ∀ name om, old.methods.get? name = some om →
    ∃ nm, new.methods.get? name = some nm ∧ SafeOperation types om nm

end Safe

/-- A witnessed bound that names capabilities is dropped altogether. -/
def DropsScope (om nm : MethodDecl) : Prop :=
  nm.witnessed = none ∧ ∃ cap caps, om.witnessed = some (cap :: caps)

/-- Types that change flow as they have to without a table of records. -/
structure FlowsBare (om nm : MethodDecl) : Prop where
  params : ∀ p ∈ om.params.zip nm.params, ∀ opt npt, p.1.2 = some opt → p.2.2 = some npt →
    opt ≠ npt → compatible .empty npt opt = true
  returns : ∀ old new, om.returns = some old → nm.returns = some new → old ≠ new →
    compatible .empty old new = true

/-! ## Identical services -/

/-- The same capabilities, in any order, or any capability on both sides. -/
def SameScope : Option (List String) → Option (List String) → Prop
  | none, none => True
  | some a, some b => ∀ cap, cap ∈ a ↔ cap ∈ b
  | _, _ => False

/-- An operation that is the same in every attribute: the types of its parameters by position, its
result, and its effects. -/
structure SameOperation (om nm : MethodDecl) : Prop where
  params : om.params.map Prod.snd = nm.params.map Prod.snd
  returns : om.returns = nm.returns
  emission : om.emission = nm.emission
  capabilities : om.emission = true → SameScope om.capabilities nm.capabilities
  witnessed : om.witnessed.isSome = nm.witnessed.isSome
  witnessedCaps : SameScope (witnessedCaps om) (witnessedCaps nm)
  async : om.async = nm.async
  commutative : om.commutative = nm.commutative

structure SameService (old new : ServiceDecl) : Prop where
  commutative : old.commutative = new.commutative
  added : ∀ name, (new.methods.get? name).isSome → (old.methods.get? name).isSome
  methods : ∀ name om, old.methods.get? name = some om →
    ∃ nm, new.methods.get? name = some nm ∧ SameOperation om nm

/-! ## The comparison, attribute by attribute -/

theorem capsWiden_eq_false_iff {old new : Option (List String)} :
    capsWiden old new = false ↔ NoWider old new := by
  cases old with
  | none => simp [capsWiden, NoWider]
  | some o =>
    cases new with
    | none => simp [capsWiden, NoWider]
    | some n => simp [capsWiden, NoWider]

theorem sameScope_iff {a b : Option (List String)} :
    SameScope a b ↔ capsWiden a b = false ∧ capsWiden b a = false := by
  cases a with
  | none => cases b <;> simp [SameScope, capsWiden]
  | some x =>
    cases b with
    | none => simp [SameScope, capsWiden]
    | some y =>
      simp only [SameScope, capsWiden, Bool.not_eq_false', List.all_eq_true, decide_eq_true_eq]
      exact ⟨fun h => ⟨fun cap => (h cap).mpr, fun cap => (h cap).mp⟩,
        fun h cap => ⟨h.2 cap, h.1 cap⟩⟩

theorem witnessedCaps_of_some {m : MethodDecl} {caps : List String} (h : m.witnessed = some caps) :
    witnessedCaps m = boundScope caps := by
  unfold witnessedCaps
  rw [h]
  cases caps <;> rfl

theorem witnessedCaps_of_none {m : MethodDecl} (h : m.witnessed = none) :
    witnessedCaps m = none := by
  rw [witnessedCaps, h]

/-- The rule for witnessed bounds refuses a safe change only where a scope is dropped. -/
theorem SafeOperation.witnessed_iff {types : TypeTable} {om nm : MethodDecl}
    (h : SafeOperation types om nm) :
    capsWiden (Admission.witnessedCaps om) (Admission.witnessedCaps nm) = false ↔
      ¬ DropsScope om nm := by
  cases hnew : nm.witnessed with
  | some new =>
    obtain ⟨old, hold, hscope⟩ := h.witnessed new hnew
    rw [witnessedCaps_of_some hold, witnessedCaps_of_some hnew, capsWiden_eq_false_iff]
    exact ⟨fun _ hdrops => (nomatch hnew.symm.trans hdrops.1), fun _ => hscope⟩
  | none =>
    rw [witnessedCaps_of_none hnew, DropsScope]
    cases hold : om.witnessed with
    | none => simp [witnessedCaps_of_none hold, capsWiden, hnew]
    | some old =>
      rw [witnessedCaps_of_some hold]
      cases old <;> simp [boundScope, capsWiden, hnew]

theorem paramDrifts_iff {types : TypeTable} {old new : Option Ty} (h : Widened types old new) :
    paramDrifts false old new = false ↔ ∀ opt npt, old = some opt → new = some npt → opt ≠ npt →
      compatible .empty npt opt = true := by
  cases h with
  | same t => simp +contextual [paramDrifts]
  | untyped old => cases old <;> simp [paramDrifts]
  | wider old new hflow =>
    by_cases heq : old = new
    · simp [paramDrifts, heq]
    · simp [paramDrifts, heq]

theorem returnDrifts_iff {types : TypeTable} {old new : Option Ty} (h : Narrowed types old new) :
    returnDrifts false old new = false ↔ ∀ o n, old = some o → new = some n → o ≠ n →
      compatible .empty o n = true := by
  cases h with
  | same t => simp +contextual [returnDrifts]
  | unused new => cases new <;> simp [returnDrifts]
  | narrower old new hflow =>
    by_cases heq : old = new
    · simp [returnDrifts, heq]
    · simp [returnDrifts, heq]

/-- **The safe changes of an operation that are admitted.** -/
theorem SafeOperation.methodDrift_iff {types : TypeTable} {om nm : MethodDecl}
    (h : SafeOperation types om nm) :
    methodDrift false om nm = none ↔ ¬ DropsScope om nm ∧ FlowsBare om nm := by
  have hparams : ((om.params.zip nm.params).any fun p => paramDrifts false p.1.2 p.2.2) = false ↔
      ∀ p ∈ om.params.zip nm.params, ∀ opt npt, p.1.2 = some opt → p.2.2 = some npt →
        opt ≠ npt → compatible .empty npt opt = true := by
    rw [List.any_eq_false]
    refine forall₂_congr fun p hp => ?_
    rw [Bool.not_eq_true]
    exact paramDrifts_iff ((List.forall₂_iff_zip.mp h.params).2 hp)
  have hemission : (nm.emission && !om.emission) = false := by
    cases hnew : nm.emission with
    | false => rfl
    | true => rw [(h.emission hnew).1]; rfl
  have hcaps : (nm.emission && om.emission && capsWiden om.capabilities nm.capabilities) =
      false := by
    cases hnew : nm.emission with
    | false => rfl
    | true => rw [capsWiden_eq_false_iff.mpr (h.emission hnew).2, Bool.and_false]
  have hwitnessed : (nm.witnessed.isSome && om.witnessed.isNone) = false := by
    cases hnew : nm.witnessed with
    | none => rfl
    | some new =>
      obtain ⟨old, hold, -⟩ := h.witnessed new hnew
      rw [hold]
      rfl
  have hlength : ¬ nm.params.length ≠ om.params.length := not_not.mpr h.params.length_eq.symm
  unfold methodDrift
  rw [if_neg hlength, hemission, hcaps, hwitnessed]
  simp only [Bool.and_false, Bool.false_and, Bool.false_eq_true, if_false, h.async, h.commutative,
    ne_eq, not_true_eq_false, ite_some_eq_none_iff, Bool.not_eq_true, hparams, h.witnessed_iff,
    returnDrifts_iff h.returns, and_true]
  constructor
  · rintro ⟨hp, hr, hw⟩
    exact ⟨hw, hp, hr⟩
  · rintro ⟨hw, hp, hr⟩
    exact ⟨hp, hr, hw⟩

theorem drifts_strict_iff {old new : Option Ty} :
    (paramDrifts true old new = false ↔ old = new) ∧
      (returnDrifts true old new = false ↔ old = new) := by
  by_cases h : old = new <;> simp [paramDrifts, returnDrifts, h]

theorem forall_zip_eq_iff {om nm : List (String × Option Ty)} (hlength : om.length = nm.length) :
    (∀ p ∈ om.zip nm, p.1.2 = p.2.2) ↔ om.map Prod.snd = nm.map Prod.snd := by
  rw [← List.forall₂_eq_eq_eq, List.forall₂_map_left_iff, List.forall₂_map_right_iff,
    List.forall₂_iff_zip]
  exact ⟨fun h => ⟨hlength, fun hp => h _ hp⟩, fun h p hp => h.2 hp⟩

/-- **All that a retained provider admits of an operation.** -/
theorem methodDrift_strict_iff {om nm : MethodDecl} :
    methodDrift true om nm = none ↔ SameOperation om nm := by
  have hparams : ((om.params.zip nm.params).any fun p => paramDrifts true p.1.2 p.2.2) = false ↔
      ∀ p ∈ om.params.zip nm.params, p.1.2 = p.2.2 := by
    rw [List.any_eq_false]
    refine forall₂_congr fun p _ => ?_
    rw [Bool.not_eq_true]
    exact drifts_strict_iff.1
  simp only [methodDrift, ite_some_eq_none_iff, Bool.not_eq_true, hparams, drifts_strict_iff.2,
    Bool.and_true, Bool.true_and, ne_eq, not_not, and_true]
  constructor
  · rintro ⟨hlength, hp, hr, hnew, hold, hwnew, hwold, hcaps, hwcaps, hwcaps', hcaps', hasync,
      hcomm⟩
    have hemission : om.emission = nm.emission := by
      cases ho : om.emission <;> cases hn : nm.emission <;> simp_all
    have hwitnessed : om.witnessed.isSome = nm.witnessed.isSome := by
      cases ho : om.witnessed <;> cases hn : nm.witnessed <;> simp_all
    refine ⟨(forall_zip_eq_iff hlength.symm).mp hp, hr, hemission, fun ho => ?_, hwitnessed,
      sameScope_iff.mpr ⟨hwcaps, hwcaps'⟩, hasync.symm, hcomm.symm⟩
    rw [← hemission, ho] at hcaps hcaps'
    exact sameScope_iff.mpr ⟨hcaps, hcaps'⟩
  · intro h
    have hlength : om.params.length = nm.params.length := by
      simpa using congrArg List.length h.params
    have hw := sameScope_iff.mp h.witnessedCaps
    have hcaps : (nm.emission && om.emission && capsWiden om.capabilities nm.capabilities) = false ∧
        (nm.emission && om.emission && capsWiden nm.capabilities om.capabilities) = false := by
      cases ho : om.emission with
      | false => simp
      | true =>
        obtain ⟨hab, hba⟩ := sameScope_iff.mp (h.capabilities ho)
        simp [hab, hba]
    refine ⟨hlength.symm, (forall_zip_eq_iff hlength).mpr h.params, h.returns, ?_, ?_, ?_, ?_,
      hcaps.1, hw.1, hw.2, hcaps.2, h.async.symm, h.commutative.symm⟩
    · rw [h.emission]
      simp
    · rw [h.emission]
      simp
    · have hwitnessed := h.witnessed
      cases ho : om.witnessed <;> cases hn : nm.witnessed <;> simp_all
    · have hwitnessed := h.witnessed
      cases ho : om.witnessed <;> cases hn : nm.witnessed <;> simp_all

/-! ## The comparison of two services -/

theorem SameOperation.of_shape {om nm : MethodDecl} (h : nm.shape = om.shape) :
    SameOperation om nm := by
  obtain ⟨hparams, hreturns, hemission, hasync, hcommutative, hcaps, hwitnessed⟩ :=
    Shape.mk.inj h
  refine ⟨by rw [hparams], hreturns.symm, hemission.symm, fun _ => ?_, by rw [hwitnessed], ?_,
    hasync.symm, hcommutative.symm⟩
  · rw [hcaps]
    exact sameScope_iff.mpr ⟨capsWiden_self _, capsWiden_self _⟩
  · have hsame : Admission.witnessedCaps nm = Admission.witnessedCaps om := by
      simp only [Admission.witnessedCaps, hwitnessed]
    rw [hsame]
    exact sameScope_iff.mpr ⟨capsWiden_self _, capsWiden_self _⟩

theorem methodDrift_of_shape {om nm : MethodDecl} (h : nm.shape = om.shape) (strict : Bool) :
    methodDrift strict om nm = none := by
  cases strict with
  | true => exact methodDrift_strict_iff.mpr (.of_shape h)
  | false =>
    obtain ⟨hparams, hreturns, hemission, hasync, hcommutative, hcaps, hwitnessed⟩ :=
      Shape.mk.inj h
    have hself : ∀ {p q}, (p, q) ∈ om.params.zip nm.params → p = q := fun hp => by
      rw [hparams] at hp
      have hsame : List.Forall₂ (· = ·) om.params om.params := List.forall₂_same.mpr fun _ _ => rfl
      exact (List.forall₂_iff_zip.mp hsame).2 hp
    have hsafe : SafeOperation .empty om nm := by
      refine ⟨List.forall₂_iff_zip.mpr ⟨by rw [hparams], fun hp => ?_⟩, hreturns ▸ .same _,
        fun hn => ⟨hemission ▸ hn, ?_⟩, fun caps hn => ⟨caps, hwitnessed ▸ hn, ?_⟩, hasync,
        hcommutative⟩
      · rw [hself hp]
        exact .same _
      · rw [hcaps]
        exact capsWiden_eq_false_iff.mp (capsWiden_self _)
      · exact capsWiden_eq_false_iff.mp (capsWiden_self _)
    refine hsafe.methodDrift_iff.mpr ⟨?_, ?_, ?_⟩
    · rintro ⟨hnone, cap, caps, hsome⟩
      rw [← hwitnessed, hnone] at hsome
      cases hsome
    · rintro ⟨p, q⟩ hp opt npt ho hn hne
      rw [hself hp] at ho
      rw [hn] at ho
      exact absurd (Option.some.inj ho).symm hne
    · intro o n ho hn hne
      rw [← hreturns, hn] at ho
      exact absurd (Option.some.inj ho).symm hne

theorem serviceCompatible_iff {new old : ServiceDecl} {strict : Bool} :
    serviceCompatible new old strict = none ↔ old.commutative = new.commutative ∧
      (strict = true → ∀ name, (new.methods.get? name).isSome → (old.methods.get? name).isSome) ∧
      ∀ name om, old.methods.get? name = some om →
        ∃ nm, new.methods.get? name = some nm ∧ methodDrift strict om nm = none := by
  have hshape : serviceEqual new old → ∀ name,
      (new.methods.get? name).map MethodDecl.shape =
        (old.methods.get? name).map MethodDecl.shape := by
    intro hequal name
    by_cases hname : name ∈ (new.methods.entries ++ old.methods.entries).map Prod.fst
    · exact hequal.2 name hname
    · have hnone : ∀ service : ServiceDecl, name ∉ service.methods.entries.map Prod.fst →
          service.methods.get? name = none := fun service hnot =>
        Dict.get?_eq_none_iff.mpr fun m hm => hnot (List.mem_map_of_mem hm)
      rw [List.map_append, List.mem_append, not_or] at hname
      rw [hnone new hname.1, hnone old hname.2]
  unfold serviceCompatible
  split_ifs with hequal hcommutative
  · refine iff_of_true rfl ⟨hequal.1.symm, fun _ name hname => ?_, fun name om hom => ?_⟩
    · have := congrArg Option.isSome (hshape hequal name)
      rw [Option.isSome_map, Option.isSome_map] at this
      rwa [← this]
    · have hsame := hshape hequal name
      rw [hom, Option.map_some, Option.map_eq_some_iff] at hsame
      obtain ⟨nm, hnm, heq⟩ := hsame
      exact ⟨nm, hnm, methodDrift_of_shape heq strict⟩
  · exact iff_of_false (by simp) fun h => hcommutative h.1
  · have hcommutative' := not_not.mp hcommutative
    split
    · rename_i added hadded
      refine iff_of_false (by simp) fun h => ?_
      have hfound := List.find?_some hadded
      rw [Bool.and_eq_true, Option.isNone_iff_eq_none] at hfound
      have hmem := List.mem_of_find?_eq_some hadded
      have hnew : new.methods.get? added.1 = some added.2 := Dict.get?_eq_some_iff.mpr hmem
      have hold := h.2.1 hfound.1 added.1 (by rw [hnew]; rfl)
      rw [hfound.2] at hold
      cases hold
    · rename_i hadded
      rw [List.findSome?_eq_none_iff]
      constructor
      · intro h
        refine ⟨hcommutative', fun hstrict name hname => ?_, fun name om hom => ?_⟩
        · obtain ⟨nm, hnm⟩ := Option.isSome_iff_exists.mp hname
          have hnot := List.find?_eq_none.mp hadded (name, nm) (Dict.get?_eq_some_iff.mp hnm)
          rw [hstrict, Bool.true_and, Bool.not_eq_true] at hnot
          exact Option.isNone_eq_false_iff.mp hnot
        · have hone := h (name, om) (Dict.get?_eq_some_iff.mp hom)
          cases hnm : new.methods.get? name with
          | none => simp [hnm] at hone
          | some nm => exact ⟨nm, rfl, by simpa [hnm] using hone⟩
      · rintro ⟨-, -, h⟩ ⟨name, om⟩ hmem
        obtain ⟨nm, hnm, hdrift⟩ := h name om (Dict.get?_eq_some_iff.mpr hmem)
        simp [hnm, hdrift]

/-- **The exact condition.** A safe change is admitted where no provider stays exactly when no
witnessed bound that names capabilities is dropped and every type that changes flows as it has to
without the table of records. Where a provider stays, exactly the services that are the same in
every attribute are admitted. -/
theorem evolution_exact (types : TypeTable) (new old : ServiceDecl) :
    (SafeService types old new → (serviceCompatible new old false = none ↔
      ∀ name om nm, old.methods.get? name = some om → new.methods.get? name = some nm →
        ¬ DropsScope om nm ∧ FlowsBare om nm)) ∧
    (serviceCompatible new old true = none ↔ SameService old new) := by
  constructor
  · intro hsafe
    rw [serviceCompatible_iff]
    constructor
    · rintro ⟨-, -, hall⟩ name om nm hom hnm
      obtain ⟨nm', hnm', hdrift⟩ := hall name om hom
      obtain rfl := Option.some.inj (hnm.symm.trans hnm')
      obtain ⟨nm', hnm', hop⟩ := hsafe.methods name om hom
      obtain rfl := Option.some.inj (hnm.symm.trans hnm')
      exact hop.methodDrift_iff.mp hdrift
    · intro hall
      refine ⟨hsafe.commutative.symm, fun h => absurd h Bool.false_ne_true, fun name om hom => ?_⟩
      obtain ⟨nm, hnm, hop⟩ := hsafe.methods name om hom
      exact ⟨nm, hnm, hop.methodDrift_iff.mpr (hall name om nm hom hnm)⟩
  · rw [serviceCompatible_iff]
    simp only [methodDrift_strict_iff, forall_const]
    exact ⟨fun ⟨hc, ha, hm⟩ => ⟨hc, ha, hm⟩, fun ⟨hc, ha, hm⟩ => ⟨hc, ha, hm⟩⟩

/-- A store whose one operation is witnessed in one capability, and the same without the bound. -/
def boundStore : ServiceDecl where
  methods := ⟨[("create", ⟨[], none, false, false, false, none, some ["store"], [], [], none⟩)],
    by decide⟩
  commutative := false

def plainStore : ServiceDecl where
  methods := ⟨[("create", ⟨[], none, false, false, false, none, none, [], [], none⟩)], by decide⟩
  commutative := false

/-- Dropping a witnessed bound is safe, and is refused as a bound that widens. -/
theorem dropped_bound_refused : SafeService .empty boundStore plainStore ∧
    serviceCompatible plainStore boundStore false = some ⟨some "create", .witnessed⟩ := by
  refine ⟨⟨rfl, fun name om hom => ?_⟩, by decide⟩
  obtain ⟨rfl, rfl⟩ := Prod.mk.inj (List.mem_singleton.mp (Dict.get?_eq_some_iff.mp hom))
  exact ⟨_, rfl, .nil, .same _, fun h => (nomatch h), fun _ h => (nomatch h), rfl, rfl⟩

end Revl.Admission
