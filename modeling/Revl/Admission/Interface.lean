import Revl.Types.ValueFlow

/-!
# Redeclared interfaces (`admission.py`, `_service_compatible`)

A service redeclared against a running composition replaces the interface the running components
were checked against. While a provider stays the interface may not change. Otherwise operations
may be added, parameters may widen, results narrow and emissions go.

- `MethodDecl`, `ServiceDecl`: the interfaces, with the taint qualifiers of their operations.
  `serviceFromIr`: one as it is read back from a document.
- `serviceCompatible`: the comparison, and the first drift it finds. Types are compared as they
  are parsed, without a table of records.
- `Serves`, `Honours`: what keeps right every call that was checked against the older interface.
- `Settled`: where a qualifier becomes no stricter and no type hides behind a wildcard.
- `honours_of_compatible`: **a compatible interface that is settled honours the older one.**
-/

namespace Revl.Admission

open Typecheck (Ty Closed compatible)

/-- An operation. Its trusted and its secret parameters are given by their positions; what a call
passes to an untrusted one is not restricted. -/
structure MethodDecl where
  params : List (String × Option Ty)
  returns : Option Ty
  emission : Bool
  async : Bool
  commutative : Bool
  capabilities : Option (List String)
  witnessed : Option (List String)
  trustedParams : List Nat
  secretParams : List Nat
  returnsQualifier : Option String

structure ServiceDecl where
  methods : Dict String MethodDecl
  commutative : Bool

/-- An operation as it is read back from a document: which parameters are secret is not. -/
def MethodDecl.fromIr (m : MethodDecl) : MethodDecl := { m with secretParams := [] }

/-- `_service_from_ir`. -/
def serviceFromIr (service : ServiceDecl) : ServiceDecl :=
  { service with methods := service.methods.map fun _ m => m.fromIr }

@[simp] theorem get?_serviceFromIr (service : ServiceDecl) (name : String) :
    (serviceFromIr service).methods.get? name =
      (service.methods.get? name).map MethodDecl.fromIr :=
  Dict.get?_map _ _ _

/-! ## The comparison -/

/-- What `_service_equal` compares of an operation. -/
structure Shape where
  params : List (String × Option Ty)
  returns : Option Ty
  emission : Bool
  async : Bool
  commutative : Bool
  capabilities : Option (List String)
  witnessed : Option (List String)
  deriving DecidableEq

def MethodDecl.shape (m : MethodDecl) : Shape :=
  ⟨m.params, m.returns, m.emission, m.async, m.commutative, m.capabilities, m.witnessed⟩

/-- `_service_equal`. -/
def serviceEqual (a b : ServiceDecl) : Prop :=
  a.commutative = b.commutative ∧
    ∀ name ∈ (a.methods.entries ++ b.methods.entries).map Prod.fst,
      (a.methods.get? name).map MethodDecl.shape = (b.methods.get? name).map MethodDecl.shape

instance (a b : ServiceDecl) : Decidable (serviceEqual a b) :=
  inferInstanceAs (Decidable (a.commutative = b.commutative ∧
    ∀ name ∈ (a.methods.entries ++ b.methods.entries).map Prod.fst,
      (a.methods.get? name).map MethodDecl.shape = (b.methods.get? name).map MethodDecl.shape))

inductive DriftKind where
  | added
  | removed
  | signature
  | emission
  | witnessed
  | commutative
  deriving DecidableEq, Repr

/-- One reason a replacement is not compatible; without an operation it is about the service. -/
structure Drift where
  method : Option String
  kind : DriftKind
  deriving DecidableEq, Repr

/-- `_caps_widen`: no list is any capability. -/
def capsWiden : Option (List String) → Option (List String) → Bool
  | none, _ => false
  | some _, none => true
  | some old, some new => !(new.all (· ∈ old))

/-- `_witnessed_caps`: a bare bound is any capability, as is an operation without one. -/
def witnessedCaps (m : MethodDecl) : Option (List String) :=
  match m.witnessed with
  | none => none
  | some [] => none
  | some caps => some caps

/-- A parameter that drifts from one type to another. Without a type it takes anything. -/
def paramDrifts (strict : Bool) (old new : Option Ty) : Bool :=
  if old = new then false
  else if strict then true
  else match old, new with
    | none, _ => true
    | some _, none => false
    | some opt, some npt => !compatible .empty npt opt

/-- A result that drifts. Without a type there is none to use. -/
def returnDrifts (strict : Bool) (old new : Option Ty) : Bool :=
  if old = new then false
  else if strict then true
  else match old, new with
    | none, _ => false
    | some _, none => true
    | some old, some new => !compatible .empty old new

/-- The first drift of one operation, in the order they are checked. -/
def methodDrift (strict : Bool) (om nm : MethodDecl) : Option DriftKind :=
  if nm.params.length ≠ om.params.length then some .signature
  else if (om.params.zip nm.params).any fun p => paramDrifts strict p.1.2 p.2.2 then
    some .signature
  else if returnDrifts strict om.returns nm.returns then some .signature
  else if nm.emission && !om.emission then some .emission
  else if om.emission && !nm.emission && strict then some .emission
  else if nm.witnessed.isSome && om.witnessed.isNone then some .witnessed
  else if om.witnessed.isSome && nm.witnessed.isNone && strict then some .witnessed
  else if nm.emission && om.emission && capsWiden om.capabilities nm.capabilities then
    some .emission
  -- a scoped bound that is dropped altogether widens too: no bound reads as any capability
  else if capsWiden (witnessedCaps om) (witnessedCaps nm) then some .witnessed
  else if strict && capsWiden (witnessedCaps nm) (witnessedCaps om) then some .witnessed
  else if nm.emission && om.emission && strict && capsWiden nm.capabilities om.capabilities then
    some .emission
  else if nm.async ≠ om.async then some .signature
  else if nm.commutative ≠ om.commutative then some .commutative
  else none

/-- `_service_compatible`. -/
def serviceCompatible (new old : ServiceDecl) (providersRetained : Bool) : Option Drift :=
  if serviceEqual new old then none
  else if old.commutative ≠ new.commutative then some ⟨none, .commutative⟩
  else match new.methods.entries.find? fun p =>
      providersRetained && (old.methods.get? p.1).isNone with
    | some added => some ⟨some added.1, .added⟩
    | none => old.methods.entries.findSome? fun p =>
      match new.methods.get? p.1 with
      | none => some ⟨some p.1, .removed⟩
      | some nm => (methodDrift providersRetained p.2 nm).map fun kind => ⟨some p.1, kind⟩

/-! ## Calls that stay right -/

/-- A value of the type may be passed. -/
def Takes (param : Option Ty) (t : Ty) : Prop :=
  ∀ e, param = some e → compatible .empty e t = true

/-- A result may be used at the type. -/
def Gives (result : Option Ty) (t : Ty) : Prop :=
  ∃ r, result = some r ∧ compatible .empty t r = true

/-- What every call of the older operation relies on. -/
structure Serves (new old : MethodDecl) : Prop where
  arity : new.params.length = old.params.length
  accepts : ∀ (i : Nat) p q, old.params[i]? = some p → new.params[i]? = some q →
    ∀ t, Closed t → Takes p.2 t → Takes q.2 t
  usable : ∀ t, Closed t → Gives old.returns t → Gives new.returns t
  emission : new.emission = true →
    old.emission = true ∧ capsWiden old.capabilities new.capabilities = false
  witnessed : new.witnessed.isSome = true →
    old.witnessed.isSome = true ∧ capsWiden (witnessedCaps old) (witnessedCaps new) = false
  async : new.async = old.async
  trusted : ∀ i ∈ new.trustedParams, i ∈ old.trustedParams
  secret : ∀ i ∈ old.secretParams, i ∈ new.secretParams
  returned : new.returnsQualifier = none ∨ new.returnsQualifier = old.returnsQualifier

/-- Every operation of the older interface is there and serves its calls. -/
def Honours (new old : ServiceDecl) : Prop :=
  ∀ name om, old.methods.get? name = some om →
    ∃ nm, new.methods.get? name = some nm ∧ Serves nm om

theorem capsWiden_self (caps : Option (List String)) : capsWiden caps caps = false := by
  cases caps <;> simp [capsWiden]

theorem capsWiden_trans {a b c : Option (List String)} (hab : capsWiden a b = false)
    (hbc : capsWiden b c = false) : capsWiden a c = false := by
  cases a with
  | none => rfl
  | some old =>
    cases b with
    | none => cases hab
    | some mid =>
      cases c with
      | none => cases hbc
      | some new =>
        simp only [capsWiden, Bool.not_eq_false', List.all_eq_true, decide_eq_true_eq] at *
        exact fun x hx => hab x (hbc x hx)

theorem Serves.refl (m : MethodDecl) : Serves m m where
  arity := rfl
  accepts := by
    intro i p q hp hq t _ ht
    obtain rfl := Option.some.inj (hp.symm.trans hq)
    exact ht
  usable := fun _ _ h => h
  emission := fun h => ⟨h, capsWiden_self _⟩
  witnessed := fun h => ⟨h, capsWiden_self _⟩
  async := rfl
  trusted := fun _ h => h
  secret := fun _ h => h
  returned := .inr rfl

theorem Serves.trans {new mid old : MethodDecl} (h : Serves new mid) (h' : Serves mid old) :
    Serves new old where
  arity := h.arity.trans h'.arity
  accepts := by
    intro i p q hp hq t htc ht
    have hi : i < mid.params.length := by
      rw [← h.arity]
      exact (List.getElem?_eq_some_iff.mp hq).1
    have hmid := List.getElem?_eq_getElem hi
    exact h.accepts i _ q hmid hq t htc (h'.accepts i p _ hp hmid t htc ht)
  usable := fun t htc ht => h.usable t htc (h'.usable t htc ht)
  emission := by
    intro hn
    obtain ⟨hm, hwiden⟩ := h.emission hn
    obtain ⟨ho, hwiden'⟩ := h'.emission hm
    exact ⟨ho, capsWiden_trans hwiden' hwiden⟩
  witnessed := by
    intro hn
    obtain ⟨hm, hwiden⟩ := h.witnessed hn
    obtain ⟨ho, hwiden'⟩ := h'.witnessed hm
    exact ⟨ho, capsWiden_trans hwiden' hwiden⟩
  async := h.async.trans h'.async
  trusted := fun i hi => h'.trusted i (h.trusted i hi)
  secret := fun i hi => h.secret i (h'.secret i hi)
  returned := by
    rcases h.returned with h | h
    · exact .inl h
    · rw [h]
      exact h'.returned

theorem Honours.refl (service : ServiceDecl) : Honours service service :=
  fun _ om hom => ⟨om, hom, .refl om⟩

theorem Honours.trans {new mid old : ServiceDecl} (h : Honours new mid) (h' : Honours mid old) :
    Honours new old := by
  intro name om hom
  obtain ⟨mm, hmm, hserves'⟩ := h' name om hom
  obtain ⟨nm, hnm, hserves⟩ := h name mm hmm
  exact ⟨nm, hnm, hserves.trans hserves'⟩

/-! ## Value flow without a table of records -/

theorem not_bridge {a b c : Ty} : ¬ Typecheck.Bridge .empty a b c := by
  have hnone : ∀ t, ¬ Typecheck.Nominal .empty t := by
    intro t h
    obtain ⟨head, args⟩ := t
    cases head <;> cases h
  intro h
  induction h with
  | overRecord h => exact hnone _ h
  | underRecord _ h => exact hnone _ h
  | aboveRecord h => exact hnone _ h
  | field _ _ _ _ _ _ _ ih => exact ih
  | expected _ _ ih => exact ih
  | middle _ _ ih => exact ih
  | actual _ _ ih => exact ih
  | argument _ _ _ _ _ _ _ _ _ ih => exact ih
  | parameter _ _ _ _ _ _ _ _ ih => exact ih
  | result _ _ _ _ _ _ _ _ ih => exact ih

theorem emptyTable_closed : Typecheck.ClosedTable .empty where
  closed := by
    intro name spec h
    cases h
  names := by
    intro name spec h
    cases h

/-- Between closed types value flow composes. -/
theorem flow_trans {a b c : Ty} (ha : Closed a) (hb : Closed b) (hc : Closed c)
    (hab : compatible .empty a b = true) (hbc : compatible .empty b c = true) :
    compatible .empty a c = true :=
  Typecheck.compatible_trans emptyTable_closed ha hb hc not_bridge hab hbc

/-- A type anything flows into and out of. -/
def Loose (t : Ty) : Prop := Typecheck.isWildcard t = true ∨ t.head = .name "Value"

theorem Loose.takes {t : Ty} (h : Loose t) (hne : t.head ≠ .name "Never") (a : Ty) :
    compatible .empty t a = true := by
  refine Typecheck.compatible_iff.mpr ⟨[], ?_, by simp⟩
  unfold Typecheck.demands
  rw [if_neg fun hn => hne hn.1]
  by_cases hwild : Typecheck.isWildcard t = true ∨ Typecheck.isWildcard a = true
  · rw [if_pos hwild]
  · rw [if_neg hwild, if_pos (.inl (h.resolve_left fun ht => hwild (.inl ht)))]

theorem Loose.gives {t a : Ty} (h : Loose t) (ha : Closed a) : compatible .empty a t = true := by
  refine Typecheck.compatible_iff.mpr ⟨[], ?_, by simp⟩
  unfold Typecheck.demands
  rw [if_neg fun hn => ha.ne_head (by simp) hn.1]
  by_cases hwild : Typecheck.isWildcard a = true ∨ Typecheck.isWildcard t = true
  · rw [if_pos hwild]
  · rw [if_neg hwild, if_pos (.inr (h.resolve_left fun ht => hwild (.inr ht)))]

/-! ## What the comparison keeps -/

/-- A type that changes: the older one hides nothing, and the newer one at most everything. -/
def PlainChange (old new : Option Ty) : Prop :=
  old = new ∨ ((∀ t, old = some t → Closed t) ∧ ∀ t, new = some t → Closed t ∨ Loose t)

/-- The qualifiers become no stricter, and the types that change are plain. -/
structure SettledMethod (nm om : MethodDecl) : Prop where
  trusted : ∀ i ∈ nm.trustedParams, i ∈ om.trustedParams
  secret : ∀ i ∈ om.secretParams, i ∈ nm.secretParams
  returned : nm.returnsQualifier = none ∨ nm.returnsQualifier = om.returnsQualifier
  params : ∀ p ∈ om.params.zip nm.params, PlainChange p.1.2 p.2.2
  returns : PlainChange om.returns nm.returns

/-- Every operation both interfaces have is settled. -/
def Settled (new old : ServiceDecl) : Prop :=
  ∀ name nm om, new.methods.get? name = some nm → old.methods.get? name = some om →
    SettledMethod nm om

/-- A parameter that does not drift takes what it took. -/
theorem takes_of_not_drifts {strict : Bool} {old new : Option Ty}
    (h : paramDrifts strict old new = false) (hplain : PlainChange old new) {t : Ty}
    (ht : Closed t) (htakes : Takes old t) : Takes new t := by
  rcases hplain with rfl | ⟨hold, hnew⟩
  · exact htakes
  unfold paramDrifts at h
  split_ifs at h with heq hstrict
  · exact heq ▸ htakes
  · intro e he
    subst he
    cases old with
    | none => cases h
    | some o =>
      have hflow : compatible .empty e o = true := by simpa using h
      have ho := hold o rfl
      rcases hnew e rfl with hclosed | hloose
      · exact flow_trans hclosed ho ht hflow (htakes o rfl)
      · -- of the wildcards only the empty type takes nothing, and it drifts from a closed type
        refine hloose.takes (fun hnever => ?_) t
        obtain ⟨pairs, hdemands, -⟩ := Typecheck.compatible_iff.mp hflow
        unfold Typecheck.demands at hdemands
        rw [if_pos ⟨hnever, ho.isWildcard⟩] at hdemands
        cases hdemands

/-- A result that does not drift is usable where it was. -/
theorem gives_of_not_drifts {strict : Bool} {old new : Option Ty}
    (h : returnDrifts strict old new = false) (hplain : PlainChange old new) {t : Ty}
    (ht : Closed t) (hgives : Gives old t) : Gives new t := by
  rcases hplain with rfl | ⟨hold, hnew⟩
  · exact hgives
  unfold returnDrifts at h
  split_ifs at h with heq hstrict
  · exact heq ▸ hgives
  · obtain ⟨o, rfl, hto⟩ := hgives
    cases new with
    | none => cases h
    | some n =>
      have hflow : compatible .empty o n = true := by simpa using h
      refine ⟨n, rfl, ?_⟩
      rcases hnew n rfl with hclosed | hloose
      · exact flow_trans ht (hold o rfl) hclosed hto hflow
      · exact hloose.gives ht

theorem ite_some_eq_none_iff {α : Type} {c : Prop} [Decidable c] {x : α} {o : Option α} :
    (if c then some x else o) = none ↔ ¬ c ∧ o = none := by
  split_ifs with h <;> simp [h]

/-- What an operation without a drift keeps. -/
theorem serves_of_no_drift {strict : Bool} {om nm : MethodDecl}
    (h : methodDrift strict om nm = none) (hsettled : SettledMethod nm om) : Serves nm om := by
  simp only [methodDrift, ite_some_eq_none_iff] at h
  obtain ⟨harity, hparams, hreturns, hemission, -, hwitnessed, -, hcaps, hwcaps, -, -, hasync, -, -⟩
    := h
  refine ⟨not_not.mp harity, fun i p q hp hq t htc ht => ?_, fun t htc ht => ?_, fun hn => ?_,
    fun hn => ?_, not_not.mp hasync, hsettled.trusted, hsettled.secret, hsettled.returned⟩
  · have hmem : (p, q) ∈ om.params.zip nm.params :=
      List.mem_iff_getElem?.mpr ⟨i, List.getElem?_zip_eq_some.mpr ⟨hp, hq⟩⟩
    have hno : paramDrifts strict p.2 q.2 = false := by
      rw [Bool.eq_false_iff]
      exact fun hd => hparams (List.any_eq_true.mpr ⟨_, hmem, hd⟩)
    exact takes_of_not_drifts hno (hsettled.params _ hmem) htc ht
  · exact gives_of_not_drifts (Bool.eq_false_iff.mpr hreturns) hsettled.returns htc ht
  · have ho : om.emission = true := by simpa [hn] using hemission
    exact ⟨ho, by simpa [hn, ho] using hcaps⟩
  · refine ⟨?_, Bool.eq_false_iff.mpr hwcaps⟩
    cases hom : om.witnessed with
    | none => simp [hn, hom] at hwitnessed
    | some caps => rfl

/-- Operations of one shape serve each other's calls, but for their qualifiers. -/
theorem serves_of_shape {om nm : MethodDecl} (h : nm.shape = om.shape)
    (hsettled : SettledMethod nm om) : Serves nm om := by
  simp only [MethodDecl.shape, Shape.mk.injEq] at h
  obtain ⟨hparams, hreturns, hemission, hasync, -, hcaps, hwitnessed⟩ := h
  have hw : witnessedCaps nm = witnessedCaps om := by rw [witnessedCaps, hwitnessed]; rfl
  refine ⟨by rw [hparams], fun i p q hp hq t _ ht => ?_, fun t _ ht => hreturns ▸ ht, fun hn => ?_,
    fun hn => ?_, hasync, hsettled.trusted, hsettled.secret, hsettled.returned⟩
  · rw [hparams] at hq
    obtain rfl := Option.some.inj (hp.symm.trans hq)
    exact ht
  · exact ⟨hemission ▸ hn, by rw [hcaps]; exact capsWiden_self _⟩
  · exact ⟨hwitnessed ▸ hn, by rw [hw]; exact capsWiden_self _⟩

/-- **An interface that is compatible with the older one as it is read back, and settled, honours
it**, whether or not a provider of it stays. -/
theorem honours_of_compatible {new old : ServiceDecl} {retained : Bool}
    (h : serviceCompatible new (serviceFromIr old) retained = none) (hsettled : Settled new old) :
    Honours new old := by
  intro name om hom
  have hread : (serviceFromIr old).methods.get? name = some om.fromIr := by
    rw [get?_serviceFromIr, hom, Option.map_some]
  have hmem := Dict.get?_eq_some_iff.mp hread
  unfold serviceCompatible at h
  split_ifs at h with hequal hcommutative
  · have hshape := hequal.2 name (List.mem_map_of_mem (List.mem_append_right _ hmem))
    rw [hread, Option.map_some, Option.map_eq_some_iff] at hshape
    obtain ⟨nm, hnm, hshape⟩ := hshape
    exact ⟨nm, hnm, serves_of_shape hshape (hsettled name nm om hnm hom)⟩
  · split at h
    · cases h
    · have hmethod := List.findSome?_eq_none_iff.mp h (name, om.fromIr) hmem
      cases hnm : new.methods.get? name with
      | none => simp [hnm] at hmethod
      | some nm =>
        simp only [hnm, Option.map_eq_none_iff] at hmethod
        exact ⟨nm, rfl, serves_of_no_drift hmethod (hsettled name nm om hnm hom)⟩

/-- Without secret parameters nothing is lost in the document. -/
theorem honours_serviceFromIr {service : ServiceDecl}
    (h : ∀ name m, service.methods.get? name = some m → m.secretParams = []) :
    Honours (serviceFromIr service) service := by
  intro name m hm
  refine ⟨m.fromIr, by rw [get?_serviceFromIr, hm, Option.map_some], ?_⟩
  have hsame : m.fromIr = m := by
    rw [MethodDecl.fromIr, ← h name m hm]
  rw [hsame]
  exact .refl m

end Revl.Admission
