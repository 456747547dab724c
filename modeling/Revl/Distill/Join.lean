import Revl.CapOrder.Spelling

/-!
# The join of recorded cones (`distill.py`)

The resource parameters of a capability are its cone. Cones with one expressible cone above them
join to it: paths at their longest common ancestor, every other value by equality.

- `sharedPrefix`, `commonPathPrefix`: the longest common prefix.
- `resourceParams`, `resourceJoin`: the cone of a capability, and the join.
- `Cone`: what the resource parameters of a stored capability are.
- `resourceJoin_spec`: **a join is the least cone above the ones joined, and reads back**.
-/

/-! ## Common prefixes -/

section SharedPrefix

variable {α : Type*} [DecidableEq α]

/-- The longest common prefix of two lists. -/
def sharedPrefix : List α → List α → List α
  | a :: as, b :: bs => if a = b then a :: sharedPrefix as bs else []
  | _, _ => []

theorem sharedPrefix_left (as bs : List α) : sharedPrefix as bs <+: as := by
  induction as generalizing bs with
  | nil =>
    cases bs <;> exact List.nil_prefix
  | cons a as ih =>
    cases bs with
    | nil => exact List.nil_prefix
    | cons b bs =>
      rw [sharedPrefix]
      split
      · exact (List.prefix_cons_inj a).mpr (ih bs)
      · exact List.nil_prefix

theorem sharedPrefix_right (as bs : List α) : sharedPrefix as bs <+: bs := by
  induction as generalizing bs with
  | nil => exact List.nil_prefix
  | cons a as ih =>
    cases bs with
    | nil => exact List.nil_prefix
    | cons b bs =>
      rw [sharedPrefix]
      split
      · rename_i hab
        subst hab
        exact (List.prefix_cons_inj a).mpr (ih bs)
      · exact List.nil_prefix

/-- It is the longest. -/
theorem prefix_sharedPrefix {cs as bs : List α} (ha : cs <+: as) (hb : cs <+: bs) :
    cs <+: sharedPrefix as bs := by
  induction cs generalizing as bs with
  | nil => exact List.nil_prefix
  | cons c cs ih =>
    obtain ⟨as, rfl⟩ := ha
    obtain ⟨bs, rfl⟩ := hb
    rw [List.cons_append, List.cons_append, sharedPrefix, if_pos rfl]
    exact (List.prefix_cons_inj c).mpr (ih (List.prefix_append _ _) (List.prefix_append _ _))

end SharedPrefix

namespace Revl.Distill

open CapOrder
open Entrywise (forall₂_left forall₂_right)
open Fallible (bind_ok)

/-! ## The join -/

/-- `_resource_params`: the parameters that are no ceilings. -/
def resourceParams (cap : Cap) : List (String × ParamValue) :=
  cap.params.filter fun p => match p.2 with
    | .ceiling _ => false
    | _ => true

/-- `_common_path_prefix` -/
def commonPathPrefix : List (List String) → List String
  | [] => []
  | path :: paths => paths.foldl sharedPrefix path

/-- The components of a path value. -/
def pathOf : ParamValue → Option (List String)
  | .path components => some components
  | _ => none

/-- The value that stands above all of some values, if an expressible one does. -/
def joinValues (values : List ParamValue) : Option ParamValue :=
  match values.mapM pathOf with
  | some paths =>
    if commonPathPrefix paths = [] then none else some (.path (commonPathPrefix paths))
  | none =>
    match values with
    | [] => none
    | v :: rest => if rest.all (· = v) then some v else none

/-- One parameter of a join: bound on every cone. -/
def joinParam (cones : List Cap) (name : String) : Option (String × ParamValue) :=
  (cones.mapM fun c => Assoc.get? c.params name).bind fun values =>
    (joinValues values).map fun v => (name, v)

/-- The names bound on some cone, sorted. -/
def joinNames (cones : List Cap) : List String :=
  (cones.flatMap fun c => c.params.map Prod.fst).dedup.insertionSort (· ≤ ·)

/-- `_resource_join` -/
def resourceJoin : List Cap → Except CapError (Option Cap)
  | [] => .ok none
  | cone :: cones =>
    match (joinNames (cone :: cones)).mapM (joinParam (cone :: cones)) with
    | none => .ok none
    | some joined => do
      let candidate ← makeCap cone.token joined .admitUnknown
      if (cone :: cones).all (covers candidate) then .ok (some candidate) else .ok none

/-! ## What a join of values is -/

theorem commonPathPrefix_le {paths : List (List String)} {p : List String} (h : p ∈ paths) :
    commonPathPrefix paths <+: p := by
  cases paths with
  | nil => cases h
  | cons path paths =>
    -- what is folded in only shortens the prefix
    have hfold : ∀ (l : List (List String)) (acc : List String),
        l.foldl sharedPrefix acc <+: acc ∧ ∀ q ∈ l, l.foldl sharedPrefix acc <+: q := by
      intro l
      induction l with
      | nil => exact fun acc => ⟨List.prefix_rfl, nofun⟩
      | cons q l ih =>
        intro acc
        obtain ⟨hacc, hl⟩ := ih (sharedPrefix acc q)
        refine ⟨hacc.trans (sharedPrefix_left acc q), ?_⟩
        intro r hr
        rcases List.mem_cons.mp hr with rfl | hr
        · exact hacc.trans (sharedPrefix_right acc r)
        · exact hl r hr
    rcases List.mem_cons.mp h with rfl | h
    · exact (hfold paths p).1
    · exact (hfold paths path).2 p h

theorem prefix_commonPathPrefix {paths : List (List String)} {q : List String} (hne : paths ≠ [])
    (h : ∀ p ∈ paths, q <+: p) : q <+: commonPathPrefix paths := by
  cases paths with
  | nil => exact absurd rfl hne
  | cons path paths =>
    have hfold : ∀ (l : List (List String)) (acc : List String), q <+: acc → (∀ p ∈ l, q <+: p) →
        q <+: l.foldl sharedPrefix acc := by
      intro l
      induction l with
      | nil => exact fun acc hacc _ => hacc
      | cons p l ih =>
        intro acc hacc hl
        exact ih _ (prefix_sharedPrefix hacc (hl p List.mem_cons_self))
          fun r hr => hl r (List.mem_cons_of_mem _ hr)
    exact hfold paths path (h path List.mem_cons_self) fun p hp => h p (List.mem_cons_of_mem _ hp)

theorem pathOf_eq_some_iff {v : ParamValue} {components : List String} :
    pathOf v = some components ↔ v = .path components := by
  cases v <;> simp [pathOf]

/-- A join of values is one of them, or an ancestor of paths. -/
theorem joinValues_cases {values : List ParamValue} {v : ParamValue}
    (h : joinValues values = some v) :
    (v ∈ values ∧ ∀ w ∈ values, w = v) ∨
      ∃ paths, values = paths.map .path ∧ paths ≠ [] ∧ commonPathPrefix paths ≠ [] ∧
        v = .path (commonPathPrefix paths) := by
  unfold joinValues at h
  split at h
  · rename_i paths hpaths
    split at h
    · cases h
    · rename_i hne
      refine .inr ⟨paths, ?_, ?_, hne, (Option.some.inj h).symm⟩
      · have hall := Fallible.mapM_some_iff.mp hpaths
        clear hpaths h hne
        induction hall with
        | nil => rfl
        | cons hx _ ih => rw [List.map_cons, pathOf_eq_some_iff.mp hx, ih]
      · rintro rfl
        exact hne rfl
  · split at h
    · cases h
    · rename_i w rest
      split at h
      · rename_i hall
        obtain rfl := Option.some.inj h
        refine .inl ⟨List.mem_cons_self, ?_⟩
        intro u hu
        rcases List.mem_cons.mp hu with rfl | hu
        · rfl
        · exact of_decide_eq_true (List.all_eq_true.mp hall u hu)
      · cases h

/-- Nothing above all the values is below their join. -/
theorem joinValues_le {values : List ParamValue} {v : ParamValue} (h : joinValues values = some v)
    {u : ParamValue} (hu : ∀ w ∈ values, paramLeq w u = true) : paramLeq v u = true := by
  rcases joinValues_cases h with ⟨hmem, -⟩ | ⟨paths, rfl, hne, -, rfl⟩
  · exact hu v hmem
  · obtain ⟨p, hp⟩ := List.exists_mem_of_ne_nil paths hne
    have hle := hu (.path p) (List.mem_map_of_mem hp)
    cases u with
    | path q =>
      refine (paramLeq_path _ _).mpr (prefix_commonPathPrefix hne fun r hr => ?_)
      exact (paramLeq_path _ _).mp (hu (.path r) (List.mem_map_of_mem hr))
    | symbol r => simp at hle
    | discrete s => simp at hle
    | ceiling n => simp at hle

/-! ## Cones -/

/-- A cone as the ledger records it: canonical, spelled legibly, of resource parameters, a path only
under a core name. -/
structure Cone (c : Cap) : Prop where
  wf : c.WellFormed .admitUnknown
  checked : Checked c
  legible : c.Legible
  resource : ∀ name n, (name, ParamValue.ceiling n) ∉ c.params
  corePath : ∀ name components, (name, ParamValue.path components) ∈ c.params → isCore name = true

/-- **A cone reads back** from its spelling. -/
theorem Cone.reads {c : Cap} (h : Cone c) :
    ∃ text, c.toStr = some text ∧ parseStoredCap text = .ok c := by
  obtain ⟨text, htext, hparse⟩ := parseStoredCap_toStr_made h.wf h.checked h.legible
  refine ⟨text, htext, hparse.trans (congrArg Except.ok ?_)⟩
  have hmap : c.params.map rereadParam = c.params := by
    refine (List.map_congr_left fun p hp => ?_).trans (List.map_id _)
    obtain ⟨name, v⟩ := p
    rw [rereadParam]
    split
    · rfl
    · -- only a path is spelled as another value
      rename_i hcore
      cases v with
      | path components => exact absurd (h.corePath name components hp) hcore
      | _ => rfl
  rw [reread, hmap]

/-- A value that a stored read keeps as it was is no path. -/
theorem parseParam_not_path {piece : List Char} {p : String × ParamValue}
    (h : parseParam piece = .ok p) (components : List String) : p.2 ≠ .path components := by
  unfold parseParam at h
  split at h
  · obtain ⟨v, hv, h⟩ := bind_ok h
    cases h
    unfold parseValue at hv
    rintro rfl
    split at hv
    · cases hv
    · split at hv
      · cases hv
      · split at hv <;> cases hv
  · cases h

/-- A stored read keeps paths under core names alone. -/
theorem corePath_of_parse {text : String} {c : Cap} (h : parseStoredCap text = .ok c) :
    ∀ name components, (name, ParamValue.path components) ∈ c.params → isCore name = true := by
  intro name components hmem
  obtain ⟨token, raw, hmake, hraw⟩ : ∃ token raw, makeCap token raw .admitUnknown = .ok c ∧
      ∀ p ∈ raw, ∀ components, p.2 ≠ .path components := by
    simp only [parseStoredCap, parseCap] at h
    split at h
    · exact ⟨_, _, h, by rintro p ⟨⟩⟩
    · split at h
      · cases h
      · split at h
        · exact ⟨_, [], h, by rintro p ⟨⟩⟩
        · obtain ⟨raw, hraw, h⟩ := bind_ok h
          refine ⟨_, raw, h, fun p hp => ?_⟩
          obtain ⟨piece, -, hpiece⟩ := Fallible.mapM_ok_mem hraw hp
          exact parseParam_not_path hpiece
  obtain ⟨⟨rawName, v⟩, hp, hname, hcanon⟩ := makeCap_mem hmake hmem
  by_contra hcore
  have hnot : isRegistered rawName .admitUnknown = false := by
    have hnone : isCore (CapOrder.normalize rawName) = false := by
      rw [← show name = CapOrder.normalize rawName from hname]
      exact Bool.eq_false_iff.mpr hcore
    have hrow : (Assoc.get? registry (CapOrder.normalize rawName)).isSome = false := hnone
    rw [isRegistered, hrow]
    rfl
  rw [canonParam, hnot, if_neg Bool.false_ne_true, if_pos rfl] at hcanon
  exact hraw _ hp components (Except.ok.inj hcanon)

/-- The cone of a capability that was read. -/
theorem cone_resourceParams {text : String} {c : Cap} (h : parseStoredCap text = .ok c)
    (hl : c.Legible) : Cone ⟨c.token, resourceParams c⟩ := by
  have hwf := parseCap_wellFormed h
  obtain ⟨token, raw, hmake⟩ := parseCap_made h
  have hchecked := makeCap_checked hmake
  have hsub : ∀ p ∈ resourceParams c, p ∈ c.params := fun p hp => List.mem_of_mem_filter hp
  refine ⟨⟨hwf.token_ne, ?_, ?_, fun p hp => hwf.canonical p (hsub p hp)⟩, ?_, ?_, ?_, ?_⟩
  · intro ht
    rw [resourceParams, hwf.star_bare ht, List.filter_nil]
  · exact List.Pairwise.filter _ hwf.sorted
  · exact fun name s hcore hmem => hchecked name s hcore (hsub _ hmem)
  · exact ⟨hl.token, fun p hp => hl.names p (hsub p hp), fun p hp => hl.values p (hsub p hp)⟩
  · intro name n hmem
    have := (List.mem_filter.mp hmem).2
    simp at this
  · exact fun name components hmem => corePath_of_parse h name components (hsub _ hmem)

/-- **A cone is built from its own parameters.** -/
theorem Cone.makeCap_self {c : Cap} (h : Cone c) :
    makeCap c.token c.params .admitUnknown = .ok c := by
  have hkeys : (c.params.map fun p => CapOrder.normalize p.1) = c.params.map Prod.fst :=
    List.map_congr_left fun p hp => (h.wf.canonical p hp).1
  have hfresh : NamesFresh [] c.params := by
    refine ⟨fun _ _ => List.not_mem_nil, ?_⟩
    rw [hkeys]
    exact h.wf.sorted.nodup
  have hstep : ∀ p ∈ c.params, CanonStep .admitUnknown p p := by
    rintro ⟨name, v⟩ hp
    obtain ⟨hnorm, hfits⟩ := h.wf.canonical _ hp
    refine ⟨hnorm.symm, ?_⟩
    show canonParam name v .admitUnknown = .ok v
    cases hcore : isCore name with
    | false =>
      rw [canonParam, isRegistered_admit hnorm, hcore, if_neg Bool.false_ne_true, if_pos rfl]
    | true =>
      rw [canonParam, isRegistered_admit hnorm, hcore, if_pos rfl, hnorm]
      obtain ⟨⟨kind, order⟩, hrow⟩ := Option.isSome_iff_exists.1 hcore
      have hrow' : orderRow name .admitUnknown = some (kind, order) := by
        rw [orderRow, hrow, Option.some_or]
      have hfit : FitsOrder order v := hfits (kind, order) hrow'
      have hkind := orderRow_kind hrow'
      simp only [canonValue, hrow']
      cases v with
      | ceiling n => exact absurd hp (h.resource name n)
      | symbol r =>
        have hres : kind = .resource := by
          rw [hkind]
          cases order <;> first | exact .inl rfl | exact .inr rfl | exact hfit.elim
        simp [hres]
      | path components =>
        cases order <;> first | rfl | exact hfit.elim
      | discrete s =>
        cases order with
        | discrete =>
          simp only [canonByOrder, canonDiscreteValue, h.checked name s hcore hp]
          rfl
        | _ => exact hfit.elim
  have hall : List.Forall₂ (CanonStep .admitUnknown) c.params c.params :=
    List.forall₂_same.mpr hstep
  have hstar : ¬ (c.token = "*" ∧ c.params ≠ []) := fun ht => ht.2 (h.wf.star_bare ht.1)
  rw [makeCap, if_neg h.wf.token_ne, if_neg hstar, canonParams_eq_ok_iff.2 ⟨hfresh, hall⟩]
  show Except.ok (Cap.mk c.token (sortByName _)) = _
  rw [sortByName_eq_self h.wf.sorted]

/-! ## What a join of cones is -/

/-- One parameter of a join: it is bound on every cone, to a value at or below. -/
theorem joinParam_spec {cones : List Cap} {name : String} {p : String × ParamValue}
    (h : joinParam cones name = some p) :
    p.1 = name ∧ ∃ values, List.Forall₂ (fun (c : Cap) v => Assoc.get? c.params name = some v)
      cones values ∧ joinValues values = some p.2 := by
  obtain ⟨values, hvalues, h⟩ := Option.bind_eq_some_iff.mp h
  obtain ⟨v, hv, rfl⟩ := Option.map_eq_some_iff.mp h
  exact ⟨rfl, values, Fallible.mapM_some_iff.mp hvalues, hv⟩

/-- The value of a join is one of a cone, or an ancestor of a cone's path. -/
def Inherits (cones : List Cap) (p : String × ParamValue) : Prop :=
  ∃ c ∈ cones, p ∈ c.params ∨ ∃ components below, p.2 = .path components ∧ components ≠ [] ∧
    components <+: below ∧ (p.1, ParamValue.path below) ∈ c.params

theorem inherits_of_joinParam {cones : List Cap} {name : String} {p : String × ParamValue}
    (h : joinParam cones name = some p) : Inherits cones p := by
  obtain ⟨rfl, values, hall, hjoin⟩ := joinParam_spec h
  rcases joinValues_cases hjoin with ⟨hmem, -⟩ | ⟨paths, rfl, hne, hpre, hv⟩
  · obtain ⟨c, hc, hget⟩ := forall₂_right hall hmem
    exact ⟨c, hc, .inl (Assoc.mem_of_get? hget)⟩
  · obtain ⟨below, hbelow⟩ := List.exists_mem_of_ne_nil paths hne
    obtain ⟨c, hc, hget⟩ := forall₂_right hall (List.mem_map_of_mem hbelow)
    exact ⟨c, hc, .inr ⟨_, below, hv, hpre, commonPathPrefix_le hbelow,
      Assoc.mem_of_get? hget⟩⟩

theorem joinNames_sorted (cones : List Cap) : (joinNames cones).Pairwise (· < ·) := by
  have hle : (joinNames cones).Pairwise (· ≤ ·) := List.pairwise_insertionSort _ _
  have hnodup : (joinNames cones).Nodup :=
    (List.perm_insertionSort _ _).nodup_iff.mpr (List.nodup_dedup _)
  exact (hle.and hnodup).imp fun h => lt_of_le_of_ne h.1 h.2

theorem mem_joinNames {cones : List Cap} {name : String} :
    name ∈ joinNames cones ↔ ∃ c ∈ cones, ∃ v, (name, v) ∈ c.params := by
  rw [joinNames, List.mem_insertionSort, List.mem_dedup, List.mem_flatMap]
  simp

variable {cones : List Cap} {joined : List (String × ParamValue)}

/-- The names of the join, in order. -/
theorem map_fst_joined (h : (joinNames cones).mapM (joinParam cones) = some joined) :
    joined.map Prod.fst = joinNames cones := by
  have hall := Fallible.mapM_some_iff.mp h
  clear h
  generalize joinNames cones = names at hall ⊢
  induction hall with
  | nil => rfl
  | cons hp _ ih => rw [List.map_cons, ih, (joinParam_spec hp).1]

/-- **A join of cones is a cone.** -/
theorem cone_joined (hcones : ∀ c ∈ cones, Cone c) {cone : Cap} (hcone : cone ∈ cones)
    (h : (joinNames cones).mapM (joinParam cones) = some joined) :
    Cone ⟨cone.token, joined⟩ := by
  have hall := Fallible.mapM_some_iff.mp h
  have hparam : ∀ p ∈ joined, ∃ name, joinParam cones name = some p := by
    intro p hp
    obtain ⟨name, -, hname⟩ := forall₂_right hall hp
    exact ⟨name, hname⟩
  have hinherits : ∀ p ∈ joined, Inherits cones p := by
    intro p hp
    obtain ⟨name, hname⟩ := hparam p hp
    exact inherits_of_joinParam hname
  have hc := hcones cone hcone
  refine ⟨⟨hc.wf.token_ne, fun ht => ?_, ?_, fun p hp => ?_⟩, fun name s hcore hmem => ?_,
    ⟨hc.legible.token, fun p hp => ?_, fun p hp => ?_⟩, fun name n hmem => ?_,
    fun name components hmem => ?_⟩
  · -- the wildcard binds nothing, and a join binds only what every cone binds
    refine List.eq_nil_iff_forall_not_mem.mpr fun p hp => ?_
    obtain ⟨name, hname⟩ := hparam p hp
    obtain ⟨-, values, hvalues, -⟩ := joinParam_spec hname
    obtain ⟨v, -, hget⟩ := forall₂_left hvalues hcone
    rw [hc.wf.star_bare ht] at hget
    cases hget
  · have hsorted := joinNames_sorted cones
    rw [← map_fst_joined h, List.pairwise_map] at hsorted
    exact hsorted
  · obtain ⟨c, hc, hmem | ⟨components, below, hv, -, -, hmem⟩⟩ := hinherits p hp
    · exact (hcones c hc).wf.canonical p hmem
    · obtain ⟨hnorm, hfits⟩ := (hcones c hc).wf.canonical _ hmem
      refine ⟨hnorm, fun row hrow => ?_⟩
      have hfit := hfits row hrow
      obtain ⟨kind, order⟩ := row
      rw [hv]
      cases order <;> trivial
  · obtain ⟨c, hc, hin | ⟨components, below, hv, -⟩⟩ := hinherits _ hmem
    · exact (hcones c hc).checked name s hcore hin
    · cases hv
  · obtain ⟨c, hc, hin | ⟨components, below, hv, -, -, hin⟩⟩ := hinherits _ hp
    · exact (hcones c hc).legible.names p hin
    · exact (hcones c hc).legible.names (p.1, .path below) hin
  · obtain ⟨c, hc, hin | ⟨components, below, hv, hne, hpre, hin⟩⟩ := hinherits _ hp
    · exact (hcones c hc).legible.values p hin
    · rw [hv]
      exact ⟨hne, fun part hpart => ((hcones c hc).legible.values _ hin).2 part (hpre.subset hpart)⟩
  · obtain ⟨c, hc, hin | ⟨components, below, hv, -⟩⟩ := hinherits _ hmem
    · exact (hcones c hc).resource name n hin
    · cases hv
  · obtain ⟨c, hc, hin | ⟨-, below, -, -, -, hin⟩⟩ := hinherits _ hmem
    · exact (hcones c hc).corePath name components hin
    · exact (hcones c hc).corePath name below hin

/-- Every cone above those joined is above the join. -/
theorem covers_joined {cone : Cap} (hcone : cone ∈ cones)
    (h : (joinNames cones).mapM (joinParam cones) = some joined) {x : Cap}
    (hx : ∀ c ∈ cones, covers x c = true) : covers x ⟨cone.token, joined⟩ = true := by
  have hall := Fallible.mapM_some_iff.mp h
  have hnodup : (joined.map Prod.fst).Nodup := by
    rw [map_fst_joined h]
    exact (joinNames_sorted cones).imp fun hlt => ne_of_lt hlt
  refine covers_iff.mpr ?_
  rcases covers_iff.mp (hx cone hcone) with hstar | ⟨hne, htoken, hparams⟩
  · exact .inl hstar
  refine .inr ⟨hne, htoken, fun p hp => ?_⟩
  -- the name is bound on every cone, and so on the join
  obtain ⟨w, hw, -⟩ := hparams p hp
  have hname : p.1 ∈ joinNames cones :=
    mem_joinNames.mpr ⟨cone, hcone, w, Assoc.mem_of_get? hw⟩
  obtain ⟨q, hq, hjoin⟩ := forall₂_left hall hname
  obtain ⟨hfst, values, hvalues, hv⟩ := joinParam_spec hjoin
  refine ⟨q.2, (Assoc.get?_eq_some_iff hnodup).mpr (hfst ▸ hq), ?_⟩
  refine joinValues_le hv fun v hmem => ?_
  obtain ⟨c, hc, hget⟩ := forall₂_right hvalues hmem
  rcases covers_iff.mp (hx c hc) with ⟨hstar, -⟩ | ⟨-, -, hall'⟩
  · exact absurd hstar hne
  · obtain ⟨v', hv', hle⟩ := hall' p hp
    obtain rfl : v = v' := Option.some.inj (hget.symm.trans hv')
    exact hle

/-- **A join is the least cone above the ones joined**, and a cone itself. -/
theorem resourceJoin_spec (hcones : ∀ c ∈ cones, Cone c) :
    resourceJoin cones = .ok none ∨
      ∃ join, resourceJoin cones = .ok (some join) ∧ Cone join ∧
        (∀ c ∈ cones, covers join c = true) ∧
        ∀ x, (∀ c ∈ cones, covers x c = true) → covers x join = true := by
  cases cones with
  | nil => exact .inl rfl
  | cons cone cones =>
    rw [resourceJoin]
    cases h : (joinNames (cone :: cones)).mapM (joinParam (cone :: cones)) with
    | none => exact .inl rfl
    | some joined =>
      have hjoin := cone_joined hcones List.mem_cons_self h
      have hmake := hjoin.makeCap_self
      simp only at hmake ⊢
      rw [hmake]
      by_cases hall : (cone :: cones).all (covers ⟨cone.token, joined⟩) = true
      · refine .inr ⟨_, if_pos hall, hjoin, List.all_eq_true.mp hall, fun x hx => ?_⟩
        exact covers_joined List.mem_cons_self h hx
      · exact .inl (if_neg hall)

/-! ## What a cone covers -/

theorem covers_trans {a b c : Cap} (hab : covers a b = true) (hbc : covers b c = true) :
    covers a c = true := by
  refine covers_iff.mpr ?_
  rcases covers_iff.mp hab with ⟨ha, hb⟩ | ⟨ha, htoken, hparams⟩
  · exact .inl ⟨ha, (covers_of_star hb).mp hbc⟩
  · rcases covers_iff.mp hbc with ⟨hb, -⟩ | ⟨-, htoken', hparams'⟩
    · exact absurd (htoken.trans hb) ha
    · refine .inr ⟨ha, htoken.trans htoken', fun p hp => ?_⟩
      obtain ⟨v, hv, hle⟩ := hparams p hp
      obtain ⟨w, hw, hle'⟩ := hparams' (p.1, v) (Assoc.mem_of_get? hv)
      exact ⟨w, hw, paramLeq_trans hle' hle⟩

/-- A cone covers a capability without resources only as it covers the bare token. -/
theorem covers_bare_iff {cone c : Cap} (hcone : Cone cone) (hbare : resourceParams c = []) :
    covers cone c = true ↔ covers cone ⟨c.token, []⟩ = true := by
  rw [covers_iff, covers_iff]
  refine or_congr Iff.rfl (and_congr_right fun _ => and_congr_right fun _ => ?_)
  refine forall₂_congr fun p hp => ⟨?_, nofun⟩
  rintro ⟨v, hv, hle⟩
  -- what the capability binds is a ceiling, and what the cone binds is none
  have hceiling : ∃ n, v = .ceiling n := by
    have hout : (p.1, v) ∉ resourceParams c := by
      rw [hbare]
      exact List.not_mem_nil
    cases v with
    | ceiling n => exact ⟨n, rfl⟩
    | _ => exact absurd (List.mem_filter.mpr ⟨Assoc.mem_of_get? hv, rfl⟩) hout
  obtain ⟨n, rfl⟩ := hceiling
  obtain ⟨name, w⟩ := p
  cases w with
  | ceiling m => exact absurd hp (hcone.resource name m)
  | symbol ref => simp at hle
  | path components => simp at hle
  | discrete text => simp at hle

end Revl.Distill
