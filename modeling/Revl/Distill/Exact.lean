import Revl.Distill.Fold

/-!
# When an offer is what the operator would have said

- `Settles`: a group that passes every check of the fold.
- `WouldHaveSaid`: a rule that covers its group, no denial, and nothing outside.
- `Agreed`: what has to hold of a group that settles.
- `distill_exact`: **the exact condition under which the fold returns and every offer is right**.
-/

namespace Revl.Distill

open CapOrder
open Entrywise (forall₂_left forall₂_right)
open Fallible (bind_ok)

/-! ## Legible ledgers -/

/-- A capability of the ledger reads, as what its spelling says. -/
def Reads (text : String) : Prop := ∃ c, parseStoredCap text = .ok c ∧ c.Legible

/-- Every capability of a record reads. -/
def Record.Legible (r : Record) : Prop :=
  (∀ text ∈ r.classCCapabilities, Reads text) ∧
    ∀ e ∈ r.resourceScopes, ∀ text, e.2 = some text → Reads text

namespace Record

variable {r : Record}

/-- What a record says of the resources of a capability: nothing, or a cone. -/
theorem projectResource_ok (h : r.Legible) {text : String} {c : Cap}
    (hparse : parseStoredCap text = .ok c) (hl : c.Legible) :
    (∃ bearing, r.projectResource c = .ok (none, bearing) ∧ resourceParams c = []) ∨
      ∃ cone, r.projectResource c = .ok (some cone, true) ∧ Cone cone := by
  unfold projectResource
  by_cases hinline : resourceParams c ≠ []
  · rw [if_pos hinline]
    exact .inr ⟨_, rfl, cone_resourceParams hparse hl⟩
  rw [if_neg hinline]
  cases hget : Assoc.get? r.resourceScopes c.token with
  | none => exact .inl ⟨false, rfl, not_not.mp hinline⟩
  | some scope =>
    cases scope with
    | none => exact .inl ⟨true, rfl, not_not.mp hinline⟩
    | some spelled =>
      obtain ⟨parsed, hparsed, hlegible⟩ := h.2 _ (Assoc.mem_of_get? hget) spelled rfl
      refine .inr ⟨⟨parsed.token, resourceParams parsed⟩, ?_, cone_resourceParams hparsed hlegible⟩
      simp only [hparsed]
      rfl

theorem live_ok (h : r.Legible) {text : String} (htext : text ∈ r.classCCapabilities) :
    ∃ live, r.live text = .ok live := by
  obtain ⟨c, hparse, hl⟩ := h.1 text htext
  rcases projectResource_ok h hparse hl with ⟨bearing, hcone, -⟩ | ⟨cone, hcone, -⟩
  · exact ⟨c, by rw [live, hparse]; simp only [bind, Except.bind, hcone]; rfl⟩
  · exact ⟨cone, by rw [live, hparse]; simp only [bind, Except.bind, hcone]; rfl⟩

/-- The taint that a crossing is admitted with is within the taint of its shape, unless the record
says that there is none. -/
theorem admissionTaint_subset_iff (h : r.projectTaint ≠ (none, true)) :
    r.admissionTaint ⊆ r.projectTaint.1.getD ∅ ↔
      r.projectTaint.1.getD ∅ ≠ ∅ ∨ r.taintOrigins = none := by
  unfold admissionTaint
  by_cases hne : r.projectTaint.1.getD ∅ = ∅
  · simp only [hne, ne_eq, not_true_eq_false, if_false, false_or]
    cases htaint : r.taintOrigins with
    | none =>
      have hirrelevant : r.taintRelevant = false := by
        cases hrel : r.taintRelevant with
        | false => rfl
        | true => exact absurd (by simp [projectTaint, htaint, hrel]) h
      simp [projectTaint, htaint, hirrelevant]
    | some raw =>
      simp [projectTaint, htaint, taintFoldOrigins]
  · simp [hne]

/-- What a granted capability is projected to: a refusal, or its shape and what the rule will be
asked about it. -/
theorem project_ok (h : r.Legible) {text : String} (htext : text ∈ r.classCCapabilities) :
    ∃ result, r.project text = .ok result ∧ ∀ p, result = .inr p →
      p.key.realm = r.realm ∧ p.component = r.component ∧
      (r.admissionTaint ⊆ p.key.taint ↔ p.key.taint ≠ ∅ ∨ r.taintOrigins = none) ∧
      ((∃ cone, p.resource = some cone ∧ Cone cone ∧ r.live text = .ok cone) ∨
        ∃ c, p.resource = none ∧ parseStoredCap text = .ok c ∧ c.Legible ∧ c.token = p.key.token ∧
          resourceParams c = [] ∧ r.live text = .ok c) := by
  obtain ⟨c, hparse, hl⟩ := h.1 text htext
  by_cases hunknown : r.projectTaint = (none, true)
  · refine ⟨.inl ⟨.taintUnknown, c.token, r.realm, none⟩, ?_, by rintro p ⟨⟩⟩
    rw [project, hparse]
    simp only [bind, Except.bind, hunknown]
    rfl
  have htaint := admissionTaint_subset_iff hunknown
  -- past the taint, the projection is decided by the cone
  have hproject : r.project text = (r.projectResource c).bind fun res =>
      if res.2 ∧ res.1 = none then
        .ok (.inl ⟨.resourceScopeUnrecorded, c.token, r.realm, some (r.projectTaint.1.getD ∅)⟩)
      else .ok (.inr ⟨⟨c.token, r.realm, r.projectTaint.1.getD ∅⟩, res.1, r.component, r.session,
        r.operator⟩) := by
    rw [project, hparse]
    rcases hp : r.projectTaint with ⟨taint, relevant⟩
    simp only [bind, Except.bind]
    split
    · rename_i heq
      exact absurd (hp.trans heq) hunknown
    · rename_i heq
      cases heq
      rfl
  have hlive : r.live text = (r.projectResource c).bind fun res => .ok (res.1.getD c) := by
    rw [live, hparse]
    rfl
  rcases projectResource_ok h hparse hl with ⟨bearing, hcone, hbare⟩ | ⟨cone, hcone, hc⟩
  · rw [hcone] at hproject hlive
    cases bearing with
    | true => exact ⟨_, hproject, by rintro p ⟨⟩⟩
    | false =>
      refine ⟨_, hproject, ?_⟩
      rintro p ⟨⟩
      exact ⟨rfl, rfl, htaint, .inr ⟨c, rfl, hparse, hl, rfl, hbare, hlive⟩⟩
  · rw [hcone] at hproject hlive
    refine ⟨_, hproject, ?_⟩
    rintro p ⟨⟩
    exact ⟨rfl, rfl, htaint, .inl ⟨cone, rfl, hc, hlive⟩⟩

end Record

/-! ## What a rule covers -/

/-- A rule covers a crossing. -/
def AutoApproveRule.Covers (rule : AutoApproveRule) (component realm : String) (crossing : Cap)
    (admissionTaint : Finset String) : Prop :=
  ∃ caps, rule.caps.mapM parseStoredCap = .ok caps ∧
    coverageReason rule caps component realm crossing admissionTaint = none

/-- A rule covers a capability of a record. -/
def AutoApproveRule.CoversRecorded (rule : AutoApproveRule) (r : Record) (text : String) : Prop :=
  ∃ live, r.live text = .ok live ∧ rule.Covers r.component r.realm live r.admissionTaint

theorem mapM_singleton_ok {text : String} {cap : Cap} (h : parseStoredCap text = .ok cap) :
    [text].mapM parseStoredCap = .ok [cap] :=
  Fallible.mapM_ok_iff.mpr (.cons h .nil)

/-- What the rule of a group covers. -/
theorem covers_ruleOf_iff {key : ShapeKey} {members : List Projected} {text : String} {cap : Cap}
    (h : parseStoredCap text = .ok cap) {component realm : String} {crossing : Cap}
    {taint : Finset String} :
    (ruleOf key members text).Covers component realm crossing taint ↔
      Glob.fnmatchcase component (componentGlob (members.map (·.component))) = true ∧
        (key.realm = sharedRealm ∨ realm = key.realm) ∧ covers cap crossing = true ∧
          taint ⊆ key.taint := by
  have hcaps : (ruleOf key members text).caps.mapM parseStoredCap = .ok [cap] :=
    mapM_singleton_ok h
  unfold AutoApproveRule.Covers
  constructor
  · rintro ⟨caps, hmap, hreason⟩
    obtain rfl : [cap] = caps := Except.ok.inj (hcaps.symm.trans hmap)
    unfold coverageReason at hreason
    split at hreason
    · cases hreason
    rename_i hglob
    split at hreason
    · cases hreason
    rename_i hrealm
    split at hreason
    · cases hreason
    rename_i hcover
    split at hreason
    · rename_i htaint
      refine ⟨by simpa [ruleOf] using hglob, ?_, by simpa [coveredByAny] using hcover, htaint⟩
      by_cases hshared : key.realm = sharedRealm
      · exact .inl hshared
      · simp only [ruleOf, ne_eq, hshared, not_false_eq_true, if_true, Option.isSome_some,
          true_and, Option.some.injEq, not_not] at hrealm
        exact .inr hrealm.symm
    · cases hreason
  · rintro ⟨hglob, hrealm, hcover, htaint⟩
    refine ⟨[cap], hcaps, ?_⟩
    have hin : ¬ ((ruleOf key members text).realm.isSome ∧
        (ruleOf key members text).realm ≠ some realm) := by
      rintro ⟨hsome, hne⟩
      rcases hrealm with hshared | rfl
      · simp [ruleOf, hshared] at hsome
      · by_cases hshared : key.realm = sharedRealm
        · simp [ruleOf, hshared] at hsome
        · simp [ruleOf, hshared] at hne
    have hany : ¬ coveredByAny [cap] crossing = false := by simp [coveredByAny, hcover]
    unfold coverageReason
    rw [if_neg (by rw [ruleOf, hglob]; simp), if_neg hin, if_neg hany]
    exact if_pos htaint

/-! ## Groups -/

/-- The members of a group, from the crossings. -/
def groupOf (records : List Record) (key : ShapeKey) : List Projected :=
  (crossings records).filterMap fun x =>
    match x.1.project x.2 with
    | .ok (.inr p) => if p.key = key then some p else none
    | _ => none

/-- A granted crossing of a group. -/
def InGroup (key : ShapeKey) (x : Record × String) (p : Projected) : Prop :=
  x.1.project x.2 = .ok (.inr p) ∧ p.key = key

theorem mem_groupOf {records : List Record} {key : ShapeKey} {p : Projected} :
    p ∈ groupOf records key ↔ ∃ x ∈ crossings records, InGroup key x p := by
  rw [groupOf, List.mem_filterMap]
  refine exists_congr fun x => and_congr_right fun _ => ?_
  unfold InGroup
  constructor
  · intro h
    split at h
    · rename_i q hq
      split at h
      · rename_i hkey
        obtain rfl := Option.some.inj h
        exact ⟨hq, hkey⟩
      · cases h
    · cases h
  · rintro ⟨hp, hkey⟩
    simp [hp, hkey]

theorem get?_groupBy (projected : List Projected) (key : ShapeKey) :
    (groupBy projected).get? key =
      if projected.filter (·.key = key) = [] then none
      else some (projected.filter (·.key = key)) := by
  induction projected using List.reverseRecOn with
  | nil => rfl
  | append_singleton projected p ih =>
    rw [groupBy, List.foldl_append, ← groupBy, List.foldl_cons, List.foldl_nil, Dict.get?_set,
      List.filter_append]
    by_cases hkey : key = p.key
    · subst hkey
      rw [if_pos rfl, ih]
      by_cases hnone : projected.filter (·.key = p.key) = []
      · simp [hnone]
      · simp [hnone]
    · rw [if_neg hkey, ih]
      simp [Ne.symm hkey]

/-- The groups of the fold are the groups of the crossings. -/
theorem groupBy_eq {records : List Record} {projected : List (CannotDistill ⊕ Projected)}
    (h : projections records = .ok projected) (key : ShapeKey) :
    (projected.filterMap Sum.getRight?).filter (·.key = key) = groupOf records key := by
  have hall := Fallible.mapM_ok_iff.mp h
  clear h
  unfold groupOf
  generalize crossings records = xs at hall ⊢
  induction hall with
  | nil => rfl
  | @cons x result xs results hx _ ih =>
    simp only at hx
    rw [List.filterMap_cons, List.filterMap_cons, hx]
    cases result with
    | inl c => exact ih
    | inr p =>
      simp only [Sum.getRight?]
      by_cases hkey : p.key = key
      · simp [hkey, ih]
      · simp [hkey, ih]

theorem mem_groups_iff {records : List Record} {projected : List (CannotDistill ⊕ Projected)}
    (h : projections records = .ok projected) {key : ShapeKey} {members : List Projected} :
    (key, members) ∈ (groupBy (projected.filterMap Sum.getRight?)).entries ↔
      members = groupOf records key ∧ groupOf records key ≠ [] := by
  rw [← Dict.get?_eq_some_iff, get?_groupBy, groupBy_eq h]
  by_cases hnone : groupOf records key = []
  · simp [hnone]
  · simp [hnone, eq_comm]

/-! ## The checks of a group -/

/-- The capability that the rule of a group names: the join of its cones, or the bare token. -/
def RuleCap (key : ShapeKey) (members : List Projected) (cap : Cap) : Prop :=
  (conesOf members = [] ∧ cap = ⟨key.token, []⟩) ∨
    (conesOf members ≠ [] ∧ resourceJoin (conesOf members) = .ok (some cap))

/-- A group passes every check of the fold: its cones join, it is large enough, it names no two
operators, and its shape was not denied. -/
structure Settles (records : List Record) (minGrants minSessions : Int) (key : ShapeKey)
    (cap : Cap) : Prop where
  member : groupOf records key ≠ []
  cap : RuleCap key (groupOf records key) cap
  enough : minGrants ≤ (groupOf records key).length ∧
    minSessions ≤ (sessionsOf (groupOf records key)).length
  single : (operatorsOf (groupOf records key)).length ≤ 1
  undenied : ∀ x ∈ deniedCrossings records, ∀ c, parseStoredCap x.2 = .ok c →
    c.token = key.token → x.1.realm = key.realm →
      x.1.projectTaint.1 ≠ some key.taint ∧ x.1.projectTaint.1 ≠ none

section Ledger

variable {records : List Record} (hlegible : ∀ r ∈ records, r.Legible)

include hlegible

theorem legible_of_capabilities {part : List Record} (hpart : part ⊆ records)
    {x : Record × String} (hx : x ∈ capabilities part) :
    x.1.Legible ∧ x.2 ∈ x.1.classCCapabilities := by
  obtain ⟨r, hr, hx⟩ := List.mem_flatMap.mp hx
  obtain ⟨text, htext, rfl⟩ := List.mem_map.mp hx
  exact ⟨hlegible r (hpart hr), htext⟩

theorem legible_of_crossings {x : Record × String} (hx : x ∈ crossings records) :
    x.1.Legible ∧ x.2 ∈ x.1.classCCapabilities :=
  legible_of_capabilities hlegible (fun _ h => List.mem_of_mem_filter h) hx

theorem legible_of_denied {x : Record × String} (hx : x ∈ deniedCrossings records) :
    x.1.Legible ∧ x.2 ∈ x.1.classCCapabilities :=
  legible_of_capabilities hlegible (fun _ h => List.mem_of_mem_filter h) hx

/-- What is known of a member of a group. -/
theorem project_of_inGroup {key : ShapeKey} {x : Record × String} (hx : x ∈ crossings records)
    {p : Projected} (hp : InGroup key x p) :
    key.realm = x.1.realm ∧ p.component = x.1.component ∧
      (x.1.admissionTaint ⊆ key.taint ↔ key.taint ≠ ∅ ∨ x.1.taintOrigins = none) ∧
      ((∃ cone, p.resource = some cone ∧ Cone cone ∧ x.1.live x.2 = .ok cone) ∨
        ∃ c, p.resource = none ∧ parseStoredCap x.2 = .ok c ∧ c.Legible ∧ c.token = key.token ∧
          resourceParams c = [] ∧ x.1.live x.2 = .ok c) := by
  obtain ⟨hl, htext⟩ := legible_of_crossings hlegible hx
  obtain ⟨result, hresult, hspec⟩ := Record.project_ok hl htext
  obtain rfl := Except.ok.inj (hresult.symm.trans hp.1)
  have hkey := hp.2
  subst hkey
  exact hspec p rfl

theorem cone_of_conesOf {key : ShapeKey} {c : Cap} (hc : c ∈ conesOf (groupOf records key)) :
    Cone c := by
  obtain ⟨p, hp, hres⟩ := List.mem_filterMap.mp hc
  obtain ⟨x, hx, hin⟩ := mem_groupOf.mp hp
  obtain ⟨-, -, -, ⟨cone, hcone, hspec, -⟩ | ⟨c', hnone, -⟩⟩ := project_of_inGroup hlegible hx hin
  · obtain rfl := Option.some.inj (hres.symm.trans hcone)
    exact hspec
  · rw [hnone] at hres
    cases hres

/-- The capability of a group's rule is a cone, above those of the group, and the least. -/
theorem ruleCap_spec {key : ShapeKey} {cap : Cap} (hmember : groupOf records key ≠ [])
    (hcap : RuleCap key (groupOf records key) cap) :
    Cone cap ∧ (∀ c ∈ conesOf (groupOf records key), covers cap c = true) ∧
      ∀ above, (∀ p ∈ groupOf records key, covers above (p.resource.getD ⟨key.token, []⟩) = true) →
        covers above cap = true := by
  have hcones : ∀ c ∈ conesOf (groupOf records key), Cone c := fun c hc =>
    cone_of_conesOf hlegible hc
  rcases hcap with ⟨hnil, rfl⟩ | ⟨hne, hjoin⟩
  · obtain ⟨p, hp⟩ := List.exists_mem_of_ne_nil _ hmember
    obtain ⟨x, hx, hin⟩ := mem_groupOf.mp hp
    -- no member of the group has a cone
    have hnone : p.resource = none := by
      cases hres : p.resource with
      | none => rfl
      | some c =>
        have hmem : c ∈ conesOf (groupOf records key) := List.mem_filterMap.mpr ⟨p, hp, hres⟩
        rw [hnil] at hmem
        cases hmem
    obtain ⟨-, -, -, ⟨cone, hcone, -⟩ | ⟨c, -, hparse, hl, htoken, hbare, -⟩⟩ :=
      project_of_inGroup hlegible hx hin
    · rw [hnone] at hcone
      cases hcone
    · refine ⟨?_, by rw [hnil]; exact nofun, fun above habove => ?_⟩
      · have hcone := cone_resourceParams hparse hl
        rw [htoken, hbare] at hcone
        exact hcone
      · have := habove p hp
        rwa [hnone, Option.getD_none] at this
  · rcases resourceJoin_spec hcones with hnone | ⟨join, hok, hcone, habove, hleast⟩
    · rw [hnone] at hjoin
      cases hjoin
    · rw [hok] at hjoin
      cases hjoin
      refine ⟨hcone, habove, fun above hall => hleast above fun c hc => ?_⟩
      obtain ⟨p, hp, hres⟩ := List.mem_filterMap.mp hc
      have := hall p hp
      rwa [hres, Option.getD_some] at this

/-- The fold over a window goes through. -/
theorem blastRadius_ok {rule : AutoApproveRule} {caps : List Cap}
    (hrule : rule.caps.mapM parseStoredCap = .ok caps) :
    ∃ blast, blastRadius rule records = .ok blast := by
  obtain ⟨asked, hasked⟩ : ∃ asked, ((crossings records).mapM fun x => do
      let live ← x.1.live x.2
      return (x.1.component, x.2, live,
        coverageReason rule caps x.1.component x.1.realm live x.1.admissionTaint)) =
          Except.ok asked := by
    refine Fallible.mapM_ok_of_forall fun x hx => ?_
    obtain ⟨hl, htext⟩ := legible_of_crossings hlegible hx
    obtain ⟨live, hlive⟩ := Record.live_ok hl htext
    exact ⟨_, by simp only [hlive]; rfl⟩
  exact ⟨_, Fallible.bind_ok_iff.mpr ⟨caps, hrule, Fallible.bind_ok_iff.mpr ⟨asked, hasked, rfl⟩⟩⟩

theorem deniedKeys_ok : ∃ denied, deniedKeys records = .ok denied ∧ ∀ key : ShapeKey,
    shapeDenied key denied = false ↔ ∀ x ∈ deniedCrossings records, ∀ c,
      parseStoredCap x.2 = .ok c → c.token = key.token → x.1.realm = key.realm →
        x.1.projectTaint.1 ≠ some key.taint ∧ x.1.projectTaint.1 ≠ none := by
  have hread : ∀ x ∈ deniedCrossings records, ∃ c, parseStoredCap x.2 = .ok c := by
    intro x hx
    obtain ⟨hl, htext⟩ := legible_of_denied hlegible hx
    obtain ⟨c, hc, -⟩ := hl.1 x.2 htext
    exact ⟨c, hc⟩
  obtain ⟨denied, hdenied⟩ : ∃ denied, deniedKeys records = .ok denied := by
    refine Fallible.mapM_ok_of_forall fun x hx => ?_
    obtain ⟨c, hc⟩ := hread x hx
    exact ⟨_, by simp only [hc]; rfl⟩
  have hmem : ∀ token realm taint, (token, realm, taint) ∈ denied ↔
      ∃ x ∈ deniedCrossings records, ∃ c, parseStoredCap x.2 = .ok c ∧ c.token = token ∧
        x.1.realm = realm ∧ x.1.projectTaint.1 = taint := by
    intro token realm taint
    constructor
    · intro h
      obtain ⟨x, hx, hy⟩ := Fallible.mapM_ok_mem hdenied h
      obtain ⟨c, hc, hy⟩ := bind_ok hy
      cases hy
      exact ⟨x, hx, c, hc, rfl, rfl, rfl⟩
    · rintro ⟨x, hx, c, hc, rfl, rfl, rfl⟩
      obtain ⟨y, hy, hfx⟩ := Fallible.mapM_ok_of_mem hdenied hx
      simp only [hc] at hfx
      cases hfx
      exact hy
  refine ⟨denied, hdenied, fun key => ?_⟩
  unfold shapeDenied
  rw [decide_eq_false_iff_not, not_or, hmem, hmem]
  constructor
  · rintro ⟨hsame, hnone⟩ x hx c hc htoken hrealm
    exact ⟨fun h => hsame ⟨x, hx, c, hc, htoken, hrealm, h⟩,
      fun h => hnone ⟨x, hx, c, hc, htoken, hrealm, h⟩⟩
  · intro h
    refine ⟨?_, ?_⟩
    · rintro ⟨x, hx, c, hc, htoken, hrealm, hsame⟩
      exact (h x hx c hc htoken hrealm).1 hsame
    · rintro ⟨x, hx, c, hc, htoken, hrealm, hnone⟩
      exact (h x hx c hc htoken hrealm).2 hnone

/-- The join of a group: none that a rule could name, or the one capability of its rule, which
reads back. -/
theorem joinGroup_spec {key : ShapeKey} (hmember : groupOf records key ≠ []) :
    ∃ joined, joinGroup (groupOf records key) = .ok joined ∧
      ((conesOf (groupOf records key) ≠ [] ∧ joined = none ∧
          ∀ cap, ¬ RuleCap key (groupOf records key) cap) ∨
        ¬ (conesOf (groupOf records key) ≠ [] ∧ joined = none) ∧
          ∃ cap spelling, RuleCap key (groupOf records key) cap ∧
            parseStoredCap spelling = .ok cap ∧ spellRule key.token joined = .ok spelling) := by
  unfold joinGroup
  by_cases hnil : conesOf (groupOf records key) = []
  · have hcap : RuleCap key (groupOf records key) ⟨key.token, []⟩ := .inl ⟨hnil, rfl⟩
    obtain ⟨text, htext, hparse⟩ := (ruleCap_spec hlegible hmember hcap).1.reads
    rw [Cap.toStr, if_pos rfl, Option.some.injEq] at htext
    subst htext
    exact ⟨none, if_pos hnil, .inr ⟨fun h => h.1 hnil, _, _, hcap, hparse, rfl⟩⟩
  have hcones : ∀ c ∈ conesOf (groupOf records key), Cone c := fun c hc =>
    cone_of_conesOf hlegible hc
  rcases resourceJoin_spec hcones with hnone | ⟨join, hok, hcone, -⟩
  · refine ⟨none, by rw [if_neg hnil, hnone]; rfl, .inl ⟨hnil, rfl, ?_⟩⟩
    rintro cap (⟨h, -⟩ | ⟨-, h⟩)
    · exact hnil h
    · rw [hnone] at h
      cases h
  · obtain ⟨text, htext, hparse⟩ := hcone.reads
    refine ⟨some join, by rw [if_neg hnil, hok]; rfl, .inr ⟨fun h => (by cases h.2), join, text,
      .inr ⟨hnil, hok⟩, hparse, ?_⟩⟩
    simp only [spellRule, htext]

/-- **What becomes of a group**: a refusal if it does not settle; if it does, an offer of its rule,
unless it names no operator. -/
theorem distillGroup_spec {key : ShapeKey} (hmember : groupOf records key ≠ [])
    {denied : List (String × String × Option (Finset String))}
    (hdenied : shapeDenied key denied = false ↔ ∀ x ∈ deniedCrossings records, ∀ c,
      parseStoredCap x.2 = .ok c → c.token = key.token → x.1.realm = key.realm →
        x.1.projectTaint.1 ≠ some key.taint ∧ x.1.projectTaint.1 ≠ none)
    (minGrants minSessions : Int) :
    ((∀ cap, ¬ Settles records minGrants minSessions key cap) ∧ ∃ c,
      distillGroup key (groupOf records key) records denied minGrants minSessions = .ok (.inl c)) ∨
    ∃ cap, Settles records minGrants minSessions key cap ∧
      ((operatorsOf (groupOf records key) = [] ∧
        distillGroup key (groupOf records key) records denied minGrants minSessions =
          .error .noOperator) ∨
      operatorsOf (groupOf records key) ≠ [] ∧ ∃ offer spelling,
        distillGroup key (groupOf records key) records denied minGrants minSessions =
            .ok (.inr offer) ∧
          offer.shape = key ∧ parseStoredCap spelling = .ok cap ∧
            offer.rule = ruleOf key (groupOf records key) spelling) := by
  obtain ⟨joined, hjoined, hcases⟩ := joinGroup_spec hlegible hmember
  unfold distillGroup
  rw [hjoined]
  simp only [bind, Except.bind]
  rcases hcases with ⟨hne, rfl, hnone⟩ | ⟨hjoin, cap, spelling, hcap, hparse, hspelling⟩
  · exact .inl ⟨fun cap hs => hnone cap hs.cap, _, if_pos ⟨hne, rfl⟩⟩
  rw [if_neg hjoin]
  by_cases hfew : ((groupOf records key).length : Int) < minGrants ∨
      ((sessionsOf (groupOf records key)).length : Int) < minSessions
  · rw [if_pos hfew]
    refine .inl ⟨fun cap hs => ?_, _, rfl⟩
    have := hs.enough
    omega
  rw [if_neg hfew]
  by_cases hmixed : 1 < (operatorsOf (groupOf records key)).length
  · rw [if_pos hmixed]
    refine .inl ⟨fun cap hs => ?_, _, rfl⟩
    have := hs.single
    omega
  rw [if_neg hmixed]
  by_cases hrefused : shapeDenied key denied = true
  · rw [if_pos hrefused]
    refine .inl ⟨fun cap hs => ?_, _, rfl⟩
    rw [hdenied.mpr hs.undenied] at hrefused
    cases hrefused
  rw [if_neg hrefused]
  have hsettles : Settles records minGrants minSessions key cap :=
    ⟨hmember, hcap, by omega, by omega, hdenied.mp (Bool.eq_false_iff.mpr hrefused)⟩
  refine .inr ⟨cap, hsettles, ?_⟩
  have hcaps : (ruleOf key (groupOf records key) spelling).caps.mapM parseStoredCap = .ok [cap] :=
    mapM_singleton_ok hparse
  obtain ⟨blast, hblast⟩ := blastRadius_ok hlegible hcaps
  rw [hspelling]
  simp only [hblast]
  cases hsort : operatorsOf (groupOf records key) with
  | nil => exact .inl ⟨rfl, rfl⟩
  | cons operator rest => exact .inr ⟨nofun, _, spelling, rfl, rfl, hparse, rfl⟩

end Ledger

/-! ## What the operator would have said -/

/-- An offer is what the operator would have said: its rule covers every granted crossing of the
group and no denied one, and what it covers lies in the realm of the group and in every cone above
the resources of the group. -/
structure WouldHaveSaid (records : List Record) (offer : DistilledOffer) : Prop where
  granted : ∀ x ∈ crossings records, (∃ p, InGroup offer.shape x p) →
    offer.rule.CoversRecorded x.1 x.2
  denied : ∀ x ∈ deniedCrossings records, ¬ offer.rule.CoversRecorded x.1 x.2
  confined : ∀ component realm crossing taint, offer.rule.Covers component realm crossing taint →
    realm = offer.shape.realm ∧ ∀ above,
      (∀ p ∈ groupOf records offer.shape,
        covers above (p.resource.getD ⟨offer.shape.token, []⟩) = true) →
      covers above crossing = true

/-- What has to hold of a group that settles: it is in a realm of its own; each member's component
matches the pattern of them all, is bare only if the rule is, and was not recorded as free of taint;
and no denied crossing lies in its realm, its pattern, its cone and its taint. -/
structure Agreed (records : List Record) (key : ShapeKey) (cap : Cap) : Prop where
  realm : key.realm ≠ sharedRealm
  members : ∀ x ∈ crossings records, ∀ p, InGroup key x p →
    Glob.fnmatchcase p.component
        (componentGlob ((groupOf records key).map (·.component))) = true ∧
      (p.resource = none → covers cap ⟨key.token, []⟩ = true) ∧
      (key.taint ≠ ∅ ∨ x.1.taintOrigins = none)
  denials : ∀ x ∈ deniedCrossings records, ∀ live, x.1.live x.2 = .ok live → x.1.realm = key.realm →
    Glob.fnmatchcase x.1.component
        (componentGlob ((groupOf records key).map (·.component))) = true →
      covers cap live = true → ¬ x.1.admissionTaint ⊆ key.taint

section Ledger

variable {records : List Record} (hlegible : ∀ r ∈ records, r.Legible)

include hlegible

/-- A member of a group is covered exactly when its component, its resources and its taint are. -/
theorem covers_member_iff {key : ShapeKey} {cap : Cap} {spelling : String}
    (hmember : groupOf records key ≠ []) (hcap : RuleCap key (groupOf records key) cap)
    (hparse : parseStoredCap spelling = .ok cap) {x : Record × String} (hx : x ∈ crossings records)
    {p : Projected} (hp : InGroup key x p) :
    (ruleOf key (groupOf records key) spelling).CoversRecorded x.1 x.2 ↔
      Glob.fnmatchcase p.component
          (componentGlob ((groupOf records key).map (·.component))) = true ∧
        (p.resource = none → covers cap ⟨key.token, []⟩ = true) ∧
        (key.taint ≠ ∅ ∨ x.1.taintOrigins = none) := by
  obtain ⟨hcone, habove, -⟩ := ruleCap_spec hlegible hmember hcap
  obtain ⟨hrealm, hcomponent, htaint, hlive⟩ := project_of_inGroup hlegible hx hp
  obtain ⟨live, hlive, hcover⟩ : ∃ live, x.1.live x.2 = .ok live ∧
      (covers cap live = true ↔ (p.resource = none → covers cap ⟨key.token, []⟩ = true)) := by
    rcases hlive with ⟨cone, hres, -, hlive⟩ | ⟨c, hres, -, -, htoken, hbare, hlive⟩
    · refine ⟨cone, hlive, fun _ hnone => ?_, fun _ => habove cone ?_⟩
      · rw [hres] at hnone
        cases hnone
      · exact List.mem_filterMap.mpr ⟨p, mem_groupOf.mpr ⟨x, hx, hp⟩, hres⟩
    · refine ⟨c, hlive, ?_⟩
      rw [covers_bare_iff hcone hbare, htoken]
      exact ⟨fun h _ => h, fun h => h hres⟩
  have hcovers : (ruleOf key (groupOf records key) spelling).CoversRecorded x.1 x.2 ↔
      (ruleOf key (groupOf records key) spelling).Covers x.1.component x.1.realm live
        x.1.admissionTaint := by
    refine ⟨?_, fun h => ⟨live, hlive, h⟩⟩
    rintro ⟨live', hlive', h⟩
    obtain rfl := Except.ok.inj (hlive.symm.trans hlive')
    exact h
  rw [hcovers, covers_ruleOf_iff hparse, hcover, htaint, hcomponent]
  simp only [hrealm, or_true, true_and]

/-- **The rule of a group that settles** is what the operator would have said exactly if the group
agrees. -/
theorem wouldHaveSaid_iff {key : ShapeKey} {cap : Cap} {spelling : String} {offer : DistilledOffer}
    (hmember : groupOf records key ≠ []) (hcap : RuleCap key (groupOf records key) cap)
    (hparse : parseStoredCap spelling = .ok cap) (hshape : offer.shape = key)
    (hrule : offer.rule = ruleOf key (groupOf records key) spelling) :
    WouldHaveSaid records offer ↔ Agreed records key cap := by
  subst hshape
  obtain ⟨hcone, -, hleast⟩ := ruleCap_spec hlegible hmember hcap
  have hself : covers cap cap = true := (covers_iff_point_le hcone.wf hcone.wf).2 le_rfl
  constructor
  · intro h
    have hmembers : ∀ x ∈ crossings records, ∀ p, InGroup offer.shape x p → _ := fun x hx p hp =>
      (covers_member_iff hlegible hmember hcap hparse hx hp).mp (hrule ▸ h.granted x hx ⟨p, hp⟩)
    refine ⟨fun hshared => ?_, hmembers, fun x hx live hlive hrealm hglob hcover htaint => ?_⟩
    · -- a rule of no realm covers the crossing of a member in any other
      obtain ⟨p, hp⟩ := List.exists_mem_of_ne_nil _ hmember
      obtain ⟨x, hx, hin⟩ := mem_groupOf.mp hp
      have hcovered : (ruleOf offer.shape (groupOf records offer.shape) spelling).Covers p.component
          "elsewhere" cap ∅ := (covers_ruleOf_iff hparse).mpr
            ⟨(hmembers x hx p hin).1, .inl hshared, hself, Finset.empty_subset _⟩
      have := (h.confined _ _ _ _ (hrule ▸ hcovered)).1
      rw [hshared] at this
      exact absurd this (by decide)
    · refine h.denied x hx ⟨live, hlive, ?_⟩
      rw [hrule]
      exact (covers_ruleOf_iff hparse).mpr ⟨hglob, .inr hrealm, hcover, htaint⟩
  · intro h
    refine ⟨fun x hx ⟨p, hp⟩ => ?_, fun x hx hcovered => ?_,
      fun component realm crossing taint hcovered => ?_⟩
    · rw [hrule]
      exact (covers_member_iff hlegible hmember hcap hparse hx hp).mpr (h.members x hx p hp)
    · obtain ⟨live, hlive, hcovered⟩ := hcovered
      rw [hrule] at hcovered
      obtain ⟨hglob, hshared | hrealm, hcover, htaint⟩ := (covers_ruleOf_iff hparse).mp hcovered
      · exact h.realm hshared
      · exact h.denials x hx live hlive hrealm hglob hcover htaint
    · rw [hrule] at hcovered
      obtain ⟨-, hshared | hrealm, hcover, -⟩ := (covers_ruleOf_iff hparse).mp hcovered
      · exact absurd hshared h.realm
      · exact ⟨hrealm, fun above habove => covers_trans (hleast above habove) hcover⟩

omit hlegible in
theorem RuleCap.unique {key : ShapeKey} {members : List Projected} {cap cap' : Cap}
    (h : RuleCap key members cap) (h' : RuleCap key members cap') : cap = cap' := by
  rcases h with ⟨hnil, rfl⟩ | ⟨hne, hjoin⟩
  · rcases h' with ⟨-, rfl⟩ | ⟨hne, -⟩
    · rfl
    · exact absurd hnil hne
  · rcases h' with ⟨hnil, -⟩ | ⟨-, hjoin'⟩
    · exact absurd hnil hne
    · exact Option.some.inj (Except.ok.inj (hjoin.symm.trans hjoin'))

theorem projections_ok : ∃ projected, projections records = .ok projected := by
  refine Fallible.mapM_ok_of_forall fun x hx => ?_
  obtain ⟨hl, htext⟩ := legible_of_crossings hlegible hx
  obtain ⟨result, hresult, -⟩ := Record.project_ok hl htext
  exact ⟨result, hresult⟩

/-- A group that settles and names no operator stops the fold. -/
theorem distill_unsigned {minGrants minSessions : Int} {key : ShapeKey} {cap : Cap}
    (hsettles : Settles records minGrants minSessions key cap)
    (hempty : operatorsOf (groupOf records key) = []) (result : DistillationResult) :
    distill records minGrants minSessions ≠ .ok result := by
  obtain ⟨denied, hdenied, hkeys⟩ := deniedKeys_ok hlegible
  obtain ⟨projected, hprojected⟩ := projections_ok hlegible
  intro hresult
  unfold distill at hresult
  rw [hdenied, hprojected] at hresult
  obtain ⟨_, hd, hresult⟩ := bind_ok hresult
  obtain rfl := Except.ok.inj hd
  obtain ⟨_, hp, hresult⟩ := bind_ok hresult
  obtain rfl := Except.ok.inj hp
  obtain ⟨results, hresults, -⟩ := bind_ok hresult
  obtain ⟨y, -, hy⟩ := Fallible.mapM_ok_of_mem hresults
    ((mem_groups_iff hprojected).mpr ⟨rfl, hsettles.member⟩)
  rcases distillGroup_spec hlegible hsettles.member (hkeys key) minGrants minSessions with
    ⟨hnone, -⟩ | ⟨cap', -, ⟨-, herror⟩ | ⟨hsigned, -⟩⟩
  · exact hnone cap hsettles
  · cases herror.symm.trans hy
  · exact hsigned hempty

/-- Where every group that settles names an operator, the fold offers a rule for each of them and
no other. -/
theorem distill_signed {minGrants minSessions : Int}
    (hsigned : ∀ key cap, Settles records minGrants minSessions key cap →
      operatorsOf (groupOf records key) ≠ []) :
    ∃ result, distill records minGrants minSessions = .ok result ∧
      (∀ key cap, Settles records minGrants minSessions key cap →
        ∃ offer ∈ result.offers, ∃ spelling,
          offer.shape = key ∧ parseStoredCap spelling = .ok cap ∧
            offer.rule = ruleOf key (groupOf records key) spelling) ∧
      ∀ offer ∈ result.offers, ∃ cap spelling,
        Settles records minGrants minSessions offer.shape cap ∧
          parseStoredCap spelling = .ok cap ∧
            offer.rule = ruleOf offer.shape (groupOf records offer.shape) spelling := by
  obtain ⟨denied, hdenied, hkeys⟩ := deniedKeys_ok hlegible
  obtain ⟨projected, hprojected⟩ := projections_ok hlegible
  have hspec := fun key (hmember : groupOf records key ≠ []) =>
    distillGroup_spec hlegible hmember (hkeys key) minGrants minSessions
  -- every group goes through
  obtain ⟨results, hresults⟩ : ∃ results,
      (groupBy (projected.filterMap Sum.getRight?)).entries.mapM (fun e =>
        distillGroup e.1 e.2 records denied minGrants minSessions) = .ok results := by
    refine Fallible.mapM_ok_of_forall fun e he => ?_
    obtain ⟨key, members⟩ := e
    obtain ⟨rfl, hmember⟩ := (mem_groups_iff hprojected).mp he
    rcases hspec key hmember with ⟨-, c, hc⟩ | ⟨cap, hsettles, ⟨hempty, -⟩ | ⟨-, offer, _, ho, -⟩⟩
    · exact ⟨_, hc⟩
    · exact absurd hempty (hsigned key cap hsettles)
    · exact ⟨_, ho⟩
  obtain ⟨result, hresult, hoffers⟩ : ∃ result,
      distill records minGrants minSessions = .ok result ∧
        result.offers = results.filterMap Sum.getRight? := by
    unfold distill
    rw [hdenied, hprojected]
    refine ⟨_, Fallible.bind_ok_iff.mpr ⟨denied, rfl, Fallible.bind_ok_iff.mpr ⟨projected, rfl,
      Fallible.bind_ok_iff.mpr ⟨results, hresults, rfl⟩⟩⟩, rfl⟩
  refine ⟨result, hresult, fun key cap hsettles => ?_, fun offer hoffer => ?_⟩
  · obtain ⟨y, hmem, hy⟩ := Fallible.mapM_ok_of_mem hresults
      ((mem_groups_iff hprojected).mpr ⟨rfl, hsettles.member⟩)
    rcases hspec key hsettles.member with ⟨hnone, -⟩ |
      ⟨cap', hsettles', ⟨hempty, -⟩ | ⟨-, offer, spelling, ho, hshape, hparse, hrule⟩⟩
    · exact absurd hsettles (hnone cap)
    · exact absurd hempty (hsigned key cap' hsettles')
    · obtain rfl := Except.ok.inj (ho.symm.trans hy)
      obtain rfl := hsettles'.cap.unique hsettles.cap
      have hin : offer ∈ result.offers := hoffers ▸ List.mem_filterMap.mpr ⟨_, hmem, rfl⟩
      exact ⟨offer, hin, spelling, hshape, hparse, hrule⟩
  · obtain ⟨y, hmem, hy⟩ := List.mem_filterMap.mp (hoffers ▸ hoffer)
    obtain rfl : y = .inr offer := Sum.getRight?_eq_some_iff.mp hy
    obtain ⟨⟨key, members⟩, he, hfe⟩ := Fallible.mapM_ok_mem hresults hmem
    obtain ⟨rfl, hmember⟩ := (mem_groups_iff hprojected).mp he
    rcases hspec key hmember with ⟨-, c, hc⟩ |
      ⟨cap, hsettles, ⟨-, herror⟩ | ⟨-, offer', spelling, ho, rfl, hparse, hrule⟩⟩
    · cases hc.symm.trans hfe
    · cases herror.symm.trans hfe
    · obtain rfl := Sum.inr.inj (Except.ok.inj (ho.symm.trans hfe))
      exact ⟨cap, spelling, hsettles, hparse, hrule⟩

end Ledger

/-- **The exact condition.** For every ledger whose capabilities read and every two thresholds: the
fold returns, and each rule it offers is what the operator would have said, exactly when every group
that settles names an operator and agrees. -/
theorem distill_exact (records : List Record) (minGrants minSessions : Int)
    (hlegible : ∀ r ∈ records, r.Legible) :
    (∃ result, distill records minGrants minSessions = .ok result ∧
        ∀ offer ∈ result.offers, WouldHaveSaid records offer) ↔
      ∀ key cap, Settles records minGrants minSessions key cap →
        operatorsOf (groupOf records key) ≠ [] ∧ Agreed records key cap := by
  constructor
  · rintro ⟨result, hresult, hsaid⟩
    have hsigned : ∀ key cap, Settles records minGrants minSessions key cap →
        operatorsOf (groupOf records key) ≠ [] := fun key cap hsettles hempty =>
      distill_unsigned hlegible hsettles hempty result hresult
    obtain ⟨result', hresult', hall, -⟩ := distill_signed hlegible hsigned
    obtain rfl := Except.ok.inj (hresult.symm.trans hresult')
    intro key cap hsettles
    obtain ⟨offer, hoffer, spelling, hshape, hparse, hrule⟩ := hall key cap hsettles
    exact ⟨hsigned key cap hsettles, (wouldHaveSaid_iff hlegible hsettles.member hsettles.cap
      hparse hshape hrule).mp (hsaid offer hoffer)⟩
  · intro h
    obtain ⟨result, hresult, -, hoffers⟩ :=
      distill_signed hlegible fun key cap hsettles => (h key cap hsettles).1
    refine ⟨result, hresult, fun offer hoffer => ?_⟩
    obtain ⟨cap, spelling, hsettles, hparse, hrule⟩ := hoffers offer hoffer
    exact (wouldHaveSaid_iff hlegible hsettles.member hsettles.cap hparse rfl hrule).mpr
      (h offer.shape cap hsettles).2

/-- A record about one send by the billing component. -/
def sendRecord (record realm session operator : String) : Record where
  record := some record
  component := "billing"
  realm := realm
  session := session
  operator := operator
  taintRelevant := false
  taintOrigins := none
  classCCapabilities := ["gateway.send"]
  resourceScopes := []

theorem legible_sendRecord (record realm session operator : String) :
    (sendRecord record realm session operator).Legible := by
  refine ⟨fun text htext => ?_, nofun⟩
  obtain rfl := List.mem_singleton.mp htext
  exact ⟨⟨"gateway.send", []⟩, rfl, by decide, nofun, nofun⟩

/-- A send granted by one operator in one realm: the rule offered is what was said. -/
theorem distill_exact_send :
    ∃ result, distill [sendRecord "approval-granted" "eu" "morning" "ada"] 1 1 = .ok result ∧
      ∀ offer ∈ result.offers,
        WouldHaveSaid [sendRecord "approval-granted" "eu" "morning" "ada"] offer := by
  have hlegible : ∀ r ∈ [sendRecord "approval-granted" "eu" "morning" "ada"], r.Legible := by
    intro r hr
    obtain rfl := List.mem_singleton.mp hr
    exact legible_sendRecord _ _ _ _
  refine (distill_exact _ 1 1 hlegible).mpr fun key cap h => ?_
  -- the one group is that of the one crossing
  have honly : ∀ x ∈ crossings [sendRecord "approval-granted" "eu" "morning" "ada"], ∀ p,
      InGroup key x p → key = ⟨"gateway.send", "eu", ∅⟩ ∧ p.component = "billing" ∧
        x.1.taintOrigins = none := by
    intro x hx p hp
    obtain rfl := List.mem_singleton.mp hx
    obtain rfl : Projected.mk ⟨"gateway.send", "eu", ∅⟩ none "billing" "morning" "ada" = p :=
      Sum.inr.inj (Except.ok.inj hp.1)
    exact ⟨hp.2.symm, rfl, rfl⟩
  obtain ⟨p, hp⟩ := List.exists_mem_of_ne_nil _ h.member
  obtain ⟨x, hx, hin⟩ := mem_groupOf.mp hp
  obtain ⟨rfl, -⟩ := honly x hx p hin
  obtain rfl : (⟨"gateway.send", []⟩ : Cap) = cap := RuleCap.unique (.inl ⟨rfl, rfl⟩) h.cap
  refine ⟨by decide, by decide, fun x hx p hp => ?_, fun x hx => by cases hx⟩
  obtain ⟨-, hcomponent, htaint⟩ := honly x hx p hp
  rw [hcomponent]
  exact ⟨by decide, fun _ => by decide, .inr htaint⟩

/-- A group without an operator raises; and the rule of a group in the shared realm covers a send
that was denied in another. -/
theorem distill_oversteps :
    distill [sendRecord "approval-granted" "eu" "morning" ""] 1 1 = .error .noOperator ∧
    ∃ result, distill [sendRecord "approval-granted" "" "morning" "ada",
        sendRecord "approval-denied" "eu" "noon" "ada"] 1 1 = .ok result ∧
      ∃ offer ∈ result.offers, ¬ WouldHaveSaid [sendRecord "approval-granted" "" "morning" "ada",
        sendRecord "approval-denied" "eu" "noon" "ada"] offer := by
  refine ⟨rfl, _, rfl, _, List.mem_cons_self, fun h => ?_⟩
  refine h.denied (sendRecord "approval-denied" "eu" "noon" "ada", "gateway.send")
    List.mem_cons_self ⟨⟨"gateway.send", []⟩, rfl, [⟨"gateway.send", []⟩], rfl, ?_⟩
  decide

end Revl.Distill
