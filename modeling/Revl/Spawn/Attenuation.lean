import Revl.Spawn.Bounds
import Revl.CapOrder.PerInstance
import Revl.Mcp.Intent

/-!
# Attenuation across spawns (`lower.py`, `_check_spawn_attenuation`)

A component may spawn in its activation body what reaches no more than it holds. The check
compares capabilities: what the spawned component and everything below it crosses against what the
spawner crosses or requires. A configuration symbol of either is compared as a plain value.

- `emitStepCaps`, `ownCaps`, `heldCaps`: the capabilities a component crosses, and those it holds.
- `Lineage`: an instance with its spawners, each configured as its spawn site says.
- `SymbolsKept`: where no cover rests on a symbol of the spawner's configuration.
- `never_amplifies`: **in a family so accepted no instance crosses more than any instance above
  it holds.**
-/

namespace Revl.Spawn

open Emission (isKind)
open CapOrder

/-! ## What a component crosses -/

def starCap : Cap := ⟨Emission.starToken, []⟩

/-- `_undeclared_cap`: the service names the boundary its declaration does not. -/
def undeclaredCap (service : Option String) : Cap :=
  match service with
  | some name => if name = "" then starCap else ⟨"svc:" ++ name, []⟩
  | none => starCap

/-- `_cap_keyed`: a spelling that cannot be read is the boundary without a name. -/
def capKeyed (spelling : String) : Cap :=
  match parseStoredCap spelling with
  | .ok c => c
  | .error _ => starCap

/-- The capabilities a declaration names, or the one its service stands for. -/
def declCaps (service : Option String) (decl : Option MethodDecl) : List Cap :=
  match decl.bind MethodDecl.capabilities with
  | some (cap :: caps) => (cap :: caps).map capKeyed
  | some [] | none => [undeclaredCap service]

namespace Program

variable (p : Program)

/-- `_emit_step_caps_pairs`, of the expression emitted. -/
def emitStepCaps (comp : Component) (expr : Json) : List Cap :=
  match p.requiredDecl? comp expr with
  | some (svcname, decl) => declCaps svcname decl
  | none => [starCap]

/-- What one node adds in `_collect_emit_caps_pairs`. -/
def nodeCaps (comp : Component) (node : Json) : List Cap :=
  if isEmit node then p.emitStepCaps comp (fieldOr node "expr")
  else if p.isValueCrossing comp node then p.emitStepCaps comp node
  else []

/-- `_spawn_reached_surface_pairs`, of one component. -/
def ownCaps (comp : Component) : Finset Cap :=
  ((dictNodesItems comp.body).flatMap (p.nodeCaps comp)).toFinset

/-- What a required service adds to what is held. -/
def requiredCaps (svcname : String) : List Cap :=
  let emissions := ((Assoc.get? p.services svcname).map Service.methods).getD [] |>.filter
    fun m => m.2.emission
  if emissions = [] then [undeclaredCap (some svcname)]
  else emissions.flatMap fun m => declCaps (some svcname) (some m.2)

/-- `_held_capabilities_pairs`. -/
def heldCaps (comp : Component) : Finset Cap :=
  p.ownCaps comp ∪ (comp.requires.flatMap fun r => p.requiredCaps r.2).toFinset

end Program

/-! ## Spawn sites -/

/-- A spawn of an activation body, with the fields it binds to string literals. -/
structure ActivationSite where
  child : String
  bindings : List (String × String)
  deriving DecidableEq

/-- `_spawn_literal_bindings`. -/
def literalBindings (spawn : Json) : List (String × String) :=
  match fieldOr spawn "config" with
  | .obj fields => fields.filterMap fun field =>
    if isKind field.2 "lit" then (field.2.getStr? "value").map fun value => (field.1, value)
    else none
  | _ => []

/-- `_activation_spawn_sites`. -/
def activationSites (comp : Component) : List ActivationSite :=
  ((dictNodesItems (comp.body.filter fun step => !isProvide step)).filter fun node =>
    isKind node "spawn").map fun node =>
      ⟨(node.getStr? "component").getD "", literalBindings node⟩

/-- A program whose components have one name each, with what the model role a component routes
through reaches. Every spawn of an activation body is an edge of the instance graph. -/
structure Family extends Program where
  modelReach : String → Finset Cap
  model_wellFormed : ∀ name, ∀ c ∈ modelReach name, c.WellFormed .admitUnknown
  names_nodup : (components.map Component.name).Nodup
  spawns_edges : ∀ comp ∈ components, ∀ site ∈ activationSites comp,
    (comp.name, site.child) ∈ edges

namespace Family

variable (p : Family)

/-- `base`: the own capabilities by component name. -/
def direct (name : String) : Finset Cap :=
  (Assoc.get? (p.components.map fun comp => (comp.name, p.ownCaps comp)) name).getD ∅

/-- `_spawn_base_with_model`. -/
def withModel : Fixpoint.Store String Cap := fun name =>
  (Assoc.get? (p.components.map fun comp =>
    (comp.name, p.ownCaps comp ∪ p.modelReach comp.name)) name).getD ∅

/-- Everything a reach can hold. -/
def allCaps : Finset Cap :=
  p.components.foldr (fun comp acc => (p.ownCaps comp ∪ p.modelReach comp.name) ∪ acc) ∅

/-- The passes the fold needs at most. -/
def capPassBound : Nat := (p.edges.map Prod.fst).toFinset.card * p.allCaps.card + 1

/-- `_spawn_surface_closure`. -/
def reachable : Option (Fixpoint.Store String Cap) :=
  EdgeClosure.close p.edges p.capPassBound p.withModel

end Family

/-! ## The check -/

/-- The held cone covers the crossing's. -/
def coneCovers (held c : Cap) : Bool := covers (Mcp.splitCeilings held).1 (Mcp.splitCeilings c).1

/-- Every ceiling the held capability binds the crossing binds at or below. -/
def ceilingsKept (held c : Cap) : Bool :=
  (Mcp.splitCeilings held).2.all fun ceiling =>
    match Assoc.get? (Mcp.splitCeilings c).2 ceiling.1 with
    | none => false
    | some narrow => paramLeq (.ceiling narrow) (.ceiling ceiling.2)

/-- The crossing fold and `_ceiling_attenuation_check`: some held cone covers the crossing, and
one that does keeps its ceilings, where any does. -/
def licensed (held : Finset Cap) (c : Cap) : Bool :=
  decide (∃ h ∈ held, coneCovers h c = true) &&
    decide ((∃ h ∈ held, coneCovers h c = true ∧ ceilingsKept h c = true) ∨
      ∀ h ∈ held, coneCovers h c = false)

namespace Family

variable (p : Family)

/-- Whether the check resolves the symbols of what is spawned: it has literals to resolve them
with, its reach is its own, and it binds a symbol. -/
def substitutes (reach : Fixpoint.Store String Cap) (site : ActivationSite) : Bool :=
  !site.bindings.isEmpty && decide (reach site.child = p.direct site.child) &&
    decide (∃ c ∈ p.direct site.child, (c.params.any fun q => q.2.isSymbol) = true)

/-- What is compared at a site: a capability of the reach, its symbols resolved where the check
resolves them. -/
def Compared (reach : Fixpoint.Store String Cap) (site : ActivationSite) (c c' : Cap) : Prop :=
  if p.substitutes reach site then
    c ∈ p.direct site.child ∧ substitute c site.bindings .absent = .ok c'
  else c ∈ reach site.child ∧ c' = c

/-- `_check_spawn_attenuation` at one site. -/
def siteAccepts (reach : Fixpoint.Store String Cap) (comp : Component) (site : ActivationSite) :
    Bool :=
  if p.substitutes reach site then
    decide (∀ c ∈ p.direct site.child,
      (match substitute c site.bindings .absent with
      | .ok c' => licensed (p.heldCaps comp) c'
      | .error _ => false) = true)
  else decide (∀ c ∈ reach site.child, licensed (p.heldCaps comp) c = true)

/-- `_check_spawn_attenuation`. -/
def accepts : Bool :=
  if p.edges.isEmpty then true
  else match p.reachable with
    | some reach =>
      p.components.all fun comp => (activationSites comp).all (p.siteAccepts reach comp)
    | none => false

end Family

/-! ## Instances -/

/-- An instance: its component, and the value of every field of its configuration. -/
structure Instance where
  comp : Component
  config : String → String

/-- An instance and its spawners, the nearest first. The fields a spawn site binds to literals have
these values; the others have whatever values the run gives them. -/
inductive Lineage (p : Family) : Instance → List Instance → Prop
  | root {i : Instance} (hi : i.comp ∈ p.components) : Lineage p i []
  | spawn {i j : Instance} {up : List Instance} {site : ActivationSite} (h : Lineage p i up)
      (hsite : site ∈ activationSites i.comp) (hj : j.comp ∈ p.components)
      (hchild : j.comp.name = site.child)
      (hconfig : ∀ field l, Assoc.get? site.bindings field = some l → j.config field = l) :
      Lineage p j (i :: up)

/-- What an instance crosses, resolved by its configuration, is at or below something every
instance above it holds, resolved by that one's. -/
def NeverAmplifies (p : Family) : Prop :=
  ∀ j up, Lineage p j up → ∀ i ∈ up, ∀ c ∈ p.ownCaps j.comp, ∀ r, c.inInstance j.config = some r →
    ∃ h ∈ p.heldCaps i.comp, ∃ held, h.inInstance i.config = some held ∧ covers held r = true

/-- No cover rests on a symbol of the spawner's configuration, and what is resolved at a site
spawns nothing itself. -/
def SymbolsKept (p : Family) : Prop :=
  ∀ reach, p.reachable = some reach → ∀ comp ∈ p.components, ∀ site ∈ activationSites comp,
    (∀ c c', p.Compared reach site c c' → (∃ h ∈ p.heldCaps comp, covers h c' = true) →
      ∃ h ∈ p.heldCaps comp, covers h c' = true ∧ ConfigFree h) ∧
    (p.substitutes reach site = true → ∀ e ∈ p.edges, e.1 ≠ site.child)

/-! ## What the check guarantees -/

theorem wellFormed_bare {token : String} (h : token ≠ "") :
    (Cap.mk token []).WellFormed .admitUnknown :=
  ⟨h, fun _ => rfl, List.Pairwise.nil, fun _ hp => absurd hp List.not_mem_nil⟩

theorem undeclaredCap_wellFormed (service : Option String) :
    (undeclaredCap service).WellFormed .admitUnknown := by
  unfold undeclaredCap
  cases service with
  | none => exact wellFormed_bare (by decide)
  | some name =>
    by_cases hname : name = ""
    · simp only [hname, if_true]
      exact wellFormed_bare (by decide)
    · simp only [hname, if_false]
      refine wellFormed_bare fun hempty => ?_
      have := congrArg String.toList hempty
      rw [String.toList_append] at this
      exact absurd this (by simp)

theorem capKeyed_wellFormed (spelling : String) : (capKeyed spelling).WellFormed .admitUnknown := by
  unfold capKeyed
  cases hparse : parseStoredCap spelling with
  | ok c => exact parseCap_wellFormed hparse
  | error _ => exact wellFormed_bare (by decide)

theorem declCaps_wellFormed {service : Option String} {decl : Option MethodDecl} {c : Cap}
    (hc : c ∈ declCaps service decl) : c.WellFormed .admitUnknown := by
  unfold declCaps at hc
  split at hc
  · obtain ⟨spelling, -, rfl⟩ := List.mem_map.mp hc
    exact capKeyed_wellFormed spelling
  all_goals
    rw [List.mem_singleton.mp hc]
    exact undeclaredCap_wellFormed service

theorem ownCaps_wellFormed {p : Program} {comp : Component} {c : Cap} (hc : c ∈ p.ownCaps comp) :
    c.WellFormed .admitUnknown := by
  have hstep : ∀ {expr : Json}, c ∈ p.emitStepCaps comp expr → c.WellFormed .admitUnknown := by
    intro expr hmem
    unfold Program.emitStepCaps at hmem
    split at hmem
    · exact declCaps_wellFormed hmem
    · rw [List.mem_singleton.mp hmem]
      exact wellFormed_bare (by decide)
  obtain ⟨node, -, hnode⟩ := List.mem_flatMap.mp (List.mem_toFinset.mp hc)
  unfold Program.nodeCaps at hnode
  split at hnode
  · exact hstep hnode
  · split at hnode
    · exact hstep hnode
    · exact absurd hnode List.not_mem_nil

/-- A covering cone that keeps its ceilings covers, ceilings and all. -/
theorem covers_of_cone {h c : Cap} {d : Declared} (hc : c.WellFormed d)
    (hcone : coneCovers h c = true) (hceilings : ceilingsKept h c = true) :
    covers h c = true := by
  have hnd := hc.sorted.nodup
  unfold coneCovers at hcone
  rw [covers_iff] at hcone ⊢
  refine hcone.imp_right ?_
  rintro ⟨hstar, htoken, hparams⟩
  refine ⟨hstar, htoken, fun q hq => ?_⟩
  obtain ⟨name, v⟩ := q
  cases hv : Mcp.ceiling? (name, v) with
  | none =>
    obtain ⟨bv, hbv, hle⟩ := hparams _ (Mcp.mem_resource.mpr ⟨hq, hv⟩)
    exact ⟨bv, (Assoc.get?_eq_some_iff hnd).mpr (Mcp.mem_resource.mp (Assoc.mem_of_get? hbv)).1,
      hle⟩
  | some found =>
    obtain ⟨n, rfl⟩ : ∃ n, v = .ceiling n := by
      cases v <;> simp [Mcp.ceiling?] at hv
      exact ⟨_, rfl⟩
    have hkept := List.all_eq_true.mp hceilings (name, n) (Mcp.mem_ceilings.mpr hq)
    cases hnarrow : Assoc.get? (Mcp.splitCeilings c).2 name with
    | none => simp [hnarrow] at hkept
    | some narrow =>
      simp only [hnarrow] at hkept
      exact ⟨.ceiling narrow, (Assoc.get?_eq_some_iff hnd).mpr
        ((Mcp.get?_ceilings hnd).mp hnarrow), hkept⟩

theorem licensed_covers {held : Finset Cap} {c : Cap} {d : Declared} (hc : c.WellFormed d)
    (h : licensed held c = true) : ∃ h ∈ held, covers h c = true := by
  obtain ⟨hcone, hbudget⟩ := Bool.and_eq_true_iff.mp h
  obtain ⟨wide, hwide, hcovers⟩ := of_decide_eq_true hcone
  obtain ⟨h, hh, hcone', hceilings⟩ | hnone := of_decide_eq_true hbudget
  · exact ⟨h, hh, covers_of_cone hc hcone' hceilings⟩
  · exact absurd hcovers (by rw [hnone wide hwide]; exact Bool.false_ne_true)

section Guarantees

variable {p : Family}

theorem get?_of_mem {V : Type} {comp : Component} (hcomp : comp ∈ p.components)
    (f : Component → V) :
    Assoc.get? (p.components.map fun comp => (comp.name, f comp)) comp.name = some (f comp) := by
  refine (Assoc.get?_eq_some_iff ?_).mpr (List.mem_map_of_mem (f := fun comp => (comp.name, f comp))
    hcomp)
  rw [List.map_map]
  exact p.names_nodup

theorem direct_eq {comp : Component} (hcomp : comp ∈ p.components) :
    p.direct comp.name = p.ownCaps comp := by
  unfold Family.direct
  rw [get?_of_mem hcomp]
  rfl

theorem ownCaps_subset_withModel {comp : Component} (hcomp : comp ∈ p.components) :
    p.ownCaps comp ⊆ p.withModel comp.name := by
  unfold Family.withModel
  rw [get?_of_mem hcomp fun comp => p.ownCaps comp ∪ p.modelReach comp.name]
  exact Finset.subset_union_left

theorem withModel_subset (name : String) : p.withModel name ⊆ p.allCaps :=
  EdgeClosure.start_subset name

/-- **The fold ends.** -/
theorem reachable_isSome (p : Family) : ∃ reach, p.reachable = some reach :=
  EdgeClosure.close_isSome _ withModel_subset (by unfold Family.capPassBound; omega)

theorem mem_reach_iff {reach : Fixpoint.Store String Cap} (hreach : p.reachable = some reach)
    {name : String} {c : Cap} :
    c ∈ reach name ↔ ∃ d, p.Below name d ∧ c ∈ p.withModel d :=
  EdgeClosure.mem_close_iff hreach

theorem reach_wellFormed {reach : Fixpoint.Store String Cap} (hreach : p.reachable = some reach)
    {name : String} {c : Cap} (hc : c ∈ reach name) : c.WellFormed .admitUnknown := by
  obtain ⟨d, -, hd⟩ := (mem_reach_iff hreach).mp hc
  obtain ⟨comp, -, -, hc⟩ := EdgeClosure.mem_start hd
  rcases Finset.mem_union.mp hc with hown | hmodel
  · exact ownCaps_wellFormed hown
  · exact p.model_wellFormed _ c hmodel

/-- An accepted family has every site accepted. -/
theorem site_accepted_of (haccepts : p.accepts = true) {reach : Fixpoint.Store String Cap}
    (hreach : p.reachable = some reach) {comp : Component} (hcomp : comp ∈ p.components)
    {site : ActivationSite} (hsite : site ∈ activationSites comp) :
    p.siteAccepts reach comp site = true := by
  have hedges : p.edges.isEmpty = false := by
    rw [List.isEmpty_eq_false_iff]
    exact List.ne_nil_of_mem (p.spawns_edges comp hcomp site hsite)
  unfold Family.accepts at haccepts
  rw [hedges, hreach] at haccepts
  simp only [Bool.false_eq_true, if_false] at haccepts
  exact List.all_eq_true.mp (List.all_eq_true.mp haccepts comp hcomp) site hsite

/-- Where an accepted site resolves symbols, every capability resolves. -/
theorem substitute_of_accepted (haccepts : p.accepts = true)
    {reach : Fixpoint.Store String Cap} (hreach : p.reachable = some reach) {comp : Component}
    (hcomp : comp ∈ p.components) {site : ActivationSite} (hsite : site ∈ activationSites comp)
    (hsub : p.substitutes reach site = true) {c : Cap} (hc : c ∈ p.direct site.child) :
    ∃ c', substitute c site.bindings .absent = .ok c' := by
  have hat := site_accepted_of haccepts hreach hcomp hsite
  unfold Family.siteAccepts at hat
  rw [if_pos hsub] at hat
  have hlicensed := of_decide_eq_true hat c hc
  cases hsubstitute : substitute c site.bindings .absent with
  | ok c' => exact ⟨c', rfl⟩
  | error _ =>
    rw [hsubstitute] at hlicensed
    exact absurd hlicensed Bool.false_ne_true

/-- An accepted family has what is compared at every site covered, ceilings and all. -/
theorem site_covers (haccepts : p.accepts = true) {reach : Fixpoint.Store String Cap}
    (hreach : p.reachable = some reach) {comp : Component} (hcomp : comp ∈ p.components)
    {site : ActivationSite} (hsite : site ∈ activationSites comp) {child : Component}
    (hchild : child ∈ p.components) (hname : child.name = site.child) {c c' : Cap}
    (hcompared : p.Compared reach site c c') : ∃ h ∈ p.heldCaps comp, covers h c' = true := by
  have hat := site_accepted_of haccepts hreach hcomp hsite
  unfold Family.siteAccepts at hat
  unfold Family.Compared at hcompared
  by_cases hsub : p.substitutes reach site = true
  · rw [if_pos hsub] at hat hcompared
    obtain ⟨hc, hc'⟩ := hcompared
    have hlicensed := of_decide_eq_true hat c hc
    rw [hc'] at hlicensed
    rw [← hname, direct_eq hchild] at hc
    exact licensed_covers
      (substitute_wellFormed (wellFormed_absent (ownCaps_wellFormed hc)) hc') hlicensed
  · rw [if_neg hsub] at hat hcompared
    obtain ⟨hc, rfl⟩ := hcompared
    exact licensed_covers (reach_wellFormed hreach hc) (of_decide_eq_true hat _ hc)

/-! ### Lineages -/

theorem Lineage.mem {j : Instance} {up : List Instance} (h : Lineage p j up) :
    j.comp ∈ p.components := by
  cases h with
  | root hi => exact hi
  | spawn _ _ hj _ _ => exact hj

/-- Every instance above another spawned, at one of its sites, that one or one above it. -/
theorem Lineage.above {j : Instance} {up : List Instance} (h : Lineage p j up) :
    ∀ i ∈ up, i.comp ∈ p.components ∧ ∃ site ∈ activationSites i.comp, ∃ k : Instance,
      k.comp ∈ p.components ∧ k.comp.name = site.child ∧
      (∀ field l, Assoc.get? site.bindings field = some l → k.config field = l) ∧
      (k = j ∨ Relation.TransGen (EdgeClosure.Step p.edges) k.comp.name j.comp.name) := by
  induction h with
  | root _ => exact fun i hi => absurd hi List.not_mem_nil
  | @spawn i j up site hlineage hsite hj hchild hconfig ih =>
    intro a ha
    rcases List.mem_cons.mp ha with rfl | ha
    · exact ⟨hlineage.mem, site, hsite, j, hj, hchild, hconfig, .inl rfl⟩
    · obtain ⟨hcomp, site', hsite', k, hk, hname, hbound, hway⟩ := ih a ha
      refine ⟨hcomp, site', hsite', k, hk, hname, hbound, .inr ?_⟩
      have hedge : EdgeClosure.Step p.edges i.comp.name j.comp.name :=
        hchild ▸ p.spawns_edges i.comp hlineage.mem site hsite
      rcases hway with rfl | hway
      · exact .single hedge
      · exact .tail hway hedge

/-- **In a family accepted without a cover that rests on a symbol no instance crosses more than any
instance above it holds.** -/
theorem never_amplifies (haccepts : p.accepts = true) (hkept : SymbolsKept p) :
    NeverAmplifies p := by
  intro j up hlineage i hi c hc r hr
  obtain ⟨hcomp, site, hsite, k, hk, hname, hbound, hway⟩ := hlineage.above i hi
  obtain ⟨reach, hreach⟩ := reachable_isSome p
  obtain ⟨hsymbols, hleaf⟩ := hkept reach hreach i.comp hcomp site hsite
  suffices hcovered : ∃ h ∈ p.heldCaps i.comp, covers h r = true ∧ ConfigFree h by
    obtain ⟨h, hh, hcovers, hfree⟩ := hcovered
    exact ⟨h, hh, h, hfree.inInstance, hcovers⟩
  by_cases hsub : p.substitutes reach site = true
  · -- What is resolved at the site spawns nothing, so it is the instance itself.
    obtain rfl : k = j := by
      rcases hway with rfl | hway
      · rfl
      · obtain ⟨next, hedge, -⟩ := Relation.TransGen.head'_iff.mp hway
        exact absurd hname (hleaf hsub _ hedge)
    have hdirect : c ∈ p.direct site.child := by
      rw [← hname, direct_eq hk]
      exact hc
    obtain ⟨c', hc'⟩ : ∃ c', substitute c site.bindings .absent = .ok c' :=
      substitute_of_accepted haccepts hreach hcomp hsite hsub hdirect
    have hcompared : p.Compared reach site c c' := by
      unfold Family.Compared
      rw [if_pos hsub]
      exact ⟨hdirect, hc'⟩
    obtain ⟨h, hh, hcovers, hfree⟩ := hsymbols c c' hcompared
      (site_covers haccepts hreach hcomp hsite hk hname hcompared)
    exact ⟨h, hh, covers_inInstance_of_substitute hfree
      (wellFormed_absent (ownCaps_wellFormed hc)) hc' hcovers hbound hr, hfree⟩
  · -- Otherwise the reach compared holds what everything below crosses.
    have hbelow : p.Below k.comp.name j.comp.name := by
      rcases hway with rfl | hway
      · exact .refl
      · exact hway.to_reflTransGen
    have hmem : c ∈ reach site.child :=
      hname ▸ (mem_reach_iff hreach).mpr ⟨_, hbelow, ownCaps_subset_withModel hlineage.mem hc⟩
    have hcompared : p.Compared reach site c c := by
      unfold Family.Compared
      rw [if_neg hsub]
      exact ⟨hmem, rfl⟩
    obtain ⟨h, hh, hcovers, hfree⟩ := hsymbols c c hcompared
      (site_covers haccepts hreach hcomp hsite hk hname hcompared)
    exact ⟨h, hh, covers_inInstance hfree hcovers hr, hfree⟩

end Guarantees

/-! ## A store per job -/

/-- A router that requires a store and spawns a worker whose store is confined to the directory of
the job. -/
def jobServices (scope : String) : List (String × Service) :=
  [("Store", ⟨"Store", [("ingest", ⟨true, some [scope]⟩)]⟩),
    ("JobStore", ⟨"JobStore",
      [("ingest", ⟨true, some ["fs.write(path=config.job_root)"]⟩)]⟩)]

def jobWorker : Component where
  name := "Worker"
  requires := [("fs", "JobStore")]
  provides := []
  body := [.obj [("step", .str "emit"), ("expr", .obj [("kind", .str "call"),
    ("target", .obj [("kind", .str "req"), ("name", .str "fs")]), ("method", .str "ingest")])]]

def jobRouter (binding : Json) : Component where
  name := "Router"
  requires := [("fs", "Store")]
  provides := []
  body := [.obj [("step", .str "let"), ("value", .obj [("kind", .str "spawn"),
    ("component", .str "Worker"), ("config", .obj [("job_root", binding)])])]]

/-- The directory is bound to a literal below the one the router holds. -/
def literalJobs : Family where
  services := jobServices "fs.write(path=\"/tmp\")"
  components := [jobWorker, jobRouter (.obj [("kind", .str "lit"), ("value", .str "/tmp/job-42")])]
  functions := []
  externs := []
  edges := [("Router", "Worker")]
  sites_edges := by decide +kernel
  modelReach _ := ∅
  model_wellFormed _ _ hc := absurd hc (Finset.notMem_empty _)
  names_nodup := by decide +kernel
  spawns_edges := by decide +kernel

theorem literalJobs_symbolsKept : SymbolsKept literalJobs := by
  have hfree : ∀ comp ∈ literalJobs.components, activationSites comp ≠ [] →
      ∀ h ∈ literalJobs.heldCaps comp, ConfigFree h := by decide +kernel
  have hleaf : ∀ comp ∈ literalJobs.components, ∀ site ∈ activationSites comp,
      ∀ e ∈ literalJobs.edges, e.1 ≠ site.child := by decide +kernel
  intro reach _ comp hcomp site hsite
  refine ⟨?_, fun _ => hleaf comp hcomp site hsite⟩
  rintro c c' - ⟨h, hh, hcovers⟩
  exact ⟨h, hh, hcovers, hfree comp hcomp (List.ne_nil_of_mem hsite) h hh⟩

theorem never_amplifies_literalJobs : NeverAmplifies literalJobs :=
  never_amplifies (by decide +kernel) literalJobs_symbolsKept

/-- The router's own store is confined to its own job, and the worker's directory is handed on. -/
def handedJobs : Family where
  services := jobServices "fs.write(path=config.job_root)"
  components := [jobWorker, jobRouter (.obj [("kind", .str "config"), ("name", .str "next")])]
  functions := []
  externs := []
  edges := [("Router", "Worker")]
  sites_edges := by decide +kernel
  modelReach _ := ∅
  model_wellFormed _ _ hc := absurd hc (Finset.notMem_empty _)
  names_nodup := by decide +kernel
  spawns_edges := by decide +kernel

/-- The family is accepted, and a worker crosses a directory its router does not hold. -/
theorem attenuation_admits_symbol : handedJobs.accepts = true ∧ ¬ NeverAmplifies handedJobs := by
  refine ⟨by decide +kernel, fun hnever => ?_⟩
  let router : Instance := ⟨jobRouter (.obj [("kind", .str "config"), ("name", .str "next")]),
    fun _ => "/tmp"⟩
  let worker : Instance := ⟨jobWorker, fun _ => "/etc"⟩
  have hrouter : router.comp ∈ handedJobs.components := List.mem_cons_of_mem _ List.mem_cons_self
  have hlineage : Lineage handedJobs worker [router] := by
    have hsite : (⟨"Worker", []⟩ : ActivationSite) ∈ activationSites router.comp := by
      decide +kernel
    exact .spawn (.root hrouter) hsite List.mem_cons_self rfl fun _ _ h => nomatch h
  obtain ⟨h, hh, held, hheld, hcovers⟩ := hnever worker [router] hlineage router List.mem_cons_self
    ⟨"fs.write", [("path", .symbol "config.job_root")]⟩ (by decide +kernel)
    ⟨"fs.write", [("path", .path ["etc"])]⟩ (by decide +kernel)
  have hnone : ∀ h ∈ handedJobs.heldCaps router.comp,
      (h.inInstance router.config).all (fun held =>
        !covers held ⟨"fs.write", [("path", .path ["etc"])]⟩) = true := by decide +kernel
  have := hnone h hh
  rw [hheld, Option.all_some, hcovers] at this
  exact Bool.false_ne_true this

end Revl.Spawn
