import Revl.Lib.EdgeClosure
import Revl.Emission.Capabilities

/-!
# Emission bounds across spawns (`lower.py`, `_check_spawn_emission_bounds`)

A provide method declared plain or `emission[caps]` may spawn a component only where what the
instances can emit stays inside the declaration. The check collects, for every component, the
names of its `emit` steps and the capabilities of the services it provides, and folds them over
the spawn graph.

- `dictNodes`: every dictionary node of a lowered tree, in the order of the walks.
- `emitCaps`, `surfaceOf`, `surface`: what the check collects. `siteRefusal?`, `check`: the check.
- `Token`, `crossings`: what a node crosses, with the tokens its declaration names.
- `Covered`: everything crossed below a component is among the names collected below it.
- `bounds_hold_iff`: **a bound holds for every declaration that is accepted exactly where the
  names collected cover what is crossed.**
-/

namespace Revl.Spawn

open Emission (isKind Extern Fn)

/-! ## The program -/

/-- A service method: whether it is an emission, and the scope it declares. -/
structure MethodDecl where
  emission : Bool
  capabilities : Option (List String)
  deriving DecidableEq, Repr

/-- A service: its name and its methods. -/
structure Service where
  name : String
  methods : List (String × MethodDecl)
  deriving DecidableEq, Repr

/-- A lowered component: the services of the keys it requires and provides, and the steps of its
body. -/
structure Component where
  name : String
  requires : List (String × String)
  provides : List (String × String)
  body : List Json
  deriving DecidableEq

mutual

/-- Every dictionary node of a lowered tree, each before what is below it. -/
def dictNodes : Json → List Json
  | .obj fields => .obj fields :: dictNodesFields fields
  | .arr items => dictNodesItems items
  | _ => []

def dictNodesItems : List Json → List Json
  | [] => []
  | item :: items => dictNodes item ++ dictNodesItems items

def dictNodesFields : List (String × Json) → List Json
  | [] => []
  | field :: fields => dictNodesField field ++ dictNodesFields fields

def dictNodesField : String × Json → List Json
  | (_, value) => dictNodes value

end

/-- A node is an `emit` step. -/
def isEmit (node : Json) : Bool := node.getStr? "step" == some "emit"

/-- A step is a `provide` step. -/
def isProvide (step : Json) : Bool := step.getStr? "step" == some "provide"

/-- The field of a node, or the empty dictionary. -/
def fieldOr (node : Json) (key : String) : Json := (node.get? key).getD (.obj [])

/-! ## What the check collects -/

/-- The name an `emit` step is collected under: the key of a requirement, or `*`. -/
def emitCap (step : Json) : String :=
  let target := fieldOr (fieldOr step "expr") "target"
  if isKind target "req" then (target.getStr? "name").getD "" else Emission.starToken

/-- `_collect_emit_caps`: the names of the `emit` steps in a body. -/
def emitCaps (body : List Json) : List String :=
  ((dictNodesItems body).filter isEmit).map emitCap

/-- The capabilities of a service's emissions, `*` where one declares no scope. -/
def serviceCaps (services : List (String × Service)) (name : String) : List String :=
  match Assoc.get? services name with
  | some svc => svc.methods.flatMap fun m =>
      if m.2.emission then m.2.capabilities.getD [Emission.starToken] else []
  | none => []

/-- `_spawn_emission_surface`, of one component. -/
def surfaceOf (services : List (String × Service)) (comp : Component) : Finset String :=
  (comp.provides.flatMap fun p => serviceCaps services p.2).toFinset ∪ (emitCaps comp.body).toFinset

/-- `_find_spawn_nodes`: the components a body spawns. -/
def spawnTargets (body : List Json) : List String :=
  ((dictNodesItems body).filter fun node => isKind node "spawn").map fun node =>
    (node.getStr? "component").getD ""

/-- A spawn inside a provide method that is declared: where, and what is spawned. -/
structure Site where
  component : String
  service : String
  method : String
  decl : MethodDecl
  target : String
  deriving DecidableEq, Repr

/-- The spawns inside the methods of one provide step. -/
def stepSites (services : List (String × Service)) (comp : Component) (step : Json) : List Site :=
  match Assoc.get? services
      ((Assoc.get? comp.provides ((step.getStr? "name").getD "")).getD "") with
  | some svc =>
    let methods := match fieldOr step "methods" with
      | .arr items => items
      | _ => []
    methods.flatMap fun method =>
      match Assoc.get? svc.methods ((method.getStr? "name").getD "") with
      | some decl =>
        let body := match fieldOr method "body" with
          | .arr items => items
          | _ => []
        (spawnTargets body).map fun target =>
          ⟨comp.name, svc.name, (method.getStr? "name").getD "", decl, target⟩
      | none => []
  | none => []

/-- The spawns the check looks at. -/
def sitesOf (services : List (String × Service)) (components : List Component) : List Site :=
  components.flatMap fun comp => (comp.body.filter isProvide).flatMap (stepSites services comp)

/-- A program: its services, its components, its helper functions and externs, and the instance
graph. Every spawn the check looks at is an edge of that graph. -/
structure Program where
  services : List (String × Service)
  components : List Component
  functions : List Fn
  externs : List Extern
  edges : List (String × String)
  sites_edges : ∀ site ∈ sitesOf services components, (site.component, site.target) ∈ edges

namespace Program

variable (p : Program)

/-- The surfaces of the components, before they are folded. -/
def base : Fixpoint.Store String String := fun name =>
  (Assoc.get? (p.components.map fun comp => (comp.name, surfaceOf p.services comp)) name).getD ∅

/-- Everything a surface can hold. -/
def names : Finset String :=
  p.components.foldr (fun comp acc => surfaceOf p.services comp ∪ acc) ∅

/-- The passes the fold needs at most. -/
def passBound : Nat := (p.edges.map Prod.fst).toFinset.card * p.names.card + 1

/-- The surfaces, folded over the instance graph. -/
def surface : Option (Fixpoint.Store String String) :=
  EdgeClosure.close p.edges p.passBound p.base

end Program

/-! ## The check -/

/-- A refusal of the check: a plain method whose spawn emits, or one that emits past its scope. -/
inductive Refusal where
  | plain (site : Site) (evidence : List String)
  | widens (site : Site) (extra : List String)
  deriving DecidableEq, Repr

/-- A name as a message shows it. -/
def offending (c : String) : String :=
  if c = Emission.starToken then "an unnameable host boundary" else "`" ++ c ++ "`"

/-- The text of a refusal. -/
def Refusal.message : Refusal → String
  | .plain site evidence => "`" ++ site.service ++ "." ++ site.method ++
      "` is declared plain, but it spawns `" ++ site.target ++ "`, which emits through " ++
      ", ".intercalate (evidence.map fun c => "`" ++ c ++ "`")
  | .widens site extra => "`" ++ site.service ++ "." ++ site.method ++ "` is declared `emission[" ++
      (match site.decl.capabilities.getD [] with
        | [] => "no capabilities"
        | caps => ", ".intercalate caps) ++
      "]`, but it spawns `" ++ site.target ++ "`, which emits through " ++
      ", ".intercalate (extra.map offending)

/-- One spawn against the surface of what it spawns. -/
def siteRefusal? (surface : Finset String) (site : Site) : Option Refusal :=
  if surface = ∅ then none
  else if !site.decl.emission then some (.plain site (surface.sort (· ≤ ·)))
  else match site.decl.capabilities with
    | none => none
    | some caps =>
      let extra := (surface \ caps.toFinset).sort (· ≤ ·)
      if extra.isEmpty then none else some (.widens site extra)

/-- `_check_spawn_emission_bounds`: the first refusal, if any. -/
def Program.check (p : Program) : Option Refusal :=
  if p.edges.isEmpty then none
  else match p.surface with
    | some surface =>
      ((sitesOf p.services p.components).filterMap fun site =>
        siteRefusal? (surface site.target) site).head?
    | none => none

/-! ## What is crossed -/

/-- What a crossing is known by: a token its declaration names, or a service whose declaration
names none. -/
inductive Token where
  | named (token : String)
  | undeclared (service : Option String)
  deriving DecidableEq, Repr

/-- The tokens a method declares. -/
def declTokens (service : Option String) (decl : Option MethodDecl) : List Token :=
  match decl.bind MethodDecl.capabilities with
  | some (cap :: caps) => (cap :: caps).map .named
  | some [] | none => [.undeclared service]

namespace Program

variable (p : Program)

/-- The tokens a call of a function or extern reaches. -/
def callTokens (name : String) : Finset String :=
  Emission.emittingCapabilities false Emission.crossingClasses p.functions p.externs name

/-- The named callables whose call is an emission: those that reach a crossing, the witnessed
externs aside. -/
def emitting (name : String) : Bool :=
  decide ((p.callTokens name).Nonempty) &&
    !(p.externs.any fun e => decide (e.name = name) && decide (e.cls = some "witnessed"))

/-- The service and the method of a call on a requirement. -/
def requiredDecl? (comp : Component) (call : Json) : Option (Option String × Option MethodDecl) :=
  let target := fieldOr call "target"
  if isKind target "req" then
    let svcname := Assoc.get? comp.requires ((target.getStr? "name").getD "")
    let svc := svcname.bind (Assoc.get? p.services)
    some (svcname, svc.bind fun svc => Assoc.get? svc.methods ((call.getStr? "method").getD ""))
  else none

/-- `_instance_get_decl`: the service and the method of a call off a spawn handle. -/
def instanceDecl? (call : Json) : Option (Option String × MethodDecl) :=
  let callee := fieldOr call "callee"
  let recv := fieldOr callee "target"
  if isKind call "call" && isKind callee "field" && isKind recv "instance-get" then
    let svcname := recv.getStr? "service"
    ((svcname.bind (Assoc.get? p.services)).bind fun svc =>
      Assoc.get? svc.methods ((callee.getStr? "name").getD "")).map fun decl => (svcname, decl)
  else none

/-- The tokens an emitted expression crosses. -/
def exprTokens (comp : Component) (expr : Json) : List Token :=
  match p.requiredDecl? comp expr with
  | some (svcname, decl) => declTokens svcname decl
  | none =>
    match p.instanceDecl? expr with
    | some (svcname, decl) => declTokens svcname (some decl)
    | none =>
      let tokens := p.callTokens ((expr.getStr? "name").getD "")
      if isKind expr "fn" && decide tokens.Nonempty then (tokens.sort (· ≤ ·)).map .named
      else [.named Emission.starToken]

/-- `_is_value_crossing`: a call that is an emission, in whatever position. -/
def isValueCrossing (comp : Component) (node : Json) : Bool :=
  if isKind node "fn" then p.emitting ((node.getStr? "name").getD "")
  else if isKind node "call" then
    match p.requiredDecl? comp node with
    | some (_, decl) => decl.any MethodDecl.emission
    | none => (p.instanceDecl? node).any fun found => found.2.emission
  else false

/-- The tokens one node crosses: an `emit` step those of its expression, a call in any other
position its own. -/
def nodeTokens (comp : Component) (node : Json) : List Token :=
  if isEmit node then p.exprTokens comp (fieldOr node "expr")
  else if p.isValueCrossing comp node then p.exprTokens comp node
  else []

/-- What the activation body of a component crosses. -/
def crossings (comp : Component) : List Token :=
  (dictNodesItems (comp.body.filter fun step => !isProvide step)).flatMap (p.nodeTokens comp)

/-- An instance of the component crosses the token when it is activated. -/
def Crosses (name : String) (token : Token) : Prop :=
  ∃ comp ∈ p.components, comp.name = name ∧ token ∈ p.crossings comp

/-- The second component is spawned below the first one, or is it. -/
def Below : String → String → Prop := Relation.ReflTransGen (EdgeClosure.Step p.edges)

/-- Everything crossed below a component is among the names collected below it. -/
def Covered (target : String) : Prop :=
  ∀ d, p.Below target d → ∀ token, p.Crosses d token →
    ∃ d' cap, p.Below target d' ∧ cap ∈ p.base d' ∧ token = .named cap

/-- Everything crossed below a component is inside a declaration. -/
def Within (decl : MethodDecl) (target : String) : Prop :=
  ∀ d, p.Below target d → ∀ token, p.Crosses d token →
    decl.emission = true ∧ ∃ caps, decl.capabilities = some caps ∧ ∃ cap ∈ caps, token = .named cap

end Program

/-- A declaration that bounds what is emitted: plain, or with a scope. -/
def MethodDecl.Bounded (decl : MethodDecl) : Prop :=
  decl.emission = false ∨ ∃ caps, decl.capabilities = some caps

/-! ## What the check guarantees -/

section Guarantees

variable {p : Program}

theorem base_subset (name : String) : p.base name ⊆ p.names :=
  EdgeClosure.start_subset name

/-- **The fold ends.** -/
theorem surface_isSome (p : Program) : ∃ surface, p.surface = some surface :=
  EdgeClosure.close_isSome _ base_subset (by unfold Program.passBound; omega)

theorem mem_surface_iff {surface : Fixpoint.Store String String} (h : p.surface = some surface)
    {target cap : String} :
    cap ∈ surface target ↔ ∃ d, p.Below target d ∧ cap ∈ p.base d :=
  EdgeClosure.mem_close_iff h

/-- **What one spawn is accepted for.** -/
theorem siteRefusal?_eq_none_iff {surface : Finset String} {site : Site} :
    siteRefusal? surface site = none ↔ surface = ∅ ∨ (site.decl.emission = true ∧
      ∀ caps, site.decl.capabilities = some caps → surface ⊆ caps.toFinset) := by
  unfold siteRefusal?
  by_cases hempty : surface = ∅
  · simp [hempty]
  rw [if_neg hempty]
  cases hemission : site.decl.emission with
  | false => simp [hempty]
  | true =>
    cases hcaps : site.decl.capabilities with
    | none => simp
    | some caps =>
      have hsort : ((surface \ caps.toFinset).sort (· ≤ ·)).isEmpty = true ↔
          surface ⊆ caps.toFinset := by
        rw [List.isEmpty_iff, ← Finset.sdiff_eq_empty_iff_subset, ← List.toFinset_eq_empty_iff,
          Finset.sort_toFinset]
      by_cases hsub : surface ⊆ caps.toFinset
      · simp [hsort.mpr hsub, hsub]
      · simpa [hempty, hsub] using mt hsort.mp hsub

/-- Where the names collected cover what is crossed, an accepted declaration bounds it. -/
theorem Program.Covered.within {surface : Fixpoint.Store String String}
    (h : p.surface = some surface) {target : String} (hcovered : p.Covered target) {site : Site}
    (htarget : site.target = target) (hbounded : site.decl.Bounded)
    (haccepted : siteRefusal? (surface target) site = none) : p.Within site.decl target := by
  subst htarget
  intro d hbelow token hcrosses
  obtain ⟨d', cap, hbelow', hcap, rfl⟩ := hcovered d hbelow token hcrosses
  have hmem := (mem_surface_iff h).mpr ⟨d', hbelow', hcap⟩
  rcases siteRefusal?_eq_none_iff.mp haccepted with hempty | ⟨hemission, hcaps⟩
  · rw [hempty] at hmem
    exact absurd hmem (Finset.notMem_empty _)
  · obtain ⟨caps, hsome⟩ := hbounded.resolve_left (by simp [hemission])
    exact ⟨hemission, caps, hsome, cap, List.mem_toFinset.mp (hcaps caps hsome hmem), rfl⟩

/-- A declaration of exactly the names collected is accepted. -/
theorem covered_of_within {surface : Fixpoint.Store String String} (h : p.surface = some surface)
    {target : String} (hwithin : ∀ site : Site, site.target = target → site.decl.Bounded →
      siteRefusal? (surface target) site = none → p.Within site.decl target) :
    p.Covered target := by
  intro d hbelow token hcrosses
  let caps := (surface target).sort (· ≤ ·)
  obtain ⟨-, caps', hsome, cap, hcap, rfl⟩ := hwithin
    ⟨"", "", "", ⟨true, some caps⟩, target⟩ rfl (.inr ⟨caps, rfl⟩)
    (siteRefusal?_eq_none_iff.mpr (.inr ⟨rfl, fun caps' hcaps => by
      rw [← Option.some.inj hcaps, Finset.sort_toFinset]⟩)) d hbelow token hcrosses
  rw [← Option.some.inj hsome, Finset.mem_sort] at hcap
  obtain ⟨d', hbelow', hbase⟩ := (mem_surface_iff h).mp hcap
  exact ⟨d', cap, hbelow', hbase, rfl⟩

/-- An accepted program has every spawn accepted. -/
theorem site_accepted {surface : Fixpoint.Store String String} (h : p.surface = some surface)
    (hcheck : p.check = none) {site : Site}
    (hsite : site ∈ sitesOf p.services p.components) :
    siteRefusal? (surface site.target) site = none := by
  have hedges : p.edges.isEmpty = false := by
    rw [List.isEmpty_eq_false_iff]
    exact List.ne_nil_of_mem (p.sites_edges site hsite)
  unfold Program.check at hcheck
  rw [hedges, h] at hcheck
  simp only [Bool.false_eq_true, if_false, List.head?_eq_none_iff] at hcheck
  rw [List.filterMap_eq_nil_iff] at hcheck
  exact hcheck site hsite

end Guarantees

/-- **A bound holds for every accepted declaration exactly where the names collected cover what is
crossed.** For every program the fold over the instance graph ends. For every component that can
be spawned, whatever provide method with a plain or scoped declaration spawns it, what the check
accepts bounds everything its instances and their descendants cross, exactly where every token
they cross is a wiring key or an emission capability collected below it; and where that is so of
all the components spawned, the whole check guarantees it. -/
theorem bounds_hold_iff (p : Program) : ∃ surface, p.surface = some surface ∧
    (∀ target, (∀ site : Site, site.target = target → site.decl.Bounded →
      siteRefusal? (surface target) site = none → p.Within site.decl target) ↔
        p.Covered target) ∧
    ((∀ site ∈ sitesOf p.services p.components, p.Covered site.target) → p.check = none →
      ∀ site ∈ sitesOf p.services p.components, site.decl.Bounded →
        p.Within site.decl site.target) := by
  obtain ⟨surface, hsurface⟩ := surface_isSome p
  refine ⟨surface, hsurface, fun target => ⟨covered_of_within hsurface, fun hcovered => ?_⟩,
    fun hcovered hcheck site hsite hbounded => ?_⟩
  · exact fun site htarget hbounded haccepted =>
      hcovered.within hsurface htarget hbounded haccepted
  · exact (hcovered site hsite).within hsurface rfl hbounded (site_accepted hsurface hcheck hsite)

/-- A supervisor whose scoped method spawns a worker that reaches the network under the wiring key
of the scope, and whose plain method spawns one that emits in a `let`. -/
def laundering : Program where
  services :=
    [("Net", ⟨"Net", [("send", ⟨true, some ["net.out"]⟩)]⟩),
      ("Jobs", ⟨"Jobs", [("run", ⟨true, some ["db"]⟩), ("peek", ⟨false, none⟩)]⟩)]
  components :=
    [⟨"Worker", [("db", "Net")], [], [.obj [("step", .str "emit"), ("expr", .obj
        [("kind", .str "call"), ("method", .str "send"),
          ("target", .obj [("kind", .str "req"), ("name", .str "db")])])]]⟩,
      ⟨"Quiet", [("net", "Net")], [], [.obj [("step", .str "let"), ("expr", .obj
        [("kind", .str "call"), ("method", .str "send"),
          ("target", .obj [("kind", .str "req"), ("name", .str "net")])])]]⟩,
      ⟨"Supervisor", [], [("jobs", "Jobs")], [.obj [("step", .str "provide"),
        ("name", .str "jobs"), ("methods", .arr
          [.obj [("name", .str "run"), ("body", .arr
            [.obj [("kind", .str "spawn"), ("component", .str "Worker")]])],
          .obj [("name", .str "peek"), ("body", .arr
            [.obj [("kind", .str "spawn"), ("component", .str "Quiet")]])]])]]⟩]
  functions := []
  externs := []
  edges := [("Supervisor", "Worker"), ("Supervisor", "Quiet")]
  sites_edges := by decide

/-- The check accepts both: the worker is collected under its wiring key, and the emission in the
`let` is not collected at all. -/
theorem check_misses_laundering : laundering.check = none ∧
    ¬ laundering.Within ⟨true, some ["db"]⟩ "Worker" ∧
    ¬ laundering.Within ⟨false, none⟩ "Quiet" := by
  refine ⟨by decide +kernel, fun h => ?_, fun h => ?_⟩
  · obtain ⟨-, caps, hcaps, cap, hcap, heq⟩ := h "Worker" .refl (.named "net.out")
      ⟨_, List.mem_cons_self, rfl, by decide +kernel⟩
    obtain rfl := Option.some.inj hcaps
    obtain rfl := Token.named.inj heq
    exact absurd hcap (by decide)
  · obtain ⟨hemission, -⟩ := h "Quiet" .refl (.named "net.out")
      ⟨_, List.mem_cons_of_mem _ List.mem_cons_self, rfl, by decide +kernel⟩
    cases hemission

end Revl.Spawn
