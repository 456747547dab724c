import Revl.CapOrder.Parse
import Revl.Emission.Capabilities

/-!
# The checked parallel-emission partition (`parallel.py`)

Per component, the emissions of each straight-line run are grouped: a group grows while
the next emission is compatible with every member, and is sealed at every barrier.

- `resolveEmission`: the three emission shapes, with their declared capabilities.
- `stepReach`: what a step that is no emission reaches.
- `compatible`: declared-disjoint, or same-key and commutative.
- `walk`, `parallelPlan`, `parallelPlanSteps`: the partition.
-/

namespace Revl.Parallel

open Revl.CapOrder Revl.Emission

/-- A service operation, as far as the plan reads it. -/
structure MethodSpec where
  emission : Bool
  capabilities : Option (List String)
  commutative : Bool
  deriving DecidableEq, Repr

structure Service where
  methods : List (String × MethodSpec)
  commutative : Bool
  deriving DecidableEq, Repr

/-- A step of a body: an emission, a registration or timer with bodies of its own, a kind that
can be pure filler (`let`, `let_pattern`, `expr`, `call`, `assert`), or any other kind. -/
inductive Step where
  | emit (node : Json)
  | provide (methods : List (List Step))
  | timer (body : List Step)
  | eligible (node : Json)
  | other (node : Json)

structure Component where
  name : String
  requires : List (String × String)
  body : List Step

structure Ir where
  services : List (String × Service)
  functions : List Fn
  externs : List Extern
  components : List Component

/-! ## Emission shapes -/

/-- `_from_spec`: the declared capabilities, `*` when there is no declaration. -/
def fromSpec (svc : Service) (spec : MethodSpec) : List String × Bool :=
  (spec.capabilities.getD [starToken], spec.commutative || svc.commutative)

/-- The emission operation a service name and a method name denote. -/
def emissionMethod? (ir : Ir) (service method : Option String) : Option (List String × Bool) := do
  let svc ← Assoc.get? ir.services (← service)
  let spec ← Assoc.get? svc.methods (← method)
  if spec.emission then some (fromSpec svc spec) else none

/-- A call whose target is a required service. -/
def reqEmission? (ir : Ir) (comp : Component) (expr : Json) : Option (List String × Bool) := do
  let target ← expr.get? "target"
  if isKind expr "call" && isKind target "req" then
    let service := (target.getStr? "name").bind (Assoc.get? comp.requires)
    emissionMethod? ir service (expr.getStr? "method")
  else none

/-- A provision call through a spawn handle. -/
def instanceEmission? (ir : Ir) (expr : Json) : Option (List String × Bool) := do
  let callee ← expr.get? "callee"
  let recv ← callee.get? "target"
  if isKind expr "call" && isKind callee "field" && isKind recv "instance-get" then
    emissionMethod? ir (recv.getStr? "service") (callee.getStr? "name")
  else none

/-- `_extern_index`. -/
def externIndex (ir : Ir) : List (String × Extern) := ir.externs.map fun e => (e.name, e)

/-- A direct call of an emission extern. -/
def externEmission? (ir : Ir) (expr : Json) : Option (List String × Bool) := do
  let entry ← Assoc.get? (externIndex ir) (← expr.getStr? "name")
  if isKind expr "fn" && entry.cls == some "emission" then
    some (if entry.capabilities.isEmpty then [entry.name] else entry.capabilities,
      entry.commutative)
  else none

/-- `_resolve_emission`: the capabilities and the commutativity of an emission expression. -/
def resolveEmission (ir : Ir) (comp : Component) (expr : Json) : Option (List String × Bool) :=
  (reqEmission? ir comp expr).or ((instanceEmission? ir expr).or (externEmission? ir expr))

mutual

/-- `_contains_emission_call`: an emission anywhere in the tree. -/
def containsEmissionCall (ir : Ir) (comp : Component) : Json → Bool
  | .obj fields =>
    (resolveEmission ir comp (.obj fields)).isSome || containsInFields ir comp fields
  | .arr items => containsInItems ir comp items
  | _ => false

def containsInItems (ir : Ir) (comp : Component) : List Json → Bool
  | [] => false
  | item :: items => containsEmissionCall ir comp item || containsInItems ir comp items

def containsInFields (ir : Ir) (comp : Component) : List (String × Json) → Bool
  | [] => false
  | field :: fields => containsInField ir comp field || containsInFields ir comp fields

def containsInField (ir : Ir) (comp : Component) : String × Json → Bool
  | (_, value) => containsEmissionCall ir comp value

end

/-- What `_step_reach` answers, `None` being pure filler. -/
inductive Reach where
  | star
  | concrete
  deriving DecidableEq, Repr

/-- What the names a node calls hold. -/
def calledCaps (capsMap : Fixpoint.Store String String) (node : Json) : Finset String :=
  reachedByCalls capsMap (callsIn false false node).called

/-- `_step_reach`. -/
def stepReach (ir : Ir) (comp : Component) (capsMap : Fixpoint.Store String String)
    (step : Json) : Option Reach :=
  let reach := calledCaps capsMap step
  if starToken ∈ reach then some .star
  else if reach.card ≠ 0 || containsEmissionCall ir comp step then some .concrete
  else none

/-! ## Emissions and their compatibility -/

/-- `_Emission`: one emission site. -/
structure Emission where
  index : Nat
  caps : List Cap
  commutative : Bool
  step : Json
  deriving DecidableEq

/-- One declared capability string; what does not parse degrades to `*`. -/
def parseDeclared (s : String) : Cap :=
  match parseStoredCap s with
  | .ok c => c
  | .error _ => ⟨starToken, []⟩

/-- `_parse_caps`. -/
def parseCaps (capStrs : List String) : List Cap := capStrs.map parseDeclared

/-- `_STAR in emission.tokens()`. -/
def hasStar (e : Emission) : Bool := e.caps.any fun c => c.token == starToken

/-- `_independent`. -/
def independent (a b : Emission) : Bool :=
  if hasStar a || hasStar b then false
  else a.caps.all fun x => b.caps.all fun y => disjoint x y

/-- `_same_key`. -/
def sameKey (a b : Emission) : Bool :=
  if hasStar a || hasStar b then false
  else decide (a.caps ⊆ b.caps) && decide (b.caps ⊆ a.caps)

/-- `_reorderable`. -/
def reorderable (a b : Emission) : Bool := sameKey a b && a.commutative && b.commutative

/-- `_compatible`. -/
def compatible (a b : Emission) : Bool := independent a b || reorderable a b

/-! ## The partitioner -/

/-- `_Partitioner`: the sealed groups, the open group and the next emission's index. A sealed
group is kept as its emissions; `parallelPlan` and `parallelPlanSteps` read it off. -/
structure Partitioner where
  groups : List (List Emission)
  current : List Emission
  nextIndex : Nat
  deriving DecidableEq

/-- The partitioner before the walk. -/
def Partitioner.init : Partitioner := ⟨[], [], 0⟩

/-- `_seal`. -/
def Partitioner.sealed (p : Partitioner) : Partitioner :=
  if p.current = [] then p else { p with groups := p.groups ++ [p.current], current := [] }

/-- `_add_emission`, the emission already numbered. -/
def Partitioner.add (p : Partitioner) (e : Emission) : Partitioner :=
  if p.current ≠ [] ∧ p.current.all (fun m => compatible m e) then
    { p with current := p.current ++ [e], nextIndex := p.nextIndex + 1 }
  else { p.sealed with current := [e], nextIndex := p.nextIndex + 1 }

/-- The expression of an `emit` step; a step without one reads an empty dictionary. -/
def emitExpr (node : Json) : Json :=
  match node.get? "expr" with
  | some expr => if expr.truthy then expr else .obj []
  | none => .obj []

/-- The emission an `emit` step is, an unresolvable one being `*`. -/
def emissionOf (ir : Ir) (comp : Component) (index : Nat) (node : Json) : Emission :=
  match resolveEmission ir comp (emitExpr node) with
  | some (capStrs, commutative) => ⟨index, parseCaps capStrs, commutative, node⟩
  | none => ⟨index, parseCaps [starToken], false, node⟩

section Walk

variable (ir : Ir) (comp : Component) (capsMap : Fixpoint.Store String String)

/-- The `emit` case of `walk`: an emission that cannot be resolved is sealed off first. -/
def addEmit (p : Partitioner) (node : Json) : Partitioner :=
  if (resolveEmission ir comp (emitExpr node)).isSome then
    p.add (emissionOf ir comp p.nextIndex node)
  else p.sealed.add (emissionOf ir comp p.nextIndex node)

mutual

/-- `walk`. -/
def walk : List Step → Partitioner → Partitioner
  | [], p => p
  | step :: steps, p => walk steps (walkStep step p)

/-- One step of `walk`. -/
def walkStep : Step → Partitioner → Partitioner
  | .emit node, p => addEmit ir comp p node
  | .provide methods, p => walkMethods methods p.sealed
  | .timer body, p => (walk body p.sealed).sealed
  | .eligible node, p => if (stepReach ir comp capsMap node).isSome then p.sealed else p
  | .other _, p => p.sealed

/-- The method bodies of a `provide` step, each a run of its own. -/
def walkMethods : List (List Step) → Partitioner → Partitioner
  | [], p => p
  | body :: methods, p => walkMethods methods (walk body p).sealed

end

end Walk

/-- The capability map the plan reads. -/
def fnCapsMap (ir : Ir) : Fixpoint.Store String String :=
  emittingCapabilities false crossingClasses ir.functions ir.externs

/-- The sealed groups of a component. -/
def planGroups (ir : Ir) (comp : Component) : List (List Emission) :=
  (walk ir comp (fnCapsMap ir) comp.body .init).sealed.groups

/-- `parallel_plan`: the groups of each component that has any, as emission indices. -/
def parallelPlan (ir : Ir) : List (String × List (List Nat)) :=
  (ir.components.filter fun comp => !(planGroups ir comp).isEmpty).map fun comp =>
    (comp.name, (planGroups ir comp).map (·.map Emission.index))

/-- `parallel_plan_steps`: the same groups, as `emit` steps. -/
def parallelPlanSteps (ir : Ir) : List (String × List (List Json)) :=
  (ir.components.filter fun comp => !(planGroups ir comp).isEmpty).map fun comp =>
    (comp.name, (planGroups ir comp).map (·.map Emission.step))

/-- `has_parallel_group`. -/
def hasParallelGroup (plan : List (String × List (List Nat))) : Bool :=
  plan.any fun entry => entry.2.any fun group => 1 < group.length

end Revl.Parallel
