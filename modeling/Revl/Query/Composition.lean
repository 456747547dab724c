import Revl.Emission.Calls
import Revl.Lib.Json.Repr
import Revl.Lib.Json.RoundTrip
import Revl.Lib.Worklist

/-!
# The composition index (`query.py`)

What every query and the approval class map read: the linked provider graph, the scopes (a
component's activation body and each provide-method), and the calls of each scope that land
in another component's method.

- `Ir`: the compiled composition: its components, externs and pure functions, and the
  manifest entries the linker wrote.
- `Scope`, `scopesOf`: a component's scopes.
- `Ir.edges`: `Composition.edges`: the scopes a scope calls, across the service seam and on
  spawn handles.
- `Ir.closureScopes`: a scope and what `Composition.closure` finds from it;
  `mem_closureScopes_iff`: that is reachability along the edges.
-/

namespace Revl.Query

open Emission

/-- The realm of a key that is not isolated. -/
def sharedRealm : String := ""

/-- A component, an extern or a pure function of the IR: a dictionary with a name. -/
structure Node where
  name : String
  fields : List (String × Json)
  /-- Every key is bound once, the name included. -/
  keys_nodup : ("name" :: fields.map Prod.fst).Nodup
  /-- Every float literal is one a float prints as. -/
  floats : Json.fieldsOk fields = true

/-- `node.get(key)`, for a key other than the name. -/
def Node.get? (n : Node) (key : String) : Option Json := Assoc.get? n.fields key

/-- `node.get(key) or []`, as a list. -/
def listOf : Option Json → List Json
  | some (.arr items) => items
  | _ => []

/-- A component of the composition manifest. -/
structure Entry where
  name : String
  provides : List String
  /-- The keys placed in a realm of their own. -/
  isolate : List (String × String)
  /-- The required keys bound across several realms, with those realms. -/
  routes : List (String × List String)
  deriving DecidableEq, Repr

/-- A compiled composition. -/
structure Ir where
  components : List Node
  externs : List Node
  functions : List Node
  entries : List Entry

/-- The index `{n["name"]: n for n in nodes}`. -/
def byName (nodes : List Node) (name : String) : Option Node :=
  Assoc.get? (nodes.map fun n => (n.name, n)) name

theorem byName_name {nodes : List Node} {name : String} {n : Node}
    (h : byName nodes name = some n) : n.name = name := by
  obtain ⟨m, -, heq⟩ := List.mem_map.mp (Assoc.mem_of_get? h)
  rw [Prod.mk.injEq] at heq
  exact heq.2 ▸ heq.1

theorem mem_of_byName {nodes : List Node} {name : String} {n : Node}
    (h : byName nodes name = some n) : n ∈ nodes := by
  obtain ⟨m, hm, heq⟩ := List.mem_map.mp (Assoc.mem_of_get? h)
  rw [Prod.mk.injEq] at heq
  exact heq.2 ▸ hm

/-! ## Lowered trees -/

mutual

/-- `_walk`: every dictionary of a tree. -/
def walk : Json → List Json
  | .obj fields => .obj fields :: walkFields fields
  | .arr items => walkItems items
  | _ => []

def walkItems : List Json → List Json
  | [] => []
  | item :: items => walk item ++ walkItems items

def walkFields : List (String × Json) → List Json
  | [] => []
  | field :: fields => walkField field ++ walkFields fields

def walkField : String × Json → List Json
  | (_, value) => walk value

end

/-- `_channels`: the names a tree calls and the names it references as values. -/
def channels (nodes : Json) : Refs := callsIn false false nodes

/-- The names of either channel. -/
def referenced (nodes : Json) : List String := (channels nodes).called ++ (channels nodes).values

/-- A call on a required key: the key and the method. -/
def reqCall? (node : Json) : Option (String × String) :=
  if isKind node "call" then
    match node.get? "target" with
    | some target =>
      if isKind target "req" then
        match target.getStr? "name", node.getStr? "method" with
        | some key, some method => some (key, method)
        | _, _ => none
      else none
    | none => none
  else none

/-- A provision of a spawned component. -/
structure Provision where
  component : String
  key : String
  deriving DecidableEq, Repr

/-- An `instance-get` node: the provision it reads off a spawn handle. -/
def provision? (node : Json) : Option Provision :=
  if isKind node "instance-get" then
    match node.getStr? "component", node.getStr? "key" with
    | some component, some key => some ⟨component, key⟩
    | _, _ => none
  else none

/-- `_spawn_call_target`: a method call read off a spawn handle, `s.<key>.<method>(...)`. -/
def spawnCall? (node : Json) : Option (Provision × String) :=
  if isKind node "call" then
    match node.get? "callee" with
    | some callee =>
      if isKind callee "field" then
        match (callee.get? "target").bind provision?, callee.getStr? "name" with
        | some provision, some method => some (provision, method)
        | _, _ => none
      else none
    | none => none
  else none

/-! ## Scopes -/

/-- A component's activation body, or one of its provide-methods. -/
inductive ScopeId where
  | activation (component : String)
  | method (component key method : String)
  deriving DecidableEq, Repr

/-- The component a scope belongs to. -/
def ScopeId.component : ScopeId → String
  | .activation component => component
  | .method component _ _ => component

/-- A scope: its name and its lowered body. -/
structure Scope where
  id : ScopeId
  nodes : Json
  deriving DecidableEq

/-- A dictionary without one of its keys. -/
def without (key : String) : Json → Json
  | .obj fields => .obj (fields.filter fun f => f.1 ≠ key)
  | v => v

/-- A `provide` step. -/
def isProvide (step : Json) : Bool := step.getStr? "step" == some "provide"

/-- The methods of a `provide` step, each a scope of its own. -/
def methodScopes (component : String) (step : Json) : List Scope :=
  (listOf (step.get? "methods")).map fun method =>
    ⟨.method component (Json.pyNone (step.getStr? "name")) (Json.pyNone (method.getStr? "name")),
      .arr (listOf (method.get? "body"))⟩

/-- `_scopes_of_component`: the activation body, then each provide-method. -/
def scopesOf (c : Node) : List Scope :=
  let steps := listOf (c.get? "body")
  let activation := steps.map fun step => if isProvide step then without "methods" step else step
  ⟨.activation c.name, .arr activation⟩ ::
    (steps.filter isProvide).flatMap (methodScopes c.name)

namespace Ir

variable (ir : Ir)

/-- The component, extern or pure function of a name. -/
def component? (name : String) : Option Node := byName ir.components name

def externOf? (name : String) : Option Node := byName ir.externs name

def function? (name : String) : Option Node := byName ir.functions name

/-- The manifest entry of a name. -/
def entry? (name : String) : Option Entry := Assoc.get? (ir.entries.map fun e => (e.name, e)) name

/-- Every scope of the composition. -/
def scopes : List Scope := ir.components.flatMap scopesOf

/-- The scope of an id. -/
def scope? (id : ScopeId) : Option Scope := Assoc.get? (ir.scopes.map fun s => (s.id, s)) id

/-- The id, where a scope has it. -/
def scopeAt (id : ScopeId) : Option ScopeId := (ir.scope? id).map Scope.id

/-- `Composition.realm`: where a component's key is placed. -/
def realm (component key : String) : String :=
  match ir.entry? component with
  | some entry => (Assoc.get? entry.isolate key).getD sharedRealm
  | none => sharedRealm

/-- The bindings of `provider_of`: each provided key with its realm, and the provider. -/
def provisions : List ((String × String) × String) :=
  ir.entries.flatMap fun e => e.provides.map fun key => ((key, ir.realm e.name key), e.name)

/-- `provider_of`: the component providing a key in a realm. -/
def providerOf (key realm : String) : Option String := Assoc.get? ir.provisions (key, realm)

/-- `Composition.provider`: who provides a consumer's key. -/
def provider (consumer key : String) : Option String :=
  ir.providerOf key (ir.realm consumer key)

/-- `Composition.method_scope`: the provide-method a call on a required key lands in. -/
def methodScope (consumer key method : String) : Option ScopeId :=
  (ir.provider consumer key).bind fun provider => ir.scopeAt (.method provider key method)

/-- The calls of a scope on required keys. -/
def reqCalls (s : Scope) : List (String × String) := (walk s.nodes).filterMap reqCall?

/-- The calls of a scope on spawn handles. -/
def spawnCalls (s : Scope) : List (Provision × String) := (walk s.nodes).filterMap spawnCall?

/-- The edges of one scope. -/
def edgesFrom (s : Scope) : List ScopeId :=
  (reqCalls s).filterMap (fun call => ir.methodScope s.id.component call.1 call.2) ++
    (spawnCalls s).filterMap fun call =>
      ir.scopeAt (.method call.1.component call.1.key call.2)

/-- `Composition.edges`. -/
def edges (id : ScopeId) : List ScopeId :=
  match ir.scope? id with
  | some s => ir.edgesFrom s
  | none => []

/-- A scope, and the scopes `Composition.closure` finds from it. -/
def closureScopes (id : ScopeId) : List ScopeId :=
  Worklist.sweep ir.edges ((ir.scopes.map Scope.id).length + 1) [id] [id]

/-! ## Reading the index -/

variable {ir}

theorem scope?_id {id : ScopeId} {s : Scope} (h : ir.scope? id = some s) : s.id = id := by
  obtain ⟨t, -, heq⟩ := List.mem_map.mp (Assoc.mem_of_get? h)
  rw [Prod.mk.injEq] at heq
  exact heq.2 ▸ heq.1

theorem mem_of_scope? {id : ScopeId} {s : Scope} (h : ir.scope? id = some s) :
    s ∈ ir.scopes := by
  obtain ⟨t, ht, heq⟩ := List.mem_map.mp (Assoc.mem_of_get? h)
  rw [Prod.mk.injEq] at heq
  exact heq.2 ▸ ht

theorem scopeAt_eq_some {id id' : ScopeId} (h : ir.scopeAt id = some id') :
    id' = id ∧ (ir.scope? id).isSome := by
  unfold scopeAt at h
  rw [Option.map_eq_some_iff] at h
  obtain ⟨s, hs, rfl⟩ := h
  exact ⟨scope?_id hs, by rw [hs]; rfl⟩

theorem methodScope_isSome {consumer key method : String} {id : ScopeId}
    (h : ir.methodScope consumer key method = some id) : (ir.scope? id).isSome := by
  unfold methodScope at h
  obtain ⟨provider, -, hat⟩ := Option.bind_eq_some_iff.mp h
  obtain ⟨rfl, hsome⟩ := scopeAt_eq_some hat
  exact hsome

/-- An edge leads to a scope of the composition. -/
theorem edges_isSome {id id' : ScopeId} (h : id' ∈ ir.edges id) : (ir.scope? id').isSome := by
  unfold edges at h
  cases hs : ir.scope? id with
  | none =>
    rw [hs] at h
    exact absurd h List.not_mem_nil
  | some s =>
    rw [hs] at h
    rcases List.mem_append.mp h with h | h
    · obtain ⟨call, -, hcall⟩ := List.mem_filterMap.mp h
      exact methodScope_isSome hcall
    · obtain ⟨call, -, hcall⟩ := List.mem_filterMap.mp h
      obtain ⟨rfl, hsome⟩ := scopeAt_eq_some hcall
      exact hsome

theorem scopesOf_component {c : Node} {s : Scope} (h : s ∈ scopesOf c) :
    s.id.component = c.name := by
  unfold scopesOf at h
  rcases List.mem_cons.mp h with rfl | h
  · rfl
  · obtain ⟨step, -, hs⟩ := List.mem_flatMap.mp h
    obtain ⟨method, -, rfl⟩ := List.mem_map.mp hs
    rfl

/-- A scope of the composition belongs to one of its components. -/
theorem component?_isSome {id : ScopeId} (h : (ir.scope? id).isSome) :
    (ir.component? id.component).isSome := by
  obtain ⟨s, hs⟩ := Option.isSome_iff_exists.mp h
  obtain ⟨c, hc, hmem⟩ := List.mem_flatMap.mp (mem_of_scope? hs)
  have hname : id.component = c.name := by
    rw [← scope?_id hs]
    exact scopesOf_component hmem
  unfold component? byName
  refine Assoc.get?_isSome_of_mem (v := c) ?_
  exact List.mem_map.mpr ⟨c, hc, by rw [hname]⟩

theorem mem_ids_of_isSome {id : ScopeId} (h : (ir.scope? id).isSome) :
    id ∈ ir.scopes.map Scope.id := by
  obtain ⟨s, hs⟩ := Option.isSome_iff_exists.mp h
  exact List.mem_map.mpr ⟨s, mem_of_scope? hs, scope?_id hs⟩

/-- **The closure is reachability along the edges.** -/
theorem mem_closureScopes_iff {id id' : ScopeId} :
    id' ∈ ir.closureScopes id ↔ Worklist.Reach ir.edges id id' :=
  Worklist.mem_sweep_iff (fun _ _ h => mem_ids_of_isSome (edges_isSome h)) id id'

/-- What a scope of the composition reaches are scopes of the composition. -/
theorem reach_isSome {next : ScopeId → List ScopeId}
    (hnext : ∀ a, ∀ b ∈ next a, (ir.scope? b).isSome) {id id' : ScopeId}
    (hid : (ir.scope? id).isSome) (h : Worklist.Reach next id id') : (ir.scope? id').isSome :=
  Worklist.Closed.reach (S := fun id => (ir.scope? id).isSome) (fun a _ b hb => hnext a b hb)
    hid h

end Ir

end Revl.Query
