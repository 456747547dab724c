import Revl.Lib.Json.Canonical
import Revl.Query.Composition

/-!
# The reach-closure candidate hash (`mcp/approval.py`)

A standing approval is pinned to a hash over the code its call reaches: the components of the
call's reach closure, and the externs and pure functions their scopes name.

- `Ir.hostNames`: `_reached_host_code`, the externs and functions of a component;
  `mem_hostNames_iff`: that is reachability by call or by value.
- `candidateHash`: `candidate_hash`, a digest of the canonical text of their entries.
- `Ir.dispatches`: where a call of a scope may land when it runs: at the provider of its realm,
  at any provider a routed require names, in the activation of a component it spawns, at a
  method of a provision it reads off a spawn handle.
- `candidate_hash_pins`: the hash pins what a call may reach exactly where the edges of the
  index lead to every component its scopes may dispatch to.
-/

namespace Revl.ClassMap

open Emission Query

/-- `_semantic`: an entry without its provenance. -/
def semantic (n : Node) : Json :=
  .obj (("name", .str n.name) :: n.fields.filter fun f => f.1 ≠ "source")

end Revl.ClassMap

namespace Revl.Query.Ir

open Emission ClassMap

variable (ir : Ir)

/-! ## Host code -/

/-- The names a name leads to: a function's body names more, an extern's host code is opaque. -/
def hostNext (name : String) : List String :=
  if (ir.externOf? name).isSome then []
  else
    match ir.function? name with
    | some f => referenced (.arr (listOf (f.get? "body")))
    | none => []

/-- The names the scopes of a component call or reference. -/
def hostRoots (component : String) : List String :=
  (ir.scopes.filter fun s => s.id.component = component).flatMap fun s =>
    match ir.scope? s.id with
    | some s => referenced s.nodes
    | none => []

/-- The names the work list of `_reached_host_code` visits. -/
def hostNames (component : String) : List String :=
  let roots := ir.hostRoots component
  Worklist.drain ir.hostNext
    (roots.length + Worklist.pending ir.hostNext [] (ir.functions.map Node.name)) roots []

/-- `_reached_host_code`: the externs and the pure functions a component's scopes reach. -/
def reachedExterns (component : String) : List String :=
  (ir.hostNames component).filter fun name => (ir.externOf? name).isSome

def reachedFunctions (component : String) : List String :=
  (ir.hostNames component).filter fun name =>
    (ir.externOf? name).isNone && (ir.function? name).isSome

/-! ## The hash -/

/-- `sorted(set(names))`. -/
def sortedSet (names : List String) : List String := names.dedup.insertionSort (· ≤ ·)

/-- The components of the closure the hash is taken over. -/
def closureComponents (id : ScopeId) : List String := (ir.closureScopes id).map ScopeId.component

/-- The entries of the names, in order and without their provenance. -/
def entriesOf (lookup : String → Option Node) (names : List String) : List Json :=
  ((sortedSet names).filterMap lookup).map semantic

/-- What `candidate_hash` hashes. -/
def candidateBody (closure : List String) : Json :=
  let comps := (sortedSet closure).filter fun c => (ir.component? c).isSome
  .obj [("components", .arr (entriesOf ir.component? comps)),
    ("externs", .arr (entriesOf ir.externOf? (comps.flatMap ir.reachedExterns))),
    ("functions", .arr (entriesOf ir.function? (comps.flatMap ir.reachedFunctions)))]

/-- `candidate_hash`, over a digest of the text. -/
def candidateHash {D : Type} (sha : List Char → D) (closure : List String) : D :=
  sha (ir.candidateBody closure).canon

/-- `_provider_of`: the provider of a key in the shared realm, or the one provider it has. -/
def soleProvider (key : String) : Option String :=
  match ir.providerOf key sharedRealm with
  | some provider => some provider
  | none =>
    match ((Assoc.keys ir.provisions).filterMap fun k =>
        if k.1 = key then ir.providerOf k.1 k.2 else none).dedup with
    | [provider] => some provider
    | _ => none

/-- The scope `classify_call` reads a call's reach from. -/
def callScope (key method : String) : Option ScopeId :=
  (ir.soleProvider key).bind fun provider => ir.scopeAt (.method provider key method)

/-- The hash a call's approval is pinned to. -/
def callHash {D : Type} (sha : List Char → D) (key method : String) : Option D :=
  (ir.callScope key method).map fun id => ir.candidateHash sha (ir.closureComponents id)

/-! ## Where calls land -/

/-- The realms a component routes a required key across, where it does. -/
def routedRealms (c : Node) (key : String) : Option (List String) :=
  ((c.get? "routes").bind (·.get? key)).map fun route =>
    (listOf (route.get? "realms")).filterMap Json.str?

/-- The components a call on a required key may land in. -/
def mayProvide (component key : String) : List String :=
  match (ir.component? component).bind (routedRealms · key) with
  | some realms => realms.filterMap (ir.providerOf key)
  | none => (ir.provider component key).toList

/-- A `spawn` node: the component it instantiates, whose activation body runs. -/
def spawned? (node : Json) : Option String :=
  if isKind node "spawn" then node.getStr? "component" else none

/-- Where a node stands: in callee position, as the receiver of a method call, or elsewhere. -/
inductive Place where
  | plain
  | callee
  | receiver
  deriving DecidableEq

/-- The place of a child, from its parent's place, the parent and the child's key. -/
def childPlace (place : Place) (node : Json) (key : String) : Place :=
  if isKind node "call" && key == "callee" then .callee
  else if place == .callee && isKind node "field" && key == "target" then .receiver
  else .plain

mutual

/-- The provisions read off spawn handles other than as the receiver of a method call: such a
value may be called wherever it flows. -/
def heldProvisions (place : Place) : Json → List Provision
  | .obj fields =>
    (if place = .receiver then [] else (provision? (.obj fields)).toList) ++
      heldInFields (childPlace place (.obj fields)) fields
  | .arr items => heldInItems items
  | _ => []

def heldInItems : List Json → List Provision
  | [] => []
  | item :: items => heldProvisions .plain item ++ heldInItems items

def heldInFields (place : String → Place) : List (String × Json) → List Provision
  | [] => []
  | field :: fields => heldInField place field ++ heldInFields place fields

def heldInField (place : String → Place) : String × Json → List Provision
  | (key, value) => heldProvisions (place key) value

end

/-- Every provide-method of a provision. -/
def methodsOf (p : Provision) : List ScopeId :=
  (ir.scopes.map Scope.id).filter fun id =>
    match id with
    | .method component key _ => component = p.component && key = p.key
    | .activation _ => false

/-- Where the calls of one scope may land when they run. -/
def dispatchesFrom (s : Scope) : List ScopeId :=
  (reqCalls s).flatMap (fun call =>
      (ir.mayProvide s.id.component call.1).filterMap fun provider =>
        ir.scopeAt (.method provider call.1 call.2)) ++
    ((walk s.nodes).filterMap spawned?).filterMap (fun c => ir.scopeAt (.activation c)) ++
    (spawnCalls s).filterMap (fun call =>
      ir.scopeAt (.method call.1.component call.1.key call.2)) ++
    (heldProvisions .plain s.nodes).flatMap ir.methodsOf

def dispatches (id : ScopeId) : List ScopeId :=
  match ir.scope? id with
  | some s => ir.dispatchesFrom s
  | none => []

/-- The scopes a call may run, from the scope it enters. -/
def MayReach : ScopeId → ScopeId → Prop := Worklist.Reach ir.dispatches

/-- The scopes the edges of the index lead to. -/
def SeamReach : ScopeId → ScopeId → Prop := Worklist.Reach ir.edges

/-- The names a component's scopes reach by call or by value. -/
def HostReach (component name : String) : Prop :=
  ∃ root ∈ ir.hostRoots component, Worklist.Reach ir.hostNext root name

/-! ## Reading the model -/

variable {ir}

theorem hostNext_of_not_mem {name : String} (h : name ∉ ir.functions.map Node.name) :
    ir.hostNext name = [] := by
  unfold hostNext
  by_cases hext : (ir.externOf? name).isSome
  · rw [if_pos hext]
  · rw [if_neg hext]
    cases hf : ir.function? name with
    | none => rfl
    | some f =>
      refine absurd (List.mem_map.mpr ⟨f, ?_, byName_name hf⟩) h
      exact mem_of_byName hf

/-- **The work list visits what is reachable by call or by value.** -/
theorem mem_hostNames_iff {component name : String} :
    name ∈ ir.hostNames component ↔ ir.HostReach component name :=
  Worklist.mem_drain_iff (fun _ h => hostNext_of_not_mem h) _ _

theorem dispatches_isSome {id id' : ScopeId} (h : id' ∈ ir.dispatches id) :
    (ir.scope? id').isSome := by
  have hat : ∀ {id₁ id₂ : ScopeId}, ir.scopeAt id₁ = some id₂ → (ir.scope? id₂).isSome := by
    intro id₁ id₂ h
    obtain ⟨rfl, hsome⟩ := scopeAt_eq_some h
    exact hsome
  unfold dispatches at h
  cases hs : ir.scope? id with
  | none =>
    rw [hs] at h
    exact absurd h List.not_mem_nil
  | some s =>
    rw [hs] at h
    rcases List.mem_append.mp h with h | hheld
    · rcases List.mem_append.mp h with h | hcall
      · rcases List.mem_append.mp h with hreq | hspawn
        · obtain ⟨call, -, hcall⟩ := List.mem_flatMap.mp hreq
          obtain ⟨provider, -, hprov⟩ := List.mem_filterMap.mp hcall
          exact hat hprov
        · obtain ⟨c, -, hc⟩ := List.mem_filterMap.mp hspawn
          exact hat hc
      · obtain ⟨call, -, hcall⟩ := List.mem_filterMap.mp hcall
        exact hat hcall
    · obtain ⟨p, -, hp⟩ := List.mem_flatMap.mp hheld
      obtain ⟨t, ht, rfl⟩ := List.mem_map.mp (List.mem_filter.mp hp).1
      unfold scope?
      exact Assoc.get?_isSome_of_mem (v := t) (List.mem_map.mpr ⟨t, ht, rfl⟩)

theorem callScope_isSome {key method : String} {id : ScopeId}
    (h : ir.callScope key method = some id) : (ir.scope? id).isSome := by
  unfold callScope at h
  obtain ⟨provider, -, hat⟩ := Option.bind_eq_some_iff.mp h
  obtain ⟨rfl, hsome⟩ := scopeAt_eq_some hat
  exact hsome

theorem mem_sortedSet {names : List String} {name : String} :
    name ∈ sortedSet names ↔ name ∈ names := by
  unfold sortedSet
  rw [List.mem_insertionSort, List.mem_dedup]

end Revl.Query.Ir

namespace Revl.ClassMap

open Query Emission

/-! ## What the hash determines -/

/-- Both entries are there, and are equal up to their provenance. -/
def Same (x y : Option Node) : Prop :=
  ∃ m n, x = some m ∧ y = some n ∧ (semantic m).sortKeys = (semantic n).sortKeys

/-- Everything a call may reach in the first composition is the same in the second: each
component, and each extern and pure function its scopes reach by call or by value. -/
def Pinned (a b : Ir) (id : ScopeId) : Prop :=
  ∀ id', a.MayReach id id' →
    Same (a.component? id'.component) (b.component? id'.component) ∧
      ∀ name, a.HostReach id'.component name →
        ((a.externOf? name).isSome → Same (a.externOf? name) (b.externOf? name)) ∧
        (a.externOf? name = none → (a.function? name).isSome →
          Same (a.function? name) (b.function? name))

/-- The edges of the index lead to every component the call may reach. -/
def Covered (a : Ir) (id : ScopeId) : Prop :=
  ∀ id', a.MayReach id id' → ∃ id'', a.SeamReach id id'' ∧ id''.component = id'.component

theorem semantic_keys_nodup (n : Node) :
    ((("name", Json.str n.name) :: n.fields.filter fun f => f.1 ≠ "source").map
      Prod.fst).Nodup := by
  refine n.keys_nodup.sublist ?_
  rw [List.map_cons]
  exact (List.filter_sublist.map _).cons_cons "name"

theorem semantic_floatsOk (n : Node) : Json.floatsOk (semantic n) = true := by
  unfold semantic
  rw [Json.floatsOk, Json.fieldsOk_iff]
  intro field hmem
  rcases List.mem_cons.mp hmem with rfl | hmem
  · rfl
  · exact Json.fieldsOk_iff.mp n.floats field (List.mem_filter.mp hmem).1

/-- Equal entries have one name. -/
theorem name_eq_of_semantic {m n : Node}
    (h : (semantic m).sortKeys = (semantic n).sortKeys) : m.name = n.name := by
  have hname : ∀ n : Node, (semantic n).sortKeys.get? "name" = some (.str n.name) := by
    intro n
    unfold semantic
    rw [Json.get?_sortKeys (semantic_keys_nodup n)]
    have hmem : ("name", Json.str n.name) ∈
        ("name", Json.str n.name) :: n.fields.filter fun f => f.1 ≠ "source" :=
      List.mem_cons_self ..
    show (Assoc.get? _ "name").map Json.sortKeys = _
    rw [(Assoc.get?_eq_some_iff (semantic_keys_nodup n)).mpr hmem]
    rfl
  have heq : some (Json.str m.name) = some (Json.str n.name) := by
    rw [← hname m, ← hname n, h]
  simpa using heq

theorem floatsOk_entriesOf (lookup : String → Option Node) (names : List String) :
    Json.itemsOk (Ir.entriesOf lookup names) = true := by
  rw [Json.itemsOk_iff]
  intro v hv
  obtain ⟨n, -, rfl⟩ := List.mem_map.mp hv
  exact semantic_floatsOk n

theorem floatsOk_candidateBody (ir : Ir) (closure : List String) :
    Json.floatsOk (ir.candidateBody closure) = true := by
  unfold Ir.candidateBody
  simp only [Json.floatsOk, Json.fieldsOk, Json.fieldOk, floatsOk_entriesOf, Bool.and_self]

/-- The sorted text's three lists. -/
theorem sortKeys_candidateBody (x y z : List Json) :
    (Json.obj [("components", .arr x), ("externs", .arr y), ("functions", .arr z)]).sortKeys =
      .obj [("components", .arr (x.map Json.sortKeys)), ("externs", .arr (y.map Json.sortKeys)),
        ("functions", .arr (z.map Json.sortKeys))] := by
  have h₁ : ("externs" : String) ≤ "functions" := by decide
  have h₂ : ("components" : String) ≤ "externs" := by decide
  simp [Json.sortKeys, Json.sortFields, Json.sortField, Json.sortItems_eq_map, h₁, h₂]

/-- An entry listed in one of two equal lists is listed, up to provenance, in the other. -/
theorem same_of_entriesOf_eq {lookup lookup' : String → Option Node}
    (hlookup : ∀ name n, lookup name = some n → n.name = name)
    (hlookup' : ∀ name n, lookup' name = some n → n.name = name) {names names' : List String}
    (h : (Ir.entriesOf lookup names).map Json.sortKeys =
      (Ir.entriesOf lookup' names').map Json.sortKeys)
    {name : String} (hmem : name ∈ names) (hsome : (lookup name).isSome) :
    name ∈ names' ∧ Same (lookup name) (lookup' name) := by
  obtain ⟨m, hm⟩ := Option.isSome_iff_exists.mp hsome
  have hlisted : (semantic m).sortKeys ∈ (Ir.entriesOf lookup names).map Json.sortKeys := by
    refine List.mem_map.mpr ⟨semantic m, List.mem_map.mpr ⟨m, ?_, rfl⟩, rfl⟩
    exact List.mem_filterMap.mpr ⟨name, Ir.mem_sortedSet.mpr hmem, hm⟩
  rw [h] at hlisted
  obtain ⟨v, hv, heq⟩ := List.mem_map.mp hlisted
  obtain ⟨n, hn, rfl⟩ := List.mem_map.mp hv
  obtain ⟨name', hname', hn⟩ := List.mem_filterMap.mp hn
  -- the name is part of the entry, so the other list has it under the same name
  have hsame : name' = name := by
    rw [← hlookup' name' n hn, ← hlookup name m hm]
    exact name_eq_of_semantic heq
  subst hsame
  exact ⟨Ir.mem_sortedSet.mp hname', m, n, hm, hn, heq.symm⟩

section Determined

variable {D : Type} {sha : List Char → D} {a b : Ir} {closure closure' : List String}

/-- Equal hashes list equal entries, of the components, the externs and the functions. -/
theorem entries_eq_of_hash_eq (hsha : Function.Injective sha)
    (h : a.candidateHash sha closure = b.candidateHash sha closure') :
    (a.candidateBody closure).sortKeys = (b.candidateBody closure').sortKeys :=
  Json.canon_inj (floatsOk_candidateBody a closure) (floatsOk_candidateBody b closure')
    (hsha h)

/-- **What the hash determines**: the entries of the closure's components, and of the host
code they reach. -/
theorem same_of_hash_eq (hsha : Function.Injective sha)
    (h : a.candidateHash sha closure = b.candidateHash sha closure') {c : String}
    (hc : c ∈ closure) (hsome : (a.component? c).isSome) :
    Same (a.component? c) (b.component? c) ∧
      ∀ name, a.HostReach c name →
        ((a.externOf? name).isSome → Same (a.externOf? name) (b.externOf? name)) ∧
        (a.externOf? name = none → (a.function? name).isSome →
          Same (a.function? name) (b.function? name)) := by
  have hbody := entries_eq_of_hash_eq hsha h
  unfold Ir.candidateBody at hbody
  rw [sortKeys_candidateBody, sortKeys_candidateBody] at hbody
  simp only [Json.obj.injEq, List.cons.injEq, Prod.mk.injEq, Json.arr.injEq, true_and,
    and_true] at hbody
  obtain ⟨hcomps, hexterns, hfunctions⟩ := hbody
  have hlisted : c ∈ (Ir.sortedSet closure).filter fun c => (a.component? c).isSome :=
    List.mem_filter.mpr ⟨Ir.mem_sortedSet.mpr hc, hsome⟩
  have hname : ∀ (nodes : List Node) name n, byName nodes name = some n → n.name = name :=
    fun _ _ _ => byName_name
  refine ⟨(same_of_entriesOf_eq (hname _) (hname _) hcomps hlisted hsome).2, ?_⟩
  intro name hreach
  have hvisited := Ir.mem_hostNames_iff.mpr hreach
  constructor
  · intro hext
    have hmem : name ∈ ((Ir.sortedSet closure).filter fun c =>
        (a.component? c).isSome).flatMap a.reachedExterns :=
      List.mem_flatMap.mpr ⟨c, hlisted, List.mem_filter.mpr ⟨hvisited, hext⟩⟩
    exact (same_of_entriesOf_eq (hname _) (hname _) hexterns hmem hext).2
  · intro hext hfn
    have hmem : name ∈ ((Ir.sortedSet closure).filter fun c =>
        (a.component? c).isSome).flatMap a.reachedFunctions := by
      refine List.mem_flatMap.mpr ⟨c, hlisted, List.mem_filter.mpr ⟨hvisited, ?_⟩⟩
      rw [hext, hfn]
      rfl
    exact (same_of_entriesOf_eq (hname _) (hname _) hfunctions hmem hfn).2

end Determined

/-! ## A change the hash does not see -/

/-- Another value of the `config` field, which nothing but the hash reads. -/
def otherConfig (n : Node) : Json :=
  if n.get? "config" = some .null then .bool true else .null

/-- The component with another `config`. -/
def reconfigure (n : Node) : Node where
  name := n.name
  fields := n.fields.filter (fun f => f.1 ≠ "config") ++ [("config", otherConfig n)]
  keys_nodup := by
    have hsub : ("name" :: (n.fields.filter fun f => f.1 ≠ "config").map Prod.fst).Nodup :=
      n.keys_nodup.sublist ((List.filter_sublist.map _).cons_cons "name")
    rw [List.map_append, ← List.cons_append]
    refine List.nodup_append'.mpr ⟨hsub, List.nodup_singleton _, ?_⟩
    intro key hmem hkey
    obtain rfl : key = "config" := by simpa using hkey
    rcases List.mem_cons.mp hmem with hname | hmem
    · exact absurd hname (by decide)
    · obtain ⟨f, hf, hkey⟩ := List.mem_map.mp hmem
      have := (List.mem_filter.mp hf).2
      simp [hkey] at this
  floats := by
    rw [Json.fieldsOk_iff]
    intro field hmem
    rcases List.mem_append.mp hmem with hmem | hmem
    · exact Json.fieldsOk_iff.mp n.floats field (List.mem_filter.mp hmem).1
    · rw [List.mem_singleton] at hmem
      subst hmem
      show Json.floatsOk (otherConfig n) = true
      unfold otherConfig
      split <;> rfl

/-- The composition with one component reconfigured. -/
def reconfigured (a : Ir) (c : String) : Ir :=
  { a with components := a.components.map fun n => if n.name = c then reconfigure n else n }

theorem get?_reconfigure (n : Node) {key : String} (hkey : key ≠ "config") :
    (reconfigure n).get? key = n.get? key := by
  have hn : (n.fields.map Prod.fst).Nodup := (List.nodup_cons.mp n.keys_nodup).2
  have hn' : ((reconfigure n).fields.map Prod.fst).Nodup :=
    (List.nodup_cons.mp (reconfigure n).keys_nodup).2
  refine Option.ext fun v => ?_
  show Assoc.get? (reconfigure n).fields key = some v ↔ Assoc.get? n.fields key = some v
  rw [Assoc.get?_eq_some_iff hn, Assoc.get?_eq_some_iff hn']
  simp [reconfigure, hkey]

theorem get?_config_reconfigure (n : Node) :
    (reconfigure n).get? "config" = some (otherConfig n) := by
  have hn' : ((reconfigure n).fields.map Prod.fst).Nodup :=
    (List.nodup_cons.mp (reconfigure n).keys_nodup).2
  show Assoc.get? (reconfigure n).fields "config" = some (otherConfig n)
  rw [Assoc.get?_eq_some_iff hn']
  exact List.mem_append_right _ (List.mem_singleton.mpr rfl)

/-- The `config` of a sorted entry. -/
theorem get?_config_semantic (n : Node) :
    (semantic n).sortKeys.get? "config" = (n.get? "config").map Json.sortKeys := by
  have hn : (n.fields.map Prod.fst).Nodup := (List.nodup_cons.mp n.keys_nodup).2
  unfold semantic
  rw [Json.get?_sortKeys (semantic_keys_nodup n)]
  congr 1
  refine Option.ext fun v => ?_
  show Assoc.get? _ "config" = some v ↔ Assoc.get? n.fields "config" = some v
  rw [Assoc.get?_eq_some_iff (semantic_keys_nodup n), Assoc.get?_eq_some_iff hn]
  simp

/-- The reconfigured component differs from the one it was. -/
theorem semantic_reconfigure_ne (n : Node) :
    (semantic n).sortKeys ≠ (semantic (reconfigure n)).sortKeys := by
  intro h
  have hconfig := congrArg (Json.get? · "config") h
  simp only [get?_config_semantic, get?_config_reconfigure, Option.map_some] at hconfig
  unfold otherConfig at hconfig
  by_cases hnull : n.get? "config" = some .null
  · rw [if_pos hnull, hnull] at hconfig
    simp [Json.sortKeys] at hconfig
  · rw [if_neg hnull] at hconfig
    obtain ⟨v, hv, hsort⟩ := Option.map_eq_some_iff.mp hconfig
    refine hnull (hv.trans ?_)
    cases v <;> simp_all [Json.sortKeys]

theorem scopesOf_reconfigure (n : Node) : scopesOf (reconfigure n) = scopesOf n := by
  unfold scopesOf
  rw [get?_reconfigure n (by decide)]
  rfl

/-- An index by name follows a change that keeps the names. -/
theorem byName_map {f : Node → Node} (hf : ∀ n, (f n).name = n.name) (nodes : List Node)
    (name : String) : byName (nodes.map f) name = (byName nodes name).map f := by
  unfold byName
  rw [← Assoc.get?_map_snd (fun _ n => f n), List.map_map, List.map_map]
  congr 1
  refine List.map_congr_left fun n _ => ?_
  simp [hf]

section Reconfigured

variable (a : Ir) (c : String)

theorem scopes_reconfigured : (reconfigured a c).scopes = a.scopes := by
  unfold Ir.scopes reconfigured
  simp only [List.flatMap_map]
  congr 1
  funext n
  by_cases hn : n.name = c
  · rw [if_pos hn, scopesOf_reconfigure]
  · rw [if_neg hn]

theorem component?_reconfigured (name : String) :
    (reconfigured a c).component? name =
      (a.component? name).map fun n => if n.name = c then reconfigure n else n := by
  refine byName_map (fun n => ?_) a.components name
  split <;> rfl

/-- The other components stay. -/
theorem component?_reconfigured_of_ne {name : String} (h : name ≠ c) :
    (reconfigured a c).component? name = a.component? name := by
  rw [component?_reconfigured]
  cases hn : a.component? name with
  | none => rfl
  | some n =>
    have hname : n.name = name := byName_name hn
    rw [Option.map_some, if_neg (by rw [hname]; exact h)]

theorem edges_reconfigured : (reconfigured a c).edges = a.edges := by
  have hat : (reconfigured a c).scopeAt = a.scopeAt := by
    funext id
    unfold Ir.scopeAt Ir.scope?
    rw [scopes_reconfigured]
  have hmethod : (reconfigured a c).methodScope = a.methodScope := by
    funext consumer key method
    unfold Ir.methodScope
    rw [hat]
    rfl
  funext id
  unfold Ir.edges Ir.scope? Ir.edgesFrom
  rw [scopes_reconfigured, hat, hmethod]

theorem closureScopes_reconfigured : (reconfigured a c).closureScopes = a.closureScopes := by
  funext id
  unfold Ir.closureScopes
  rw [edges_reconfigured, scopes_reconfigured]

theorem hostNames_reconfigured : (reconfigured a c).hostNames = a.hostNames := by
  have hroots : (reconfigured a c).hostRoots = a.hostRoots := by
    funext component
    unfold Ir.hostRoots Ir.scope?
    rw [scopes_reconfigured]
  funext component
  unfold Ir.hostNames
  rw [hroots]
  rfl

/-- A closure without the component hashes the same. -/
theorem candidateBody_reconfigured {closure : List String} (h : c ∉ closure) :
    (reconfigured a c).candidateBody closure = a.candidateBody closure := by
  have hcomp : ∀ name ∈ Ir.sortedSet closure,
      (reconfigured a c).component? name = a.component? name := by
    intro name hmem
    refine component?_reconfigured_of_ne a c ?_
    rintro rfl
    exact h (Ir.mem_sortedSet.mp hmem)
  have hcomps : (Ir.sortedSet closure).filter
        (fun name => ((reconfigured a c).component? name).isSome) =
      (Ir.sortedSet closure).filter fun name => (a.component? name).isSome := by
    refine List.filter_congr fun name hmem => ?_
    rw [hcomp name hmem]
  have hentries : ∀ names : List String, (∀ name ∈ names, name ∈ Ir.sortedSet closure) →
      Ir.entriesOf (reconfigured a c).component? names = Ir.entriesOf a.component? names := by
    intro names hnames
    unfold Ir.entriesOf
    congr 1
    refine List.filterMap_congr fun name hmem => ?_
    exact hcomp name (hnames name (Ir.mem_sortedSet.mp hmem))
  have hexterns : (reconfigured a c).reachedExterns = a.reachedExterns := by
    funext component
    unfold Ir.reachedExterns
    rw [hostNames_reconfigured]
    rfl
  have hfunctions : (reconfigured a c).reachedFunctions = a.reachedFunctions := by
    funext component
    unfold Ir.reachedFunctions
    rw [hostNames_reconfigured]
    rfl
  unfold Ir.candidateBody
  rw [hcomps, hexterns, hfunctions]
  dsimp only
  rw [hentries _ fun name hmem => (List.mem_filter.mp hmem).1]
  rfl

/-- A call whose closure is without the component keeps its hash. -/
theorem callHash_reconfigured {D : Type} (sha : List Char → D) {key method : String}
    {id : ScopeId} (hcall : a.callScope key method = some id)
    (h : c ∉ a.closureComponents id) :
    (reconfigured a c).callHash sha key method = a.callHash sha key method := by
  have hscope : (reconfigured a c).callScope key method = a.callScope key method := by
    unfold Ir.callScope Ir.scopeAt Ir.scope?
    rw [scopes_reconfigured]
    rfl
  have hclosure : (reconfigured a c).closureComponents id = a.closureComponents id := by
    unfold Ir.closureComponents
    rw [closureScopes_reconfigured]
  unfold Ir.callHash
  rw [hscope, hcall, Option.map_some, Option.map_some, hclosure]
  unfold Ir.candidateHash
  rw [candidateBody_reconfigured a c h]

end Reconfigured

/-! ## The result -/

theorem mem_closureComponents_iff {a : Ir} {id : ScopeId} {c : String} :
    c ∈ a.closureComponents id ↔ ∃ id', a.SeamReach id id' ∧ id'.component = c := by
  unfold Ir.closureComponents
  rw [List.mem_map]
  constructor
  · rintro ⟨id', hmem, hc⟩
    exact ⟨id', Ir.mem_closureScopes_iff.mp hmem, hc⟩
  · rintro ⟨id', hreach, hc⟩
    exact ⟨id', Ir.mem_closureScopes_iff.mpr hreach, hc⟩

/-- **A standing approval dies with the code it approved, exactly where the index's edges lead
to every component the call may reach**: over every second composition in which the call has
the same hash, what the call may reach is the same, if and only if no scope it may reach
dispatches, by a routed require, a spawn or a provision handed on, to a component outside the
closure. -/
theorem candidate_hash_pins {D : Type} {sha : List Char → D} (hsha : Function.Injective sha)
    (a : Ir) {key method : String} {id : ScopeId}
    (hcall : a.callScope key method = some id) :
    (∀ b : Ir, b.callHash sha key method = a.callHash sha key method → Pinned a b id) ↔
      Covered a id := by
  constructor
  · -- a component outside the closure may be changed under the same hash
    intro hpins id' hreach
    by_contra hout
    have hnot : id'.component ∉ a.closureComponents id := by
      rw [mem_closureComponents_iff]
      exact hout
    have hsame := (hpins (reconfigured a id'.component)
      (callHash_reconfigured a _ sha hcall hnot) id' hreach).1
    obtain ⟨m, n, hm, hn, heq⟩ := hsame
    have hname : m.name = id'.component := byName_name hm
    rw [component?_reconfigured, hm, Option.map_some, if_pos hname, Option.some.injEq] at hn
    subst hn
    exact semantic_reconfigure_ne m heq
  · intro hcovered b hhash id' hreach
    obtain ⟨id'', hseam, hcomp⟩ := hcovered id' hreach
    have hid := Ir.callScope_isSome hcall
    have hsome := Ir.component?_isSome
      (Ir.reach_isSome (fun _ _ h => Ir.dispatches_isSome h) hid hreach)
    unfold Ir.callHash at hhash
    rw [hcall, Option.map_some, Option.map_eq_some_iff] at hhash
    obtain ⟨idb, -, hhash⟩ := hhash
    exact same_of_hash_eq hsha hhash.symm
      (mem_closureComponents_iff.mpr ⟨id'', hseam, hcomp⟩) hsome

/-! ### A composition with one provider, and one with a routed require -/

/-- A provide-method of no parameters, with the one step of its body. -/
def provideStep (key method : String) (step : Json) : Json :=
  .obj [("step", .str "provide"), ("name", .str key),
    ("methods", .arr [.obj [("name", .str method), ("body", .arr [step])]])]

/-- `emit db.query()`. -/
def emitQuery : Json :=
  .obj [("step", .str "emit"), ("expr", .obj [("kind", .str "call"),
    ("target", .obj [("kind", .str "req"), ("name", .str "db")]), ("method", .str "query"),
    ("args", .arr [])])]

/-- `emit <name>()`, of a host extern. -/
def emitExtern (name : String) : Json :=
  .obj [("step", .str "emit"),
    ("expr", .obj [("kind", .str "fn"), ("name", .str name), ("args", .arr [])])]

/-- A provider of `db` whose query is one emission. -/
def database (name host : String) : Node where
  name := name
  fields := [("source", .str "db.rvl"),
    ("body", .arr [provideStep "db" "query" (emitExtern host)])]
  keys_nodup := by
    show ["name", "source", "body"].Nodup
    decide
  floats := by rfl

/-- `component Api { provides api; requires db }`. -/
def plainApi : Node where
  name := "Api"
  fields := [("source", .str "api.rvl"), ("requires", .obj [("db", .str "Database")]),
    ("body", .arr [provideStep "api" "get" emitQuery])]
  keys_nodup := by decide
  floats := by decide

/-- `Api` over one database. -/
def plainIr : Ir where
  components := [plainApi, database "Db" "read"]
  externs := []
  functions := []
  entries := [⟨"Db", ["db"], [], []⟩, ⟨"Api", ["api"], [], []⟩]

/-- The call runs `Api.get` and the query it makes, and nothing else. -/
theorem plainIr_covered : Covered plainIr (.method "Api" "api" "get") := by
  have hclosed : Worklist.Closed plainIr.dispatches fun id =>
      id = .method "Api" "api" "get" ∨ id = .method "Db" "db" "query" := by
    have hget : plainIr.dispatches (.method "Api" "api" "get") = [.method "Db" "db" "query"] := by
      decide
    have hquery : plainIr.dispatches (.method "Db" "db" "query") = [] := by decide
    rintro id (rfl | rfl) id' hid
    · rw [hget, List.mem_singleton] at hid
      exact Or.inr hid
    · rw [hquery] at hid
      exact absurd hid List.not_mem_nil
  intro id' hreach
  rcases hclosed.reach (Or.inl rfl) hreach with rfl | rfl
  · exact ⟨_, .refl, rfl⟩
  · exact ⟨.method "Db" "db" "query", .single (by decide), rfl⟩

theorem candidate_hash_pins_plain : Pinned plainIr plainIr (.method "Api" "api" "get") := by
  have hcall : plainIr.callScope "api" "get" = some (.method "Api" "api" "get") := by decide
  have hsha : Function.Injective fun text : List Char => text := fun _ _ h => h
  exact (candidate_hash_pins hsha plainIr hcall).mpr plainIr_covered plainIr rfl

/-- `component Api { provides api; requires db }`, its requirement bound across two realms. -/
def routedApi : Node where
  name := "Api"
  fields := [("source", .str "api.rvl"), ("requires", .obj [("db", .str "Database")]),
    ("routes", .obj [("db", .obj [("realms", .arr [.str "w1", .str "w2"])])]),
    ("body", .arr [provideStep "api" "get" emitQuery])]
  keys_nodup := by decide
  floats := by decide

/-- The composition of the two workers `w1` and `w2`, the first making the given emission. -/
def routedIr (host : String) : Ir where
  components := [routedApi, database "W1" host, database "W2" "read"]
  externs := []
  functions := []
  entries := [⟨"W1", ["db"], [("db", "w1")], []⟩, ⟨"W2", ["db"], [("db", "w2")], []⟩,
    ⟨"Api", ["api"], [], [("db", ["w1", "w2"])]⟩]

/-- **A routed provider may be swapped under a standing approval.** `Api.get` queries a `db`
bound across the realms `w1` and `w2`; the index resolves `db` in the shared realm, where
nothing provides it, so the hash is over `Api` alone and is the same when the query of `w1`
starts to delete. -/
theorem routed_provider_swapped :
    ¬ ∀ (sha : List Char → List Char), Function.Injective sha → ∀ (a b : Ir)
      (key method : String) (id : ScopeId), a.callScope key method = some id →
        b.callHash sha key method = a.callHash sha key method → Pinned a b id := by
  intro hclaim
  have hscope : (routedIr "read").callScope "api" "get" = some (.method "Api" "api" "get") := by
    decide
  have hscope' : (routedIr "drop").callScope "api" "get" = some (.method "Api" "api" "get") := by
    decide
  have hbody : (routedIr "drop").candidateBody
        ((routedIr "drop").closureComponents (.method "Api" "api" "get")) =
      (routedIr "read").candidateBody
        ((routedIr "read").closureComponents (.method "Api" "api" "get")) := by
    decide +kernel
  have hhash : (routedIr "drop").callHash (fun text => text) "api" "get" =
      (routedIr "read").callHash (fun text => text) "api" "get" := by
    unfold Ir.callHash Ir.candidateHash
    rw [hscope, hscope', Option.map_some, Option.map_some, hbody]
  have hreach : (routedIr "read").MayReach (.method "Api" "api" "get")
      (.method "W1" "db" "query") := .single (by decide)
  have hpinned := hclaim _ (fun _ _ h => h) _ _ _ _ _ hscope hhash
  obtain ⟨m, n, hm, hn, heq⟩ := (hpinned _ hreach).1
  have hread : (routedIr "read").component? "W1" = some (database "W1" "read") := rfl
  have hdrop : (routedIr "drop").component? "W1" = some (database "W1" "drop") := rfl
  obtain rfl : m = database "W1" "read" := Option.some.inj (hm.symm.trans hread)
  obtain rfl : n = database "W1" "drop" := Option.some.inj (hn.symm.trans hdrop)
  exact absurd heq (by decide +kernel)

end Revl.ClassMap
