import Revl.Lib.TrailSearch
import Revl.Emission.Capabilities

/-!
# The audited host surface (`boundary.py`)

`_extern_reachability` gives each helper function the externs its calls lead to, by a search
that cuts at the functions on its own trail and keeps every answer. `_boundary` folds that table,
and the emission fixed point keyed by extern name, into the externs listed for a component.

- `fnCallNames`: `_fn_call_names`, the names a lowered node calls.
- `callGraph`, `externReachability`: the table, for an order of the functions and their callees.
- `host`: the externs `_boundary` lists for a component body.
- `boundary_exact_iff`: **in every order the table is exact and no component's list misses an
  extern, exactly where no cycle of functions has a dead end** and no function takes the name
  the table keeps for itself.
-/

namespace Revl.Emission

open TrailSearch (Memo Reordered DeadEnd)

/-! ## The names a node calls -/

/-- What a dictionary node calls itself. -/
def nodeCalls (node : Json) : List String :=
  (if isKind node "fn" then (node.getStr? "name").toList else []) ++ (directCallee? node).toList

mutual

/-- `_fn_call_names`: the names called anywhere in a lowered tree. -/
def fnCallNames : Json → List String
  | .obj fields => nodeCalls (.obj fields) ++ fnCallNamesFields fields
  | .arr items => fnCallNamesItems items
  | _ => []

def fnCallNamesItems : List Json → List String
  | [] => []
  | item :: items => fnCallNames item ++ fnCallNamesItems items

def fnCallNamesFields : List (String × Json) → List String
  | [] => []
  | field :: fields => fnCallNamesField field ++ fnCallNamesFields fields

def fnCallNamesField : String × Json → List String
  | (_, value) => fnCallNames value

end

/-! ## The table -/

/-- A lowered helper function: its name and its whole declaration. -/
structure Helper where
  name : String
  decl : Json
  deriving DecidableEq

/-- The function as the emission fixed point reads it. -/
def Helper.fn (helper : Helper) : Fn := ⟨helper.name, (helper.decl.get? "body").getD (.arr [])⟩

/-- The helper functions and the externs of a composition, each under a name of its own. -/
structure Helpers where
  functions : List Helper
  externs : List Extern
  functions_nodup : (functions.map Helper.name).Nodup
  externs_nodup : (externs.map Extern.name).Nodup

namespace Helpers

variable (ir : Helpers)

/-- The names of the functions. -/
def names : List String := ir.functions.map Helper.name

/-- The names of the externs. -/
def externNames : List String := ir.externs.map Extern.name

/-- `direct`: the names a function's declaration calls. -/
def direct (name : String) : List String :=
  ((Assoc.get? (ir.functions.map fun f => (f.name, fnCallNames f.decl)) name).getD []).dedup

/-- The call graph, in the order the declarations come in. -/
def callGraph : TrailSearch.Graph String where
  nodes := ir.names
  calls := ir.direct
  leaf := fun name => decide (name ∈ ir.externNames)

/-- The key under which the table keeps the names of all externs. -/
def externsKey : String := "__externs__"

/-- `_extern_reachability`, for an order of the functions and of the callees of each. -/
def externReachability (order : TrailSearch.Graph String) : Memo String :=
  TrailSearch.search order ++ [(externsKey, ir.externNames.toFinset)]

/-- `_emitting_extern_names`: the emission fixed point, keyed by extern name. -/
def emittingExternNames : Fixpoint.Store String String :=
  emittingCapabilities true crossingClasses (ir.functions.map Helper.fn) ir.externs

/-- What a call of the name adds to the host surface. -/
def calledHost (reach : Memo String) (name : String) : Finset String :=
  if name ∈ ir.externNames then {name}
  else (Assoc.get? reach name).getD ∅ ∪ (ir.emittingExternNames name).erase starToken

/-- A dispatch that cannot be named is reachable from the body. -/
def unknownDispatch (body : Json) : Bool :=
  (fnCallNames body).any (fun name =>
      decide (name ∉ ir.externNames ∧ starToken ∈ ir.emittingExternNames name)) ||
    (callsIn false false body).values.any fun ref => decide (starToken ∈ ir.emittingExternNames ref)

/-- The host fold of `_boundary`: the externs listed for a component with the given body. -/
def host (reach : Memo String) (body : Json) : Finset String :=
  let named := reachedByCalls (ir.calledHost reach) (fnCallNames body) ∪
    reachedByCalls (fun ref => (ir.emittingExternNames ref).erase starToken)
      (callsIn false false body).values
  if ir.unknownDispatch body then insert starToken named else named

/-! ## What the table stands for -/

/-- A path of call edges leads from the function to the extern. -/
def Reaches (f e : String) : Prop := TrailSearch.Reaches ir.callGraph f e

/-- The body, or a function it calls, can call the extern. -/
def CanCall (body : Json) (e : String) : Prop :=
  ∃ name ∈ fnCallNames body, (name = e ∧ e ∈ ir.externNames) ∨
    (name ∈ ir.names ∧ name ∉ ir.externNames ∧ ir.Reaches name e)

/-- A function the body calls or references hands an emitting callable to a dispatcher, on
some path. -/
def CanDispatch (body : Json) : Prop :=
  ∃ name, ((name ∈ fnCallNames body ∧ name ∉ ir.externNames) ∨
      name ∈ (callsIn false false body).values) ∧
    Dispatches true crossingClasses (ir.functions.map Helper.fn) ir.externs name

/-- A table that gives each function precisely the externs it reaches. -/
def ExactTable (reach : Memo String) : Prop :=
  ∀ f ∈ ir.names, ∃ found, Assoc.get? reach f = some found ∧ ∀ e, e ∈ found ↔ ir.Reaches f e

/-- A table from which no component's list misses an extern or a dispatch. -/
def Covers (reach : Memo String) : Prop :=
  ∀ body, (∀ e, ir.CanCall body e → e ∈ ir.host reach body) ∧
    (ir.CanDispatch body → starToken ∈ ir.host reach body)

/-- A function under the table's own key reaches every extern. -/
def KeyFree : Prop :=
  externsKey ∈ ir.names → ∀ e ∈ ir.externNames, ir.Reaches externsKey e

variable {ir}

theorem functions_map_nodup : ((ir.functions.map Helper.fn).map Fn.name).Nodup := by
  rw [List.map_map]
  exact ir.functions_nodup

theorem mem_host {reach : Memo String} {body : Json} {e : String} (h : e ∈
    reachedByCalls (ir.calledHost reach) (fnCallNames body)) : e ∈ ir.host reach body := by
  unfold host
  have hnamed := Finset.mem_union_left (reachedByCalls
    (fun ref => (ir.emittingExternNames ref).erase starToken) (callsIn false false body).values) h
  by_cases hstar : ir.unknownDispatch body
  · rw [if_pos hstar]
    exact Finset.mem_insert_of_mem hnamed
  · rw [if_neg hstar]
    exact hnamed

/-- What an exact table says of a called function stands in the component's list. -/
theorem ExactTable.canCall {reach : Memo String} (h : ir.ExactTable reach) {body : Json}
    {e : String} (hcall : ir.CanCall body e) : e ∈ ir.host reach body := by
  obtain ⟨name, hname, hcase⟩ := hcall
  refine mem_host (mem_reachedByCalls.mpr ⟨name, hname, ?_⟩)
  unfold calledHost
  rcases hcase with ⟨rfl, hext⟩ | ⟨hfn, hnot, hreach⟩
  · rw [if_pos hext]
    exact Finset.mem_singleton_self _
  · obtain ⟨found, hget, hiff⟩ := h name hfn
    rw [if_neg hnot, hget, Option.getD_some]
    exact Finset.mem_union_left _ ((hiff e).mpr hreach)

/-- A reachable dispatch is marked, whatever the table says. -/
theorem star_mem_host (reach : Memo String) {body : Json} (h : ir.CanDispatch body) :
    starToken ∈ ir.host reach body := by
  obtain ⟨name, hname, hdispatch⟩ := h
  have hstar : starToken ∈ ir.emittingExternNames name :=
    star_mem_of_dispatches functions_map_nodup ir.externs_nodup hdispatch
  have hunknown : ir.unknownDispatch body = true := by
    unfold unknownDispatch
    rw [Bool.or_eq_true, List.any_eq_true, List.any_eq_true]
    rcases hname with ⟨hcalled, hnot⟩ | hvalue
    · exact .inl ⟨name, hcalled, decide_eq_true ⟨hnot, hstar⟩⟩
    · exact .inr ⟨name, hvalue, decide_eq_true hstar⟩
  unfold host
  rw [if_pos hunknown]
  exact Finset.mem_insert_self _ _

theorem ExactTable.covers {reach : Memo String} (h : ir.ExactTable reach) : ir.Covers reach :=
  fun _ => ⟨fun _ => h.canCall, star_mem_host reach⟩

theorem get?_externReachability_of_ne {f : String} (hf : f ≠ externsKey)
    (order : TrailSearch.Graph String) :
    Assoc.get? (ir.externReachability order) f = Assoc.get? (TrailSearch.search order) f := by
  rw [externReachability, Assoc.get?_append, Assoc.get?_cons, Assoc.get?_nil, Option.none_or,
    if_neg (Ne.symm hf), Option.none_or]

theorem get?_externReachability_key (order : TrailSearch.Graph String) :
    Assoc.get? (ir.externReachability order) externsKey = some ir.externNames.toFinset := by
  rw [externReachability, Assoc.get?_append, Assoc.get?_cons, Assoc.get?_nil, Option.none_or,
    if_pos rfl, Option.some_or]

theorem Reaches.extern {f e : String} (h : ir.Reaches f e) : e ∈ ir.externNames := by
  obtain ⟨-, -, -, hleaf⟩ := h
  exact of_decide_eq_true hleaf

/-- The table and every component's list, in every order of the functions and of the callees of
each. -/
def Audited (ir : Helpers) : Prop := ∀ order, Reordered ir.callGraph order →
  ir.ExactTable (ir.externReachability order) ∧ ir.Covers (ir.externReachability order)

/-- Without a dead end the search's answers, and the list under the table's own key, are exact. -/
theorem exactTable_of_no_deadEnd (hno : ¬ DeadEnd ir.callGraph) (hkey : ir.KeyFree)
    {order : TrailSearch.Graph String} (horder : Reordered ir.callGraph order) :
    ir.ExactTable (ir.externReachability order) := by
  intro f hf
  by_cases hname : f = externsKey
  · subst hname
    refine ⟨_, get?_externReachability_key order, fun e => ?_⟩
    rw [List.mem_toFinset]
    exact ⟨hkey hf e, Reaches.extern⟩
  · obtain ⟨found, hfound, hiff⟩ := TrailSearch.search_exact_iff.mpr hno order horder f hf
    exact ⟨found, (get?_externReachability_of_ne hname order).trans hfound, hiff⟩

theorem Audited.keyFree (h : Audited ir) : ir.KeyFree := by
  intro hkey e he
  obtain ⟨found, hfound, hiff⟩ := (h _ (.refl _)).1 externsKey hkey
  rw [get?_externReachability_key, Option.some.injEq] at hfound
  exact (hiff e).mp (hfound ▸ List.mem_toFinset.mpr he)

/-- A dead end is missed in some order, unless the table's own key hides it. -/
theorem Audited.deadEnd_at_key (h : Audited ir) {trail : List String} {v e : String}
    (hdead : TrailSearch.DeadEndAt ir.callGraph trail v e) : v = externsKey := by
  by_contra hne
  obtain ⟨order, horder, r, hr, hmiss⟩ := TrailSearch.search_misses hdead
  obtain ⟨found, hfound, hiff⟩ :=
    (h order horder).1 v (hdead.path.nodes v List.mem_cons_self)
  rw [get?_externReachability_of_ne hne, hr, Option.some.injEq] at hfound
  exact hmiss (hfound ▸ (hiff e).mpr hdead.reaches)

/-- **The audited host surface is exact exactly without a dead end.** In every order of the
functions and of the callees of each, the table gives every function precisely the externs it
reaches and no component's list misses an extern or a dispatch, exactly where no path of calls
ends in a function that reaches an extern only through functions of that path. A function that
takes the key the table keeps for itself is answered with every extern: with one, the same holds
exactly where it reaches them all, and a dead end that is not missed ends at it. -/
theorem boundary_exact_iff (ir : Helpers) :
    (externsKey ∉ ir.names → (Audited ir ↔ ¬ DeadEnd ir.callGraph)) ∧
      (¬ DeadEnd ir.callGraph → (Audited ir ↔ ir.KeyFree)) ∧
        (Audited ir → ∀ trail v e, TrailSearch.DeadEndAt ir.callGraph trail v e →
          v = externsKey) := by
  have hexact : ¬ DeadEnd ir.callGraph → ir.KeyFree → Audited ir := fun hno hkey order horder =>
    have htable := exactTable_of_no_deadEnd hno hkey horder
    ⟨htable, htable.covers⟩
  refine ⟨fun hkey => ⟨?_, fun hno => hexact hno fun h => absurd h hkey⟩,
    fun hno => ⟨Audited.keyFree, hexact hno⟩, fun h _ _ _ hdead => h.deadEnd_at_key hdead⟩
  rintro h ⟨trail, v, e, hdead⟩
  refine hkey (h.deadEnd_at_key hdead ▸ ?_)
  exact hdead.path.nodes v List.mem_cons_self

/-- Two functions that call each other, the first of which also calls an extern that is no
emission. -/
def mutualHelpers : Helpers where
  functions :=
    [⟨"scan", .obj [("body", .arr [.obj [("kind", .str "fn"), ("name", .str "step")],
        .obj [("kind", .str "fn"), ("name", .str "read_file")]])]⟩,
      ⟨"step", .obj [("body", .arr [.obj [("kind", .str "fn"), ("name", .str "scan")]])]⟩]
  externs := [⟨"read_file", some "pure", [], false⟩]
  functions_nodup := by decide
  externs_nodup := by decide

/-- The second function reaches the extern through the first, and is given nothing; a component
that calls it is listed without the extern. -/
theorem boundary_misses_mutual : mutualHelpers.Reaches "step" "read_file" ∧
    Assoc.get? (mutualHelpers.externReachability mutualHelpers.callGraph) "step" = some ∅ ∧
    "read_file" ∉ mutualHelpers.host (mutualHelpers.externReachability mutualHelpers.callGraph)
      (.arr [.obj [("kind", .str "fn"), ("name", .str "step")]]) ∧
    ¬ Audited mutualHelpers := by
  have hreach : mutualHelpers.Reaches "step" "read_file" :=
    ⟨"scan", .single ⟨by decide, by decide, by decide⟩, by decide, by decide⟩
  have hempty : Assoc.get? (mutualHelpers.externReachability mutualHelpers.callGraph) "step" =
      some ∅ := by decide +kernel
  refine ⟨hreach, hempty, by decide +kernel, fun h => ?_⟩
  obtain ⟨found, hfound, hiff⟩ := (h _ (.refl _)).1 "step" (by decide)
  rw [hempty, Option.some.injEq] at hfound
  exact Finset.notMem_empty _ (hfound ▸ (hiff _).mpr hreach)

end Helpers

end Revl.Emission
