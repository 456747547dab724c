import Revl.Link.Activate
import Revl.Link.Linker

/-!
# Prerequisites read off a manifest (`activation.py`, `local_prereqs`)

`local_prereqs` rebuilds the edges among a subset of the components from the manifest: a
component waits for the one that provides a key it requires in the realm it isolates the key
into. It does not read the routes.

- `localPrereqs`: the prerequisites. `PlainFeeds`: the edges they stand for.
- `FeedsIn`: the linker's edges within the subset.
- `activation_follows_iff`: **parallel activation follows the linker's graph exactly where, within
  the subset, both kinds of edges lead to the same components.**
-/

namespace Revl.Link

/-- `local_prereqs`: what a component of the subset waits for. -/
def localPrereqs (entries : List Entry) (members : List String) (name : String) : List String :=
  let provider := provisions (entries.filter fun entry => decide (entry.name ∈ members))
  match Assoc.get? (entries.map fun entry => (entry.name, entry)) name with
  | some entry =>
    if name ∈ members then
      (entry.inject.filterMap fun key =>
        (Assoc.get? provider (key, realmOf entry key)).filter fun p => decide (p ≠ name)).eraseDups
    else []
  | none => []

/-- An entry provides a key another one requires, in the realm that one resolves keys in that are
not routed. -/
def PlainFeeds (entries : List Entry) (provider consumer : String) : Prop :=
  ∃ p ∈ entries, ∃ c ∈ entries, p.name = provider ∧ c.name = consumer ∧ provider ≠ consumer ∧
    ∃ key ∈ c.inject, Provides p (key, realmOf c key)

/-- Edges between components of a subset. -/
def Within (R : String → String → Prop) (members : List String) (a b : String) : Prop :=
  a ∈ members ∧ b ∈ members ∧ R a b

/-- The linker's edges within a subset. -/
def FeedsIn (entries : List Entry) (members : List String) : String → String → Prop :=
  Within (Feeds entries) members

section Accepted

variable {entries : List Entry} (hnames : (entries.map Entry.name).Nodup)

include hnames in
theorem get?_entry {entry : Entry} (hentry : entry ∈ entries) :
    Assoc.get? (entries.map fun entry => (entry.name, entry)) entry.name = some entry := by
  refine (Assoc.get?_eq_some_iff ?_).mpr (List.mem_map_of_mem hentry)
  rw [List.map_map]
  exact hnames

/-- The provider table of the subset holds who provides a place there. -/
theorem get?_members_iff (hdisjoint : Disjoint entries) {members : List String} {place : Place}
    {name : String} : Assoc.get? (provisions (entries.filter fun entry =>
      decide (entry.name ∈ members))) place = some name ↔
        ∃ p ∈ entries, p.name = name ∧ name ∈ members ∧ Provides p place := by
  have hsub : (provisions (entries.filter fun entry => decide (entry.name ∈ members))).Sublist
      (provisions entries) := by
    unfold provisions
    exact List.filter_sublist.flatMap _
  rw [Assoc.get?_eq_some_iff (hdisjoint.sublist (hsub.map _)), mem_provisions]
  simp only [List.mem_filter, decide_eq_true_eq]
  constructor
  · rintro ⟨p, ⟨hp, hmem⟩, rfl, hprov⟩
    exact ⟨p, hp, rfl, hmem, hprov⟩
  · rintro ⟨p, hp, rfl, hmem, hprov⟩
    exact ⟨p, ⟨hp, hmem⟩, rfl, hprov⟩

include hnames in
theorem mem_localPrereqs (hdisjoint : Disjoint entries) {members : List String}
    {provider consumer : String} (hconsumer : consumer ∈ entries.map Entry.name) :
    provider ∈ localPrereqs entries members consumer ↔
      Within (PlainFeeds entries) members provider consumer := by
  obtain ⟨entry, hentry, rfl⟩ := List.mem_map.mp hconsumer
  unfold localPrereqs
  simp only [get?_entry hnames hentry]
  by_cases hmem : entry.name ∈ members
  · rw [if_pos hmem, List.mem_eraseDups, List.mem_filterMap]
    simp only [Option.filter_eq_some_iff, get?_members_iff hdisjoint, decide_eq_true_eq]
    constructor
    · rintro ⟨key, hkey, ⟨p, hp, hname, hin, hprov⟩, hne⟩
      exact ⟨hin, hmem, p, hp, entry, hentry, hname, rfl, hne, key, hkey, hprov⟩
    · rintro ⟨hin, -, p, hp, c, hc, hname, hcname, hne, key, hkey, hprov⟩
      obtain rfl := eq_of_name hnames hc hentry hcname
      exact ⟨key, hkey, ⟨p, hp, hname, hin, hprov⟩, hne⟩
  · rw [if_neg hmem]
    exact ⟨fun h => absurd h List.not_mem_nil, fun h => absurd h.2.1 hmem⟩

include hnames in
/-- What the tasks wait for are the plain edges within the subset. -/
theorem waits_eq (hdisjoint : Disjoint entries) {members : List String}
    (hmembers : ∀ name ∈ members, name ∈ entries.map Entry.name) :
    Waits members (localPrereqs entries members) = Within (PlainFeeds entries) members := by
  funext p name
  refine propext ⟨fun h => ?_, fun h => ⟨h.1, h.2.1, ?_⟩⟩
  · exact (mem_localPrereqs hnames hdisjoint (hmembers name h.2.1)).mp h.2.2
  · exact (mem_localPrereqs hnames hdisjoint (hmembers name h.2.1)).mpr h

theorem feedsIn_acyclic (hacyclic : Acyclic entries) (members : List String) (a : String) :
    ¬ Relation.TransGen (FeedsIn entries members) a a :=
  fun h => hacyclic a (h.lift id fun _ _ hedge => hedge.2.2)

/-- Without routes the plain edges are the linker's. -/
theorem plainFeeds_eq (hroutes : ∀ entry ∈ entries, entry.routes = []) :
    PlainFeeds entries = Feeds entries := by
  funext provider consumer
  refine propext ?_
  unfold PlainFeeds Feeds Requires targets
  refine exists_congr fun p => and_congr_right fun _ => exists_congr fun c =>
    and_congr_right fun hc => ?_
  rw [hroutes c hc]
  simp only [Assoc.get?_nil, List.mem_singleton]
  constructor
  · rintro ⟨hp, hname, hne, key, hkey, hprov⟩
    exact ⟨hp, hname, hne, _, ⟨key, hkey, rfl⟩, hprov⟩
  · rintro ⟨hp, hname, hne, _, ⟨key, hkey, rfl⟩, hprov⟩
    exact ⟨hp, hname, hne, key, hkey, hprov⟩

end Accepted

/-- **Parallel activation follows the linker's graph exactly where the routes do not matter.** For
every composition the linker accepts and every subset of its components, in every interleaving of
activations that finish or fail, a component is started only after each of its providers in the
subset, exactly those behind a failed one are skipped, the tasks end, and each component is
disposed before its providers, exactly where within the subset the plain requirements lead to the
same components as the requirements with their routes. -/
theorem activation_follows_iff (links : Links) (hlinked : links.link.errors = [])
    (members : List String) (hmembers : ∀ name ∈ members, name ∈ links.entries.map Entry.name) :
    Follows members (localPrereqs links.entries members) (FeedsIn links.entries members) ↔
      ∀ provider consumer,
        Relation.TransGen (Within (PlainFeeds links.entries) members) provider consumer ↔
          Relation.TransGen (FeedsIn links.entries members) provider consumer := by
  have haccepted := (errors_eq_nil_iff links.entries_names_nodup).mp hlinked
  rw [← waits_eq links.entries_names_nodup haccepted.disjoint hmembers]
  constructor
  · exact fun h => h.same fun _ _ hedge => hedge.2.1
  · exact follows_of_same (feedsIn_acyclic haccepted.acyclic members)

/-- A component, and one that requires its key. -/
def plainPair : Links where
  running := []
  components :=
    [⟨"store", "store.revl", [], ["db"], [], [], false⟩,
      ⟨"api", "api.revl", ["db"], [], [], [], false⟩]
  templates := []
  names_nodup := by decide

theorem activation_follows_plainPair : Follows ["store", "api"]
    (localPrereqs plainPair.entries ["store", "api"])
      (FeedsIn plainPair.entries ["store", "api"]) := by
  refine (activation_follows_iff plainPair (by decide +kernel) _ (by decide)).mpr ?_
  intro provider consumer
  rw [plainFeeds_eq (by decide), FeedsIn]

/-- A component in a realm, and one that routes its key there. -/
def routedPair : Links where
  running := []
  components :=
    [⟨"store", "store.revl", [], ["db"], [("db", "east")], [], false⟩,
      ⟨"api", "api.revl", ["db"], [], [], [("db", ⟨["east"], none⟩)], false⟩]
  templates := []
  names_nodup := by decide

/-- The consumer of a routed key has no prerequisites: it is started first. -/
theorem activation_starts_routed_early : routedPair.link.errors = [] ∧
    ¬ Follows ["store", "api"] (localPrereqs routedPair.entries ["store", "api"])
      (FeedsIn routedPair.entries ["store", "api"]) := by
  refine ⟨by decide +kernel, fun h => ?_⟩
  have hnone : localPrereqs routedPair.entries ["store", "api"] "api" = [] := by decide +kernel
  have hdue : Due ["store", "api"] (localPrereqs routedPair.entries ["store", "api"])
      State.initial "api" := by
    refine ⟨by decide, rfl, fun p hp => ?_⟩
    rw [hnone] at hp
    cases hp
  have hno : ¬ Cascades (localPrereqs routedPair.entries ["store", "api"])
      State.initial "api" := by
    rintro ⟨p, hp, -⟩
    rw [hnone] at hp
    cases hp
  have hfeeds : FeedsIn routedPair.entries ["store", "api"] "store" "api" := by
    refine ⟨by decide, by decide, (feeds_iff ?_).mpr (by decide +kernel)⟩
    unfold Disjoint
    decide +kernel
  have hfinished := h.starts _ .refl "api" _ (.start hdue hno) "store" hfeeds
  cases hfinished

end Revl.Link
