import Revl.Lib.CycleSearch
import Revl.Lib.Kahn
import Revl.Link.Entry

/-!
# The linker (`lower.py`, `_link`)

The linker composes the entries of the running components and of those linked afresh: it refuses
a second boot component, a place with two providers, a route to a realm without one, a key an
entry provides to itself and a cycle of requirements, and orders the entries providers first.

- `Links`, `entries`: what is linked. A spawn template is no entry, and a running component is
  copied without its boot mark.
- `edges`: the edges of the requirements. `link`: the refusals, in the order they are found, and
  the load order; `linkOrRaise`: without a sink the first refusal is raised.
- `errors_eq_nil_iff`: what an accepted composition is. `loadOrder_perm`, `loadOrder_before`:
  **the load order of an accepted one.**
- `link_exact`: **the linker accepts exactly the disjoint acyclic compositions, where the boot
  marks of the running components do not matter** and no entry routes to itself; and what it
  reports into a sink.
-/

namespace Revl.Link

/-- What is linked: the running components, the components lowered afresh and the names of those
that are spawned at run time, all under names of their own. -/
structure Links where
  running : List Entry
  components : List Component
  templates : List String
  names_nodup : (running.map Entry.name ++ components.map Component.name).Nodup

/-- A refusal of the linker. -/
inductive LinkError where
  | boot (names : List String)
  | provision (conflict : Conflict)
  | route (component : String) (place : Place)
  | selfRequired (component key : String)
  | cycle (loop : List String)
  deriving DecidableEq, Repr

/-- How a message names a realm. -/
def inRealm (realm : String) : String :=
  if realm = sharedRealm then "" else " in realm `" ++ realm ++ "`"

/-- The text of a refusal. -/
def LinkError.message : LinkError → String
  | .boot names => "a composition declares at most one `boot` component, found " ++
      ", ".intercalate names
  | .provision conflict =>
    "provision conflict: key `" ++ conflict.place.1 ++ "`" ++ inRealm conflict.place.2 ++
      " is provided by both " ++ conflict.first ++ " and " ++ conflict.further ++ " (G2)"
  | .route component place =>
    "multi-realm bind of `" ++ place.1 ++ "` in " ++ component ++ " names realm `" ++ place.2 ++
      "`, but no component provides `" ++ place.1 ++ "` in realm `" ++ place.2 ++
      "` (item 162: every routed realm needs a provider)"
  | .selfRequired component key =>
    "component " ++ component ++ " requires a key it provides itself (`" ++ key ++ "`) (G3)"
  | .cycle loop => "dependency cycle: " ++ " -> ".intercalate (loop ++ loop.head?.toList) ++ " (G3)"

/-! ## The requirements -/

/-- The edges of one requirement, provider first: a routed key has one for each realm of its
route, and none to the entry itself. -/
def keyEdges (entries : List Entry) (entry : Entry) (key : String) : List (String × String) :=
  (targets entry key).flatMap fun place =>
    match providerOf entries place with
    | some provider => if provider = entry.name then [] else [(provider, entry.name)]
    | none => []

/-- The edges of all requirements, in the order the entries name them. -/
def edges (entries : List Entry) : List (String × String) :=
  entries.flatMap fun entry => entry.inject.flatMap (keyEdges entries entry)

/-- The refusals of a second boot component. -/
def bootErrors (entries : List Entry) : List LinkError :=
  let names := (entries.filter Entry.boot).map Entry.name
  if names.length > 1 then [.boot names] else []

/-- The refusals of routes to a realm without a provider. -/
def routeErrors (entries : List Entry) : List LinkError :=
  entries.flatMap fun entry => entry.routes.flatMap fun keyed =>
    (keyed.2.realms.filter fun realm => decide (providerOf entries (keyed.1, realm) = none)).map
      fun realm => .route entry.name (keyed.1, realm)

/-- The refusals of keys an entry provides to itself; a routed key is not asked. -/
def selfErrors (entries : List Entry) : List LinkError :=
  entries.flatMap fun entry =>
    (entry.inject.filter fun key => decide (Assoc.get? entry.routes key = none ∧
      providerOf entries (key, realmOf entry key) = some entry.name)).map
        fun key => .selfRequired entry.name key

/-- The loops of the requirements that are reported. -/
def loops (entries : List Entry) : List (List String) :=
  (CycleSearch.search (Kahn.graph (edges entries)) (entries.map Entry.name)).loops

/-- What the linker returns: the refusals and the manifest. -/
structure Linked where
  errors : List LinkError
  components : List Entry
  loadOrder : List String

/-- `_link`, with a sink for its refusals. -/
def linkEntries (entries : List Entry) : Linked where
  errors := bootErrors entries ++ (providers entries).2.map .provision ++ routeErrors entries ++
    selfErrors entries ++ (loops entries).map .cycle
  components := entries
  loadOrder := Kahn.order (edges entries) (entries.map Entry.name)

namespace Links

variable (links : Links)

/-- The components of the composition as they are, boot marks included. -/
def members : List Entry :=
  links.running ++ (links.components.filter fun comp => decide (comp.name ∉ links.templates)).map
    componentEntry

/-- The entries the linker builds. -/
def entries : List Entry :=
  links.running.map ambientEntry ++
    (links.components.filter fun comp => decide (comp.name ∉ links.templates)).map componentEntry

/-- `_link`, with a sink. -/
def link : Linked := linkEntries links.entries

/-- `_link` without a sink: the first refusal is raised. -/
def linkOrRaise : Except LinkError Linked :=
  match links.link.errors with
  | error :: _ => .error error
  | [] => .ok links.link

end Links

/-! ## What a composition to accept is -/

/-- No key and realm are provided twice. -/
def Disjoint (members : List Entry) : Prop := ((provisions members).map Prod.fst).Nodup

/-- Every routed realm has a provider of its key. -/
def Routed (members : List Entry) : Prop :=
  ∀ entry ∈ members, ∀ keyed ∈ entry.routes, ∀ realm ∈ keyed.2.realms,
    ∃ provider ∈ members, Provides provider (keyed.1, realm)

/-- No entry requires what it provides in the same realm. -/
def NoSelf (members : List Entry) : Prop :=
  ∀ entry ∈ members, ∀ place, Requires entry place → ¬ Provides entry place

/-- At most one component is the boot component. -/
def OneBoot (members : List Entry) : Prop := (members.filter Entry.boot).length ≤ 1

/-- An entry provides what another one requires. -/
def Feeds (members : List Entry) (provider consumer : String) : Prop :=
  ∃ p ∈ members, ∃ c ∈ members, p.name = provider ∧ c.name = consumer ∧ provider ≠ consumer ∧
    ∃ place, Requires c place ∧ Provides p place

/-- No requirement waits for itself. -/
def Acyclic (members : List Entry) : Prop :=
  ∀ a, ¬ Relation.TransGen (Feeds members) a a

/-- The compositions to accept. -/
structure Composed (members : List Entry) : Prop where
  disjoint : Disjoint members
  routed : Routed members
  noSelf : NoSelf members
  oneBoot : OneBoot members
  acyclic : Acyclic members

/-- A key that is not routed is not provided to the entry itself. -/
def NoPlainSelf (members : List Entry) : Prop :=
  ∀ entry ∈ members, ∀ key ∈ entry.inject, Assoc.get? entry.routes key = none →
    key ∉ entry.provides

/-- No entry routes a key to a realm it provides the key in. -/
def NoRoutedSelf (members : List Entry) : Prop :=
  ∀ entry ∈ members, ∀ key ∈ entry.inject, ∀ route, Assoc.get? entry.routes key = some route →
    key ∈ entry.provides → realmOf entry key ∉ route.realms

theorem noSelf_iff {members : List Entry} :
    NoSelf members ↔ NoPlainSelf members ∧ NoRoutedSelf members := by
  constructor
  · intro h
    refine ⟨fun entry hentry key hkey hroute hprov => ?_, fun entry hentry key hkey route hroute
      hprov hrealm => ?_⟩
    · refine h entry hentry (key, realmOf entry key) ⟨key, hkey, ?_⟩ ⟨hprov, rfl⟩
      rw [targets, hroute]
      exact List.mem_singleton.mpr rfl
    · refine h entry hentry (key, realmOf entry key) ⟨key, hkey, ?_⟩ ⟨hprov, rfl⟩
      rw [targets, hroute]
      exact List.mem_map.mpr ⟨_, hrealm, rfl⟩
  · rintro ⟨hplain, hrouted⟩ entry hentry place ⟨key, hkey, htarget⟩ ⟨hprov, hrealm⟩
    unfold targets at htarget
    cases hroute : Assoc.get? entry.routes key with
    | none =>
      rw [hroute, List.mem_singleton] at htarget
      rw [htarget] at hprov
      exact hplain entry hentry key hkey hroute hprov
    | some route =>
      rw [hroute] at htarget
      obtain ⟨realm, hmem, rfl⟩ := List.mem_map.mp htarget
      exact hrouted entry hentry key hkey route hroute hprov (hrealm ▸ hmem)

/-! ## The boot marks aside -/

section Ambient

variable {members : List Entry}

theorem exists_ambient {P : Entry → Prop} :
    (∃ entry ∈ members.map ambientEntry, P entry) ↔ ∃ entry ∈ members, P (ambientEntry entry) := by
  simp

/-- The boot mark is no part of what is provided and required. -/
theorem provisions_ambient : provisions (members.map ambientEntry) = provisions members := by
  rw [provisions, List.flatMap_map]
  rfl

theorem disjoint_ambient : Disjoint (members.map ambientEntry) ↔ Disjoint members := by
  rw [Disjoint, provisions_ambient, Disjoint]

theorem routed_ambient : Routed (members.map ambientEntry) ↔ Routed members := by
  simp only [Routed, List.forall_mem_map, exists_ambient]
  rfl

theorem noPlainSelf_ambient : NoPlainSelf (members.map ambientEntry) ↔ NoPlainSelf members := by
  simp only [NoPlainSelf, List.forall_mem_map]
  rfl

theorem feeds_ambient {provider consumer : String} :
    Feeds (members.map ambientEntry) provider consumer ↔ Feeds members provider consumer := by
  simp only [Feeds, exists_ambient]
  rfl

end Ambient

/-! ## What is refused -/

section Refused

variable {entries : List Entry}

theorem bootErrors_eq_nil_iff : bootErrors entries = [] ↔ OneBoot entries := by
  unfold bootErrors OneBoot
  simp only [List.length_map, ite_eq_right_iff, List.cons_ne_nil, imp_false]
  omega

theorem providerOf_eq_none_iff {place : Place} :
    providerOf entries place = none ↔ ¬ ∃ entry ∈ entries, Provides entry place := by
  rw [← provider_isSome_iff]
  cases providerOf entries place <;> simp

theorem routeErrors_eq_nil_iff : routeErrors entries = [] ↔ Routed entries := by
  simp only [routeErrors, Routed, List.flatMap_eq_nil_iff, List.map_eq_nil_iff,
    List.filter_eq_nil_iff, decide_eq_true_eq, providerOf_eq_none_iff, not_not]

variable (hdisjoint : Disjoint entries) (hnames : (entries.map Entry.name).Nodup)

include hdisjoint in
/-- With one provider for each place, whoever provides it is the one the table holds. -/
theorem providerOf_of_provides {entry : Entry} (hentry : entry ∈ entries) {place : Place}
    (h : Provides entry place) : providerOf entries place = some entry.name := by
  have hmem : (place, entry.name) ∈ provisions entries :=
    mem_provisions.mpr ⟨entry, hentry, rfl, h⟩
  obtain ⟨first, hfirst⟩ := exists_first hmem
  rw [provider_iff.mpr hfirst]
  have := List.inj_on_of_nodup_map hdisjoint hmem hfirst.mem rfl
  rw [(Prod.mk.inj this).2]

include hnames in
theorem eq_of_name {a b : Entry} (ha : a ∈ entries) (hb : b ∈ entries) (h : a.name = b.name) :
    a = b := List.inj_on_of_nodup_map hnames ha hb h

include hdisjoint in
theorem providerOf_eq_some_iff {place : Place} {name : String} :
    providerOf entries place = some name ↔
      ∃ entry ∈ entries, entry.name = name ∧ Provides entry place := by
  constructor
  · exact providerOf_mem
  · rintro ⟨entry, hentry, rfl, h⟩
    exact providerOf_of_provides hdisjoint hentry h

include hdisjoint hnames in
theorem selfErrors_eq_nil_iff : selfErrors entries = [] ↔ NoPlainSelf entries := by
  simp only [selfErrors, NoPlainSelf, List.flatMap_eq_nil_iff, List.map_eq_nil_iff,
    List.filter_eq_nil_iff, decide_eq_true_eq, not_and]
  refine forall₂_congr fun entry hentry => forall₂_congr fun key _ => imp_congr_right fun _ => ?_
  rw [not_iff_not, providerOf_eq_some_iff hdisjoint]
  constructor
  · rintro ⟨other, hother, hname, hprov, -⟩
    rwa [eq_of_name hnames hother hentry hname] at hprov
  · exact fun hprov => ⟨entry, hentry, rfl, hprov, rfl⟩

/-- The edges, read off the table. -/
theorem mem_edges {provider consumer : String} : (provider, consumer) ∈ edges entries ↔
    ∃ entry ∈ entries, entry.name = consumer ∧ provider ≠ consumer ∧
      ∃ place, Requires entry place ∧ providerOf entries place = some provider := by
  have hkey : ∀ (entry : Entry) (key : String), (provider, consumer) ∈ keyEdges entries entry key ↔
      ∃ place ∈ targets entry key, providerOf entries place = some provider ∧
        entry.name = consumer ∧ provider ≠ consumer := by
    intro entry key
    unfold keyEdges
    rw [List.mem_flatMap]
    refine exists_congr fun place => and_congr_right fun _ => ?_
    cases hget : providerOf entries place with
    | none => simp
    | some name =>
      simp only [Option.some.injEq]
      by_cases hself : name = entry.name
      · subst hself
        simp only [if_true, List.not_mem_nil, false_iff, not_and]
        rintro rfl rfl
        simp
      · rw [if_neg hself, List.mem_singleton, Prod.mk.injEq]
        constructor
        · rintro ⟨rfl, rfl⟩
          exact ⟨rfl, rfl, hself⟩
        · rintro ⟨rfl, rfl, -⟩
          exact ⟨rfl, rfl⟩
  simp only [edges, List.mem_flatMap, hkey]
  constructor
  · rintro ⟨entry, hentry, key, hmem, place, htarget, hget, hname, hne⟩
    exact ⟨entry, hentry, hname, hne, place, ⟨key, hmem, htarget⟩, hget⟩
  · rintro ⟨entry, hentry, hname, hne, place, ⟨key, hmem, htarget⟩, hget⟩
    exact ⟨entry, hentry, key, hmem, place, htarget, hget, hname, hne⟩

theorem edges_names : ∀ edge ∈ edges entries,
    edge.1 ∈ entries.map Entry.name ∧ edge.2 ∈ entries.map Entry.name := by
  rintro ⟨provider, consumer⟩ hedge
  obtain ⟨entry, hentry, rfl, -, place, -, hget⟩ := mem_edges.mp hedge
  obtain ⟨other, hother, rfl, -⟩ := providerOf_mem hget
  exact ⟨List.mem_map_of_mem hother, List.mem_map_of_mem hentry⟩

include hdisjoint in
/-- **The edges are what feeds what.** -/
theorem feeds_iff {provider consumer : String} :
    Feeds entries provider consumer ↔ (provider, consumer) ∈ edges entries := by
  rw [mem_edges]
  simp only [providerOf_eq_some_iff hdisjoint]
  constructor
  · rintro ⟨p, hp, c, hc, hprovider, hconsumer, hne, place, hreq, hprov⟩
    exact ⟨c, hc, hconsumer, hne, place, hreq, p, hp, hprovider, hprov⟩
  · rintro ⟨c, hc, hconsumer, hne, place, hreq, p, hp, hprovider, hprov⟩
    exact ⟨p, hp, c, hc, hprovider, hconsumer, hne, place, hreq, hprov⟩

/-- The successors the search follows stay among the entries. -/
theorem graph_closed : ∀ a ∈ entries.map Entry.name, ∀ b ∈ Kahn.graph (edges entries) a,
    b ∈ entries.map Entry.name :=
  fun _ _ _ hb => (edges_names _ (Kahn.mem_graph.mp hb)).2

theorem step_eq : CycleSearch.Step (Kahn.graph (edges entries)) = Kahn.Step (edges entries) := by
  funext a b
  exact propext Kahn.mem_graph

include hdisjoint in
theorem feeds_eq : Feeds entries = Kahn.Step (edges entries) := by
  funext a b
  exact propext (feeds_iff hdisjoint)

include hdisjoint in
theorem loops_eq_nil_iff : loops entries = [] ↔ Acyclic entries := by
  rw [loops, CycleSearch.search_eq_nil_iff graph_closed
    (fun a b hb => (edges_names _ (Kahn.mem_graph.mp hb)).1), CycleSearch.Acyclic, step_eq,
    Acyclic, feeds_eq hdisjoint]

/-- What an accepted list of entries is. -/
structure Accepted (entries : List Entry) : Prop where
  oneBoot : OneBoot entries
  disjoint : Disjoint entries
  routed : Routed entries
  noPlainSelf : NoPlainSelf entries
  acyclic : Acyclic entries

include hnames in
/-- **What the linker accepts.** -/
theorem errors_eq_nil_iff : (linkEntries entries).errors = [] ↔ Accepted entries := by
  have hconflicts : (providers entries).2 = [] ↔ Disjoint entries := conflicts_eq_nil_iff _
  simp only [linkEntries, List.append_eq_nil_iff, List.map_eq_nil_iff, bootErrors_eq_nil_iff,
    routeErrors_eq_nil_iff, hconflicts]
  constructor
  · rintro ⟨⟨⟨⟨hboot, hdisjoint⟩, hrouted⟩, hself⟩, hloops⟩
    exact ⟨hboot, hdisjoint, hrouted, (selfErrors_eq_nil_iff hdisjoint hnames).mp hself,
      (loops_eq_nil_iff hdisjoint).mp hloops⟩
  · rintro ⟨hboot, hdisjoint, hrouted, hself, hacyclic⟩
    exact ⟨⟨⟨⟨hboot, hdisjoint⟩, hrouted⟩, (selfErrors_eq_nil_iff hdisjoint hnames).mpr hself⟩,
      (loops_eq_nil_iff hdisjoint).mpr hacyclic⟩

include hnames in
/-- **The load order of an accepted list of entries** lists every entry once, each provider
before what it feeds. -/
theorem Accepted.loadOrder (h : Accepted entries) :
    (linkEntries entries).loadOrder.Perm (entries.map Entry.name) ∧
      ∀ provider consumer, Feeds entries provider consumer →
        (linkEntries entries).loadOrder.idxOf provider <
          (linkEntries entries).loadOrder.idxOf consumer := by
  have hacyclic := h.acyclic
  rw [Acyclic, feeds_eq h.disjoint] at hacyclic
  have hperm := Kahn.order_perm hnames edges_names hacyclic
  refine ⟨hperm, fun provider consumer hfeeds => ?_⟩
  have hedge := (feeds_iff h.disjoint).mp hfeeds
  exact (Kahn.order_before hnames edges_names hedge
    (hperm.mem_iff.mpr (edges_names _ hedge).2)).2

end Refused

/-! ## The whole linker -/

namespace Links

variable (links : Links)

theorem entries_ambient : links.entries.map ambientEntry = links.members.map ambientEntry := by
  unfold entries members
  rw [List.map_append, List.map_append, List.map_map]
  rfl

theorem entries_names_nodup : (links.entries.map Entry.name).Nodup := by
  have hnames : links.entries.map Entry.name = links.running.map Entry.name ++
      (links.components.filter fun comp => decide (comp.name ∉ links.templates)).map
        Component.name := by
    unfold entries
    rw [List.map_append, List.map_map, List.map_map]
    rfl
  rw [hnames]
  exact links.names_nodup.sublist (List.Sublist.append_left (List.filter_sublist.map _) _)

variable {links}

theorem disjoint_iff : Disjoint links.entries ↔ Disjoint links.members := by
  rw [← disjoint_ambient, entries_ambient, disjoint_ambient]

theorem routed_iff : Routed links.entries ↔ Routed links.members := by
  rw [← routed_ambient, entries_ambient, routed_ambient]

theorem noPlainSelf_iff : NoPlainSelf links.entries ↔ NoPlainSelf links.members := by
  rw [← noPlainSelf_ambient, entries_ambient, noPlainSelf_ambient]

theorem feeds_members_iff {provider consumer : String} :
    Feeds links.entries provider consumer ↔ Feeds links.members provider consumer := by
  rw [← feeds_ambient, entries_ambient, feeds_ambient]

theorem acyclic_iff : Acyclic links.entries ↔ Acyclic links.members := by
  have hfeeds : Feeds links.entries = Feeds links.members := by
    funext a b
    exact propext feeds_members_iff
  rw [Acyclic, Acyclic, hfeeds]

/-- A running component is copied without its mark, so no more are counted than there are. -/
theorem oneBoot_entries (h : OneBoot links.members) : OneBoot links.entries := by
  unfold OneBoot members entries at *
  rw [List.filter_append, List.length_append] at *
  have hrunning : (links.running.map ambientEntry).filter Entry.boot = [] := by
    rw [List.filter_eq_nil_iff]
    intro entry hentry
    obtain ⟨amb, -, rfl⟩ := List.mem_map.mp hentry
    simp [ambientEntry]
  rw [hrunning, List.length_nil]
  omega

/-- What the linker accepts is composed, the boot marks and the routed keys aside. -/
theorem composed_iff : Composed links.members ↔
    Accepted links.entries ∧ OneBoot links.members ∧ NoRoutedSelf links.members := by
  constructor
  · rintro ⟨hdisjoint, hrouted, hself, hboot, hacyclic⟩
    obtain ⟨hplain, hroutedSelf⟩ := noSelf_iff.mp hself
    exact ⟨⟨oneBoot_entries hboot, disjoint_iff.mpr hdisjoint, routed_iff.mpr hrouted,
      noPlainSelf_iff.mpr hplain, acyclic_iff.mpr hacyclic⟩, hboot, hroutedSelf⟩
  · rintro ⟨⟨-, hdisjoint, hrouted, hplain, hacyclic⟩, hboot, hroutedSelf⟩
    exact ⟨disjoint_iff.mp hdisjoint, routed_iff.mp hrouted,
      noSelf_iff.mpr ⟨noPlainSelf_iff.mp hplain, hroutedSelf⟩, hboot, acyclic_iff.mp hacyclic⟩

/-- **Without a sink the linker accepts what it reports nothing of with one.** -/
theorem linkOrRaise_eq_ok_iff {linked : Linked} :
    links.linkOrRaise = .ok linked ↔ links.link.errors = [] ∧ links.link = linked := by
  unfold linkOrRaise
  cases links.link.errors <;> simp

/-- A refusal of a provision stands for a further provider of its place. -/
theorem provision_mem_errors_iff {conflict : Conflict} :
    LinkError.provision conflict ∈ links.link.errors ↔ ∃ before after,
      provisions links.members = before ++ (conflict.place, conflict.further) :: after ∧
        First before conflict.place conflict.first := by
  have hsame : provisions links.entries = provisions links.members := by
    rw [← provisions_ambient, entries_ambient, provisions_ambient]
  rw [← hsame, ← (providers_registered links.entries).conflicts]
  simp [link, linkEntries, bootErrors, routeErrors, selfErrors]

theorem cycle_mem_errors_iff {loop : List String} :
    LinkError.cycle loop ∈ links.link.errors ↔ loop ∈ loops links.entries := by
  simp [link, linkEntries, bootErrors, routeErrors, selfErrors]

/-- No loop is reported twice. -/
theorem cycle_count_le (links : Links) (loop : List String) :
    links.link.errors.count (.cycle loop) ≤ 1 := by
  have hnodup : ((loops links.entries).map LinkError.cycle).Nodup :=
    (CycleSearch.search_nodup graph_closed).map fun _ _ h => LinkError.cycle.inj h
  rw [link, linkEntries, List.count_append, List.count_eq_zero.mpr ?_, Nat.zero_add]
  · exact List.nodup_iff_count_le_one.mp hnodup _
  · simp [bootErrors, routeErrors, selfErrors]

/-- The edges of the composition, to a place's first provider. -/
def graph (links : Links) : String → List String := Kahn.graph (edges links.entries)

/-- Two loops through components that wait for the given one and are waited for by it, with no
component in common. -/
def LoopsApart (links : Links) (name : String) : Prop :=
  ∃ loop loop', CycleSearch.Loop links.graph loop ∧ CycleSearch.Loop links.graph loop' ∧
    (∀ a ∈ loop, CycleSearch.Together links.graph a name) ∧
      (∀ a ∈ loop', CycleSearch.Together links.graph a name) ∧ List.Disjoint loop loop'

end Links

/-- **The linker accepts exactly the disjoint acyclic compositions, unless a boot mark or a
routed key is lost.** It reports nothing exactly of a composition to accept, exactly where a
composition that is accepted otherwise has at most one boot component, running ones included, and
no entry that routes a key to a realm it provides the key in. The load order of an accepted
composition lists every entry once, each provider before what it feeds. Into a sink it reports
every further provider of a place, and for every component that waits for itself a loop among
the components that wait for each other with it, once and no other where those have no two loops
without a component in common. -/
theorem link_exact (links : Links) :
    ((links.link.errors = [] ↔ Composed links.members) ↔
        (Accepted links.entries → OneBoot links.members ∧ NoRoutedSelf links.members)) ∧
      (links.link.errors = [] → links.link.loadOrder.Perm (links.entries.map Entry.name) ∧
        ∀ provider consumer, Feeds links.members provider consumer →
          links.link.loadOrder.idxOf provider < links.link.loadOrder.idxOf consumer) ∧
      (∀ conflict, LinkError.provision conflict ∈ links.link.errors ↔ ∃ before after,
        provisions links.members = before ++ (conflict.place, conflict.further) :: after ∧
          First before conflict.place conflict.first) ∧
      ∀ name, Relation.TransGen (CycleSearch.Step links.graph) name name →
        (∃ loop, LinkError.cycle loop ∈ links.link.errors ∧
          ∀ a ∈ loop, CycleSearch.Together links.graph a name) ∧
        (¬ links.LoopsApart name → ∃! loop, LinkError.cycle loop ∈ links.link.errors ∧
          ∀ a ∈ loop, CycleSearch.Together links.graph a name) ∧
        ∀ loop, links.link.errors.count (.cycle loop) ≤ 1 := by
  have haccepted := errors_eq_nil_iff links.entries_names_nodup
  refine ⟨?_, fun hnil => ?_, fun _ => Links.provision_mem_errors_iff, fun name hcycle => ?_⟩
  · rw [Links.composed_iff, Links.link, haccepted]
    tauto
  · obtain ⟨hperm, hbefore⟩ := (haccepted.mp hnil).loadOrder links.entries_names_nodup
    exact ⟨hperm, fun provider consumer hfeeds =>
      hbefore provider consumer (Links.feeds_members_iff.mpr hfeeds)⟩
  · simp only [Links.cycle_mem_errors_iff]
    obtain ⟨b, hstep, -⟩ := Relation.TransGen.head'_iff.mp hcycle
    have hname := (edges_names _ (Kahn.mem_graph.mp hstep)).1
    refine ⟨CycleSearch.search_covers graph_closed hname hcycle, fun hmeet => ?_,
      Links.cycle_count_le links⟩
    refine CycleSearch.search_unique graph_closed hname hcycle ?_
    intro loop loop' hloop hloop' hall hall' hapart
    exact hmeet ⟨loop, loop', hloop, hloop', hall, hall', hapart⟩

/-- A running boot component, and one linked afresh. -/
def secondBoot : Links where
  running := [⟨"host", "host.revl", [], [], [], [], true⟩]
  components := [⟨"next", "next.revl", [], [], [], [], true⟩]
  templates := []
  names_nodup := by decide

/-- Four components in two loops that lead into each other. -/
def twoLoops : Links where
  running := []
  components :=
    [⟨"a", "a.revl", ["kb", "kd"], ["ka"], [], [], false⟩,
      ⟨"b", "b.revl", ["ka"], ["kb"], [], [], false⟩,
      ⟨"c", "c.revl", ["kb", "kd"], ["kc"], [], [], false⟩,
      ⟨"d", "d.revl", ["kc"], ["kd"], [], [], false⟩]
  templates := []
  names_nodup := by decide

/-- The second boot component is accepted, and both loops of one set of components that wait for
each other are reported. -/
theorem link_misses_boot : secondBoot.link.errors = [] ∧ ¬ Composed secondBoot.members ∧
    twoLoops.link.errors = [.cycle ["a", "b"], .cycle ["c", "d"]] ∧
    CycleSearch.Together twoLoops.graph "a" "c" := by
  refine ⟨by decide +kernel, fun h => ?_, by decide +kernel, ?_, ?_⟩
  · exact absurd h.oneBoot (by unfold OneBoot; decide)
  · exact .head (b := "b") (by decide +kernel) (.single (by decide +kernel))
  · exact .head (b := "d") (by decide +kernel) (.single (by decide +kernel))

end Revl.Link
