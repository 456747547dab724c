import Revl.Lib.Assoc

/-!
# Manifest entries and their providers (`lower.py`, `_link`)

A composition is a list of entries, each with the keys it requires and provides. Every key lives
in a realm: the one the entry isolates it into, or the shared one. A routed key is required in
every realm its route names.

- `Entry`, `Component`, `realmOf`: the entries of a manifest, and those lowered afresh.
- `register`, `providers`: the table of providers, one for each key and realm, and the
  provisions that came too late.
- `targets`: the keys and realms a required key asks for. `Feeds`: an entry provides what
  another one requires.
- `provider_iff`: **the table holds the first provider of each key and realm.**
-/

namespace Revl.Link

/-- A route of a key across realms, with its strategy. -/
structure Route where
  realms : List String
  strategy : Option String
  deriving DecidableEq, Repr

/-- One component of a manifest. -/
structure Entry where
  name : String
  file : String
  inject : List String
  provides : List String
  isolate : List (String × String)
  routes : List (String × Route)
  boot : Bool
  deriving DecidableEq, Repr

/-- One lowered component: the keys it requires and provides are those of maps. -/
structure Component where
  name : String
  source : String
  requires : List String
  provides : List String
  isolate : List (String × String)
  routes : List (String × Route)
  boot : Bool
  deriving DecidableEq, Repr

/-- The realm of a key nothing is isolated from. -/
def sharedRealm : String := ""

/-- The realm an entry resolves a key in. -/
def realmOf (entry : Entry) (key : String) : String :=
  (Assoc.get? entry.isolate key).getD sharedRealm

/-- The entry of a running component, as the linker copies it. -/
def ambientEntry (amb : Entry) : Entry := { amb with boot := false }

/-- The entry of a component that is linked afresh. -/
def componentEntry (comp : Component) : Entry where
  name := comp.name
  file := comp.source
  inject := comp.requires.insertionSort (· ≤ ·)
  provides := comp.provides.insertionSort (· ≤ ·)
  isolate := comp.isolate
  routes := comp.routes
  boot := comp.boot

/-! ## The table of providers -/

/-- A key in a realm. -/
abbrev Place := String × String

/-- The provisions of the entries, in order. -/
def provisions (entries : List Entry) : List (Place × String) :=
  entries.flatMap fun entry => entry.provides.map fun key => ((key, realmOf entry key), entry.name)

/-- A provision that came too late: the place, its first provider and the further one. -/
structure Conflict where
  place : Place
  first : String
  further : String
  deriving DecidableEq, Repr

/-- One provision: it is registered unless its place is taken. -/
def register (σ : List (Place × String) × List Conflict) (provision : Place × String) :
    List (Place × String) × List Conflict :=
  match Assoc.get? σ.1 provision.1 with
  | some first => (σ.1, σ.2 ++ [⟨provision.1, first, provision.2⟩])
  | none => (σ.1 ++ [provision], σ.2)

/-- The table of providers, and the conflicts. -/
def providers (entries : List Entry) : List (Place × String) × List Conflict :=
  (provisions entries).foldl register ([], [])

/-- `provider_of`. -/
def providerOf (entries : List Entry) (place : Place) : Option String :=
  Assoc.get? (providers entries).1 place

/-- The places a required key asks for: one for each realm of its route, or the one it resolves
in. -/
def targets (entry : Entry) (key : String) : List Place :=
  match Assoc.get? entry.routes key with
  | some route => route.realms.map fun realm => (key, realm)
  | none => [(key, realmOf entry key)]

/-- The entry asks for a place with one of its keys. -/
def Requires (entry : Entry) (place : Place) : Prop :=
  ∃ key ∈ entry.inject, place ∈ targets entry key

/-- The entry provides the key in the realm. -/
def Provides (entry : Entry) (place : Place) : Prop :=
  place.1 ∈ entry.provides ∧ realmOf entry place.1 = place.2

/-! ## Which provider the table holds -/

/-- The first provision of a place. -/
def First (provisions : List (Place × String)) (place : Place) (name : String) : Prop :=
  ∃ before after, provisions = before ++ (place, name) :: after ∧ ∀ p ∈ before, p.1 ≠ place

theorem mem_provisions {entries : List Entry} {place : Place} {name : String} :
    (place, name) ∈ provisions entries ↔ ∃ entry ∈ entries, entry.name = name ∧
      Provides entry place := by
  unfold provisions
  rw [List.mem_flatMap]
  refine exists_congr fun entry => and_congr_right fun _ => ?_
  rw [List.mem_map]
  constructor
  · rintro ⟨key, hkey, heq⟩
    obtain ⟨rfl, rfl⟩ := Prod.mk.inj heq
    exact ⟨rfl, hkey, rfl⟩
  · rintro ⟨rfl, hkey, hrealm⟩
    exact ⟨place.1, hkey, by rw [hrealm]⟩

/-- What registering the provisions seen so far leaves. -/
structure Registered (seen : List (Place × String)) (σ : List (Place × String) × List Conflict) :
    Prop where
  table : ∀ place name, Assoc.get? σ.1 place = some name ↔ First seen place name
  conflicts : ∀ conflict, conflict ∈ σ.2 ↔ ∃ before after,
    seen = before ++ (conflict.place, conflict.further) :: after ∧
      First before conflict.place conflict.first

theorem First.append {seen : List (Place × String)} {place : Place} {name : String}
    (h : First seen place name) (rest : List (Place × String)) :
    First (seen ++ rest) place name := by
  obtain ⟨before, after, rfl, hbefore⟩ := h
  exact ⟨before, after ++ rest, by simp, hbefore⟩

theorem First.mem {seen : List (Place × String)} {place : Place} {name : String}
    (h : First seen place name) : (place, name) ∈ seen := by
  obtain ⟨before, after, rfl, -⟩ := h
  exact List.mem_append_right _ List.mem_cons_self

theorem exists_first {seen : List (Place × String)} {place : Place} {name : String}
    (h : (place, name) ∈ seen) : ∃ first, First seen place first := by
  induction seen with
  | nil => cases h
  | cons provision seen ih =>
    by_cases hplace : provision.1 = place
    · refine ⟨provision.2, [], seen, ?_, fun _ h => absurd h List.not_mem_nil⟩
      rw [List.nil_append, ← hplace]
    · have hmem : (place, name) ∈ seen := by
        rcases List.mem_cons.mp h with rfl | h
        · exact absurd rfl hplace
        · exact h
      obtain ⟨first, before, after, rfl, hbefore⟩ := ih hmem
      refine ⟨first, provision :: before, after, rfl, fun p hp => ?_⟩
      rcases List.mem_cons.mp hp with rfl | hp
      · exact hplace
      · exact hbefore p hp

theorem First.unique {seen : List (Place × String)} {place : Place} {name name' : String}
    (h : First seen place name) (h' : First seen place name') : name = name' := by
  induction seen with
  | nil =>
    obtain ⟨before, after, heq, -⟩ := h
    exact absurd heq (by simp)
  | cons provision seen ih =>
    obtain ⟨before, after, heq, hbefore⟩ := h
    obtain ⟨before', after', heq', hbefore'⟩ := h'
    cases before with
    | nil =>
      obtain ⟨rfl, rfl⟩ := List.cons_eq_cons.mp heq
      cases before' with
      | nil =>
        obtain ⟨hp, -⟩ := List.cons_eq_cons.mp heq'
        exact (Prod.mk.inj hp).2
      | cons p before' =>
        obtain ⟨rfl, -⟩ := List.cons_eq_cons.mp heq'
        exact absurd rfl (hbefore' _ List.mem_cons_self)
    | cons p before =>
      obtain ⟨rfl, hrest⟩ := List.cons_eq_cons.mp heq
      cases before' with
      | nil =>
        obtain ⟨rfl, -⟩ := List.cons_eq_cons.mp heq'
        exact absurd rfl (hbefore _ List.mem_cons_self)
      | cons p' before' =>
        obtain ⟨-, hrest'⟩ := List.cons_eq_cons.mp heq'
        exact ih ⟨before, after, hrest, fun q hq => hbefore q (List.mem_cons_of_mem _ hq)⟩
          ⟨before', after', hrest', fun q hq => hbefore' q (List.mem_cons_of_mem _ hq)⟩

theorem first_concat_iff {seen : List (Place × String)} {provision : Place × String}
    {place : Place} {name : String} : First (seen ++ [provision]) place name ↔
      First seen place name ∨ (provision = (place, name) ∧ ∀ p ∈ seen, p.1 ≠ place) := by
  constructor
  · rintro ⟨before, after, heq, hbefore⟩
    rcases List.eq_nil_or_concat after with rfl | ⟨after, last, rfl⟩
    · obtain ⟨rfl, hlast⟩ := List.append_inj' heq rfl
      exact .inr ⟨(List.cons_eq_cons.mp hlast).1, hbefore⟩
    · rw [List.concat_eq_append, ← List.cons_append, ← List.append_assoc] at heq
      obtain ⟨rfl, -⟩ := List.append_inj' heq rfl
      exact .inl ⟨before, after, rfl, hbefore⟩
  · rintro (h | ⟨rfl, hseen⟩)
    · exact h.append _
    · exact ⟨seen, [], rfl, hseen⟩

/-- Registering one more provision. -/
theorem Registered.step {seen : List (Place × String)}
    {σ : List (Place × String) × List Conflict} (h : Registered seen σ)
    (provision : Place × String) : Registered (seen ++ [provision]) (register σ provision) := by
  have hold : ∀ (conflict : Conflict) (before after : List (Place × String)),
      seen ++ [provision] = before ++ (conflict.place, conflict.further) :: after →
      (∃ after', seen = before ++ (conflict.place, conflict.further) :: after') ∨
        (seen = before ∧ provision = (conflict.place, conflict.further)) := by
    intro conflict before after heq
    rcases List.eq_nil_or_concat after with rfl | ⟨after, last, rfl⟩
    · obtain ⟨rfl, hlast⟩ := List.append_inj' heq rfl
      exact .inr ⟨rfl, (List.cons_eq_cons.mp hlast).1⟩
    · rw [List.concat_eq_append, ← List.cons_append, ← List.append_assoc] at heq
      exact .inl ⟨after, (List.append_inj' heq rfl).1⟩
  unfold register
  cases hget : Assoc.get? σ.1 provision.1 with
  | some first =>
    have hfirst := (h.table _ _).mp hget
    refine ⟨fun place name => ?_, fun conflict => ?_⟩
    · rw [h.table, first_concat_iff]
      refine ⟨.inl, fun hcase => hcase.resolve_right ?_⟩
      rintro ⟨rfl, hseen⟩
      exact hseen _ hfirst.mem rfl
    · rw [List.mem_append, h.conflicts, List.mem_singleton]
      constructor
      · rintro (⟨before, after, rfl, hbefore⟩ | rfl)
        · exact ⟨before, after ++ [provision], by simp, hbefore⟩
        · exact ⟨seen, [], rfl, hfirst⟩
      · rintro ⟨before, after, heq, hbefore⟩
        rcases hold conflict before after heq with ⟨after', hseen⟩ | ⟨rfl, rfl⟩
        · exact .inl ⟨before, after', hseen, hbefore⟩
        · refine .inr ?_
          rw [hfirst.unique hbefore]
  | none =>
    have hnone : ∀ p ∈ seen, p.1 ≠ provision.1 := by
      intro p hp hplace
      obtain ⟨first, hfirst⟩ := exists_first (show (provision.1, p.2) ∈ seen from hplace ▸ hp)
      rw [(h.table _ _).mpr hfirst] at hget
      cases hget
    refine ⟨fun place name => ?_, fun conflict => ?_⟩
    · rw [Assoc.get?_append, Assoc.get?_cons, Assoc.get?_nil, Option.none_or, first_concat_iff,
        ← h.table]
      by_cases hplace : provision.1 = place
      · subst hplace
        simp only [if_true, Option.some_or, Option.some.injEq, hget, reduceCtorEq, false_or]
        constructor
        · rintro rfl
          exact ⟨rfl, hnone⟩
        · rintro ⟨heq, -⟩
          rw [heq]
      · rw [if_neg hplace, Option.none_or]
        refine ⟨.inl, fun hcase => hcase.resolve_right ?_⟩
        rintro ⟨rfl, -⟩
        exact hplace rfl
    · rw [h.conflicts]
      constructor
      · rintro ⟨before, after, rfl, hbefore⟩
        exact ⟨before, after ++ [provision], by simp, hbefore⟩
      · rintro ⟨before, after, heq, hbefore⟩
        rcases hold conflict before after heq with ⟨after', hseen⟩ | ⟨rfl, rfl⟩
        · exact ⟨before, after', hseen, hbefore⟩
        · exact (hnone (conflict.place, conflict.first) hbefore.mem rfl).elim

/-- **Registering every provision in turn**, by induction on the provisions seen. -/
theorem foldl_registered (seen : List (Place × String)) :
    Registered seen (seen.foldl register ([], [])) := by
  induction seen using List.reverseRecOn with
  | nil =>
    refine ⟨fun place name => ⟨fun h => (nomatch h), ?_⟩, fun conflict =>
      ⟨fun h => absurd h List.not_mem_nil, ?_⟩⟩
    · rintro ⟨before, after, heq, -⟩
      exact absurd heq (by simp)
    · rintro ⟨before, after, heq, -⟩
      exact absurd heq (by simp)
  | append_singleton seen provision ih =>
    rw [List.foldl_append, List.foldl_cons, List.foldl_nil]
    exact ih.step provision

theorem providers_registered (entries : List Entry) :
    Registered (provisions entries) (providers entries) := foldl_registered _

/-- Nothing conflicts exactly where no place is provided twice. -/
theorem conflicts_eq_nil_iff (seen : List (Place × String)) :
    (seen.foldl register ([], [])).2 = [] ↔ (seen.map Prod.fst).Nodup := by
  induction seen using List.reverseRecOn with
  | nil => simp
  | append_singleton seen provision ih =>
    rw [List.foldl_append, List.foldl_cons, List.foldl_nil, List.map_append, List.map_singleton,
      List.nodup_append_comm, List.singleton_append, List.nodup_cons, ← ih]
    have htable := (foldl_registered seen).table
    generalize seen.foldl register ([], []) = σ at htable ⊢
    unfold register
    cases hget : Assoc.get? σ.1 provision.1 with
    | some first =>
      have hmem := List.mem_map_of_mem (f := Prod.fst) ((htable _ _).mp hget).mem
      simp [hmem]
    | none =>
      have hnot : provision.1 ∉ seen.map Prod.fst := by
        intro hmem
        obtain ⟨p, hp, hplace⟩ := List.mem_map.mp hmem
        obtain ⟨first, hfirst⟩ := exists_first (show (provision.1, p.2) ∈ seen from hplace ▸ hp)
        rw [(htable _ _).mpr hfirst] at hget
        cases hget
      simp [hnot]

/-- **The table holds the first provider of each key and realm.** -/
theorem provider_iff {entries : List Entry} {place : Place} {name : String} :
    providerOf entries place = some name ↔ First (provisions entries) place name :=
  (providers_registered entries).table place name

theorem provider_isSome_iff {entries : List Entry} {place : Place} :
    (∃ name, providerOf entries place = some name) ↔ ∃ entry ∈ entries, Provides entry place := by
  constructor
  · rintro ⟨name, h⟩
    obtain ⟨entry, hmem, -, hrest⟩ := mem_provisions.mp (provider_iff.mp h).mem
    exact ⟨entry, hmem, hrest⟩
  · rintro ⟨entry, hmem, hrest⟩
    obtain ⟨first, hfirst⟩ := exists_first (mem_provisions.mpr ⟨entry, hmem, rfl, hrest⟩)
    exact ⟨first, provider_iff.mpr hfirst⟩

theorem providerOf_mem {entries : List Entry} {place : Place} {name : String}
    (h : providerOf entries place = some name) : ∃ entry ∈ entries, entry.name = name ∧
      Provides entry place :=
  mem_provisions.mp (provider_iff.mp h).mem

end Revl.Link
