import Revl.Lib.Dict

/-!
# Place/transition nets (`petri.py`)

A net is a list of transitions, each with its consume, produce and read arcs. A marking puts tokens
on places; it is known by its canonical form, the sorted places that hold any.

- `Transition`, `enabled`, `fire`: the arcs, and what a transition does.
- `Net`, `Fires`, `Reach`: the markings a net reaches.
- `canon_eq_iff`: markings have the same canonical form exactly where every place holds the same.
- `tokens_fire`: what a place holds after a transition.
-/

namespace Revl.Petri

/-- Tokens on places; a place that is not there holds none. -/
abbrev Marking := Dict String Int

/-- `marking.get(place, 0)` -/
def tokens (m : Marking) (place : String) : Int := (m.get? place).getD 0

/-- A canonical form: the places that hold tokens, in order. -/
abbrev Canon := List (String × Int)

/-- The canonical form of a marking. -/
def canon (m : Marking) : Canon :=
  (m.entries.filter fun p => decide (p.2 ≠ 0)).insertionSort fun p q => p.1 ≤ q.1

/-- The weights of the arcs of one kind. -/
abbrev Arcs := Dict String Nat

/-- The weight of the arc from or to a place. -/
def weight (arcs : Arcs) (place : String) : Nat := (arcs.get? place).getD 0

structure Transition where
  id : String
  consume : Arcs
  produce : Arcs
  read : Arcs

/-- Every place of the arcs holds their weight. -/
def covered (m : Marking) (arcs : Arcs) : Bool :=
  arcs.entries.all fun arc => decide ((arc.2 : Int) ≤ tokens m arc.1)

/-- Every consumed and every read place holds its weight. -/
def Transition.enabled (t : Transition) (m : Marking) : Bool :=
  covered m t.consume && covered m t.read

/-- Each place of the arcs changed by their weight. -/
def move (f : Int → Nat → Int) (arcs : Arcs) (m : Marking) : Marking :=
  arcs.entries.foldl (fun out arc => out.set arc.1 (f (tokens out arc.1) arc.2)) m

/-- The marking after the transition fired; read arcs move nothing. -/
def Transition.fire (t : Transition) (m : Marking) : Marking :=
  (move (fun n w => n + w) t.produce (move (fun n w => n - w) t.consume m)).filter
    fun n => decide (n ≠ 0)

/-- A net is its transitions. -/
structure Net where
  transitions : List Transition

namespace Net

variable (net : Net)

/-- The places on some arc. -/
def places : List String :=
  (net.transitions.flatMap fun t =>
    t.consume.entries.map Prod.fst ++ t.produce.entries.map Prod.fst ++
      t.read.entries.map Prod.fst).dedup

/-- The transitions enabled, in the order of their declaration. -/
def enabled (m : Marking) : List Transition := net.transitions.filter fun t => t.enabled m

/-- An enabled transition fires. -/
def Fires (m m' : Marking) : Prop := ∃ t ∈ net.transitions, t.enabled m = true ∧ m' = t.fire m

/-- A firing sequence leads from one marking to the other. -/
def Reach : Marking → Marking → Prop := Relation.ReflTransGen net.Fires

/-- No transition is enabled. -/
def Dead (m : Marking) : Prop := ∀ t ∈ net.transitions, t.enabled m = false

theorem mem_enabled {m : Marking} {t : Transition} :
    t ∈ net.enabled m ↔ t ∈ net.transitions ∧ t.enabled m = true := List.mem_filter

theorem dead_iff {m : Marking} : net.Dead m ↔ net.enabled m = [] := by
  rw [enabled, List.filter_eq_nil_iff]
  simp only [Dead, Bool.not_eq_true]

end Net

/-! ## Canonical forms -/

theorem canon_keysSorted (m : Marking) : Assoc.KeysSorted (canon m) := by
  have hle : (canon m).Pairwise fun p q => p.1 ≤ q.1 :=
    List.pairwise_insertionSort (fun p q : String × Int => p.1 ≤ q.1) _
  have hperm : (canon m).Perm (m.entries.filter fun p => decide (p.2 ≠ 0)) :=
    List.perm_insertionSort _ _
  have hnodup : ((m.entries.filter fun p => decide (p.2 ≠ 0)).map Prod.fst).Nodup :=
    m.nodup.sublist (List.filter_sublist.map _)
  have hne : (canon m).Pairwise fun p q => p.1 ≠ q.1 :=
    List.pairwise_map.mp ((hperm.map Prod.fst).nodup_iff.mpr hnodup)
  exact (hle.and hne).imp fun ⟨h, h'⟩ => lt_of_le_of_ne h h'

theorem mem_canon {m : Marking} {place : String} {n : Int} :
    (place, n) ∈ canon m ↔ tokens m place = n ∧ n ≠ 0 := by
  rw [canon, List.mem_insertionSort, List.mem_filter, decide_eq_true_eq, tokens]
  constructor
  · rintro ⟨hmem, hne⟩
    rw [Dict.get?_eq_some_iff.mpr hmem]
    exact ⟨rfl, hne⟩
  · rintro ⟨htokens, hne⟩
    cases hget : m.get? place with
    | none =>
      rw [hget] at htokens
      exact absurd htokens.symm hne
    | some k =>
      rw [hget] at htokens
      obtain rfl : k = n := htokens
      exact ⟨Dict.get?_eq_some_iff.mp hget, hne⟩

theorem canon_get? {m : Marking} (place : String) :
    Assoc.get? (canon m) place = if tokens m place = 0 then none else some (tokens m place) := by
  refine Option.ext fun n => ?_
  rw [Assoc.get?_eq_some_iff (canon_keysSorted m).nodup, mem_canon]
  by_cases hzero : tokens m place = 0
  · rw [if_pos hzero, hzero]
    exact ⟨fun ⟨h, hne⟩ => absurd h.symm hne, nofun⟩
  · rw [if_neg hzero]
    constructor
    · rintro ⟨rfl, -⟩
      rfl
    · intro h
      obtain rfl := Option.some.inj h
      exact ⟨rfl, hzero⟩

/-- **The canonical form is what the places hold.** -/
theorem canon_eq_iff {m m' : Marking} :
    canon m = canon m' ↔ ∀ place, tokens m place = tokens m' place := by
  constructor
  · intro h place
    have hget := congrArg (Assoc.get? · place) h
    simp only [canon_get?] at hget
    by_cases hzero : tokens m place = 0 <;> by_cases hzero' : tokens m' place = 0
    · rw [hzero, hzero']
    · rw [if_pos hzero, if_neg hzero'] at hget
      cases hget
    · rw [if_neg hzero, if_pos hzero'] at hget
      cases hget
    · rw [if_neg hzero, if_neg hzero'] at hget
      exact Option.some.inj hget
  · intro h
    refine Assoc.eq_of_sorted_get? (canon_keysSorted m) (canon_keysSorted m') fun place => ?_
    rw [canon_get?, canon_get?, h place]

/-! ## Firing -/

theorem tokens_set (m : Marking) (place : String) (n : Int) (p : String) :
    tokens (m.set place n) p = if p = place then n else tokens m p := by
  rw [tokens, Dict.get?_set]
  by_cases h : p = place
  · rw [if_pos h, if_pos h]
    rfl
  · rw [if_neg h, if_neg h]
    rfl

theorem tokens_move {f : Int → Nat → Int} (hf : ∀ n, f n 0 = n) (arcs : Arcs) (m : Marking)
    (place : String) : tokens (move f arcs m) place = f (tokens m place) (weight arcs place) := by
  obtain ⟨entries, hnodup⟩ := arcs
  unfold move weight Dict.get?
  simp only
  induction entries generalizing m with
  | nil => exact (hf _).symm
  | cons arc entries ih =>
    rw [List.map_cons, List.nodup_cons] at hnodup
    rw [List.foldl_cons, ih _ hnodup.2, tokens_set, Assoc.get?_cons]
    by_cases h : place = arc.1
    · have hnone : Assoc.get? entries place = none :=
        Assoc.get?_eq_none_iff.mpr fun w hw =>
          hnodup.1 (List.mem_map.mpr ⟨_, hw, h⟩)
      rw [if_pos h, if_pos h.symm, hnone, Option.getD_none, hf, h]
      rfl
    · rw [if_neg h, if_neg (Ne.symm h), Option.or_none]

theorem tokens_filter (m : Marking) (place : String) :
    tokens (m.filter fun n => decide (n ≠ 0)) place = tokens m place := by
  rw [tokens, Dict.get?_filter, tokens]
  cases m.get? place with
  | none => rfl
  | some n =>
    by_cases h : n = 0
    · rw [Option.filter_some, h]
      rfl
    · rw [Option.filter_some, decide_eq_true h]
      rfl

/-- **What a place holds after a transition.** -/
theorem tokens_fire (t : Transition) (m : Marking) (place : String) :
    tokens (t.fire m) place = tokens m place - weight t.consume place + weight t.produce place := by
  rw [Transition.fire, tokens_filter, tokens_move fun n => by simp, tokens_move fun n => by simp]

theorem covered_iff {m : Marking} {arcs : Arcs} : covered m arcs = true ↔
    ∀ place w, arcs.get? place = some w → (w : Int) ≤ tokens m place := by
  simp only [covered, List.all_eq_true, decide_eq_true_eq, Dict.get?_eq_some_iff]
  exact ⟨fun h place w hmem => h (place, w) hmem, fun h arc hmem => h arc.1 arc.2 hmem⟩

theorem covered_congr {m m' : Marking} (h : ∀ place, tokens m place = tokens m' place)
    (arcs : Arcs) : covered m arcs = covered m' arcs := by
  rw [Bool.eq_iff_iff, covered_iff, covered_iff]
  simp only [h]

/-- Markings of one canonical form enable the same transitions. -/
theorem enabled_congr {m m' : Marking} (h : canon m = canon m') (t : Transition) :
    t.enabled m = t.enabled m' := by
  have htokens := canon_eq_iff.mp h
  rw [Transition.enabled, Transition.enabled, covered_congr htokens, covered_congr htokens]

/-- They lead to markings of one canonical form. -/
theorem fire_congr {m m' : Marking} (h : canon m = canon m') (t : Transition) :
    canon (t.fire m) = canon (t.fire m') := by
  refine canon_eq_iff.mpr fun place => ?_
  rw [tokens_fire, tokens_fire, canon_eq_iff.mp h]

end Revl.Petri
