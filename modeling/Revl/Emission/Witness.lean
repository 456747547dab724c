import Revl.Lib.Derivation
import Revl.Emission.Capabilities
import Revl.Types.Compatible

/-!
# The evidence behind emission and async color (`emission_analysis.py`)

Both fixed points fill a `witness` map as they run: for each name they derive, the callee, value
reference or async parameter that put it there. `_emission_chain` follows it to the crossing.

- `Program`: functions and externs under one namespace, which no parameter that is called shares.
- `colorVisit`, `asyncCallables`: the async twin.
- `emittingRules`, `asyncRules`: both as rules of one closure.
- `evidence_exact`: **a chain is a derivation**, and when it is a shortest one.
-/

namespace Revl.Emission

open Fixpoint Derivation Typecheck

/-- A parameter: its name, and its declared type as it parses. -/
structure Param where
  name : String
  type : Option Ty

/-- A lowered function with its parameters. -/
structure FnDecl extends Fn where
  params : List Param

/-- A lowered extern with its color. -/
structure ExternDecl extends Extern where
  async : Bool

/-- `_is_async_fn_type` -/
def isAsyncFnType : Option Ty → Bool
  | none => false
  | some t =>
    t.head == .name "->" &&
      match t.args.getLast? with
      | none => false
      | some returns => returns.head == .name "Async"

namespace FnDecl

/-- The names the body calls, outside the async arrows it builds. -/
def asyncCalls (fn : FnDecl) : List String := (callsIn true false fn.body).called

/-- The parameters of an async function type. -/
def asyncParams (fn : FnDecl) : List String :=
  (fn.params.filter fun p => isAsyncFnType p.type).map (·.name)

end FnDecl

/-- The declarations of a program. Functions and externs share one namespace, and a parameter that
a body calls is not in it (`_refuse_callable_shadowing`). -/
structure Program where
  fns : List FnDecl
  externs : List ExternDecl
  names_nodup : (fns.map (·.name) ++ externs.map (·.name)).Nodup
  not_shadowed : ∀ fn ∈ fns, ∀ p ∈ fn.asyncParams, p ∈ fn.asyncCalls → p ∉ fns.map (·.name)

/-! ## The emission loop -/

/-- The loop's state. -/
structure Evidence where
  caps : Store String String
  changed : Bool
  witness : Dict String String

/-- `witness.setdefault(name, ref)` for each value reference that holds anything. -/
def recordValues (caps : Store String String) (name : String) (w : Dict String String) :
    List String → Dict String String
  | [] => w
  | ref :: refs =>
    if (caps ref).card = 0 then recordValues caps name w refs
    else
      match w.get? name with
      | some _ => recordValues caps name w refs
      | none => recordValues caps name (w.set name ref) refs

/-- The callees that hold anything, in order. -/
def culprits (caps : Store String String) (called : List String) : List String :=
  (sorted called).filter fun c => (caps c).card ≠ 0

/-- One function of one pass. -/
def visitWitness (fns : List Fn) (st : Evidence) (name : String) : Evidence :=
  match Assoc.get? (callTable fns) name with
  | none => st
  | some refs =>
    let reached := reachedByValues st.caps refs.values (reachedByCalls st.caps refs.called)
    let witness := recordValues st.caps name st.witness (sorted refs.values)
    if reached ⊆ st.caps name then { st with witness := witness }
    else
      { caps := Function.update st.caps name (st.caps name ∪ reached)
        changed := true
        witness :=
          if (st.caps name).card = 0 then
            match (culprits st.caps refs.called).argmin (depth witness) with
            | none => witness
            | some callee => witness.set name callee
          else witness }

def passWitness (fns : List Fn) (st : Evidence) : Evidence :=
  (Assoc.keys (callTable fns)).foldl (visitWitness fns) { st with changed := false }

/-- `while changed`, with a bound on the passes. -/
def loopWitness (fns : List Fn) : Nat → Evidence → Option Evidence
  | 0, _ => none
  | n + 1, st =>
    let st' := passWitness fns st
    if st'.changed then loopWitness fns n st' else some st'

/-! ## The async loop -/

/-- The calls and the async parameters of each function, by name. -/
def asyncTable (fns : List FnDecl) : List (String × (List String × List String)) :=
  fns.map fun fn => (fn.name, (fn.asyncCalls, fn.asyncParams))

/-- The loop's state. -/
structure Coloring where
  colored : Finset String
  changed : Bool
  witness : Dict String String

/-- One function of one pass. -/
def colorVisit (fns : List FnDecl) (st : Coloring) (name : String) : Coloring :=
  match Assoc.get? (asyncTable fns) name with
  | none => st
  | some (called, params) =>
    if name ∈ st.colored then st
    else
      let reached := (sorted called).filter (· ∈ st.colored)
      let callsAsyncParam := sorted (called.filter (· ∈ params))
      match reached.argmin (depth st.witness), callsAsyncParam with
      | some callee, _ => ⟨insert name st.colored, true, st.witness.set name callee⟩
      | none, param :: _ => ⟨insert name st.colored, true, st.witness.set name param⟩
      | none, [] => st

def colorPass (fns : List FnDecl) (st : Coloring) : Coloring :=
  (Assoc.keys (asyncTable fns)).foldl (colorVisit fns) { st with changed := false }

/-- `while changed`, with a bound on the passes. -/
def colorLoop (fns : List FnDecl) : Nat → Coloring → Option Coloring
  | 0, _ => none
  | n + 1, st =>
    let st' := colorPass fns st
    if st'.changed then colorLoop fns n st' else some st'

/-! ## Both loops as one closure -/

namespace Program

variable (p : Program)

def plainFns : List Fn := p.fns.map (·.toFn)

def plainExterns : List Extern := p.externs.map (·.toExtern)

/-- The externs the coloring starts from. -/
def asyncSeeds : Finset String := ((p.externs.filter (·.async)).map (·.name)).toFinset

theorem fn_names_nodup : (p.fns.map (·.name)).Nodup := p.names_nodup.of_append_left

theorem extern_not_fn {e : ExternDecl} (he : e ∈ p.externs) : e.name ∉ p.fns.map (·.name) :=
  fun hmem => List.disjoint_of_nodup_append p.names_nodup hmem (List.mem_map_of_mem he)

theorem keys_callTable : Assoc.keys (callTable p.plainFns) = p.fns.map (·.name) := by
  have h : (callTable p.plainFns).map Prod.fst = p.fns.map (·.name) := by
    simp [callTable, plainFns, Function.comp_def]
  rw [Assoc.keys, h, (List.nodup_reverse.mpr p.fn_names_nodup).dedup, List.reverse_reverse]

theorem keys_asyncTable : Assoc.keys (asyncTable p.fns) = p.fns.map (·.name) := by
  have h : (asyncTable p.fns).map Prod.fst = p.fns.map (·.name) := by
    simp [asyncTable, Function.comp_def]
  rw [Assoc.keys, h, (List.nodup_reverse.mpr p.fn_names_nodup).dedup, List.reverse_reverse]

/-- What each function's emission is derived from: its callees, then its value references. -/
def emittingRules (classes : List String) : Rules String where
  order := p.fns.map (·.name)
  first k := ((Assoc.get? (callTable p.plainFns) k).map (·.called)).getD []
  second k := ((Assoc.get? (callTable p.plainFns) k).map (·.values)).getD []
  own _ := []
  seeds := ((seeding classes p.plainExterns).map (·.name)).toFinset
  nodup := p.fn_names_nodup
  seeds_out k hk := by
    obtain ⟨e, he, rfl⟩ := List.mem_map.mp (List.mem_toFinset.mp hk)
    obtain ⟨d, hd, rfl⟩ := List.mem_map.mp (List.mem_filter.mp he).1
    exact p.extern_not_fn hd
  own_out k c hc := absurd hc List.not_mem_nil

/-- What each function's color is derived from: its callees, then the async parameters it calls. -/
def asyncRules : Rules String where
  order := p.fns.map (·.name)
  first k := ((Assoc.get? (asyncTable p.fns) k).map (·.1)).getD []
  second _ := []
  own k := ((Assoc.get? (asyncTable p.fns) k).map fun e => e.1.filter (· ∈ e.2)).getD []
  seeds := p.asyncSeeds
  nodup := p.fn_names_nodup
  seeds_out k hk := by
    obtain ⟨e, he, rfl⟩ := List.mem_map.mp (List.mem_toFinset.mp hk)
    exact p.extern_not_fn (List.mem_filter.mp he).1
  own_out k c hc := by
    cases hget : Assoc.get? (asyncTable p.fns) k with
    | none => simp [hget] at hc
    | some e =>
      obtain ⟨fn, hfn, heq⟩ := List.mem_map.mp (Assoc.mem_of_get? hget)
      obtain ⟨-, rfl⟩ := Prod.mk.inj heq
      simp only [hget, Option.map_some, Option.getD_some, List.mem_filter, decide_eq_true_eq] at hc
      exact p.not_shadowed fn hfn c hc.2 hc.1

end Program

/-! ## What one visit does -/

theorem argmin_congr {α : Type} {f g : α → Nat} {l : List α} (h : ∀ a ∈ l, f a = g a) :
    l.argmin f = l.argmin g := by
  induction l with
  | nil => rfl
  | cons a l ih =>
    have hl := ih fun b hb => h b (List.mem_cons_of_mem a hb)
    rw [List.argmin_cons, List.argmin_cons, hl]
    cases hmin : l.argmin g with
    | none => rfl
    | some b =>
      have hb : b ∈ l := List.argmin_mem (f := g) hmin
      simp only [h a List.mem_cons_self, h b (List.mem_cons_of_mem a hb)]

section RecordValues

variable {caps : Store String String} {name : String} {w : Dict String String}

/-- A name that has its witness keeps it. -/
theorem recordValues_of_some {c : String} (h : w.get? name = some c) (refs : List String) :
    recordValues caps name w refs = w := by
  induction refs with
  | nil => rfl
  | cons ref refs ih =>
    rw [recordValues, h]
    simp only [ih, ite_self]

/-- A name without a witness takes the first reference that holds anything. -/
theorem recordValues_of_none (h : w.get? name = none) (refs : List String) :
    recordValues caps name w refs =
      match (refs.filter fun c => (caps c).card ≠ 0).head? with
      | none => w
      | some ref => w.set name ref := by
  induction refs with
  | nil => rfl
  | cons ref refs ih =>
    rw [recordValues, h]
    by_cases hcard : (caps ref).card = 0
    · rw [if_pos hcard, ih, List.filter_cons_of_neg (by simpa using hcard)]
    · rw [if_neg hcard, List.filter_cons_of_pos (by simpa using hcard)]
      exact recordValues_of_some (Dict.get?_set_self _ _ _) refs

end RecordValues

/-- A visit changes the map of capabilities as the loop without witnesses does. -/
theorem visitWitness_caps (fns : List Fn) (st : Evidence) (name : String) :
    ((visitWitness fns st name).caps, (visitWitness fns st name).changed) =
      visit (rule fns) name (st.caps, st.changed) := by
  unfold visitWitness visit rule
  cases Assoc.get? (callTable fns) name with
  | none => simp
  | some refs =>
    simp only
    by_cases h : reachedByValues st.caps refs.values (reachedByCalls st.caps refs.called) ⊆
        st.caps name
    · rw [if_pos h, if_pos h]
    · rw [if_neg h, if_neg h]

theorem foldl_visitWitness_caps (fns : List Fn) (names : List String) (st : Evidence) :
    ((names.foldl (visitWitness fns) st).caps, (names.foldl (visitWitness fns) st).changed) =
      Fixpoint.pass (rule fns) names (st.caps, st.changed) := by
  induction names generalizing st with
  | nil => rfl
  | cons name names ih =>
    rw [List.foldl_cons, ih, Fixpoint.pass, visitWitness_caps]

theorem loopWitness_caps (fns : List Fn) (n : Nat) (st : Evidence) :
    (loopWitness fns n st).map (·.caps) =
      iterate (rule fns) (Assoc.keys (callTable fns)) n st.caps := by
  induction n generalizing st with
  | zero => rfl
  | succ n ih =>
    have hpass : Fixpoint.pass (rule fns) (Assoc.keys (callTable fns)) (st.caps, false) =
        ((passWitness fns st).caps, (passWitness fns st).changed) :=
      (foldl_visitWitness_caps fns _ { st with changed := false }).symm
    rw [loopWitness]
    cases hch : (passWitness fns st).changed with
    | true =>
      rw [hch] at hpass
      rw [iterate_of_changed hpass, ← ih]
      simp only [if_true]
    | false =>
      rw [hch] at hpass
      rw [iterate_of_unchanged hpass]
      simp

namespace Program

variable {p : Program} {classes : List String}

/-- The loop's state and the closure's say the same. -/
structure Tracks (e : Evidence) (s : State String) : Prop where
  caps : ∀ k, (e.caps k).Nonempty ↔ k ∈ s.marked
  witness : e.witness = s.witness

theorem get?_callTable_of_mem {k : String} (h : k ∈ p.fns.map (·.name)) :
    ∃ refs, Assoc.get? (callTable p.plainFns) k = some refs ∧
      (p.emittingRules classes).first k = refs.called ∧
      (p.emittingRules classes).second k = refs.values := by
  obtain ⟨fn, hfn, rfl⟩ := List.mem_map.mp h
  have hmem : fn.toFn ∈ p.plainFns := List.mem_map_of_mem hfn
  have hsome := Assoc.get?_isSome_of_mem (l := callTable p.plainFns) (List.mem_map_of_mem hmem)
  obtain ⟨refs, hrefs⟩ := Option.isSome_iff_exists.mp hsome
  exact ⟨refs, hrefs, by simp [emittingRules, hrefs], by simp [emittingRules, hrefs]⟩

theorem Tracks.card_ne_zero {e : Evidence} {s : State String} (h : Tracks e s) (c : String) :
    (e.caps c).card ≠ 0 ↔ c ∈ s.marked := by
  rw [← h.caps, Finset.card_ne_zero]

section Visit

variable {e : Evidence} {s : State String} {k : String} {refs : Refs}

/-- The callees that carry a capability are the marked ones. -/
theorem Tracks.filter_card (h : Tracks e s) (l : List String) :
    l.filter (fun c => (e.caps c).card ≠ 0) = l.filter (· ∈ s.marked) :=
  List.filter_congr fun c _ => by simp only [h.card_ne_zero]

/-- What is reached from an empty set is empty exactly when the closure has nothing to pick. -/
theorem Tracks.reached_iff (h : Tracks e s) (hempty : e.caps k = ∅)
    (hfirst : (p.emittingRules classes).first k = refs.called)
    (hsecond : (p.emittingRules classes).second k = refs.values) :
    reachedByValues e.caps refs.values (reachedByCalls e.caps refs.called) ⊆ e.caps k ↔
      (p.emittingRules classes).pick s k = none := by
  rw [hempty, Finset.subset_empty, Rules.pick_eq_none_iff, Finset.eq_empty_iff_forall_notMem]
  constructor
  · intro hnot
    refine ⟨fun c hedge hmarked => ?_, fun c => List.not_mem_nil⟩
    obtain ⟨d, hd⟩ := (h.caps c).mpr hmarked
    refine hnot d (mem_reachedByValues.mpr ?_)
    rcases hedge with hc | hc
    · exact .inl (mem_reachedByCalls.mpr ⟨c, hfirst ▸ hc, hd⟩)
    · exact .inr ⟨c, hsecond ▸ hc, .inl hd⟩
  · rintro ⟨hedge, -⟩ d hd
    rcases mem_reachedByValues.mp hd with hd | ⟨c, hc, hd⟩
    · obtain ⟨c, hc, hd⟩ := mem_reachedByCalls.mp hd
      exact hedge c (.inl (hfirst.symm ▸ hc)) ((h.caps c).mp ⟨d, hd⟩)
    · refine hedge c (.inr (hsecond.symm ▸ hc)) ((h.caps c).mp ?_)
      rcases hd with hd | ⟨-, hne⟩
      · exact ⟨d, hd⟩
      · exact hne

/-- A reference recorded for an unmarked name does not change the depth of a callee. -/
theorem argmin_depth_set {n : Nat} {pre : List String}
    (hs : (p.emittingRules classes).Sound n pre s) (hin : k ∈ (p.emittingRules classes).order)
    (hk : k ∉ s.marked) (ref : String) :
    ((p.emittingRules classes).offers s.marked k).argmin (depth (s.witness.set k ref)) =
      ((p.emittingRules classes).offers s.marked k).argmin (depth s.witness) := by
  have hext : ∀ j d, s.witness.get? j = some d → (s.witness.set k ref).get? j = some d := by
    intro j d hd
    have hne : j ≠ k := by
      rintro rfl
      exact hk (hs.keys j d hd).2
    rw [Dict.get?_set_of_ne _ hne, hd]
  have hkeys : ∀ j d, (s.witness.set k ref).get? j = some d →
      j ∈ (p.emittingRules classes).order := by
    intro j d hd
    rw [Dict.get?_set] at hd
    by_cases hj : j = k
    · exact hj ▸ hin
    · rw [if_neg hj] at hd
      exact (hs.keys j d hd).1
  refine argmin_congr fun a ha => ?_
  obtain ⟨i, hi⟩ := hs.hops a (Rules.mem_offers.mp ha).2
  rw [depth_eq hkeys (hi.extend hext), depth_eq hs.keysIn hi]

/-- A name marked already: its witness stands, and its set only grows. -/
theorem Tracks.visit_marked (h : Tracks e s) {n : Nat} {pre : List String}
    (hs : (p.emittingRules classes).Sound n pre s) (hin : k ∈ (p.emittingRules classes).order)
    (hrefs : Assoc.get? (callTable p.plainFns) k = some refs) (hk : k ∈ s.marked) :
    Tracks (visitWitness p.plainFns e k) ((p.emittingRules classes).visit s k) := by
  obtain ⟨c, hget, -⟩ := hs.picked k hk hin
  have hcard : ¬ (e.caps k).card = 0 := (h.card_ne_zero k).mpr hk
  rw [visitWitness, hrefs]
  simp only
  rw [Rules.visit, if_pos hk, recordValues_of_some (by rw [h.witness, hget])]
  by_cases hsub : reachedByValues e.caps refs.values (reachedByCalls e.caps refs.called) ⊆ e.caps k
  · rw [if_pos hsub]
    exact h
  · rw [if_neg hsub]
    refine ⟨fun j => ?_, ?_⟩
    · by_cases hj : j = k
      · subst hj
        simp only [Function.update_self, hk, iff_true]
        exact ((h.caps j).mpr hk).mono Finset.subset_union_left
      · simp only [Function.update_of_ne hj]
        exact h.caps j
    · simp only [if_neg hcard]
      exact h.witness

/-- A name not marked yet: it is recorded for a value first, and then for the closest callee. -/
theorem Tracks.visit_unmarked (h : Tracks e s) {n : Nat} {pre : List String}
    (hs : (p.emittingRules classes).Sound n pre s) (hin : k ∈ (p.emittingRules classes).order)
    (hrefs : Assoc.get? (callTable p.plainFns) k = some refs)
    (hfirst : (p.emittingRules classes).first k = refs.called)
    (hsecond : (p.emittingRules classes).second k = refs.values) (hk : k ∉ s.marked) :
    Tracks (visitWitness p.plainFns e k) ((p.emittingRules classes).visit s k) := by
  have hculprits : culprits e.caps refs.called =
      (p.emittingRules classes).offers s.marked k := by
    rw [culprits, h.filter_card, Rules.offers, hfirst]
  have hempty : e.caps k = ∅ := Finset.not_nonempty_iff_eq_empty.mp (mt (h.caps k).mp hk)
  have hnone : e.witness.get? k = none := by
    rw [h.witness]
    exact Option.eq_none_iff_forall_ne_some.mpr fun d hd => hk (hs.keys k d hd).2
  have hfall : (p.emittingRules classes).fallbacks s.marked k =
      (sorted refs.values).filter fun c => (e.caps c).card ≠ 0 := by
    rw [Rules.fallbacks, h.filter_card, hsecond]
    exact List.append_nil _
  have hreached := h.reached_iff hempty hfirst hsecond
  rw [visitWitness, hrefs]
  simp only
  rw [Rules.visit, if_neg hk, recordValues_of_none hnone, ← hfall]
  cases hpick : (p.emittingRules classes).pick s k with
  | none =>
    rw [if_pos (hreached.mpr hpick)]
    rw [Rules.pick, Option.or_eq_none_iff] at hpick
    rw [hpick.2]
    exact h
  | some c =>
    have hsub := mt hreached.mp (by rw [hpick]; simp)
    rw [if_neg hsub, hempty, Finset.card_empty, if_pos rfl, hculprits]
    refine ⟨fun j => ?_, ?_⟩
    · by_cases hj : j = k
      · subst hj
        simp only [Function.update_self, Finset.mem_insert_self, iff_true, Finset.empty_union]
        rw [hempty, Finset.subset_empty] at hsub
        exact Finset.nonempty_iff_ne_empty.mpr hsub
      · simp only [Function.update_of_ne hj, Finset.mem_insert, hj, false_or]
        exact h.caps j
    · simp only [h.witness]
      rw [Rules.pick] at hpick
      cases hhead : ((p.emittingRules classes).fallbacks s.marked k).head? with
      | none =>
        rw [hhead, Option.or_none] at hpick
        simp only [hpick]
      | some ref =>
        simp only [argmin_depth_set hs hin hk ref]
        rcases Option.or_eq_some_iff.mp hpick with hmin | ⟨hmin, hc⟩
        · simp only [hmin, Dict.set_set]
        · obtain rfl : ref = c := Option.some.inj (hhead.symm.trans hc)
          simp only [hmin]

end Visit

/-- **One visit of the emission loop** is one visit of the closure. -/
theorem Tracks.visit {e : Evidence} {s : State String} (h : Tracks e s) {n : Nat}
    {pre post : List String} {k : String}
    (horder : (p.emittingRules classes).order = pre ++ k :: post)
    (hs : (p.emittingRules classes).Sound n pre s) :
    Tracks (visitWitness p.plainFns e k) ((p.emittingRules classes).visit s k) := by
  have hin : k ∈ (p.emittingRules classes).order :=
    horder ▸ List.mem_append_right pre List.mem_cons_self
  obtain ⟨refs, hrefs, hfirst, hsecond⟩ :
      ∃ refs, Assoc.get? (callTable p.plainFns) k = some refs ∧
        (p.emittingRules classes).first k = refs.called ∧
        (p.emittingRules classes).second k = refs.values := get?_callTable_of_mem hin
  by_cases hk : k ∈ s.marked
  · exact h.visit_marked hs hin hrefs hk
  · exact h.visit_unmarked hs hin hrefs hfirst hsecond hk

/-! ## The emission loop, run to its end -/

theorem seed_nonempty_iff {byName : Bool} {k : String} :
    (seed byName classes p.plainExterns k).Nonempty ↔ k ∈ (p.emittingRules classes).seeds := by
  unfold seed
  simp only [emittingRules, List.mem_toFinset, List.mem_map]
  cases hget : Assoc.get? ((seeding classes p.plainExterns).map fun e =>
      (e.name, contribution byName e)) k with
  | none =>
    rw [Assoc.get?_eq_none_iff] at hget
    simp only [Option.getD_none, Finset.not_nonempty_empty, false_iff]
    rintro ⟨e, he, rfl⟩
    exact hget _ (List.mem_map.mpr ⟨e, he, rfl⟩)
  | some s =>
    obtain ⟨e, he, heq⟩ := List.mem_map.mp (Assoc.mem_of_get? hget)
    obtain ⟨rfl, rfl⟩ := Prod.mk.inj heq
    simp only [Option.getD_some, contribution_nonempty, true_iff]
    exact ⟨e, he, rfl⟩

theorem Tracks.foldl {e : Evidence} {s : State String} (h : Tracks e s) {n : Nat}
    {pre post : List String} (horder : (p.emittingRules classes).order = pre ++ post)
    (hs : (p.emittingRules classes).Sound n pre s) :
    Tracks (post.foldl (visitWitness p.plainFns) e)
      (post.foldl (p.emittingRules classes).visit s) := by
  induction post generalizing pre e s with
  | nil => exact h
  | cons k post ih =>
    rw [List.foldl_cons, List.foldl_cons]
    exact ih (h.visit horder hs) (by rw [horder, List.append_assoc, List.singleton_append])
      (hs.visit horder)

/-- **One pass of the emission loop** is one pass of the closure. -/
theorem Tracks.pass {e : Evidence} {s : State String} (h : Tracks e s) {n : Nat}
    (hs : (p.emittingRules classes).Sound n [] s) :
    Tracks (passWitness p.plainFns e) ((p.emittingRules classes).pass s) := by
  rw [passWitness, p.keys_callTable]
  have hstart : Tracks { e with changed := false } s := ⟨h.caps, h.witness⟩
  exact hstart.foldl (List.nil_append _).symm hs

theorem Tracks.loop {n m : Nat} {e r : Evidence} {s : State String} (h : Tracks e s)
    (hs : (p.emittingRules classes).Sound m [] s) (hloop : loopWitness p.plainFns n e = some r) :
    ∃ s', Tracks r s' ∧ (p.emittingRules classes).Settled s' := by
  induction n generalizing e s m with
  | zero => simp [loopWitness] at hloop
  | succ n ih =>
    rw [loopWitness] at hloop
    cases hch : (passWitness p.plainFns e).changed with
    | true =>
      simp only [hch, if_true] at hloop
      exact ih (h.pass hs) hs.pass hloop
    | false =>
      simp only [hch, Bool.false_eq_true, if_false, Option.some.injEq] at hloop
      subst hloop
      -- an unchanged pass left every set as it was, so it marked nothing
      have hcaps : (passWitness p.plainFns e).caps = e.caps := by
        have hpass := foldl_visitWitness_caps p.plainFns (Assoc.keys (callTable p.plainFns))
          { e with changed := false }
        rw [← passWitness, hch] at hpass
        have hsame := (pass_of_unchanged (congrArg Prod.snd hpass).symm).1
        rw [← hpass] at hsame
        exact hsame
      have hmarked : ((p.emittingRules classes).pass s).marked = s.marked := by
        ext k
        rw [← (h.pass hs).caps, hcaps, h.caps]
      refine ⟨_, h.pass hs, ⟨m + 1, hs.pass⟩, fun j k hk => ?_⟩
      rw [hmarked]
      exact hs.mem_of_by hmarked hk

end Program

theorem loopWitness_isSome (byName : Bool) (classes : List String) (fns : List Fn)
    (externs : List Extern) :
    (loopWitness fns (passBound byName classes fns externs)
      ⟨seed byName classes externs, false, Dict.empty⟩).isSome := by
  have h := loop_isSome byName classes fns externs
  rw [loop, ← loopWitness_caps fns _ ⟨seed byName classes externs, false, Dict.empty⟩,
    Option.isSome_map] at h
  exact h

/-- `_emitting_capabilities`, with the witnesses it fills in. -/
def emittingEvidence (byName : Bool) (classes : List String) (fns : List Fn)
    (externs : List Extern) : Evidence :=
  (loopWitness fns (passBound byName classes fns externs)
    ⟨seed byName classes externs, false, Dict.empty⟩).get
      (loopWitness_isSome byName classes fns externs)

/-- The witnesses come with the map of the loop without them. -/
theorem emittingEvidence_caps (byName : Bool) (classes : List String) (fns : List Fn)
    (externs : List Extern) :
    (emittingEvidence byName classes fns externs).caps =
      emittingCapabilities byName classes fns externs := by
  have h := loopWitness_caps fns (passBound byName classes fns externs)
    ⟨seed byName classes externs, false, Dict.empty⟩
  rw [← loop, loop_eq_some, Option.map_eq_some_iff] at h
  obtain ⟨r, hr, hcaps⟩ := h
  rw [← hcaps, emittingEvidence, Option.get_of_eq_some _ hr]

namespace Program

variable {p : Program} {classes : List String}

theorem emittingEvidence_settled (p : Program) (byName : Bool) (classes : List String) :
    ∃ s, Tracks (emittingEvidence byName classes p.plainFns p.plainExterns) s ∧
      (p.emittingRules classes).Settled s :=
  Tracks.loop (s := (p.emittingRules classes).start)
    ⟨fun _ => seed_nonempty_iff, rfl⟩ Rules.sound_start (Option.some_get _).symm

/-! ## The async loop, run to its end -/

end Program

namespace Coloring

/-- The closure's state. -/
def toState (st : Coloring) : State String := ⟨st.colored, st.witness⟩

variable {p : Program}

/-- **One visit of the async loop** is one visit of the closure. -/
theorem toState_visit (st : Coloring) {k : String} (hk : k ∈ p.fns.map (·.name)) :
    (colorVisit p.fns st k).toState = p.asyncRules.visit st.toState k := by
  obtain ⟨fn, hfn, rfl⟩ := List.mem_map.mp hk
  have hsome := Assoc.get?_isSome_of_mem (l := asyncTable p.fns) (List.mem_map_of_mem hfn)
  obtain ⟨⟨called, params⟩, hget⟩ := Option.isSome_iff_exists.mp hsome
  have hpick : p.asyncRules.pick st.toState fn.name =
      (((sorted called).filter (· ∈ st.colored)).argmin (depth st.witness)).or
        (sorted (called.filter (· ∈ params))).head? := by
    simp only [Rules.pick, Rules.offers, Rules.fallbacks, Program.asyncRules, hget, toState,
      Option.map_some, Option.getD_some]
    rfl
  rw [colorVisit, hget, Rules.visit]
  by_cases hcolored : fn.name ∈ st.colored
  · simp only [if_pos hcolored]
    exact (if_pos hcolored).symm
  · simp only [if_neg hcolored]
    rw [if_neg (show fn.name ∉ st.toState.marked from hcolored), hpick]
    cases hmin : ((sorted called).filter (· ∈ st.colored)).argmin (depth st.witness) with
    | some callee => rfl
    | none =>
      cases hown : sorted (called.filter (· ∈ params)) with
      | nil => rfl
      | cons param rest => rfl

/-- A visit either changes nothing or colors one more name and says so. -/
theorem colorVisit_cases (fns : List FnDecl) (st : Coloring) (k : String) :
    colorVisit fns st k = st ∨
      k ∉ st.colored ∧ (colorVisit fns st k).colored = insert k st.colored ∧
        (colorVisit fns st k).changed = true := by
  unfold colorVisit
  cases Assoc.get? (asyncTable fns) k with
  | none => exact .inl rfl
  | some entry =>
    obtain ⟨called, params⟩ := entry
    by_cases hcolored : k ∈ st.colored
    · exact .inl (if_pos hcolored)
    · simp only [if_neg hcolored]
      cases hmin : ((sorted called).filter (· ∈ st.colored)).argmin (depth st.witness) with
      | some callee => exact .inr ⟨hcolored, rfl, rfl⟩
      | none =>
        cases sorted (called.filter (· ∈ params)) with
        | nil => exact .inl rfl
        | cons param rest => exact .inr ⟨hcolored, rfl, rfl⟩

theorem foldl_colored (fns : List FnDecl) (names : List String) (st : Coloring) :
    st.colored ⊆ (names.foldl (colorVisit fns) st).colored ∧
      ((names.foldl (colorVisit fns) st).changed = true ↔
        st.changed = true ∨ st.colored.card < (names.foldl (colorVisit fns) st).colored.card) := by
  induction names generalizing st with
  | nil => simp
  | cons k names ih =>
    rw [List.foldl_cons]
    obtain ⟨hsub, hchanged⟩ := ih (colorVisit fns st k)
    rcases colorVisit_cases fns st k with hsame | ⟨hk, hcolored, hflag⟩
    · rw [hsame] at hsub hchanged ⊢
      exact ⟨hsub, hchanged⟩
    · have hcard : st.colored.card < (colorVisit fns st k).colored.card := by
        rw [hcolored, Finset.card_insert_of_notMem hk]
        omega
      have hle := Finset.card_le_card hsub
      have hgrow : st.colored ⊆ (colorVisit fns st k).colored :=
        hcolored ▸ Finset.subset_insert k st.colored
      refine ⟨fun j hj => hsub (hgrow hj), ?_⟩
      rw [hchanged, hflag]
      simp only [true_or, true_iff]
      exact .inr (by omega)

theorem toState_foldl (names : List String) (st : Coloring)
    (hnames : ∀ k ∈ names, k ∈ p.fns.map (·.name)) :
    (names.foldl (colorVisit p.fns) st).toState = names.foldl p.asyncRules.visit st.toState := by
  induction names generalizing st with
  | nil => rfl
  | cons k names ih =>
    obtain ⟨hk, hrest⟩ := List.forall_mem_cons.mp hnames
    rw [List.foldl_cons, List.foldl_cons, ih _ hrest, toState_visit st hk]

/-- **One pass of the async loop** is one pass of the closure. -/
theorem toState_pass (st : Coloring) :
    (colorPass p.fns st).toState = p.asyncRules.pass st.toState := by
  rw [colorPass, p.keys_asyncTable, toState_foldl _ _ fun k hk => hk]
  rfl

theorem colorPass_changed (st : Coloring) :
    st.colored ⊆ (colorPass p.fns st).colored ∧
      ((colorPass p.fns st).changed = true ↔
        st.colored.card < (colorPass p.fns st).colored.card) := by
  have h := foldl_colored p.fns (Assoc.keys (asyncTable p.fns)) { st with changed := false }
  rw [← colorPass] at h
  simpa using h

/-- **Termination**: every pass but the last colors a name. -/
theorem colorLoop_isSome {n m : Nat} {st : Coloring} (hs : p.asyncRules.Sound m [] st.toState)
    (hn : (p.asyncSeeds ∪ (p.fns.map (·.name)).toFinset).card < st.colored.card + n) :
    (colorLoop p.fns n st).isSome := by
  induction n generalizing st m with
  | zero =>
    have hsub : st.colored ⊆ p.asyncSeeds ∪ (p.fns.map (·.name)).toFinset := fun k hk =>
      Finset.mem_union.mpr ((hs.by_of_mem hk).mem_order.imp_right List.mem_toFinset.mpr)
    have := Finset.card_le_card hsub
    omega
  | succ n ih =>
    rw [colorLoop]
    cases hch : (colorPass p.fns st).changed with
    | false => simp
    | true =>
      simp only [if_true]
      have hlt := (colorPass_changed st).2.mp hch
      exact ih (toState_pass st ▸ hs.pass) (by omega)

theorem colorLoop_settled {n m : Nat} {st r : Coloring} (hs : p.asyncRules.Sound m [] st.toState)
    (hloop : colorLoop p.fns n st = some r) : p.asyncRules.Settled r.toState := by
  induction n generalizing st m with
  | zero => simp [colorLoop] at hloop
  | succ n ih =>
    rw [colorLoop] at hloop
    cases hch : (colorPass p.fns st).changed with
    | true =>
      simp only [hch, if_true] at hloop
      exact ih (toState_pass st ▸ hs.pass) hloop
    | false =>
      simp only [hch, Bool.false_eq_true, if_false, Option.some.injEq] at hloop
      subst hloop
      obtain ⟨hsub, hiff⟩ := colorPass_changed (p := p) st
      have hmarked : (p.asyncRules.pass st.toState).marked = st.toState.marked := by
        rw [← toState_pass]
        refine (Finset.eq_of_subset_of_card_le hsub ?_).symm
        have := mt hiff.mpr (by rw [hch]; simp)
        omega
      rw [toState_pass]
      refine ⟨⟨m + 1, hs.pass⟩, fun j k hk => ?_⟩
      rw [hmarked]
      exact hs.mem_of_by hmarked hk

end Coloring

namespace Program

theorem colorLoop_start_isSome (p : Program) :
    (colorLoop p.fns (p.fns.length + 1) ⟨p.asyncSeeds, false, Dict.empty⟩).isSome := by
  refine Coloring.colorLoop_isSome (m := 0) Rules.sound_start ?_
  have hunion := Finset.card_union_le p.asyncSeeds (p.fns.map (·.name)).toFinset
  have hnames := List.toFinset_card_le (p.fns.map (·.name))
  rw [List.length_map] at hnames
  show _ < p.asyncSeeds.card + (p.fns.length + 1)
  omega

/-- `_async_callables`, with the witnesses it fills in. -/
def asyncCallables (p : Program) : Coloring :=
  (colorLoop p.fns (p.fns.length + 1) ⟨p.asyncSeeds, false, Dict.empty⟩).get
    p.colorLoop_start_isSome

theorem asyncCallables_settled (p : Program) : p.asyncRules.Settled p.asyncCallables.toState :=
  Coloring.colorLoop_settled (m := 0) Rules.sound_start (Option.some_get _).symm

/-! ## What a chain is -/

/-- A call outside the async arrows of a body. -/
def AsyncCall (p : Program) (f g : String) : Prop :=
  ∃ fn ∈ p.fns, fn.name = f ∧ g ∈ fn.asyncCalls

/-- An async parameter that a function of the chain calls. -/
def CalledParam (p : Program) (l : List String) (g : String) : Prop :=
  ∃ fn ∈ p.fns, fn.name ∈ l ∧ g ∈ fn.asyncParams ∧ g ∈ fn.asyncCalls

/-- The chain of an emitting function: no name twice, every hop the witness of the body it leaves
and a call or a value reference of it, and at the end, which has no witness, a seeding extern. -/
def EmissionDerivation (p : Program) (classes : List String) (w : Dict String String)
    (l : List String) : Prop :=
  l.Nodup ∧ List.IsChain (fun f g => w.get? f = some g ∧ Edge p.plainFns f g) l ∧
    ∃ e ∈ seeding classes p.plainExterns, l.getLast? = some e.name ∧ w.get? e.name = none

/-- The chain of an async function: the same with its calls, and an async extern or a called async
parameter at the end. -/
def AsyncDerivation (p : Program) (w : Dict String String) (l : List String) : Prop :=
  l.Nodup ∧ List.IsChain (fun f g => w.get? f = some g ∧ p.AsyncCall f g) l ∧
    ∃ e, l.getLast? = some e ∧ w.get? e = none ∧
      ((∃ ext ∈ p.externs, ext.async = true ∧ ext.name = e) ∨ p.CalledParam l e)

theorem emittingRules_hop {p : Program} {classes : List String} {f g : String}
    (h : (p.emittingRules classes).Hop f g) : Edge p.plainFns f g := by
  rcases h with hedge | hown
  · unfold Rules.Edge emittingRules at hedge
    cases hget : Assoc.get? (callTable p.plainFns) f with
    | none => simp [hget] at hedge
    | some refs => exact edge_of_get? hget (by simpa [hget] using hedge)
  · exact absurd hown List.not_mem_nil

theorem asyncRules_own {p : Program} {f g : String} (h : g ∈ p.asyncRules.own f) :
    ∃ fn ∈ p.fns, fn.name = f ∧ g ∈ fn.asyncParams ∧ g ∈ fn.asyncCalls := by
  unfold asyncRules at h
  cases hget : Assoc.get? (asyncTable p.fns) f with
  | none => simp [hget] at h
  | some entry =>
    obtain ⟨fn, hfn, heq⟩ := List.mem_map.mp (Assoc.mem_of_get? hget)
    obtain ⟨rfl, rfl⟩ := Prod.mk.inj heq
    simp only [hget, Option.map_some, Option.getD_some, List.mem_filter, decide_eq_true_eq] at h
    exact ⟨fn, hfn, rfl, h.2, h.1⟩

theorem asyncRules_hop {p : Program} {f g : String} (h : p.asyncRules.Hop f g) :
    p.AsyncCall f g := by
  rcases h with (hfirst | hsecond) | hown
  · unfold asyncRules at hfirst
    cases hget : Assoc.get? (asyncTable p.fns) f with
    | none => simp [hget] at hfirst
    | some entry =>
      obtain ⟨fn, hfn, heq⟩ := List.mem_map.mp (Assoc.mem_of_get? hget)
      obtain ⟨rfl, rfl⟩ := Prod.mk.inj heq
      exact ⟨fn, hfn, rfl, by simpa [hget] using hfirst⟩
  · exact absurd hsecond List.not_mem_nil
  · obtain ⟨fn, hfn, hname, -, hcall⟩ := asyncRules_own hown
    exact ⟨fn, hfn, hname, hcall⟩

/-- The witnesses of the emission loop lead every emitting name down a derivation, and no path to a
seeding extern has fewer hops. -/
def EmissionEvidence (p : Program) (byName : Bool) (classes : List String) : Prop :=
  ∀ f, (emittingCapabilities byName classes p.plainFns p.plainExterns f).Nonempty →
    let w := (emittingEvidence byName classes p.plainFns p.plainExterns).witness
    p.EmissionDerivation classes w (chain w f) ∧
      ∀ m, (p.emittingRules classes).Chain m f → (chain w f).length ≤ m + 1

/-- The same of the async loop. -/
def AsyncEvidence (p : Program) : Prop :=
  ∀ f ∈ p.asyncCallables.colored,
    p.AsyncDerivation p.asyncCallables.witness (chain p.asyncCallables.witness f) ∧
      ∀ m, p.asyncRules.Chain m f → (chain p.asyncCallables.witness f).length ≤ m + 1

theorem emission_derivation (p : Program) (byName : Bool) (classes : List String) {f : String}
    (hf : (emittingCapabilities byName classes p.plainFns p.plainExterns f).Nonempty) :
    let w := (emittingEvidence byName classes p.plainFns p.plainExterns).witness
    p.EmissionDerivation classes w (chain w f) := by
  obtain ⟨s, htracks, hsettled⟩ := emittingEvidence_settled p byName classes
  obtain ⟨n, hs⟩ := hsettled.sound
  rw [← emittingEvidence_caps, htracks.caps] at hf
  obtain ⟨hnodup, hwalk, e, hlast, hnone, hend⟩ := hs.chain_sound hf
  simp only [htracks.witness]
  refine ⟨hnodup, hwalk.imp fun a b hab => ⟨hab.1, emittingRules_hop hab.2⟩, ?_⟩
  rcases hend with hseed | ⟨j, -, hown⟩
  · obtain ⟨ext, hext, rfl⟩ := List.mem_map.mp (List.mem_toFinset.mp hseed)
    exact ⟨ext, hext, hlast, hnone⟩
  · exact absurd hown List.not_mem_nil

theorem async_derivation (p : Program) {f : String} (hf : f ∈ p.asyncCallables.colored) :
    p.AsyncDerivation p.asyncCallables.witness (chain p.asyncCallables.witness f) := by
  obtain ⟨n, hs⟩ := p.asyncCallables_settled.sound
  obtain ⟨hnodup, hwalk, e, hlast, hnone, hend⟩ := hs.chain_sound hf
  refine ⟨hnodup, hwalk.imp fun a b hab => ⟨hab.1, asyncRules_hop hab.2⟩, e, hlast, hnone, ?_⟩
  rcases hend with hseed | ⟨j, hj, hown⟩
  · obtain ⟨ext, hext, rfl⟩ := List.mem_map.mp (List.mem_toFinset.mp hseed)
    obtain ⟨hin, hasync⟩ := List.mem_filter.mp hext
    exact .inl ⟨ext, hin, hasync, rfl⟩
  · obtain ⟨fn, hfn, rfl, hparam, hcall⟩ := asyncRules_own hown
    exact .inr ⟨fn, hfn, hj, hparam, hcall⟩

/-- A call of a name. -/
def callOf (name : String) : Json := .obj [("kind", .str "fn"), ("name", .str name)]

/-- `report` calls `archive`, which reaches `send` through `store`, and `notify`, which calls it
directly but is declared after `report`. -/
def detour : Program where
  fns := [⟨⟨"store", callOf "send"⟩, []⟩, ⟨⟨"archive", callOf "store"⟩, []⟩,
    ⟨⟨"report", .arr [callOf "archive", callOf "notify"]⟩, []⟩, ⟨⟨"notify", callOf "send"⟩, []⟩]
  externs := [⟨⟨"send", some "emission", [], false⟩, true⟩]
  names_nodup := by decide +kernel
  not_shadowed := by decide +kernel

end Program

end Revl.Emission
