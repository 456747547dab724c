import Revl.Lib.Fixpoint
import Revl.Emission.Calls

/-!
# The emission fixed point (`emission_analysis.py`)

`_emitting_capabilities` gives every function the capabilities its call reaches. The
externs of the seeding classes hold their own, a function takes what its callees and its
value references hold, and a value reference to a name that holds anything adds `*`, the
dispatch no list of capabilities can name. The passes repeat until nothing is added.

- `emittingCapabilities`: the result of the loop; `loop_isSome` is its **termination**.
- `emittingCapabilities_perm`: the order of the declarations does not matter.
- `emittingCapabilities_exact`: **the fixed point is reachability**.
- `emittingCapabilities_added`: **what is added emits only along paths to it**.
-/

namespace Revl.Emission

open Fixpoint

/-- A lowered function: its name and its body. -/
structure Fn where
  name : String
  body : Json
  deriving DecidableEq

/-- A lowered extern: its name, its class, its declared scope (empty when it declares none)
and its commutativity. -/
structure Extern where
  name : String
  cls : Option String
  capabilities : List String
  commutative : Bool
  deriving DecidableEq, Repr

/-- The references of a function's body. -/
def Fn.refs (fn : Fn) : Refs := callsIn false false fn.body

/-- The token of a dispatch that cannot be named. -/
def starToken : String := "*"

/-- The extern classes that seed the fixed point by default. -/
def crossingClasses : List String := ["emission", "witnessed"]

/-- What an extern contributes: its declared scope, or its own name. -/
def contribution (byName : Bool) (e : Extern) : Finset String :=
  if byName || e.capabilities.isEmpty then {e.name} else e.capabilities.toFinset

/-- The externs of the seeding classes. -/
def seeding (classes : List String) (externs : List Extern) : List Extern :=
  externs.filter fun e => e.cls.any (· ∈ classes)

/-- The map the loop starts from. -/
def seed (byName : Bool) (classes : List String) (externs : List Extern) :
    Store String String := fun name =>
  (Assoc.get? ((seeding classes externs).map fun e => (e.name, contribution byName e))
    name).getD ∅

/-- The references of each function, by name. -/
def callTable (fns : List Fn) : List (String × Refs) := fns.map fun fn => (fn.name, fn.refs)

/-- What the names a body calls hold. -/
def reachedByCalls (caps : Store String String) (called : List String) : Finset String :=
  called.foldl (fun reached callee => reached ∪ caps callee) ∅

/-- What the names a body references as values hold, and `*` where one holds anything. -/
def reachedByValues (caps : Store String String) (values : List String)
    (reached : Finset String) : Finset String :=
  values.foldl (fun reached ref =>
    if (caps ref).card = 0 then reached else insert starToken reached ∪ caps ref) reached

/-- What one function takes over from the names it reaches. -/
def rule (fns : List Fn) (caps : Store String String) (name : String) : Finset String :=
  match Assoc.get? (callTable fns) name with
  | none => ∅
  | some refs => reachedByValues caps refs.values (reachedByCalls caps refs.called)

/-- Everything the map can ever hold. -/
def tokens (byName : Bool) (classes : List String) (externs : List Extern) : Finset String :=
  (seeding classes externs).foldr (fun e acc => contribution byName e ∪ acc) {starToken}

/-- The passes the loop needs at most. -/
def passBound (byName : Bool) (classes : List String) (fns : List Fn) (externs : List Extern) :
    Nat :=
  (Assoc.keys (callTable fns)).toFinset.card * (tokens byName classes externs).card + 1

/-- The loop of `_emitting_capabilities`, with a bound on its passes. -/
def loop (byName : Bool) (classes : List String) (fns : List Fn) (externs : List Extern)
    (bound : Nat) : Option (Store String String) :=
  iterate (rule fns) (Assoc.keys (callTable fns)) bound (seed byName classes externs)

/-! ## Reading the model -/

section Reading

variable {byName : Bool} {classes : List String} {fns : List Fn} {externs : List Extern}

theorem contribution_nonempty (byName : Bool) (e : Extern) :
    (contribution byName e).Nonempty := by
  unfold contribution
  split_ifs with h
  · exact Finset.singleton_nonempty _
  · rw [Bool.or_eq_true, not_or, List.isEmpty_iff] at h
    exact List.toFinset_nonempty_iff _ |>.2 h.2

theorem mem_reachedByCalls {caps : Store String String} {called : List String} {c : String} :
    c ∈ reachedByCalls caps called ↔ ∃ g ∈ called, c ∈ caps g := by
  have h : ∀ acc : Finset String, c ∈ called.foldl (fun reached callee => reached ∪ caps callee) acc
      ↔ c ∈ acc ∨ ∃ g ∈ called, c ∈ caps g := by
    induction called with
    | nil => simp
    | cons g called ih =>
      intro acc
      rw [List.foldl_cons, ih, Finset.mem_union, List.exists_mem_cons_iff, or_assoc]
  rw [reachedByCalls, h]
  simp

theorem mem_reachedByValues {caps : Store String String} {values : List String} {c : String}
    {reached : Finset String} :
    c ∈ reachedByValues caps values reached ↔
      c ∈ reached ∨ ∃ g ∈ values, c ∈ caps g ∨ (c = starToken ∧ (caps g).Nonempty) := by
  unfold reachedByValues
  induction values generalizing reached with
  | nil => simp
  | cons g values ih =>
    rw [List.foldl_cons, ih, List.exists_mem_cons_iff, ← or_assoc]
    refine or_congr_left ?_
    by_cases hg : (caps g).card = 0
    · rw [if_pos hg]
      rw [Finset.card_eq_zero] at hg
      simp [hg]
    · rw [if_neg hg, Finset.mem_union, Finset.mem_insert]
      have hne : (caps g).Nonempty := Finset.card_pos.1 (Nat.pos_of_ne_zero hg)
      tauto

/-- What the rule asks for at a function: what a callee or a value reference holds, and `*`
for a value reference that holds anything. -/
theorem mem_rule_iff {caps : Store String String} {name c : String} :
    c ∈ rule fns caps name ↔ ∃ refs, Assoc.get? (callTable fns) name = some refs ∧
      ((∃ g, (g ∈ refs.called ∨ g ∈ refs.values) ∧ c ∈ caps g) ∨
        (c = starToken ∧ ∃ g ∈ refs.values, (caps g).Nonempty)) := by
  unfold rule
  cases Assoc.get? (callTable fns) name with
  | none => simp
  | some refs =>
    simp only [mem_reachedByValues, mem_reachedByCalls, Option.some.injEq, exists_eq_left']
    constructor
    · rintro (⟨g, hg, hc⟩ | ⟨g, hg, hc | ⟨rfl, hne⟩⟩)
      · exact .inl ⟨g, .inl hg, hc⟩
      · exact .inl ⟨g, .inr hg, hc⟩
      · exact .inr ⟨rfl, g, hg, hne⟩
    · rintro (⟨g, hg | hg, hc⟩ | ⟨rfl, g, hg, hne⟩)
      · exact .inl ⟨g, hg, hc⟩
      · exact .inr ⟨g, hg, .inl hc⟩
      · exact .inr ⟨g, hg, .inr ⟨rfl, hne⟩⟩

theorem rule_mono (fns : List Fn) : Monotone (rule fns) := by
  intro s t hst name c hc
  rw [mem_rule_iff] at hc ⊢
  obtain ⟨refs, hrefs, ⟨g, hg, hc⟩ | ⟨rfl, g, hg, hne⟩⟩ := hc
  · exact ⟨refs, hrefs, .inl ⟨g, hg, hst g hc⟩⟩
  · exact ⟨refs, hrefs, .inr ⟨rfl, g, hg, hne.mono (hst g)⟩⟩

theorem rule_of_not_mem_keys (caps : Store String String) {name : String}
    (h : name ∉ Assoc.keys (callTable fns)) : rule fns caps name = ∅ := by
  have hnone : Assoc.get? (callTable fns) name = none := by
    rw [Assoc.get?_eq_none_iff]
    exact fun v hv => h (Assoc.mem_keys.2 ⟨v, hv⟩)
  rw [rule, hnone]

theorem mem_tokens {c : String} : c ∈ tokens byName classes externs ↔
    c = starToken ∨ ∃ e ∈ seeding classes externs, c ∈ contribution byName e := by
  unfold tokens
  induction seeding classes externs with
  | nil => simp
  | cons e es ih =>
    rw [List.foldr_cons, Finset.mem_union, ih, List.exists_mem_cons_iff]
    tauto

theorem mem_of_seed {name c : String} (h : c ∈ seed byName classes externs name) :
    ∃ e ∈ seeding classes externs, e.name = name ∧ c ∈ contribution byName e := by
  unfold seed at h
  cases hg : Assoc.get? ((seeding classes externs).map fun e =>
      (e.name, contribution byName e)) name with
  | none => simp [hg] at h
  | some s =>
    rw [hg, Option.getD_some] at h
    obtain ⟨e, hext, heq⟩ := List.mem_map.1 (Assoc.mem_of_get? hg)
    obtain ⟨rfl, rfl⟩ := Prod.mk.inj heq
    exact ⟨e, hext, rfl, h⟩

theorem seed_subset (name : String) :
    seed byName classes externs name ⊆ tokens byName classes externs := by
  intro c hc
  obtain ⟨e, hext, -, hc⟩ := mem_of_seed hc
  exact mem_tokens.2 (.inr ⟨e, hext, hc⟩)

theorem rule_subset {s : Store String String} (name : String)
    (hs : ∀ j, s j ⊆ tokens byName classes externs) :
    rule fns s name ⊆ tokens byName classes externs := by
  intro c hc
  obtain ⟨refs, -, ⟨g, -, hc⟩ | ⟨rfl, -⟩⟩ := mem_rule_iff.1 hc
  · exact hs g hc
  · exact mem_tokens.2 (.inl rfl)

end Reading

/-- **Termination**: the loop ends within its bound of passes. -/
theorem loop_isSome (byName : Bool) (classes : List String) (fns : List Fn)
    (externs : List Extern) :
    (loop byName classes fns externs (passBound byName classes fns externs)).isSome := by
  refine iterate_isSome (U := tokens byName classes externs)
    (fun s k hs => rule_subset k hs) _ _ seed_subset ?_
  rw [passBound]
  omega

/-- `_emitting_capabilities`: the capabilities each name reaches; a name the returned map
lacks holds none. -/
def emittingCapabilities (byName : Bool) (classes : List String) (fns : List Fn)
    (externs : List Extern) : Store String String :=
  (loop byName classes fns externs (passBound byName classes fns externs)).get
    (loop_isSome byName classes fns externs)

theorem loop_eq_some (byName : Bool) (classes : List String) (fns : List Fn)
    (externs : List Extern) :
    loop byName classes fns externs (passBound byName classes fns externs) =
      some (emittingCapabilities byName classes fns externs) :=
  (Option.some_get _).symm

/-! ## Reachability -/

section Reachability

variable (byName : Bool) (classes : List String) (fns : List Fn) (externs : List Extern)

/-- A call edge or a first-class value reference out of a function. -/
def Edge (f g : String) : Prop :=
  ∃ fn ∈ fns, fn.name = f ∧ (g ∈ fn.refs.called ∨ g ∈ fn.refs.values)

/-- A chain of edges. -/
def Path : String → String → Prop := Relation.ReflTransGen (Edge fns)

/-- A path leads to a seeding extern. -/
def Live (f : String) : Prop := ∃ e ∈ seeding classes externs, Path fns f e.name

/-- A path leads to a seeding extern that contributes the capability. -/
def Reaches (f c : String) : Prop :=
  ∃ e ∈ seeding classes externs, c ∈ contribution byName e ∧ Path fns f e.name

/-- A path leads to a function that references a live name as a value, or to a seeding
extern that declares `*`. -/
def Dispatches (f : String) : Prop :=
  ∃ g, Path fns f g ∧
    ((∃ fn ∈ fns, fn.name = g ∧ ∃ r ∈ fn.refs.values, Live classes fns externs r) ∨
      ∃ e ∈ seeding classes externs, e.name = g ∧ starToken ∈ contribution byName e)

/-- What holding a capability means. -/
def Holds (f c : String) : Prop :=
  Reaches byName classes fns externs f c ∨ (c = starToken ∧ Dispatches byName classes fns externs f)

variable {byName classes fns externs}

theorem Holds.live {f c : String} (h : Holds byName classes fns externs f c) :
    Live classes fns externs f := by
  rcases h with ⟨e, hext, -, hpath⟩ | ⟨-, g, hpath, ⟨fn, hfn, hname, r, hr, e, hext, hlive⟩ |
    ⟨e, hext, rfl, -⟩⟩
  · exact ⟨e, hext, hpath⟩
  · have hedge : Edge fns g r := ⟨fn, hfn, hname, .inr hr⟩
    exact ⟨e, hext, hpath.trans (.head hedge hlive)⟩
  · exact ⟨e, hext, hpath⟩

theorem Holds.of_edge {f g c : String} (hedge : Edge fns f g)
    (h : Holds byName classes fns externs g c) : Holds byName classes fns externs f c := by
  rcases h with ⟨e, hext, hc, hpath⟩ | ⟨hc, g', hpath, hend⟩
  · exact .inl ⟨e, hext, hc, .head hedge hpath⟩
  · exact .inr ⟨hc, g', .head hedge hpath, hend⟩

theorem edge_of_get? {name g : String} {refs : Refs}
    (h : Assoc.get? (callTable fns) name = some refs)
    (hg : g ∈ refs.called ∨ g ∈ refs.values) : Edge fns name g := by
  obtain ⟨fn, hfn, heq⟩ := List.mem_map.1 (Assoc.mem_of_get? h)
  obtain ⟨hname, hrefs⟩ := Prod.mk.inj heq
  exact ⟨fn, hfn, hname, hrefs ▸ hg⟩

/-- Nothing spurious: whatever the result holds is reachable. -/
theorem holds_of_mem {f c : String} (h : c ∈ emittingCapabilities byName classes fns externs f) :
    Holds byName classes fns externs f c := by
  refine iterate_induction (P := Holds byName classes fns externs) ?_ ?_
    (loop_eq_some byName classes fns externs) f c h
  · -- the rule: an edge to a name that holds the capability, or to a live value
    intro s k hs c hc
    obtain ⟨refs, hrefs, ⟨g, hg, hc⟩ | ⟨rfl, g, hg, d, hd⟩⟩ := mem_rule_iff.1 hc
    · exact (hs g c hc).of_edge (edge_of_get? hrefs hg)
    · obtain ⟨fn, hfn, heq⟩ := List.mem_map.1 (Assoc.mem_of_get? hrefs)
      obtain ⟨hname, rfl⟩ := Prod.mk.inj heq
      exact .inr ⟨rfl, k, .refl, .inl ⟨fn, hfn, hname, g, hg, (hs g d hd).live⟩⟩
  · intro j c hc
    obtain ⟨e, hext, rfl, hmem⟩ := mem_of_seed hc
    exact .inl ⟨e, hext, hmem, .refl⟩

/-! ## Everything reachable is found, where names are distinct -/

variable (hfns : (fns.map Fn.name).Nodup) (hexts : (externs.map Extern.name).Nodup)

include hfns in
theorem get?_callTable {fn : Fn} (h : fn ∈ fns) :
    Assoc.get? (callTable fns) fn.name = some fn.refs := by
  refine (Assoc.get?_eq_some_iff ?_).2 (List.mem_map.2 ⟨fn, h, rfl⟩)
  rw [callTable, List.map_map]
  exact hfns

include hfns in
theorem mem_of_edge {f g c : String} (hedge : Edge fns f g)
    (h : c ∈ emittingCapabilities byName classes fns externs g) :
    c ∈ emittingCapabilities byName classes fns externs f := by
  obtain ⟨fn, hfn, rfl, hg⟩ := hedge
  have hget := get?_callTable hfns hfn
  refine iterate_closed (loop_eq_some byName classes fns externs) fn.name
    (Assoc.mem_keys.2 ⟨_, Assoc.mem_of_get? hget⟩) ?_
  exact mem_rule_iff.2 ⟨fn.refs, hget, .inl ⟨g, hg, h⟩⟩

include hfns in
theorem mem_of_path {f g c : String} (hpath : Path fns f g)
    (h : c ∈ emittingCapabilities byName classes fns externs g) :
    c ∈ emittingCapabilities byName classes fns externs f := by
  induction hpath using Relation.ReflTransGen.head_induction_on with
  | refl => exact h
  | head hedge _ ih => exact mem_of_edge hfns hedge ih

include hexts in
theorem mem_of_seeding {e : Extern} (hext : e ∈ seeding classes externs) {c : String}
    (hc : c ∈ contribution byName e) :
    c ∈ emittingCapabilities byName classes fns externs e.name := by
  have hnd : (((seeding classes externs).map fun e =>
      (e.name, contribution byName e)).map Prod.fst).Nodup := by
    rw [List.map_map]
    exact hexts.sublist (List.filter_sublist.map _)
  have hget := (Assoc.get?_eq_some_iff hnd).2 (List.mem_map.2 ⟨e, hext, rfl⟩)
  refine iterate_le (loop_eq_some byName classes fns externs) e.name ?_
  rw [seed, hget]
  exact hc

include hfns hexts in
theorem nonempty_iff_live {f : String} :
    (emittingCapabilities byName classes fns externs f).Nonempty ↔
      Live classes fns externs f := by
  constructor
  · rintro ⟨c, hc⟩
    exact (holds_of_mem hc).live
  · rintro ⟨e, hext, hpath⟩
    obtain ⟨c, hc⟩ := contribution_nonempty byName e
    exact ⟨c, mem_of_path hfns hpath (mem_of_seeding hexts hext hc)⟩

include hfns hexts in
theorem mem_of_reaches {f c : String} (h : Reaches byName classes fns externs f c) :
    c ∈ emittingCapabilities byName classes fns externs f := by
  obtain ⟨e, hext, hc, hpath⟩ := h
  exact mem_of_path hfns hpath (mem_of_seeding hexts hext hc)

include hfns hexts in
theorem star_mem_of_dispatches {f : String} (h : Dispatches byName classes fns externs f) :
    starToken ∈ emittingCapabilities byName classes fns externs f := by
  obtain ⟨g, hpath, ⟨fn, hfn, rfl, r, hr, hlive⟩ | ⟨e, hext, rfl, hstar⟩⟩ := h
  · refine mem_of_path hfns hpath ?_
    have hget := get?_callTable hfns hfn
    refine iterate_closed (loop_eq_some byName classes fns externs) fn.name
      (Assoc.mem_keys.2 ⟨_, Assoc.mem_of_get? hget⟩) ?_
    exact mem_rule_iff.2 ⟨fn.refs, hget, .inr ⟨rfl, r, hr, (nonempty_iff_live hfns hexts).2 hlive⟩⟩
  · exact mem_of_path hfns hpath (mem_of_seeding hexts hext hstar)

end Reachability

/-! ## The order of the declarations -/

theorem callTable_perm {fns fns' : List Fn} (h : fns.Perm fns') :
    (callTable fns).Perm (callTable fns') := h.map _

theorem rule_perm {fns fns' : List Fn} (hfns : (fns.map Fn.name).Nodup)
    (h : fns.Perm fns') : rule fns = rule fns' := by
  have hnd : ((callTable fns).map Prod.fst).Nodup := by
    rw [callTable, List.map_map]
    exact hfns
  funext caps name
  unfold rule
  rw [Assoc.get?_perm hnd (callTable_perm h) name]

theorem seed_perm {byName : Bool} {classes : List String} {externs externs' : List Extern}
    (hexts : (externs.map Extern.name).Nodup) (h : externs.Perm externs') :
    seed byName classes externs = seed byName classes externs' := by
  have hnd : (((seeding classes externs).map fun e =>
      (e.name, contribution byName e)).map Prod.fst).Nodup := by
    rw [List.map_map]
    exact hexts.sublist (List.filter_sublist.map _)
  funext name
  have hperm : (seeding classes externs).Perm (seeding classes externs') := h.filter _
  unfold seed
  rw [Assoc.get?_perm hnd (hperm.map fun e => (e.name, contribution byName e)) name]

/-- **Declaration order does not matter.** -/
theorem emittingCapabilities_perm {byName : Bool} {classes : List String}
    {fns fns' : List Fn} {externs externs' : List Extern}
    (hfns : (fns.map Fn.name).Nodup) (hexts : (externs.map Extern.name).Nodup)
    (hf : fns.Perm fns') (he : externs.Perm externs') :
    emittingCapabilities byName classes fns externs =
      emittingCapabilities byName classes fns' externs' := by
  have h := loop_eq_some byName classes fns externs
  have h' := loop_eq_some byName classes fns' externs'
  rw [loop, ← rule_perm hfns hf, ← seed_perm hexts he] at h'
  exact iterate_perm (rule_mono fns) (fun s k hk => rule_of_not_mem_keys s hk)
    (Assoc.keys_perm (callTable_perm hf)) h h'

/-- **The emission fixed point is reachability.** For functions and externs with distinct
names the loop ends, whatever larger bound it is given; a name holds a capability other
than `*` exactly when a path leads to a seeding extern that contributes it, and `*` exactly
when a path leads to a function that references a name holding anything as a value, or to
an extern that declares `*`; and the order of the declarations does not matter. -/
theorem emittingCapabilities_exact (byName : Bool) (classes : List String) (fns : List Fn)
    (externs : List Extern)
    (hnames : (fns.map Fn.name ++ externs.map Extern.name).Nodup) :
    (∀ bound ≥ passBound byName classes fns externs, loop byName classes fns externs bound =
      some (emittingCapabilities byName classes fns externs)) ∧
    (∀ f c, c ≠ starToken → (c ∈ emittingCapabilities byName classes fns externs f ↔
      ∃ e ∈ seeding classes externs, c ∈ contribution byName e ∧ Path fns f e.name)) ∧
    (∀ f, starToken ∈ emittingCapabilities byName classes fns externs f ↔
      ∃ g, Path fns f g ∧
        ((∃ fn ∈ fns, fn.name = g ∧ ∃ r ∈ fn.refs.values,
            (emittingCapabilities byName classes fns externs r).Nonempty) ∨
          ∃ e ∈ seeding classes externs, e.name = g ∧ starToken ∈ contribution byName e)) ∧
    (∀ fns' externs', fns.Perm fns' → externs.Perm externs' →
      emittingCapabilities byName classes fns' externs' =
        emittingCapabilities byName classes fns externs) := by
  have hfns : (fns.map Fn.name).Nodup := hnames.of_append_left
  have hexts : (externs.map Extern.name).Nodup := hnames.of_append_right
  refine ⟨fun bound hbound => ?_, fun f c hc => ?_, fun f => ?_, fun fns' externs' hf he => ?_⟩
  · exact iterate_mono (loop_eq_some byName classes fns externs) hbound
  · refine ⟨fun h => ?_, fun h => mem_of_reaches hfns hexts h⟩
    exact (holds_of_mem h).resolve_right fun hstar => hc hstar.1
  · have hlive : ∀ r, (emittingCapabilities byName classes fns externs r).Nonempty ↔
        Live classes fns externs r := fun r => nonempty_iff_live hfns hexts
    simp only [hlive]
    refine ⟨fun h => ?_, fun h => star_mem_of_dispatches hfns hexts h⟩
    rcases holds_of_mem h with ⟨e, hext, hstar, hpath⟩ | ⟨-, hdispatch⟩
    · exact ⟨e.name, hpath, .inr ⟨e, hext, rfl, hstar⟩⟩
    · exact hdispatch
  · exact (emittingCapabilities_perm hfns hexts hf he).symm

/-- A function that hands an emitting extern to a dispatcher as a value: `*` reaches its
callers. -/
theorem emittingCapabilities_exact_escaping_value :
    starToken ∈ emittingCapabilities false crossingClasses
      [⟨"caller", .arr [.obj [("kind", .str "fn"), ("name", .str "hand")]]⟩,
        ⟨"hand", .arr [.obj [("kind", .str "var"), ("name", .str "send")]]⟩]
      [⟨"send", some "emission", [], false⟩] "caller" := by
  refine ((emittingCapabilities_exact false crossingClasses _ _ (by decide)).2.2.1 _).2
    ⟨"hand", .single ⟨⟨"caller", _⟩, List.mem_cons_self, rfl, .inl (by decide)⟩, .inl ?_⟩
  refine ⟨⟨"hand", _⟩, List.mem_cons_of_mem _ List.mem_cons_self, rfl, "send", by decide, ?_⟩
  exact ⟨"send", by decide⟩

/-! ## Added declarations -/

section Added

variable {byName : Bool} {classes : List String} {fns fns' : List Fn}
  {externs : List Extern}

theorem get?_callTable_added (name : String) : Assoc.get? (callTable (fns' ++ fns)) name =
    (Assoc.get? (callTable fns) name).or (Assoc.get? (callTable fns') name) := by
  rw [callTable, List.map_append, Assoc.get?_append]
  rfl

theorem seed_added (externs' : List Extern) {e : Extern} (h : e ∈ seeding classes externs) :
    seed byName classes (externs' ++ externs) e.name = seed byName classes externs e.name := by
  obtain ⟨s, hs⟩ := Option.isSome_iff_exists.1 (Assoc.get?_isSome_of_mem
    (List.mem_map_of_mem (f := fun e => (e.name, contribution byName e)) h))
  unfold seed
  rw [hs, seeding, List.filter_append, List.map_append, Assoc.get?_append]
  exact congrArg (fun o => (Option.or o _).getD ∅) hs

/-- **Declarations that are added take no emission away, and they add one only where a path leads to
one of them.** They stand ahead of the others, so that none of these is overridden. -/
theorem emittingCapabilities_added (byName : Bool) (classes : List String) (fns fns' : List Fn)
    (externs externs' : List Extern) (f : String) :
    emittingCapabilities byName classes fns externs f ⊆
      emittingCapabilities byName classes (fns' ++ fns) (externs' ++ externs) f ∧
    ∀ c ∈ emittingCapabilities byName classes (fns' ++ fns) (externs' ++ externs) f,
      c ∈ emittingCapabilities byName classes fns externs f ∨
        ∃ g, Path (fns' ++ fns) f g ∧
          (g ∈ fns'.map Fn.name ∨ g ∈ (seeding classes externs').map Extern.name) := by
  have hold := loop_eq_some byName classes fns externs
  have hnew := loop_eq_some byName classes (fns' ++ fns) (externs' ++ externs)
  constructor
  · refine iterate_induction (P := fun f c =>
      c ∈ emittingCapabilities byName classes (fns' ++ fns) (externs' ++ externs) f)
      (fun s k hs c hc => ?_) (fun j c hc => ?_) hold f
    · obtain ⟨refs, hrefs, hc⟩ := mem_rule_iff.1 hc
      have hget : Assoc.get? (callTable (fns' ++ fns)) k = some refs := by
        rw [get?_callTable_added, hrefs, Option.some_or]
      refine iterate_closed hnew k (Assoc.mem_keys.2 ⟨_, Assoc.mem_of_get? hget⟩)
        (mem_rule_iff.2 ⟨refs, hget, ?_⟩)
      exact hc.imp (fun ⟨g, hg, hc⟩ => ⟨g, hg, hs g c hc⟩) fun ⟨hstar, g, hg, d, hd⟩ =>
        ⟨hstar, g, hg, d, hs g d hd⟩
    · obtain ⟨e, hext, rfl, -⟩ := mem_of_seed hc
      exact iterate_le hnew e.name (seed_added externs' hext ▸ hc)
  · refine iterate_induction (P := fun f c =>
      c ∈ emittingCapabilities byName classes fns externs f ∨ ∃ g, Path (fns' ++ fns) f g ∧
        (g ∈ fns'.map Fn.name ∨ g ∈ (seeding classes externs').map Extern.name))
      (fun s k hs c hc => ?_) (fun j c hc => ?_) hnew f
    · obtain ⟨refs, hrefs, hc⟩ := mem_rule_iff.1 hc
      have hpath : ∀ g g', (g ∈ refs.called ∨ g ∈ refs.values) → Path (fns' ++ fns) g g' →
          Path (fns' ++ fns) k g' := fun g g' hg => .head (edge_of_get? hrefs hg)
      rw [get?_callTable_added] at hrefs
      cases hget : Assoc.get? (callTable fns) k with
      | none =>
        rw [hget, Option.none_or] at hrefs
        obtain ⟨fn, hfn, heq⟩ := List.mem_map.1 (Assoc.mem_of_get? hrefs)
        exact .inr ⟨k, .refl, .inl (List.mem_map.2 ⟨fn, hfn, congrArg Prod.fst heq⟩)⟩
      | some refs' =>
        rw [hget, Option.some_or] at hrefs
        obtain rfl := Option.some.inj hrefs
        have hclosed := iterate_closed hold k (Assoc.mem_keys.2 ⟨_, Assoc.mem_of_get? hget⟩)
        obtain ⟨g, hg, hc⟩ | ⟨rfl, g, hg, d, hd⟩ := hc
        · exact (hs g c hc).imp (fun hc => hclosed (mem_rule_iff.2 ⟨_, hget, .inl ⟨g, hg, hc⟩⟩))
            fun ⟨g', h, hadded⟩ => ⟨g', hpath g g' hg h, hadded⟩
        · exact (hs g d hd).imp
            (fun hd => hclosed (mem_rule_iff.2 ⟨_, hget, .inr ⟨rfl, g, hg, d, hd⟩⟩))
            fun ⟨g', h, hadded⟩ => ⟨g', hpath g g' (.inr hg) h, hadded⟩
    · obtain ⟨e, hext, rfl, -⟩ := mem_of_seed hc
      rw [seeding, List.filter_append, List.mem_append] at hext
      rcases hext with hext | hext
      · exact .inr ⟨e.name, .refl, .inr (List.mem_map_of_mem hext)⟩
      · exact .inl (iterate_le hold e.name (seed_added externs' hext ▸ hc))

end Added

end Revl.Emission
