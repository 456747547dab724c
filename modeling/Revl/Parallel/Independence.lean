import Revl.Parallel.Plan

/-!
# What the parallel partition guarantees

The bodies of a component flatten to a sequence of marks: emissions, steps that can be
filler, and breaks. A group is a contiguous stretch of marks without a break or a
crossing filler, and its members are pairwise compatible on what they **declare**.
What an emission's own argument expressions cross is not read by the partition, so the
members are independent in everything they reach exactly as far as declared
compatibility implies it.

- `marks`, `walk_eq_foldl`: the nested walk is a fold over the flat sequence.
- `Partitioned`, `partitioned_walk`: **the invariant of the walk**.
- `Crosses`, `FullyIndependent`: independence with the argument crossings counted.
- `PlanIndependent`, `ArgumentsAgree`, `OpeningsAgree`, `planIndependent_bounds`: **when the
  plan is independent**, and the openings where it is not.
-/

namespace Revl.Parallel

open Revl.CapOrder Revl.Emission

/-! ## The flat sequence of marks -/

/-- What the partition sees of a body, in order. -/
inductive Mark where
  | emit (node : Json)
  | filler (node : Json)
  | brk
  deriving DecidableEq

mutual

/-- The marks of a body; a registered body stands between breaks. -/
def marks : List Step → List Mark
  | [] => []
  | step :: steps => stepMarks step ++ marks steps

def stepMarks : Step → List Mark
  | .emit node => [.emit node]
  | .provide methods => .brk :: methodMarks methods
  | .timer body => .brk :: (marks body ++ [.brk])
  | .eligible node => [.filler node]
  | .other _ => [.brk]

def methodMarks : List (List Step) → List Mark
  | [] => []
  | body :: methods => marks body ++ .brk :: methodMarks methods

end

/-- The emissions among the marks. -/
def emitNodes (ms : List Mark) : List Json :=
  ms.filterMap fun
    | .emit node => some node
    | _ => none

@[simp] theorem emitNodes_nil : emitNodes [] = [] := rfl

@[simp] theorem emitNodes_append (l m : List Mark) :
    emitNodes (l ++ m) = emitNodes l ++ emitNodes m := List.filterMap_append

@[simp] theorem emitNodes_emit (node : Json) : emitNodes [.emit node] = [node] := rfl

@[simp] theorem emitNodes_filler (node : Json) : emitNodes [.filler node] = [] := rfl

@[simp] theorem emitNodes_brk : emitNodes [.brk] = [] := rfl

section Component

variable (ir : Ir) (comp : Component) (capsMap : Fixpoint.Store String String)

/-- The partitioner at one mark. -/
def markStep (p : Partitioner) : Mark → Partitioner
  | .emit node => addEmit ir comp p node
  | .filler node => if (stepReach ir comp capsMap node).isSome then p.sealed else p
  | .brk => p.sealed

mutual

/-- **The nested walk is a fold over the marks.** -/
theorem walk_eq_foldl : ∀ (steps : List Step) (p : Partitioner),
    walk ir comp capsMap steps p = (marks steps).foldl (markStep ir comp capsMap) p
  | [], _ => rfl
  | step :: steps, p => by
    rw [walk, marks, List.foldl_append, walkStep_eq_foldl step p, walk_eq_foldl steps]

theorem walkStep_eq_foldl : ∀ (step : Step) (p : Partitioner),
    walkStep ir comp capsMap step p = (stepMarks step).foldl (markStep ir comp capsMap) p
  | .emit _, _ => rfl
  | .provide methods, p => by
    rw [walkStep, stepMarks, List.foldl_cons, walkMethods_eq_foldl methods]
    rfl
  | .timer body, p => by
    rw [walkStep, stepMarks, List.foldl_cons, List.foldl_append, walk_eq_foldl body]
    rfl
  | .eligible _, _ => rfl
  | .other _, _ => rfl

theorem walkMethods_eq_foldl : ∀ (methods : List (List Step)) (p : Partitioner),
    walkMethods ir comp capsMap methods p =
      (methodMarks methods).foldl (markStep ir comp capsMap) p
  | [], _ => rfl
  | body :: methods, p => by
    rw [walkMethods, methodMarks, List.foldl_append, List.foldl_cons, walk_eq_foldl body,
      walkMethods_eq_foldl methods]
    rfl

end

/-! ## The invariant of the walk -/

/-- A mark a group may span: an emission, or filler that crosses nothing. -/
def Passable : Mark → Prop
  | .emit _ => True
  | .filler node => stepReach ir comp capsMap node = none
  | .brk => False

/-- A stretch without a barrier. -/
def Straight (seg : List Mark) : Prop := ∀ m ∈ seg, Passable ir comp capsMap m

/-- The members are pairwise compatible on what they declare. -/
def Compatible (g : List Emission) : Prop := g.Pairwise fun a b => compatible a b = true

/-- A sealed group: the emissions of one straight stretch, pairwise compatible. -/
structure GroupOf (ms : List Mark) (g : List Emission) : Prop where
  nonempty : g ≠ []
  compat : Compatible g
  stretch : ∃ pre seg post, ms = pre ++ seg ++ post ∧ Straight ir comp capsMap seg ∧
    emitNodes seg = g.map Emission.step

/-- The open group: the emissions of a straight stretch that reaches the last mark. -/
structure OpenOf (ms : List Mark) (g : List Emission) : Prop where
  compat : Compatible g
  stretch : ∃ pre seg, ms = pre ++ seg ∧ Straight ir comp capsMap seg ∧
    emitNodes seg = g.map Emission.step

/-- The emissions of a sequence of marks, numbered in order. -/
def numbered (ms : List Mark) : List Emission :=
  (emitNodes ms).mapIdx fun i node => emissionOf ir comp i node

/-- **The invariant**: every emission seen so far stands in a sealed group or in the open
one, in order and under its number, and each group is a compatible straight stretch. -/
structure Partitioned (ms : List Mark) (p : Partitioner) : Prop where
  flat : p.groups.flatten ++ p.current = numbered ir comp ms
  next : p.nextIndex = (emitNodes ms).length
  groups : ∀ g ∈ p.groups, GroupOf ir comp capsMap ms g
  open_ : OpenOf ir comp capsMap ms p.current

variable {ir comp capsMap}

theorem OpenOf.nil (ms : List Mark) : OpenOf ir comp capsMap ms [] :=
  ⟨List.Pairwise.nil, ms, [], by simp, fun _ h => absurd h List.not_mem_nil, rfl⟩

theorem OpenOf.group {ms : List Mark} {g : List Emission} (h : OpenOf ir comp capsMap ms g)
    (hne : g ≠ []) : GroupOf ir comp capsMap ms g := by
  obtain ⟨hcompat, pre, seg, rfl, hseg, hnodes⟩ := h
  exact ⟨hne, hcompat, pre, seg, [], by simp, hseg, hnodes⟩

theorem GroupOf.append {ms : List Mark} {g : List Emission} (h : GroupOf ir comp capsMap ms g)
    (more : List Mark) : GroupOf ir comp capsMap (ms ++ more) g := by
  obtain ⟨hne, hcompat, pre, seg, post, rfl, hseg, hnodes⟩ := h
  exact ⟨hne, hcompat, pre, seg, post ++ more, by simp, hseg, hnodes⟩

/-- A passable mark keeps the open stretch open. -/
theorem OpenOf.append {ms : List Mark} {g : List Emission} (h : OpenOf ir comp capsMap ms g)
    {m : Mark} (hm : Passable ir comp capsMap m) {l : List Emission}
    (hcompat : Compatible (g ++ l)) (hnodes : emitNodes [m] = l.map Emission.step) :
    OpenOf ir comp capsMap (ms ++ [m]) (g ++ l) := by
  obtain ⟨-, pre, seg, rfl, hseg, hseg'⟩ := h
  refine ⟨hcompat, pre, seg ++ [m], by simp, ?_, ?_⟩
  · intro m' hm'
    rcases List.mem_append.1 hm' with h | h
    · exact hseg m' h
    · rw [List.mem_singleton.1 h]
      exact hm
  · rw [emitNodes_append, hseg', hnodes, List.map_append]

theorem Partitioned.sealed {ms : List Mark} {p : Partitioner}
    (h : Partitioned ir comp capsMap ms p) : Partitioned ir comp capsMap ms p.sealed := by
  unfold Partitioner.sealed
  split_ifs with hcur
  · exact h
  · refine ⟨?_, h.next, ?_, OpenOf.nil ms⟩
    · rw [← h.flat]
      simp
    · intro g hg
      rcases List.mem_append.1 hg with hg | hg
      · exact h.groups g hg
      · rw [List.mem_singleton.1 hg]
        exact h.open_.group hcur

theorem sealed_current (p : Partitioner) : p.sealed.current = [] := by
  unfold Partitioner.sealed
  split_ifs with hcur
  · exact hcur
  · rfl

@[simp] theorem sealed_nextIndex (p : Partitioner) : p.sealed.nextIndex = p.nextIndex := by
  unfold Partitioner.sealed
  split_ifs <;> rfl

/-- Marks that hold no emission leave the numbering alone. -/
theorem numbered_append_of_no_emit {ms : List Mark} {m : Mark} (h : emitNodes [m] = []) :
    numbered ir comp (ms ++ [m]) = numbered ir comp ms := by
  rw [numbered, emitNodes_append, h, List.append_nil, numbered]

theorem numbered_append_emit (ms : List Mark) (node : Json) :
    numbered ir comp (ms ++ [.emit node]) =
      numbered ir comp ms ++ [emissionOf ir comp (emitNodes ms).length node] := by
  rw [numbered, emitNodes_append, emitNodes_emit, List.mapIdx_append, numbered]
  simp

/-- A break, or filler that crosses something, with the open group sealed. -/
theorem Partitioned.brk {ms : List Mark} {p : Partitioner}
    (h : Partitioned ir comp capsMap ms p) {m : Mark} (hm : emitNodes [m] = []) :
    Partitioned ir comp capsMap (ms ++ [m]) p.sealed := by
  have hs := h.sealed
  refine ⟨?_, ?_, fun g hg => (hs.groups g hg).append _, ?_⟩
  · rw [hs.flat, numbered_append_of_no_emit hm]
  · rw [hs.next, emitNodes_append, hm, List.append_nil]
  · rw [sealed_current]
    exact OpenOf.nil _

@[simp] theorem emissionOf_step (i : Nat) (node : Json) :
    (emissionOf ir comp i node).step = node := by
  unfold emissionOf
  split <;> rfl

/-- Adding the next emission: it joins the open group, or opens a new one. -/
theorem Partitioned.add {ms : List Mark} {p : Partitioner}
    (h : Partitioned ir comp capsMap ms p) (node : Json) :
    Partitioned ir comp capsMap (ms ++ [.emit node])
      (p.add (emissionOf ir comp p.nextIndex node)) := by
  have hpass : Passable ir comp capsMap (.emit node) := trivial
  unfold Partitioner.add
  split_ifs with hjoin
  · -- the whole open group is compatible with the newcomer
    have hcompat : Compatible (p.current ++ [emissionOf ir comp p.nextIndex node]) := by
      refine List.pairwise_append.2 ⟨h.open_.compat, List.pairwise_singleton _ _, ?_⟩
      intro a ha b hb
      rw [List.mem_singleton.1 hb]
      exact List.all_eq_true.1 hjoin.2 a ha
    refine ⟨?_, ?_, fun g hg => (h.groups g hg).append _,
      h.open_.append hpass hcompat (by simp)⟩
    · rw [← List.append_assoc, h.flat, numbered_append_emit, h.next]
    · simp [h.next]
  · have hs := h.sealed
    have hnil : OpenOf ir comp capsMap ms [] := OpenOf.nil ms
    have hopen := hnil.append hpass
      (l := [emissionOf ir comp p.nextIndex node]) (List.pairwise_singleton _ _) (by simp)
    refine ⟨?_, ?_, fun g hg => (hs.groups g hg).append _, hopen⟩
    · have hflat := hs.flat
      rw [sealed_current, List.append_nil] at hflat
      simp only [hflat, numbered_append_emit, h.next]
    · simp [h.next]

/-- **One mark keeps the invariant.** -/
theorem partitioned_step {ms : List Mark} {p : Partitioner}
    (h : Partitioned ir comp capsMap ms p) (m : Mark) :
    Partitioned ir comp capsMap (ms ++ [m]) (markStep ir comp capsMap p m) := by
  cases m with
  | emit node =>
    rw [markStep, addEmit]
    split_ifs with hres
    · exact h.add node
    · have := h.sealed.add node
      rwa [sealed_nextIndex] at this
  | brk => exact h.brk rfl
  | filler node =>
    rw [markStep]
    split_ifs with hreach
    · exact h.brk rfl
    · have hpass : Passable ir comp capsMap (.filler node) := by
        simpa [Passable] using hreach
      have hopen := h.open_.append hpass (l := []) (by simpa using h.open_.compat) rfl
      rw [List.append_nil] at hopen
      refine ⟨?_, ?_, fun g hg => (h.groups g hg).append _, hopen⟩
      · rw [h.flat, numbered_append_of_no_emit rfl]
      · simp [h.next]

theorem partitioned_foldl (more : List Mark) {ms : List Mark} {p : Partitioner}
    (h : Partitioned ir comp capsMap ms p) :
    Partitioned ir comp capsMap (ms ++ more) (more.foldl (markStep ir comp capsMap) p) := by
  induction more generalizing ms p with
  | nil => simpa using h
  | cons m more ih =>
    have := ih (partitioned_step h m)
    rwa [List.append_assoc, List.singleton_append] at this

/-- **The invariant of a whole walk**, the trailing group sealed. -/
theorem partitioned_walk (steps : List Step) :
    Partitioned ir comp capsMap (marks steps) (walk ir comp capsMap steps .init).sealed := by
  have hinit : Partitioned ir comp capsMap [] .init :=
    ⟨rfl, rfl, fun _ h => absurd h List.not_mem_nil, OpenOf.nil []⟩
  have := (partitioned_foldl (marks steps) hinit).sealed
  rwa [← walk_eq_foldl, List.nil_append] at this

/-! ## Everything an emission crosses -/

mutual

/-- The emissions nested anywhere in a tree, with their declared capabilities. -/
def nestedEmissions (ir : Ir) (comp : Component) : Json → List (List String × Bool)
  | .obj fields =>
    (resolveEmission ir comp (.obj fields)).toList ++ nestedInFields ir comp fields
  | .arr items => nestedInItems ir comp items
  | _ => []

def nestedInItems (ir : Ir) (comp : Component) : List Json → List (List String × Bool)
  | [] => []
  | item :: items => nestedEmissions ir comp item ++ nestedInItems ir comp items

def nestedInFields (ir : Ir) (comp : Component) :
    List (String × Json) → List (List String × Bool)
  | [] => []
  | field :: fields => nestedInField ir comp field ++ nestedInFields ir comp fields

def nestedInField (ir : Ir) (comp : Component) : String × Json → List (List String × Bool)
  | (_, value) => nestedEmissions ir comp value

end

/-- The subexpressions an expression evaluates: its receiver and its arguments. -/
def argNodes : Json → List Json
  | .obj fields => fields.map Prod.snd
  | _ => []

variable (ir comp capsMap)

/-- A capability the arguments of an expression reach: through a name they call, or through
an emission written in them. -/
def ArgReaches (expr : Json) (s : String) : Prop :=
  ∃ arg ∈ argNodes expr, s ∈ calledCaps capsMap arg ∨
    ∃ res ∈ nestedEmissions ir comp arg, s ∈ res.1

/-- What an emission crosses: its declared capabilities, and what its arguments reach. -/
def Crosses (e : Emission) (c : Cap) : Prop :=
  c ∈ e.caps ∨ ∃ s, ArgReaches ir comp capsMap (emitExpr e.step) s ∧ c = parseDeclared s

/-- Independence in everything two emissions cross: disjoint tokens, or one capability set
and both commutative; and no crossing that cannot be named. -/
structure FullyIndependent (a b : Emission) : Prop where
  sep : (∀ x y, Crosses ir comp capsMap a x → Crosses ir comp capsMap b y → x.token ≠ y.token) ∨
    ((∀ c, Crosses ir comp capsMap a c ↔ Crosses ir comp capsMap b c) ∧
      a.commutative = true ∧ b.commutative = true)
  left_named : ∀ c, Crosses ir comp capsMap a c → c.token ≠ starToken
  right_named : ∀ c, Crosses ir comp capsMap b c → c.token ≠ starToken

variable {ir comp capsMap}

theorem hasStar_eq_false {e : Emission} :
    hasStar e = false ↔ ∀ c ∈ e.caps, c.token ≠ starToken := by
  simp [hasStar]

/-- What the declared test says of two emissions. -/
theorem compatible_iff {a b : Emission} :
    compatible a b = true ↔ (∀ c ∈ a.caps, c.token ≠ starToken) ∧ (∀ c ∈ b.caps, c.token ≠ starToken) ∧
      ((∀ x ∈ a.caps, ∀ y ∈ b.caps, x.token ≠ y.token) ∨
        ((∀ c, c ∈ a.caps ↔ c ∈ b.caps) ∧ a.commutative = true ∧ b.commutative = true)) := by
  unfold compatible independent reorderable sameKey
  by_cases hs : hasStar a = true ∨ hasStar b = true
  · have hor : (hasStar a || hasStar b) = true := by simpa using hs
    simp only [hor, if_true, Bool.false_and, Bool.or_self]
    refine iff_of_false (by simp) ?_
    rintro ⟨ha, hb, -⟩
    rw [← hasStar_eq_false] at ha hb
    simp [ha, hb] at hs
  · rw [not_or, Bool.not_eq_true, Bool.not_eq_true] at hs
    have ha := hasStar_eq_false.1 hs.1
    have hb := hasStar_eq_false.1 hs.2
    have hdis : (a.caps.all fun x => b.caps.all fun y => disjoint x y) = true ↔
        ∀ x ∈ a.caps, ∀ y ∈ b.caps, x.token ≠ y.token := by
      simp only [List.all_eq_true]
      refine forall₂_congr fun x hx => forall₂_congr fun y hy => ?_
      have hx := ha x hx
      have hy := hb y hy
      unfold starToken at hx hy
      simp [disjoint, hx, hy]
    have hset : (decide (a.caps ⊆ b.caps) && decide (b.caps ⊆ a.caps)) = true ↔
        ∀ c, c ∈ a.caps ↔ c ∈ b.caps := by
      simp only [Bool.and_eq_true, decide_eq_true_eq, List.subset_def]
      constructor
      · rintro ⟨hab, hba⟩ c
        exact ⟨fun hc => hab hc, fun hc => hba hc⟩
      · intro h
        exact ⟨@fun c hc => (h c).1 hc, @fun c hc => (h c).2 hc⟩
    simp only [hs.1, hs.2, Bool.or_self, Bool.false_eq_true, if_false, Bool.or_eq_true,
      Bool.and_eq_true] at *
    rw [hdis, hset]
    tauto

/-- An emission's number plays no part in what it is compatible with. -/
theorem emissionOf_index (i : Nat) (node : Json) :
    emissionOf ir comp i node = { emissionOf ir comp 0 node with index := i } := by
  unfold emissionOf
  split <;> rfl

theorem compatible_emissionOf (i j : Nat) (a b : Json) :
    compatible (emissionOf ir comp i a) (emissionOf ir comp j b) =
      compatible (emissionOf ir comp 0 a) (emissionOf ir comp 0 b) := by
  rw [emissionOf_index i, emissionOf_index j]
  rfl

theorem fullyIndependent_emissionOf {i j : Nat} {a b : Json} :
    FullyIndependent ir comp capsMap (emissionOf ir comp i a) (emissionOf ir comp j b) ↔
      FullyIndependent ir comp capsMap (emissionOf ir comp 0 a) (emissionOf ir comp 0 b) := by
  rw [emissionOf_index i, emissionOf_index j]
  exact ⟨fun ⟨h1, h2, h3⟩ => ⟨h1, h2, h3⟩, fun ⟨h1, h2, h3⟩ => ⟨h1, h2, h3⟩⟩

end Component

/-! ## Independence of the plan -/

section Plan

variable (ir : Ir) (comp : Component)

/-- The partition as it is meant: the groups list the emissions in order, each group is a
straight stretch, and the members of a larger group are independent in everything they
cross, their arguments included. -/
structure PlanIndependent : Prop where
  ordered : (planGroups ir comp).flatten.map Emission.index =
    List.range (emitNodes (marks comp.body)).length
  straight : ∀ g ∈ planGroups ir comp, g ≠ [] ∧ ∃ pre seg post,
    marks comp.body = pre ++ seg ++ post ∧ Straight ir comp (fnCapsMap ir) seg ∧
      emitNodes seg = g.map Emission.step
  independent : ∀ g ∈ planGroups ir comp, 1 < g.length →
    g.Pairwise (FullyIndependent ir comp (fnCapsMap ir))

/-- Counting the crossings of their arguments, two emissions that declare to be compatible
still are. -/
def PairAgrees (a b : Json) : Prop :=
  compatible (emissionOf ir comp 0 a) (emissionOf ir comp 0 b) = true →
    FullyIndependent ir comp (fnCapsMap ir) (emissionOf ir comp 0 a) (emissionOf ir comp 0 b)

/-- Every two emissions of a straight stretch agree. -/
def ArgumentsAgree : Prop :=
  ∀ pre seg post, marks comp.body = pre ++ seg ++ post → Straight ir comp (fnCapsMap ir) seg →
    (emitNodes seg).Pairwise (PairAgrees ir comp)

/-- The first two emissions of every straight stretch that follows a barrier agree. -/
def OpeningsAgree : Prop :=
  ∀ pre seg post a b, marks comp.body = pre ++ seg ++ post →
    (pre = [] ∨ ∃ pre' m, pre = pre' ++ [m] ∧ ¬ Passable ir comp (fnCapsMap ir) m) →
    Straight ir comp (fnCapsMap ir) seg → emitNodes seg = [a, b] → PairAgrees ir comp a b

variable {ir comp}

variable (ir comp) in
theorem planGroups_partitioned :
    ∃ p, Partitioned ir comp (fnCapsMap ir) (marks comp.body) p ∧
      p.groups = planGroups ir comp ∧ p.current = [] :=
  ⟨_, partitioned_walk comp.body, rfl, sealed_current _⟩

theorem planGroups_flatten : (planGroups ir comp).flatten = numbered ir comp (marks comp.body) := by
  obtain ⟨p, hp, hgroups, hcur⟩ := planGroups_partitioned ir comp
  rw [← hp.flat, hgroups, hcur, List.append_nil]

theorem planGroups_group {g : List Emission} (h : g ∈ planGroups ir comp) :
    GroupOf ir comp (fnCapsMap ir) (marks comp.body) g := by
  obtain ⟨p, hp, hgroups, -⟩ := planGroups_partitioned ir comp
  exact hp.groups g (hgroups ▸ h)

/-- A member of a group is the emission of its step. -/
theorem eq_emissionOf_of_mem {g : List Emission} (hg : g ∈ planGroups ir comp) {e : Emission}
    (he : e ∈ g) : ∃ i, e = emissionOf ir comp i e.step := by
  have hmem : e ∈ numbered ir comp (marks comp.body) := by
    rw [← planGroups_flatten]
    exact List.mem_flatten.2 ⟨g, hg, he⟩
  obtain ⟨i, hi, rfl⟩ := List.mem_mapIdx.1 hmem
  exact ⟨i, by rw [emissionOf_step]⟩

theorem index_emissionOf (i : Nat) (node : Json) : (emissionOf ir comp i node).index = i := by
  rw [emissionOf_index]

/-- The groups list the emissions 0, 1, … in order, whatever the component. -/
theorem planGroups_ordered : (planGroups ir comp).flatten.map Emission.index =
    List.range (emitNodes (marks comp.body)).length := by
  rw [planGroups_flatten, numbered]
  refine List.ext_getElem (by simp) fun i _ _ => ?_
  simp [index_emissionOf]

/-- **Independence**: where argument crossings never contradict what is declared, the
members of every group are independent in everything they cross. -/
theorem planIndependent_of_argumentsAgree (h : ArgumentsAgree ir comp) :
    PlanIndependent ir comp := by
  refine ⟨planGroups_ordered, fun g hg => ?_, fun g hg _ => ?_⟩
  · have hgroup := planGroups_group hg
    exact ⟨hgroup.nonempty, hgroup.stretch⟩
  · obtain ⟨-, hcompat, pre, seg, post, hms, hseg, hnodes⟩ := planGroups_group hg
    have hagree := h pre seg post hms hseg
    rw [hnodes, List.pairwise_map] at hagree
    refine (hcompat.and hagree).imp_of_mem ?_
    intro a b ha hb hab
    obtain ⟨i, hi⟩ := eq_emissionOf_of_mem hg ha
    obtain ⟨j, hj⟩ := eq_emissionOf_of_mem hg hb
    have hpair := hab.2
    have hdecl := hab.1
    rw [hi, hj, compatible_emissionOf] at hdecl
    rw [hi, hj]
    exact fullyIndependent_emissionOf.2 (hpair hdecl)

/-! ## A stretch that opens with two compatible emissions groups them -/

section Opening

variable {capsMap : Fixpoint.Store String String}

/-- An emission that cannot be resolved is compatible with nothing. -/
theorem resolved_of_compatible {m : Emission} {i : Nat} {node : Json}
    (h : compatible m (emissionOf ir comp i node) = true) :
    (resolveEmission ir comp (emitExpr node)).isSome := by
  cases hres : resolveEmission ir comp (emitExpr node) with
  | some _ => rfl
  | none =>
    have hnamed := (compatible_iff.1 h).2.1
    rw [emissionOf, hres] at hnamed
    refine absurd rfl (hnamed ⟨starToken, []⟩ ?_)
    show (⟨starToken, []⟩ : Cap) ∈ parseCaps [starToken]
    decide

theorem addEmit_of_compatible {p : Partitioner} {node : Json}
    (h : ∀ m ∈ p.current, compatible m (emissionOf ir comp p.nextIndex node) = true) :
    addEmit ir comp p node =
      ⟨p.groups, p.current ++ [emissionOf ir comp p.nextIndex node], p.nextIndex + 1⟩ := by
  by_cases hcur : p.current = []
  · have hsealed : p.sealed = p := if_pos hcur
    have hadd : p.add (emissionOf ir comp p.nextIndex node) =
        ⟨p.groups, p.current ++ [emissionOf ir comp p.nextIndex node], p.nextIndex + 1⟩ := by
      rw [Partitioner.add, if_neg fun hj => hj.1 hcur, hsealed, hcur]
      rfl
    rw [addEmit, hsealed, hadd, ite_self]
  · obtain ⟨m, hm⟩ := List.exists_mem_of_ne_nil _ hcur
    rw [addEmit, if_pos (resolved_of_compatible (h m hm)), Partitioner.add,
      if_pos ⟨hcur, List.all_eq_true.2 h⟩]

/-- A straight stretch whose emissions are compatible with each other and with the open
group extends the open group by all of them. -/
theorem foldl_of_compatible {seg : List Mark} (hseg : Straight ir comp capsMap seg)
    (p : Partitioner)
    (hc : Compatible (p.current ++
      (emitNodes seg).mapIdx fun i node => emissionOf ir comp (p.nextIndex + i) node)) :
    (seg.foldl (markStep ir comp capsMap) p).current = p.current ++
      (emitNodes seg).mapIdx fun i node => emissionOf ir comp (p.nextIndex + i) node := by
  induction seg generalizing p with
  | nil => simp
  | cons m seg ih =>
    obtain ⟨hm, hrest⟩ := List.forall_mem_cons.1 hseg
    rw [List.foldl_cons]
    cases m with
    | brk => exact absurd hm id
    | filler node =>
      have hstep : markStep ir comp capsMap p (.filler node) = p := by
        have hnone : stepReach ir comp capsMap node = none := hm
        simp [markStep, hnone]
      rw [hstep]
      exact ih hrest p hc
    | emit node =>
      have hnodes : emitNodes (.emit node :: seg) = node :: emitNodes seg := rfl
      rw [hnodes, List.mapIdx_cons] at hc ⊢
      have hadd : markStep ir comp capsMap p (.emit node) = _ := addEmit_of_compatible (by
        intro m hm
        exact (List.pairwise_append.1 hc).2.2 m hm _ List.mem_cons_self)
      have hshift : (fun i (node : Json) => emissionOf ir comp (p.nextIndex + (i + 1)) node) =
          fun i node => emissionOf ir comp (p.nextIndex + 1 + i) node := by
        funext i node
        rw [show p.nextIndex + (i + 1) = p.nextIndex + 1 + i by omega]
      rw [hshift] at hc ⊢
      rw [hadd]
      have := ih hrest ⟨p.groups, p.current ++ [emissionOf ir comp p.nextIndex node],
        p.nextIndex + 1⟩ (by simpa using hc)
      simpa using this

/-- A run of emissions survives as the start of some group, open or sealed. -/
def Kept (run : List Emission) (p : Partitioner) : Prop :=
  (∃ g ∈ p.groups, run <+: g) ∨ (run <+: p.current ∧ p.current ≠ [])

theorem Kept.sealed {run : List Emission} {p : Partitioner} (h : Kept run p) :
    ∃ g ∈ p.sealed.groups, run <+: g := by
  unfold Partitioner.sealed
  rcases h with ⟨g, hg, hrun⟩ | ⟨hrun, hne⟩
  · split_ifs with hcur
    · exact ⟨g, hg, hrun⟩
    · exact ⟨g, List.mem_append_left _ hg, hrun⟩
  · rw [if_neg hne]
    exact ⟨p.current, List.mem_append_right _ (List.mem_singleton_self _), hrun⟩

theorem Kept.add {run : List Emission} {p : Partitioner} (h : Kept run p) (e : Emission) :
    Kept run (p.add e) := by
  unfold Partitioner.add
  split_ifs with hjoin
  · rcases h with ⟨g, hg, hrun⟩ | ⟨hrun, -⟩
    · exact .inl ⟨g, hg, hrun⟩
    · exact .inr ⟨hrun.trans (List.prefix_append _ _), by simp⟩
  · exact .inl h.sealed

theorem Kept.step {run : List Emission} {p : Partitioner} (h : Kept run p) (m : Mark) :
    Kept run (markStep ir comp capsMap p m) := by
  cases m with
  | emit node =>
    rw [markStep, addEmit]
    split_ifs
    · exact h.add _
    · exact Kept.add (.inl h.sealed) _
  | brk => exact .inl h.sealed
  | filler node =>
    rw [markStep]
    split_ifs
    · exact .inl h.sealed
    · exact h

theorem Kept.foldl {run : List Emission} {p : Partitioner} (h : Kept run p) (ms : List Mark) :
    Kept run (ms.foldl (markStep ir comp capsMap) p) := by
  induction ms generalizing p with
  | nil => exact h
  | cons m ms ih => exact ih (h.step m)

/-- A barrier leaves no group open. -/
theorem markStep_of_barrier {p : Partitioner} {m : Mark} (h : ¬ Passable ir comp capsMap m) :
    (markStep ir comp capsMap p m).current = [] := by
  cases m with
  | emit node => exact absurd trivial h
  | brk => exact sealed_current p
  | filler node =>
    have hreach : (stepReach ir comp capsMap node).isSome = true :=
      Option.ne_none_iff_isSome.1 h
    rw [markStep, if_pos hreach]
    exact sealed_current p

end Opening

/-- Where the plan is independent, no stretch opens with two emissions that are compatible
by declaration alone. -/
theorem openingsAgree_of_planIndependent (h : PlanIndependent ir comp) :
    OpeningsAgree ir comp := by
  intro pre seg post a b hms hpre hseg hnodes hcompat
  have hcur : (pre.foldl (markStep ir comp (fnCapsMap ir)) Partitioner.init).current = [] := by
    rcases hpre with rfl | ⟨pre', m, rfl, hm⟩
    · rfl
    · rw [List.foldl_append]
      exact markStep_of_barrier hm
  generalize hp : pre.foldl (markStep ir comp (fnCapsMap ir)) Partitioner.init = p at hcur
  have hrun := foldl_of_compatible hseg p (by
    rw [hcur, hnodes]
    simpa [Compatible, compatible_emissionOf] using hcompat)
  rw [hcur, hnodes] at hrun
  simp only [List.mapIdx_cons, List.mapIdx_nil, List.nil_append] at hrun
  -- the pair stays together to the end of the walk
  have hkept : Kept _ (seg.foldl (markStep ir comp (fnCapsMap ir)) p) :=
    .inr ⟨List.prefix_rfl, by rw [hrun]; simp⟩
  obtain ⟨g, hg, hprefix⟩ := (hkept.foldl post).sealed
  have hmem : g ∈ planGroups ir comp := by
    rw [planGroups, walk_eq_foldl, hms, List.foldl_append, List.foldl_append, hp]
    exact hg
  rw [hrun] at hprefix
  have hlen : 1 < g.length := by
    have := hprefix.length_le
    simp at this
    omega
  have hind := (h.independent g hmem hlen).sublist hprefix.sublist
  have hpair := (List.pairwise_cons.1 hind).1 _ (List.mem_singleton_self _)
  exact fullyIndependent_emissionOf.1 hpair

/-- **When the plan is independent**: wherever the argument crossings of any two emissions
of a straight stretch respect their declared compatibility it is, and it never is where a
stretch opens with two emissions whose arguments break it. -/
theorem planIndependent_bounds (ir : Ir) (comp : Component) :
    (ArgumentsAgree ir comp → PlanIndependent ir comp) ∧
      (PlanIndependent ir comp → OpeningsAgree ir comp) :=
  ⟨planIndependent_of_argumentsAgree, openingsAgree_of_planIndependent⟩

end Plan

/-! ## An argument that crosses -/

/-- A read of a string literal. -/
def strArg (s : String) : Json := .obj [("kind", .str "lit"), ("value", .str s)]

/-- A call of a required service's operation. -/
def reqCall (service method : String) (args : List Json) : Json :=
  .obj [("kind", .str "call"), ("target", .obj [("kind", .str "req"), ("name", .str service)]),
    ("method", .str method), ("args", .arr args)]

/-- An arrow that writes to the database, applied in place. -/
def appliedWrite : Json :=
  .obj [("kind", .str "call"),
    ("callee", .obj [("kind", .str "arrow"), ("params", .arr [.str "y"]),
      ("body", reqCall "d" "write" [.obj [("kind", .str "name"), ("id", .str "y")]])]),
    ("args", .arr [strArg "a"])]

/-- `emit m.send(((y) => emit d.write(y))("a"))  emit d.write("b")`. -/
def crossingArgument : Component where
  name := "W"
  requires := [("m", "Mailer"), ("d", "Db")]
  body :=
    [.emit (.obj [("step", .str "emit"), ("expr", reqCall "m" "send" [appliedWrite])]),
      .emit (.obj [("step", .str "emit"), ("expr", reqCall "d" "write" [strArg "b"])])]

/-- Two services with one emission each. -/
def crossingArgumentIr : Ir where
  services := [("Mailer", ⟨[("send", ⟨true, some ["send.email"], false⟩)], false⟩),
    ("Db", ⟨[("write", ⟨true, some ["db.write"], false⟩)], false⟩)]
  functions := []
  externs := []
  components := [crossingArgument]

example : parallelPlan crossingArgumentIr = [("W", [[0, 1]])] := by rfl

/-- Both emissions write to the database, and the plan fires them together. -/
theorem not_planIndependent_crossingArgument :
    ¬ PlanIndependent crossingArgumentIr crossingArgument := by
  intro h
  have hpair := openingsAgree_of_planIndependent h [] (marks crossingArgument.body) []
    (.obj [("step", .str "emit"), ("expr", reqCall "m" "send" [appliedWrite])])
    (.obj [("step", .str "emit"), ("expr", reqCall "d" "write" [strArg "b"])])
    (by simp) (.inl rfl) (by simp [Straight, marks, stepMarks, crossingArgument, Passable]) rfl
    (by rfl)
  rcases hpair.sep with hdis | ⟨-, hcomm, -⟩
  · have harg : ArgReaches crossingArgumentIr crossingArgument (fnCapsMap crossingArgumentIr)
        (reqCall "m" "send" [appliedWrite]) "db.write" :=
      ⟨.arr [appliedWrite], by simp [argNodes, reqCall], .inr ⟨(["db.write"], false),
        by decide, by decide⟩⟩
    exact hdis ⟨"db.write", []⟩ ⟨"db.write", []⟩ (.inr ⟨"db.write", harg, by rfl⟩)
      (.inl (by decide)) rfl
  · exact absurd hcomm (by decide)

end Revl.Parallel
