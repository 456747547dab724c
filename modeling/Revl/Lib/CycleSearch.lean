import Mathlib

/-!
# Depth-first search for cycles, one reported at a time

The search follows the edges of a graph from every node in turn. A successor on the stack closes
a loop; the loop is reported unless one of its nodes already stands in a reported one.

- `Search`, `visit`, `search`: the finished nodes, in the order they finish, and the loops
  reported.
- `Loop`: a loop of edges that meets no node twice. `Together`: nodes that reach each other.
- `visit_good`: what a visit keeps, by induction on the nodes a stack can still take.
- `search_covers`: **every node on a cycle has a reported loop among the nodes it reaches and is
  reached from.**
- `search_eq_nil_iff`: **nothing is reported exactly on an acyclic graph.**
- `search_unique`: two loops reported for nodes that reach each other have no node in common.
-/

namespace CycleSearch

universe u

variable {N : Type u} [DecidableEq N]

/-- The nodes that are finished, in the order they finish, and the loops reported. -/
structure Search (N : Type u) where
  done : List N
  loops : List (List N)

/-- The nodes of the stack from the given one up to its top. -/
def loopOf (stack : List N) (name : N) : List N :=
  (stack.takeWhile (fun node => decide (node ≠ name)) ++ [name]).reverse

/-- A loop is reported unless it meets one that is. -/
def report (loop : List N) (σ : Search N) : Search N :=
  if loop.any fun node => σ.loops.any fun seen => decide (node ∈ seen) then σ
  else { σ with loops := σ.loops ++ [loop] }

/-- One successor of the node on top of the stack. -/
def follow (visit : N → Search N → Search N) (stack : List N) (σ : Search N) (succ : N) :
    Search N :=
  if succ ∈ stack then report (loopOf stack succ) σ
  else if succ ∈ σ.done then σ
  else visit succ σ

variable (succs : N → List N)

/-- The visit of a node that is not on the stack. `fuel` bounds how many nodes a stack can still
take. -/
def visit : Nat → List N → N → Search N → Search N
  | 0, _, _, σ => σ
  | fuel + 1, stack, name, σ =>
    let σ' := (succs name).foldl (follow (visit fuel (name :: stack)) (name :: stack)) σ
    { σ' with done := σ'.done ++ [name] }

/-- Every node that is not finished is visited, in turn. -/
def search (nodes : List N) : Search N :=
  nodes.foldl (fun σ name => if name ∈ σ.done then σ else visit succs nodes.length [] name σ)
    ⟨[], []⟩

/-! ## Loops -/

/-- An edge. -/
def Step (a b : N) : Prop := b ∈ succs a

instance (a b : N) : Decidable (Step succs a b) := inferInstanceAs (Decidable (b ∈ succs a))

/-- Nodes that reach each other. -/
def Together (a b : N) : Prop :=
  Relation.ReflTransGen (Step succs) a b ∧ Relation.ReflTransGen (Step succs) b a

/-- A loop of edges that meets no node twice, from its first node. -/
structure Loop (loop : List N) : Prop where
  nodup : loop.Nodup
  chain : loop.IsChain (Step succs)
  closes : ∃ first ∈ loop.head?, ∃ last ∈ loop.getLast?, Step succs last first

/-- No node reaches itself. -/
def Acyclic : Prop := ∀ a, ¬ Relation.TransGen (Step succs) a a

variable {succs}

omit [DecidableEq N] in
theorem Together.trans {a b c : N} (h : Together succs a b) (h' : Together succs b c) :
    Together succs a c := ⟨h.1.trans h'.1, h'.2.trans h.2⟩

omit [DecidableEq N] in
theorem chain_head_reaches {a b : N} {rest : List N} (h : (a :: rest).IsChain (Step succs))
    (hb : b ∈ a :: rest) : Relation.ReflTransGen (Step succs) a b := by
  induction rest generalizing a with
  | nil =>
    rw [List.mem_singleton] at hb
    rw [hb]
  | cons c rest ih =>
    obtain ⟨hstep, hrest⟩ := List.isChain_cons_cons.mp h
    rcases List.mem_cons.mp hb with rfl | hb
    · exact .refl
    · exact .head hstep (ih hrest hb)

omit [DecidableEq N] in
theorem chain_reaches_last {a last : N} {loop : List N} (h : loop.IsChain (Step succs))
    (ha : a ∈ loop) (hlast : last ∈ loop.getLast?) :
    Relation.ReflTransGen (Step succs) a last := by
  induction loop with
  | nil => cases ha
  | cons c rest ih =>
    rcases List.mem_cons.mp ha with rfl | ha
    · exact chain_head_reaches h (List.mem_of_mem_getLast? hlast)
    · cases rest with
      | nil => cases ha
      | cons d rest =>
        rw [List.getLast?_cons_cons] at hlast
        exact ih (List.isChain_cons_cons.mp h).2 ha hlast

omit [DecidableEq N] in
/-- The nodes of a loop reach each other by at least one edge. -/
theorem Loop.reaches {loop : List N} (h : Loop succs loop) {a b : N} (ha : a ∈ loop)
    (hb : b ∈ loop) : Relation.TransGen (Step succs) a b := by
  obtain ⟨first, hfirst, last, hlast, hstep⟩ := h.closes
  obtain ⟨c, rest, rfl⟩ := List.exists_cons_of_ne_nil (List.ne_nil_of_mem ha)
  rw [List.head?_cons, Option.mem_some_iff] at hfirst
  subst hfirst
  exact .trans_right (chain_reaches_last h.chain ha hlast)
    (.trans_left (.single hstep) (chain_head_reaches h.chain hb))

omit [DecidableEq N] in
theorem Loop.together {loop : List N} (h : Loop succs loop) {a b : N} (ha : a ∈ loop)
    (hb : b ∈ loop) : Together succs a b :=
  ⟨(h.reaches ha hb).to_reflTransGen, (h.reaches hb ha).to_reflTransGen⟩

theorem takeWhile_prefix {stack : List N} {name : N} (h : name ∈ stack) :
    stack.takeWhile (fun node => decide (node ≠ name)) ++ [name] <+: stack := by
  induction stack with
  | nil => cases h
  | cons c stack ih =>
    by_cases hc : c = name
    · subst hc
      simp
    · rw [List.takeWhile_cons_of_pos (by simpa using hc), List.cons_append,
        List.prefix_cons_inj]
      exact ih ((List.mem_cons.mp h).resolve_left (Ne.symm hc))

/-- A successor on the stack closes a loop through the node on top. -/
theorem loop_loopOf {stack : List N} {name succ : N}
    (hchain : (name :: stack).IsChain fun a b => Step succs b a) (hnodup : (name :: stack).Nodup)
    (hsucc : succ ∈ name :: stack) (hstep : Step succs name succ) :
    Loop succs (loopOf (name :: stack) succ) ∧ name ∈ loopOf (name :: stack) succ := by
  have hpre := takeWhile_prefix hsucc
  have hdown := List.IsChain.prefix hchain hpre
  have hhead : ((name :: stack).takeWhile (fun node => decide (node ≠ succ)) ++ [succ]).head? =
      some name := by
    by_cases hc : name = succ
    · subst hc
      simp
    · rw [List.takeWhile_cons_of_pos (by simpa using hc)]
      rfl
  unfold loopOf
  refine ⟨⟨List.nodup_reverse.mpr (hpre.sublist.nodup hnodup),
    List.isChain_reverse.mpr hdown, succ, ?_, name, ?_, hstep⟩, ?_⟩
  · rw [List.head?_reverse, List.getLast?_concat]
    rfl
  · rw [List.getLast?_reverse, hhead]
    rfl
  · exact List.mem_reverse.mpr (List.mem_of_mem_head? hhead)

/-! ## What a visit keeps -/

/-- One node finishes before another. -/
def Before (done : List N) (a b : N) : Prop := a ∈ done ∧ done.idxOf a < done.idxOf b

variable (succs) in
/-- A loop is reported among the nodes that reach a node and are reached from it. -/
def Covered (loops : List (List N)) (a : N) : Prop :=
  ∃ loop ∈ loops, ∀ b ∈ loop, Together succs b a

variable (succs) in
/-- What holds between two visits: no node of the stack is finished, the loops reported are
loops with no node in common, and the successors of a finished node are finished before it,
except where a loop is reported. -/
structure Good (stack : List N) (σ : Search N) : Prop where
  nodup : σ.done.Nodup
  apart : ∀ a ∈ stack, a ∉ σ.done
  loops : ∀ loop ∈ σ.loops, Loop succs loop
  disjoint : σ.loops.Pairwise List.Disjoint
  settled : ∀ a ∈ σ.done, ∀ b ∈ succs a, Before σ.done b a ∨ Covered succs σ.loops a

/-- A search that goes on from another one. -/
def Extends (σ σ' : Search N) : Prop := σ.done <+: σ'.done ∧ σ.loops <+: σ'.loops

omit [DecidableEq N] in
theorem Extends.refl (σ : Search N) : Extends σ σ := ⟨List.prefix_rfl, List.prefix_rfl⟩

omit [DecidableEq N] in
theorem Extends.trans {σ₁ σ₂ σ₃ : Search N} (h : Extends σ₁ σ₂) (h' : Extends σ₂ σ₃) :
    Extends σ₁ σ₃ := ⟨h.1.trans h'.1, h.2.trans h'.2⟩

omit [DecidableEq N] in
theorem Covered.mono {loops loops' : List (List N)} {a : N} (h : Covered succs loops a)
    (hpre : loops <+: loops') : Covered succs loops' a := by
  obtain ⟨loop, hmem, hloop⟩ := h
  exact ⟨loop, hpre.subset hmem, hloop⟩

omit [DecidableEq N] in
theorem Covered.together {loops : List (List N)} {a b : N} (h : Covered succs loops a)
    (hab : Together succs a b) : Covered succs loops b := by
  obtain ⟨loop, hmem, hloop⟩ := h
  exact ⟨loop, hmem, fun c hc => (hloop c hc).trans hab⟩

theorem Before.concat {done : List N} {a b : N} (h : Before done a b) (hb : b ∈ done) (c : N) :
    Before (done ++ [c]) a b := by
  refine ⟨List.mem_append_left _ h.1, ?_⟩
  rw [List.idxOf_append_of_mem h.1, List.idxOf_append_of_mem hb]
  exact h.2

theorem before_concat_self {done : List N} {a c : N} (ha : a ∈ done) (hc : c ∉ done) :
    Before (done ++ [c]) a c := by
  refine ⟨List.mem_append_left _ ha, ?_⟩
  rw [List.idxOf_append_of_mem ha, List.idxOf_append_of_notMem hc]
  exact Nat.lt_add_right _ (List.idxOf_lt_length_of_mem ha)

/-- A loop closed at the top of the stack is reported, or meets one that is. -/
theorem report_good {stack : List N} {name : N} {loop : List N} {σ : Search N}
    (hloop : Loop succs loop) (hname : name ∈ loop) (h : Good succs stack σ) :
    Good succs stack (report loop σ) ∧ Extends σ (report loop σ) ∧
      Covered succs (report loop σ).loops name := by
  unfold report
  by_cases hmeets : loop.any fun node => σ.loops.any fun seen => decide (node ∈ seen)
  · rw [if_pos hmeets]
    refine ⟨h, .refl σ, ?_⟩
    simp only [List.any_eq_true, decide_eq_true_eq] at hmeets
    obtain ⟨node, hnode, seen, hseen, hmem⟩ := hmeets
    exact ⟨seen, hseen, fun b hb =>
      ((h.loops seen hseen).together hb hmem).trans (hloop.together hnode hname)⟩
  · rw [if_neg hmeets]
    have hpre : σ.loops <+: σ.loops ++ [loop] := List.prefix_append _ _
    refine ⟨⟨h.nodup, h.apart, ?_, ?_, ?_⟩, ⟨List.prefix_rfl, hpre⟩, loop, ?_, ?_⟩
    · intro loop' hmem
      rcases List.mem_append.mp hmem with hmem | hmem
      · exact h.loops loop' hmem
      · rw [List.mem_singleton.mp hmem]
        exact hloop
    · rw [List.pairwise_append]
      refine ⟨h.disjoint, List.pairwise_singleton _ _, ?_⟩
      intro seen hseen loop' hmem b hb hb'
      rw [List.mem_singleton.mp hmem] at hb'
      refine hmeets ?_
      simp only [List.any_eq_true, decide_eq_true_eq]
      exact ⟨b, hb', seen, hseen, hb⟩
    · intro a ha b hb
      exact (h.settled a ha b hb).imp_right fun hc => hc.mono hpre
    · exact List.mem_append_right _ List.mem_cons_self
    · exact fun b hb => hloop.together hb hname

/-- What the loop over the successors of a node keeps, where a visit of one of them keeps it. -/
theorem follow_good {fuel : Nat} {stack : List N} {name : N}
    (hchain : (name :: stack).IsChain fun a b => Step succs b a) (hnodup : (name :: stack).Nodup)
    (hvisit : ∀ succ σ, Step succs name succ → succ ∉ name :: stack → succ ∉ σ.done →
      Good succs (name :: stack) σ →
        Good succs (name :: stack) (visit succs fuel (name :: stack) succ σ) ∧
          Extends σ (visit succs fuel (name :: stack) succ σ) ∧
            succ ∈ (visit succs fuel (name :: stack) succ σ).done)
    (callees : List N) (hcallees : ∀ c ∈ callees, Step succs name c) {σ : Search N}
    (h : Good succs (name :: stack) σ) :
    ∃ σ', callees.foldl (follow (visit succs fuel (name :: stack)) (name :: stack)) σ = σ' ∧
      Good succs (name :: stack) σ' ∧ Extends σ σ' ∧
        ∀ c ∈ callees, c ∈ σ'.done ∨ Covered succs σ'.loops name := by
  induction callees generalizing σ with
  | nil => exact ⟨σ, rfl, h, .refl σ, fun c hc => absurd hc List.not_mem_nil⟩
  | cons c callees ih =>
    have hstep := hcallees c List.mem_cons_self
    obtain ⟨hgood, hext, hc⟩ : Good succs (name :: stack)
          (follow (visit succs fuel (name :: stack)) (name :: stack) σ c) ∧
        Extends σ (follow (visit succs fuel (name :: stack)) (name :: stack) σ c) ∧
        (c ∈ (follow (visit succs fuel (name :: stack)) (name :: stack) σ c).done ∨
          Covered succs (follow (visit succs fuel (name :: stack)) (name :: stack) σ c).loops
            name) := by
      unfold follow
      split_ifs with hstack hdone
      · obtain ⟨hloop, hname⟩ := loop_loopOf hchain hnodup hstack hstep
        obtain ⟨hgood, hext, hcov⟩ := report_good hloop hname h
        exact ⟨hgood, hext, .inr hcov⟩
      · exact ⟨h, .refl σ, .inl hdone⟩
      · obtain ⟨hgood, hext, hmem⟩ := hvisit c σ hstep hstack hdone h
        exact ⟨hgood, hext, .inl hmem⟩
    obtain ⟨σ', heq, hgood', hext', hrest⟩ :=
      ih (fun d hd => hcallees d (List.mem_cons_of_mem _ hd)) hgood
    refine ⟨σ', heq, hgood', hext.trans hext', fun d hd => ?_⟩
    rcases List.mem_cons.mp hd with rfl | hd
    · exact hc.imp (fun h => hext'.1.subset h) fun h => h.mono hext'.2
    · exact hrest d hd

/-- **What a visit keeps.** The induction is on the nodes the stack can still take. -/
theorem visit_good {nodes : List N} (hclosed : ∀ a ∈ nodes, ∀ b ∈ succs a, b ∈ nodes)
    (fuel : Nat) {stack : List N} {name : N} {σ : Search N}
    (hchain : (name :: stack).IsChain fun a b => Step succs b a) (hnodup : (name :: stack).Nodup)
    (hnodes : ∀ a ∈ name :: stack, a ∈ nodes) (hfuel : nodes.length ≤ stack.length + fuel)
    (hname : name ∉ σ.done) (h : Good succs stack σ) :
    Good succs stack (visit succs fuel stack name σ) ∧
      Extends σ (visit succs fuel stack name σ) ∧ name ∈ (visit succs fuel stack name σ).done := by
  induction fuel generalizing stack name σ with
  | zero =>
    have hlen := (hnodup.subperm hnodes).length_le
    rw [List.length_cons] at hlen
    omega
  | succ fuel ih =>
    have hgood : Good succs (name :: stack) σ := by
      refine ⟨h.nodup, fun a ha => ?_, h.loops, h.disjoint, h.settled⟩
      rcases List.mem_cons.mp ha with rfl | ha
      · exact hname
      · exact h.apart a ha
    have hvisit : ∀ succ σ, Step succs name succ → succ ∉ name :: stack → succ ∉ σ.done →
        Good succs (name :: stack) σ →
          Good succs (name :: stack) (visit succs fuel (name :: stack) succ σ) ∧
            Extends σ (visit succs fuel (name :: stack) succ σ) ∧
              succ ∈ (visit succs fuel (name :: stack) succ σ).done := by
      intro succ σ hstep hstack hdone hσ
      refine ih (List.isChain_cons_cons.mpr ⟨hstep, hchain⟩)
        (List.nodup_cons.mpr ⟨hstack, hnodup⟩) (fun a ha => ?_) ?_ hdone hσ
      · rcases List.mem_cons.mp ha with rfl | ha
        · exact hclosed name (hnodes name List.mem_cons_self) a hstep
        · exact hnodes a ha
      · rw [List.length_cons]
        omega
    obtain ⟨σ', heq, hgood', hext, hcallees⟩ :=
      follow_good hchain hnodup hvisit (succs name) (fun c hc => hc) hgood
    have hnot : name ∉ σ'.done := hgood'.apart name List.mem_cons_self
    rw [visit]
    simp only [heq]
    refine ⟨⟨?_, ?_, hgood'.loops, hgood'.disjoint, ?_⟩,
      ⟨hext.1.trans (List.prefix_append _ _), hext.2⟩, ?_⟩
    · exact List.nodup_append.mpr ⟨hgood'.nodup, List.nodup_singleton name, fun a ha b hb =>
        (List.mem_singleton.mp hb) ▸ fun heq => hnot (heq ▸ ha)⟩
    · intro a ha hmem
      rcases List.mem_append.mp hmem with hmem | hmem
      · exact hgood'.apart a (List.mem_cons_of_mem _ ha) hmem
      · rw [List.mem_singleton.mp hmem] at ha
        exact (List.nodup_cons.mp hnodup).1 ha
    · intro a ha b hb
      rcases List.mem_append.mp ha with ha | ha
      · exact (hgood'.settled a ha b hb).imp_left fun hbefore => hbefore.concat ha name
      · rw [List.mem_singleton.mp ha] at hb ⊢
        exact (hcallees b hb).imp_left fun hdone => before_concat_self hdone hnot
    · exact List.mem_append_right _ List.mem_cons_self

/-! ## The whole search -/

theorem search_good {nodes : List N} (hclosed : ∀ a ∈ nodes, ∀ b ∈ succs a, b ∈ nodes) :
    Good succs [] (search succs nodes) ∧ ∀ a ∈ nodes, a ∈ (search succs nodes).done := by
  have hfold : ∀ rest : List N, (∀ a ∈ rest, a ∈ nodes) → ∀ σ, Good succs [] σ →
      ∃ σ', rest.foldl (fun σ name => if name ∈ σ.done then σ
        else visit succs nodes.length [] name σ) σ = σ' ∧ Good succs [] σ' ∧ Extends σ σ' ∧
          ∀ a ∈ rest, a ∈ σ'.done := by
    intro rest
    induction rest with
    | nil => exact fun _ σ hσ => ⟨σ, rfl, hσ, .refl σ, fun a ha => absurd ha List.not_mem_nil⟩
    | cons name rest ih =>
      intro hrest σ hσ
      obtain ⟨hgood, hext, hname⟩ : Good succs [] (if name ∈ σ.done then σ
            else visit succs nodes.length [] name σ) ∧
          Extends σ (if name ∈ σ.done then σ else visit succs nodes.length [] name σ) ∧
          name ∈ (if name ∈ σ.done then σ else visit succs nodes.length [] name σ).done := by
        split_ifs with hdone
        · exact ⟨hσ, .refl σ, hdone⟩
        · refine visit_good hclosed _ (List.isChain_singleton name) (List.nodup_singleton name)
            (fun a ha => ?_) (by rw [List.length_nil]; omega) hdone hσ
          rw [List.mem_singleton.mp ha]
          exact hrest name List.mem_cons_self
      obtain ⟨σ', heq, hgood', hext', hall⟩ :=
        ih (fun a ha => hrest a (List.mem_cons_of_mem _ ha)) _ hgood
      refine ⟨σ', heq, hgood', hext.trans hext', fun a ha => ?_⟩
      rcases List.mem_cons.mp ha with rfl | ha
      · exact hext'.1.subset hname
      · exact hall a ha
  have hstart : Good succs [] (⟨[], []⟩ : Search N) :=
    ⟨List.nodup_nil, fun _ h => absurd h List.not_mem_nil, fun _ h => absurd h List.not_mem_nil,
      .nil, fun _ h => absurd h List.not_mem_nil⟩
  obtain ⟨σ', heq, hgood, -, hall⟩ := hfold nodes (fun _ h => h) _ hstart
  rw [search, heq]
  exact ⟨hgood, hall⟩

/-- Along a way that leads back, each node finishes before the first, unless a loop is
reported among them. -/
theorem Good.before_of_way {σ : Search N} (h : Good succs [] σ) {a : N} (ha : a ∈ σ.done)
    (hnot : ¬ Covered succs σ.loops a) {b : N} (hway : Relation.TransGen (Step succs) a b)
    (hback : Relation.ReflTransGen (Step succs) b a) : Before σ.done b a := by
  induction hway with
  | single hstep => exact (h.settled a ha _ hstep).resolve_right hnot
  | @tail b c hway hstep ih =>
    have hb := ih (.head hstep hback)
    rcases h.settled b hb.1 c hstep with hc | hcov
    · exact ⟨hc.1, hc.2.trans hb.2⟩
    · exact absurd (hcov.together ⟨.head hstep hback, hway.to_reflTransGen⟩) hnot

section Whole

variable {nodes : List N} (hclosed : ∀ a ∈ nodes, ∀ b ∈ succs a, b ∈ nodes)

include hclosed

/-- **Every node on a cycle has a reported loop among the nodes it reaches and is reached
from.** -/
theorem search_covers {a : N} (ha : a ∈ nodes) (hcycle : Relation.TransGen (Step succs) a a) :
    Covered succs (search succs nodes).loops a := by
  obtain ⟨hgood, hall⟩ := search_good hclosed
  by_contra hnot
  exact lt_irrefl _ (hgood.before_of_way (hall a ha) hnot hcycle .refl).2

/-- Every loop reported is one. -/
theorem search_loops : ∀ loop ∈ (search succs nodes).loops, Loop succs loop :=
  (search_good hclosed).1.loops

/-- **Nothing is reported exactly on an acyclic graph.** -/
theorem search_eq_nil_iff (hsource : ∀ a b, b ∈ succs a → a ∈ nodes) :
    (search succs nodes).loops = [] ↔ Acyclic succs := by
  constructor
  · intro hnil a hcycle
    obtain ⟨b, hstep, -⟩ := Relation.TransGen.head'_iff.mp hcycle
    obtain ⟨loop, hmem, -⟩ := search_covers hclosed (hsource a b hstep) hcycle
    rw [hnil] at hmem
    cases hmem
  · intro hacyclic
    rw [List.eq_nil_iff_forall_not_mem]
    intro loop hmem
    have hloop := search_loops hclosed loop hmem
    obtain ⟨first, hfirst, last, hlast, hstep⟩ := hloop.closes
    have ha := List.mem_of_mem_head? hfirst
    exact hacyclic first (hloop.reaches ha ha)

/-- Two loops reported have no node in common. -/
theorem search_disjoint {loop loop' : List N} (hloop : loop ∈ (search succs nodes).loops)
    (hloop' : loop' ∈ (search succs nodes).loops) (hne : loop ≠ loop') :
    List.Disjoint loop loop' := by
  have hsymm : Std.Symm (List.Disjoint (α := N)) := ⟨fun _ _ h => h.symm⟩
  exact (search_good hclosed).1.disjoint.forall hloop hloop' hne

omit hclosed in
omit [DecidableEq N] in
theorem Loop.ne_nil {loop : List N} (h : Loop succs loop) : loop ≠ [] := by
  rintro rfl
  obtain ⟨first, hfirst, -⟩ := h.closes
  cases hfirst

/-- No loop is reported twice. -/
theorem search_nodup : (search succs nodes).loops.Nodup := by
  refine (search_good hclosed).1.disjoint.imp_of_mem ?_
  rintro loop loop' hloop - hdisjoint rfl
  obtain ⟨first, rest, rfl⟩ := List.exists_cons_of_ne_nil (search_loops hclosed _ hloop).ne_nil
  exact hdisjoint List.mem_cons_self List.mem_cons_self

/-- **One loop is reported for nodes that reach each other**, where no two of their loops are
without a node in common. -/
theorem search_unique {a : N} (ha : a ∈ nodes) (hcycle : Relation.TransGen (Step succs) a a)
    (hmeet : ∀ loop loop', Loop succs loop → Loop succs loop' → (∀ b ∈ loop, Together succs b a) →
      (∀ b ∈ loop', Together succs b a) → ¬ List.Disjoint loop loop') :
    ∃! loop, loop ∈ (search succs nodes).loops ∧ ∀ b ∈ loop, Together succs b a := by
  obtain ⟨loop, hmem, hloop⟩ := search_covers hclosed ha hcycle
  refine ⟨loop, ⟨hmem, hloop⟩, fun loop' h => ?_⟩
  by_contra hne
  exact hmeet loop' loop (search_loops hclosed _ h.1) (search_loops hclosed _ hmem) h.2 hloop
    (search_disjoint hclosed h.1 hmem hne)

end Whole

end CycleSearch
