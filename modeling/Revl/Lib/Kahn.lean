import Mathlib

/-!
# Sorting a graph by its in-degrees

The nodes no edge leads to are ready; a ready node is taken, and every edge out of it lowers the
count of the node it leads to, which is ready once its count is zero. Edges are counted as often
as they occur.

- `graph`, `indegree`: the successors of a node and the count of a node, off a list of edges.
- `relax`, `sort`, `order`: the sort.
- `Sorted`: what holds between two steps. `sort_sorted`: every step keeps it.
- `order_perm`: **on an acyclic graph every node is listed once**, and
  `order_before`: **after every node an edge leads from.**
-/

namespace Kahn

universe u

variable {N : Type u} [DecidableEq N]

/-- The nodes the edges out of a node lead to, an edge at a time. -/
def graph (edges : List (N × N)) (a : N) : List N :=
  (edges.filter fun edge => decide (edge.1 = a)).map Prod.snd

/-- The number of edges that lead to a node. -/
def indegree (edges : List (N × N)) (a : N) : Int := ((edges.map Prod.snd).count a : Nat)

/-- One edge out of the node taken: the count is lowered, and a node is ready at zero. -/
def relax (σ : (N → Int) × List N) (succ : N) : (N → Int) × List N :=
  let counts := Function.update σ.1 succ (σ.1 succ - 1)
  (counts, if counts succ = 0 then σ.2 ++ [succ] else σ.2)

/-- The loop over the ready nodes; no more are taken than there are nodes. -/
def sort (edges : List (N × N)) : Nat → (N → Int) × List N → List N → List N
  | 0, _, order => order
  | _ + 1, (_, []), order => order
  | fuel + 1, (counts, name :: ready), order =>
    sort edges fuel ((graph edges name).foldl relax (counts, ready)) (order ++ [name])

/-- The nodes, providers first. -/
def order (edges : List (N × N)) (nodes : List N) : List N :=
  sort edges nodes.length
    (indegree edges, nodes.filter fun a => decide (indegree edges a = 0)) []

variable {edges : List (N × N)} {nodes : List N}

theorem mem_graph {a b : N} : b ∈ graph edges a ↔ (a, b) ∈ edges := by
  simp [graph]

/-! ## One step -/

/-- The edges that a node not yet listed has into a node. -/
def pending (edges : List (N × N)) (order : List N) (a : N) : Nat :=
  ((edges.filter fun edge => decide (edge.1 ∉ order)).map Prod.snd).count a

theorem pending_nil (a : N) : (pending edges [] a : Int) = indegree edges a := by
  simp [pending, indegree]

/-- Listing a node settles the edges out of it. -/
theorem pending_concat {order : List N} {name : N} (hname : name ∉ order) (a : N) :
    pending edges order a = pending edges (order ++ [name]) a + (graph edges name).count a := by
  unfold pending graph
  induction edges with
  | nil => rfl
  | cons edge edges ih =>
    by_cases hmem : edge.1 ∈ order
    · have hne : edge.1 ≠ name := fun heq => hname (heq ▸ hmem)
      simpa [hmem, hne] using ih
    · by_cases heq : edge.1 = name
      · simp only [heq, hname, not_false_eq_true, decide_true, List.filter_cons_of_pos,
          List.map_cons, List.count_cons, List.mem_append, List.mem_singleton, or_true,
          not_true_eq_false, decide_false, Bool.false_eq_true, List.filter_cons_of_neg] at ih ⊢
        omega
      · simp only [hmem, heq, not_false_eq_true, decide_true, List.filter_cons_of_pos,
          List.map_cons, List.count_cons, List.mem_append, List.mem_singleton, or_self,
          decide_false, Bool.false_eq_true, List.filter_cons_of_neg] at ih ⊢
        omega

theorem exists_pending {order : List N} {a : N} (h : pending edges order a ≠ 0) :
    ∃ b, (b, a) ∈ edges ∧ b ∉ order := by
  unfold pending at h
  have hmem := List.count_pos_iff.mp (Nat.pos_of_ne_zero h)
  obtain ⟨⟨b, a'⟩, hedge, rfl⟩ := List.mem_map.mp hmem
  obtain ⟨hedge, hb⟩ := List.mem_filter.mp hedge
  exact ⟨b, hedge, of_decide_eq_true hb⟩

theorem pending_eq_zero {order : List N} {a b : N} (h : pending edges order a = 0)
    (hedge : (b, a) ∈ edges) : b ∈ order := by
  by_contra hb
  refine (List.count_eq_zero.mp h) (List.mem_map.mpr ⟨(b, a), ?_, rfl⟩)
  exact List.mem_filter.mpr ⟨hedge, decide_eq_true hb⟩

/-- The edges out of one node, one after the other: each count falls by the number of edges, and
a node is made ready where that number takes its count to zero. -/
theorem foldl_relax (succs : List N) (counts : N → Int) (ready : List N)
    (hcounts : ∀ a, (succs.count a : Int) ≤ counts a) :
    ∃ new, succs.foldl relax (counts, ready) =
        (fun a => counts a - (succs.count a : Nat), ready ++ new) ∧ new.Nodup ∧
      ∀ a, a ∈ new ↔ a ∈ succs ∧ counts a = (succs.count a : Nat) := by
  induction succs generalizing counts ready with
  | nil => exact ⟨[], by simp, List.nodup_nil, by simp⟩
  | cons succ succs ih =>
    have hnext : ∀ a, (succs.count a : Int) ≤ Function.update counts succ (counts succ - 1) a := by
      intro a
      have := hcounts a
      rw [List.count_cons] at this
      by_cases ha : a = succ
      · subst ha
        rw [Function.update_self]
        simp only [beq_self_eq_true, if_true] at this
        omega
      · rw [Function.update_of_ne ha]
        omega
    obtain ⟨new, heq, hnodup, hnew⟩ := ih (Function.update counts succ (counts succ - 1))
      (relax (counts, ready) succ).2 hnext
    have hfun : (fun a => Function.update counts succ (counts succ - 1) a - (succs.count a : Nat)) =
        fun a => counts a - ((succ :: succs).count a : Nat) := by
      funext a
      rw [List.count_cons]
      by_cases ha : a = succ
      · subst ha
        rw [Function.update_self]
        simp only [beq_self_eq_true, if_true]
        omega
      · rw [Function.update_of_ne ha, if_neg (by simpa using Ne.symm ha)]
        omega
    rw [List.foldl_cons]
    by_cases hzero : counts succ - 1 = 0
    · have hcount : succs.count succ = 0 := by
        have := hnext succ
        rw [Function.update_self] at this
        omega
      have hnot : succ ∉ succs := List.count_eq_zero.mp hcount
      have hnotnew : succ ∉ new := fun h => hnot ((hnew succ).mp h).1
      refine ⟨succ :: new, ?_, List.nodup_cons.mpr ⟨hnotnew, hnodup⟩, fun a => ?_⟩
      · rw [← hfun]
        simp only [relax, Function.update_self, hzero, if_true] at heq ⊢
        rw [heq, List.append_assoc, List.singleton_append]
      · rw [List.mem_cons, hnew, List.mem_cons, List.count_cons]
        by_cases ha : a = succ
        · subst ha
          simp only [true_or, true_and, beq_self_eq_true, if_true, true_iff]
          omega
        · rw [Function.update_of_ne ha, if_neg (by simpa using Ne.symm ha)]
          simp [ha]
    · refine ⟨new, ?_, hnodup, fun a => ?_⟩
      · rw [← hfun]
        simp only [relax, Function.update_self, hzero, if_false] at heq ⊢
        rw [heq]
      · rw [hnew, List.mem_cons, List.count_cons]
        by_cases ha : a = succ
        · subst ha
          rw [Function.update_self]
          simp only [true_or, true_and, beq_self_eq_true, if_true]
          constructor
          · rintro ⟨-, h⟩
            omega
          · intro h
            have hpos : 0 < succs.count a := by omega
            exact ⟨List.count_pos_iff.mp hpos, by omega⟩
        · rw [Function.update_of_ne ha, if_neg (by simpa using Ne.symm ha)]
          simp [ha]

/-! ## What a step keeps -/

/-- What holds between two steps: the counts are of the edges not settled, the nodes with none
are those listed or ready, each once, and an edge into a listed node leads from one listed
before. -/
structure Sorted (edges : List (N × N)) (nodes : List N) (counts : N → Int) (ready order : List N) :
    Prop where
  counts : ∀ a, counts a = (pending edges order a : Nat)
  nodup : (order ++ ready).Nodup
  mem : ∀ a, a ∈ order ++ ready ↔ a ∈ nodes ∧ pending edges order a = 0
  before : ∀ a b, (a, b) ∈ edges → b ∈ order → a ∈ order ∧ order.idxOf a < order.idxOf b

theorem sorted_start (hnodes : nodes.Nodup) : Sorted edges nodes (indegree edges)
    (nodes.filter fun a => decide (indegree edges a = 0)) [] := by
  refine ⟨fun a => (pending_nil a).symm, ?_, fun a => ?_, fun a b _ hb => ?_⟩
  · exact hnodes.filter _
  · rw [List.nil_append, List.mem_filter, decide_eq_true_eq, ← pending_nil, Int.natCast_eq_zero]
  · cases hb

/-- Taking a ready node keeps the invariant. -/
theorem Sorted.step {counts : N → Int} {name : N} {ready order : List N}
    (hedges : ∀ edge ∈ edges, edge.2 ∈ nodes)
    (h : Sorted edges nodes counts (name :: ready) order) :
    ∃ counts' ready', (graph edges name).foldl relax (counts, ready) = (counts', ready') ∧
      Sorted edges nodes counts' ready' (order ++ [name]) := by
  have hname : name ∉ order := fun hmem =>
    (List.nodup_append.mp h.nodup).2.2 name hmem name List.mem_cons_self rfl
  have hsplit : ∀ a, pending edges order a =
      pending edges (order ++ [name]) a + (graph edges name).count a := pending_concat hname
  obtain ⟨new, heq, hnodup, hnew⟩ := foldl_relax (graph edges name) counts ready fun a => by
    rw [h.counts a, hsplit a]
    omega
  have hlisted : ∀ a, a ∈ order ++ name :: ready → (graph edges name).count a = 0 := by
    intro a ha
    have := ((h.mem a).mp ha).2
    rw [hsplit a] at this
    omega
  refine ⟨_, _, heq, fun a => ?_, ?_, fun a => ?_, fun a b hedge hb => ?_⟩
  · rw [h.counts a, hsplit a]
    omega
  · rw [List.append_assoc, List.singleton_append, ← List.cons_append, ← List.append_assoc]
    refine List.nodup_append.mpr ⟨h.nodup, hnodup, fun a ha b hb hab => ?_⟩
    subst hab
    exact List.count_eq_zero.mp (hlisted a ha) ((hnew a).mp hb).1
  · rw [List.append_assoc, List.singleton_append, ← List.cons_append, ← List.append_assoc,
      List.mem_append, h.mem a, hnew a, h.counts a, hsplit a]
    constructor
    · rintro (⟨hnode, hzero⟩ | ⟨hsucc, hcount⟩)
      · exact ⟨hnode, by omega⟩
      · exact ⟨hedges _ (mem_graph.mp hsucc), by omega⟩
    · rintro ⟨hnode, hzero⟩
      by_cases hsucc : a ∈ graph edges name
      · exact .inr ⟨hsucc, by omega⟩
      · exact .inl ⟨hnode, by rw [hzero, List.count_eq_zero.mpr hsucc]⟩
  · rcases List.mem_append.mp hb with hb | hb
    · obtain ⟨ha, hlt⟩ := h.before a b hedge hb
      refine ⟨List.mem_append_left _ ha, ?_⟩
      rwa [List.idxOf_append_of_mem ha, List.idxOf_append_of_mem hb]
    · rw [List.mem_singleton.mp hb] at hedge ⊢
      have ha : a ∈ order := pending_eq_zero
        ((h.mem name).mp (List.mem_append_right _ List.mem_cons_self)).2 hedge
      refine ⟨List.mem_append_left _ ha, ?_⟩
      rw [List.idxOf_append_of_mem ha, List.idxOf_append_of_notMem hname]
      exact Nat.lt_add_right _ (List.idxOf_lt_length_of_mem ha)

/-- **The sort keeps the invariant**, and stops with nothing ready. -/
theorem sort_sorted (hedges : ∀ edge ∈ edges, edge.2 ∈ nodes) (fuel : Nat) {counts : N → Int}
    {ready order : List N} (h : Sorted edges nodes counts ready order)
    (hfuel : nodes.length ≤ order.length + fuel) :
    ∃ counts', Sorted edges nodes counts' [] (sort edges fuel (counts, ready) order) := by
  induction fuel generalizing counts ready order with
  | zero =>
    have hsub : order ++ ready ⊆ nodes := fun a ha => ((h.mem a).mp ha).1
    have hlen := (h.nodup.subperm hsub).length_le
    rw [List.length_append] at hlen
    obtain rfl : ready = [] := List.eq_nil_of_length_eq_zero (by omega)
    exact ⟨counts, h⟩
  | succ fuel ih =>
    cases ready with
    | nil => exact ⟨counts, h⟩
    | cons name ready =>
      obtain ⟨counts', ready', heq, hnext⟩ := h.step hedges
      rw [sort, heq]
      refine ih hnext ?_
      rw [List.length_append, List.length_singleton]
      omega

/-! ## The whole sort -/

/-- An edge. -/
def Step (edges : List (N × N)) (a b : N) : Prop := (a, b) ∈ edges

omit [DecidableEq N] in
/-- Of finitely many nodes without a cycle, those of a nonempty set have one that no other of
them leads to. -/
theorem exists_source {R : N → N → Prop} (hacyclic : ∀ a, ¬ Relation.TransGen R a a)
    {P : N → Prop} {a : N} (ha : P a) (hnodes : ∀ a, P a → a ∈ nodes) :
    ∃ b, P b ∧ ∀ c, P c → ¬ R c b := by
  let below : {a // a ∈ nodes} → {a // a ∈ nodes} → Prop :=
    fun a b => Relation.TransGen R a.1 b.1
  have htrans : IsTrans _ below := ⟨fun _ _ _ h h' => h.trans h'⟩
  have hirrefl : Std.Irrefl below := ⟨fun a => hacyclic a.1⟩
  have hfinite : Finite {a // a ∈ nodes} := nodes.finite_toSet
  have hwf : WellFounded below := Finite.wellFounded_of_trans_of_irrefl below
  obtain ⟨b, hb, hmin⟩ := hwf.has_min {b | P b.1} ⟨⟨a, hnodes a ha⟩, ha⟩
  exact ⟨b.1, hb, fun c hc hstep => hmin ⟨c, hnodes c hc⟩ hc (.single hstep)⟩

section Whole

variable (hnodes : nodes.Nodup) (hedges : ∀ edge ∈ edges, edge.1 ∈ nodes ∧ edge.2 ∈ nodes)

include hnodes hedges

theorem order_sorted : ∃ counts, Sorted edges nodes counts [] (order edges nodes) :=
  sort_sorted (fun edge h => (hedges edge h).2) _ (sorted_start hnodes)
    (by rw [List.length_nil]; omega)

/-- **An edge leads from a node listed before.** -/
theorem order_before {a b : N} (hedge : (a, b) ∈ edges) (hb : b ∈ order edges nodes) :
    a ∈ order edges nodes ∧ (order edges nodes).idxOf a < (order edges nodes).idxOf b := by
  obtain ⟨counts, h⟩ := order_sorted hnodes hedges
  exact h.before a b hedge hb

/-- **On an acyclic graph every node is listed once.** -/
theorem order_perm (hacyclic : ∀ a, ¬ Relation.TransGen (Step edges) a a) :
    (order edges nodes).Perm nodes := by
  obtain ⟨counts, h⟩ := order_sorted hnodes hedges
  have hnodup := h.nodup
  have hmem := h.mem
  rw [List.append_nil] at hnodup
  simp only [List.append_nil] at hmem
  refine (List.perm_ext_iff_of_nodup hnodup hnodes).mpr fun a => ⟨fun ha => ((hmem a).mp ha).1, ?_⟩
  intro ha
  by_contra hout
  obtain ⟨b, ⟨hb, hnot⟩, hsource⟩ := exists_source (P := fun a => a ∈ nodes ∧ a ∉ order edges nodes)
    hacyclic ⟨ha, hout⟩ fun _ h => h.1
  have hpending : pending edges (order edges nodes) b ≠ 0 := fun hzero =>
    hnot ((hmem b).mpr ⟨hb, hzero⟩)
  obtain ⟨c, hedge, hc⟩ := exists_pending hpending
  exact hsource c ⟨(hedges _ hedge).1, hc⟩ hedge

end Whole

end Kahn
