import Revl.Lib.Dict

/-!
# Witnesses of an in-place closure

Nodes are marked in passes over a fixed order, each visit seeing the marks of the visits before it.
A node is marked when one of its edges leads to a marked node, and the edge that was taken is
written down as its witness. Preferred edges are tried first, the shortest chain of witnesses among
them; then the others, by order; then the node's own ends, which need no mark.

- `chain`, `depth`: the walk along the witnesses, which stops at a node it has seen.
- `Chain`: a path to an end.
- `Sound.chain_sound`: **the walk is a path to an end that visits no node twice**.
- `Settled.depth_minimal_iff`: **when the witnesses are shortest paths**.
-/

universe u

namespace Derivation

variable {α : Type u} [LinearOrder α]

/-- The nodes in the order they are visited, their edges of either kind, the ends that are theirs
alone, and the nodes marked from the start, which are not visited. -/
structure Rules (α : Type u) [LinearOrder α] where
  order : List α
  first : α → List α
  second : α → List α
  own : α → List α
  seeds : Finset α
  nodup : order.Nodup
  seeds_out : ∀ k ∈ seeds, k ∉ order
  own_out : ∀ k, ∀ c ∈ own k, c ∉ order

/-- The marked nodes, and the witness of each one marked by a visit. -/
structure State (α : Type u) [LinearOrder α] where
  marked : Finset α
  witness : Dict α α

/-- The members of a list, each once, in order. -/
def sorted (l : List α) : List α := l.dedup.insertionSort (· ≤ ·)

/-- The nodes a walk along the witnesses goes on to: it stops where there is no witness, and at a
node it has seen. Each step uses another witness, so their number is fuel enough. -/
def chainFrom (w : Dict α α) : Nat → List α → α → List α
  | 0, _, _ => []
  | fuel + 1, seen, k =>
    match w.get? k with
    | none => []
    | some c => if c ∈ seen then [] else c :: chainFrom w fuel (c :: seen) c

/-- The walk from a node. -/
def chain (w : Dict α α) (k : α) : List α := k :: chainFrom w w.entries.length [k] k

/-- The number of its hops. -/
def depth (w : Dict α α) (k : α) : Nat := (chainFrom w w.entries.length [k] k).length

namespace Rules

variable (g : Rules α)

/-- The marked nodes behind the preferred edges. -/
def offers (marked : Finset α) (k : α) : List α := (sorted (g.first k)).filter (· ∈ marked)

/-- What is taken where there are none: a marked node behind another edge, or an end of the
node's own. -/
def fallbacks (marked : Finset α) (k : α) : List α :=
  (sorted (g.second k)).filter (· ∈ marked) ++ sorted (g.own k)

/-- The witness a visit writes down. -/
def pick (s : State α) (k : α) : Option α :=
  ((g.offers s.marked k).argmin (depth s.witness)).or (g.fallbacks s.marked k).head?

def visit (s : State α) (k : α) : State α :=
  if k ∈ s.marked then s
  else
    match g.pick s k with
    | none => s
    | some c => ⟨insert k s.marked, s.witness.set k c⟩

def pass (s : State α) : State α := g.order.foldl g.visit s

def start : State α := ⟨g.seeds, Dict.empty⟩

/-- An edge of either kind. -/
def Edge (k c : α) : Prop := c ∈ g.first k ∨ c ∈ g.second k

/-- An edge, or an end of the node's own. -/
def Hop (k c : α) : Prop := g.Edge k c ∨ c ∈ g.own k

/-- Visited earlier in the same pass. -/
def Before (c k : α) : Prop := ∃ l r, g.order = l ++ k :: r ∧ c ∈ l

/-- Marked by the end of so many passes. -/
inductive By : Nat → α → Prop
  | seed {k : α} : k ∈ g.seeds → By 0 k
  | own {n : Nat} {k c : α} : k ∈ g.order → c ∈ g.own k → By (n + 1) k
  | later {n : Nat} {k c : α} : k ∈ g.order → g.Edge k c → By n c → By (n + 1) k
  | same {n : Nat} {k c : α} : g.Before c k → g.Edge k c → By (n + 1) c → By (n + 1) k
  | mono {n : Nat} {k : α} : By n k → By (n + 1) k

/-- Marked already when the node is visited in the pass that marks it. -/
def Ready (k c : α) : Prop :=
  ∃ n, ¬ g.By n k ∧ g.By (n + 1) k ∧ (g.By n c ∨ g.Before c k ∧ g.By (n + 1) c)

/-- A path of so many hops to an end. -/
inductive Chain : Nat → α → Prop
  | seed {k : α} : k ∈ g.seeds → Chain 0 k
  | own {k c : α} : k ∈ g.order → c ∈ g.own k → Chain 1 k
  | step {n : Nat} {k c : α} : k ∈ g.order → g.Edge k c → Chain n c → Chain (n + 1) k

/-- Whatever path leads from the one node, a shorter one leads from the other. -/
def Shorter (k c : α) : Prop := ∀ m, g.Chain m k → ∃ j < m, g.Chain j c

/-- When the node is marked, what the visit turns to first is on a shortest path. -/
def Timely (k : α) : Prop :=
  (∃ c ∈ g.first k, g.Ready k c ∧ g.Shorter k c) ∨
    ((∀ c ∈ g.first k, ¬ g.Ready k c) ∧
      ((∃ c ∈ g.second k, g.Ready k c ∧ (∀ c' ∈ g.second k, g.Ready k c' → c ≤ c') ∧
          g.Shorter k c) ∨
        ∀ c ∈ g.second k, ¬ g.Ready k c))

end Rules

/-! ## Sorted choices -/

theorem mem_sorted {l : List α} {c : α} : c ∈ sorted l ↔ c ∈ l := by
  rw [sorted, List.mem_insertionSort, List.mem_dedup]

theorem le_of_head?_filter {l : List α} {p : α → Bool} {c : α}
    (h : ((sorted l).filter p).head? = some c) {c' : α} (hc' : c' ∈ l) (hp : p c' = true) :
    c ≤ c' := by
  have hmem : c' ∈ (sorted l).filter p := List.mem_filter.mpr ⟨mem_sorted.mpr hc', hp⟩
  have hsorted : ((sorted l).filter p).Pairwise (· ≤ ·) :=
    (List.pairwise_insertionSort (· ≤ ·) _).sublist List.filter_sublist
  cases hl : (sorted l).filter p with
  | nil => simp [hl] at h
  | cons d rest =>
    rw [hl] at h hmem hsorted
    obtain rfl : d = c := by simpa using h
    rcases List.mem_cons.mp hmem with rfl | hrest
    · exact le_rfl
    · exact (List.pairwise_cons.mp hsorted).1 c' hrest

/-! ## Walks -/

/-- The number of hops along the witnesses, to a node that is not visited. -/
inductive Hops (order : List α) (w : Dict α α) : Nat → α → Prop
  | stop {k : α} : k ∉ order → Hops order w 0 k
  | step {n : Nat} {k c : α} : w.get? k = some c → Hops order w n c → Hops order w (n + 1) k

/-- Only visited nodes have a witness. -/
def KeysIn (order : List α) (w : Dict α α) : Prop := ∀ k c, w.get? k = some c → k ∈ order

section Walks

variable {order : List α} {w : Dict α α}

theorem Hops.unique (hkeys : KeysIn order w) {n m : Nat} {k : α} (hn : Hops order w n k)
    (hm : Hops order w m k) : n = m := by
  induction hn generalizing m with
  | stop hk =>
    cases hm with
    | stop => rfl
    | step hget => exact absurd (hkeys _ _ hget) hk
  | step hget _ ih =>
    cases hm with
    | stop hk => exact absurd (hkeys _ _ hget) hk
    | step hget' hc =>
      rw [hget, Option.some.injEq] at hget'
      subst hget'
      rw [ih hc]

theorem Hops.extend {w' : Dict α α} (hext : ∀ k c, w.get? k = some c → w'.get? k = some c)
    {n : Nat} {k : α} (h : Hops order w n k) : Hops order w' n k := by
  induction h with
  | stop hk => exact .stop hk
  | step hget _ ih => exact .step (hext _ _ hget) ih

/-- The nodes with a witness that a walk of so many hops passes are all different. -/
theorem Hops.exists_keys (hkeys : KeysIn order w) {n : Nat} {k : α} (h : Hops order w n k) :
    ∃ l : List α, l.length = n ∧ l.Nodup ∧
      ∀ x ∈ l, x ∈ w.entries.map Prod.fst ∧ ∃ m ≤ n, Hops order w m x := by
  induction h with
  | stop => exact ⟨[], rfl, List.nodup_nil, by simp⟩
  | @step n k c hget hc ih =>
    obtain ⟨l, hlen, hnodup, hl⟩ := ih
    refine ⟨k :: l, by rw [List.length_cons, hlen], List.nodup_cons.mpr ⟨fun hk => ?_, hnodup⟩, ?_⟩
    · obtain ⟨-, m, hm, hops⟩ := hl k hk
      have := hops.unique hkeys (.step hget hc)
      omega
    · intro x hx
      rcases List.mem_cons.mp hx with rfl | hx
      · exact ⟨List.mem_map.mpr ⟨_, Dict.get?_eq_some_iff.mp hget, rfl⟩, n + 1, le_rfl,
          .step hget hc⟩
      · obtain ⟨hmem, m, hm, hops⟩ := hl x hx
        exact ⟨hmem, m, by omega, hops⟩

theorem Hops.le_length (hkeys : KeysIn order w) {n : Nat} {k : α} (h : Hops order w n k) :
    n ≤ w.entries.length := by
  obtain ⟨l, rfl, hnodup, hl⟩ := h.exists_keys hkeys
  have hsub : l ⊆ w.entries.map Prod.fst := fun x hx => (hl x hx).1
  simpa using (hnodup.subperm hsub).length_le

/-- What a walk of so many hops is: a list of that many nodes, each the witness of the one before,
none seen already or met twice, the last without a witness. -/
theorem chainFrom_spec (hkeys : KeysIn order w) {n fuel : Nat} {k : α} (h : Hops order w n k)
    (hfuel : n ≤ fuel) {seen : List α} (hseen : ∀ x ∈ seen, ∃ m, n ≤ m ∧ Hops order w m x) :
    (chainFrom w fuel seen k).length = n ∧
      List.IsChain (fun a b => w.get? a = some b) (k :: chainFrom w fuel seen k) ∧
      (∀ x ∈ chainFrom w fuel seen k, ∃ m < n, Hops order w m x) ∧
      (chainFrom w fuel seen k).Nodup ∧
      ∀ e ∈ (k :: chainFrom w fuel seen k).getLast?, e ∉ order := by
  induction h generalizing fuel seen with
  | @stop k hk =>
    have hnone : w.get? k = none := by
      refine Option.eq_none_iff_forall_ne_some.mpr fun c hc => hk (hkeys _ _ hc)
    have hnil : chainFrom w fuel seen k = [] := by
      cases fuel with
      | zero => rfl
      | succ fuel => rw [chainFrom, hnone]
    rw [hnil]
    refine ⟨rfl, .singleton _, by simp, List.nodup_nil, ?_⟩
    intro e he
    obtain rfl : k = e := by simpa using he
    exact hk
  | @step n k c hget hc ih =>
    obtain ⟨fuel, rfl⟩ : ∃ f, fuel = f + 1 := ⟨fuel - 1, by omega⟩
    -- the hops count down along the walk, so that the next node cannot have been seen
    have hnew : c ∉ seen := by
      intro hmem
      obtain ⟨m, hm, hops⟩ := hseen c hmem
      have := hops.unique hkeys hc
      omega
    have hpast : ∀ x ∈ c :: seen, ∃ m, n ≤ m ∧ Hops order w m x := by
      intro x hx
      rcases List.mem_cons.mp hx with rfl | hx
      · exact ⟨n, le_rfl, hc⟩
      · obtain ⟨m, hm, hops⟩ := hseen x hx
        exact ⟨m, by omega, hops⟩
    have hleft : n ≤ fuel := by omega
    obtain ⟨hlen, hwalk, hlow, hnodup, hend⟩ := ih hleft hpast
    rw [chainFrom, hget]
    simp only [if_neg hnew]
    refine ⟨by rw [List.length_cons, hlen], .cons_cons hget hwalk, ?_, ?_, ?_⟩
    · intro x hx
      rcases List.mem_cons.mp hx with rfl | hx
      · exact ⟨n, Nat.lt_succ_self n, hc⟩
      · obtain ⟨m, hm, hops⟩ := hlow x hx
        exact ⟨m, by omega, hops⟩
    · refine List.nodup_cons.mpr ⟨fun hmem => ?_, hnodup⟩
      obtain ⟨m, hm, hops⟩ := hlow c hmem
      have := hops.unique hkeys hc
      omega
    · rw [List.getLast?_cons_cons]
      exact hend

theorem depth_eq (hkeys : KeysIn order w) {n : Nat} {k : α} (h : Hops order w n k) :
    depth w k = n :=
  (chainFrom_spec hkeys h (h.le_length hkeys) (by
    intro x hx
    obtain rfl := List.mem_singleton.mp hx
    exact ⟨n, le_rfl, h⟩)).1

end Walks

namespace Rules

variable {g : Rules α}

/-! ## What is marked by the end of a pass -/

theorem By.mono_le {n m : Nat} {k : α} (h : g.By n k) (hnm : n ≤ m) : g.By m k := by
  induction hnm with
  | refl => exact h
  | step _ ih => exact .mono ih

theorem By.mem_order {n : Nat} {k : α} (h : g.By n k) : k ∈ g.seeds ∨ k ∈ g.order := by
  induction h with
  | seed hk => exact .inl hk
  | own hk => exact .inr hk
  | later hk => exact .inr hk
  | same hbefore =>
    obtain ⟨l, r, horder, -⟩ := hbefore
    exact .inr (horder ▸ List.mem_append_right l List.mem_cons_self)
  | mono _ ih => exact ih

theorem by_zero_iff {k : α} : g.By 0 k ↔ k ∈ g.seeds := by
  constructor
  · intro h
    cases h with
    | seed hk => exact hk
  · exact .seed

/-- In an order without repetitions the place of a node is one. -/
theorem before_iff {pre post : List α} {c k : α} (horder : g.order = pre ++ k :: post) :
    g.Before c k ↔ c ∈ pre := by
  constructor
  · rintro ⟨l, r, hsplit, hc⟩
    have hnodup := g.nodup
    rw [horder] at hnodup
    have hk : k ∉ pre := fun hmem =>
      List.disjoint_of_nodup_append hnodup hmem List.mem_cons_self
    have hk' : k ∉ l := by
      have hnodup' := g.nodup
      rw [hsplit] at hnodup'
      exact fun hmem => List.disjoint_of_nodup_append hnodup' hmem List.mem_cons_self
    have hidx := congrArg (List.idxOf k) (horder.symm.trans hsplit)
    rw [List.idxOf_append_of_notMem hk, List.idxOf_append_of_notMem hk', List.idxOf_cons_self,
      List.idxOf_cons_self] at hidx
    obtain ⟨rfl, -⟩ := List.append_inj (horder.symm.trans hsplit) (by omega)
    exact hc
  · exact fun hc => ⟨pre, post, horder, hc⟩

/-- A node the pass marks is in reach of what is marked when it is visited. -/
theorem by_succ_iff {pre post : List α} {n : Nat} {k : α} (horder : g.order = pre ++ k :: post) :
    g.By (n + 1) k ↔ g.By n k ∨ (∃ c, g.Edge k c ∧ (g.By n c ∨ c ∈ pre ∧ g.By (n + 1) c)) ∨
      ∃ c, c ∈ g.own k := by
  have hk : k ∈ g.order := horder ▸ List.mem_append_right pre List.mem_cons_self
  constructor
  · intro h
    cases h with
    | own _ hc => exact .inr (.inr ⟨_, hc⟩)
    | later _ hedge hc => exact .inr (.inl ⟨_, hedge, .inl hc⟩)
    | same hbefore hedge hc => exact .inr (.inl ⟨_, hedge, .inr ⟨(before_iff horder).mp hbefore, hc⟩⟩)
    | mono h => exact .inl h
  · rintro (h | ⟨c, hedge, hc | ⟨hpre, hc⟩⟩ | ⟨c, hc⟩)
    · exact .mono h
    · exact .later hk hedge hc
    · exact .same ((before_iff horder).mpr hpre) hedge hc
    · exact .own hk hc

/-- When a node is first marked, the nodes that are ready for it are the ones marked by then. -/
theorem ready_iff {pre post : List α} {n : Nat} {k c : α} (horder : g.order = pre ++ k :: post)
    (hnot : ¬ g.By n k) (hby : g.By (n + 1) k) :
    g.Ready k c ↔ g.By n c ∨ c ∈ pre ∧ g.By (n + 1) c := by
  constructor
  · rintro ⟨m, hnot', hby', hc⟩
    obtain rfl : m = n := by
      rcases lt_trichotomy m n with hlt | rfl | hlt
      · exact absurd (hby'.mono_le hlt) hnot
      · rfl
      · exact absurd (hby.mono_le hlt) hnot'
    rwa [before_iff horder] at hc
  · intro hc
    exact ⟨n, hnot, hby, by rwa [before_iff horder]⟩

/-! ## What a visit writes down -/

/-- The witness of a node: a preferred edge to a ready node with a shortest walk; where none is
ready, the other edge that comes first; where none of those is either, an end of its own. -/
def Picked (g : Rules α) (w : Dict α α) (k c : α) : Prop :=
  (c ∈ g.first k ∧ g.Ready k c ∧ ∀ c' ∈ g.first k, g.Ready k c' →
      ∃ i j, i ≤ j ∧ Hops g.order w i c ∧ Hops g.order w j c') ∨
    ((∀ c' ∈ g.first k, ¬ g.Ready k c') ∧
      ((c ∈ g.second k ∧ g.Ready k c ∧ ∀ c' ∈ g.second k, g.Ready k c' → c ≤ c') ∨
        ((∀ c' ∈ g.second k, ¬ g.Ready k c') ∧ c ∈ g.own k)))

theorem Picked.extend {w w' : Dict α α} (hext : ∀ k c, w.get? k = some c → w'.get? k = some c)
    {k c : α} (h : g.Picked w k c) : g.Picked w' k c := by
  refine h.imp_left fun ⟨hc, hready, hmin⟩ => ⟨hc, hready, fun c' hc' hready' => ?_⟩
  obtain ⟨i, j, hij, hi, hj⟩ := hmin c' hc' hready'
  exact ⟨i, j, hij, hi.extend hext, hj.extend hext⟩

/-- The state after some passes and the visits of `pre`. -/
structure Sound (g : Rules α) (n : Nat) (pre : List α) (s : State α) : Prop where
  marked : ∀ c, c ∈ s.marked ↔ g.By n c ∨ c ∈ pre ∧ g.By (n + 1) c
  keys : ∀ k c, s.witness.get? k = some c → k ∈ g.order ∧ k ∈ s.marked
  picked : ∀ k ∈ s.marked, k ∈ g.order → ∃ c, s.witness.get? k = some c ∧ g.Picked s.witness k c
  hops : ∀ k ∈ s.marked, ∃ i, Hops g.order s.witness i k

theorem Sound.keysIn {n : Nat} {pre : List α} {s : State α} (h : g.Sound n pre s) :
    KeysIn g.order s.witness :=
  fun k c hget => (h.keys k c hget).1

section Visit

variable {n : Nat} {pre post : List α} {k : α} {s : State α}

theorem mem_offers {c : α} : c ∈ g.offers s.marked k ↔ c ∈ g.first k ∧ c ∈ s.marked := by
  simp [offers, mem_sorted]

theorem mem_fallbacks {c : α} :
    c ∈ g.fallbacks s.marked k ↔ (c ∈ g.second k ∧ c ∈ s.marked) ∨ c ∈ g.own k := by
  simp [fallbacks, mem_sorted]

theorem mem_of_pick {c : α} (h : g.pick s k = some c) :
    (g.Edge k c ∧ c ∈ s.marked) ∨ c ∈ g.own k := by
  rcases Option.or_eq_some_iff.mp h with hc | ⟨-, hc⟩
  · have hmem := mem_offers.mp (List.argmin_mem hc)
    exact .inl ⟨.inl hmem.1, hmem.2⟩
  · rcases mem_fallbacks.mp (List.mem_of_head? hc) with hmem | hown
    · exact .inl ⟨.inr hmem.1, hmem.2⟩
    · exact .inr hown

theorem pick_eq_none_iff :
    g.pick s k = none ↔ (∀ c, g.Edge k c → c ∉ s.marked) ∧ ∀ c, c ∉ g.own k := by
  rw [pick, Option.or_eq_none_iff, List.argmin_eq_none, List.head?_eq_none_iff,
    List.eq_nil_iff_forall_not_mem, List.eq_nil_iff_forall_not_mem]
  constructor
  · rintro ⟨hoffers, hfall⟩
    refine ⟨fun c hedge hmarked => ?_, fun c hown => hfall c (mem_fallbacks.mpr (.inr hown))⟩
    rcases hedge with hc | hc
    · exact hoffers c (mem_offers.mpr ⟨hc, hmarked⟩)
    · exact hfall c (mem_fallbacks.mpr (.inl ⟨hc, hmarked⟩))
  · rintro ⟨hedge, hown⟩
    refine ⟨fun c hc => ?_, fun c hc => ?_⟩
    · exact hedge c (.inl (mem_offers.mp hc).1) (mem_offers.mp hc).2
    · rcases mem_fallbacks.mp hc with hc | hc
      · exact hedge c (.inr hc.1) hc.2
      · exact hown c hc

variable (horder : g.order = pre ++ k :: post) (h : g.Sound n pre s)

include horder h in
/-- A visit finds something exactly when the pass is to mark the node. -/
theorem pick_isSome_iff (hk : k ∉ s.marked) : (∃ c, g.pick s k = some c) ↔ g.By (n + 1) k := by
  have hnot : ¬ g.By n k := fun hby => hk ((h.marked k).mpr (.inl hby))
  rw [by_succ_iff horder, or_iff_right hnot, ← Option.isSome_iff_exists, ← Option.ne_none_iff_isSome,
    Ne, pick_eq_none_iff, not_and_or]
  refine or_congr ?_ (by simp)
  simp only [h.marked, not_forall, not_not, exists_prop]

include horder h in
theorem picked_of_pick (hk : k ∉ s.marked) {c : α} (hpick : g.pick s k = some c) :
    g.Picked s.witness k c := by
  have hnot : ¬ g.By n k := fun hby => hk ((h.marked k).mpr (.inl hby))
  have hby : g.By (n + 1) k := (pick_isSome_iff horder h hk).mp ⟨c, hpick⟩
  have hready : ∀ c, g.Ready k c ↔ c ∈ s.marked := fun c =>
    (ready_iff horder hnot hby).trans (h.marked c).symm
  rcases Option.or_eq_some_iff.mp hpick with hc | ⟨hnone, hc⟩
  · obtain ⟨hfirst, hmarked⟩ := mem_offers.mp (List.argmin_mem hc)
    refine .inl ⟨hfirst, (hready c).mpr hmarked, fun c' hc' hready' => ?_⟩
    have hmarked' := (hready c').mp hready'
    obtain ⟨i, hi⟩ := h.hops c hmarked
    obtain ⟨j, hj⟩ := h.hops c' hmarked'
    have hle := List.le_of_mem_argmin (mem_offers.mpr ⟨hc', hmarked'⟩) hc
    rw [depth_eq h.keysIn hi, depth_eq h.keysIn hj] at hle
    exact ⟨i, j, hle, hi, hj⟩
  · rw [List.argmin_eq_none] at hnone
    refine .inr ⟨fun c' hc' hready' => ?_, ?_⟩
    · have := mem_offers.mpr ⟨hc', (hready c').mp hready'⟩
      rw [hnone] at this
      exact List.not_mem_nil this
    · rw [fallbacks, List.head?_append, Option.or_eq_some_iff] at hc
      rcases hc with hc | ⟨hnil, hc⟩
      · have hmem := List.mem_filter.mp (List.mem_of_head? hc)
        refine .inl ⟨mem_sorted.mp hmem.1, (hready c).mpr (by simpa using hmem.2), ?_⟩
        intro c' hc' hready'
        exact le_of_head?_filter hc hc' (by simpa using (hready c').mp hready')
      · refine .inr ⟨fun c' hc' hready' => ?_, mem_sorted.mp (List.mem_of_head? hc)⟩
        rw [List.head?_eq_none_iff, List.filter_eq_nil_iff] at hnil
        exact hnil c' (mem_sorted.mpr hc') (by simpa using (hready c').mp hready')

include horder h in
/-- **One visit** keeps the state sound. -/
theorem Sound.visit : g.Sound n (pre ++ [k]) (g.visit s k) := by
  have hin : k ∈ g.order := horder ▸ List.mem_append_right pre List.mem_cons_self
  by_cases hk : k ∈ s.marked
  · rw [Rules.visit, if_pos hk]
    refine ⟨fun c => ?_, h.keys, h.picked, h.hops⟩
    rw [h.marked, List.mem_append, List.mem_singleton]
    refine ⟨fun hc => hc.imp_right fun hc => ⟨.inl hc.1, hc.2⟩, ?_⟩
    rintro (hc | ⟨hc | rfl, hby⟩)
    · exact .inl hc
    · exact .inr ⟨hc, hby⟩
    · exact (h.marked c).mp hk
  rw [Rules.visit, if_neg hk]
  cases hpick : g.pick s k with
  | none =>
    have hnot : ¬ g.By (n + 1) k := by
      rw [← pick_isSome_iff horder h hk, hpick]
      simp
    refine ⟨fun c => ?_, h.keys, h.picked, h.hops⟩
    rw [h.marked, List.mem_append, List.mem_singleton]
    refine ⟨fun hc => hc.imp_right fun hc => ⟨.inl hc.1, hc.2⟩, ?_⟩
    rintro (hc | ⟨hc | rfl, hby⟩)
    · exact .inl hc
    · exact .inr ⟨hc, hby⟩
    · exact absurd hby hnot
  | some c =>
    have hby : g.By (n + 1) k := (pick_isSome_iff horder h hk).mp ⟨c, hpick⟩
    have hpicked := picked_of_pick horder h hk hpick
    have hnone : s.witness.get? k = none :=
      Option.eq_none_iff_forall_ne_some.mpr fun d hd => hk (h.keys k d hd).2
    have hext : ∀ j d, s.witness.get? j = some d → (s.witness.set k c).get? j = some d := by
      intro j d hd
      rw [Dict.get?_set_of_ne c (by rintro rfl; simp [hnone] at hd)]
      exact hd
    have hhops : ∃ i, Hops g.order s.witness i c := by
      rcases mem_of_pick hpick with ⟨-, hmarked⟩ | hown
      · exact h.hops c hmarked
      · exact ⟨0, .stop (g.own_out k c hown)⟩
    refine ⟨fun d => ?_, fun j d hget => ?_, fun j hj hjin => ?_, fun j hj => ?_⟩
    · -- the new mark is the one the pass owes to this place of the order
      simp only [Finset.mem_insert, h.marked, List.mem_append, List.mem_singleton]
      constructor
      · rintro (rfl | hd | ⟨hd, hbyd⟩)
        · exact .inr ⟨.inr rfl, hby⟩
        · exact .inl hd
        · exact .inr ⟨.inl hd, hbyd⟩
      · rintro (hd | ⟨hd | rfl, hbyd⟩)
        · exact .inr (.inl hd)
        · exact .inr (.inr ⟨hd, hbyd⟩)
        · exact .inl rfl
    · simp only at hget
      rw [Dict.get?_set] at hget
      by_cases hjk : j = k
      · subst hjk
        exact ⟨hin, Finset.mem_insert_self _ _⟩
      · rw [if_neg hjk] at hget
        exact (h.keys j d hget).imp_right (Finset.mem_insert_of_mem)
    · rcases Finset.mem_insert.mp hj with rfl | hj
      · exact ⟨c, Dict.get?_set_self _ _ _, hpicked.extend hext⟩
      · obtain ⟨d, hget, hd⟩ := h.picked j hj hjin
        exact ⟨d, hext j d hget, hd.extend hext⟩
    · rcases Finset.mem_insert.mp hj with rfl | hj
      · obtain ⟨i, hi⟩ := hhops
        exact ⟨i + 1, .step (Dict.get?_set_self _ _ _) (hi.extend hext)⟩
      · obtain ⟨i, hi⟩ := h.hops j hj
        exact ⟨i, hi.extend hext⟩

end Visit

/-! ## What a run of passes leaves -/

theorem sound_start : g.Sound 0 [] g.start where
  marked c := by
    rw [by_zero_iff]
    simp [start]
  keys k c hget := by simp [start] at hget
  picked k hk hin := absurd hin (g.seeds_out k hk)
  hops k hk := ⟨0, .stop (g.seeds_out k hk)⟩

theorem Sound.foldl {n : Nat} {pre post : List α} {s : State α} (horder : g.order = pre ++ post)
    (h : g.Sound n pre s) : g.Sound n g.order (post.foldl g.visit s) := by
  induction post generalizing pre s with
  | nil =>
    rw [List.append_nil] at horder
    rw [horder]
    exact h
  | cons k post ih =>
    rw [List.foldl_cons]
    exact ih (by rw [horder, List.append_assoc, List.singleton_append]) (h.visit horder)

/-- At the end of a pass the next one begins. -/
theorem Sound.next {n : Nat} {s : State α} (h : g.Sound n g.order s) : g.Sound (n + 1) [] s := by
  refine ⟨fun c => ?_, h.keys, h.picked, h.hops⟩
  rw [h.marked]
  constructor
  · rintro (hc | ⟨-, hc⟩)
    · exact .inl (.mono hc)
    · exact .inl hc
  · rintro (hc | ⟨hc, -⟩)
    · rcases hc.mem_order with hseed | hin
      · exact .inl ((By.seed hseed).mono_le (Nat.zero_le n))
      · exact .inr ⟨hin, hc⟩
    · exact absurd hc List.not_mem_nil

theorem Sound.pass {n : Nat} {s : State α} (h : g.Sound n [] s) : g.Sound (n + 1) [] (g.pass s) :=
  (h.foldl (List.nil_append _).symm).next

section Result

variable {n : Nat} {s : State α} (h : g.Sound n [] s)

include h in
theorem Sound.by_of_mem {k : α} (hk : k ∈ s.marked) : g.By n k := by
  rcases (h.marked k).mp hk with hby | ⟨hnil, -⟩
  · exact hby
  · exact absurd hnil List.not_mem_nil

include h in
/-- What was ready for a marked node is marked. -/
theorem Sound.mem_of_ready {k c : α} (hk : k ∈ s.marked) (hready : g.Ready k c) :
    c ∈ s.marked := by
  obtain ⟨m, hnot, -, hc⟩ := hready
  have hlt : m < n := by
    by_contra hle
    exact hnot ((h.by_of_mem hk).mono_le (by omega))
  have hbyc : g.By (m + 1) c := by
    rcases hc with hc | ⟨-, hc⟩
    · exact .mono hc
    · exact hc
  exact (h.marked c).mpr (.inl (hbyc.mono_le hlt))

include h in
theorem Sound.mem_seeds {k : α} (hk : k ∈ s.marked) (hout : k ∉ g.order) : k ∈ g.seeds :=
  (h.by_of_mem hk).mem_order.resolve_right hout

include h in
/-- The witness of a marked node: a marked node behind an edge, or an end of its own. -/
theorem Sound.witness_cases {k c : α} (hget : s.witness.get? k = some c) :
    (g.Edge k c ∧ c ∈ s.marked) ∨ c ∈ g.own k := by
  obtain ⟨hin, hk⟩ := h.keys k c hget
  obtain ⟨d, hget', hpicked⟩ := h.picked k hk hin
  obtain rfl : c = d := Option.some.inj (hget.symm.trans hget')
  rcases hpicked with ⟨hc, hready, -⟩ | ⟨-, ⟨hc, hready, -⟩ | ⟨-, hc⟩⟩
  · exact .inl ⟨.inl hc, h.mem_of_ready hk hready⟩
  · exact .inl ⟨.inr hc, h.mem_of_ready hk hready⟩
  · exact .inr hc

omit [LinearOrder α] in
/-- In a chain the last element is the only one, or is led to by another. -/
theorem exists_before_last {R : α → α → Prop} {l : List α} (hchain : List.IsChain R l) {e : α}
    (he : l.getLast? = some e) : l = [e] ∨ ∃ j ∈ l, R j e := by
  induction hchain with
  | nil => simp at he
  | singleton a => exact .inl (by simpa using he)
  | @cons_cons a b l hab _ ih =>
    rw [List.getLast?_cons_cons] at he
    rcases ih he with hl | ⟨j, hj, hR⟩
    · obtain ⟨rfl, -⟩ := List.cons_eq_cons.mp hl
      exact .inr ⟨a, List.mem_cons_self, hab⟩
    · exact .inr ⟨j, List.mem_cons_of_mem a hj, hR⟩

include h in
/-- **The walk from a marked node** visits no node twice, takes an edge of the node or an end of its
own at every hop, and stops for want of a witness, at a seed or at an end of a node it passed. -/
theorem Sound.chain_sound {k : α} (hk : k ∈ s.marked) :
    (chain s.witness k).Nodup ∧
      List.IsChain (fun a b => s.witness.get? a = some b ∧ g.Hop a b) (chain s.witness k) ∧
      ∃ e, (chain s.witness k).getLast? = some e ∧ s.witness.get? e = none ∧
        (e ∈ g.seeds ∨ ∃ j ∈ chain s.witness k, e ∈ g.own j) := by
  obtain ⟨i, hi⟩ := h.hops k hk
  have hpast : ∀ x ∈ [k], ∃ m, i ≤ m ∧ Hops g.order s.witness m x := by
    intro x hx
    obtain rfl := List.mem_singleton.mp hx
    exact ⟨i, le_rfl, hi⟩
  obtain ⟨-, hwalk, hlow, hnodup, hend⟩ :=
    chainFrom_spec h.keysIn hi (hi.le_length h.keysIn) hpast
  refine ⟨List.nodup_cons.mpr ⟨fun hmem => ?_, hnodup⟩, hwalk.imp fun a b hab => ?_, ?_⟩
  · obtain ⟨m, hm, hops⟩ := hlow k hmem
    have := hops.unique h.keysIn hi
    omega
  · exact ⟨hab, (h.witness_cases hab).imp_left And.left⟩
  · obtain ⟨e, he⟩ : ∃ e, (chain s.witness k).getLast? = some e :=
      ⟨_, List.getLast?_eq_some_getLast (List.cons_ne_nil _ _)⟩
    have hout := hend e he
    refine ⟨e, he, ?_, ?_⟩
    · exact Option.eq_none_iff_forall_ne_some.mpr fun c hc => hout (h.keysIn e c hc)
    rcases exists_before_last hwalk he with hsingle | ⟨j, hj, hget⟩
    · obtain ⟨rfl, -⟩ := List.cons_eq_cons.mp hsingle
      exact .inl (h.mem_seeds hk hout)
    · rcases h.witness_cases hget with ⟨-, hmarked⟩ | hown
      · exact .inl (h.mem_seeds hmarked hout)
      · exact .inr ⟨j, hj, hown⟩

include h in
/-- The walk is one of the paths. -/
theorem Sound.chain_of_hops {i : Nat} {k : α} (hops : Hops g.order s.witness i k)
    (hk : k ∈ s.marked) : g.Chain i k := by
  induction hops with
  | stop hout => exact .seed (h.mem_seeds hk hout)
  | @step i k c hget hc ih =>
    have hin := (h.keys k c hget).1
    rcases h.witness_cases hget with ⟨hedge, hmarked⟩ | hown
    · exact .step hin hedge (ih hmarked)
    · obtain rfl : i = 0 := hc.unique h.keysIn (.stop (g.own_out k c hown))
      exact .own hin hown

include h in
theorem Sound.timely_of_minimal (hmin : ∀ k ∈ s.marked, ∀ m, g.Chain m k → depth s.witness k ≤ m)
    {k : α} (hk : k ∈ s.marked) (hin : k ∈ g.order) : g.Timely k := by
  obtain ⟨c, hget, hpicked⟩ := h.picked k hk hin
  -- the walk from the witness is one hop shorter than any path from the node
  have hshorter : c ∈ s.marked → g.Shorter k c := by
    intro hmarked m hchain
    obtain ⟨i, hi⟩ := h.hops c hmarked
    have hle := hmin k hk m hchain
    rw [depth_eq h.keysIn (.step hget hi)] at hle
    exact ⟨i, hle, h.chain_of_hops hi hmarked⟩
  rcases hpicked with ⟨hc, hready, -⟩ | ⟨hnone, ⟨hc, hready, hleast⟩ | ⟨hnone', -⟩⟩
  · exact .inl ⟨c, hc, hready, hshorter (h.mem_of_ready hk hready)⟩
  · exact .inr ⟨hnone, .inl ⟨c, hc, hready, hleast, hshorter (h.mem_of_ready hk hready)⟩⟩
  · exact .inr ⟨hnone, .inr hnone'⟩

include h in
theorem Sound.minimal_of_timely (htimely : ∀ k ∈ s.marked, k ∈ g.order → g.Timely k) (m : Nat)
    {k : α} (hk : k ∈ s.marked) (hchain : g.Chain m k) : depth s.witness k ≤ m := by
  induction m using Nat.strong_induction_on generalizing k with
  | _ m ih =>
    by_cases hin : k ∈ g.order
    · obtain ⟨c, hget, hpicked⟩ := h.picked k hk hin
      have hbelow : ∀ i c', Hops g.order s.witness i c → g.Ready k c' → g.Shorter k c' →
          (∀ j, Hops g.order s.witness j c' → i ≤ j) → depth s.witness k ≤ m := by
        intro i c' hi hready hshort hle
        obtain ⟨j', hj', hchain'⟩ := hshort m hchain
        have hmarked := h.mem_of_ready hk hready
        obtain ⟨j, hj⟩ := h.hops c' hmarked
        have hih := ih j' hj' hmarked hchain'
        rw [depth_eq h.keysIn hj] at hih
        rw [depth_eq h.keysIn (.step hget hi)]
        have := hle j hj
        omega
      rcases htimely k hk hin with ⟨c', hc', hready, hshort⟩ | ⟨hnone, hrest⟩
      · rcases hpicked with ⟨-, -, hleast⟩ | ⟨hnone, -⟩
        · obtain ⟨i, j, hij, hi, hj⟩ := hleast c' hc' hready
          refine hbelow i c' hi hready hshort fun j' hj' => ?_
          rwa [hj'.unique h.keysIn hj]
        · exact absurd hready (hnone c' hc')
      rcases hpicked with ⟨hc, hready, -⟩ | ⟨-, ⟨hc, hready, hleast⟩ | ⟨hnone', hown⟩⟩
      · exact absurd hready (hnone c hc)
      · rcases hrest with ⟨c', hc', hready', hleast', hshort⟩ | hnone'
        · obtain rfl : c = c' := le_antisymm (hleast c' hc' hready') (hleast' c hc hready)
          obtain ⟨i, hi⟩ := h.hops c (h.mem_of_ready hk hready)
          exact hbelow i c hi hready' hshort fun j hj => (hi.unique h.keysIn hj).le
        · exact absurd hready (hnone' c hc)
      · rw [depth_eq h.keysIn (.step hget (.stop (g.own_out k c hown)))]
        cases hchain with
        | seed hseed => exact absurd hin (g.seeds_out k hseed)
        | own => exact le_rfl
        | step => omega
    · rw [depth_eq h.keysIn (.stop hin)]
      exact Nat.zero_le m

include h in
/-- After a pass that marked nothing there is nothing left to mark. -/
theorem Sound.mem_of_by (hpass : (g.pass s).marked = s.marked) {m : Nat} {k : α} (hk : g.By m k) :
    k ∈ s.marked := by
  have hfix : ∀ k, g.By (n + 1) k → g.By n k := fun k hby => by
    have := (h.pass.marked k).mpr (.inl hby)
    rw [hpass] at this
    exact h.by_of_mem this
  refine (h.marked k).mpr (.inl ?_)
  induction hk with
  | seed hseed => exact (By.seed hseed).mono_le (Nat.zero_le n)
  | own hin hown => exact hfix _ (.own hin hown)
  | later hin hedge _ ih => exact hfix _ (.later hin hedge ih)
  | same hbefore hedge _ ih => exact hfix _ (.same hbefore hedge ih.mono)
  | mono _ ih => exact ih

end Result

/-- The state a run of passes ends in: sound, and with nothing left to mark. -/
structure Settled (g : Rules α) (s : State α) : Prop where
  sound : ∃ n, g.Sound n [] s
  closed : ∀ m k, g.By m k → k ∈ s.marked

/-- A node that is never first marked by a visit has no choice to make. -/
theorem Settled.timely_of_not_visited {s : State α} (h : g.Settled s) {k : α}
    (hk : k ∉ s.marked ∨ k ∉ g.order) : g.Timely k := by
  have hnone : ∀ c, ¬ g.Ready k c := by
    rintro c ⟨n, hnot, hby, -⟩
    rcases hk with hk | hk
    · exact hk (h.closed _ _ hby)
    · exact hnot ((By.seed (hby.mem_order.resolve_right hk)).mono_le (Nat.zero_le n))
  exact .inr ⟨fun c _ => hnone c, .inr fun c _ => hnone c⟩

/-- **When the witnesses are shortest paths**: exactly when every node's own choice is on one. -/
theorem Settled.depth_minimal_iff {s : State α} (h : g.Settled s) :
    (∀ k ∈ s.marked, ∀ m, g.Chain m k → depth s.witness k ≤ m) ↔ ∀ k, g.Timely k := by
  obtain ⟨n, hs⟩ := h.sound
  constructor
  · intro hmin k
    by_cases hk : k ∈ s.marked ∧ k ∈ g.order
    · exact hs.timely_of_minimal hmin hk.1 hk.2
    · exact h.timely_of_not_visited (not_and_or.mp hk)
  · intro htimely k hk m hchain
    exact hs.minimal_of_timely (fun k _ _ => htimely k) m hk hchain

end Rules

end Derivation
