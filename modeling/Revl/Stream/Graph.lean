import Revl.Stream.Subscription

/-!
# Streams that feed one another

Sources and merges form a graph; a consumer hangs on one of its streams by a chain of `map`,
`filter` and `take` links with a subscription at the end. A stream that ends tells what it feeds,
which may end in turn, and a merge that is closed leaves what feeds it.

- `Graph`, `runTask`, `settle`: what one method call does, one nested call after the other.
- `Settled`: what holds of a graph while calls are still to be made.
- `Feeds`: the sources that still feed a stream.
- `never_silent`: **where every source feeding a subscription has ended, or one has faulted,
  repeated `next` returns what was kept and then ends**, in runs that subscribe to open streams.
-/

namespace Revl.Stream

variable {α : Type}

/-! ## Consumers -/

inductive StageKind (α : Type) where
  | map (f : α → α)
  | filter (p : α → Bool)
  | take

/-- One combinator link. -/
structure Stage (α : Type) where
  kind : StageKind α
  /-- What a `take` has still to forward. -/
  remaining : Int
  closed : Bool
  /-- The link is in the `_subs` of what is above it. -/
  attached : Bool

/-- A subscription with its chain, the link next to the stream first. -/
structure Consumer (α : Type) where
  base : Nat
  stages : List (Stage α)
  sub : Subscription α
  /-- The subscription is in the `_subs` of what is above it. -/
  attached : Bool

/-- A terminal pushed at the top of a chain reaches the end through every attached link. -/
def terminateChain (t : Terminal) (stages : List (Stage α)) (attached : Bool)
    (sub : Subscription α) : Subscription α :=
  if stages.all Stage.attached && attached then sub.terminate t else sub

/-- One item pushed at the top of a chain. What has nobody attached below accepts. -/
def deliverChain (attached : Bool) (sub : Subscription α) :
    List (Stage α) → α → Bool × List (Stage α) × Subscription α
  | [], item =>
    if attached then ((sub.deliver item).1, [], (sub.deliver item).2) else (true, [], sub)
  | st :: rest, item =>
    if !st.attached then (true, st :: rest, sub)
    else if st.closed then (false, st :: rest, sub)
    else
      match st.kind with
      | .map f =>
        let r := deliverChain attached sub rest (f item)
        (r.1, st :: r.2.1, r.2.2)
      | .filter p =>
        if p item then
          let r := deliverChain attached sub rest item
          (r.1, st :: r.2.1, r.2.2)
        else (true, st :: rest, sub)
      | .take =>
        if st.remaining ≤ 0 then (false, st :: rest, sub)
        else
          let r := deliverChain attached sub rest item
          if r.1 then
            if st.remaining - 1 = 0 then
              -- an exhausted `take` leaves its upstream and ends what is below
              (true, { st with remaining := 0, attached := false } :: r.2.1,
                terminateChain .closed r.2.1 attached r.2.2)
            else (true, { st with remaining := st.remaining - 1 } :: r.2.1, r.2.2)
          else (false, st :: r.2.1, r.2.2)

namespace Consumer

def deliver (c : Consumer α) (item : α) : Bool × Consumer α :=
  let r := deliverChain c.attached c.sub c.stages item
  (r.1, { c with stages := r.2.1, sub := r.2.2 })

def terminate (c : Consumer α) (t : Terminal) : Consumer α :=
  { c with sub := terminateChain t c.stages c.attached c.sub }

/-- The chained inverse: the subscription and each link of its chain leave. -/
def close (c : Consumer α) : Consumer α :=
  { c with
      stages := c.stages.map fun st => { st with closed := true, attached := false }
      sub := c.sub.close
      attached := false }

end Consumer

/-! ## The graph -/

/-- A source, or a merge of earlier streams. -/
structure Node where
  merged : Bool
  ended : Option Terminal
  up : List Nat
  down : List Nat
  /-- Upstreams that have not ended. -/
  pending : Nat

/-- A source nobody has opened yet. -/
def Node.fresh : Node := ⟨false, none, [], [], 0⟩

/-- `_upstream_terminal`, as far as the merge itself goes: a fault ends it, a close counts down. -/
def Node.upstreamTerminal (n : Node) (t : Terminal) : Node :=
  if n.ended.isSome then n
  else
    match t with
    | .faulted reason => { n with ended := some (.faulted reason) }
    | .closed =>
      if 0 < n.pending - 1 then { n with pending := n.pending - 1 }
      else { n with pending := n.pending - 1, ended := some .closed }

structure Graph (α : Type) where
  size : Nat
  nodes : Nat → Node
  consumers : List (Consumer α)

/-- One nested call. -/
inductive Task where
  | notify (m : Nat) (t : Terminal)
  | close (i : Nat)
  | fault (i : Nat) (reason : String)
  /-- The second half of `close`: a stream leaves its upstreams. -/
  | release (i : Nat)
  | detach (u m : Nat)
  deriving DecidableEq

/-- What a stream can still cause: a notification downstream, a detach and a close upstream. -/
def Node.cost (n : Node) : Nat :=
  (if n.ended.isNone then n.down.length else 0) + 3 * n.up.length

def Task.cost : Task → Nat
  | .close _ => 2
  | _ => 1

namespace Graph

def setNode (g : Graph α) (i : Nat) (n : Node) : Graph α :=
  { g with nodes := Function.update g.nodes i n }

/-- The stream has ended, and its subscriptions are told. -/
def finish (g : Graph α) (i : Nat) (n : Node) (t : Terminal) : Graph α :=
  { g.setNode i { n with ended := some t } with
      consumers := g.consumers.map fun c => if c.base = i then c.terminate t else c }

/-- The calls of a stream that leaves its upstreams: a merge above is owned by this stream, a
source is left to its own bracket. -/
def partings (g : Graph α) (i : Nat) : List Nat → List Task
  | [] => []
  | u :: up => .detach u i :: ((if (g.nodes u).merged then [.close u] else []) ++ partings g i up)

/-- One call, and the calls it makes. -/
def runTask (g : Graph α) : Task → Graph α × List Task
  | .notify m t =>
    if g.size ≤ m ∨ (g.nodes m).ended.isSome then (g, [])
    else
      let n := (g.nodes m).upstreamTerminal t
      if n.ended.isSome then (g.finish m n t, n.down.map (.notify · t))
      else (g.setNode m n, [])
  | .close i =>
    let n := g.nodes i
    if g.size ≤ i then (g, [])
    else if n.ended.isSome then (g, [.release i])
    else (g.finish i n .closed, n.down.map (.notify · .closed) ++ [.release i])
  | .fault i reason =>
    let n := g.nodes i
    if g.size ≤ i ∨ n.ended.isSome then (g, [])
    else (g.finish i n (.faulted reason), n.down.map (.notify · (.faulted reason)))
  | .release i =>
    let n := g.nodes i
    if g.size ≤ i then (g, []) else (g.setNode i { n with up := [] }, g.partings i n.up)
  | .detach u m =>
    let n := g.nodes u
    if g.size ≤ u then (g, []) else (g.setNode u { n with down := n.down.erase m }, [])

/-- The calls on the list, each with the calls it makes. -/
def settleFuel : Nat → Graph α → List Task → Graph α
  | 0, g, _ => g
  | _ + 1, g, [] => g
  | fuel + 1, g, t :: ts => settleFuel fuel (g.runTask t).1 ((g.runTask t).2 ++ ts)

/-- What the first `k` streams can still cause. -/
def potential (nodes : Nat → Node) : Nat → Nat
  | 0 => 0
  | k + 1 => potential nodes k + (nodes k).cost

/-- How many calls are left at most. -/
def bound (g : Graph α) (ts : List Task) : Nat :=
  potential g.nodes g.size + (ts.map Task.cost).sum

def settle (g : Graph α) (ts : List Task) : Graph α := settleFuel (g.bound ts) g ts

/-- `_forward`: the item goes to the consumers of a stream and into the merges it feeds. Those
were made after it, so a path is no longer than the graph. -/
def forward (item : α) : Nat → Graph α → Nat → Bool × Graph α
  | 0, g, _ => (true, g)
  | fuel + 1, g, i =>
    if (g.nodes i).ended.isSome then (false, g)
    else
      let told := g.consumers.map fun c => if c.base = i then (c.deliver item) else (true, c)
      let g' := { g with consumers := told.map Prod.snd }
      (g.nodes i).down.foldl
        (fun r m => ((forward item fuel r.2 m).1 && r.1, (forward item fuel r.2 m).2))
        (told.all Prod.fst, g')

/-- `_attach_down`, as far as the upstream goes. -/
def attachDown (nodes : Nat → Node) (u m : Nat) : Nat → Node :=
  if (nodes u).ended.isSome then nodes
  else Function.update nodes u { nodes u with down := (nodes u).down ++ [m] }

/-- `_attach_down`, as far as the merge goes: an upstream that has ended tells it at once. Nothing
hangs on a new merge yet. -/
def told (nodes : Nat → Node) (u : Nat) (n : Node) : Node :=
  match (nodes u).ended with
  | none => n
  | some t => n.upstreamTerminal t

end Graph

/-- What a consumer declares. -/
structure Opening (α : Type) where
  policy : Policy
  capacity : Nat
  capacity_pos : 0 < capacity
  drainMs : Option Nat
  stages : List (StageKind α × Int)

inductive Act (α : Type) where
  | source
  | merge (a b : Nat)
  | subscribe (base : Nat) (r : Opening α)
  | emit (i : Nat) (item : α)
  | close (i : Nat)
  | fault (i : Nat) (reason : String)
  | next (k : Nat)
  | closeSub (k : Nat)
  | drainFire (k : Nat)
  | owner (k : Nat) (withdrawn : Bool)

namespace Graph

def empty : Graph α := ⟨0, fun _ => .fresh, []⟩

/-- A chain as `subscribe` builds it. -/
def chain (base : Nat) (r : Opening α) : Consumer α where
  base := base
  stages := r.stages.map fun s => ⟨s.1, s.2, false, true⟩
  sub := .opened r.policy r.capacity r.capacity_pos r.drainMs none
  attached := true

/-- A consumer changes by its own subscription. -/
def onSub (g : Graph α) (k : Nat) (f : Subscription α → Subscription α) : Graph α :=
  { g with consumers := g.consumers.modify k fun c => { c with sub := f c.sub } }

def step (g : Graph α) : Act α → Graph α
  | .source => { g with size := g.size + 1 }
  | .merge a b =>
    if a < g.size ∧ b < g.size then
      let n : Node := ⟨true, none, [a, b], [], 2⟩
      { g with
          size := g.size + 1
          nodes := Function.update (attachDown (attachDown g.nodes a g.size) b g.size) g.size
            (told g.nodes b (told g.nodes a n)) }
    else g
  | .subscribe base r =>
    if base < g.size then { g with consumers := g.consumers ++ [chain base r] } else g
  | .emit i item => (g.forward item g.size i).2
  | .close i => g.settle [.close i]
  | .fault i reason => g.settle [.fault i reason]
  | .next k => g.onSub k fun sub => sub.next.2
  | .closeSub k =>
    match g.consumers[k]? with
    | none => g
    | some c =>
      if c.sub.closed then g
      else
        let g := { g with consumers := g.consumers.set k c.close }
        if (g.nodes c.base).merged then g.settle [.close c.base] else g
  | .drainFire k => g.onSub k Subscription.drainFire
  | .owner k b => g.onSub k fun sub => sub.setOwner b

def run (acts : List (Act α)) : Graph α := acts.foldl step empty

end Graph

/-! ## One chain -/

/-- What a live subscription without a terminal needs: every link up to its stream. -/
def Linked (stages : List (Stage α)) (attached : Bool) (sub : Subscription α) : Prop :=
  sub.closed = false → sub.terminal = none → (stages.all Stage.attached && attached) = true

namespace Subscription

theorem terminal_terminate (s : Subscription α) (t : Terminal) :
    (s.terminate t).closed = true ∨ (s.terminate t).terminal ≠ none := by
  by_cases hover : (s.closed || s.terminal.isSome) = true
  · have hsame : s.terminate t = s := by rw [terminate, if_pos hover]
    rw [hsame]
    simp only [Bool.or_eq_true] at hover
    refine hover.imp_right fun h hn => ?_
    rw [hn] at h
    cases h
  · right
    rw [terminate, if_neg hover]
    exact fun h => by cases h

/-- A delivery neither closes a subscription nor takes its terminal back. -/
theorem deliver_keeps (s : Subscription α) (item : α) :
    (s.deliver item).2.closed = s.closed ∧
      ((s.deliver item).2.terminal = none → s.terminal = none) := by
  rcases hd : s.deliver item with ⟨accepted, s'⟩
  show s'.closed = s.closed ∧ (s'.terminal = none → s.terminal = none)
  cases delivered hd with
  | refused _ => exact ⟨rfl, id⟩
  | pushed _ _ _ _ => exact ⟨rfl, id⟩
  | discarded _ _ _ _ => exact ⟨rfl, id⟩
  | evicted _ _ _ _ => exact ⟨rfl, id⟩
  | blocked _ _ _ _ _ =>
    have hsame := sameItems_pause s
    exact ⟨hsame.closed, fun h => hsame.terminal.symm.trans h⟩
  | overflowed _ _ _ _ => exact ⟨rfl, fun h => nomatch h⟩

theorem next_keeps (s : Subscription α) :
    s.next.2.closed = s.closed ∧ s.next.2.terminal = s.terminal := by
  rcases hn : s.next with ⟨o, s'⟩
  show s'.closed = s.closed ∧ s'.terminal = s.terminal
  cases nexted hn with
  | finished _ => exact ⟨rfl, rfl⟩
  | ended _ _ _ _ => exact ⟨rfl, rfl⟩
  | parked _ _ _ _ => exact ⟨rfl, rfl⟩
  | @popped _ _ item rest _ =>
    have hsame := sameItems_maybeResume (s.pop item rest)
    exact ⟨hsame.closed, hsame.terminal⟩

end Subscription

theorem sound_terminateChain {t : Terminal} {stages : List (Stage α)} {attached : Bool}
    {sub : Subscription α} (h : sub.Sound) : (terminateChain t stages attached sub).Sound := by
  rw [terminateChain]
  split
  · exact Subscription.sound_terminate h t
  · exact h

/-- A terminal at the top of a linked chain reaches the subscription. -/
theorem terminated {t : Terminal} {stages : List (Stage α)} {attached : Bool}
    {sub : Subscription α} (h : Linked stages attached sub) :
    (terminateChain t stages attached sub).closed = true ∨
      (terminateChain t stages attached sub).terminal ≠ none := by
  rw [terminateChain]
  by_cases hc : sub.closed = true
  · left
    split
    · rw [Subscription.terminate, hc, Bool.true_or, if_pos rfl, hc]
    · exact hc
  by_cases ht : sub.terminal = none
  · rw [if_pos (h (Bool.eq_false_iff.2 hc) ht)]
    exact sub.terminal_terminate t
  · right
    split
    · have hover : (sub.closed || sub.terminal.isSome) = true := by
        rw [Option.isSome_iff_ne_none.2 ht, Bool.or_true]
      rw [Subscription.terminate, if_pos hover]
      exact ht
    · exact ht

theorem Linked.vacuous {stages : List (Stage α)} {attached : Bool} {sub : Subscription α}
    (h : sub.closed = true ∨ sub.terminal ≠ none) : Linked stages attached sub := by
  intro hc ht
  rcases h with h | h
  · exact absurd (h.symm.trans hc) nofun
  · exact absurd ht h

theorem Linked.tail {st : Stage α} {rest : List (Stage α)} {attached : Bool}
    {sub : Subscription α} (h : Linked (st :: rest) attached sub) : Linked rest attached sub := by
  intro hc ht
  have hall := h hc ht
  rw [List.all_cons, Bool.and_assoc, Bool.and_eq_true] at hall
  exact hall.2

theorem Linked.cons {st : Stage α} {rest : List (Stage α)} {attached : Bool}
    {sub : Subscription α} (hst : st.attached = true) (h : Linked rest attached sub) :
    Linked (st :: rest) attached sub := by
  intro hc ht
  rw [List.all_cons, hst, Bool.true_and]
  exact h hc ht

/-- What one item does to a chain: the subscription stays sound, and the chain stays linked as
long as the subscription is live and has no terminal. -/
structure ChainKept (attached : Bool) (sub : Subscription α) (stages : List (Stage α))
    (r : Bool × List (Stage α) × Subscription α) : Prop where
  sound : sub.Sound → r.2.2.Sound
  linked : Linked stages attached sub → Linked r.2.1 attached r.2.2
  closed : r.2.2.closed = sub.closed
  terminal : r.2.2.terminal = none → sub.terminal = none

theorem ChainKept.same {attached : Bool} {sub : Subscription α} {stages : List (Stage α)}
    (b : Bool) : ChainKept attached sub stages (b, stages, sub) := ⟨id, id, rfl, id⟩

/-- A `map` or `filter` link stays as it is. -/
theorem ChainKept.link {attached : Bool} {sub : Subscription α} {st : Stage α}
    {rest : List (Stage α)} {r : Bool × List (Stage α) × Subscription α} {b : Bool}
    (hst : st.attached = true) (h : ChainKept attached sub rest r) :
    ChainKept attached sub (st :: rest) (b, st :: r.2.1, r.2.2) :=
  ⟨h.sound, fun hl => .cons hst (h.linked hl.tail), h.closed, h.terminal⟩

theorem closed_terminateChain {t : Terminal} {stages : List (Stage α)} {attached : Bool}
    {sub : Subscription α} : (terminateChain t stages attached sub).closed = sub.closed := by
  rw [terminateChain, Subscription.terminate]
  split
  · split <;> rfl
  · rfl

theorem terminal_terminateChain {t : Terminal} {stages : List (Stage α)} {attached : Bool}
    {sub : Subscription α} (h : (terminateChain t stages attached sub).terminal = none) :
    sub.terminal = none := by
  rw [terminateChain, Subscription.terminate] at h
  split at h
  · split at h
    · exact h
    · cases h
  · exact h

theorem chainKept_deliver (attached : Bool) (sub : Subscription α) (stages : List (Stage α))
    (item : α) : ChainKept attached sub stages (deliverChain attached sub stages item) := by
  induction stages generalizing item with
  | nil =>
    rw [deliverChain]
    split
    · have hkeeps := sub.deliver_keeps item
      refine ⟨fun hs => Subscription.sound_deliver hs item, fun hl hc ht => ?_, hkeeps.1, hkeeps.2⟩
      exact hl (hkeeps.1.symm.trans hc) (hkeeps.2 ht)
    · exact .same true
  | cons st rest ih =>
    rw [deliverChain]
    by_cases hst : st.attached = true
    swap
    · rw [if_pos (by simpa using hst)]
      exact .same true
    rw [if_neg (by simpa using hst)]
    by_cases hclosed : st.closed = true
    · rw [if_pos hclosed]
      exact .same false
    rw [if_neg hclosed]
    cases hkind : st.kind with
    | map f => exact (ih (f item)).link hst
    | filter p =>
      simp only
      split
      · exact (ih item).link hst
      · exact .same true
    | take =>
      simp only
      split
      · exact .same false
      have hrest := ih item
      split
      · split
        · -- exhausted: the end below is told, so nothing is asked of the chain any more
          refine ⟨fun hs => sound_terminateChain (hrest.sound hs), fun hl => ?_,
            closed_terminateChain.trans hrest.closed,
            fun ht => hrest.terminal (terminal_terminateChain ht)⟩
          exact .vacuous (terminated (hrest.linked hl.tail))
        · exact ⟨hrest.sound, fun hl => .cons hst (hrest.linked hl.tail), hrest.closed,
            hrest.terminal⟩
      · exact hrest.link hst

/-! ## Every call is made -/

namespace Graph

variable {g : Graph α}

theorem potential_update (nodes : Nat → Node) (i : Nat) (n : Node) (k : Nat) :
    potential (Function.update nodes i n) k + (if i < k then (nodes i).cost else 0) =
      potential nodes k + (if i < k then n.cost else 0) := by
  induction k with
  | zero => simp [potential]
  | succ k ih =>
    rw [potential, potential]
    by_cases hik : i = k
    · subst hik
      rw [if_neg (Nat.lt_irrefl i), if_neg (Nat.lt_irrefl i)] at ih
      rw [if_pos (Nat.lt_succ_self i), if_pos (Nat.lt_succ_self i), Function.update_self]
      omega
    · rw [Function.update_of_ne (Ne.symm hik)]
      by_cases hlt : i < k
      · rw [if_pos hlt, if_pos hlt] at ih
        rw [if_pos (Nat.lt_succ_of_lt hlt), if_pos (Nat.lt_succ_of_lt hlt)]
        omega
      · rw [if_neg hlt, if_neg hlt] at ih
        rw [if_neg (by omega), if_neg (by omega)]
        omega

theorem potential_set (nodes : Nat → Node) {i k : Nat} (n : Node) (hi : i < k) :
    potential (Function.update nodes i n) k + (nodes i).cost = potential nodes k + n.cost := by
  have := potential_update nodes i n k
  rwa [if_pos hi, if_pos hi] at this

theorem cost_notify (l : List Nat) (t : Terminal) :
    ((l.map (Task.notify · t)).map Task.cost).sum = l.length := by
  induction l with
  | nil => rfl
  | cons m l ih =>
    rw [List.map_cons, List.map_cons, List.sum_cons, ih, List.length_cons]
    show 1 + l.length = _
    omega

theorem cost_partings (g : Graph α) (i : Nat) (l : List Nat) :
    ((g.partings i l).map Task.cost).sum ≤ 3 * l.length := by
  induction l with
  | nil => exact Nat.le_refl _
  | cons u l ih =>
    have hone : ((if (g.nodes u).merged then [Task.close u] else []).map Task.cost).sum ≤ 2 := by
      cases (g.nodes u).merged <;> simp [Task.cost]
    rw [partings, List.map_cons, List.sum_cons, List.map_append, List.sum_append, List.length_cons]
    show 1 + _ ≤ _
    omega

/-- Partings detach the stream and close what it owned. -/
theorem mem_partings {g : Graph α} {i : Nat} {l : List Nat} {t : Task} (h : t ∈ g.partings i l) :
    (∃ u, t = .detach u i) ∨ ∃ u, t = .close u := by
  induction l with
  | nil => exact nomatch h
  | cons u l ih =>
    rw [partings, List.mem_cons, List.mem_append] at h
    rcases h with rfl | h | h
    · exact .inl ⟨u, rfl⟩
    · split at h
      · exact .inr ⟨u, List.mem_singleton.1 h⟩
      · exact nomatch h
    · exact ih h

/-- What `_upstream_terminal` can change of a stream. -/
theorem upstreamTerminal_fields (n : Node) (t : Terminal) :
    (n.upstreamTerminal t).up = n.up ∧ (n.upstreamTerminal t).down = n.down ∧
      (n.upstreamTerminal t).merged = n.merged := by
  simp only [Node.upstreamTerminal]
  split
  · exact ⟨rfl, rfl, rfl⟩
  · cases t with
    | faulted r => exact ⟨rfl, rfl, rfl⟩
    | closed =>
      simp only
      split <;> exact ⟨rfl, rfl, rfl⟩

/-- Each call costs something. -/
theorem bound_runTask (t : Task) (ts : List Task) :
    (g.runTask t).1.bound ((g.runTask t).2 ++ ts) < g.bound (t :: ts) := by
  have hpos : 0 < t.cost := by cases t <;> simp [Task.cost]
  have hskip : g.bound ([] ++ ts) < g.bound (t :: ts) := by
    simp only [bound, List.nil_append, List.map_cons, List.sum_cons]
    omega
  cases t with
  | notify m t =>
    simp only [runTask]
    by_cases hover : g.size ≤ m ∨ (g.nodes m).ended.isSome
    · rw [if_pos hover]
      exact hskip
    rw [if_neg hover]
    rw [not_or, Nat.not_le] at hover
    obtain ⟨hup, hdown, -⟩ := upstreamTerminal_fields (g.nodes m) t
    have hopen : (g.nodes m).ended.isNone = true := by simpa using hover.2
    generalize (g.nodes m).upstreamTerminal t = n at hup hdown ⊢
    by_cases hn : n.ended.isSome
    · rw [if_pos hn]
      have hpot := potential_set g.nodes { n with ended := some t } hover.1
      simp only [Node.cost, hopen, hup, hdown, Option.isNone_some, if_pos, Bool.false_eq_true,
        if_false] at hpot
      simp only [bound, finish, setNode, List.map_append, List.sum_append, cost_notify,
        List.map_cons, List.sum_cons, Task.cost, hup, hdown]
      omega
    · rw [if_neg hn]
      have hnone : n.ended.isNone = true := by simpa using hn
      have hpot := potential_set g.nodes n hover.1
      simp only [Node.cost, hopen, hnone, hup, hdown, if_pos] at hpot
      simp only [bound, setNode, List.nil_append, List.map_cons, List.sum_cons, Task.cost]
      omega
  | close i =>
    simp only [runTask]
    by_cases hi : g.size ≤ i
    · rw [if_pos hi]
      exact hskip
    rw [if_neg hi]
    by_cases hended : (g.nodes i).ended.isSome
    · rw [if_pos hended]
      simp only [bound, List.cons_append, List.nil_append, List.map_cons, List.sum_cons, Task.cost]
      omega
    · rw [if_neg hended]
      have hopen : (g.nodes i).ended.isNone = true := by simpa using hended
      have hpot := potential_set g.nodes { g.nodes i with ended := some .closed }
        (Nat.lt_of_not_le hi)
      simp only [Node.cost, hopen, Option.isNone_some, if_pos, Bool.false_eq_true,
        if_false] at hpot
      simp only [bound, finish, setNode, List.map_append, List.sum_append, cost_notify,
        List.map_cons, List.map_nil, List.sum_cons, List.sum_nil, Task.cost]
      omega
  | fault i reason =>
    simp only [runTask]
    by_cases hover : g.size ≤ i ∨ (g.nodes i).ended.isSome
    · rw [if_pos hover]
      exact hskip
    rw [if_neg hover]
    rw [not_or, Nat.not_le] at hover
    have hopen : (g.nodes i).ended.isNone = true := by simpa using hover.2
    have hpot := potential_set g.nodes { g.nodes i with ended := some (.faulted reason) } hover.1
    simp only [Node.cost, hopen, Option.isNone_some, if_pos, Bool.false_eq_true,
      if_false] at hpot
    simp only [bound, finish, setNode, List.map_append, List.sum_append, cost_notify,
      List.map_cons, List.sum_cons, Task.cost]
    omega
  | release i =>
    simp only [runTask]
    by_cases hi : g.size ≤ i
    · rw [if_pos hi]
      exact hskip
    rw [if_neg hi]
    have hpot := potential_set g.nodes { g.nodes i with up := [] } (Nat.lt_of_not_le hi)
    have hcost := cost_partings g i (g.nodes i).up
    simp only [Node.cost, List.length_nil] at hpot
    simp only [bound, setNode, List.map_append, List.sum_append, List.map_cons, List.sum_cons,
      Task.cost]
    omega
  | detach u m =>
    simp only [runTask]
    by_cases hu : g.size ≤ u
    · rw [if_pos hu]
      exact hskip
    rw [if_neg hu]
    have hpot := potential_set g.nodes { g.nodes u with down := (g.nodes u).down.erase m }
      (Nat.lt_of_not_le hu)
    have hlen : ((g.nodes u).down.erase m).length ≤ (g.nodes u).down.length :=
      List.length_erase_le
    simp only [Node.cost] at hpot
    simp only [bound, setNode, List.nil_append, List.map_cons, List.sum_cons, Task.cost]
    split at hpot
    · omega
    · omega

/-- **The rule for a settled graph**: what each call keeps holds when none is left. -/
theorem settle_inv {P : Graph α → List Task → Prop}
    (hstep : ∀ g t ts, P g (t :: ts) → P (g.runTask t).1 ((g.runTask t).2 ++ ts))
    {ts : List Task} (h : P g ts) : P (g.settle ts) [] := by
  have hfuel : ∀ fuel (g : Graph α) ts, g.bound ts ≤ fuel → P g ts →
      P (settleFuel fuel g ts) [] := by
    intro fuel
    induction fuel with
    | zero =>
      intro g ts hle h
      cases ts with
      | nil => exact h
      | cons t ts =>
        have := g.bound_runTask t ts
        omega
    | succ fuel ih =>
      intro g ts hle h
      cases ts with
      | nil => exact h
      | cons t ts =>
        refine ih _ _ ?_ (hstep g t ts h)
        have := g.bound_runTask t ts
        omega
  exact hfuel _ g ts (Nat.le_refl _) h

end Graph

/-! ## What holds while calls are still to be made -/

/-- The call is a notification of `m`. -/
def Task.notifies (m : Nat) : Task → Bool
  | .notify m' _ => m' == m
  | _ => false

namespace Graph

/-- How many of the streams are open. -/
def openCount (nodes : Nat → Node) (l : List Nat) : Nat :=
  l.countP fun u => (nodes u).ended.isNone

/-- How often a merge is still to be told. -/
def owed (m : Nat) (ts : List Task) : Nat := ts.countP (Task.notifies m)

/-- A graph with calls still to be made: an open merge waits for as many terminals as it has open
upstreams, those under way to it counted apart; a fault is never kept from it. -/
structure Settled (g : Graph α) (ts : List Task) : Prop where
  fresh : ∀ i, g.size ≤ i → g.nodes i = .fresh
  below : ∀ m, ∀ u ∈ (g.nodes m).up, u < m
  within : ∀ u, ∀ m ∈ (g.nodes u).down, m < g.size
  edges : ∀ u m, (g.nodes u).ended = none → (g.nodes m).ended = none →
    (g.nodes u).down.count m = (g.nodes m).up.count u
  pending : ∀ m, (g.nodes m).ended = none →
    (g.nodes m).pending = openCount g.nodes (g.nodes m).up + owed m ts
  waits : ∀ m, (g.nodes m).ended = none → (g.nodes m).merged = true → 0 < (g.nodes m).pending
  faults : ∀ m, (g.nodes m).ended = none → ∀ u ∈ (g.nodes m).up, ∀ r,
    (g.nodes u).ended = some (.faulted r) → ∃ r', Task.notify m (.faulted r') ∈ ts
  closed : ∀ u, (g.nodes u).ended = some .closed →
    Task.release u ∈ ts ∨ ∀ v ∈ (g.nodes u).up, (g.nodes v).ended = some .closed
  leaving : ∀ i, (Task.release i ∈ ts ∨ ∃ u, Task.detach u i ∈ ts) → (g.nodes i).ended ≠ none
  consumers : ∀ c ∈ g.consumers, Linked c.stages c.attached c.sub ∧
    (c.sub.closed = false → c.sub.terminal = none → (g.nodes c.base).ended = none)

theorem owed_append (m : Nat) (xs ys : List Task) : owed m (xs ++ ys) = owed m xs + owed m ys :=
  List.countP_append

theorem owed_notify (m : Nat) (l : List Nat) (t : Terminal) :
    owed m (l.map (Task.notify · t)) = l.count m := by
  rw [owed, List.countP_map, List.count]
  rfl

theorem owed_cons_other {m : Nat} {t : Task} (ht : t.notifies m = false) (ts : List Task) :
    owed m (t :: ts) = owed m ts := by
  rw [owed, List.countP_cons_of_neg (by simp [ht])]
  rfl

/-- One stream fewer is open. -/
theorem openCount_end {nodes : Nat → Node} {m : Nat} {n : Node} (hopen : (nodes m).ended = none)
    (hn : n.ended ≠ none) (l : List Nat) :
    openCount (Function.update nodes m n) l + l.count m = openCount nodes l := by
  induction l with
  | nil => rfl
  | cons u l ih =>
    rw [openCount, openCount, List.countP_cons, List.countP_cons, List.count_cons]
    rw [openCount, openCount] at ih
    by_cases hu : u = m
    · subst hu
      have hn' : n.ended.isNone = false := by
        cases he : n.ended with
        | none => exact absurd he hn
        | some t => rfl
      simp only [Function.update_self, hopen, hn', Option.isNone_none, beq_self_eq_true, if_pos,
        Bool.false_eq_true, if_false]
      omega
    · simp only [Function.update_of_ne hu, beq_iff_eq, hu, if_false]
      omega

theorem openCount_congr {nodes nodes' : Nat → Node} {l : List Nat}
    (h : ∀ u ∈ l, (nodes' u).ended = (nodes u).ended) :
    openCount nodes' l = openCount nodes l := by
  refine List.countP_congr fun u hu => ?_
  rw [h u hu]

/-- Calls that tell no open merge anything may come and go. -/
theorem Settled.tasks {g : Graph α} {ts ts' : List Task} (h : Settled g ts)
    (howed : ∀ m, (g.nodes m).ended = none → owed m ts' = owed m ts)
    (hfault : ∀ m, (g.nodes m).ended = none → ∀ r, Task.notify m (.faulted r) ∈ ts →
      Task.notify m (.faulted r) ∈ ts')
    (hrelease : ∀ u, Task.release u ∈ ts → Task.release u ∈ ts')
    (hleaving : ∀ i, (Task.release i ∈ ts' ∨ ∃ u, Task.detach u i ∈ ts') →
      (g.nodes i).ended ≠ none) : Settled g ts' := by
  refine ⟨h.fresh, h.below, h.within, h.edges, fun m hm => ?_, h.waits, fun m hm u hu r hr => ?_,
    fun u hu => (h.closed u hu).imp_left (hrelease u), hleaving, h.consumers⟩
  · rw [howed m hm]
    exact h.pending m hm
  · obtain ⟨r', hr'⟩ := h.faults m hm u hu r hr
    exact ⟨r', hfault m hm r' hr'⟩

/-- A call that is none of an open merge's and releases nothing is left out. -/
theorem Settled.drop {g : Graph α} {xs ys : List Task} {t : Task} (h : Settled g (xs ++ t :: ys))
    (hnotify : ∀ m, (g.nodes m).ended = none → t.notifies m = false)
    (hrelease : ∀ u, t ≠ .release u ∨ Task.release u ∈ xs) : Settled g (xs ++ ys) := by
  have hmem : ∀ x, x ∈ xs ++ t :: ys → x = t ∨ x ∈ xs ++ ys := by
    intro x hx
    rw [List.mem_append, List.mem_cons] at hx
    rw [List.mem_append]
    rcases hx with hx | rfl | hx
    · exact .inr (.inl hx)
    · exact .inl rfl
    · exact .inr (.inr hx)
  have hback : ∀ x, x ∈ xs ++ ys → x ∈ xs ++ t :: ys := by
    intro x hx
    rw [List.mem_append] at hx ⊢
    exact hx.imp_right (List.mem_cons_of_mem _)
  refine h.tasks (fun m hm => ?_) (fun m hm r hr => ?_) (fun u hu => ?_) fun i hi => ?_
  · rw [owed_append, owed_append, owed_cons_other (hnotify m hm)]
  · rcases hmem _ hr with rfl | hr
    · have := hnotify m hm
      simp [Task.notifies] at this
    · exact hr
  · rcases hmem _ hu with rfl | hu
    · rcases hrelease u with hne | hin
      · exact absurd rfl hne
      · exact List.mem_append_left _ hin
    · exact hu
  · exact h.leaving i (hi.imp (hback _) fun ⟨u, hu⟩ => ⟨u, hback _ hu⟩)

theorem Settled.tail {g : Graph α} {ts : List Task} {t : Task} (h : Settled g (t :: ts))
    (hnotify : ∀ m, (g.nodes m).ended = none → t.notifies m = false)
    (hrelease : ∀ u, t ≠ .release u) : Settled g ts :=
  @Settled.drop _ _ [] ts t h hnotify fun u => .inl (hrelease u)

theorem Settled.lt_size {g : Graph α} {ts : List Task} (h : Settled g ts) {m : Nat}
    (hm : (g.nodes m).up ≠ [] ∨ (g.nodes m).merged = true) : m < g.size := by
  by_contra hge
  have hfresh := h.fresh m (Nat.le_of_not_lt hge)
  rw [hfresh] at hm
  rcases hm with hm | hm
  · exact hm rfl
  · exact nomatch hm

section Finish

variable {g : Graph α} {m : Nat} {n : Node} {t : Terminal}

/-! What ending a stream changes: the stream, by its terminal. -/

theorem finish_other {u : Nat} (hu : u ≠ m) : (g.finish m n t).nodes u = g.nodes u :=
  Function.update_of_ne hu _ _

theorem finish_self : (g.finish m n t).nodes m = { n with ended := some t } :=
  Function.update_self _ _ _

theorem ne_of_finish {u : Nat} (hu : ((g.finish m n t).nodes u).ended = none) : u ≠ m := by
  rintro rfl
  rw [finish_self] at hu
  exact nomatch hu

theorem finish_up (hup : n.up = (g.nodes m).up) (u : Nat) :
    ((g.finish m n t).nodes u).up = (g.nodes u).up := by
  by_cases hu : u = m
  · rw [hu, finish_self]
    exact hup
  · rw [finish_other hu]

theorem finish_down (hdown : n.down = (g.nodes m).down) (u : Nat) :
    ((g.finish m n t).nodes u).down = (g.nodes u).down := by
  by_cases hu : u = m
  · rw [hu, finish_self]
    exact hdown
  · rw [finish_other hu]

theorem finish_ended (hopen : (g.nodes m).ended = none) {u : Nat} (hu : (g.nodes u).ended ≠ none) :
    ((g.finish m n t).nodes u).ended = (g.nodes u).ended := by
  rw [finish_other]
  rintro rfl
  exact hu hopen

variable {ts extra : List Task} (h : Settled g ts) (hopen : (g.nodes m).ended = none)
  (hup : n.up = (g.nodes m).up) (hextra : extra = [] ∨ extra = [.release m])

include h hopen hup

/-- The merge is told once for each time the stream is among its upstreams. -/
theorem finish_pending (howed : ∀ m', owed m' extra = 0) {m' : Nat}
    (hm' : ((g.finish m n t).nodes m').ended = none) :
    ((g.finish m n t).nodes m').pending =
      openCount (g.finish m n t).nodes ((g.finish m n t).nodes m').up +
        owed m' ((g.nodes m).down.map (Task.notify · t) ++ extra ++ ts) := by
  rw [finish_up hup, finish_other (ne_of_finish hm')]
  rw [finish_other (ne_of_finish hm')] at hm'
  have hpending := h.pending m' hm'
  have hedge := h.edges m m' hopen hm'
  have hcount := openCount_end hopen (n := { n with ended := some t }) nofun (g.nodes m').up
  show (g.nodes m').pending = openCount (Function.update g.nodes m _) (g.nodes m').up + _
  rw [owed_append, owed_append, owed_notify, howed]
  omega

/-- An open stream over a faulted one is about to be told. -/
theorem finish_faults {m' u : Nat} {r : String}
    (hm' : ((g.finish m n t).nodes m').ended = none)
    (hu : u ∈ ((g.finish m n t).nodes m').up)
    (hr : ((g.finish m n t).nodes u).ended = some (.faulted r)) :
    ∃ r', Task.notify m' (.faulted r') ∈
      (g.nodes m).down.map (Task.notify · t) ++ extra ++ ts := by
  rw [finish_up hup] at hu
  rw [finish_other (ne_of_finish hm')] at hm'
  by_cases hum : u = m
  · subst hum
    rw [finish_self] at hr
    obtain rfl : t = .faulted r := Option.some.inj hr
    have hmem : m' ∈ (g.nodes u).down := by
      rw [← List.count_pos_iff, h.edges u m' hopen hm', List.count_pos_iff]
      exact hu
    exact ⟨r, List.mem_append_left _ (List.mem_append_left _ (List.mem_map_of_mem hmem))⟩
  · rw [finish_other hum] at hr
    obtain ⟨r', hr'⟩ := h.faults m' hm' u hu r hr
    exact ⟨r', List.mem_append_right _ hr'⟩

/-- A closed stream is released next, or all it hangs on is closed. -/
theorem finish_closed (hclosed : t = .closed → Task.release m ∈ extra ∨
      ∀ v ∈ (g.nodes m).up, (g.nodes v).ended = some .closed) {u : Nat}
    (hu : ((g.finish m n t).nodes u).ended = some .closed) :
    Task.release u ∈ (g.nodes m).down.map (Task.notify · t) ++ extra ++ ts ∨
      ∀ v ∈ ((g.finish m n t).nodes u).up,
        ((g.finish m n t).nodes v).ended = some .closed := by
  rw [finish_up hup]
  have hstays : ∀ v, (g.nodes v).ended = some .closed →
      ((g.finish m n t).nodes v).ended = some .closed := by
    intro v hv
    rw [finish_ended hopen (by rw [hv]; nofun), hv]
  by_cases hum : u = m
  · subst hum
    rw [finish_self] at hu
    obtain rfl : t = .closed := Option.some.inj hu
    refine (hclosed rfl).imp (fun hx => ?_) fun hall v hv => hstays v (hall v hv)
    exact List.mem_append_left _ (List.mem_append_right _ hx)
  · rw [finish_other hum] at hu
    refine (h.closed u hu).imp (fun hx => List.mem_append_right _ hx) fun hall v hv => ?_
    exact hstays v (hall v hv)

omit hup

include hextra

/-- Only the stream that ended may have been put on the list to leave. -/
theorem finish_leaving {i : Nat}
    (hi : Task.release i ∈ (g.nodes m).down.map (Task.notify · t) ++ extra ++ ts ∨
      ∃ u, Task.detach u i ∈ (g.nodes m).down.map (Task.notify · t) ++ extra ++ ts) :
    ((g.finish m n t).nodes i).ended ≠ none := by
  have hcases : i = m ∨ (Task.release i ∈ ts ∨ ∃ u, Task.detach u i ∈ ts) := by
    rcases hextra with rfl | rfl
    · right
      simpa using hi
    · simp only [List.mem_append, List.mem_map, List.mem_singleton, Task.release.injEq,
        reduceCtorEq, and_false, exists_false, false_or, or_false] at hi
      rcases hi with (rfl | hi) | hi
      · exact .inl rfl
      · exact .inr (.inl hi)
      · exact .inr (.inr hi)
  rcases hcases with rfl | hi
  · rw [finish_self]
    exact nofun
  · have hleft := h.leaving i hi
    rw [finish_ended hopen hleft]
    exact hleft

end Finish

/-- **A stream ends**: what it feeds is told, and its own consumers are. -/
theorem Settled.finish {g : Graph α} {ts : List Task} (h : Settled g ts) {m : Nat}
    (hm : m < g.size) (hopen : (g.nodes m).ended = none) {n : Node}
    (hup : n.up = (g.nodes m).up) (hdown : n.down = (g.nodes m).down) {t : Terminal}
    {extra : List Task} (hextra : extra = [] ∨ extra = [.release m])
    (hclosed : t = .closed → Task.release m ∈ extra ∨
      ∀ v ∈ (g.nodes m).up, (g.nodes v).ended = some .closed) :
    Settled (g.finish m n t) ((g.nodes m).down.map (Task.notify · t) ++ extra ++ ts) := by
  have howed : ∀ m', owed m' extra = 0 := by
    intro m'
    rcases hextra with rfl | rfl <;> rfl
  refine ⟨fun i hi => ?_, fun m' u hu => ?_, fun u m' hm' => ?_, fun u m' hu hm' => ?_,
    fun m' hm' => finish_pending h hopen hup howed hm', fun m' hm' hmerged => ?_,
    fun m' hm' u hu r hr => finish_faults h hopen hup hm' hu hr,
    fun u hu => finish_closed h hopen hup hclosed hu,
    fun i hi => finish_leaving h hopen hextra hi, fun c hc => ?_⟩
  · replace hi : g.size ≤ i := hi
    rw [finish_other (by omega)]
    exact h.fresh i hi
  · exact h.below m' u (finish_up hup m' ▸ hu)
  · exact h.within u m' (finish_down hdown u ▸ hm')
  · rw [finish_down hdown, finish_up hup]
    rw [finish_other (ne_of_finish hu)] at hu
    rw [finish_other (ne_of_finish hm')] at hm'
    exact h.edges u m' hu hm'
  · have hne := ne_of_finish hm'
    rw [finish_other hne] at hm' hmerged ⊢
    exact h.waits m' hm' hmerged
  · obtain ⟨c₀, hc₀, rfl⟩ := List.mem_map.1 hc
    obtain ⟨hlinked, hbase⟩ := h.consumers c₀ hc₀
    split
    · -- a linked consumer of the stream has its terminal now
      have hover := terminated (t := t) hlinked
      refine ⟨.vacuous hover, fun hcl ht => ?_⟩
      rcases hover with hx | hx
      · exact absurd (hx.symm.trans hcl) nofun
      · exact absurd ht hx
    · rename_i hcb
      rw [finish_other hcb]
      exact ⟨hlinked, hbase⟩

/-- A call that tells an open merge of a close, with others still to come. -/
theorem Settled.countDown {g : Graph α} {ts : List Task} {m : Nat}
    (h : Settled g (.notify m .closed :: ts)) (hm : m < g.size) (hopen : (g.nodes m).ended = none)
    (hwait : 0 < (g.nodes m).pending - 1) :
    Settled (g.setNode m { g.nodes m with pending := (g.nodes m).pending - 1 }) ts := by
  generalize hn : ({ g.nodes m with pending := (g.nodes m).pending - 1 } : Node) = n
  have hother : ∀ {u}, u ≠ m → (g.setNode m n).nodes u = g.nodes u := fun hu =>
    Function.update_of_ne hu _ _
  have hself : (g.setNode m n).nodes m = n := Function.update_self _ _ _
  -- only the count changes
  have hsame : ∀ u, ((g.setNode m n).nodes u).ended = (g.nodes u).ended ∧
      ((g.setNode m n).nodes u).up = (g.nodes u).up ∧
      ((g.setNode m n).nodes u).down = (g.nodes u).down ∧
      ((g.setNode m n).nodes u).merged = (g.nodes u).merged := by
    intro u
    by_cases hu : u = m
    · subst hu
      rw [hself, ← hn]
      exact ⟨rfl, rfl, rfl, rfl⟩
    · rw [hother hu]
      exact ⟨rfl, rfl, rfl, rfl⟩
  have hcount : ∀ l, openCount (g.setNode m n).nodes l = openCount g.nodes l := fun l =>
    openCount_congr fun u _ => (hsame u).1
  refine ⟨fun i hi => ?_, fun m' u hu => ?_, fun u m' hm' => ?_, fun u m' hu hm' => ?_,
    fun m' hm' => ?_, fun m' hm' hmerged => ?_, fun m' hm' u hu r hr => ?_, fun u hu => ?_,
    fun i hi => ?_, fun c hc => ?_⟩
  · replace hi : g.size ≤ i := hi
    rw [hother (by omega)]
    exact h.fresh i hi
  · exact h.below m' u ((hsame m').2.1 ▸ hu)
  · exact h.within u m' ((hsame u).2.2.1 ▸ hm')
  · rw [(hsame u).2.2.1, (hsame m').2.1]
    exact h.edges u m' ((hsame u).1 ▸ hu) ((hsame m').1 ▸ hm')
  · rw [(hsame m').1] at hm'
    rw [(hsame m').2.1, hcount]
    have hpending := h.pending m' hm'
    by_cases hmm : m' = m
    · subst hmm
      rw [owed, List.countP_cons_of_pos (by simp [Task.notifies])] at hpending
      rw [hself, ← hn, owed]
      show (g.nodes m').pending - 1 = _
      omega
    · rw [owed_cons_other (by simpa [Task.notifies] using Ne.symm hmm)] at hpending
      rw [hother hmm]
      exact hpending
  · by_cases hmm : m' = m
    · subst hmm
      rw [hself, ← hn]
      exact hwait
    · rw [hother hmm] at hm' hmerged ⊢
      exact h.waits m' hm' hmerged
  · rw [(hsame m').1] at hm'
    rw [(hsame m').2.1] at hu
    rw [(hsame u).1] at hr
    obtain ⟨r', hr'⟩ := h.faults m' hm' u hu r hr
    rcases List.mem_cons.1 hr' with he | hr'
    · exact nomatch he
    · exact ⟨r', hr'⟩
  · rw [(hsame u).1] at hu
    rw [(hsame u).2.1]
    refine (h.closed u hu).imp (fun hx => ?_) fun hall v hv => (hsame v).1.trans (hall v hv)
    exact (List.mem_cons.1 hx).resolve_left nofun
  · rw [(hsame i).1]
    refine h.leaving i (hi.imp (List.mem_cons_of_mem _) ?_)
    exact fun ⟨u, hu⟩ => ⟨u, List.mem_cons_of_mem _ hu⟩
  · obtain ⟨hlinked, hbase⟩ := h.consumers c hc
    exact ⟨hlinked, fun hcl ht => (hsame c.base).1.trans (hbase hcl ht)⟩

/-- A stream that has ended leaves its upstreams. -/
theorem Settled.release {g : Graph α} {ts : List Task} {i : Nat}
    (h : Settled g (.release i :: ts)) (hi : i < g.size) :
    Settled (g.setNode i { g.nodes i with up := [] }) (g.partings i (g.nodes i).up ++ ts) := by
  have hended : (g.nodes i).ended ≠ none := h.leaving i (.inl List.mem_cons_self)
  generalize hn : ({ g.nodes i with up := [] } : Node) = n
  have hcalls : ∀ t ∈ g.partings i (g.nodes i).up, _ := fun t ht => mem_partings ht
  generalize g.partings i (g.nodes i).up = l at hcalls ⊢
  have hother : ∀ {u}, u ≠ i → (g.setNode i n).nodes u = g.nodes u := fun hu =>
    Function.update_of_ne hu _ _
  have hself : (g.setNode i n).nodes i = n := Function.update_self _ _ _
  have hsame : ∀ u, ((g.setNode i n).nodes u).ended = (g.nodes u).ended ∧
      ((g.setNode i n).nodes u).down = (g.nodes u).down := by
    intro u
    by_cases hu : u = i
    · subst hu
      rw [hself, ← hn]
      exact ⟨rfl, rfl⟩
    · rw [hother hu]
      exact ⟨rfl, rfl⟩
  have hne : ∀ {u}, (g.nodes u).ended = none → u ≠ i := by
    rintro u hu rfl
    exact hended hu
  have hcount : ∀ l, openCount (g.setNode i n).nodes l = openCount g.nodes l := fun l =>
    openCount_congr fun u _ => (hsame u).1
  have howed : ∀ m, owed m (l ++ ts) = owed m (.release i :: ts) := by
    intro m
    have hzero : owed m l = 0 := by
      rw [owed, List.countP_eq_zero]
      intro t ht
      rcases hcalls t ht with ⟨u, rfl⟩ | ⟨u, rfl⟩ <;> exact nofun
    rw [owed_append, hzero, owed_cons_other rfl, Nat.zero_add]
  refine ⟨fun j hj => ?_, fun m' u hu => ?_, fun u m' hm' => ?_, fun u m' hu hm' => ?_,
    fun m' hm' => ?_, fun m' hm' hmerged => ?_, fun m' hm' u hu r hr => ?_, fun u hu => ?_,
    fun j hj => ?_, fun c hc => ?_⟩
  · replace hj : g.size ≤ j := hj
    rw [hother (by omega)]
    exact h.fresh j hj
  · by_cases hmi : m' = i
    · subst hmi
      rw [hself, ← hn] at hu
      exact nomatch hu
    · rw [hother hmi] at hu
      exact h.below m' u hu
  · exact h.within u m' ((hsame u).2 ▸ hm')
  · rw [(hsame u).1] at hu
    rw [(hsame m').1] at hm'
    rw [(hsame u).2, hother (hne hm')]
    exact h.edges u m' hu hm'
  · rw [(hsame m').1] at hm'
    rw [hother (hne hm'), hcount, howed]
    exact h.pending m' hm'
  · rw [(hsame m').1] at hm'
    rw [hother (hne hm')] at hmerged ⊢
    exact h.waits m' hm' hmerged
  · rw [(hsame m').1] at hm'
    rw [hother (hne hm')] at hu
    rw [(hsame u).1] at hr
    obtain ⟨r', hr'⟩ := h.faults m' hm' u hu r hr
    rcases List.mem_cons.1 hr' with he | hr'
    · exact nomatch he
    · exact ⟨r', List.mem_append_right _ hr'⟩
  · rw [(hsame u).1] at hu
    by_cases hui : u = i
    · subst hui
      rw [hself, ← hn]
      exact .inr fun _ hv => nomatch hv
    · rw [hother hui]
      refine (h.closed u hu).imp (fun hx => ?_) fun hall v hv => (hsame v).1.trans (hall v hv)
      rcases List.mem_cons.1 hx with he | hx
      · exact absurd (Task.release.inj he) hui
      · exact List.mem_append_right _ hx
  · rw [(hsame j).1]
    rcases hj with hj | ⟨u, hj⟩
    · rcases List.mem_append.1 hj with hj | hj
      · rcases hcalls _ hj with ⟨u, he⟩ | ⟨u, he⟩ <;> exact nomatch he
      · exact h.leaving j (.inl (List.mem_cons_of_mem _ hj))
    · rcases List.mem_append.1 hj with hj | hj
      · rcases hcalls _ hj with ⟨v, he⟩ | ⟨v, he⟩
        · rw [(Task.detach.inj he).2]
          exact hended
        · exact nomatch he
      · exact h.leaving j (.inr ⟨u, List.mem_cons_of_mem _ hj⟩)
  · obtain ⟨hlinked, hbase⟩ := h.consumers c hc
    exact ⟨hlinked, fun hcl ht => (hsame c.base).1.trans (hbase hcl ht)⟩

/-- A stream that has ended is taken off the list of one that fed it. -/
theorem Settled.detach {g : Graph α} {ts : List Task} {u m : Nat}
    (h : Settled g (.detach u m :: ts)) (hu : u < g.size) :
    Settled (g.setNode u { g.nodes u with down := (g.nodes u).down.erase m }) ts := by
  have hended : (g.nodes m).ended ≠ none := h.leaving m (.inr ⟨u, List.mem_cons_self⟩)
  generalize hn : ({ g.nodes u with down := (g.nodes u).down.erase m } : Node) = n
  have hother : ∀ {v}, v ≠ u → (g.setNode u n).nodes v = g.nodes v := fun hv =>
    Function.update_of_ne hv _ _
  have hself : (g.setNode u n).nodes u = n := Function.update_self _ _ _
  have hsame : ∀ v, ((g.setNode u n).nodes v).ended = (g.nodes v).ended ∧
      ((g.setNode u n).nodes v).up = (g.nodes v).up ∧
      ((g.setNode u n).nodes v).pending = (g.nodes v).pending ∧
      ((g.setNode u n).nodes v).merged = (g.nodes v).merged := by
    intro v
    by_cases hv : v = u
    · subst hv
      rw [hself, ← hn]
      exact ⟨rfl, rfl, rfl, rfl⟩
    · rw [hother hv]
      exact ⟨rfl, rfl, rfl, rfl⟩
  have hcount : ∀ l, openCount (g.setNode u n).nodes l = openCount g.nodes l := fun l =>
    openCount_congr fun v _ => (hsame v).1
  have h' : Settled g ts := h.tail (fun _ _ => rfl) fun _ => nofun
  refine ⟨fun j hj => ?_, fun m' v hv => ?_, fun v m' hm' => ?_, fun v m' hv hm' => ?_,
    fun m' hm' => ?_, fun m' hm' hmerged => ?_, fun m' hm' v hv r hr => ?_, fun v hv => ?_,
    fun j hj => ?_, fun c hc => ?_⟩
  · replace hj : g.size ≤ j := hj
    rw [hother (by omega)]
    exact h.fresh j hj
  · exact h.below m' v ((hsame m').2.1 ▸ hv)
  · by_cases hvu : v = u
    · subst hvu
      rw [hself, ← hn] at hm'
      exact h.within v m' (List.mem_of_mem_erase hm')
    · rw [hother hvu] at hm'
      exact h.within v m' hm'
  · rw [(hsame v).1] at hv
    rw [(hsame m').1] at hm'
    have hedge := h.edges v m' hv hm'
    rw [(hsame m').2.1]
    by_cases hvu : v = u
    · subst hvu
      have hne : m' ≠ m := by
        rintro rfl
        exact hended hm'
      rw [hself, ← hn]
      show ((g.nodes v).down.erase m).count m' = _
      rw [List.count_erase_of_ne hne]
      exact hedge
    · rw [hother hvu]
      exact hedge
  · rw [(hsame m').1] at hm'
    rw [(hsame m').2.1, (hsame m').2.2.1, hcount]
    exact h'.pending m' hm'
  · rw [(hsame m').1] at hm'
    rw [(hsame m').2.2.2] at hmerged
    rw [(hsame m').2.2.1]
    exact h.waits m' hm' hmerged
  · rw [(hsame m').1] at hm'
    rw [(hsame m').2.1] at hv
    rw [(hsame v).1] at hr
    exact h'.faults m' hm' v hv r hr
  · rw [(hsame v).1] at hv
    rw [(hsame v).2.1]
    exact (h'.closed v hv).imp_right fun hall w hw => (hsame w).1.trans (hall w hw)
  · rw [(hsame j).1]
    exact h'.leaving j hj
  · obtain ⟨hlinked, hbase⟩ := h.consumers c hc
    exact ⟨hlinked, fun hcl ht => (hsame c.base).1.trans (hbase hcl ht)⟩

/-- A merge that has counted its last upstream down has none open and none that faulted. -/
theorem Settled.lastClose {g : Graph α} {ts : List Task} {m : Nat}
    (h : Settled g (.notify m .closed :: ts)) (hopen : (g.nodes m).ended = none)
    (hlast : ¬ 0 < (g.nodes m).pending - 1) :
    ∀ v ∈ (g.nodes m).up, (g.nodes v).ended = some .closed := by
  intro v hv
  have hpending := h.pending m hopen
  have hone : owed m (Task.notify m .closed :: ts) = owed m ts + 1 :=
    List.countP_cons_of_pos (by simp [Task.notifies])
  cases he : (g.nodes v).ended with
  | none =>
    have hpos : 0 < openCount g.nodes (g.nodes m).up := by
      rw [openCount, List.countP_pos_iff]
      exact ⟨v, hv, by rw [he]; rfl⟩
    omega
  | some t =>
    cases t with
    | closed => rfl
    | faulted r =>
      -- the fault would still be under way to the merge
      obtain ⟨r', hr'⟩ := h.faults m hopen v hv r he
      have hin : Task.notify m (.faulted r') ∈ ts := (List.mem_cons.1 hr').resolve_left nofun
      have hpos : 0 < owed m ts := by
        rw [owed, List.countP_pos_iff]
        exact ⟨_, hin, by simp [Task.notifies]⟩
      omega

/-- A stream is told of the end of an upstream. -/
theorem Settled.notify {g : Graph α} {m : Nat} {t : Terminal} {ts : List Task}
    (h : Settled g (.notify m t :: ts)) :
    Settled (g.runTask (.notify m t)).1 ((g.runTask (.notify m t)).2 ++ ts) := by
  simp only [Graph.runTask]
  by_cases hm : g.size ≤ m
  · -- nobody tells a stream that is not there
    have hfresh := h.fresh m hm
    have hpending := h.pending m (by rw [hfresh]; rfl)
    have hone : owed m (Task.notify m t :: ts) = owed m ts + 1 :=
      List.countP_cons_of_pos (by simp [Task.notifies])
    rw [hfresh] at hpending
    have hzero : Node.fresh.pending = 0 := rfl
    omega
  by_cases hended : (g.nodes m).ended.isSome
  · rw [if_pos (.inr hended)]
    refine h.tail (fun m' hm' => ?_) fun _ => nofun
    have hne : m ≠ m' := by
      rintro rfl
      rw [hm'] at hended
      exact nomatch hended
    simpa [Task.notifies] using hne
  rw [if_neg (not_or.2 ⟨hm, hended⟩)]
  have hopen : (g.nodes m).ended = none := by simpa using hended
  obtain ⟨hup, hdown, -⟩ := upstreamTerminal_fields (g.nodes m) t
  have hlt := Nat.lt_of_not_le hm
  have hfinish : ∀ (hcl : t = .closed → ∀ v ∈ (g.nodes m).up, (g.nodes v).ended = some .closed),
      Settled (g.finish m ((g.nodes m).upstreamTerminal t) t)
        (((g.nodes m).upstreamTerminal t).down.map (Task.notify · t) ++ ts) := by
    intro hcl
    have hf := h.finish hlt hopen hup hdown (.inl rfl) fun ht => .inr (hcl ht)
    rw [List.append_nil] at hf
    rw [hdown]
    refine hf.drop (fun m' hm' => ?_) fun _ => .inl nofun
    have hne : m ≠ m' := by
      rintro rfl
      replace hm' : (Function.update g.nodes m _ m).ended = none := hm'
      rw [Function.update_self] at hm'
      exact nomatch hm'
    simpa [Task.notifies] using hne
  cases t with
  | faulted r =>
    have hn : ((g.nodes m).upstreamTerminal (.faulted r)).ended.isSome := by
      simp [Node.upstreamTerminal, hopen]
    rw [if_pos hn]
    exact hfinish nofun
  | closed =>
    by_cases hwait : 0 < (g.nodes m).pending - 1
    · have hn : (g.nodes m).upstreamTerminal .closed =
          { g.nodes m with pending := (g.nodes m).pending - 1 } := by
        simp [Node.upstreamTerminal, hopen, hwait]
      rw [hn, if_neg (by simp [hopen])]
      exact h.countDown hlt hopen hwait
    · have hn : ((g.nodes m).upstreamTerminal .closed).ended.isSome := by
        simp [Node.upstreamTerminal, hopen, hwait]
      rw [if_pos hn]
      exact hfinish fun _ => h.lastClose hopen hwait

/-- A stream is closed. -/
theorem Settled.close {g : Graph α} {i : Nat} {ts : List Task} (h : Settled g (.close i :: ts)) :
    Settled (g.runTask (.close i)).1 ((g.runTask (.close i)).2 ++ ts) := by
  simp only [Graph.runTask]
  by_cases hi : g.size ≤ i
  · rw [if_pos hi]
    exact h.tail (fun _ _ => rfl) fun _ => nofun
  rw [if_neg hi]
  have htail : Settled g ts := h.tail (fun _ _ => rfl) fun _ => nofun
  by_cases hended : (g.nodes i).ended.isSome
  · rw [if_pos hended]
    refine htail.tasks (fun m _ => owed_cons_other rfl ts)
      (fun _ _ _ hr => List.mem_cons_of_mem _ hr) (fun _ hu => List.mem_cons_of_mem _ hu)
      fun j hj => ?_
    rcases hj with hj | ⟨u, hj⟩
    · rcases List.mem_cons.1 hj with he | hj
      · rw [Task.release.inj he]
        exact Option.isSome_iff_ne_none.1 hended
      · exact htail.leaving j (.inl hj)
    · exact htail.leaving j (.inr ⟨u, (List.mem_cons.1 hj).resolve_left nofun⟩)
  · rw [if_neg hended]
    have hopen : (g.nodes i).ended = none := by simpa using hended
    exact htail.finish (Nat.lt_of_not_le hi) hopen rfl rfl (.inr rfl) fun _ =>
      .inl List.mem_cons_self

/-- A stream faults. -/
theorem Settled.fault {g : Graph α} {i : Nat} {reason : String} {ts : List Task}
    (h : Settled g (.fault i reason :: ts)) :
    Settled (g.runTask (.fault i reason)).1 ((g.runTask (.fault i reason)).2 ++ ts) := by
  simp only [Graph.runTask]
  have htail : Settled g ts := h.tail (fun _ _ => rfl) fun _ => nofun
  by_cases hover : g.size ≤ i ∨ (g.nodes i).ended.isSome
  · rw [if_pos hover]
    exact htail
  rw [if_neg hover]
  rw [not_or, Nat.not_le] at hover
  have hopen : (g.nodes i).ended = none := by simpa using hover.2
  have hf := htail.finish hover.1 hopen rfl rfl (t := .faulted reason) (.inl rfl) nofun
  rwa [List.append_nil] at hf

/-- **One call keeps the graph settled**, with the calls it makes still to be made. -/
theorem Settled.runTask {g : Graph α} {t : Task} {ts : List Task} (h : Settled g (t :: ts)) :
    Settled (g.runTask t).1 ((g.runTask t).2 ++ ts) := by
  cases t with
  | notify m t => exact h.notify
  | close i => exact h.close
  | fault i reason => exact h.fault
  | release i =>
    simp only [Graph.runTask]
    by_cases hi : g.size ≤ i
    · have hended := h.leaving i (.inl List.mem_cons_self)
      rw [h.fresh i hi] at hended
      exact absurd rfl hended
    rw [if_neg hi]
    exact h.release (Nat.lt_of_not_le hi)
  | detach u m =>
    simp only [Graph.runTask]
    by_cases hu : g.size ≤ u
    · rw [if_pos hu]
      exact h.tail (fun _ _ => rfl) fun _ => nofun
    rw [if_neg hu]
    exact h.detach (Nat.lt_of_not_le hu)

theorem Settled.settle {g : Graph α} {ts : List Task} (h : Settled g ts) :
    Settled (g.settle ts) [] :=
  settle_inv (fun _ _ _ => Settled.runTask) h

/-! ## One operation -/

/-- What a settled graph knows of a consumer. -/
def Served (nodes : Nat → Node) (c : Consumer α) : Prop :=
  Linked c.stages c.attached c.sub ∧
    (c.sub.closed = false → c.sub.terminal = none → (nodes c.base).ended = none)

theorem Settled.withConsumers {g : Graph α} {ts : List Task} (h : Settled g ts)
    {cs : List (Consumer α)} (hcs : ∀ c ∈ cs, Served g.nodes c) :
    Settled { g with consumers := cs } ts :=
  ⟨h.fresh, h.below, h.within, h.edges, h.pending, h.waits, h.faults, h.closed, h.leaving, hcs⟩

theorem served_deliver {nodes : Nat → Node} {c : Consumer α} (h : Served nodes c) (item : α) :
    Served nodes (c.deliver item).2 := by
  have hkept := chainKept_deliver c.attached c.sub c.stages item
  exact ⟨hkept.linked h.1, fun hc ht => h.2 (hkept.closed.symm.trans hc) (hkept.terminal ht)⟩

/-- An emission reaches consumers only. -/
theorem forward_keeps {P : Consumer α → Prop} {item : α}
    (hP : ∀ c, P c → P (c.deliver item).2) (fuel : Nat) (g : Graph α) (i : Nat)
    (h : ∀ c ∈ g.consumers, P c) :
    (g.forward item fuel i).2.nodes = g.nodes ∧ (g.forward item fuel i).2.size = g.size ∧
      ∀ c ∈ (g.forward item fuel i).2.consumers, P c := by
  induction fuel generalizing g i with
  | zero => exact ⟨rfl, rfl, h⟩
  | succ fuel ih =>
    rw [forward]
    split
    · exact ⟨rfl, rfl, h⟩
    -- the merges below take the item one after the other
    have hfold : ∀ (down : List Nat) (r : Bool × Graph α),
        (r.2.nodes = g.nodes ∧ r.2.size = g.size ∧ ∀ c ∈ r.2.consumers, P c) →
        ((down.foldl (fun r m => ((forward item fuel r.2 m).1 && r.1,
            (forward item fuel r.2 m).2)) r).2.nodes = g.nodes ∧
          (down.foldl (fun r m => ((forward item fuel r.2 m).1 && r.1,
            (forward item fuel r.2 m).2)) r).2.size = g.size ∧
          ∀ c ∈ (down.foldl (fun r m => ((forward item fuel r.2 m).1 && r.1,
            (forward item fuel r.2 m).2)) r).2.consumers, P c) := by
      intro down
      induction down with
      | nil => exact fun r hr => hr
      | cons m down ihd =>
        intro r hr
        obtain ⟨hnodes, hsize, hall⟩ := ih r.2 m hr.2.2
        exact ihd _ ⟨hnodes.trans hr.1, hsize.trans hr.2.1, hall⟩
    refine hfold _ _ ⟨rfl, rfl, fun c hc => ?_⟩
    simp only [List.map_map, List.mem_map] at hc
    obtain ⟨c₀, hc₀, rfl⟩ := hc
    show P (if c₀.base = i then c₀.deliver item else (true, c₀)).2
    split
    · exact hP c₀ (h c₀ hc₀)
    · exact h c₀ hc₀

/-- A change of a subscription that neither reopens it nor takes its terminal back. -/
theorem served_sub {nodes : Nat → Node} {c : Consumer α} (h : Served nodes c)
    {sub : Subscription α} (hclosed : sub.closed = false → c.sub.closed = false)
    (hterminal : sub.terminal = none → c.sub.terminal = none) :
    Served nodes { c with sub := sub } :=
  ⟨fun hc ht => h.1 (hclosed hc) (hterminal ht), fun hc ht => h.2 (hclosed hc) (hterminal ht)⟩

theorem mem_modify {β : Type} {l : List β} {k : Nat} {f : β → β} {x : β} (h : x ∈ l.modify k f) :
    x ∈ l ∨ ∃ y ∈ l, x = f y := by
  obtain ⟨i, hi⟩ := List.mem_iff_getElem?.1 h
  rw [List.getElem?_modify, Option.map_eq_map, Option.map_eq_some_iff] at hi
  obtain ⟨y, hy, rfl⟩ := hi
  have hmem := List.mem_of_getElem? hy
  split
  · exact .inr ⟨y, hmem, rfl⟩
  · exact .inl hmem

theorem Settled.onSub {g : Graph α} (h : Settled g []) (k : Nat)
    {f : Subscription α → Subscription α}
    (hclosed : ∀ s, (f s).closed = false → s.closed = false)
    (hterminal : ∀ s, (f s).terminal = none → s.terminal = none) : Settled (g.onSub k f) [] := by
  refine h.withConsumers fun c hc => ?_
  rcases mem_modify hc with hc | ⟨c₀, hc₀, rfl⟩
  · exact h.consumers c hc
  · exact served_sub (h.consumers c₀ hc₀) (hclosed _) (hterminal _)

/-- The streams that are there keep what they have when one is added. -/
theorem attachDown_fields (nodes : Nat → Node) (u m i : Nat) :
    (attachDown nodes u m i).ended = (nodes i).ended ∧ (attachDown nodes u m i).up = (nodes i).up ∧
      (attachDown nodes u m i).pending = (nodes i).pending ∧
      (attachDown nodes u m i).merged = (nodes i).merged ∧
      (attachDown nodes u m i).down =
        (nodes i).down ++ if i = u ∧ (nodes u).ended = none then [m] else [] := by
  rw [attachDown]
  split
  · rename_i hended
    have hne : ¬ (i = u ∧ (nodes u).ended = none) := by
      rintro ⟨-, he⟩
      rw [he] at hended
      exact nomatch hended
    rw [if_neg hne, List.append_nil]
    exact ⟨rfl, rfl, rfl, rfl, rfl⟩
  · rename_i hended
    have hopen : (nodes u).ended = none := by simpa using hended
    by_cases hi : i = u
    · subst hi
      rw [Function.update_self, if_pos ⟨rfl, hopen⟩]
      exact ⟨rfl, rfl, rfl, rfl, rfl⟩
    · rw [Function.update_of_ne hi, if_neg fun h => hi h.1, List.append_nil]
      exact ⟨rfl, rfl, rfl, rfl, rfl⟩

/-! Two attachments of one new merge. -/

theorem attachTwice_same (nodes : Nat → Node) (a b m u : Nat) :
    (attachDown (attachDown nodes a m) b m u).ended = (nodes u).ended ∧
      (attachDown (attachDown nodes a m) b m u).up = (nodes u).up ∧
      (attachDown (attachDown nodes a m) b m u).pending = (nodes u).pending ∧
      (attachDown (attachDown nodes a m) b m u).merged = (nodes u).merged := by
  obtain ⟨h1, h2, h3, h4, -⟩ := attachDown_fields (attachDown nodes a m) b m u
  obtain ⟨k1, k2, k3, k4, -⟩ := attachDown_fields nodes a m u
  exact ⟨h1.trans k1, h2.trans k2, h3.trans k3, h4.trans k4⟩

/-- An open stream feeds the merge once for each time it is an upstream of it. -/
theorem attachTwice_down {nodes : Nat → Node} (a b m : Nat) {u : Nat}
    (hu : (nodes u).ended = none) :
    (attachDown (attachDown nodes a m) b m u).down = (nodes u).down ++
      (if u = a then [m] else []) ++ if u = b then [m] else [] := by
  obtain ⟨-, -, -, -, h5⟩ := attachDown_fields (attachDown nodes a m) b m u
  obtain ⟨-, -, -, -, k5⟩ := attachDown_fields nodes a m u
  obtain ⟨kb, -⟩ := attachDown_fields nodes a m b
  rw [k5, kb] at h5
  rw [h5]
  congr 1
  · congr 1
    by_cases hua : u = a
    · rw [if_pos ⟨hua, hua ▸ hu⟩, if_pos hua]
    · rw [if_neg fun hx => hua hx.1, if_neg hua]
  · by_cases hub : u = b
    · rw [if_pos ⟨hub, hub ▸ hu⟩, if_pos hub]
    · rw [if_neg fun hx => hub hx.1, if_neg hub]

/-- Nothing but the merge is fed in addition. -/
theorem mem_attachTwice_down {nodes : Nat → Node} {a b m u m' : Nat}
    (h : m' ∈ (attachDown (attachDown nodes a m) b m u).down) :
    m' ∈ (nodes u).down ∨ m' = m := by
  obtain ⟨-, -, -, -, h5⟩ := attachDown_fields (attachDown nodes a m) b m u
  obtain ⟨-, -, -, -, k5⟩ := attachDown_fields nodes a m u
  rw [h5, k5, List.append_assoc, List.mem_append, List.mem_append] at h
  rcases h with h | h | h
  · exact .inl h
  · split at h
    · exact .inr (List.mem_singleton.1 h)
    · exact nomatch h
  · split at h
    · exact .inr (List.mem_singleton.1 h)
    · exact nomatch h

theorem attachTwice_other {nodes : Nat → Node} {a b u : Nat} (ha : u ≠ a) (hb : u ≠ b) (m : Nat) :
    attachDown (attachDown nodes a m) b m u = nodes u := by
  rw [attachDown, attachDown]
  split <;> split <;> simp [Function.update_of_ne, ha, hb]

/-- A new merge, told of the upstreams that have ended already. -/
theorem told_twice {nodes : Nat → Node} {a b : Nat} :
    let n := told nodes b (told nodes a ⟨true, none, [a, b], [], 2⟩)
    n.up = [a, b] ∧ n.down = [] ∧ n.merged = true ∧
      (n.ended = none → n.pending = openCount nodes [a, b] ∧ 0 < n.pending ∧
        ∀ u ∈ [a, b], ∀ r, (nodes u).ended ≠ some (.faulted r)) ∧
      (n.ended = some .closed → ∀ u ∈ [a, b], (nodes u).ended = some .closed) := by
  rcases ha : (nodes a).ended with - | ta
  · rcases hb : (nodes b).ended with - | tb
    · simp [told, ha, hb, openCount]
    · cases tb <;> simp [told, ha, hb, openCount, Node.upstreamTerminal]
  · rcases hb : (nodes b).ended with - | tb
    · cases ta <;> simp [told, ha, hb, openCount, Node.upstreamTerminal]
    · cases ta <;> cases tb <;> simp [told, ha, hb, openCount, Node.upstreamTerminal]

/-- An upstream is a stream of the graph. -/
theorem Settled.up_lt {g : Graph α} (h : Settled g []) {m u : Nat} (hu : u ∈ (g.nodes m).up) :
    u < g.size := by
  have hbelow := h.below m u hu
  have hsize := h.lt_size (.inl (List.ne_nil_of_mem hu))
  omega

/-- What a merge of `a` and `b` adds to a graph: the node `n`, which hangs on them, and `nodes` for
the earlier streams, which change by what they feed only. -/
structure AddsMerge (g : Graph α) (a b : Nat) (n : Node) (nodes : Nat → Node) : Prop where
  left : a < g.size
  right : b < g.size
  up : n.up = [a, b]
  down : n.down = []
  opened : n.ended = none → n.pending = openCount g.nodes [a, b] ∧ 0 < n.pending ∧
    ∀ u ∈ [a, b], ∀ r, (g.nodes u).ended ≠ some (.faulted r)
  closed : n.ended = some .closed → ∀ u ∈ [a, b], (g.nodes u).ended = some .closed
  same : ∀ u, (nodes u).ended = (g.nodes u).ended ∧ (nodes u).up = (g.nodes u).up ∧
    (nodes u).pending = (g.nodes u).pending ∧ (nodes u).merged = (g.nodes u).merged
  feeds : ∀ u, (g.nodes u).ended = none → (nodes u).down = (g.nodes u).down ++
    (if u = a then [g.size] else []) ++ if u = b then [g.size] else []
  within : ∀ u, ∀ m ∈ (nodes u).down, m ∈ (g.nodes u).down ∨ m = g.size
  stays : ∀ u, u ≠ a → u ≠ b → nodes u = g.nodes u

namespace AddsMerge

variable {g : Graph α} {a b : Nat} {n : Node} {nodes : Nat → Node} (hadds : AddsMerge g a b n nodes)

theorem self : Function.update nodes g.size n g.size = n := Function.update_self _ _ _

theorem other {u : Nat} (hu : u ≠ g.size) : Function.update nodes g.size n u = nodes u :=
  Function.update_of_ne hu _ _

include hadds

theorem lt_size {u : Nat} (hu : u ∈ n.up) : u < g.size := by
  have hleft := hadds.left
  have hright := hadds.right
  rw [hadds.up] at hu
  simp only [List.mem_cons, List.not_mem_nil, or_false] at hu
  omega

theorem ended {u : Nat} (hu : u < g.size) :
    (Function.update nodes g.size n u).ended = (g.nodes u).ended := by
  rw [other (by omega)]
  exact (hadds.same u).1

theorem count {l : List Nat} (hl : ∀ u ∈ l, u < g.size) :
    openCount (Function.update nodes g.size n) l = openCount g.nodes l :=
  openCount_congr fun u hu => hadds.ended (hl u hu)

/-- The upstreams of a stream of the new graph, one by one. -/
theorem up_cases {m u : Nat} (hu : u ∈ (Function.update nodes g.size n m).up) :
    (m = g.size ∧ u ∈ n.up) ∨ (m ≠ g.size ∧ u ∈ (g.nodes m).up) := by
  by_cases hm : m = g.size
  · rw [hm, self] at hu
    exact .inl ⟨hm, hu⟩
  · rw [other hm, (hadds.same m).2.1] at hu
    exact .inr ⟨hm, hu⟩

variable (h : Settled g [])

include h

/-- Nothing hangs on the new merge. -/
theorem count_size (m : Nat) : (Function.update nodes g.size n m).up.count g.size = 0 := by
  rw [List.count_eq_zero]
  intro hmem
  rcases hadds.up_cases hmem with ⟨-, hup⟩ | ⟨-, hup⟩
  · have := hadds.lt_size hup
    omega
  · have := h.up_lt hup
    omega

/-- An open stream feeds the new merge as often as it is an upstream of it. -/
theorem count_down {u : Nat} (hu : (g.nodes u).ended = none) :
    (nodes u).down.count g.size = n.up.count u := by
  have hnone : (g.nodes u).down.count g.size = 0 := by
    rw [List.count_eq_zero]
    intro hmem
    have := h.within u g.size hmem
    omega
  have hone : ∀ v, (if u = v then [g.size] else []).count g.size = if v == u then 1 else 0 := by
    intro v
    by_cases huv : u = v
    · simp [huv]
    · simp [huv, Ne.symm huv]
  rw [hadds.feeds u hu, hadds.up]
  simp only [List.count_append, hnone, List.count_cons, List.count_nil, hone]
  omega

/-- And an earlier one as often as before. -/
theorem count_down_other {u m : Nat} (hu : (g.nodes u).ended = none)
    (hm : (g.nodes m).ended = none) (hne : m ≠ g.size) :
    (nodes u).down.count m = (nodes m).up.count u := by
  have hnone : ∀ v, (if u = v then [g.size] else []).count m = 0 := by
    intro v
    split
    · simp [Ne.symm hne]
    · rfl
  rw [hadds.feeds u hu, List.count_append, List.count_append, hnone, hnone, (hadds.same m).2.1]
  exact h.edges u m hu hm

theorem edges {u m : Nat} (hu : (Function.update nodes g.size n u).ended = none)
    (hm : (Function.update nodes g.size n m).ended = none) :
    (Function.update nodes g.size n u).down.count m =
      (Function.update nodes g.size n m).up.count u := by
  by_cases hus : u = g.size
  · rw [hus, hadds.count_size h, self, hadds.down]
    rfl
  rw [other hus] at hu ⊢
  rw [(hadds.same u).1] at hu
  by_cases hms : m = g.size
  · rw [hms, self]
    exact hadds.count_down h hu
  · rw [other hms] at hm ⊢
    rw [(hadds.same m).1] at hm
    exact hadds.count_down_other h hu hm hms

theorem pending {m : Nat} (hm : (Function.update nodes g.size n m).ended = none) :
    (Function.update nodes g.size n m).pending =
      openCount (Function.update nodes g.size n) (Function.update nodes g.size n m).up := by
  by_cases hms : m = g.size
  · rw [hms, self] at hm ⊢
    rw [hadds.count fun u hu => hadds.lt_size hu, hadds.up]
    exact (hadds.opened hm).1
  · rw [other hms] at hm ⊢
    rw [(hadds.same m).1] at hm
    rw [(hadds.same m).2.1, (hadds.same m).2.2.1, hadds.count fun u hu => h.up_lt hu]
    exact h.pending m hm

theorem waits {m : Nat} (hm : (Function.update nodes g.size n m).ended = none)
    (hmerged : (Function.update nodes g.size n m).merged = true) :
    0 < (Function.update nodes g.size n m).pending := by
  by_cases hms : m = g.size
  · rw [hms, self] at hm ⊢
    exact (hadds.opened hm).2.1
  · rw [other hms] at hm hmerged ⊢
    rw [(hadds.same m).1] at hm
    rw [(hadds.same m).2.2.2] at hmerged
    rw [(hadds.same m).2.2.1]
    exact h.waits m hm hmerged

theorem faults {m u : Nat} {r : String}
    (hm : (Function.update nodes g.size n m).ended = none)
    (hu : u ∈ (Function.update nodes g.size n m).up) :
    (Function.update nodes g.size n u).ended ≠ some (.faulted r) := by
  intro hr
  rcases hadds.up_cases hu with ⟨hms, hup⟩ | ⟨hms, hup⟩
  · rw [hms, self] at hm
    rw [hadds.ended (hadds.lt_size hup)] at hr
    exact (hadds.opened hm).2.2 u (hadds.up ▸ hup) r hr
  · rw [other hms, (hadds.same m).1] at hm
    rw [hadds.ended (h.up_lt hup)] at hr
    obtain ⟨r', hr'⟩ := h.faults m hm u hup r hr
    exact nomatch hr'

theorem allClosed {u : Nat} (hu : (Function.update nodes g.size n u).ended = some .closed) :
    ∀ v ∈ (Function.update nodes g.size n u).up,
      (Function.update nodes g.size n v).ended = some .closed := by
  intro v hv
  rcases hadds.up_cases hv with ⟨hus, hup⟩ | ⟨hus, hup⟩
  · rw [hus, self] at hu
    rw [hadds.ended (hadds.lt_size hup)]
    exact hadds.closed hu v (hadds.up ▸ hup)
  · rw [other hus, (hadds.same u).1] at hu
    rw [hadds.ended (h.up_lt hup)]
    rcases h.closed u hu with hrelease | hall
    · exact nomatch hrelease
    · exact hall v hup

end AddsMerge

/-- A merge of two streams, whether or not they have ended. -/
theorem Settled.merge {g : Graph α} (h : Settled g []) (hbased : ∀ c ∈ g.consumers, c.base < g.size)
    {a b : Nat} (ha : a < g.size) (hb : b < g.size) : Settled (g.step (.merge a b)) [] := by
  obtain ⟨hup, hdown, -, hopen, hclosed⟩ := @told_twice g.nodes a b
  simp only [step, if_pos (And.intro ha hb)]
  have hadds : AddsMerge g a b (told g.nodes b (told g.nodes a ⟨true, none, [a, b], [], 2⟩))
      (attachDown (attachDown g.nodes a g.size) b g.size) :=
    ⟨ha, hb, hup, hdown, hopen, hclosed, attachTwice_same g.nodes a b g.size,
      fun u hu => attachTwice_down a b g.size hu, fun u m hm => mem_attachTwice_down hm,
      fun u hua hub => attachTwice_other hua hub g.size⟩
  generalize told g.nodes b _ = n at hadds ⊢
  generalize attachDown (attachDown g.nodes a g.size) b g.size = nodes at hadds ⊢
  refine ⟨fun i hi => ?_, fun m u hu => ?_, fun u m hm => ?_, fun u m hu hm => hadds.edges h hu hm,
    fun m hm => hadds.pending h hm, fun m hm hmerged => hadds.waits h hm hmerged,
    fun m hm u hu r hr => absurd hr (hadds.faults h hm hu),
    fun u hu => .inr (hadds.allClosed h hu), fun i hi => ?_, fun c hc => ?_⟩
  · replace hi : g.size + 1 ≤ i := hi
    show Function.update nodes g.size n i = Node.fresh
    rw [AddsMerge.other (by omega), hadds.stays i (by omega) (by omega)]
    exact h.fresh i (by omega)
  · rcases hadds.up_cases hu with ⟨hm, hup⟩ | ⟨-, hup⟩
    · have := hadds.lt_size hup
      omega
    · exact h.below m u hup
  · show m < g.size + 1
    replace hm : m ∈ (Function.update nodes g.size n u).down := hm
    by_cases hus : u = g.size
    · rw [hus, AddsMerge.self, hadds.down] at hm
      exact nomatch hm
    · rw [AddsMerge.other hus] at hm
      rcases hadds.within u m hm with hm | hm
      · exact Nat.lt_succ_of_lt (h.within u m hm)
      · exact Nat.lt_succ_of_le (Nat.le_of_eq hm)
  · rcases hi with hi | ⟨u, hi⟩
    · exact nomatch hi
    · exact nomatch hi
  · obtain ⟨hlinked, hbase⟩ := h.consumers c hc
    exact ⟨hlinked, fun hcl ht => (hadds.ended (hbased c hc)).trans (hbase hcl ht)⟩

end Graph

/-! ## Runs -/

/-- The steps under which no subscription goes silent: the stream subscribed to is open. -/
def Heard (g : Graph α) : Act α → Prop
  | .subscribe base _ => base < g.size → (g.nodes base).ended = none
  | _ => True

def HeardRun (g : Graph α) : List (Act α) → Prop
  | [] => True
  | act :: acts => Heard g act ∧ HeardRun (g.step act) acts

namespace Graph

/-- What holds of every consumer, whatever the run. -/
def Kept (size : Nat) (c : Consumer α) : Prop := c.sub.Sound ∧ c.base < size

theorem kept_terminate {size : Nat} {c : Consumer α} (h : Kept size c) (t : Terminal) :
    Kept size (c.terminate t) :=
  ⟨sound_terminateChain h.1, h.2⟩

theorem kept_deliver {size : Nat} {c : Consumer α} (h : Kept size c) (item : α) :
    Kept size (c.deliver item).2 :=
  ⟨(chainKept_deliver c.attached c.sub c.stages item).sound h.1, h.2⟩

theorem kept_finish {g : Graph α} (h : ∀ c ∈ g.consumers, Kept g.size c) (i : Nat) (n : Node)
    (t : Terminal) : ∀ c ∈ (g.finish i n t).consumers, Kept g.size c := by
  intro c hc
  obtain ⟨c₀, hc₀, rfl⟩ := List.mem_map.1 hc
  split
  · exact kept_terminate (h c₀ hc₀) t
  · exact h c₀ hc₀

theorem kept_runTask {g : Graph α} {size : Nat} (t : Task)
    (h : g.size = size ∧ ∀ c ∈ g.consumers, Kept size c) :
    (g.runTask t).1.size = size ∧ ∀ c ∈ (g.runTask t).1.consumers, Kept size c := by
  obtain ⟨rfl, h⟩ := h
  cases t with
  | notify m t =>
    simp only [Graph.runTask]
    split
    · exact ⟨rfl, h⟩
    · split
      · exact ⟨rfl, kept_finish h m _ t⟩
      · exact ⟨rfl, h⟩
  | close i =>
    simp only [Graph.runTask]
    split
    · exact ⟨rfl, h⟩
    · split
      · exact ⟨rfl, h⟩
      · exact ⟨rfl, kept_finish h i _ .closed⟩
  | fault i reason =>
    simp only [Graph.runTask]
    split
    · exact ⟨rfl, h⟩
    · exact ⟨rfl, kept_finish h i _ _⟩
  | release i =>
    simp only [Graph.runTask]
    split <;> exact ⟨rfl, h⟩
  | detach u m =>
    simp only [Graph.runTask]
    split <;> exact ⟨rfl, h⟩

theorem kept_settle {g : Graph α} (h : ∀ c ∈ g.consumers, Kept g.size c) (ts : List Task) :
    (g.settle ts).size = g.size ∧ ∀ c ∈ (g.settle ts).consumers, Kept g.size c :=
  settle_inv (P := fun g' _ => g'.size = g.size ∧ ∀ c ∈ g'.consumers, Kept g.size c)
    (fun _ t _ h => kept_runTask t h) ⟨rfl, h⟩

theorem kept_onSub {g : Graph α} (h : ∀ c ∈ g.consumers, Kept g.size c) (k : Nat)
    {f : Subscription α → Subscription α} (hf : ∀ s : Subscription α, s.Sound → (f s).Sound) :
    ∀ c ∈ (g.onSub k f).consumers, Kept g.size c := by
  intro c hc
  rcases mem_modify hc with hc | ⟨c₀, hc₀, rfl⟩
  · exact h c hc
  · exact ⟨hf _ (h c₀ hc₀).1, (h c₀ hc₀).2⟩

theorem mem_set {β : Type} {l : List β} {k : Nat} {x y : β} (h : x ∈ l.set k y) :
    x ∈ l ∨ x = y := List.mem_or_eq_of_mem_set h

theorem kept_step {g : Graph α} (h : ∀ c ∈ g.consumers, Kept g.size c) (act : Act α) :
    ∀ c ∈ (g.step act).consumers, Kept (g.step act).size c := by
  have hgrow : ∀ c ∈ g.consumers, Kept (g.size + 1) c := fun c hc =>
    ⟨(h c hc).1, Nat.lt_succ_of_lt (h c hc).2⟩
  cases act with
  | source => exact hgrow
  | merge a b =>
    simp only [step]
    split
    · exact hgrow
    · exact h
  | subscribe base r =>
    simp only [step]
    split
    · rename_i hbase
      intro c hc
      rcases List.mem_append.1 hc with hc | hc
      · exact h c hc
      · rw [List.mem_singleton.1 hc]
        exact ⟨Subscription.sound_opened _ _ _ _ _, hbase⟩
    · exact h
  | emit i item =>
    obtain ⟨-, hsize, hall⟩ := forward_keeps (P := Kept g.size) (fun c hc => kept_deliver hc item)
      g.size g i h
    show ∀ c ∈ _, Kept (g.forward item g.size i).2.size c
    rw [hsize]
    exact hall
  | close i =>
    obtain ⟨hsize, hall⟩ := kept_settle h [.close i]
    show ∀ c ∈ _, Kept (g.settle [.close i]).size c
    rw [hsize]
    exact hall
  | fault i reason =>
    obtain ⟨hsize, hall⟩ := kept_settle h [.fault i reason]
    show ∀ c ∈ _, Kept (g.settle [.fault i reason]).size c
    rw [hsize]
    exact hall
  | next k => exact kept_onSub h k fun _ hs => Subscription.sound_next hs
  | drainFire k => exact kept_onSub h k fun _ hs => Subscription.sound_drainFire hs
  | owner k b => exact kept_onSub h k fun _ hs => Subscription.sound_setOwner hs b
  | closeSub k =>
    simp only [step]
    split
    · exact h
    rename_i c₀ hc₀
    split
    · exact h
    have hset : ∀ c ∈ g.consumers.set k c₀.close, Kept g.size c := by
      intro c hc
      rcases mem_set hc with hc | rfl
      · exact h c hc
      · have := h c₀ (List.mem_of_getElem? hc₀)
        exact ⟨Subscription.sound_close this.1, this.2⟩
    split
    · have hkept := @kept_settle _ { g with consumers := g.consumers.set k c₀.close } hset
        [.close c₀.base]
      rw [hkept.1]
      exact hkept.2
    · exact hset

theorem settled_empty : Settled (empty : Graph α) [] := by
  constructor
  case fresh => exact fun _ _ => rfl
  case below => exact fun _ _ hu => nomatch hu
  case within => exact fun _ _ hm => nomatch hm
  case edges => exact fun _ _ _ _ => rfl
  case pending => exact fun _ _ => rfl
  case waits => exact fun _ _ hm => nomatch hm
  case faults => exact fun _ _ _ hu => nomatch hu
  case closed => exact fun _ hu => nomatch hu
  case leaving => exact fun _ hi => hi.elim (fun h => nomatch h) fun ⟨_, h⟩ => nomatch h
  case consumers => exact fun _ hc => nomatch hc

/-- One call to be made, nothing else under way. -/
theorem Settled.call {g : Graph α} (h : Settled g []) {t : Task} (hn : ∀ m, t.notifies m = false)
    (hr : ∀ i, t ≠ .release i) (hd : ∀ u i, t ≠ .detach u i) : Settled g [t] := by
  refine h.tasks (fun m _ => owed_cons_other (hn m) []) (fun _ _ _ hx => nomatch hx)
    (fun _ hx => nomatch hx) fun i hi => ?_
  rcases hi with hi | ⟨u, hi⟩
  · exact absurd (List.mem_singleton.1 hi).symm (hr i)
  · exact absurd (List.mem_singleton.1 hi).symm (hd u i)

theorem Settled.step {g : Graph α} (h : Settled g [])
    (hkept : ∀ c ∈ g.consumers, Kept g.size c) {act : Act α} (hact : Heard g act) :
    Settled (g.step act) [] := by
  cases act with
  | source =>
    refine ⟨fun i hi => h.fresh i (Nat.le_of_succ_le hi), h.below, fun u m hm => ?_, h.edges,
      h.pending, h.waits, h.faults, h.closed, h.leaving, h.consumers⟩
    exact Nat.lt_succ_of_lt (h.within u m hm)
  | merge a b =>
    by_cases hab : a < g.size ∧ b < g.size
    · exact h.merge (fun c hc => (hkept c hc).2) hab.1 hab.2
    · simp only [Graph.step, if_neg hab]
      exact h
  | subscribe base r =>
    simp only [Graph.step]
    split
    · rename_i hbase
      refine h.withConsumers fun c hc => ?_
      rcases List.mem_append.1 hc with hc | hc
      · exact h.consumers c hc
      · rw [List.mem_singleton.1 hc]
        refine ⟨fun _ _ => ?_, fun _ _ => hact hbase⟩
        simp [chain]
    · exact h
  | emit i item =>
    obtain ⟨hnodes, hsize, hall⟩ :=
      forward_keeps (P := Served g.nodes) (fun c hc => served_deliver hc item) g.size g i
        h.consumers
    have hg : (g.forward item g.size i).2 =
        { g with consumers := (g.forward item g.size i).2.consumers } := by
      generalize (g.forward item g.size i).2 = g' at hnodes hsize
      cases g'
      simp only at hnodes hsize
      rw [hnodes, hsize]
    show Settled (g.forward item g.size i).2 []
    rw [hg]
    exact h.withConsumers hall
  | close i => exact (h.call (t := .close i) (fun _ => rfl) (fun _ h => by cases h) fun _ _ h => by cases h).settle
  | fault i reason => exact (h.call (t := .fault i reason) (fun _ => rfl) (fun _ h => by cases h) fun _ _ h => by cases h).settle
  | next k =>
    refine h.onSub k (f := fun sub => sub.next.2) (fun s hc => ?_) fun s ht => ?_
    · exact (Subscription.next_keeps s).1.symm.trans hc
    · exact (Subscription.next_keeps s).2.symm.trans ht
  | drainFire k =>
    refine h.onSub k (fun s hc => ?_) fun s ht => ?_
    · exact (Subscription.sameItems_drainFire s).closed.symm.trans hc
    · exact (Subscription.sameItems_drainFire s).terminal.symm.trans ht
  | owner k b => exact h.onSub k (f := fun sub => sub.setOwner b) (fun _ hc => hc) fun _ ht => ht
  | closeSub k =>
    simp only [Graph.step]
    split
    · exact h
    rename_i c₀ hc₀
    split
    · exact h
    have hset : Settled { g with consumers := g.consumers.set k c₀.close } [] := by
      refine h.withConsumers fun c hc => ?_
      rcases mem_set hc with hc | rfl
      · exact h.consumers c hc
      · have hclosed : c₀.close.sub.closed = true := by
          show c₀.sub.close.closed = true
          rw [Subscription.close]
          split
          · assumption
          · rfl
        exact ⟨.vacuous (.inl hclosed), fun hc _ => by cases hclosed.symm.trans hc⟩
    split
    · exact (hset.call (t := .close c₀.base) (fun _ => rfl) (fun _ h => by cases h) fun _ _ h => by cases h).settle
    · exact hset

theorem kept_run (acts : List (Act α)) : ∀ c ∈ (run acts).consumers, Kept (run acts).size c := by
  have hfrom : ∀ (acts : List (Act α)) (g : Graph α), (∀ c ∈ g.consumers, Kept g.size c) →
      ∀ c ∈ (acts.foldl step g).consumers, Kept (acts.foldl step g).size c := by
    intro acts
    induction acts with
    | nil => exact fun _ h => h
    | cons act acts ih => exact fun g h => ih (g.step act) (kept_step h act)
  exact hfrom acts empty fun _ hc => nomatch hc

theorem settled_run {acts : List (Act α)} (heard : HeardRun empty acts) :
    Settled (run acts) [] := by
  have hfrom : ∀ (acts : List (Act α)) (g : Graph α), (∀ c ∈ g.consumers, Kept g.size c) →
      Settled g [] → HeardRun g acts → Settled (acts.foldl step g) [] := by
    intro acts
    induction acts with
    | nil => exact fun _ _ h _ => h
    | cons act acts ih =>
      intro g hkept h heard
      exact ih (g.step act) (kept_step hkept act) (h.step hkept heard.1) heard.2
  exact hfrom acts empty (fun _ hc => nomatch hc) settled_empty heard

end Graph

/-! ## What feeds a stream -/

/-- `s` is one of the sources that feed the stream `n`. -/
inductive Feeds (g : Graph α) : Nat → Nat → Prop where
  | source {s : Nat} (plain : (g.nodes s).merged = false) : Feeds g s s
  | merge {n u s : Nat} (up : u ∈ (g.nodes n).up) (feeds : Feeds g u s) : Feeds g n s

namespace Graph

variable {g : Graph α}

/-- Nothing open feeds a closed stream, and nothing faulted does. -/
theorem Settled.closed_feeds (h : Settled g []) {n s : Nat} (hf : Feeds g n s)
    (hn : (g.nodes n).ended = some .closed) : (g.nodes s).ended = some .closed := by
  induction hf with
  | source _ => exact hn
  | merge up _ ih =>
    rcases h.closed _ hn with hrelease | hall
    · exact nomatch hrelease
    · exact ih (hall _ up)

/-- A fault upstream has ended the stream. -/
theorem Settled.faulted_feeds (h : Settled g []) {n s : Nat} (hf : Feeds g n s) {r : String}
    (hs : (g.nodes s).ended = some (.faulted r)) : (g.nodes n).ended ≠ none := by
  induction hf with
  | source _ =>
    rw [hs]
    exact nofun
  | @merge n u s up feeds ih =>
    intro hopen
    cases hu : (g.nodes u).ended with
    | none => exact ih hs hu
    | some t =>
      cases t with
      | closed =>
        have hclosed := h.closed_feeds feeds hu
        rw [hs] at hclosed
        exact nomatch hclosed
      | faulted r' =>
        obtain ⟨_, hnotify⟩ := h.faults n hopen u up r' hu
        exact nomatch hnotify

/-- An open stream is fed by an open source. -/
theorem Settled.open_source (h : Settled g []) (n : Nat) (hopen : (g.nodes n).ended = none) :
    ∃ s, Feeds g n s ∧ (g.nodes s).ended = none := by
  induction n using Nat.strongRecOn with
  | ind n ih =>
    by_cases hmerged : (g.nodes n).merged = true
    · have hwaits := h.waits n hopen hmerged
      rw [h.pending n hopen] at hwaits
      have hpos : 0 < openCount g.nodes (g.nodes n).up := hwaits
      obtain ⟨u, hup, hu⟩ := List.countP_pos_iff.1 hpos
      obtain ⟨s, hfeeds, hs⟩ := ih u (h.below n u hup) (Option.isNone_iff_eq_none.1 hu)
      exact ⟨s, .merge hup hfeeds, hs⟩
    · exact ⟨n, .source (Bool.eq_false_iff.2 hmerged), hopen⟩

/-- The sources that feed a stream are done with it. -/
def Spent (g : Graph α) (n : Nat) : Prop :=
  (∀ s, Feeds g n s → (g.nodes s).ended ≠ none) ∨
    ∃ s r, Feeds g n s ∧ (g.nodes s).ended = some (.faulted r)

theorem Settled.ended_of_spent (h : Settled g []) {n : Nat} (hspent : g.Spent n) :
    (g.nodes n).ended ≠ none := by
  intro hopen
  rcases hspent with hall | ⟨s, r, hfeeds, hs⟩
  · obtain ⟨s, hfeeds, hs⟩ := h.open_source n hopen
    exact hall s hfeeds hs
  · exact h.faulted_feeds hfeeds hs hopen

end Graph

/-- **A stream never goes silent.** In every run a buffer is within its capacity. In a run that
subscribes to open streams, repeated `next` on a subscription whose sources have all ended, or of
which one has faulted, returns what was kept, in order and each item once, and then ends for ever;
and one that was closed or has lost its owner ends at once. -/
theorem never_silent (acts : List (Act α)) {c : Consumer α}
    (hc : c ∈ (Graph.run acts).consumers) :
    c.sub.buffer.length ≤ c.sub.capacity ∧
    (HeardRun .empty acts →
      (c.sub.closed = true ∨ c.sub.withdrawn = true → c.sub.next = (.closed, c.sub)) ∧
      (c.sub.closed = false → c.sub.withdrawn = false → (Graph.run acts).Spent c.base →
        ∃ t : Terminal, c.sub.terminal = some t ∧
          ∀ n, c.sub.taken.map .item ++ c.sub.drain (c.sub.buffer.length + n) =
            c.sub.kept.map .item ++ List.replicate n t.outcome)) := by
  have hkept := Graph.kept_run acts c hc
  refine ⟨hkept.1.bounded, fun heard => ⟨fun hover => ?_, fun hclosed howned hspent => ?_⟩⟩
  · rw [Subscription.next, if_pos (by simpa using hover)]
  · have hsettled := Graph.settled_run heard
    have hbase := hsettled.ended_of_spent hspent
    obtain ⟨t, ht⟩ : ∃ t, c.sub.terminal = some t := by
      -- without a terminal the stream itself would be open
      cases hterm : c.sub.terminal with
      | none => exact absurd ((hsettled.consumers c hc).2 hclosed hterm) hbase
      | some t => exact ⟨t, rfl⟩
    refine ⟨t, ht, fun n => ?_⟩
    rw [Subscription.drain_terminal hclosed howned ht n, hkept.1.kept hclosed, List.map_append,
      List.append_assoc]

/-- What the two runs below subscribe with. -/
def Opening.plain : Opening Nat := ⟨.block, 1, Nat.one_pos, none, []⟩

theorem never_silent_closed :
    ∃ c ∈ (Graph.run [.source, .subscribe 0 .plain, .emit 0 5, .close 0]).consumers,
      ∃ t : Terminal, c.sub.terminal = some t ∧
        ∀ n, c.sub.taken.map .item ++ c.sub.drain (c.sub.buffer.length + n) =
          c.sub.kept.map .item ++ List.replicate n t.outcome := by
  refine ⟨_, List.mem_singleton.2 rfl, ?_⟩
  refine ((never_silent [.source, .subscribe 0 .plain, .emit 0 5, .close 0]
    (List.mem_singleton.2 rfl)).2 ⟨trivial, fun _ => rfl, trivial, trivial, trivial⟩).2 rfl rfl
    (.inl fun s hs => ?_)
  cases hs with
  | source _ => exact nofun
  | merge up _ => exact nomatch up

/-- **A subscription on a stream that has ended is never told.** -/
theorem subscribe_silent :
    ∃ c ∈ (Graph.run [.source, .close 0, .subscribe 0 .plain]).consumers,
      c.sub.closed = false ∧ c.sub.withdrawn = false ∧
      (Graph.run [.source, .close 0, .subscribe 0 .plain]).Spent c.base ∧
      ∀ n, c.sub.drain n = List.replicate n .parked := by
  refine ⟨_, List.mem_singleton.2 rfl, rfl, rfl, .inl fun s hs => ?_, fun n => ?_⟩
  · cases hs with
    | source _ => exact nofun
    | merge up _ => exact nomatch up
  · induction n with
    | zero => rfl
    | succ n ih => exact congrArg (Outcome.parked :: ·) ih

end Revl.Stream
