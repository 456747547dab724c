import Revl.Stream.Subscription

/-!
# Durable cursors

A provider that declared `replay(from: name)` numbers what it emits and holds the last items. A
subscription that resumes the cursor counts what its consumer takes, and the count is recorded
under the name, so that a later subscription goes on from there.

- `Source`: the provider, the recorded position and the subscriptions of the cursor.
- `emit`, `subscribe`, `next`: number and hold, replay what is held past the position, count.
- `Exact`, `exact_step`: the two counts are together.
- `durable_cursor`: **in a clear run the recorded position is the number of the item taken last,
  and the items taken are numbered consecutively**.
-/

namespace Revl.Stream

variable {α : Type}

/-! ## Consecutive numbers -/

/-- The items are numbered from `a` on, without a hole. -/
def Numbered (a : Nat) : List (Nat × α) → Prop
  | [] => True
  | x :: l => x.1 = a ∧ Numbered (a + 1) l

theorem Numbered.append {a : Nat} {l : List (Nat × α)} (h : Numbered a l) {n : Nat} (x : α)
    (hn : n = a + l.length) : Numbered a (l ++ [(n, x)]) := by
  induction l generalizing a with
  | nil => exact ⟨hn, trivial⟩
  | cons y l ih =>
    refine ⟨h.1, ih h.2 ?_⟩
    rw [hn, List.length_cons]
    omega

theorem Numbered.le {a : Nat} {l : List (Nat × α)} (h : Numbered a l) : ∀ x ∈ l, a ≤ x.1 := by
  induction l generalizing a with
  | nil => exact fun _ hx => nomatch hx
  | cons y l ih =>
    intro x hx
    rcases List.mem_cons.1 hx with rfl | hx
    · exact Nat.le_of_eq h.1.symm
    · have := ih h.2 x hx
      omega

theorem Numbered.drop {a : Nat} {l : List (Nat × α)} (h : Numbered a l) (k : Nat) :
    Numbered (a + k) (l.drop k) := by
  induction k generalizing a l with
  | zero => exact h
  | succ k ih =>
    cases l with
    | nil => trivial
    | cons y l =>
      rw [List.drop_succ_cons, Nat.add_comm k 1, ← Nat.add_assoc]
      exact ih h.2

/-- The items numbered past `p` are numbered from there on. -/
theorem Numbered.past {a p : Nat} {l : List (Nat × α)} (h : Numbered a l) (hp : a ≤ p) :
    Numbered p (l.filter fun x => p ≤ x.1) ∧
      (p ≤ a + l.length → p + (l.filter fun x => p ≤ x.1).length = a + l.length) := by
  induction l generalizing a with
  | nil => exact ⟨trivial, fun hle => by simp at hle ⊢; omega⟩
  | cons y l ih =>
    obtain ⟨hy, hl⟩ := h
    by_cases hpy : p ≤ y.1
    · -- the first item is already past, so nothing is left out
      have hpa : p = a := by omega
      have hall : ∀ {b : Nat} {m : List (Nat × α)}, Numbered b m → p ≤ b →
          m.filter (fun x => p ≤ x.1) = m := by
        intro b m hm
        induction m generalizing b with
        | nil => intro _; rfl
        | cons z m ihm =>
          intro hb
          have hz : p ≤ z.1 := by rw [hm.1]; exact hb
          rw [List.filter_cons_of_pos (by simpa using hz), ihm hm.2 (by omega)]
      have hwhole := hall (m := y :: l) (b := a) ⟨hy, hl⟩ (by omega)
      rw [hwhole, hpa]
      exact ⟨⟨hy, hl⟩, fun _ => rfl⟩
    · rw [List.filter_cons_of_neg (by simpa using hpy)]
      have := ih hl (by omega)
      refine ⟨this.1, fun hle => ?_⟩
      rw [List.length_cons] at hle ⊢
      rw [this.2 (by omega)]
      omega

/-! ## The provider and its cursor -/

/-- `DEFAULT_REPLAY_CAPACITY`. -/
def replayCapacity : Nat := 64

/-- A provider that declared `replay(from: cursor)`. Each item carries the number it was given. -/
structure Source (α : Type) where
  cursor : String
  /-- `_state` and `_reason`: nothing while the provider is open. -/
  ended : Option Terminal
  backlog : List (Nat × α)
  nextSeq : Nat
  /-- `Stream._cursors` at the name. -/
  recorded : Option Int
  /-- The subscriptions of the cursor, the newest first. -/
  subs : List (Subscription (Nat × α))
  /-- History: the numbers of the items taken, over all subscriptions. -/
  history : List Nat
  /-- History: the number the subscription that took the first item resumed at. -/
  origin : Nat

/-- What a consumer declares. The lossy policies are refused beside a cursor. -/
structure Request where
  policy : Policy
  lossless : policy = .error ∨ policy = .block
  capacity : Nat
  capacity_pos : 0 < capacity
  drainMs : Option Nat

namespace Source

/-- A provider opened where an earlier one of the same name may have left a position. -/
def start (cursor : String) (recorded : Option Int) : Source α where
  cursor := cursor
  ended := none
  backlog := []
  nextSeq := 0
  recorded := recorded
  subs := []
  history := []
  origin := 0

/-- `_hold`: the item is numbered, and the backlog keeps the last ones. -/
def hold (s : Source α) (item : α) : Source α :=
  let backlog := s.backlog ++ [(s.nextSeq, item)]
  { s with backlog := backlog.drop (backlog.length - replayCapacity), nextSeq := s.nextSeq + 1 }

/-- `_forward`. A closed subscription has detached and is not asked. -/
def forward (s : Source α) (item : Nat × α) : Bool × Source α :=
  if s.ended.isSome then (false, s)
  else
    (s.subs.all fun sub => sub.closed || (sub.deliver item).1,
      { s with subs := s.subs.map fun sub => (sub.deliver item).2 })

/-- The item is held before it is delivered, whether or not it is accepted. -/
def emit (s : Source α) (item : α) : Bool × Source α :=
  if s.ended.isSome then (false, s)
  else (s.hold item).forward (s.nextSeq, item)

/-- `close` and `fault` of the provider. -/
def finish (s : Source α) (t : Terminal) : Source α :=
  if s.ended.isSome then s
  else { s with ended := some t, subs := s.subs.map fun sub => sub.terminate t }

/-- Where a subscription resumes: the recorded position, or just before the oldest item held. -/
def resumeAt (s : Source α) : Int :=
  match s.recorded with
  | some position => position
  | none =>
    match s.backlog with
    | [] => -1
    | (oldest, _) :: _ => oldest - 1

/-- The provider trimmed past the recorded position. -/
def gap (s : Source α) : Bool :=
  match s.recorded, s.backlog with
  | some position, (oldest, _) :: _ => position + 1 < oldest
  | _, _ => false

/-- The held items past a position. -/
def pending (s : Source α) (position : Int) : List (Nat × α) :=
  s.backlog.filter fun x => position < x.1

/-- The subscription joins the provider's. -/
def join (s : Source α) (r : Request) : Source α :=
  { s with
      subs := .opened r.policy r.capacity r.capacity_pos r.drainMs (some s.resumeAt) :: s.subs
      origin := if s.history = [] then (s.resumeAt + 1).toNat else s.origin }

def forwardAll (s : Source α) (items : List (Nat × α)) : Source α :=
  items.foldl (fun s item => (s.forward item).2) s

/-- `Stream.subscribe` with `replay(from: …)`: a gap is a terminal, otherwise what is held past
the position goes through the provider's own forward path. -/
def subscribe (s : Source α) (r : Request) : Source α :=
  if s.gap then
    let s := s.join r
    { s with subs := s.subs.modify 0 fun sub =>
        sub.terminate (.faulted ("replay gap on cursor " ++ s.cursor)) }
  else (s.join r).forwardAll (s.pending s.resumeAt)

/-- `next` of one subscription. Taking an item records the position. -/
def next (s : Source α) (k : Nat) : Option (Outcome (Nat × α)) × Source α :=
  match s.subs[k]? with
  | none => (none, s)
  | some sub =>
    match sub.next with
    | (.item item, sub') =>
      (some (.item item),
        { s with
            subs := s.subs.set k sub'
            recorded := sub'.cursorPos.or s.recorded
            history := s.history ++ [item.1] })
    | (o, sub') => (some o, { s with subs := s.subs.set k sub' })

end Source

inductive Op (α : Type) where
  | emit (item : α)
  | subscribe (r : Request)
  | next (k : Nat)
  | close (k : Nat)
  /-- `Stream.close(cursor)`. -/
  | closeCursor
  | drainFire (k : Nat)
  | owner (k : Nat) (withdrawn : Bool)
  | finish (t : Terminal)

namespace Source

def step (s : Source α) : Op α → Source α
  | .emit item => (s.emit item).2
  | .subscribe r => s.subscribe r
  | .next k => (s.next k).2
  | .close k => { s with subs := s.subs.modify k Subscription.close }
  | .closeCursor => { s with subs := s.subs.map Subscription.close }
  | .drainFire k => { s with subs := s.subs.modify k Subscription.drainFire }
  | .owner k b => { s with subs := s.subs.modify k fun sub => sub.setOwner b }
  | .finish t => s.finish t

def run (s : Source α) (ops : List (Op α)) : Source α := ops.foldl step s

end Source

/-! ## Clear runs -/

namespace Subscription

/-- The subscription has no item left to hand out and gets none. -/
def Spent (s : Subscription α) : Prop := s.closed = true ∨ (s.terminal.isSome ∧ s.buffer = [])

/-- A delivery would be buffered. -/
def accepts (s : Subscription α) : Prop :=
  s.closed = false ∧ s.terminal = none ∧ s.paused = false ∧ s.buffer.length < s.capacity

end Subscription

/-- The steps under which the two counts stay together: nobody re-subscribes while an earlier
subscription has items to hand out, or at a position another provider's items left, and a `block`
subscription accepts no item after one it refused. -/
def Clear (s : Source α) : Op α → Prop
  | .subscribe _ =>
    (∀ sub ∈ s.subs, sub.Spent) ∧ (s.history = [] → s.recorded = none)
  | .emit _ =>
    ∀ sub ∈ s.subs, sub.policy = .block → sub.accepts →
      sub.cursorPos = some ((s.nextSeq : Int) - sub.buffer.length - 1)
  | _ => True

def ClearRun (s : Source α) : List (Op α) → Prop
  | [] => True
  | op :: ops => Clear s op ∧ ClearRun (s.step op) ops

instance (s : Subscription α) : Decidable s.Spent :=
  inferInstanceAs (Decidable (_ ∨ _ ∧ _))

instance (s : Subscription α) : Decidable s.accepts :=
  inferInstanceAs (Decidable (_ ∧ _ ∧ _ ∧ _))

instance (s : Source α) (op : Op α) : Decidable (Clear s op) :=
  match op with
  | .subscribe _ => inferInstanceAs (Decidable ((∀ sub ∈ s.subs, sub.Spent) ∧ _))
  | .emit _ => inferInstanceAs (Decidable (∀ sub ∈ s.subs, _ → _ → _))
  | .next _ | .close _ | .closeCursor | .drainFire _ | .owner _ _ | .finish _ =>
    inferInstanceAs (Decidable True)

instance decidableClearRun : (s : Source α) → (ops : List (Op α)) → Decidable (ClearRun s ops)
  | _, [] => inferInstanceAs (Decidable True)
  | s, op :: ops =>
    have := decidableClearRun (s.step op) ops
    inferInstanceAs (Decidable (_ ∧ _))

/-! ## Spent subscriptions stay spent -/

namespace Subscription

/-- The deliveries of a replay, one after the other. -/
def deliverAll (s : Subscription α) (items : List α) : Subscription α :=
  items.foldl (fun s item => (s.deliver item).2) s

theorem SameItems.spent {s s' : Subscription α} (h : SameItems s s') (hs : s.Spent) :
    s'.Spent := by
  rcases hs with hc | ⟨ht, hb⟩
  · exact .inl (h.closed.trans hc)
  · exact .inr ⟨h.terminal ▸ ht, h.buffer.trans hb⟩

theorem spent_deliver {s : Subscription α} (hs : s.Spent) (item : α) :
    (s.deliver item).2 = s := by
  have hover : (s.closed || s.terminal.isSome) = true := by
    rcases hs with hc | ⟨ht, -⟩ <;> simp [*]
  simp [deliver, hover]

theorem spent_deliverAll {s : Subscription α} (hs : s.Spent) (items : List α) :
    s.deliverAll items = s := by
  induction items with
  | nil => rfl
  | cons item items ih =>
    show (s.deliver item).2.deliverAll items = s
    rw [spent_deliver hs, ih]

theorem spent_terminate {s : Subscription α} (hs : s.Spent) (t : Terminal) :
    s.terminate t = s := by
  have hover : (s.closed || s.terminal.isSome) = true := by
    rcases hs with hc | ⟨ht, -⟩ <;> simp [*]
  simp [terminate, hover]

theorem spent_close (s : Subscription α) : s.close.Spent := by
  left
  simp only [close]
  split
  · assumption
  · rfl

/-- A spent subscription hands nothing out. -/
theorem spent_next {s s' : Subscription α} {item : α} (hs : s.Spent) :
    s.next ≠ (.item item, s') := by
  intro h
  obtain ⟨rest, live, buffer, -⟩ := next_item h
  rcases hs with hc | ⟨-, hb⟩
  · exact absurd hc (by simp [live])
  · exact absurd hb (by simp [buffer])

end Subscription

/-! ## The two counts together -/

/-- How many items the consumers of the cursor have behind them. -/
def Source.upto (s : Source α) : Nat := s.origin + s.history.length

/-- A live subscription whose count `n` is the number of the next item it hands out. -/
structure Aligned (n : Nat) (sub : Subscription (Nat × α)) : Prop where
  position : sub.cursorPos = some ((n : Int) - 1)
  numbered : Numbered n sub.buffer
  lossless : sub.policy = .error ∨ sub.policy = .block
  /-- Only `block` pauses. -/
  active : sub.policy = .error → sub.paused = false

/-- The provider's next number is the one the buffer waits for. -/
def InStep (n next : Nat) (sub : Subscription (Nat × α)) : Prop :=
  next = n + sub.buffer.length

/-- An `error` subscription is over after its first refusal, so until then it is in step. -/
def Even (n next : Nat) (sub : Subscription (Nat × α)) : Prop :=
  sub.policy = .error → sub.closed = false → sub.terminal = none → InStep n next sub

/-- What a live subscription knows of its provider. -/
structure Served (s : Source α) (sub : Subscription (Nat × α)) : Prop where
  aligned : Aligned s.upto sub
  even : s.ended = none → Even s.upto s.nextSeq sub
  behind : s.upto + sub.buffer.length ≤ s.nextSeq
  /-- Nothing older than the first item is held any more. -/
  origin : ∀ x ∈ s.backlog, s.origin ≤ x.1

/-- What holds of the subscription at place `k`: only the newest hands items out. -/
def Source.Tracked (s : Source α) (k : Nat) (sub : Subscription (Nat × α)) : Prop :=
  sub.Spent ∨ k = 0 ∧ Served s sub

/-- The recorded position and the numbers agree. -/
structure Exact (s : Source α) : Prop where
  held : ∃ oldest, Numbered oldest s.backlog ∧ oldest + s.backlog.length = s.nextSeq
  holds : 0 < s.nextSeq → s.backlog ≠ []
  history : s.history = List.range' s.origin s.history.length
  recorded : s.history ≠ [] → s.recorded = some ((s.upto : Int) - 1)
  behind : s.history ≠ [] → s.upto ≤ s.nextSeq
  origin : s.history ≠ [] → ∀ x ∈ s.backlog, s.origin ≤ x.1
  subs : ∀ k sub, s.subs[k]? = some sub → s.Tracked k sub

theorem exact_start (cursor : String) (recorded : Option Int) :
    Exact (Source.start cursor recorded : Source α) where
  held := ⟨0, trivial, rfl⟩
  holds h := absurd h (Nat.lt_irrefl 0)
  history := rfl
  recorded h := absurd rfl h
  behind h := absurd rfl h
  origin h := absurd rfl h
  subs k sub h := by simp [Source.start] at h

/-! ### One subscription -/

namespace Aligned

variable {n m : Nat} {sub sub' : Subscription (Nat × α)}

theorem same (h : Aligned n sub) (hsame : sub.SameItems sub')
    (hactive : sub.paused = false → sub'.paused = false) : Aligned n sub' where
  position := hsame.cursorPos.trans h.position
  numbered := hsame.buffer.symm ▸ h.numbered
  lossless := hsame.policy.symm ▸ h.lossless
  active he := hactive (h.active (hsame.policy.symm.trans he))

theorem terminate (h : Aligned n sub) (t : Terminal) : Aligned n (sub.terminate t) := by
  simp only [Subscription.terminate]
  split
  · exact h
  · exact ⟨h.position, h.numbered, h.lossless, h.active⟩

/-- A delivery in step keeps the buffer numbered; a refused one leaves the buffer. -/
theorem deliver (h : Aligned n sub) {item : Nat × α}
    (hstep : sub.accepts → InStep n item.1 sub) : Aligned n (sub.deliver item).2 := by
  rcases hd : sub.deliver item with ⟨accepted, sub'⟩
  show Aligned n sub'
  cases Subscription.delivered hd with
  | refused _ => exact h
  | pushed live ended active room =>
    refine ⟨h.position, ?_, h.lossless, h.active⟩
    exact h.numbered.append item.2 (hstep ⟨live, ended, active, room⟩)
  | discarded _ _ policy _ => exact absurd h.lossless (by simp [policy])
  | evicted _ _ policy _ => exact absurd h.lossless (by simp [policy])
  | blocked _ _ _ policy _ =>
    have hsame := Subscription.sameItems_pause sub
    refine ⟨hsame.cursorPos.trans h.position, hsame.buffer.symm ▸ h.numbered,
      hsame.policy.symm ▸ h.lossless, fun he => ?_⟩
    exact absurd (hsame.policy.symm.trans he) (by simp [policy])
  | overflowed _ _ _ _ => exact ⟨h.position, h.numbered, h.lossless, h.active⟩

/-- An `error` subscription that is in step accepts or is over. -/
theorem even_deliver (h : Aligned n sub) {x : α} (heven : Even n m sub) :
    Even n (m + 1) (sub.deliver (m, x)).2 := by
  rcases hd : sub.deliver (m, x) with ⟨accepted, sub'⟩
  show Even n (m + 1) sub'
  cases Subscription.delivered hd with
  | refused hover =>
    intro he hc ht
    rcases hover with h' | h' | h'
    · exact absurd h' (by simp [hc])
    · exact absurd h' (by simp [ht])
    · exact absurd h' (by simp [h.active he])
  | pushed _ _ _ _ =>
    intro he hc ht
    have := heven he hc ht
    simp only [InStep, Subscription.push, List.length_append, List.length_singleton] at this ⊢
    omega
  | discarded _ _ policy _ => exact absurd h.lossless (by simp [policy])
  | evicted _ _ policy _ => exact absurd h.lossless (by simp [policy])
  | blocked _ _ _ policy _ =>
    intro he
    have hpolicy := (Subscription.sameItems_pause sub).policy
    exact absurd (hpolicy.symm.trans he) (by simp [policy])
  | overflowed _ _ _ _ => rintro _ _ ⟨⟩

/-- After a refusal nothing is accepted until the consumer pops. -/
theorem inStep_deliver (h : Aligned n sub) {x : α} (hstep : sub.accepts → InStep n m sub) :
    (sub.deliver (m, x)).2.accepts → InStep n (m + 1) (sub.deliver (m, x)).2 := by
  rcases hd : sub.deliver (m, x) with ⟨accepted, sub'⟩
  show sub'.accepts → InStep n (m + 1) sub'
  cases Subscription.delivered hd with
  | refused hover =>
    rintro ⟨hc, ht, hp, -⟩
    simp [hc, ht, hp] at hover
  | pushed live ended active room =>
    intro _
    have := hstep ⟨live, ended, active, room⟩
    simp only [InStep, Subscription.push, List.length_append, List.length_singleton] at this ⊢
    omega
  | discarded _ _ policy _ => exact absurd h.lossless (by simp [policy])
  | evicted _ _ policy _ => exact absurd h.lossless (by simp [policy])
  | blocked live ended active policy full =>
    rintro ⟨-, -, -, hroom⟩
    have hsame := Subscription.sameItems_pause sub
    rw [hsame.buffer, hsame.capacity] at hroom
    omega
  | overflowed _ _ _ _ => exact fun ha => by cases ha.2.1

/-- A backlog that starts where the buffer ends keeps the counts together, however much of it the
buffer takes. -/
theorem deliverAll {items : List (Nat × α)} (h : Aligned n sub) (hitems : Numbered m items)
    (hstep : sub.accepts → InStep n m sub) (heven : Even n m sub) :
    Aligned n (sub.deliverAll items) ∧ Even n (m + items.length) (sub.deliverAll items) := by
  induction items generalizing sub m with
  | nil => exact ⟨h, heven⟩
  | cons item items ih =>
    obtain ⟨m', x⟩ := item
    obtain ⟨rfl, hitems⟩ := hitems
    have hnext := ih (h.deliver hstep) hitems (h.inStep_deliver hstep) (h.even_deliver heven)
    rw [List.length_cons, Nat.add_comm items.length 1, ← Nat.add_assoc]
    exact hnext

end Aligned

theorem Even.same {n m : Nat} {sub sub' : Subscription (Nat × α)} (h : Even n m sub)
    (hsame : sub.SameItems sub') : Even n m sub' := fun he hc ht => by
  have := h (hsame.policy.symm.trans he) (hsame.closed.symm.trans hc)
    (hsame.terminal.symm.trans ht)
  simp only [InStep, hsame.buffer] at this ⊢
  exact this

/-! ### The provider -/

namespace Source

variable {s : Source α}

/-- One item through the provider's forward path reaches each subscription. -/
theorem forwardAll_eq (items : List (Nat × α)) (hopen : s.ended = none) :
    s.forwardAll items = { s with subs := s.subs.map fun sub => sub.deliverAll items } := by
  induction items generalizing s with
  | nil =>
    show s = { s with subs := s.subs.map id }
    rw [List.map_id]
  | cons item items ih =>
    have hone : (s.forward item).2 =
        { s with subs := s.subs.map fun sub => (sub.deliver item).2 } := by
      simp [forward, hopen]
    show ((s.forward item).2).forwardAll items = _
    rw [hone, ih (by exact hopen)]
    simp only [List.map_map]
    rfl

theorem forwardAll_ended (items : List (Nat × α)) (hended : s.ended.isSome) :
    s.forwardAll items = s := by
  induction items with
  | nil => rfl
  | cons item items ih =>
    have hone : (s.forward item).2 = s := by simp [forward, hended]
    show ((s.forward item).2).forwardAll items = s
    rw [hone, ih]

end Source

namespace Exact

variable {s : Source α}

/-- A change of the subscriptions that keeps each one tracked. -/
theorem withSubs (h : Exact s) {subs : List (Subscription (Nat × α))}
    (hsubs : ∀ k sub, subs[k]? = some sub → s.Tracked k sub) :
    Exact { s with subs := subs } :=
  ⟨h.held, h.holds, h.history, h.recorded, h.behind, h.origin, fun k sub hk =>
    (hsubs k sub hk).imp_right fun ⟨hk, hserved⟩ =>
      ⟨hk, hserved.aligned, hserved.even, hserved.behind, hserved.origin⟩⟩

theorem map (h : Exact s) {f : Subscription (Nat × α) → Subscription (Nat × α)}
    (hf : ∀ k sub, s.Tracked k sub → s.Tracked k (f sub)) :
    Exact { s with subs := s.subs.map f } := by
  refine h.withSubs fun k sub hk => ?_
  rw [List.getElem?_map, Option.map_eq_some_iff] at hk
  obtain ⟨sub₀, hk, rfl⟩ := hk
  exact hf k sub₀ (h.subs k sub₀ hk)

theorem modify (h : Exact s) (i : Nat) {f : Subscription (Nat × α) → Subscription (Nat × α)}
    (hf : ∀ k sub, s.Tracked k sub → s.Tracked k (f sub)) :
    Exact { s with subs := s.subs.modify i f } := by
  refine h.withSubs fun k sub hk => ?_
  rw [List.getElem?_modify, Option.map_eq_map, Option.map_eq_some_iff] at hk
  obtain ⟨sub₀, hk, rfl⟩ := hk
  split
  · exact hf k sub₀ (h.subs k sub₀ hk)
  · exact h.subs k sub₀ hk

theorem tracked_same {k : Nat} {sub sub' : Subscription (Nat × α)} (h : s.Tracked k sub)
    (hsame : sub.SameItems sub') (hactive : sub.paused = false → sub'.paused = false) :
    s.Tracked k sub' := by
  rcases h with hspent | ⟨hk, hserved⟩
  · exact .inl (hsame.spent hspent)
  · exact .inr ⟨hk, hserved.aligned.same hsame hactive, fun ho => (hserved.even ho).same hsame,
      hsame.buffer ▸ hserved.behind, hserved.origin⟩

/-- One emission: the item is held, and each subscription is in step or does not take it. -/
theorem emit (h : Exact s) {item : α} (hclear : Clear s (.emit item)) :
    Exact (s.emit item).2 := by
  by_cases hopen : s.ended = none
  swap
  · have hended : s.ended.isSome := Option.isSome_iff_ne_none.2 hopen
    have hsame : (s.emit item).2 = s := by simp [Source.emit, hended]
    rw [hsame]
    exact h
  have hemit : (s.emit item).2 =
      { s.hold item with subs := s.subs.map fun sub => (sub.deliver (s.nextSeq, item)).2 } := by
    simp [Source.emit, Source.forward, Source.hold, hopen]
  rw [hemit]
  obtain ⟨oldest, hnum, hlen⟩ := h.held
  have happ := hnum.append item hlen.symm
  have horigin : (∀ x ∈ s.backlog, s.origin ≤ x.1) → s.origin ≤ s.nextSeq →
      ∀ x ∈ (s.hold item).backlog, s.origin ≤ x.1 := by
    intro hall hle x hx
    rcases List.mem_append.1 (List.mem_of_mem_drop hx) with hx | hx
    · exact hall x hx
    · rw [List.mem_singleton.1 hx]
      exact hle
  constructor
  case held =>
    refine ⟨_, happ.drop _, ?_⟩
    simp only [Source.hold, List.length_drop, List.length_append, List.length_singleton]
    omega
  case holds =>
    intro _ hnil
    have := congrArg List.length hnil
    simp only [Source.hold, List.length_drop, List.length_append, List.length_singleton,
      List.length_nil, replayCapacity] at this
    omega
  case history => exact h.history
  case recorded => exact h.recorded
  case behind => exact fun hh => Nat.le_succ_of_le (h.behind hh)
  case origin =>
    exact fun hh => horigin (h.origin hh) (Nat.le_trans (Nat.le_add_right _ _) (h.behind hh))
  case subs =>
    intro k sub' hk
    rw [List.getElem?_map, Option.map_eq_some_iff] at hk
    obtain ⟨sub, hk, rfl⟩ := hk
    rcases h.subs k sub hk with hspent | ⟨rfl, haligned, heven, hbehind, horig⟩
    · left
      rw [Subscription.spent_deliver hspent]
      exact hspent
    -- an `error` subscription is in step by itself, a `block` one by the step's condition
    have hstep : sub.accepts → InStep s.upto s.nextSeq sub := by
      intro ha
      rcases haligned.lossless with he | hb
      · exact heven hopen he ha.1 ha.2.1
      · have hpos := hclear sub (List.mem_of_getElem? hk) hb ha
        rw [haligned.position, Option.some.injEq] at hpos
        show s.nextSeq = s.upto + sub.buffer.length
        omega
    have hle : s.origin ≤ s.upto := Nat.le_add_right _ _
    refine .inr ⟨rfl, haligned.deliver hstep, fun _ => haligned.even_deliver (heven hopen), ?_,
      horigin horig (by omega)⟩
    have := sub.length_deliver (s.nextSeq, item)
    show s.upto + _ ≤ s.nextSeq + 1
    omega

theorem finish (h : Exact s) (t : Terminal) : Exact (s.finish t) := by
  simp only [Source.finish]
  split
  · exact h
  refine ⟨h.held, h.holds, h.history, h.recorded, h.behind, h.origin, fun k sub' hk => ?_⟩
  rw [List.getElem?_map, Option.map_eq_some_iff] at hk
  obtain ⟨sub, hk, rfl⟩ := hk
  rcases h.subs k sub hk with hspent | ⟨rfl, hserved⟩
  · left
    rw [Subscription.spent_terminate hspent]
    exact hspent
  · exact .inr ⟨rfl, hserved.aligned.terminate t, nofun,
      (sub.buffer_terminate t).symm ▸ hserved.behind, hserved.origin⟩

/-- The item a `next` returns is the one the count names. -/
theorem taken (h : Exact s) {k : Nat} {sub sub' : Subscription (Nat × α)} {item : Nat × α}
    (hk : s.subs[k]? = some sub) (hnext : sub.next = (.item item, sub')) :
    k = 0 ∧ Served s sub ∧ item.1 = s.upto ∧ sub'.cursorPos = some (item.1 : Int) ∧
      Aligned (s.upto + 1) sub' ∧ (s.ended = none → Even (s.upto + 1) s.nextSeq sub') ∧
      s.upto + 1 + sub'.buffer.length ≤ s.nextSeq := by
  rcases h.subs k sub hk with hspent | ⟨hk0, hserved⟩
  · exact absurd hnext (Subscription.spent_next hspent)
  have haligned := hserved.aligned
  obtain ⟨rest, live, buffer, hsame, hactive⟩ := Subscription.next_item hnext
  have hnum := haligned.numbered
  rw [buffer] at hnum
  have hpos : sub'.cursorPos = some (s.upto : Int) := by
    rw [hsame.cursorPos]
    simp [Subscription.pop, haligned.position]
  have hlen : sub.buffer.length = sub'.buffer.length + 1 := by
    rw [hsame.buffer, buffer]
    rfl
  refine ⟨hk0, hserved, hnum.1, hnum.1 ▸ hpos, ⟨?_, ?_, ?_, ?_⟩, fun ho he hc ht => ?_, ?_⟩
  · rw [hpos]
    simp
  · rw [hsame.buffer]
    exact hnum.2
  · rw [hsame.policy]
    exact haligned.lossless
  · exact fun he => hactive (haligned.active (hsame.policy.symm.trans he))
  · have := hserved.even ho (hsame.policy.symm.trans he) live (hsame.terminal.symm.trans ht)
    simp only [InStep] at this ⊢
    omega
  · have := hserved.behind
    omega

theorem next (h : Exact s) (k : Nat) : Exact (s.next k).2 := by
  simp only [Source.next]
  split
  · exact h
  rename_i sub hk
  split
  · rename_i item sub' hnext
    obtain ⟨rfl, hserved, hnum, hpos, haligned, heven, hbehind⟩ := h.taken hk hnext
    have hlen : s.origin + (s.history ++ [item.1]).length = s.upto + 1 := by
      rw [List.length_append, List.length_singleton, ← Nat.add_assoc]
      rfl
    constructor
    case held => exact h.held
    case holds => exact h.holds
    case history =>
      show s.history ++ [item.1] = List.range' s.origin (s.history ++ [item.1]).length
      rw [List.length_append, List.length_singleton, List.range'_concat, ← h.history, hnum,
        Nat.one_mul]
      rfl
    case recorded =>
      intro _
      show sub'.cursorPos.or s.recorded = some (((s.origin + (s.history ++ [item.1]).length : Nat)
        : Int) - 1)
      rw [hpos, hlen, hnum]
      simp
    case behind =>
      intro _
      show s.origin + (s.history ++ [item.1]).length ≤ s.nextSeq
      omega
    case origin => exact fun _ => hserved.origin
    case subs =>
      intro j sub₁ hj
      replace hj : (s.subs.set 0 sub')[j]? = some sub₁ := hj
      rw [List.getElem?_set] at hj
      split at hj
      · rename_i hj0
        obtain ⟨-, rfl⟩ : 0 < s.subs.length ∧ sub' = sub₁ := by simpa using hj
        rw [← hlen] at haligned heven hbehind
        exact .inr ⟨hj0.symm, haligned, heven, hbehind, hserved.origin⟩
      · rename_i hj0
        rcases h.subs j sub₁ hj with hspent | ⟨hj0', -⟩
        · exact .inl hspent
        · exact absurd hj0'.symm hj0
  · rename_i o sub' hne hnext
    obtain rfl := Subscription.next_other hnext fun item ho => hne item ho
    refine h.withSubs fun j sub₁ hj => ?_
    rw [List.getElem?_set] at hj
    split at hj
    · rename_i hkj
      refine h.subs j sub₁ ?_
      rw [← hkj, hk]
      split at hj
      · exact hj
      · exact nomatch hj
    · exact h.subs j sub₁ hj

/-- The oldest item held bounds where a fresh cursor resumes. -/
theorem origin_join (h : Exact s) (r : Request) (hfresh : s.history = [] → s.recorded = none) :
    s.resumeAt = ((s.join r).upto : Int) - 1 ∧ (s.join r).upto ≤ s.nextSeq ∧
      ∀ x ∈ s.backlog, (s.join r).origin ≤ x.1 := by
  by_cases hh : s.history = []
  swap
  · have hrec := h.recorded hh
    have hjoin : (s.join r).origin = s.origin := by simp only [Source.join, if_neg hh]
    refine ⟨?_, ?_, ?_⟩
    · simp only [Source.resumeAt, hrec, Source.upto, hjoin]
      rfl
    · simp only [Source.upto, hjoin]
      exact h.behind hh
    · rw [hjoin]
      exact h.origin hh
  have hr := hfresh hh
  obtain ⟨oldest, hnum, hlen⟩ := h.held
  rcases hb : s.backlog with - | ⟨⟨o, x⟩, rest⟩
  · have hpos : s.resumeAt = -1 := by simp [Source.resumeAt, hr, hb]
    have hupto : (s.join r).upto = 0 := by simp [Source.upto, Source.join, hh, hpos]
    refine ⟨?_, ?_, fun _ hx => nomatch hx⟩
    · rw [hpos, hupto]
      rfl
    · rw [hupto]
      exact Nat.zero_le _
  · have ho : o = oldest := by
      rw [hb] at hnum
      exact hnum.1
    have hpos : s.resumeAt = o - 1 := by simp [Source.resumeAt, hr, hb]
    have hjoin : (s.join r).origin = o := by simp [Source.join, hh, hpos]
    have hupto : (s.join r).upto = o := by
      simp only [Source.upto, hjoin]
      simp [Source.join, hh]
    rw [← hb, hjoin, hupto]
    subst ho
    exact ⟨hpos, by omega, hnum.le⟩

/-- What is replayed starts at the number the subscription waits for and ends at the provider's
last. -/
theorem pending_join (h : Exact s) (r : Request) (hgap : s.gap = false)
    (hfresh : s.history = [] → s.recorded = none) :
    Numbered (s.join r).upto (s.pending s.resumeAt) ∧
      (s.join r).upto + (s.pending s.resumeAt).length = s.nextSeq := by
  obtain ⟨hpos, hbehind, -⟩ := h.origin_join r hfresh
  generalize (s.join r).upto = n at hpos hbehind ⊢
  have hpending : s.pending s.resumeAt = s.backlog.filter fun x => n ≤ x.1 := by
    refine List.filter_congr fun x _ => ?_
    rw [hpos, decide_eq_decide]
    omega
  rw [hpending]
  obtain ⟨oldest, hnum, hlen⟩ := h.held
  have hle : oldest ≤ n := by
    rcases hb : s.backlog with - | ⟨⟨o, x⟩, rest⟩
    · -- nothing is held, so nothing was emitted
      have hzero : s.nextSeq = 0 := by
        rcases Nat.eq_zero_or_pos s.nextSeq with hz | hz
        · exact hz
        · exact absurd hb (h.holds hz)
      omega
    · have ho : o = oldest := by
        rw [hb] at hnum
        exact hnum.1
      rcases hr : s.recorded with - | position
      · have : s.resumeAt = o - 1 := by simp [Source.resumeAt, hr, hb]
        omega
      · have h1 : ¬ position + 1 < (o : Int) := by simpa [Source.gap, hr, hb] using hgap
        have h2 : s.resumeAt = position := by simp [Source.resumeAt, hr]
        omega
  obtain ⟨hfrom, hto⟩ := hnum.past hle
  exact ⟨hfrom, hlen ▸ hto (hlen ▸ hbehind)⟩

/-- What is buffered of a replay is part of it. -/
theorem length_deliverAll (sub : Subscription α) (items : List α) :
    (sub.deliverAll items).buffer.length ≤ sub.buffer.length + items.length := by
  induction items generalizing sub with
  | nil => exact Nat.le_refl _
  | cons item items ih =>
    have h1 := ih (sub.deliver item).2
    have h2 := sub.length_deliver item
    show ((sub.deliver item).2.deliverAll items).buffer.length ≤ _
    rw [List.length_cons]
    omega

/-- A re-subscription once the earlier ones are spent. -/
theorem subscribe (h : Exact s) {r : Request} (hclear : Clear s (.subscribe r)) :
    Exact (s.subscribe r) := by
  obtain ⟨hspent, hfresh⟩ := hclear
  obtain ⟨hpos, hbehind, horigin⟩ := h.origin_join r hfresh
  -- the earlier subscriptions sit one place further back, and are spent
  have hold : ∀ (k : Nat) (sub : Subscription (Nat × α)), s.subs[k]? = some sub → sub.Spent :=
    fun k sub hk => hspent sub (List.mem_of_getElem? hk)
  have haligned : Aligned (s.join r).upto (Subscription.opened r.policy r.capacity
      r.capacity_pos r.drainMs (some s.resumeAt) : Subscription (Nat × α)) :=
    ⟨congrArg some hpos, trivial, r.lossless, fun _ => rfl⟩
  have hjoin : ∀ subs : List (Subscription (Nat × α)),
      (∀ k sub, subs[k]? = some sub → Source.Tracked { s.join r with subs := subs } k sub) →
      Exact { s.join r with subs := subs } := by
    intro subs hsubs
    refine ⟨h.held, h.holds, ?_, fun hh => ?_, fun _ => hbehind, fun _ => horigin, hsubs⟩
    · by_cases hh : s.history = []
      · simp [Source.join, hh]
      · simp only [Source.join, if_neg hh]
        exact h.history
    · replace hh : s.history ≠ [] := hh
      show s.recorded = some (((s.join r).upto : Int) - 1)
      rw [← hpos]
      simp [Source.resumeAt, h.recorded hh]
  simp only [Source.subscribe]
  cases hgap : s.gap with
  | true =>
    rw [if_pos rfl]
    refine hjoin _ fun k sub hk => .inl ?_
    cases k with
    | zero =>
      cases hk
      exact .inr ⟨rfl, rfl⟩
    | succ k => exact hold k sub (by simpa [Source.join] using hk)
  | false =>
    rw [if_neg Bool.false_ne_true]
    rcases he : s.ended with - | t
    · rw [Source.forwardAll_eq _ (show (s.join r).ended = none from he)]
      obtain ⟨hnum, hlen⟩ := h.pending_join r hgap hfresh
      have hstep : InStep (s.join r).upto (s.join r).upto (Subscription.opened r.policy r.capacity
          r.capacity_pos r.drainMs (some s.resumeAt) : Subscription (Nat × α)) := rfl
      have hall := haligned.deliverAll hnum (fun _ => hstep) (fun _ _ _ => hstep)
      rw [hlen] at hall
      refine hjoin _ fun k sub hk => ?_
      cases k with
      | zero =>
        cases hk
        have hlen' := length_deliverAll (Subscription.opened r.policy r.capacity
          r.capacity_pos r.drainMs (some s.resumeAt)) (s.pending s.resumeAt)
        refine .inr ⟨rfl, hall.1, fun _ => hall.2, ?_, horigin⟩
        refine Nat.le_trans (Nat.add_le_add_left hlen' _) (Nat.le_of_eq ?_)
        show (s.join r).upto + (0 + _) = s.nextSeq
        rw [Nat.zero_add]
        exact hlen
      | succ k =>
        obtain ⟨sub₀, hk₀, rfl⟩ : ∃ sub₀, s.subs[k]? = some sub₀ ∧
            sub₀.deliverAll (s.pending s.resumeAt) = sub := by
          simpa [Source.join, Option.map_eq_some_iff] using hk
        left
        rw [Subscription.spent_deliverAll (hold k sub₀ hk₀)]
        exact hold k sub₀ hk₀
    · rw [Source.forwardAll_ended _ (show (s.join r).ended.isSome by simp [Source.join, he])]
      refine hjoin (s.join r).subs fun k sub hk => ?_
      cases k with
      | zero =>
        cases hk
        exact .inr ⟨rfl, haligned, fun ho => absurd (he.symm.trans ho) nofun, hbehind, horigin⟩
      | succ k => exact .inl (hold k sub (by simpa [Source.join] using hk))

/-- Each step of a clear run keeps the two counts together. -/
theorem step (h : Exact s) {op : Op α} (hclear : Clear s op) : Exact (s.step op) := by
  cases op with
  | emit item => exact h.emit hclear
  | subscribe r => exact h.subscribe hclear
  | next k => exact h.next k
  | close k => exact h.modify k fun _ sub _ => .inl sub.spent_close
  | closeCursor => exact h.map fun _ sub _ => .inl sub.spent_close
  | drainFire k =>
    exact h.modify k fun _ sub ht =>
      tracked_same ht sub.sameItems_drainFire Subscription.paused_drainFire
  | owner k b =>
    refine h.modify k fun _ sub ht => ?_
    rcases ht with hspent | ⟨hk, haligned, heven, hbehind, horigin⟩
    · exact .inl hspent
    · exact .inr ⟨hk, ⟨haligned.position, haligned.numbered, haligned.lossless,
        haligned.active⟩, heven, hbehind, horigin⟩
  | finish t => exact h.finish t

theorem run (h : Exact s) {ops : List (Op α)} (hclear : ClearRun s ops) : Exact (s.run ops) := by
  induction ops generalizing s with
  | nil => exact h
  | cons op ops ih => exact ih (h.step hclear.1) hclear.2

/-- The item a `next` returns, over the whole provider. -/
theorem next_item (h : Exact s) {k : Nat} {item : Nat × α} {s' : Source α}
    (hn : s.next k = (some (.item item), s')) :
    s'.recorded = some (item.1 : Int) ∧ s'.history = s.history ++ [item.1] := by
  simp only [Source.next] at hn
  split at hn
  · exact nomatch hn
  rename_i sub hk
  split at hn
  · rename_i item' sub' hnext
    obtain ⟨hitem, rfl⟩ := Prod.mk.inj hn
    cases hitem
    obtain ⟨-, -, -, hpos, -⟩ := h.taken hk hnext
    refine ⟨?_, rfl⟩
    show sub'.cursorPos.or s.recorded = _
    rw [hpos]
    rfl
  · rename_i o sub' hne _
    obtain ⟨hitem, -⟩ := Prod.mk.inj hn
    exact absurd (Option.some.inj hitem) (hne item)

/-- A held item numbered below one that was taken was taken itself. -/
theorem none_skipped (h : Exact s) {x : Nat × α} (hx : x ∈ s.backlog) {n : Nat}
    (hn : n ∈ s.history) (hle : x.1 ≤ n) : x.1 ∈ s.history := by
  have hle' := h.origin (List.ne_nil_of_mem hn) x hx
  rw [h.history, List.mem_range'_1] at hn ⊢
  omega

end Exact

/-- **In a clear run the recorded position is the number of the item taken last, and the items
taken are numbered consecutively**, over all the subscriptions of the cursor: no number comes
twice, and no held one below a taken one is left out. -/
theorem durable_cursor (cursor : String) (recorded : Option Int) (ops : List (Op α))
    (hclear : ClearRun (Source.start cursor recorded) ops) :
    let s := (Source.start cursor recorded).run ops
    s.history = List.range' s.origin s.history.length ∧
      (∀ x ∈ s.backlog, ∀ n ∈ s.history, x.1 ≤ n → x.1 ∈ s.history) ∧
      ∀ k item s', s.next k = (some (.item item), s') →
        s'.recorded = some (item.1 : Int) ∧ s'.history = s.history ++ [item.1] ∧
          s'.history = List.range' s'.origin s'.history.length := by
  have h := (exact_start cursor recorded).run hclear
  refine ⟨h.history, fun x hx n hn hle => h.none_skipped hx hn hle, fun k item s' hn => ?_⟩
  obtain ⟨hrec, hhist⟩ := h.next_item hn
  have hs' := h.next k
  rw [hn] at hs'
  exact ⟨hrec, hhist, hs'.history⟩

/-- Two items, a restart of the consumer after the first, and the second resumed. -/
def restarted : List (Op Char) :=
  [.subscribe ⟨.error, .inl rfl, 2, by decide, none⟩, .emit 'a', .emit 'b', .next 0, .close 0,
    .subscribe ⟨.block, .inr rfl, 2, by decide, some 5⟩]

theorem durable_cursor_restarted :
    ClearRun (Source.start "orders" none) restarted ∧
      (((Source.start "orders" none).run restarted).next 0).2.recorded = some 1 := by
  have hclear : ClearRun (Source.start "orders" none) restarted := by decide
  refine ⟨hclear, ?_⟩
  obtain ⟨-, -, hnext⟩ := durable_cursor "orders" none restarted hclear
  exact (hnext 0 (1, 'b') _ (Prod.ext (by decide) rfl)).1

/-- A `block` subscription of one item: the second emission is refused and still takes a number,
so the third item is recorded under the second's, and a later subscription gets it again. -/
theorem durable_cursor_refused :
    let one : Request := ⟨.block, .inr rfl, 1, by decide, none⟩
    let s : Source Char := (Source.start "orders" none).run
      [.subscribe one, .emit 'a', .emit 'b', .next 0, .emit 'c']
    (s.next 0).1 = some (.item (2, 'c')) ∧ (s.next 0).2.recorded = some 1 ∧
      ((s.run [.next 0, .close 0, .subscribe one]).next 0).2.history = [0, 2, 2] := by
  decide

end Revl.Stream
