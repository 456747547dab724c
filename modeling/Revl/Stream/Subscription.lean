import Mathlib

/-!
# A stream subscription

A provider pushes items into the bounded buffer of a subscription and its one consumer pops them.
What a full buffer does is the declared policy; a provider that ends leaves a terminal.

- `Subscription`: buffer, terminal, cancel token, `block` pause and drain window.
- `deliver`, `terminate`, `next`, `close`, `drainFire`: what provider, consumer and clock do to it.
- `Sound`: the buffer is within its capacity, and what was kept is what was taken and what is
  still buffered, in order.
- `drain_terminal`: **with a terminal, repeated `next` returns the buffer in order and then the
  terminal for ever**.
-/

namespace Revl.Stream

/-- What a full buffer does with an item. -/
inductive Policy where
  | error
  | dropNewest
  | dropOldest
  | block
  deriving DecidableEq

inductive Terminal where
  | closed
  | faulted (reason : String)
  deriving DecidableEq

/-- What one `next` comes to. A parked `next` waits for a wake event. -/
inductive Outcome (α : Type) where
  | item (a : α)
  | closed
  | faulted (reason : String)
  | parked
  deriving DecidableEq

/-- `next` on a drained subscription: `Closed` is returned, `Faulted` is raised. -/
def Terminal.outcome {α : Type} : Terminal → Outcome α
  | .closed => .closed
  | .faulted reason => .faulted (if reason = "" then "faulted" else reason)

/-- A single-consumer subscription. A declared buffer holds at least one item. -/
structure Subscription (α : Type) where
  policy : Policy
  capacity : Nat
  capacity_pos : 0 < capacity
  drainMs : Option Nat
  buffer : List α
  terminal : Option Terminal
  /-- The cancel token. -/
  closed : Bool
  /-- The owning activation is no longer live. -/
  withdrawn : Bool
  paused : Bool
  /-- A drain window is scheduled on the clock. -/
  armed : Bool
  /-- The position of the durable cursor it advances, if it resumes one. -/
  cursorPos : Option Int
  /-- History: the items put into the buffer and not evicted, in order. -/
  kept : List α
  /-- History: the items `next` has returned, in order. -/
  taken : List α
  deriving DecidableEq

namespace Subscription

variable {α : Type}

/-- A new subscription. -/
def opened (policy : Policy) (capacity : Nat) (capacity_pos : 0 < capacity)
    (drainMs : Option Nat) (cursorPos : Option Int) : Subscription α where
  policy := policy
  capacity := capacity
  capacity_pos := capacity_pos
  drainMs := drainMs
  buffer := []
  terminal := none
  closed := false
  withdrawn := false
  paused := false
  armed := false
  cursorPos := cursorPos
  kept := []
  taken := []

/-- `_buffer.append`. -/
def push (s : Subscription α) (item : α) : Subscription α :=
  { s with buffer := s.buffer ++ [item], kept := s.kept ++ [item] }

/-- `_buffer.pop(0)` on the provider's side: the oldest item no consumer took is discarded. -/
def evict (s : Subscription α) : Subscription α :=
  { s with buffer := s.buffer.tail, kept := s.kept.eraseIdx s.taken.length }

def armDrain (s : Subscription α) : Subscription α := { s with armed := true }

def pause (s : Subscription α) : Subscription α :=
  if s.paused || s.closed then s
  else
    let s := { s with paused := true }
    if s.drainMs.isSome then s.armDrain else s

def cancelDrain (s : Subscription α) : Subscription α := { s with armed := false }

def resume (s : Subscription α) : Subscription α := { s with paused := false }.cancelDrain

/-- Buffer one item under the declared policy. The flag tells the provider whether it was
accepted. -/
def deliver (s : Subscription α) (item : α) : Bool × Subscription α :=
  if s.closed || s.terminal.isSome then (false, s)
  else if s.paused then (false, s)
  else if s.buffer.length < s.capacity then (true, s.push item)
  else match s.policy with
    | .dropNewest => (true, s)
    | .dropOldest => (true, s.evict.push item)
    | .block => (false, s.pause)
    | .error => (false, { s with terminal := some (.faulted "overflow") })

/-- One firing of the drain window. -/
def drainFire (s : Subscription α) : Subscription α :=
  if s.armed then
    let s := { s with armed := false }
    if s.closed || !s.paused then s
    else if s.buffer.length < s.capacity then s.resume
    else s.armDrain
  else s

/-- The consumer drained an item. With a drain window only the clock resumes the provider. -/
def maybeResume (s : Subscription α) : Subscription α :=
  if !s.paused || s.closed then s
  else if s.capacity ≤ s.buffer.length then s
  else if s.drainMs.isNone then s.resume
  else s

def terminate (s : Subscription α) (t : Terminal) : Subscription α :=
  if s.closed || s.terminal.isSome then s else { s with terminal := some t }

/-- `_buffer.pop(0)` on the consumer's side. A durable cursor advances on consumption. -/
def pop (s : Subscription α) (item : α) (rest : List α) : Subscription α :=
  { s with
      buffer := rest
      cursorPos := s.cursorPos.map (· + 1)
      taken := s.taken ++ [item] }

/-- One reading of the ladder of `next`: the token or a withdrawn owner, then an item, then a
terminal. -/
def next (s : Subscription α) : Outcome α × Subscription α :=
  if s.closed || s.withdrawn then (.closed, s)
  else match s.buffer with
    | item :: rest => (.item item, (s.pop item rest).maybeResume)
    | [] =>
      match s.terminal with
      | some t => (t.outcome, s)
      | none => (.parked, s)

/-- The bracket inverse. What is still buffered is discarded. -/
def close (s : Subscription α) : Subscription α :=
  if s.closed then s
  else { { s with closed := true }.cancelDrain with buffer := [] }

/-- The owner's state is read by every `next`. -/
def setOwner (s : Subscription α) (withdrawn : Bool) : Subscription α :=
  { s with withdrawn := withdrawn }

/-! ## What each operation leaves alone -/

/-- `s'` differs from `s` at most in the pause and the clock. -/
structure SameItems (s s' : Subscription α) : Prop where
  policy : s'.policy = s.policy
  capacity : s'.capacity = s.capacity
  buffer : s'.buffer = s.buffer
  terminal : s'.terminal = s.terminal
  closed : s'.closed = s.closed
  withdrawn : s'.withdrawn = s.withdrawn
  cursorPos : s'.cursorPos = s.cursorPos
  kept : s'.kept = s.kept
  taken : s'.taken = s.taken

theorem SameItems.refl (s : Subscription α) : SameItems s s := by constructor <;> rfl

theorem sameItems_pause (s : Subscription α) : SameItems s s.pause := by
  simp only [pause]
  split
  · exact .refl s
  · split <;> constructor <;> rfl

theorem sameItems_maybeResume (s : Subscription α) : SameItems s s.maybeResume := by
  simp only [maybeResume]
  split
  · exact .refl s
  · split
    · exact .refl s
    · split
      · constructor <;> rfl
      · exact .refl s

theorem sameItems_drainFire (s : Subscription α) : SameItems s s.drainFire := by
  simp only [drainFire]
  split
  · split
    · constructor <;> rfl
    · split <;> constructor <;> rfl
  · exact .refl s

/-- Only the `block` policy pauses. -/
theorem paused_maybeResume {s : Subscription α} (h : s.paused = false) :
    s.maybeResume.paused = false := by
  simp [maybeResume, h]

theorem paused_drainFire {s : Subscription α} (h : s.paused = false) :
    s.drainFire.paused = false := by
  simp only [drainFire, h]
  split <;> simp [h]

/-! ## What a delivery and a `next` come to -/

/-- What one delivery does to a subscription. -/
inductive Delivered (s : Subscription α) (item : α) : Bool → Subscription α → Prop where
  /-- A subscription that is over or paused refuses. -/
  | refused (h : s.closed = true ∨ s.terminal.isSome ∨ s.paused = true) :
      Delivered s item false s
  | pushed (live : s.closed = false) (open_ : s.terminal = none) (active : s.paused = false)
      (room : s.buffer.length < s.capacity) : Delivered s item true (s.push item)
  | discarded (live : s.closed = false) (open_ : s.terminal = none)
      (policy : s.policy = .dropNewest) (full : s.capacity ≤ s.buffer.length) :
      Delivered s item true s
  | evicted (live : s.closed = false) (open_ : s.terminal = none)
      (policy : s.policy = .dropOldest) (full : s.capacity ≤ s.buffer.length) :
      Delivered s item true (s.evict.push item)
  | blocked (live : s.closed = false) (open_ : s.terminal = none) (active : s.paused = false)
      (policy : s.policy = .block) (full : s.capacity ≤ s.buffer.length) :
      Delivered s item false s.pause
  | overflowed (live : s.closed = false) (open_ : s.terminal = none)
      (policy : s.policy = .error) (full : s.capacity ≤ s.buffer.length) :
      Delivered s item false { s with terminal := some (.faulted "overflow") }

theorem deliver_cases (s : Subscription α) (item : α) :
    Delivered s item (s.deliver item).1 (s.deliver item).2 := by
  simp only [deliver]
  by_cases hover : (s.closed || s.terminal.isSome) = true
  · rw [if_pos hover]
    simp only [Bool.or_eq_true] at hover
    exact .refused (hover.elim .inl fun h => .inr (.inl h))
  rw [if_neg hover]
  simp only [Bool.or_eq_true, not_or, Bool.not_eq_true, Option.isSome_eq_false_iff,
    Option.isNone_iff_eq_none] at hover
  obtain ⟨live, ended⟩ := hover
  by_cases hpaused : s.paused = true
  · rw [if_pos hpaused]
    exact .refused (.inr (.inr hpaused))
  rw [if_neg hpaused]
  have active := Bool.eq_false_iff.2 hpaused
  by_cases room : s.buffer.length < s.capacity
  · rw [if_pos room]
    exact .pushed live ended active room
  rw [if_neg room]
  have full := Nat.le_of_not_lt room
  split
  case h_1 policy => exact .discarded live ended policy full
  case h_2 policy => exact .evicted live ended policy full
  case h_3 policy => exact .blocked live ended active policy full
  case h_4 policy => exact .overflowed live ended policy full

theorem delivered {s s' : Subscription α} {item : α} {accepted : Bool}
    (h : s.deliver item = (accepted, s')) : Delivered s item accepted s' := by
  have hcases := deliver_cases s item
  rwa [h] at hcases

/-- What one `next` does to a subscription. -/
inductive Taken (s : Subscription α) : Outcome α → Subscription α → Prop where
  | finished (h : s.closed = true ∨ s.withdrawn = true) : Taken s .closed s
  | popped (live : s.closed = false) (owned : s.withdrawn = false) {item : α} {rest : List α}
      (buffer : s.buffer = item :: rest) :
      Taken s (.item item) (s.pop item rest).maybeResume
  | ended (live : s.closed = false) (owned : s.withdrawn = false) (buffer : s.buffer = [])
      {t : Terminal} (terminal : s.terminal = some t) : Taken s t.outcome s
  | parked (live : s.closed = false) (owned : s.withdrawn = false) (buffer : s.buffer = [])
      (terminal : s.terminal = none) : Taken s .parked s

theorem next_cases (s : Subscription α) : Taken s s.next.1 s.next.2 := by
  simp only [next]
  by_cases hover : (s.closed || s.withdrawn) = true
  · rw [if_pos hover]
    simp only [Bool.or_eq_true] at hover
    exact .finished hover
  rw [if_neg hover]
  simp only [Bool.or_eq_true, not_or, Bool.not_eq_true] at hover
  obtain ⟨live, owned⟩ := hover
  split
  case h_1 item rest buffer => exact .popped live owned buffer
  case h_2 buffer =>
    split
    case h_1 t terminal => exact .ended live owned buffer terminal
    case h_2 terminal => exact .parked live owned buffer terminal

theorem nexted {s s' : Subscription α} {o : Outcome α} (h : s.next = (o, s')) :
    Taken s o s' := by
  have hcases := next_cases s
  rwa [h] at hcases

/-- A `next` that returns an item pops the head of the buffer. -/
theorem next_item {s s' : Subscription α} {item : α} (h : s.next = (.item item, s')) :
    ∃ rest, s.closed = false ∧ s.buffer = item :: rest ∧ SameItems (s.pop item rest) s' ∧
      (s.paused = false → s'.paused = false) := by
  have ht := nexted h
  generalize ho : Outcome.item item = o at ht
  cases ht with
  | finished _ => exact nomatch ho
  | parked _ _ _ _ => exact nomatch ho
  | ended _ _ _ _ =>
    rename_i t _
    cases t <;> exact nomatch ho
  | popped live _ buffer =>
    cases ho
    exact ⟨_, live, buffer, sameItems_maybeResume _,
      fun hp => paused_maybeResume (s := s.pop item _) hp⟩

/-- A `next` that returns no item changes nothing. -/
theorem next_other {s s' : Subscription α} {o : Outcome α} (h : s.next = (o, s'))
    (ho : ∀ item, o ≠ .item item) : s' = s := by
  cases nexted h with
  | finished _ => rfl
  | parked _ _ _ _ => rfl
  | ended _ _ _ _ => rfl
  | popped _ _ _ => exact absurd rfl (ho _)

theorem buffer_terminate (s : Subscription α) (t : Terminal) :
    (s.terminate t).buffer = s.buffer := by
  simp only [terminate]
  split <;> rfl

/-- A delivery buffers at most one item. -/
theorem length_deliver (s : Subscription α) (item : α) :
    (s.deliver item).2.buffer.length ≤ s.buffer.length + 1 := by
  rcases hd : s.deliver item with ⟨accepted, s'⟩
  show s'.buffer.length ≤ s.buffer.length + 1
  cases delivered hd with
  | refused _ => exact Nat.le_succ _
  | discarded _ _ _ _ => exact Nat.le_succ _
  | overflowed _ _ _ _ => exact Nat.le_succ _
  | blocked _ _ _ _ _ =>
    rw [(sameItems_pause s).buffer]
    exact Nat.le_succ _
  | pushed _ _ _ _ => simp [push]
  | evicted _ _ _ _ =>
    simp only [push, evict, List.length_append, List.length_tail, List.length_singleton]
    omega

/-! ## The invariant -/

/-- The buffer is within its capacity, and until the consumer closes, what was kept is what was
taken followed by what is buffered. -/
structure Sound (s : Subscription α) : Prop where
  bounded : s.buffer.length ≤ s.capacity
  kept : s.closed = false → s.kept = s.taken ++ s.buffer

theorem sound_opened (policy : Policy) (capacity : Nat) (hpos : 0 < capacity)
    (drainMs : Option Nat) (cursorPos : Option Int) :
    Sound (opened policy capacity hpos drainMs cursorPos : Subscription α) :=
  ⟨Nat.zero_le _, fun _ => rfl⟩

theorem SameItems.sound {s s' : Subscription α} (h : SameItems s s') (hs : Sound s) :
    Sound s' := by
  constructor
  · rw [h.buffer, h.capacity]
    exact hs.bounded
  · intro hc
    rw [h.kept, h.taken, h.buffer]
    exact hs.kept (h.closed ▸ hc)

theorem sound_deliver {s : Subscription α} (hs : Sound s) (item : α) :
    Sound (s.deliver item).2 := by
  rcases hd : s.deliver item with ⟨accepted, s'⟩
  show Sound s'
  cases delivered hd with
  | refused _ => exact hs
  | discarded _ _ _ _ => exact hs
  | blocked _ _ _ _ _ => exact (sameItems_pause s).sound hs
  | overflowed _ _ _ _ => exact ⟨hs.bounded, hs.kept⟩
  | pushed live _ _ room =>
    constructor
    · simp only [push, List.length_append, List.length_singleton]
      omega
    · intro hc
      simp only [push, hs.kept live, List.append_assoc]
  | evicted live _ _ full =>
    -- the buffer is full and holds at least one item, so its head is what goes
    obtain ⟨head, rest, hbuf⟩ : ∃ head rest, s.buffer = head :: rest :=
      List.exists_cons_of_length_pos (by have := s.capacity_pos; omega)
    constructor
    · have := hs.bounded
      simp only [push, evict, hbuf, List.tail_cons, List.length_append, List.length_cons]
        at this ⊢
      omega
    · intro hc
      have hkept : s.kept = s.taken ++ head :: rest := by rw [hs.kept live, hbuf]
      simp only [push, evict, hkept, hbuf, List.tail_cons]
      rw [List.eraseIdx_append_of_length_le (Nat.le_refl _), Nat.sub_self, List.eraseIdx_zero,
        List.tail_cons, List.append_assoc]

theorem sound_terminate {s : Subscription α} (hs : Sound s) (t : Terminal) :
    Sound (s.terminate t) := by
  simp only [terminate]
  split
  · exact hs
  · exact ⟨hs.bounded, hs.kept⟩

theorem sound_next {s : Subscription α} (hs : Sound s) : Sound s.next.2 := by
  rcases hn : s.next with ⟨o, s'⟩
  show Sound s'
  cases nexted hn with
  | finished _ => exact hs
  | ended _ _ _ _ => exact hs
  | parked _ _ _ _ => exact hs
  | popped live _ buffer =>
    refine (sameItems_maybeResume _).sound ⟨?_, fun _ => ?_⟩
    · have := hs.bounded
      simp only [buffer, pop, List.length_cons] at this ⊢
      omega
    · simp [pop, hs.kept live, buffer]

theorem sound_close {s : Subscription α} (hs : Sound s) : Sound s.close := by
  simp only [close]
  split
  · exact hs
  · exact ⟨Nat.zero_le _, fun h => nomatch h⟩

theorem sound_drainFire {s : Subscription α} (hs : Sound s) : Sound s.drainFire :=
  (sameItems_drainFire s).sound hs

theorem sound_setOwner {s : Subscription α} (hs : Sound s) (b : Bool) : Sound (s.setOwner b) :=
  ⟨hs.bounded, hs.kept⟩

/-! ## Draining -/

/-- `n` calls of `next` in a row, with the owner live. -/
def drain (s : Subscription α) : Nat → List (Outcome α)
  | 0 => []
  | n + 1 => s.next.1 :: drain s.next.2 n

theorem drain_ended {s : Subscription α} {t : Terminal} (live : s.closed = false)
    (owned : s.withdrawn = false) (buffer : s.buffer = []) (terminal : s.terminal = some t) :
    ∀ n, s.drain n = List.replicate n t.outcome
  | 0 => rfl
  | n + 1 => by
    have hnext : s.next = (t.outcome, s) := by simp [next, live, owned, buffer, terminal]
    rw [drain, hnext, List.replicate_succ, drain_ended live owned buffer terminal n]

/-- **With a terminal, repeated `next` returns the buffer in order and then the terminal for
ever.** -/
theorem drain_terminal {s : Subscription α} {t : Terminal} (live : s.closed = false)
    (owned : s.withdrawn = false) (terminal : s.terminal = some t) (n : Nat) :
    s.drain (s.buffer.length + n) =
      s.buffer.map .item ++ List.replicate n t.outcome := by
  generalize hbuf : s.buffer = buffer
  induction buffer generalizing s with
  | nil => simpa using drain_ended live owned hbuf terminal n
  | cons item rest ih =>
    obtain ⟨s', hnext, hsame⟩ : ∃ s', s.next = (.item item, s') ∧ s'.closed = false ∧
        s'.withdrawn = false ∧ s'.terminal = some t ∧ s'.buffer = rest := by
      have hpop : s.next = (.item item, (s.pop item rest).maybeResume) := by
        simp [next, live, owned, hbuf]
      have hres := sameItems_maybeResume (s.pop item rest)
      exact ⟨_, hpop, hres.closed.trans live, hres.withdrawn.trans owned,
        hres.terminal.trans terminal, hres.buffer⟩
    obtain ⟨live', owned', terminal', buffer'⟩ := hsame
    have hlen : (item :: rest).length + n = (rest.length + n) + 1 := by
      simp only [List.length_cons]
      omega
    rw [hlen, drain, hnext, List.map_cons, List.cons_append, ih live' owned' terminal' buffer']

end Subscription

end Revl.Stream
