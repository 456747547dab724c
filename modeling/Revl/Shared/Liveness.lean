import Revl.Lib.Dict

/-!
# Process liveness (`liveness_confirm.py`)

The holders of a resource, and the confirmation that one is gone. A lapsed deadline only arms a
holder; it is reclaimed once a probe confirms that it is gone, and being reclaimed is final.

- `Holder`, `LivenessRegistry`: the holders by id, and the events.
- `register`, `beat`, `release`, `armExpired`, `reclaim`: the operations.
- `ReclaimReport`: what a sweep comes to.
- `tracked_*`, `state_reclaim`: which holders each operation leaves tracked.
-/

namespace Revl.Shared

/-! ## The registry -/

inductive HolderState where
  | alive
  | armed
  | released
  | reclaimed
  deriving DecidableEq, Repr

/-- One holder, under its id. -/
structure Holder where
  registered : ℚ
  deadline : ℚ
  state : HolderState
  deriving DecidableEq

inductive LivenessAction where
  | register
  | disarm
  | beat
  | release
  | arm
  | pin
  | reclaimFault
  | reclaim
  deriving DecidableEq, Repr

structure LivenessEvent where
  subject : String
  action : LivenessAction
  state : HolderState
  at_ : ℚ
  deriving DecidableEq

/-- What an operation is refused for, with the holder or the handle it names. -/
inductive LivenessError where
  | ttlNotPositive
  | alreadyReclaimed (holder : String)
  | notRegistered (holder : String)
  | lateHeartbeat (holder : String)
  | alreadyReleased (holder : String)
  | tornDown (handle : String)
  | noGrant (handle : String)
  | notHeld (holder handle : String)
  deriving DecidableEq, Repr

/-- The holders of a resource. -/
structure LivenessRegistry where
  ttl : ℚ
  ttl_pos : 0 < ttl
  holders : Dict String Holder
  events : List LivenessEvent

/-- `probe.alive`: `false` is a positive confirmation that the holder is gone. -/
abbrev LivenessProbe := String → Bool

inductive FaultKind where
  | unboundInverse
  | reclaimFault
  deriving DecidableEq, Repr

/-- A close that is still owed. -/
structure Fault where
  holder : String
  handle : Option String
  kind : FaultKind
  deriving DecidableEq, Repr

structure ReclaimReport where
  fired : List String
  pinned : List String
  faults : List Fault
  at_ : ℚ
  deriving DecidableEq

/-- `clean`. -/
def ReclaimReport.clean (r : ReclaimReport) : Bool := r.faults.isEmpty

namespace LivenessRegistry

/-- `LivenessRegistry(ttl=ttl)`. -/
def new (ttl : ℚ) (h : 0 < ttl) : LivenessRegistry := ⟨ttl, h, .empty, []⟩

/-- `_stamp`. -/
def stamp (r : LivenessRegistry) (action : LivenessAction) (id : String) (holder : Holder)
    (now : ℚ) : LivenessRegistry :=
  { r with events := r.events ++ [⟨id, action, holder.state, now⟩] }

def seat (r : LivenessRegistry) (id : String) (holder : Holder) : LivenessRegistry :=
  { r with holders := r.holders.set id holder }

/-- The state a holder is tracked in. -/
def state (r : LivenessRegistry) (id : String) : Option HolderState :=
  (r.holders.get? id).map Holder.state

/-! ### Operations -/

/-- `register`. -/
def register (r : LivenessRegistry) (id : String) (ttl : Option ℚ) (now : ℚ) :
    Except LivenessError LivenessRegistry :=
  let ttl := ttl.getD r.ttl
  if ttl ≤ 0 then .error .ttlNotPositive
  else if r.state id = some .reclaimed then .error (.alreadyReclaimed id)
  else
    let holder := ⟨now, now + ttl, .alive⟩
    .ok ((r.seat id holder).stamp .register id holder now)

/-- `beat`. -/
def beat (r : LivenessRegistry) (id : String) (ttl : Option ℚ) (now : ℚ) :
    Except LivenessError LivenessRegistry :=
  let ttl := ttl.getD r.ttl
  match r.holders.get? id with
  | none => .error (.notRegistered id)
  | some holder =>
    match holder.state with
    | .reclaimed => .error (.lateHeartbeat id)
    | .released => .error (.alreadyReleased id)
    -- a slow holder that came back is disarmed
    | .armed =>
      let holder := { holder with deadline := now + ttl, state := .alive }
      .ok ((r.seat id holder).stamp .disarm id holder now)
    | .alive =>
      let holder := { holder with deadline := now + ttl }
      .ok ((r.seat id holder).stamp .beat id holder now)

/-- `release`. -/
def release (r : LivenessRegistry) (id : String) (now : ℚ) :
    Except LivenessError LivenessRegistry :=
  match r.holders.get? id with
  | none => .error (.notRegistered id)
  | some holder =>
    if holder.state = .reclaimed then .error (.alreadyReclaimed id)
    else
      let holder := { holder with state := .released }
      .ok ((r.seat id holder).stamp .release id holder now)

/-- The holder is alive past its deadline. -/
def lapsed (now : ℚ) (holder : Holder) : Bool :=
  holder.state == .alive && decide (holder.deadline ≤ now)

/-- `arm_expired`. -/
def armExpired (r : LivenessRegistry) (now : ℚ) : LivenessRegistry :=
  { r with
    holders := r.holders.map fun _ holder =>
      if lapsed now holder then { holder with state := .armed } else holder
    events := r.events ++
      (r.holders.entries.filter fun p => lapsed now p.2).map fun p =>
        ⟨p.1, .arm, .armed, now⟩ }

/-- What the sweep does about a holder. -/
inductive Outcome where
  | skipped
  | pinned
  | unbound
  | faulted
  | fired
  deriving DecidableEq, Repr

/-- The body of the loop of `reclaim`. An inverse that is bound raises or returns. -/
def outcome (inverses : String → Option Bool) (probe : LivenessProbe) (id : String)
    (holder : Holder) : Outcome :=
  if holder.state ≠ .armed then .skipped
  else if probe id then .pinned
  else
    match inverses id with
    | none => .unbound
    | some true => .faulted
    | some false => .fired

/-- The event an outcome stamps. -/
def Outcome.event? (id : String) (now : ℚ) : Outcome → Option LivenessEvent
  | .pinned => some ⟨id, .pin, .armed, now⟩
  | .faulted => some ⟨id, .reclaimFault, .reclaimed, now⟩
  | .fired => some ⟨id, .reclaim, .reclaimed, now⟩
  | .skipped => none
  | .unbound => none

/-- The fault an outcome is owed as. -/
def Outcome.fault? (id : String) : Outcome → Option Fault
  | .unbound => some ⟨id, none, .unboundInverse⟩
  | .faulted => some ⟨id, none, .reclaimFault⟩
  | _ => none

/-- `reclaim`: every armed holder the probe confirms gone runs its inverse and is final, also
where the inverse raises. -/
def reclaim (r : LivenessRegistry) (inverses : String → Option Bool) (probe : LivenessProbe)
    (now : ℚ) : LivenessRegistry × ReclaimReport :=
  let r := r.armExpired now
  let outcomes := r.holders.entries.map fun p => (p.1, outcome inverses probe p.1 p.2)
  ({ r with
      holders := r.holders.map fun id holder =>
        match outcome inverses probe id holder with
        | .faulted => { holder with state := .reclaimed }
        | .fired => { holder with state := .reclaimed }
        | _ => holder
      events := r.events ++ outcomes.filterMap fun p => p.2.event? p.1 now },
    { fired := (outcomes.filter fun p => p.2 = .fired).map Prod.fst
      pinned := (outcomes.filter fun p => p.2 = .pinned).map Prod.fst
      faults := outcomes.filterMap fun p => p.2.fault? p.1
      at_ := now })

/-- Armed once the lapsed are armed, and confirmed gone. -/
def confirmedGone (r : LivenessRegistry) (probe : LivenessProbe) (now : ℚ) (id : String) : Bool :=
  (r.armExpired now).state id == some .armed && !probe id

/-- Alive or armed. -/
def Tracked (r : LivenessRegistry) (id : String) : Prop :=
  r.state id = some .alive ∨ r.state id = some .armed

/-! ### What each operation leaves -/

variable {r r' : LivenessRegistry} {id : String} {now : ℚ}

theorem Tracked.not_reclaimed (h : r.Tracked id) : r.state id ≠ some .reclaimed := by
  rcases h with h | h
  · rw [h]
    decide
  · rw [h]
    decide

@[simp] theorem state_stamp (action : LivenessAction) (subject : String) (holder : Holder) :
    (r.stamp action subject holder now).state id = r.state id := rfl

theorem state_seat (subject : String) (holder : Holder) :
    (r.seat subject holder).state id =
      if id = subject then some holder.state else r.state id := by
  show ((r.holders.set subject holder).get? id).map Holder.state = _
  rw [Dict.get?_set]
  split
  · rfl
  · rfl

/-- A registration is refused a reclaimed holder, and tracks any other. -/
theorem register_cases (r : LivenessRegistry) (subject : String) (now : ℚ) :
    (r.state subject = some .reclaimed ∧
        r.register subject none now = .error (.alreadyReclaimed subject)) ∨
      (r.state subject ≠ some .reclaimed ∧ ∃ r', r.register subject none now = .ok r' ∧
        ∀ id, r'.state id = if id = subject then some .alive else r.state id) := by
  unfold register
  dsimp only [Option.getD_none]
  rw [if_neg (not_le.mpr r.ttl_pos)]
  by_cases h : r.state subject = some .reclaimed
  · rw [if_pos h]
    exact Or.inl ⟨h, rfl⟩
  · rw [if_neg h]
    exact Or.inr ⟨h, _, rfl, fun id => by rw [state_stamp, state_seat]⟩

/-- A beat keeps every tracked holder tracked. -/
theorem tracked_beat {subject : String} {ttl : Option ℚ}
    (h : r.beat subject ttl now = .ok r') (hid : r.Tracked id) : r'.Tracked id := by
  unfold beat at h
  dsimp only at h
  cases hget : r.holders.get? subject with
  | none =>
    rw [hget] at h
    cases h
  | some holder =>
    rw [hget] at h
    dsimp only at h
    cases hstate : holder.state with
    | reclaimed =>
      rw [hstate] at h
      cases h
    | released =>
      rw [hstate] at h
      cases h
    | armed =>
      rw [hstate] at h
      cases h
      unfold Tracked
      rw [state_stamp, state_seat]
      split
      · exact Or.inl rfl
      · exact hid
    | alive =>
      rw [hstate] at h
      cases h
      unfold Tracked
      rw [state_stamp, state_seat]
      split
      · exact Or.inl rfl
      · exact hid

/-- The release of a tracked holder goes through, and tracks the others as before. -/
theorem release_tracked {subject : String} (h : r.Tracked subject) (now : ℚ) :
    ∃ r', r.release subject now = .ok r' ∧
      ∀ id, r'.state id = if id = subject then some .released else r.state id := by
  unfold release
  cases hget : r.holders.get? subject with
  | none =>
    unfold Tracked state at h
    rw [hget] at h
    rcases h with h | h <;> cases h
  | some holder =>
    have hstate : holder.state ≠ .reclaimed := by
      intro heq
      refine h.not_reclaimed ?_
      unfold state
      rw [hget, ← heq]
      rfl
    dsimp only
    rw [if_neg hstate]
    exact ⟨_, rfl, fun id => by rw [state_stamp, state_seat]⟩

/-- Arming tracks whom it tracked. -/
theorem tracked_armExpired (r : LivenessRegistry) (now : ℚ) (id : String) :
    (r.armExpired now).Tracked id ↔ r.Tracked id := by
  unfold Tracked state armExpired
  dsimp only
  rw [Dict.get?_map]
  cases r.holders.get? id with
  | none => exact Iff.rfl
  | some holder =>
    rw [Option.map_some, Option.map_some, Option.map_some]
    by_cases hlapsed : lapsed now holder = true
    · rw [if_pos hlapsed]
      unfold lapsed at hlapsed
      rw [Bool.and_eq_true, beq_iff_eq] at hlapsed
      rw [hlapsed.1]
      simp
    · rw [if_neg hlapsed]

/-- Arming twice is arming once. -/
theorem state_armExpired_idem (r : LivenessRegistry) (now : ℚ) (id : String) :
    ((r.armExpired now).armExpired now).state id = (r.armExpired now).state id := by
  unfold state armExpired
  dsimp only
  rw [Dict.get?_map, Dict.get?_map, Option.map_map, Option.map_map, Option.map_map]
  cases r.holders.get? id with
  | none => rfl
  | some holder =>
    rw [Option.map_some, Option.map_some]
    dsimp only [Function.comp]
    by_cases hlapsed : lapsed now holder = true
    · rw [if_pos hlapsed]
      split
      · rfl
      · rfl
    · rw [if_neg hlapsed, if_neg hlapsed]

/-- **What a sweep leaves of a holder**: it is reclaimed where it was confirmed gone with an
inverse bound, and is what arming left otherwise. -/
theorem state_reclaim (r : LivenessRegistry) (inverses : String → Option Bool)
    (probe : LivenessProbe) (now : ℚ) (id : String) :
    (r.reclaim inverses probe now).1.state id =
      if r.confirmedGone probe now id = true ∧ (inverses id).isSome = true then some .reclaimed
      else (r.armExpired now).state id := by
  unfold confirmedGone
  show (((r.armExpired now).holders.map _).get? id).map Holder.state = _
  rw [Dict.get?_map]
  unfold state
  cases hget : (r.armExpired now).holders.get? id with
  | none => simp
  | some holder =>
    rw [Option.map_some, Option.map_some, Option.map_some]
    unfold outcome
    by_cases harmed : holder.state = .armed
    · cases hprobe : probe id with
      | true => simp [harmed]
      | false =>
        cases hinv : inverses id with
        | none => simp [harmed]
        | some raises => cases raises <;> simp [harmed]
    · simp [harmed]

end LivenessRegistry

end Revl.Shared
