import Revl.Lib.Fallible
import Revl.Fork.Live

/-!
# The two-step session fork (`session.py`)

`fork` enumerates the tail of a timeline and returns a report with a hash; `fork_confirm` derives
the hash again and, if it is the one it is given, rewinds the tail, drops the deferred queue and
freezes the session. The hash is over the indices of the buckets and the names of the components.
`upTo` is the `at` of the source.

- `Session`, `SessionEvent`: a session, and what may happen to it between the two calls.
- `Quiet`: an event that changes nothing the hash does not see.
- `Held.run`: **what a run of quiet events keeps**.
- `fork_performs_what_was_shown`: a fork performed after such a run is the one its report showed.
-/

namespace Revl.Fork

/-! ## Sessions -/

/-- A component of the live composition. -/
structure Component (C : Type) where
  name : String
  body : C
  deriving DecidableEq, Repr

/-- The records of the log that a fork reads or writes. -/
inductive WalRecord where
  | effect
  | flushed
  | commitApproved
  | forkBegin (k : Int) (crossed : List EmissionEntry) (wouldCross : List WouldCrossEntry)
  | forkFrozen (k : Int)
  | forkComplete
  | other (record : String)
  deriving DecidableEq, Repr

/-- A durably committed crossing. -/
def WalRecord.commits : WalRecord → Bool
  | .flushed | .commitApproved => true
  | _ => false

/-- What a fork hash is over. -/
structure Target where
  component : String
  upTo : Int
  inversesRan : List Nat
  provisionsWithdrawn : List Nat
  emissionsCrossed : List Nat
  emissionsCompensated : List Nat
  wouldCrossOnRewind : List Nat
  unrestored : List Nat
  composition : List String
  deriving DecidableEq, Repr

/-- `_fork_pending` -/
structure Pending (H : Type) where
  hash : H
  upTo : Int
  component : String

/-- A session: the composition, the timelines its recorder holds by component, the deferred
emissions, and the log where one is open. -/
structure Session (C Q H : Type) where
  loaded : Bool
  frozen : Bool
  recording : Bool
  ir : List (Component C)
  timelines : Dict String LiveTimeline
  queue : List Q
  wal : Option (List WalRecord)
  pending : Option (Pending H)

/-- Why a call raises. -/
inductive SessionError where
  | frozen
  | nothingLoaded
  | notRecorded
  | unnamedTimeline (recorded : List String)
  | noTimeline (component : String) (recorded : List String)
  | outOfRange (component : String) (k : Int) (steps : Nat)
  | committedBoundary
  | opaqueSteps (labels : List String) (k : Int)
  | nonIdempotent (labels : List String)
  | noForkPending
  deriving DecidableEq, Repr

/-- What a fork report says. -/
structure ForkReport (Q H : Type) where
  tail : TailPartition
  droppedDeferred : List Q
  clean : Bool
  outstanding : List Nat
  hash : H

/-- What `fork_confirm` answers. `rewound` are the inverses that the rewind started. -/
inductive Confirmed (Q H : Type) where
  | refused (report : ForkReport Q H)
  | performed (report : ForkReport Q H) (inverses provisions : List ScopedEntry)

namespace Session

variable {C Q H : Type}

/-- The names of the components, sorted. -/
def componentNames (ir : List (Component C)) : List String :=
  (ir.map (·.name)).insertionSort (· ≤ ·)

/-- `_require` -/
def require (s : Session C Q H) : Except SessionError Unit :=
  if s.frozen then .error .frozen else if s.loaded then .ok () else .error .nothingLoaded

/-- `_timeline`: the one of a component, or the only one. -/
def timeline (s : Session C Q H) (component : Option String) :
    Except SessionError (String × LiveTimeline) :=
  if s.recording then
    match component with
    | none =>
      match s.timelines.entries with
      | [entry] => .ok entry
      | entries => .error (.unnamedTimeline (entries.map Prod.fst))
    | some name =>
      match s.timelines.get? name with
      | some tl => .ok (name, tl)
      | none => .error (.noTimeline name (s.timelines.entries.map Prod.fst))
  else .error .notRecorded

/-- `_has_committed_boundary` -/
def hasCommittedBoundary (s : Session C Q H) : Bool := (s.wal.getD []).any (·.commits)

/-- `_fork_target` -/
def forkTarget (s : Session C Q H) (component : String) (tl : LiveTimeline) (k : Int) : Target where
  component := component
  upTo := k
  inversesRan := tl.indices k .hostConfined
  provisionsWithdrawn := tl.indices k .provisions
  emissionsCrossed := tl.indices k .crossed
  emissionsCompensated := tl.indices k .compensated
  wouldCrossOnRewind := tl.indices k .wouldCross
  unrestored := tl.indices k .unrestored
  composition := componentNames s.ir

/-- `_fork_report` -/
def forkReport (hash : Target → H) (s : Session C Q H) (component : String) (tl : LiveTimeline)
    (k : Int) : ForkReport Q H where
  tail := tl.partitionTail component k
  droppedDeferred := s.queue
  clean := (tl.bucket k .crossed).isEmpty && (tl.bucket k .compensated).isEmpty &&
    (tl.bucket k .wouldCross).isEmpty && (tl.bucket k .unrestored).isEmpty
  outstanding := (tl.indices k .crossed ++ tl.indices k .compensated ++ tl.indices k .wouldCross ++
    tl.indices k .unrestored).insertionSort (· ≤ ·)
  hash := hash (s.forkTarget component tl k)

/-- `_fork_refuse` -/
def forkRefuse (s : Session C Q H) (tl : LiveTimeline) (k : Int) : Except SessionError Unit :=
  if s.hasCommittedBoundary then .error .committedBoundary
  else if tl.opaqueSteps k ≠ [] then .error (.opaqueSteps ((tl.opaqueSteps k).map (·.label)) k)
  else if tl.nonIdempotent k ≠ [] then .error (.nonIdempotent ((tl.nonIdempotent k).map (·.label)))
  else .ok ()

/-- `fork(at)`: nothing but the pending fork changes. -/
def fork (hash : Target → H) (s : Session C Q H) (k : Int) (component : Option String) :
    Except SessionError (ForkReport Q H × Session C Q H) := do
  s.require
  let (name, tl) ← s.timeline component
  if tl.inBound k then
    s.forkRefuse tl k
    let report := s.forkReport hash name tl k
    return (report, { s with pending := some ⟨report.hash, k, name⟩ })
  else throw (.outOfRange name k tl.steps.length)

/-- `fork_confirm(hash)`, up to the branch that takes over. -/
def forkConfirm [DecidableEq H] (hash : Target → H) (s : Session C Q H) (forkHash : H) :
    Except SessionError (Confirmed Q H × Session C Q H) := do
  s.require
  match s.pending with
  | none => throw .noForkPending
  | some pending =>
    let (name, tl) ← s.timeline (some pending.component)
    let k := pending.upTo
    let report := s.forkReport hash name tl k
    if tl.inBound k then
      if forkHash = hash (s.forkTarget name tl k) then
        return (.performed report (tl.started k .hostConfined) (tl.started k .provisions),
          { s with
            frozen := true
            timelines := s.timelines.set name (tl.scopedRewind k)
            queue := []
            wal := some (s.wal.getD [] ++
              [.forkBegin k report.tail.emissionsCrossed report.tail.wouldCrossOnRewind,
                .forkFrozen k, .forkComplete])
            pending := none })
      else return (.refused report, { s with pending := none })
    else throw (.outOfRange name k tl.steps.length)

end Session

/-! ## What happens in between -/

/-- What the recorder adds to a timeline. A compensation says which emission it offsets, and on
which current timeline that is, if on one. -/
inductive Recorded where
  | emission
  | boundary
  | hinge
  | provision
  | opaqueDisposer
  | effect (scope : Scope)
  | compensation (emission : Option (String × Nat))

/-- The kind of the step. -/
def Recorded.kind : Recorded → Kind
  | .emission => .emission
  | .boundary => .boundary
  | .hinge => .hinge
  | .provision => .provision
  | .opaqueDisposer => .opaqueDisposer
  | .effect _ => .effect
  | .compensation _ => .compensation

/-- Only an effect states a scope. -/
def Recorded.scope : Recorded → Option Scope
  | .effect scope => some scope
  | _ => none

/-- What happens to a session. -/
inductive SessionEvent (C Q H : Type) where
  | recorded (component : String) (what : Recorded) (label : String) (site : Option String)
      (detail : Detail)
  | enqueued (descriptor : Q)
  | undone (component : String) (i : Nat)
  | steppedBack (component : Option String) (k : Int) (force : Bool)
  | logged (record : WalRecord)
  | swapped (ir : List (Component C)) (activated : List String)
  | forked (k : Int) (component : Option String)
  | confirmed (forkHash : H)
  | finished

namespace Session

variable {C Q H : Type}

/-- A timeline changed where it stands. -/
def modify (s : Session C Q H) (component : String) (f : LiveTimeline → LiveTimeline) :
    Session C Q H :=
  match s.timelines.get? component with
  | none => s
  | some tl => { s with timelines := s.timelines.set component (f tl) }

/-- A record appended, if a log is open. -/
def log (s : Session C Q H) (record : WalRecord) : Session C Q H :=
  { s with wal := s.wal.map (· ++ [record]) }

/-- A step is added; the emission that a compensation offsets is told so. -/
def record (s : Session C Q H) (component : String) (what : Recorded) (label : String)
    (site : Option String) (detail : Detail) : Session C Q H :=
  match s.timelines.get? component with
  | none => s
  | some tl =>
    let s' := s.modify component (·.add what.kind label site detail what.scope none)
    let s'' := match what with
      | .compensation (some (other, i)) => s'.modify other (·.offset i tl.steps.length)
      | _ => s'
    s''.log .effect

/-- `step_back`, as far as it changes the session. -/
def steppedBack (s : Session C Q H) (component : Option String) (k : Int) (force : Bool) :
    Session C Q H :=
  match s.timeline component with
  | .error _ => s
  | .ok (name, tl) =>
    match tl.stepBack k force with
    | none => s
    | some tl' => { s with timelines := s.timelines.set name tl' }

/-- A swap: the old activations are torn down, and each component activated starts a timeline. The
deferred queue moves to the next generation. -/
def swap (s : Session C Q H) (ir : List (Component C)) (activated : List String) : Session C Q H :=
  { s with
    ir := ir
    timelines := activated.foldl (fun d name => d.set name .empty)
      (s.timelines.map fun _ tl => tl.teardown) }

/-- `_reset`, at the end of an `unload`, a commit or an abort. -/
def finish (s : Session C Q H) : Session C Q H :=
  match s.require with
  | .error _ => s
  | .ok _ =>
    { s with
      loaded := false
      recording := false
      frozen := false
      ir := []
      timelines := Dict.empty
      queue := []
      wal := none
      pending := none }

variable [DecidableEq H]

/-- One event. -/
def step (hash : Target → H) (s : Session C Q H) : SessionEvent C Q H → Session C Q H
  | .recorded component what label site detail => s.record component what label site detail
  | .enqueued descriptor => { s with queue := s.queue ++ [descriptor] }
  | .undone component i => s.modify component (·.undo i)
  | .steppedBack component k force => s.steppedBack component k force
  | .logged record => s.log record
  | .swapped ir activated => s.swap ir activated
  | .forked k component =>
    match s.fork hash k component with
    | .error _ => s
    | .ok (_, s') => s'
  | .confirmed forkHash =>
    match s.forkConfirm hash forkHash with
    | .error _ => s
    | .ok (_, s') => s'
  | .finished => s.finish

/-- A history. -/
def run (hash : Target → H) (s : Session C Q H) (events : List (SessionEvent C Q H)) :
    Session C Q H :=
  events.foldl (step hash) s

end Session

/-! ## Quiet histories -/

section Quiet

variable {C Q H : Type}

/-- An event that changes nothing the hash of a fork does not see: no deferred emission, no
committed crossing, no inverse started above the fork point, no offset replaced from another
timeline, and no swap to components of the same names. -/
def Quiet (component : String) (k : Int) (names : List String) (s : Session C Q H) :
    SessionEvent C Q H → Prop
  | .recorded on (.compensation (some (other, i))) _ _ _ =>
    other = component → on ≠ component → k < i →
      ∀ tl, s.timelines.get? component = some tl → ∀ st, tl.steps[i]? = some st →
        st.compensation = none
  | .enqueued _ => False
  | .undone on i =>
    on = component → k < i →
      ∀ tl, s.timelines.get? component = some tl → ∀ st, tl.steps[i]? = some st →
        st.revertible = true → st.undone = true
  | .steppedBack on down force =>
    ∀ tl, s.timeline on = .ok (component, tl) → tl.stepBack down force ≠ none →
      ∀ st ∈ tl.steps, k < st.index → down < st.index → st.revertible = true → st.undone = true
  | .logged record => record.commits = false
  | .swapped ir _ => Session.componentNames ir ≠ names
  | _ => True

variable [DecidableEq H]

/-- Every event is quiet where it happens. -/
def QuietRun (hash : Target → H) (component : String) (k : Int) (names : List String) :
    Session C Q H → List (SessionEvent C Q H) → Prop
  | _, [] => True
  | s, e :: events =>
    Quiet component k names s e ∧ QuietRun hash component k names (s.step hash e) events

end Quiet

namespace Session

variable {C Q H : Type}

/-! ## What the calls do -/

theorem get?_of_timeline {s : Session C Q H} {component : Option String} {name : String}
    {tl : LiveTimeline} (h : s.timeline component = .ok (name, tl)) :
    s.timelines.get? name = some tl := by
  unfold timeline at h
  split at h
  · split at h
    · split at h
      · rename_i entry hentries
        obtain rfl := Except.ok.inj h
        rw [Dict.get?_eq_some_iff, hentries]
        exact List.mem_cons_self
      · cases h
    · split at h
      · rename_i found hget
        cases h
        exact hget
      · cases h
  · cases h

theorem timeline_some {s : Session C Q H} {wanted name : String} {tl : LiveTimeline}
    (h : s.timeline (some wanted) = .ok (name, tl)) : name = wanted := by
  unfold timeline at h
  split at h
  · simp only at h
    split at h
    · cases h
      rfl
    · cases h
  · cases h

/-- A fork that was enumerated. -/
theorem fork_ok {hash : Target → H} {s s' : Session C Q H} {k : Int} {component : Option String}
    {report : ForkReport Q H} (h : s.fork hash k component = .ok (report, s')) :
    s.require = .ok () ∧ ∃ name tl, s.timelines.get? name = some tl ∧ tl.inBound k = true ∧
      s.forkRefuse tl k = .ok () ∧ report = s.forkReport hash name tl k ∧
      s' = { s with pending := some ⟨report.hash, k, name⟩ } := by
  unfold fork at h
  obtain ⟨⟨⟩, hreq, h⟩ := Fallible.bind_ok h
  obtain ⟨⟨name, tl⟩, htl, h⟩ := Fallible.bind_ok h
  refine ⟨hreq, name, tl, get?_of_timeline htl, ?_⟩
  simp only at h
  by_cases hbound : tl.inBound k = true
  · rw [if_pos hbound] at h
    obtain ⟨⟨⟩, hrefuse, h⟩ := Fallible.bind_ok h
    cases h
    exact ⟨hbound, hrefuse, rfl, rfl⟩
  · rw [if_neg hbound] at h
    cases h

theorem require_ok {s : Session C Q H} (h : s.require = .ok ()) :
    s.frozen = false ∧ s.loaded = true := by
  unfold require at h
  cases hfrozen : s.frozen with
  | true => simp [hfrozen] at h
  | false =>
    cases hloaded : s.loaded with
    | true => exact ⟨rfl, rfl⟩
    | false => simp [hfrozen, hloaded] at h

/-- What `fork_confirm` did, where it answers. -/
theorem forkConfirm_ok [DecidableEq H] {hash : Target → H} {s s' : Session C Q H} {forkHash : H}
    {answer : Confirmed Q H} (h : s.forkConfirm hash forkHash = .ok (answer, s')) :
    s.require = .ok () ∧ ∃ pending tl, s.pending = some pending ∧
      s.timelines.get? pending.component = some tl ∧
      ((answer = .refused (s.forkReport hash pending.component tl pending.upTo) ∧
          s' = { s with pending := none }) ∨
        (forkHash = hash (s.forkTarget pending.component tl pending.upTo) ∧
          answer = .performed (s.forkReport hash pending.component tl pending.upTo)
            (tl.started pending.upTo .hostConfined) (tl.started pending.upTo .provisions) ∧
          s'.frozen = true)) := by
  unfold forkConfirm at h
  obtain ⟨⟨⟩, hreq, h⟩ := Fallible.bind_ok h
  refine ⟨hreq, ?_⟩
  cases hpending : s.pending with
  | none =>
    rw [hpending] at h
    cases h
  | some pending =>
    rw [hpending] at h
    obtain ⟨⟨name, tl⟩, htl, h⟩ := Fallible.bind_ok h
    obtain rfl := timeline_some htl
    refine ⟨pending, tl, rfl, get?_of_timeline htl, ?_⟩
    simp only at h
    by_cases hbound : tl.inBound pending.upTo = true
    · rw [if_pos hbound] at h
      by_cases hhash : forkHash = hash (s.forkTarget pending.component tl pending.upTo)
      · rw [if_pos hhash] at h
        cases h
        exact .inr ⟨hhash, rfl, rfl⟩
      · rw [if_neg hhash] at h
        cases h
        exact .inl ⟨rfl, rfl⟩
    · rw [if_neg hbound] at h
      cases h

theorem get?_modify (s : Session C Q H) (on : String) (f : LiveTimeline → LiveTimeline)
    (name : String) : (s.modify on f).timelines.get? name =
      if name = on then (s.timelines.get? name).map f else s.timelines.get? name := by
  unfold modify
  split
  · rename_i hnone
    by_cases h : name = on
    · rw [if_pos h, h, hnone, Option.map_none]
    · rw [if_neg h]
  · rename_i tl hsome
    rw [Dict.get?_set]
    by_cases h : name = on
    · rw [if_pos h, if_pos h, h, hsome, Option.map_some]
    · rw [if_neg h, if_neg h]

/-- All but the timelines and the pending fork is the same, as far as a fork reads it. -/
structure SameFrame (s' s : Session C Q H) : Prop where
  frozen : s'.frozen = s.frozen
  loaded : s'.loaded = s.loaded
  ir : s'.ir = s.ir
  queue : s'.queue = s.queue
  boundary : s'.hasCommittedBoundary = s.hasCommittedBoundary

theorem SameFrame.refl (s : Session C Q H) : SameFrame s s := ⟨rfl, rfl, rfl, rfl, rfl⟩

theorem SameFrame.trans {s s' s'' : Session C Q H} (h : SameFrame s s') (h' : SameFrame s' s'') :
    SameFrame s s'' :=
  ⟨h.frozen.trans h'.frozen, h.loaded.trans h'.loaded, h.ir.trans h'.ir, h.queue.trans h'.queue,
    h.boundary.trans h'.boundary⟩

theorem sameFrame_modify (s : Session C Q H) (on : String) (f : LiveTimeline → LiveTimeline) :
    SameFrame (s.modify on f) s := by
  unfold modify
  split
  · exact .refl s
  · exact ⟨rfl, rfl, rfl, rfl, rfl⟩

theorem sameFrame_log (s : Session C Q H) {record : WalRecord} (h : record.commits = false) :
    SameFrame (s.log record) s := by
  refine ⟨rfl, rfl, rfl, rfl, ?_⟩
  unfold hasCommittedBoundary log
  cases s.wal with
  | none => rfl
  | some wal => simp [h]

/-! ## What a quiet history keeps -/

/-- The session that a report was shown of, as far as the fork goes. -/
structure Same (s₀ : Session C Q H) (name : String) (tl₀ : LiveTimeline) (k : Int)
    (s : Session C Q H) : Prop where
  ir : s.ir = s₀.ir
  queue : s.queue = s₀.queue
  boundary : s.hasCommittedBoundary = false
  since : ∃ tl, s.timelines.get? name = some tl ∧ Since tl₀ k tl

/-- The session can no longer be forked, or its components have other names, or it is the one that
the report was shown of. -/
def Held (s₀ : Session C Q H) (name : String) (tl₀ : LiveTimeline) (k : Int)
    (s : Session C Q H) : Prop :=
  (s.frozen = true ∨ s.loaded = false) ∨ componentNames s.ir ≠ componentNames s₀.ir ∨
    Same s₀ name tl₀ k s

variable {s₀ s : Session C Q H} {name : String} {tl₀ : LiveTimeline} {k : Int}

/-- An event that changes timelines alone. -/
theorem Held.of_frame (h : Held s₀ name tl₀ k s) {s' : Session C Q H} (hframe : SameFrame s' s)
    (hsince : ∀ tl, s.timelines.get? name = some tl → Since tl₀ k tl →
      ∃ tl', s'.timelines.get? name = some tl' ∧ Since tl₀ k tl') : Held s₀ name tl₀ k s' := by
  rcases h with hstopped | hnames | hsame
  · exact .inl (by rwa [hframe.frozen, hframe.loaded])
  · exact .inr (.inl (by rwa [hframe.ir]))
  · obtain ⟨tl, htl, hs⟩ := hsame.since
    exact .inr (.inr ⟨hframe.ir.trans hsame.ir, hframe.queue.trans hsame.queue,
      hframe.boundary.trans hsame.boundary, hsince tl htl hs⟩)

theorem Held.modify (h : Held s₀ name tl₀ k s) {on : String} {f : LiveTimeline → LiveTimeline}
    (hf : on = name → ∀ tl, s.timelines.get? name = some tl → Since tl₀ k tl → Since tl₀ k (f tl)) :
    Held s₀ name tl₀ k (s.modify on f) := by
  refine h.of_frame (sameFrame_modify s on f) fun tl htl hs => ?_
  rw [get?_modify]
  by_cases hn : name = on
  · rw [if_pos hn, htl]
    exact ⟨f tl, rfl, hf hn.symm tl htl hs⟩
  · rw [if_neg hn]
    exact ⟨tl, htl, hs⟩

theorem Held.log (h : Held s₀ name tl₀ k s) {record : WalRecord}
    (hrecord : record.commits = false) : Held s₀ name tl₀ k (s.log record) :=
  h.of_frame (sameFrame_log s hrecord) fun tl htl hs => ⟨tl, htl, hs⟩

/-- Recording a step, where it replaces no offset from another timeline. -/
theorem Held.record (h : Held s₀ name tl₀ k s) {on : String} {what : Recorded} {label : String}
    {site : Option String} {detail : Detail}
    (hquiet : ∀ i, what = .compensation (some (name, i)) → on ≠ name → k < i →
      ∀ tl, s.timelines.get? name = some tl → ∀ st, tl.steps[i]? = some st →
        st.compensation = none) :
    Held s₀ name tl₀ k (s.record on what label site detail) := by
  unfold Session.record
  split
  · exact h
  rename_i ontl hon
  refine Held.log ?_ rfl
  have hadd : Held s₀ name tl₀ k
      (s.modify on (·.add what.kind label site detail what.scope none)) :=
    h.modify fun _ tl _ hs => hs.add _ _ _ _ _ _
  split
  · rename_i other i
    by_cases hother : other = name
    · subst hother
      by_cases hself : on = other
      · -- the compensation is recorded on the timeline of the emission
        subst hself
        refine h.of_frame ((sameFrame_modify _ _ _).trans (sameFrame_modify _ _ _)) ?_
        intro tl htl hs
        obtain rfl : ontl = tl := Option.some.inj (hon.symm.trans htl)
        rw [get?_modify, if_pos rfl, get?_modify, if_pos rfl, htl]
        exact ⟨_, rfl, hs.add_offset _ _ _ _ _ _ hs.length_le⟩
      · refine hadd.modify fun _ tl htl hs => hs.offset _ fun hk st hst => ?_
        rw [get?_modify, if_neg (Ne.symm hself)] at htl
        exact hquiet i rfl hself hk tl htl st hst
    · exact hadd.modify fun hn => absurd hn hother
  · exact hadd

theorem Held.steppedBack (h : Held s₀ name tl₀ k s) {on : Option String} {down : Int} {force : Bool}
    (hquiet : ∀ tl, s.timeline on = .ok (name, tl) → tl.stepBack down force ≠ none →
      ∀ st ∈ tl.steps, k < st.index → down < st.index → st.revertible = true → st.undone = true) :
    Held s₀ name tl₀ k (s.steppedBack on down force) := by
  unfold Session.steppedBack
  split
  · exact h
  rename_i found ontl hon
  split
  · exact h
  rename_i tl' hback
  refine h.of_frame ⟨rfl, rfl, rfl, rfl, rfl⟩ fun tl htl hs => ?_
  rw [Dict.get?_set]
  by_cases hn : name = found
  · subst hn
    obtain rfl : ontl = tl := Option.some.inj ((get?_of_timeline hon).symm.trans htl)
    rw [if_pos rfl]
    refine ⟨tl', rfl, ?_⟩
    have hunwind : tl' = ontl.unwind down := by
      unfold LiveTimeline.stepBack at hback
      split at hback
      · exact (Option.some.inj hback).symm
      · cases hback
    rw [hunwind]
    exact hs.unwind (hquiet ontl hon (by rw [hback]; simp))
  · rw [if_neg hn]
    exact ⟨tl, htl, hs⟩

theorem Held.finish (h : Held s₀ name tl₀ k s) : Held s₀ name tl₀ k s.finish := by
  unfold Session.finish
  split
  · exact h
  · exact .inl (.inr rfl)

/-! ## What equal targets say -/

theorem indices_of_target {tl : LiveTimeline}
    (h : s.forkTarget name tl k = s₀.forkTarget name tl₀ k) (b : Bucket) :
    tl.indices k b = tl₀.indices k b := by
  simp only [forkTarget, Target.mk.injEq] at h
  obtain ⟨-, -, hconfined, hprovisions, hcrossed, hcompensated, hwould, hunrestored, -⟩ := h
  cases b with
  | hostConfined => exact hconfined
  | provisions => exact hprovisions
  | crossed => exact hcrossed
  | compensated => exact hcompensated
  | wouldCross => exact hwould
  | unrestored => exact hunrestored

/-- A tail with the same indices, in a session with the same queue and the same names, has the same
report. -/
theorem forkReport_eq {hash : Target → H} {tl : LiveTimeline} (hsince : Since tl₀ k tl)
    (hk : k < tl₀.steps.length) (hqueue : s.queue = s₀.queue)
    (htarget : s.forkTarget name tl k = s₀.forkTarget name tl₀ k) :
    s.forkReport hash name tl k = s₀.forkReport hash name tl₀ k := by
  have hindices : ∀ b, tl.indices k b = tl₀.indices k b := indices_of_target htarget
  have hempty : ∀ b, (tl.bucket k b).isEmpty = (tl₀.bucket k b).isEmpty := by
    intro b
    have hsame := congrArg List.isEmpty (hindices b)
    simpa only [LiveTimeline.indices, List.isEmpty_map] using hsame
  have htail := hsince.partitionTail_eq hk hindices name
  simp only [forkReport, htail, hqueue, hempty, hindices, htarget]

/-- A tail with the same indices, in a session without a committed crossing, has no more hazards. -/
theorem forkRefuse_eq {tl : LiveTimeline} (hsince : Since tl₀ k tl) (hk : k < tl₀.steps.length)
    (hboundary : s.hasCommittedBoundary = s₀.hasCommittedBoundary)
    (hindices : ∀ b, tl.indices k b = tl₀.indices k b) :
    s.forkRefuse tl k = s₀.forkRefuse tl₀ k := by
  have hopaque : tl.opaqueSteps k = tl₀.opaqueSteps k :=
    hsince.map_filter_bucket hk hindices _ _ (fun _ => rfl) _ fun _ => rfl
  have hidempotent : tl.nonIdempotent k = tl₀.nonIdempotent k :=
    hsince.map_filter_bucket hk hindices _ _ (fun _ => rfl) _ fun _ => rfl
  rw [forkRefuse, forkRefuse, hboundary, hopaque, hidempotent]

theorem boundary_of_forkRefuse {tl : LiveTimeline} (h : s.forkRefuse tl k = .ok ()) :
    s.hasCommittedBoundary = false := by
  unfold forkRefuse at h
  cases hb : s.hasCommittedBoundary with
  | false => rfl
  | true => simp [hb] at h

/-! ## Runs -/

variable [DecidableEq H]

/-- **One quiet event.** -/
theorem Held.step {hash : Target → H} (h : Held s₀ name tl₀ k s) {e : SessionEvent C Q H}
    (hquiet : Quiet name k (componentNames s₀.ir) s e) : Held s₀ name tl₀ k (s.step hash e) := by
  cases e with
  | recorded on what label site detail =>
    refine h.record ?_
    rintro i rfl
    exact hquiet rfl
  | enqueued descriptor => exact hquiet.elim
  | undone on i =>
    refine h.modify ?_
    rintro rfl tl htl hs
    exact hs.undo fun hk st hst => hquiet rfl hk tl htl st hst
  | steppedBack on down force => exact h.steppedBack hquiet
  | logged record => exact h.log hquiet
  | swapped ir activated =>
    rcases h with hstopped | -
    · exact .inl hstopped
    · exact .inr (.inl hquiet)
  | forked at' component =>
    rw [Session.step]
    split
    · exact h
    · rename_i report s' hfork
      obtain ⟨-, _, _, -, -, -, -, rfl⟩ := fork_ok hfork
      exact h.of_frame ⟨rfl, rfl, rfl, rfl, rfl⟩ fun tl htl hs => ⟨tl, htl, hs⟩
  | confirmed forkHash =>
    rw [Session.step]
    split
    · exact h
    · rename_i answer s' hconfirm
      obtain ⟨-, _, _, -, -, ⟨-, rfl⟩ | ⟨-, -, hfrozen⟩⟩ := forkConfirm_ok hconfirm
      · exact h.of_frame ⟨rfl, rfl, rfl, rfl, rfl⟩ fun tl htl hs => ⟨tl, htl, hs⟩
      · exact .inl (.inl hfrozen)
  | finished => exact h.finish

/-- **A quiet history**, by its events. -/
theorem Held.run {hash : Target → H} {events : List (SessionEvent C Q H)}
    (h : Held s₀ name tl₀ k s)
    (hquiet : QuietRun hash name k (componentNames s₀.ir) s events) :
    Held s₀ name tl₀ k (s.run hash events) := by
  induction events generalizing s with
  | nil => exact h
  | cons e events ih => exact ih (h.step hquiet.1) hquiet.2

/-! ## The fork that is performed -/

/-- What was acknowledged is what is performed: the report is the one that was shown, the same steps
of the tail had their inverse started before, the rewind starts the others that stay on the host,
nothing refuses the fork, and the composition is the same. -/
structure Acknowledged (s₀ s : Session C Q H) (k : Int) (shown report : ForkReport Q H)
    (inverses provisions : List ScopedEntry) : Prop where
  report_eq : report = shown
  queue : s.queue = shown.droppedDeferred
  ir : s.ir = s₀.ir
  tail : ∃ tl₀ tl, s₀.timelines.get? shown.tail.component = some tl₀ ∧
    s.timelines.get? shown.tail.component = some tl ∧
    (∀ b, (tl.bucket k b).map (fun st => (st.index, st.undone)) =
      (tl₀.bucket k b).map fun st => (st.index, st.undone)) ∧
    inverses = tl₀.started k .hostConfined ∧ provisions = tl₀.started k .provisions ∧
    s.forkRefuse tl k = .ok ()

/-- **A fork performs what was acknowledged**, after every quiet history. For every session, every
fork that was enumerated, and every history since without an event the hash does not see: a confirm
for the hash of the report performs the fork that was reported, or is refused and changes nothing
but the pending fork. -/
theorem fork_performs_what_was_shown (hash : Target → H) (hinj : Function.Injective hash)
    {s₀ s₁ : Session C Q H} {k : Int} {component : Option String} {shown : ForkReport Q H}
    (hfork : s₀.fork hash k component = .ok (shown, s₁)) {events : List (SessionEvent C Q H)}
    (hquiet : QuietRun hash shown.tail.component k (componentNames s₀.ir) s₁ events) :
    (∀ report s₂, (s₁.run hash events).forkConfirm hash shown.hash = .ok (.refused report, s₂) →
      s₂ = { s₁.run hash events with pending := none }) ∧
    ∀ report inverses provisions s₂,
      (s₁.run hash events).forkConfirm hash shown.hash =
          .ok (.performed report inverses provisions, s₂) →
        Acknowledged s₀ (s₁.run hash events) k shown report inverses provisions := by
  obtain ⟨hreq₀, name, tl₀, htl₀, hbound, hrefuse, rfl, rfl⟩ := fork_ok hfork
  have hk : k < tl₀.steps.length := by
    simp only [LiveTimeline.inBound, decide_eq_true_eq] at hbound
    omega
  -- the report was shown of the session the history starts from
  have hheld : Held s₀ name tl₀ k
      { s₀ with pending := some ⟨(s₀.forkReport hash name tl₀ k).hash, k, name⟩ } :=
    .inr (.inr ⟨rfl, rfl, boundary_of_forkRefuse hrefuse, tl₀, htl₀, .refl _ _⟩)
  have hafter := hheld.run hquiet
  generalize Session.run hash _ events = s at hafter ⊢
  refine ⟨fun report s₂ hconfirm => ?_, fun report inverses provisions s₂ hconfirm => ?_⟩
  · obtain ⟨-, pending, tl, -, -, ⟨-, rfl⟩ | ⟨-, hanswer, -⟩⟩ := forkConfirm_ok hconfirm
    · rfl
    · cases hanswer
  obtain ⟨hreq, pending, tl, -, htl, ⟨hanswer, -⟩ | ⟨hhash, hanswer, -⟩⟩ := forkConfirm_ok hconfirm
  · cases hanswer
  obtain ⟨rfl, rfl, rfl⟩ := Confirmed.performed.inj hanswer
  -- equal hashes are of equal targets
  have htarget : s₀.forkTarget name tl₀ k = s.forkTarget pending.component tl pending.upTo :=
    hinj hhash
  obtain rfl : name = pending.component := congrArg Target.component htarget
  obtain rfl : k = pending.upTo := congrArg Target.upTo htarget
  obtain ⟨hfrozen, hloaded⟩ := require_ok hreq
  rcases hafter with hstopped | hnames | hsame
  · simp [hfrozen, hloaded] at hstopped
  · exact absurd (congrArg Target.composition htarget).symm hnames
  obtain ⟨tl', htl', hsince⟩ := hsame.since
  obtain rfl : tl = tl' := Option.some.inj (htl.symm.trans htl')
  have hindices := indices_of_target htarget.symm
  refine ⟨forkReport_eq hsince hk hsame.queue htarget.symm, hsame.queue, hsame.ir,
    tl₀, tl, htl₀, htl, fun b => ?_, ?_, ?_, ?_⟩
  · exact hsince.map_bucket hk hindices b _ fun _ _ => rfl
  · exact hsince.map_filter_bucket hk hindices _ _ (fun _ => rfl) _ fun _ => rfl
  · exact hsince.map_filter_bucket hk hindices _ _ (fun _ => rfl) _ fun _ => rfl
  · have hboundary := hsame.boundary.trans (boundary_of_forkRefuse hrefuse).symm
    rw [forkRefuse_eq hsince hk hboundary hindices]
    exact hrefuse

/-! ## A fork of one effect -/

/-- A shop with one effect on the host and one deferred emission. -/
def shop : Session String String Target where
  loaded := true
  frozen := false
  recording := true
  ir := [⟨"shop", "first"⟩]
  timelines := Dict.empty.set "shop" <| LiveTimeline.empty.add .effect "stock/effect" none
    ⟨none, none, none, none, none, none, none⟩ (some ⟨true, false, []⟩) none
  queue := ["receipt"]
  wal := some []
  pending := none

/-- The report of the fork before every step. -/
def shopReport : ForkReport String Target :=
  shop.forkReport id "shop" (((shop.timelines.get? "shop").getD .empty)) (-1)

/-- The shop with that fork pending. -/
def shopPending : Session String String Target :=
  { shop with pending := some ⟨shopReport.hash, -1, "shop"⟩ }

theorem fork_shop : shop.fork id (-1) none = .ok (shopReport, shopPending) := rfl

/-- A boundary of the shop. -/
def boundaryYielded : SessionEvent String String Target :=
  .recorded "shop" .boundary "stock/boundary" none ⟨none, none, none, none, none, none, none⟩

/-- A boundary is recorded in between: the fork is performed as it was shown. -/
theorem fork_performs_what_was_shown_shop :
    ∃ report inverses provisions s₂,
      (shopPending.run id [boundaryYielded]).forkConfirm id shopReport.hash =
        .ok (.performed report inverses provisions, s₂) ∧
      Acknowledged shop (shopPending.run id [boundaryYielded]) (-1) shopReport report inverses
        provisions :=
  have hconfirm : (shopPending.run id [boundaryYielded]).forkConfirm id shopReport.hash = _ := rfl
  have hquiet : QuietRun id shopReport.tail.component (-1) (componentNames shop.ir) shopPending
      [boundaryYielded] := ⟨trivial, trivial⟩
  ⟨_, _, _, _, hconfirm,
    (fork_performs_what_was_shown id Function.injective_id fork_shop hquiet).2 _ _ _ _ hconfirm⟩

/-- The effect of the shop, as its next generation records it. -/
def effectYielded : SessionEvent String String Target :=
  .recorded "shop" (.effect ⟨true, false, []⟩) "stock/effect" none
    ⟨none, none, none, none, none, none, none⟩

/-- What the hash does not see: a deferred emission enqueued after the report is dropped with the
one it showed; after a step back the rewind starts no inverse of the one it showed; after an
approved commit the fork is performed all the same; and so it is over another generation of the
same name. -/
theorem unseen_by_the_hash :
    (∃ report inverses provisions s₂,
      (shopPending.run id [.enqueued "invoice"]).forkConfirm id shopReport.hash =
          .ok (.performed report inverses provisions, s₂) ∧
        report.droppedDeferred ≠ shopReport.droppedDeferred) ∧
    (∃ report inverses provisions s₂,
      (shopPending.run id [.steppedBack none (-1) false]).forkConfirm id shopReport.hash =
          .ok (.performed report inverses provisions, s₂) ∧
        inverses ≠ shopReport.tail.inversesRan) ∧
    (∃ report inverses provisions s₂,
      (shopPending.run id [.logged .commitApproved]).forkConfirm id shopReport.hash =
          .ok (.performed report inverses provisions, s₂) ∧
        (shopPending.run id [.logged .commitApproved]).hasCommittedBoundary = true) ∧
    ∃ report inverses provisions s₂,
      (shopPending.run id [.swapped [⟨"shop", "second"⟩] ["shop"], effectYielded]).forkConfirm id
          shopReport.hash = .ok (.performed report inverses provisions, s₂) ∧
        (shopPending.run id [.swapped [⟨"shop", "second"⟩] ["shop"], effectYielded]).ir ≠ shop.ir :=
  ⟨⟨_, _, _, _, rfl, by decide⟩, ⟨_, _, _, _, rfl, by decide⟩, ⟨_, _, _, _, rfl, by decide⟩,
    ⟨_, _, _, _, rfl, by decide⟩⟩

end Session

end Revl.Fork
