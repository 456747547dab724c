import Revl.Lib.Dict
import Revl.Lib.Json.Canonical
import Revl.Lib.Json.Repr

/-!
# The delivery ledger of a pool (`pool_dispatch.py`)

The ledger keeps one entry for each task it sent out and a list of events. A task is dispatched
once; it is then delivered, refused or orphaned. Operators that settle the answers of peers
read the ledger from a file and write it back.

- `dispatch`, `deliver`, `refuse`, `orphan`: the operations; `saveLoad` writes the ledger out and
  reads it back.
- `Move`: what an operation may do to the state of a task.
- `step_move`, `step_recorded`, `step_kept`: what one operation keeps where it is `Regular`.
- `delivery_is_final_iff`: **a run keeps the delivery discipline exactly where no result arrives
  for a refused task and no fresh task without a digest is dispatched.**
-/

namespace Revl.Pool

/-- A Python dictionary with string keys. -/
abbrev Record := Dict String Json

def Record.ofFields (fields : List (String × Json)) : Record := Dict.empty.update fields

/-! ## States and links -/

def stateDispatched : String := "dispatched"

def stateDelivered : String := "delivered"

def stateOrphaned : String := "orphaned"

def stateRefused : String := "refused"

def linkTaskShape : String := "task-shape"

def linkReplayedTask : String := "replayed-task"

def linkDeliveredTwice : String := "delivered-twice"

def linkLateDelivery : String := "late-delivery"

def linkUnknownTask : String := "unknown-task"

/-- What a call came to. -/
inductive Answer where
  | returned (value : Json)
  | raised (error : String)
  deriving DecidableEq

namespace Answer

/-- `not answer.get("ok")`, of an answer that is there. -/
def refuses : Answer → Bool
  | .returned value => value.get? "ok" = some (.bool false)
  | .raised _ => false

def accepts : Answer → Bool
  | .returned value => value.get? "ok" = some (.bool true)
  | .raised _ => false

def link : Answer → Option Json
  | .returned value => value.get? "link"
  | .raised _ => none

end Answer

/-- `_refusal`, with the task it is about. -/
def refusal (link reason taskId : String) : Answer :=
  .returned (.obj [("ok", .bool false), ("link", .str link), ("reason", .str reason),
    ("task_id", .str taskId)])

/-- `{"ok": True, "task_id": task_id, "state": state}`. -/
def accepted (taskId state : String) : Answer :=
  .returned (.obj [("ok", .bool true), ("task_id", .str taskId), ("state", .str state)])

theorem refusal_refuses (link reason taskId : String) :
    (refusal link reason taskId).refuses = true := by
  simp [refusal, Answer.refuses, Json.get?, Assoc.get?_cons]

theorem refusal_link (link reason taskId : String) :
    (refusal link reason taskId).link = some (.str link) := by
  simp [refusal, Answer.link, Json.get?, Assoc.get?_cons]

theorem refusal_accepts (link reason taskId : String) :
    (refusal link reason taskId).accepts = false := by
  simp [refusal, Answer.accepts, Json.get?, Assoc.get?_cons]

theorem accepted_refuses (taskId state : String) : (accepted taskId state).refuses = false := by
  simp [accepted, Answer.refuses, Json.get?, Assoc.get?_cons]

/-! ## The ledger -/

structure DeliveryLedger where
  poolId : String
  charterDigest : String
  /-- One entry for each task, ever. -/
  tasks : Dict String Record
  /-- Every state change in order, the refused ones too. -/
  events : List Record

/-- What `dispatch` is called with. -/
structure DispatchArgs where
  taskId : String
  peerId : String
  artifactDigest : String
  runner : String
  effectClass : String
  bundle : Option Record
  task : Option Record

/-- What `deliver` is called with. -/
structure DeliverArgs where
  taskId : String
  peerId : String
  resultDigest : String
  receiptDigest : String
  counts : Bool
  receipt : Option Record
  attestation : Option Record

/-- `len(value or ())`; no value is a number where `value` has no length. -/
def lenOr : Option Json → Option Nat
  | none => some 0
  | some v =>
    if v.truthy = false then some 0 else
      match v with
      | .str s => some s.length
      | .arr items => some items.length
      | .obj fields => some fields.length
      | _ => none

/-- `entry.get(key, "")`. -/
def Record.getOr (r : Record) (key : String) : Json := (r.get? key).getD (.str "")

/-- The string under a key, if there is one. -/
def Record.getStr? (r : Record) (key : String) : Option String := (r.get? key).bind Json.str?

/-- The state an entry is in. -/
def Record.state (r : Record) : String := (r.getStr? "state").getD ""

namespace DeliveryLedger

/-- `DeliveryLedger(pool_id, charter_digest)`. -/
def new (poolId charterDigest : String) : DeliveryLedger := ⟨poolId, charterDigest, .empty, []⟩

/-- The state of a task, none where the ledger has no such task. -/
def stateOf (l : DeliveryLedger) (taskId : String) : Option String :=
  (l.tasks.get? taskId).map Record.state

/-- `_event`. -/
def event (l : DeliveryLedger) (now name taskId : String) (extra : List (String × Json)) :
    DeliveryLedger :=
  { l with
    events := l.events ++ [Record.ofFields
      ([("event", .str name), ("task_id", .str taskId), ("at", .str now)] ++ extra)] }

def setEntry (l : DeliveryLedger) (taskId : String) (entry : Record) : DeliveryLedger :=
  { l with tasks := l.tasks.set taskId entry }

/-- The entry `dispatch` writes before it looks at the bundle and the task. -/
def freshEntry (now : String) (a : DispatchArgs) : Record :=
  .ofFields [("task_id", .str a.taskId), ("peer_id", .str a.peerId),
    ("artifact_digest", .str a.artifactDigest), ("runner", .str a.runner),
    ("effect_class", .str a.effectClass), ("state", .str stateDispatched),
    ("dispatched_at", .str now)]

section Dispatch

variable (receiptDigest : Record → Except String String)

/-- `dispatch` of a task id the ledger has not seen. The bundle and the task are put on the
entry, which is in the ledger already, and either may then fail. -/
def dispatchFresh (now : String) (a : DispatchArgs) (l : DeliveryLedger) :
    Answer × DeliveryLedger :=
  let entry := freshEntry now a
  let bundled := match a.bundle with
    | none => entry
    | some b => entry.set "bundle" (.obj b.entries)
  let files := a.bundle.map fun b => lenOr (b.get? "files")
  if files = some none then
    (.raised "object has no len()", l.setEntry a.taskId bundled)
  else
    let detail := match files with
      | some (some n) => [("bundle_files", Json.int n)]
      | _ => []
    let sent (detail : List (String × Json)) (entry : Record) :=
      (accepted a.taskId stateDispatched,
        (l.setEntry a.taskId entry).event now "dispatched" a.taskId
          ([("peer_id", .str a.peerId), ("artifact_digest", .str a.artifactDigest)] ++ detail))
    match a.task with
    | none => sent detail bundled
    | some task =>
      let kept := bundled.set "task" (.obj task.entries)
      match receiptDigest task with
      | .error e =>
        (refusal linkTaskShape s!"the task cannot be digested: {e}" a.taskId,
          l.setEntry a.taskId kept)
      | .ok digest =>
        sent (detail ++ [("task_digest", .str digest)]) (kept.set "task_digest" (.str digest))

/-- `dispatch`. -/
def dispatch (now : String) (a : DispatchArgs) (l : DeliveryLedger) : Answer × DeliveryLedger :=
  match l.tasks.get? a.taskId with
  | some prior =>
    (refusal linkReplayedTask
        (s!"task {Json.reprStr a.taskId} is already in the ledger, state " ++
          (prior.getOr "state").pyRepr ++ "; a task id is dispatched once") a.taskId,
      l.event now "dispatch-refused" a.taskId
        [("link", .str linkReplayedTask), ("state", prior.getOr "state")])
  | none => dispatchFresh receiptDigest now a l

end Dispatch

/-- The entry of a delivered task. -/
def deliveredEntry (now : String) (a : DeliverArgs) (entry : Record) : Record :=
  let settled := entry.update [("state", .str stateDelivered),
    ("result_digest", .str a.resultDigest), ("receipt_digest", .str a.receiptDigest),
    ("counts_as_evidence", .bool a.counts), ("delivered_at", .str now)]
  settled.update
    ((a.receipt.toList.map fun r => ("receipt", Json.obj r.entries)) ++
      a.attestation.toList.map fun r => ("attestation", Json.obj r.entries))

/-- `deliver`. -/
def deliver (now : String) (a : DeliverArgs) (l : DeliveryLedger) : Answer × DeliveryLedger :=
  match l.tasks.get? a.taskId with
  | none =>
    (refusal linkUnknownTask
        (s!"no task {Json.reprStr a.taskId} was dispatched from this ledger; a result for " ++
          "work nobody sent is not a delivery") a.taskId,
      l.event now "delivery-refused" a.taskId [("link", .str linkUnknownTask)])
  | some entry =>
    if entry.getOr "state" = Json.str stateDelivered then
      (refusal linkDeliveredTwice
          (s!"task {Json.reprStr a.taskId} was already delivered at " ++
            (entry.getOr "delivered_at").pyStr ++
            "; the second result is refused and recorded, not absorbed") a.taskId,
        l.event now "delivery-refused" a.taskId
          [("link", .str linkDeliveredTwice), ("result_digest", .str a.resultDigest),
            ("first_result_digest", entry.getOr "result_digest")])
    else if entry.getOr "state" = Json.str stateOrphaned then
      (refusal linkLateDelivery
          (s!"task {Json.reprStr a.taskId} was orphaned when peer " ++
            (entry.getOr "peer_id").pyRepr ++ " was withdrawn; a result arriving after that " ++
            "is recorded and does not revive the task") a.taskId,
        l.event now "delivery-refused" a.taskId
          [("link", .str linkLateDelivery), ("result_digest", .str a.resultDigest)])
    else
      -- a refused task has no guard of its own and is delivered like a dispatched one
      (accepted a.taskId stateDelivered,
        (l.setEntry a.taskId (deliveredEntry now a entry)).event now "delivered" a.taskId
          [("peer_id", .str a.peerId), ("result_digest", .str a.resultDigest),
            ("receipt_digest", .str a.receiptDigest), ("counts", .bool a.counts)])

/-- `refuse`. It answers that the task is refused whether or not it was moved. -/
def refuse (now taskId link reason : String) (l : DeliveryLedger) : Answer × DeliveryLedger :=
  let moved := match l.tasks.get? taskId with
    | none => l
    | some entry =>
      if entry.get? "state" = some (Json.str stateDispatched) then
        l.setEntry taskId (entry.update [("state", .str stateRefused), ("link", .str link),
          ("reason", .str reason), ("refused_at", .str now)])
      else l
  (accepted taskId stateRefused,
    moved.event now "refused" taskId [("link", .str link), ("reason", .str reason)])

/-- The entry `orphan` moves: an outstanding task of the peer. -/
def owed (peerId : String) (entry : Record) : Bool :=
  entry.get? "peer_id" = some (.str peerId) ∧ entry.get? "state" = some (.str stateDispatched)

/-- One pass of the loop of `orphan`. -/
def orphanTask (now peerId reason : String) (s : List Json × DeliveryLedger) (taskId : String) :
    List Json × DeliveryLedger :=
  match s.2.tasks.get? taskId with
  | none => s
  | some entry =>
    if owed peerId entry then
      (s.1 ++ [Json.str taskId],
        (s.2.setEntry taskId (entry.update [("state", .str stateOrphaned),
            ("reason", .str reason), ("orphaned_at", .str now)])).event now "orphaned" taskId
          [("peer_id", .str peerId), ("reason", .str reason)])
    else s

/-- `sorted(self.tasks)`. -/
def sortedIds (l : DeliveryLedger) : List String :=
  (l.tasks.entries.map Prod.fst).insertionSort (· ≤ ·)

/-- `orphan`. -/
def orphan (now peerId reason : String) (l : DeliveryLedger) : Answer × DeliveryLedger :=
  let s := l.sortedIds.foldl (orphanTask now peerId reason) ([], l)
  (.returned (.arr s.1), s.2)

/-! ## Persistence -/

def ledgerKind : String := "revl.pool-delivery-ledger"

def ledgerVersion : String := "1.0"

/-- `as_dict`. -/
def asDict (l : DeliveryLedger) : Json :=
  .obj [("kind", .str ledgerKind), ("version", .str ledgerVersion), ("pool_id", .str l.poolId),
    ("charter_digest", .str l.charterDigest),
    ("tasks", .obj ((l.tasks.entries.map fun p => (p.1, Json.obj p.2.entries)).insertionSort
      fun f g => f.1 ≤ g.1)),
    ("events", .arr (l.events.map fun e => .obj e.entries))]

def record? : Json → Option Record
  | .obj fields => some (.ofFields fields)
  | _ => none

/-- The records among the values of a dictionary, under their keys. -/
def recordFields (fields : List (String × Json)) : List (String × Record) :=
  fields.filterMap fun p => (record? p.2).map fun r => (p.1, r)

/-- `from_dict`, of a payload that is an object. -/
def fromDict (payload : Json) : DeliveryLedger where
  poolId := ((payload.get? "pool_id").getD (.str "")).pyStr
  charterDigest := ((payload.get? "charter_digest").getD (.str "")).pyStr
  tasks := match payload.get? "tasks" with
    | some (.obj fields) => Dict.empty.update (recordFields fields)
    | _ => .empty
  events := match payload.get? "events" with
    | some (.arr items) => items.filterMap record?
    | _ => []

/-- `save_ledger` and then `load_ledger`: the file is written with its keys sorted. -/
def saveLoad (l : DeliveryLedger) : DeliveryLedger := fromDict l.asDict.sortKeys

/-! ## Runs -/

/-- What a program may do with a ledger. -/
inductive Op where
  | dispatch (now : String) (args : DispatchArgs)
  | deliver (now : String) (args : DeliverArgs)
  | refuse (now taskId link reason : String)
  | orphan (now peerId reason : String)
  | saveLoad

/-- The task an operation names. -/
def Op.task : Op → Option String
  | .dispatch _ a => some a.taskId
  | .deliver _ a => some a.taskId
  | .refuse _ taskId _ _ => some taskId
  | .orphan .. => none
  | .saveLoad => none

section Runs

variable (receiptDigest : Record → Except String String)

def step (l : DeliveryLedger) : Op → Answer × DeliveryLedger
  | .dispatch now a => l.dispatch receiptDigest now a
  | .deliver now a => l.deliver now a
  | .refuse now taskId link reason => l.refuse now taskId link reason
  | .orphan now peerId reason => l.orphan now peerId reason
  | .saveLoad => (.returned .null, l.saveLoad)

/-- Each operation of a run with the ledger it found. -/
def trace (l : DeliveryLedger) : List Op → List (DeliveryLedger × Op)
  | [] => []
  | op :: ops => (l, op) :: trace (step receiptDigest l op).2 ops

/-- The operation accepts a result for the task. -/
def delivers (taskId : String) (s : DeliveryLedger × Op) : Bool :=
  match s.2 with
  | .deliver _ a => a.taskId = taskId ∧ (step receiptDigest s.1 s.2).1.accepts = true
  | _ => false

end Runs

/-- The name, the task and the link of an event. -/
def eventKey (e : Record) : Option String × Option String × Option String :=
  (e.getStr? "event", e.getStr? "task_id", e.getStr? "link")

def log (l : DeliveryLedger) : List (Option String × Option String × Option String) :=
  l.events.map eventKey

/-- What an operation may do to the state of a task. -/
inductive Move : Option String → Option String → Prop
  | stay (s : Option String) : Move s s
  | dispatched : Move none (some stateDispatched)
  | delivered : Move (some stateDispatched) (some stateDelivered)
  | orphaned : Move (some stateDispatched) (some stateOrphaned)
  | refused : Move (some stateDispatched) (some stateRefused)

/-- A state other than `dispatched` is never left. -/
theorem Move.eq_of_terminal {s : String} {s' : Option String} (h : Move (some s) s')
    (hs : s ≠ stateDispatched) : s' = some s := by
  generalize h₀ : some s = s₀ at h
  cases h with
  | stay => rfl
  | dispatched => cases h₀
  | delivered => exact absurd (Option.some.inj h₀) hs
  | orphaned => exact absurd (Option.some.inj h₀) hs
  | refused => exact absurd (Option.some.inj h₀) hs

/-- One operation, the ledger it found, its answer and the ledger it left. -/
structure Disciplined (l : DeliveryLedger) (op : Op) (answer : Answer) (l' : DeliveryLedger) :
    Prop where
  moves : ∀ taskId, Move (l.stateOf taskId) (l'.stateOf taskId)
  /-- No event is lost. -/
  kept : l.log <+: l'.log
  /-- A refusal is recorded, with the task and the link it names. -/
  recorded : answer.refuses = true → ∃ name taskId link, op.task = some taskId ∧
    answer.link = some (.str link) ∧ l'.log = l.log ++ [(some name, some taskId, some link)]
  /-- A refusal leaves the entry of the task as it was. -/
  untouched : answer.refuses = true → ∀ taskId, op.task = some taskId →
    l'.tasks.get? taskId = l.tasks.get? taskId

/-- No result arrives for a refused task, and a fresh task has a digest. -/
def Regular (receiptDigest : Record → Except String String) (l : DeliveryLedger) : Op → Prop
  | .deliver _ a => l.stateOf a.taskId ≠ some stateRefused
  | .dispatch _ a => l.stateOf a.taskId = none →
      (a.bundle.map fun b => lenOr (b.get? "files")) ≠ some none →
        ∀ task ∈ a.task, ∃ digest, receiptDigest task = .ok digest
  | _ => True

/-! ## What the operations read -/

theorem state_set_of_ne {r : Record} {key : String} (v : Json) (h : "state" ≠ key) :
    Record.state (r.set key v) = r.state := by
  rw [Record.state, Record.getStr?, Dict.get?_set_of_ne v h]
  rfl

theorem state_update_of_notMem {r : Record} {bindings : List (String × Json)}
    (h : "state" ∉ bindings.map Prod.fst) : Record.state (r.update bindings) = r.state := by
  rw [Record.state, Record.getStr?, Dict.get?_update_of_notMem h]
  rfl

theorem state_update_cons {r : Record} {bindings : List (String × Json)} (s : String)
    (h : "state" ∉ bindings.map Prod.fst) :
    Record.state (r.update (("state", .str s) :: bindings)) = s := by
  show Record.state ((r.set "state" (.str s)).update bindings) = s
  rw [state_update_of_notMem h, Record.state, Record.getStr?, Dict.get?_set_self]
  rfl

theorem freshEntry_state (now : String) (a : DispatchArgs) :
    (freshEntry now a).state = stateDispatched := by
  rw [freshEntry, Record.state, Record.getStr?, Record.ofFields, Dict.get?_update (by simp)]
  rfl

theorem deliveredEntry_state (now : String) (a : DeliverArgs) (entry : Record) :
    (deliveredEntry now a entry).state = stateDelivered := by
  rw [deliveredEntry, state_update_of_notMem, state_update_cons]
  · simp
  · cases a.receipt <;> cases a.attestation <;> simp

theorem stateOf_setEntry (l : DeliveryLedger) (taskId : String) (entry : Record) (t : String) :
    (l.setEntry taskId entry).stateOf t = if t = taskId then some entry.state else l.stateOf t := by
  rw [stateOf, setEntry, Dict.get?_set]
  split
  · rfl
  · rfl

@[simp] theorem stateOf_event (l : DeliveryLedger) (now name taskId : String)
    (extra : List (String × Json)) (t : String) :
    (l.event now name taskId extra).stateOf t = l.stateOf t := rfl

/-- An event is put at the end of the log. -/
theorem log_event_link (l : DeliveryLedger) (now name taskId link : String)
    {extra : List (String × Json)} (h : "event" ∉ extra.map Prod.fst)
    (h' : "task_id" ∉ extra.map Prod.fst) (h'' : "link" ∉ extra.map Prod.fst) :
    (l.event now name taskId (("link", .str link) :: extra)).log =
      l.log ++ [(some name, some taskId, some link)] := by
  rw [log, log, event, List.map_append]
  refine congrArg (l.log ++ [·]) ?_
  have hread : ∀ key, key ∉ extra.map Prod.fst →
      Dict.get? (Record.ofFields
        ([("event", .str name), ("task_id", .str taskId), ("at", .str now)] ++
          ("link", .str link) :: extra)) key =
      Dict.get? (Record.ofFields [("event", .str name), ("task_id", .str taskId),
        ("at", .str now), ("link", .str link)]) key := by
    intro key hkey
    rw [List.append_cons, Record.ofFields, Dict.update_append, Dict.get?_update_of_notMem hkey]
    rfl
  simp only [eventKey, Record.getStr?, hread _ h, hread _ h', hread _ h'']
  rfl

theorem log_event (l : DeliveryLedger) (now name taskId : String) (extra : List (String × Json)) :
    l.log <+: (l.event now name taskId extra).log := by
  refine ⟨[eventKey (.ofFields
    ([("event", .str name), ("task_id", .str taskId), ("at", .str now)] ++ extra))], ?_⟩
  rw [log, log, event, List.map_append]
  rfl

/-- The state of a task that has one tells what its entry carries. -/
theorem get?_state_iff {entry : Record} {s : String} (hs : s ≠ "") :
    entry.get? "state" = some (.str s) ↔ entry.state = s := by
  rw [Record.state, Record.getStr?]
  cases entry.get? "state" with
  | none => simp [hs.symm]
  | some v => cases v <;> simp [Json.str?, hs.symm]

theorem getOr_state_iff {entry : Record} {s : String} (hs : s ≠ "") :
    entry.getOr "state" = Json.str s ↔ entry.state = s := by
  rw [← get?_state_iff hs, Record.getOr]
  cases entry.get? "state" with
  | none => simp [hs.symm]
  | some v => simp

/-! ## One operation -/

/-- Every task is in one of the four states. -/
def Known (l : DeliveryLedger) : Prop :=
  ∀ taskId s, l.stateOf taskId = some s →
    s = stateDispatched ∨ s = stateDelivered ∨ s = stateOrphaned ∨ s = stateRefused

theorem stateOf_eq_none_iff {l : DeliveryLedger} {taskId : String} :
    l.stateOf taskId = none ↔ l.tasks.get? taskId = none := by
  rw [stateOf, Option.map_eq_none_iff]

theorem known_of_move {l l' : DeliveryLedger} (h : l.Known)
    (hmove : ∀ taskId, Move (l.stateOf taskId) (l'.stateOf taskId)) : l'.Known := by
  intro taskId s hs
  have hm := hmove taskId
  rw [hs] at hm
  generalize hs₀ : l.stateOf taskId = s₀ at hm
  cases hm with
  | stay => exact h taskId s hs₀
  | dispatched => exact .inl rfl
  | delivered => exact .inr (.inl rfl)
  | orphaned => exact .inr (.inr (.inl rfl))
  | refused => exact .inr (.inr (.inr rfl))

/-- An operation that accepts and moves one task is disciplined where the move is lawful. -/
theorem disciplined_of_set {l : DeliveryLedger} {op : Op} {answer : Answer} {taskId : String}
    {entry : Record} {now name : String} {extra : List (String × Json)}
    (hanswer : answer.refuses = false) (hmove : Move (l.stateOf taskId) (some entry.state)) :
    Disciplined l op answer ((l.setEntry taskId entry).event now name taskId extra) := by
  refine ⟨?_, log_event _ _ _ _ _, ?_, ?_⟩
  · intro t
    rw [stateOf_event, stateOf_setEntry]
    split
    next ht => exact ht ▸ hmove
    next => exact .stay _
  · simp [hanswer]
  · simp [hanswer]

/-- An operation that accepts and only records an event is disciplined. -/
theorem disciplined_of_event {l : DeliveryLedger} {op : Op} {answer : Answer}
    {taskId now name : String} {extra : List (String × Json)} (hanswer : answer.refuses = false) :
    Disciplined l op answer (l.event now name taskId extra) := by
  refine ⟨fun t => .stay _, log_event _ _ _ _ _, ?_, ?_⟩
  · simp [hanswer]
  · simp [hanswer]

/-- A refusal that only records an event is disciplined. -/
theorem disciplined_of_refusal {l : DeliveryLedger} {op : Op} {taskId link reason now name : String}
    {extra : List (String × Json)} (hop : op.task = some taskId)
    (h : "event" ∉ extra.map Prod.fst) (h' : "task_id" ∉ extra.map Prod.fst)
    (h'' : "link" ∉ extra.map Prod.fst) :
    Disciplined l op (refusal link reason taskId)
      (l.event now name taskId (("link", .str link) :: extra)) := by
  refine ⟨fun t => .stay _, log_event _ _ _ _ _, fun _ => ?_, fun _ t _ => rfl⟩
  exact ⟨name, taskId, link, hop, refusal_link _ _ _,
    log_event_link l now name taskId link h h' h''⟩

section Step

variable {receiptDigest : Record → Except String String}

theorem dispatchFresh_disciplined {now : String} {a : DispatchArgs} {l : DeliveryLedger}
    (hfresh : l.stateOf a.taskId = none) (hreg : Regular receiptDigest l (.dispatch now a)) :
    Disciplined l (.dispatch now a) (dispatchFresh receiptDigest now a l).1
      (dispatchFresh receiptDigest now a l).2 := by
  have hbundled : Record.state (match a.bundle with
      | none => freshEntry now a
      | some b => (freshEntry now a).set "bundle" (.obj b.entries)) = stateDispatched := by
    cases a.bundle with
    | none => exact freshEntry_state now a
    | some b => exact (state_set_of_ne _ (by decide)).trans (freshEntry_state now a)
  have hmove : ∀ entry : Record, entry.state = stateDispatched →
      Move (l.stateOf a.taskId) (some entry.state) := by
    intro entry hentry
    rw [hfresh, hentry]
    exact .dispatched
  unfold dispatchFresh
  dsimp only
  split
  next hraise =>
    refine ⟨?_, List.prefix_refl _, nofun, nofun⟩
    intro t
    rw [stateOf_setEntry]
    split
    next ht => exact ht ▸ hmove _ hbundled
    next => exact .stay _
  next hcount =>
    split
    next hnone => exact disciplined_of_set (accepted_refuses _ _) (hmove _ hbundled)
    next task htask =>
      obtain ⟨digest, hdigest⟩ := hreg hfresh hcount task htask
      rw [hdigest]
      refine disciplined_of_set (accepted_refuses _ _) (hmove _ ?_)
      rw [state_set_of_ne _ (by decide), state_set_of_ne _ (by decide), hbundled]

theorem dispatch_disciplined {now : String} {a : DispatchArgs} {l : DeliveryLedger}
    (hreg : Regular receiptDigest l (.dispatch now a)) :
    Disciplined l (.dispatch now a) (l.dispatch receiptDigest now a).1
      (l.dispatch receiptDigest now a).2 := by
  unfold dispatch
  cases hentry : l.tasks.get? a.taskId with
  | none => exact dispatchFresh_disciplined (stateOf_eq_none_iff.mpr hentry) hreg
  | some prior => exact disciplined_of_refusal rfl (by simp) (by simp) (by simp)

theorem deliver_disciplined {now : String} {a : DeliverArgs} {l : DeliveryLedger}
    (hknown : l.Known) (hreg : l.stateOf a.taskId ≠ some stateRefused) :
    Disciplined l (.deliver now a) (l.deliver now a).1 (l.deliver now a).2 := by
  unfold deliver
  cases hentry : l.tasks.get? a.taskId with
  | none => exact disciplined_of_refusal rfl (by simp) (by simp) (by simp)
  | some entry =>
    have hstate : l.stateOf a.taskId = some entry.state := by rw [stateOf, hentry]; rfl
    dsimp only
    split
    next => exact disciplined_of_refusal rfl (by simp) (by simp) (by simp)
    next hdelivered =>
      split
      next => exact disciplined_of_refusal rfl (by simp) (by simp) (by simp)
      next horphaned =>
        rw [getOr_state_iff (by decide)] at hdelivered horphaned
        refine disciplined_of_set (accepted_refuses _ _) ?_
        rw [deliveredEntry_state, hstate]
        rw [hstate] at hreg
        rcases hknown a.taskId entry.state hstate with hs | hs | hs | hs
        · rw [hs]
          exact .delivered
        · exact absurd hs hdelivered
        · exact absurd hs horphaned
        · exact absurd (congrArg some hs) hreg

theorem refuse_disciplined (now taskId link reason : String) (l : DeliveryLedger) :
    Disciplined l (.refuse now taskId link reason) (l.refuse now taskId link reason).1
      (l.refuse now taskId link reason).2 := by
  have hstay : Disciplined l (.refuse now taskId link reason) (accepted taskId stateRefused)
      (l.event now "refused" taskId [("link", .str link), ("reason", .str reason)]) :=
    disciplined_of_event (accepted_refuses _ _)
  unfold refuse
  cases hentry : l.tasks.get? taskId with
  | none => exact hstay
  | some entry =>
    dsimp only
    split
    next hdispatched =>
      refine disciplined_of_set (accepted_refuses _ _) ?_
      rw [state_update_cons _ (by simp), stateOf, hentry]
      rw [get?_state_iff (by decide)] at hdispatched
      rw [Option.map_some, hdispatched]
      exact .refused
    next => exact hstay

/-- What the loop of `orphan` does: outstanding tasks are orphaned, the others left. -/
def Orphans (l l' : DeliveryLedger) : Prop :=
  (∀ t, l'.stateOf t = l.stateOf t ∨
    l.stateOf t = some stateDispatched ∧ l'.stateOf t = some stateOrphaned) ∧ l.log <+: l'.log

theorem orphanTask_orphans (now peerId reason : String) (s : List Json × DeliveryLedger)
    (taskId : String) : Orphans s.2 (orphanTask now peerId reason s taskId).2 := by
  unfold orphanTask
  cases hentry : s.2.tasks.get? taskId with
  | none => exact ⟨fun t => .inl rfl, List.prefix_refl _⟩
  | some entry =>
    dsimp only
    split
    next howed =>
      refine ⟨fun t => ?_, log_event (s.2.setEntry taskId _) _ _ _ _⟩
      rw [stateOf_event, stateOf_setEntry]
      split
      next ht =>
        right
        rw [state_update_cons _ (by simp), ht, stateOf, hentry, Option.map_some]
        rw [owed, decide_eq_true_iff, get?_state_iff (by decide)] at howed
        exact ⟨congrArg some howed.2, rfl⟩
      next => exact .inl rfl
    next => exact ⟨fun t => .inl rfl, List.prefix_refl _⟩

theorem Orphans.trans {l l' l'' : DeliveryLedger} (h : Orphans l l') (h' : Orphans l' l'') :
    Orphans l l'' := by
  refine ⟨fun t => ?_, h.2.trans h'.2⟩
  rcases h'.1 t with hs' | ⟨hs', ho'⟩
  · rw [hs']
    exact h.1 t
  · rcases h.1 t with hs | ⟨-, ho⟩
    · exact .inr ⟨hs ▸ hs', ho'⟩
    · rw [ho] at hs'
      exact absurd (Option.some.inj hs') (by decide)

theorem orphan_disciplined (now peerId reason : String) (l : DeliveryLedger) :
    Disciplined l (.orphan now peerId reason) (l.orphan now peerId reason).1
      (l.orphan now peerId reason).2 := by
  have hloop : ∀ (ids : List String) (s : List Json × DeliveryLedger),
      Orphans s.2 (ids.foldl (orphanTask now peerId reason) s).2 := by
    intro ids
    induction ids with
    | nil => exact fun s => ⟨fun t => .inl rfl, List.prefix_refl _⟩
    | cons taskId ids ih => exact fun s => (orphanTask_orphans _ _ _ s taskId).trans (ih _)
  obtain ⟨hstates, hlog⟩ := hloop l.sortedIds ([], l)
  refine ⟨fun t => ?_, hlog, nofun, nofun⟩
  rcases hstates t with hs | ⟨hs, ho⟩
  · show Move _ ((l.orphan now peerId reason).2.stateOf t)
    rw [orphan, hs]
    exact .stay _
  · show Move _ ((l.orphan now peerId reason).2.stateOf t)
    rw [orphan, hs, ho]
    exact .orphaned

end Step

/-! ## Writing the ledger out and reading it back -/

theorem str?_sortKeys (v : Json) : v.sortKeys.str? = v.str? := by cases v <;> rfl

/-- The fields of a record in order, as the file has them. -/
def sortedFields (fields : List (String × Json)) : List (String × Json) :=
  (Json.sortFields fields).insertionSort fun f g => f.1 ≤ g.1

theorem sortedFields_nodup {fields : List (String × Json)} (h : (fields.map Prod.fst).Nodup) :
    ((sortedFields fields).map Prod.fst).Nodup := by
  rw [sortedFields, ((List.perm_insertionSort _ _).map Prod.fst).nodup_iff, Json.sortFields_eq_map,
    List.map_map]
  exact h

theorem get?_sortedFields {fields : List (String × Json)} (h : (fields.map Prod.fst).Nodup)
    (key : String) :
    Assoc.get? (sortedFields fields) key = (Assoc.get? fields key).map Json.sortKeys := by
  have := Json.get?_sortKeys h key
  rwa [Json.sortKeys] at this

/-- A record as it is read back from the file. -/
def reload (r : Record) : Record := .ofFields (sortedFields r.entries)

theorem get?_reload (r : Record) (key : String) :
    (reload r).get? key = (r.get? key).map Json.sortKeys := by
  rw [reload, Record.ofFields, Dict.get?_update (sortedFields_nodup r.nodup),
    get?_sortedFields r.nodup, Dict.get?_empty, Option.or_none]
  rfl

theorem getStr?_reload (r : Record) (key : String) :
    Record.getStr? (reload r) key = r.getStr? key := by
  rw [Record.getStr?, get?_reload, Record.getStr?]
  cases r.get? key with
  | none => rfl
  | some v => exact str?_sortKeys v

theorem get?_recordFields {fields : List (String × Json)} (h : (fields.map Prod.fst).Nodup)
    (key : String) :
    (Dict.empty.update (recordFields fields)).get? key = (Assoc.get? fields key).bind record? := by
  have hmem : ∀ r, (key, r) ∈ recordFields fields ↔
      ∃ v, (key, v) ∈ fields ∧ record? v = some r := by
    intro r
    simp only [recordFields, List.mem_filterMap, Option.map_eq_some_iff, Prod.mk.injEq]
    constructor
    · rintro ⟨⟨k, v⟩, hp, r', hr, hk, rfl⟩
      exact ⟨v, hk ▸ hp, hr⟩
    · rintro ⟨v, hv, hr⟩
      exact ⟨(key, v), hv, r, hr, rfl, rfl⟩
  have hkeys : ((recordFields fields).map Prod.fst).Nodup := by
    refine h.sublist ?_
    clear h hmem
    induction fields with
    | nil => exact List.Sublist.refl _
    | cons p fields ih =>
      rw [recordFields, List.filterMap_cons]
      cases record? p.2 with
      | none => exact ih.cons _
      | some r => exact ih.cons_cons _
  rw [Dict.get?_update hkeys, Dict.get?_empty, Option.or_none]
  refine Option.ext fun r => ?_
  rw [Assoc.get?_eq_some_iff hkeys, hmem, Option.bind_eq_some_iff]
  simp only [Assoc.get?_eq_some_iff h]

/-- The fields `as_dict` writes. -/
theorem get?_asDict (l : DeliveryLedger) (key : String) :
    l.asDict.sortKeys.get? key = (l.asDict.get? key).map Json.sortKeys :=
  Json.get?_sortKeys (by simp) key

/-- Every entry is read back. -/
theorem get?_saveLoad (l : DeliveryLedger) (taskId : String) :
    l.saveLoad.tasks.get? taskId = (l.tasks.get? taskId).map reload := by
  have hnodup : (((l.tasks.entries.map fun p => (p.1, Json.obj p.2.entries)).insertionSort
      fun f g => f.1 ≤ g.1).map Prod.fst).Nodup := by
    rw [((List.perm_insertionSort _ _).map Prod.fst).nodup_iff, List.map_map]
    exact l.tasks.nodup
  have htasks : l.asDict.sortKeys.get? "tasks" = some (.obj (sortedFields
      ((l.tasks.entries.map fun p => (p.1, Json.obj p.2.entries)).insertionSort
        fun f g => f.1 ≤ g.1))) := by
    rw [get?_asDict]
    simp [asDict, Json.get?, Assoc.get?_cons, Json.sortKeys, sortedFields]
  rw [saveLoad, fromDict, htasks]
  dsimp only
  rw [get?_recordFields (sortedFields_nodup hnodup), get?_sortedFields hnodup,
    Assoc.get?_perm hnodup (List.perm_insertionSort _ _),
    Assoc.get?_map_snd (fun _ (r : Record) => Json.obj r.entries) l.tasks.entries taskId]
  cases h : Assoc.get? l.tasks.entries taskId with
  | none => simp [Dict.get?, h]
  | some r => simp [Dict.get?, h, record?, Json.sortKeys, reload, sortedFields]

theorem stateOf_saveLoad (l : DeliveryLedger) (taskId : String) :
    l.saveLoad.stateOf taskId = l.stateOf taskId := by
  rw [stateOf, get?_saveLoad, stateOf]
  cases l.tasks.get? taskId with
  | none => rfl
  | some r => simp [Record.state, getStr?_reload]

theorem events_saveLoad (l : DeliveryLedger) : l.saveLoad.events = l.events.map reload := by
  have hevents : l.asDict.sortKeys.get? "events" =
      some (.arr (l.events.map fun e => .obj (sortedFields e.entries))) := by
    rw [get?_asDict]
    simp [asDict, Json.get?, Assoc.get?_cons, Json.sortKeys, Json.sortItems_eq_map, sortedFields]
  rw [saveLoad, fromDict, hevents]
  dsimp only
  rw [List.filterMap_map]
  exact congrFun List.filterMap_eq_map l.events

theorem log_saveLoad (l : DeliveryLedger) : l.saveLoad.log = l.log := by
  rw [log, events_saveLoad, log, List.map_map]
  refine List.map_congr_left fun e _ => ?_
  simp [eventKey, getStr?_reload]

theorem saveLoad_disciplined (l : DeliveryLedger) :
    Disciplined l .saveLoad (.returned .null) l.saveLoad := by
  refine ⟨fun t => ?_, ?_, nofun, nofun⟩
  · rw [stateOf_saveLoad]
    exact .stay _
  · refine ⟨[], ?_⟩
    rw [List.append_nil, log_saveLoad]

/-! ## Runs -/

section Runs

variable {receiptDigest : Record → Except String String}

theorem step_disciplined {l : DeliveryLedger} {op : Op} (hknown : l.Known)
    (hreg : Regular receiptDigest l op) :
    Disciplined l op (step receiptDigest l op).1 (step receiptDigest l op).2 := by
  cases op with
  | dispatch now a => exact dispatch_disciplined hreg
  | deliver now a => exact deliver_disciplined hknown hreg
  | refuse now taskId link reason => exact refuse_disciplined now taskId link reason l
  | orphan now peerId reason => exact orphan_disciplined now peerId reason l
  | saveLoad => exact saveLoad_disciplined l

/-- `deliver` of a refused task delivers it. -/
theorem stateOf_deliver_refused {now : String} {a : DeliverArgs} {l : DeliveryLedger}
    (h : l.stateOf a.taskId = some stateRefused) :
    (l.deliver now a).2.stateOf a.taskId = some stateDelivered := by
  rw [stateOf, Option.map_eq_some_iff] at h
  obtain ⟨entry, hentry, hstate⟩ := h
  have hdelivered : ¬ entry.getOr "state" = Json.str stateDelivered := by
    rw [getOr_state_iff (by decide), hstate]
    decide
  have horphaned : ¬ entry.getOr "state" = Json.str stateOrphaned := by
    rw [getOr_state_iff (by decide), hstate]
    decide
  rw [deliver, hentry]
  dsimp only
  rw [if_neg hdelivered, if_neg horphaned]
  dsimp only
  rw [stateOf_event, stateOf_setEntry, if_pos rfl, deliveredEntry_state]

/-- `dispatch` of a fresh task without a digest refuses and records nothing. -/
theorem dispatch_undigested (now : String) {e : String} {a : DispatchArgs} {l : DeliveryLedger}
    {task : Record} (hfresh : l.stateOf a.taskId = none)
    (hfiles : (a.bundle.map fun b => lenOr (b.get? "files")) ≠ some none)
    (htask : a.task = some task) (hdigest : receiptDigest task = .error e) :
    (l.dispatch receiptDigest now a).1.refuses = true ∧
      (l.dispatch receiptDigest now a).2.log = l.log := by
  rw [dispatch, stateOf_eq_none_iff.mp hfresh]
  dsimp only
  rw [dispatchFresh, if_neg hfiles, htask]
  dsimp only
  rw [hdigest]
  exact ⟨refusal_refuses _ _ _, rfl⟩

theorem regular_of_disciplined {l : DeliveryLedger} {op : Op}
    (h : Disciplined l op (step receiptDigest l op).1 (step receiptDigest l op).2) :
    Regular receiptDigest l op := by
  cases op with
  | dispatch now a =>
    intro hfresh hfiles task htask
    cases hdigest : receiptDigest task with
    | ok digest => exact ⟨digest, rfl⟩
    | error e =>
      obtain ⟨hrefuses, hlog⟩ := dispatch_undigested now hfresh hfiles htask hdigest
      obtain ⟨name, taskId, link, -, -, hrecorded⟩ := h.recorded hrefuses
      rw [step, hlog] at hrecorded
      simp at hrecorded
  | deliver now a =>
    intro hrefused
    have hmove := h.moves a.taskId
    rw [step, stateOf_deliver_refused hrefused, hrefused] at hmove
    exact absurd (Option.some.inj (hmove.eq_of_terminal (by decide))) (by decide)
  | refuse now taskId link reason => exact trivial
  | orphan now peerId reason => exact trivial
  | saveLoad => exact trivial

/-- An accepted result leaves its task delivered, and it was not delivered before. -/
theorem delivers_states {l : DeliveryLedger} {op : Op} {taskId : String}
    (h : delivers receiptDigest taskId (l, op) = true) :
    l.stateOf taskId ≠ some stateDelivered ∧
      (step receiptDigest l op).2.stateOf taskId = some stateDelivered := by
  cases op with
  | deliver now a =>
    simp only [delivers, decide_eq_true_eq] at h
    obtain ⟨rfl, haccepts⟩ := h
    rw [step, deliver] at haccepts ⊢
    cases hentry : l.tasks.get? a.taskId with
    | none => simp [hentry, refusal_accepts] at haccepts
    | some entry =>
      rw [hentry] at haccepts
      dsimp only at haccepts ⊢
      split at haccepts
      next => simp [refusal_accepts] at haccepts
      next hdelivered =>
        split at haccepts
        next => simp [refusal_accepts] at haccepts
        next horphaned =>
          rw [if_neg hdelivered, if_neg horphaned]
          rw [getOr_state_iff (by decide)] at hdelivered
          refine ⟨?_, ?_⟩
          · rw [stateOf, hentry]
            simpa using hdelivered
          · dsimp only
            rw [stateOf_event, stateOf_setEntry, if_pos rfl, deliveredEntry_state]
  | dispatch now a => cases h
  | refuse now t link reason => cases h
  | orphan now peerId reason => cases h
  | saveLoad => cases h

/-- A run: every operation is disciplined, and a task has at most one result accepted. -/
structure Final (receiptDigest : Record → Except String String) (l : DeliveryLedger)
    (ops : List Op) : Prop where
  disciplined : ∀ s ∈ trace receiptDigest l ops,
    Disciplined s.1 s.2 (step receiptDigest s.1 s.2).1 (step receiptDigest s.1 s.2).2
  once : ∀ taskId, (trace receiptDigest l ops).countP (delivers receiptDigest taskId) ≤ 1

theorem trace_disciplined {l : DeliveryLedger} {ops : List Op} (hknown : l.Known)
    (hreg : ∀ s ∈ trace receiptDigest l ops, Regular receiptDigest s.1 s.2) :
    ∀ s ∈ trace receiptDigest l ops,
      Disciplined s.1 s.2 (step receiptDigest s.1 s.2).1 (step receiptDigest s.1 s.2).2 := by
  induction ops generalizing l with
  | nil => nofun
  | cons op ops ih =>
    rw [trace, List.forall_mem_cons] at hreg ⊢
    have hstep := step_disciplined hknown hreg.1
    exact ⟨hstep, ih (known_of_move hknown hstep.moves) hreg.2⟩

/-- A delivered task accepts no further result, and another accepts at most one. -/
theorem countP_delivers_le {l : DeliveryLedger} {ops : List Op} (taskId : String)
    (h : ∀ s ∈ trace receiptDigest l ops,
      Disciplined s.1 s.2 (step receiptDigest s.1 s.2).1 (step receiptDigest s.1 s.2).2) :
    (trace receiptDigest l ops).countP (delivers receiptDigest taskId) ≤
      if l.stateOf taskId = some stateDelivered then 0 else 1 := by
  induction ops generalizing l with
  | nil => exact Nat.zero_le _
  | cons op ops ih =>
    rw [trace, List.forall_mem_cons] at h
    rw [trace, List.countP_cons]
    have hrest := ih h.2
    by_cases hdelivers : delivers receiptDigest taskId (l, op) = true
    · obtain ⟨hbefore, hafter⟩ := delivers_states hdelivers
      rw [if_pos hafter] at hrest
      rw [if_pos hdelivers, if_neg hbefore]
      omega
    · rw [if_neg hdelivers, Nat.add_zero]
      refine hrest.trans ?_
      by_cases hbefore : l.stateOf taskId = some stateDelivered
      · have hmove := h.1.moves taskId
        rw [hbefore] at hmove
        rw [if_pos (hmove.eq_of_terminal (by decide)), if_pos hbefore]
      · rw [if_neg hbefore]
        split <;> omega

theorem known_new (poolId charterDigest : String) : (new poolId charterDigest).Known := nofun

/-- **Final delivery**: on a new ledger a run keeps the discipline, and delivers no task twice,
exactly where no result arrives for a refused task and no fresh task without a digest is
dispatched. -/
theorem delivery_is_final_iff (receiptDigest : Record → Except String String)
    (poolId charterDigest : String) (ops : List Op) :
    Final receiptDigest (new poolId charterDigest) ops ↔
      ∀ s ∈ trace receiptDigest (new poolId charterDigest) ops, Regular receiptDigest s.1 s.2 := by
  constructor
  · intro h s hs
    exact regular_of_disciplined (h.disciplined s hs)
  · intro h
    have hdisc := trace_disciplined (known_new poolId charterDigest) h
    refine ⟨hdisc, fun taskId => (countP_delivers_le taskId hdisc).trans ?_⟩
    split <;> omega

/-- A result that comes back after the task was refused is delivered all the same. -/
theorem refused_then_delivered :
    ¬ Final (fun _ => .ok "d0") (new "lab" "c0")
      [.dispatch "1" ⟨"t-1", "worker", "a0", "test-py", "pure", none, none⟩,
        .refuse "2" "t-1" "result-digest" "mismatch",
        .deliver "3" ⟨"t-1", "worker", "r0", "e0", true, none, none⟩] := by
  intro h
  have hreg := fun s hs => regular_of_disciplined (h.disciplined s hs)
  simp only [trace, List.forall_mem_cons] at hreg
  obtain ⟨-, -, hdeliver, -⟩ := hreg
  exact hdeliver (by decide +kernel)

end Runs

end DeliveryLedger

end Revl.Pool
