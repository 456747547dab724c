import Revl.Lib.Fallible
import Revl.Pool.Delivery

/-!
# A peer running tasks (`pool_dispatch.py`)

A peer reads frames from the wire. A frame that passes every check of `_handle` is executed, a
receipt for it is issued, and only then is its task id put among the ones this peer has run.

- `checkTask`: the checks of `_handle` in their order, down to the task ids seen.
- `handle`: one frame, with what its execution and its receipt came to.
- `checked_admitted`: a record that passes is a task of the pinned operator for this peer.
- `runs_each_task_once`: **what is executed was admitted, a run whose executions all come to a
  receipt executes no task twice, and an execution that does not may be had again.**
-/

namespace Revl.Pool

/-! ## Constants -/

def taskKind : String := "revl.pool-task"

def taskVersion : String := "1.1"

def taskVersionV1 : String := "1.0"

def probeKind : String := "revl.pool-probe"

def linkTaskSignature : String := "task-signature"

def linkPoolIdentity : String := "pool-identity"

def linkCharterIdentity : String := "charter-identity"

def linkPolicyIdentity : String := "policy-identity"

def linkPeerIdentity : String := "peer-identity"

def linkArtifactDigest : String := "artifact-digest"

def linkUnknownRunner : String := "unknown-runner"

/-- The names of `RUNNERS`, in order. -/
def runners : List String := ["run-once-py", "test-py"]

/-- `_refusal`, with the context it is given. -/
def refusalWith (link reason : String) (extra : List (String × Json)) : Answer :=
  .returned (.obj ([("ok", .bool false), ("link", .str link), ("reason", .str reason)] ++ extra))

/-! ## The shape of a task -/

/-- The member of a record, the empty string where it has none. -/
def member (record : Json) (name : String) : String := (record.getStr? name).getD ""

/-- `{record.get(name)!r}`. -/
def memberRepr (record : Json) (name : String) : String :=
  ((record.get? name).getD .null).pyRepr

/-- `grant_block(grant)` is not `None`. -/
def grantReadable (grant : Option Json) : Bool :=
  match grant with
  | some (.obj fields) =>
    let caps := match Assoc.get? fields "caps" with
      | some (.arr caps) => caps.all fun cap => match cap with
        | .str s => s ≠ ""
        | _ => false
      | _ => false
    let budgets := match (Assoc.get? fields "budgets").getD (.obj []) with
      | .obj budgets => budgets.all fun b => b.1 != "" && match b.2 with
        | .int n => decide (0 ≤ n)
        | _ => false
      | _ => false
    caps && budgets
  | _ => false

/-- The members every task carries. -/
def taskMembers : List String :=
  ["pool_id", "charter_digest", "peer_id", "task_id", "artifact_digest", "artifact", "runner",
    "effect_class", "issued_at"]

/-- A member is a string, and only the artifact may be empty. -/
def memberOk (record : Json) (name : String) : Bool :=
  match record.get? name with
  | some (.str v) => v ≠ "" ∨ name = "artifact"
  | _ => false

/-- The task id names a directory on the peer. -/
def taskIdOk (taskId : String) : Bool :=
  taskId.length ≤ 64 ∧
    (taskId.toList.all fun c => c.isAlphanum || c = '-' || c = '_' || c = '.') = true ∧
    taskId ≠ "." ∧ taskId ≠ ".."

/-- What is wrong with the authority members of a 1.1 task. -/
def authorityShape (record : Json) : String :=
  if member record "version" = taskVersion then
    if grantReadable (record.get? "grant") = false then
      "grant is missing or is not a capability set with non-negative integer budgets"
    else if member record "policy_digest" = "" then "policy_digest is missing or not a string"
    else ""
  else ""

/-- `_task_shape`. -/
def taskShape (record : Json) : String :=
  match record with
  | .obj _ =>
    if record.get? "kind" ≠ some (.str taskKind) then
      "kind is " ++ memberRepr record "kind" ++ s!", expected {Json.reprStr taskKind}"
    else if record.get? "version" ≠ some (.str taskVersionV1) ∧
        record.get? "version" ≠ some (.str taskVersion) then
      "version is " ++ memberRepr record "version" ++ ", not one this peer knows " ++
        s!"({Json.reprStr taskVersionV1} or {Json.reprStr taskVersion})"
    else match taskMembers.find? fun name => !memberOk record name with
      | some name => s!"{name} is missing or not a string"
      | none =>
        if authorityShape record ≠ "" then authorityShape record
        else if taskIdOk (member record "task_id") = false then
          "task_id must be 1-64 characters of ASCII letters, digits, '-', '_' or '.', because " ++
            "it names a directory on the peer"
        else if (record.get? "bundle").isSome = true ∧ member record "artifact" ≠ "" then
          "a task carries one artifact or one bundle, never both"
        else ""
  | _ => "the record is not an object"

/-! ## The peer -/

/-- What a task carries: one file, or a bundle as it was received. -/
inductive Artifact where
  | file (text : String)
  | bundle (files : Json)
  deriving DecidableEq

/-- A check that did not pass in a bundle. -/
structure Problem where
  kind : String
  paths : List String
  reason : String

/-- What a call under the peer may raise. -/
inductive Raise where
  | backendUnavailable (message : String)
  | other (error : String)

/-- The keys and digests a peer works with. -/
structure Wire where
  /-- `verify_record` under the operator's key this peer pinned. -/
  verifyRecord : Json → Except String Unit
  /-- `pool_bundle.receive`. -/
  receive : Json → String → Except Problem Json
  digestOf : Artifact → String
  answerProbe : Json → Except Raise Json

structure PeerRunner where
  /-- `charter_record.get("pool_id")`. -/
  poolId : Option Json
  /-- `charter_record.get("artifact_digests") or ()`. -/
  artifactDigests : List Json
  charterDigest : String
  peerId : String

/-- The first sixteen characters. -/
def short (digest : String) : String := String.ofList (digest.toList.take 16)

/-- Go on where a check passes. -/
def require (ok : Bool) (refused : Answer) : Except Answer Unit :=
  if ok then .ok () else .error refused

theorem require_ok_iff {ok : Bool} {refused : Answer} {u : Unit} :
    require ok refused = .ok u ↔ ok = true := by
  cases ok <;> simp [require]

namespace PeerRunner

variable (w : Wire) (p : PeerRunner)

/-- `_receive_bundle`'s refusal of a bundle. -/
def bundleRefusal (taskId : String) (problem : Problem) : Answer :=
  let paths := ("paths", Json.arr (problem.paths.map .str))
  let task := ("task_id", Json.str taskId)
  if problem.kind = "path" then refusalWith "bundle-path" problem.reason [paths, task]
  else if problem.kind = "digest" then
    refusalWith linkArtifactDigest
      (problem.reason ++ "; the peer runs what it hashed, never what the task declared") [task]
  else if problem.kind = "missing" then
    refusalWith "bundle-missing-file" problem.reason [paths, task]
  else if problem.kind = "extra" then refusalWith "bundle-extra-file" problem.reason [paths, task]
  else if problem.kind = "file-digest" then
    refusalWith "bundle-file-digest" problem.reason [paths, task]
  else refusalWith linkTaskShape ("not a bundle: " ++ problem.reason) [paths, task]

/-- The artifact a task carries. -/
def sourceOf (record : Json) : Except Answer Artifact :=
  match record.get? "bundle" with
  | none => .ok (.file (member record "artifact"))
  | some wire =>
    match w.receive wire (member record "artifact_digest") with
    | .ok files => .ok (.bundle files)
    | .error problem => .error (bundleRefusal (member record "task_id") problem)

/-- `verify_task`, of a record of the right shape. -/
def verifyTask (record : Json) : Except Answer Unit :=
  match w.verifyRecord record with
  | .ok _ => .ok ()
  | .error reason =>
    .error (refusalWith linkTaskSignature
      ("the task is not signed by the pinned operator key: " ++ reason)
      [("task_id", Json.str (member record "task_id"))])

/-- Shape, signature, and the pool, charter and peer a task names. -/
def addressed (record : Json) : Except Answer Unit := do
  let task := [("task_id", Json.str (member record "task_id"))]
  let charter := short (member record "charter_digest")
  let policy := short (member record "policy_digest")
  require (taskShape record = "")
    (refusalWith linkTaskShape ("not a task: " ++ taskShape record) [])
  verifyTask w record
  require (some (.str (member record "pool_id")) = p.poolId)
    (refusalWith linkPoolIdentity
      ("the task names pool " ++ memberRepr record "pool_id" ++ " and this peer joined " ++
        (p.poolId.getD .null).pyRepr) task)
  require (member record "charter_digest" = p.charterDigest)
    (refusalWith linkCharterIdentity
      (s!"the task pins charter {charter} and this peer holds {short p.charterDigest}; a " ++
        "charter re-signed with different terms is a different charter") task)
  require (member record "version" ≠ taskVersion ∨ member record "policy_digest" = p.charterDigest)
    (refusalWith linkPolicyIdentity
      (s!"the task was signed under policy {policy} and this peer holds " ++
        s!"{short p.charterDigest}; the run is claimed under a policy the peer never agreed to")
      task)
  require (member record "peer_id" = p.peerId)
    (refusalWith linkPeerIdentity
      ("the task is addressed to " ++ memberRepr record "peer_id" ++ " and this peer is " ++
        Json.reprStr p.peerId) task)

/-- The checks of `_handle` in their order. -/
def checkTask (seen : Dict String String) (record : Json) : Except Answer Artifact := do
  let task := [("task_id", Json.str (member record "task_id"))]
  let pinned := short (member record "artifact_digest")
  addressed w p record
  let source ← sourceOf w record
  let actual := w.digestOf source
  require (actual = member record "artifact_digest")
    (refusalWith linkArtifactDigest
      (s!"the artifact hashes to {short actual} and the task pins {pinned}; the peer runs what " ++
        "it hashed, never what the task declared") task)
  require (.str actual ∈ p.artifactDigests)
    (refusalWith linkArtifactDigest
      (s!"artifact {short actual} is not one the charter admits; the peer refuses work the pool " ++
        "never declared") task)
  require (member record "runner" ∈ runners)
    (refusalWith linkUnknownRunner
      ("runner " ++ memberRepr record "runner" ++ " is not implemented by this peer; it runs " ++
        ", ".intercalate runners) task)
  require (seen.get? (member record "task_id") = none)
    (refusalWith linkReplayedTask
      ("this peer already ran task " ++ memberRepr record "task_id" ++ "; a task is run once, " ++
        "so a captured task cannot be replayed for a second receipt") task)
  pure source

/-- What `execute` comes to. It may fail before the artifact runs, or after it did. -/
inductive Execution where
  | notStarted (error : Raise)
  | raised (error : Raise)
  | done (result : Json)

/-- What one frame meets once it is admitted: the execution, and the receipt with its digest. -/
structure Attempt where
  execution : Execution
  receipt : Except Raise (Json × String)

/-- What `handle` makes of an error: the missing signing backend is a refusal. -/
def raisedAnswer : Raise → Answer
  | .backendUnavailable message =>
    refusalWith linkTaskShape
      ("the frame could not be processed: SigningBackendUnavailable: " ++ message) []
  | .other error => .raised error

/-- An answer, the task ids seen after it, and the artifact that was run for it. -/
structure Handled where
  answer : Answer
  seen : Dict String String
  ran : Option Artifact

/-- An admitted task is executed and its receipt issued, and then its id is seen. -/
def perform (seen : Dict String String) (record : Json) (source : Artifact) (a : Attempt) :
    Handled :=
  match a.execution with
  | .notStarted e => ⟨raisedAnswer e, seen, none⟩
  | .raised e => ⟨raisedAnswer e, seen, some source⟩
  | .done result =>
    match a.receipt with
    | .error e => ⟨raisedAnswer e, seen, some source⟩
    | .ok (receipt, digest) =>
      ⟨.returned (.obj [("ok", .bool true), ("task_id", .str (member record "task_id")),
          ("receipt", receipt), ("result", result)]),
        seen.set (member record "task_id") digest, some source⟩

/-- `handle`. -/
def handle (seen : Dict String String) (record : Json) (a : Attempt) : Handled :=
  -- a liveness probe shares the channel, runs nothing and leaves `seen` alone
  if record.get? "kind" = some (.str probeKind) then
    match w.answerProbe record with
    | .ok heartbeat => ⟨.returned heartbeat, seen, none⟩
    | .error e => ⟨raisedAnswer e, seen, none⟩
  else
    match checkTask w p seen record with
    | .error refused => ⟨refused, seen, none⟩
    | .ok source => perform seen record source a

/-! ## Runs -/

/-- A frame, with what it meets once it is admitted. -/
abbrev Frame := Json × Attempt

/-- Each frame of a run with the task ids it found. -/
def trace (seen : Dict String String) : List Frame → List (Dict String String × Frame)
  | [] => []
  | f :: frames => (seen, f) :: trace (handle w p seen f.1 f.2).seen frames

/-- The task id, the record and the artifact a frame executes, if it does. -/
def executes (s : Dict String String × Frame) : Option (String × Json × Artifact) :=
  (handle w p s.1 s.2.1 s.2.2).ran.map fun source => (member s.2.1 "task_id", s.2.1, source)

/-- What a run executes. -/
def executions (seen : Dict String String) (frames : List Frame) :
    List (String × Json × Artifact) :=
  (trace w p seen frames).filterMap (executes w p)

/-- A task the peer may run: signed by the pinned operator, for this pool, charter and peer,
with the artifact fetched the one it pins and one the charter admits. -/
structure Admitted (record : Json) (source : Artifact) : Prop where
  shape : taskShape record = ""
  signed : w.verifyRecord record = .ok ()
  pool : p.poolId = some (.str (member record "pool_id"))
  charter : member record "charter_digest" = p.charterDigest
  policy : member record "version" = taskVersion → member record "policy_digest" = p.charterDigest
  peer : member record "peer_id" = p.peerId
  fetched : sourceOf w record = .ok source
  digest : w.digestOf source = member record "artifact_digest"
  chartered : .str (w.digestOf source) ∈ p.artifactDigests
  runner : member record "runner" ∈ runners

/-- An execution that runs the artifact comes to a receipt. -/
def Settles (a : Attempt) : Prop :=
  match a.execution with
  | .notStarted _ => True
  | .raised _ => False
  | .done _ => ∃ receipt, a.receipt = .ok receipt

/-- The execution of a frame settles, if the frame is admitted. -/
def Settled (s : Dict String String × Frame) : Prop :=
  ∀ source, checkTask w p s.1 s.2.1 = .ok source → Settles s.2.2

/-! ## What the checks establish -/

section Checks

variable {w : Wire} {p : PeerRunner}

theorem kind_of_taskShape {record : Json} (h : taskShape record = "") :
    record.get? "kind" = some (.str taskKind) := by
  by_contra hkind
  unfold taskShape at h
  cases record with
  | obj fields =>
    dsimp only at h
    rw [if_pos hkind] at h
    simp [toString] at h
  | _ => exact absurd h (by simp)

theorem checked_admitted {seen : Dict String String} {record : Json} {source : Artifact}
    (h : checkTask w p seen record = .ok source) :
    Admitted w p record source ∧ seen.get? (member record "task_id") = none := by
  simp only [checkTask, addressed, Fallible.bind_ok_iff, require_ok_iff, decide_eq_true_eq, pure,
    Except.pure] at h
  obtain ⟨-, ⟨-, hshape, _, hsigned, -, hpool, -, hcharter, -, hpolicy, hpeer⟩, source', hfetched,
    -, hdigest, -, hchartered, -, hrunner, -, hunseen, hsource⟩ := h
  obtain rfl := Except.ok.inj hsource
  refine ⟨⟨hshape, ?_, hpool.symm, hcharter, fun hv => ?_, hpeer, hfetched, hdigest, hchartered,
    hrunner⟩, hunseen⟩
  · unfold verifyTask at hsigned
    cases hverify : w.verifyRecord record with
    | ok u => rfl
    | error reason => simp [hverify] at hsigned
  · exact hpolicy.resolve_left fun hne => hne hv

theorem handle_of_checked {seen : Dict String String} {record : Json} {source : Artifact}
    (h : checkTask w p seen record = .ok source) (a : Attempt) :
    handle w p seen record a = perform seen record source a := by
  have hkind := kind_of_taskShape (checked_admitted h).1.shape
  rw [handle, if_neg (by simp [hkind, taskKind, probeKind]), h]

/-- A frame that executes was admitted, and its task had not been seen. -/
theorem checked_of_executes {s : Dict String String × Frame} {x : String × Json × Artifact}
    (h : executes w p s = some x) :
    checkTask w p s.1 s.2.1 = .ok x.2.2 ∧ x.1 = member s.2.1 "task_id" ∧ x.2.1 = s.2.1 := by
  obtain ⟨seen, record, a⟩ := s
  cases hchecked : checkTask w p seen record with
  | error refused =>
    have hran : (handle w p seen record a).ran = none := by
      unfold handle
      rw [hchecked]
      split
      · split <;> rfl
      · rfl
    simp [executes, hran] at h
  | ok source =>
    have hran : ∀ source', (handle w p seen record a).ran = some source' → source' = source := by
      intro source' hsource'
      rw [handle_of_checked hchecked, perform] at hsource'
      split at hsource'
      · cases hsource'
      · exact (Option.some.inj hsource').symm
      · split at hsource' <;> exact (Option.some.inj hsource').symm
    rw [executes, Option.map_eq_some_iff] at h
    obtain ⟨source', hsource', rfl⟩ := h
    exact ⟨by rw [hran source' hsource'], rfl, rfl⟩

/-- No task id is forgotten. -/
theorem seen_kept {seen : Dict String String} {record : Json} {a : Attempt} {taskId : String}
    (h : seen.get? taskId ≠ none) : (handle w p seen record a).seen.get? taskId ≠ none := by
  have hset : ∀ key digest, (seen.set key digest).get? taskId ≠ none := by
    intro key digest
    rw [Dict.get?_set]
    split
    · exact Option.some_ne_none _
    · exact h
  unfold handle
  split
  · split <;> exact h
  · split
    · exact h
    · rw [perform]
      split
      · exact h
      · exact h
      · split
        · exact h
        · exact hset _ _

/-- A task whose execution settles has been seen. -/
theorem seen_of_settles {seen : Dict String String} {record : Json} {a : Attempt}
    {x : String × Json × Artifact} (h : executes w p (seen, record, a) = some x)
    (hsettles : Settles a) : (handle w p seen record a).seen.get? x.1 ≠ none := by
  obtain ⟨hchecked, htask, -⟩ := checked_of_executes h
  rw [executes, handle_of_checked hchecked] at h
  rw [handle_of_checked hchecked, htask]
  rw [Settles] at hsettles
  unfold perform at h ⊢
  cases hexecution : a.execution with
  | notStarted e => simp [hexecution] at h
  | raised e => simp [hexecution] at hsettles
  | done result =>
    rw [hexecution] at hsettles
    obtain ⟨⟨receipt, digest⟩, hreceipt⟩ := hsettles
    simp [hreceipt]

/-- An execution that does not settle leaves the task unseen, and the same frame runs it again. -/
theorem executes_again {seen : Dict String String} {record : Json} {a : Attempt}
    (h : ¬ Settled w p (seen, record, a)) :
    ∃ x, executes w p (seen, record, a) = some x ∧
      executes w p ((handle w p seen record a).seen, record, a) = some x := by
  simp only [Settled, not_forall] at h
  obtain ⟨source, hchecked, hsettles⟩ := h
  have hperform : (perform seen record source a).seen = seen ∧
      (perform seen record source a).ran = some source := by
    rw [Settles] at hsettles
    rw [perform]
    cases hexecution : a.execution with
    | notStarted e => simp [hexecution] at hsettles
    | raised e => exact ⟨rfl, rfl⟩
    | done result =>
      cases hreceipt : a.receipt with
      | error e => exact ⟨rfl, rfl⟩
      | ok receipt =>
        rw [hexecution] at hsettles
        exact absurd ⟨receipt, hreceipt⟩ hsettles
  refine ⟨(member record "task_id", record, source), ?_, ?_⟩
  · rw [executes, handle_of_checked hchecked, hperform.2]
    rfl
  · rw [executes, handle_of_checked hchecked, hperform.1, handle_of_checked hchecked, hperform.2]
    rfl

/-! ## Whole runs -/

theorem executions_cons (seen : Dict String String) (f : Frame) (frames : List Frame) :
    executions w p seen (f :: frames) =
      (executes w p (seen, f)).toList ++
        executions w p (handle w p seen f.1 f.2).seen frames := by
  rw [executions, trace, List.filterMap_cons]
  cases executes w p (seen, f) with
  | none => rfl
  | some x => rfl

theorem executions_admitted (seen : Dict String String) (frames : List Frame) :
    ∀ x ∈ executions w p seen frames, x.1 = member x.2.1 "task_id" ∧ Admitted w p x.2.1 x.2.2 := by
  intro x hx
  obtain ⟨s, -, hs⟩ := List.mem_filterMap.mp hx
  obtain ⟨hchecked, htask, hrecord⟩ := checked_of_executes hs
  rw [hrecord]
  exact ⟨htask, (checked_admitted hchecked).1⟩

/-- What a run executes was not seen before it. -/
theorem executions_unseen {seen : Dict String String} {frames : List Frame} :
    ∀ x ∈ executions w p seen frames, seen.get? x.1 = none := by
  induction frames generalizing seen with
  | nil => nofun
  | cons f frames ih =>
    intro x hx
    rw [executions_cons, List.mem_append, Option.mem_toList] at hx
    rcases hx with hx | hx
    · obtain ⟨hchecked, htask, -⟩ := checked_of_executes hx
      rw [htask]
      exact (checked_admitted hchecked).2
    · by_contra hseen
      exact seen_kept hseen (ih x hx)

theorem executions_nodup {seen : Dict String String} {frames : List Frame}
    (h : ∀ s ∈ trace w p seen frames, Settled w p s) :
    ((executions w p seen frames).map Prod.fst).Nodup := by
  induction frames generalizing seen with
  | nil => exact List.nodup_nil
  | cons f frames ih =>
    rw [trace, List.forall_mem_cons] at h
    have hrest := ih h.2
    rw [executions_cons]
    cases hexecutes : executes w p (seen, f) with
    | none => exact hrest
    | some x =>
      refine List.nodup_cons.mpr ⟨fun hx => ?_, hrest⟩
      obtain ⟨y, hy, hyx⟩ := List.mem_map.mp hx
      have hseen := seen_of_settles hexecutes (h.1 x.2.2 (checked_of_executes hexecutes).1)
      exact hseen (hyx ▸ executions_unseen y hy)

/-- **At most once**: a peer executes only tasks of the pinned operator for its pool, charter and
peer whose artifact the charter admits; a run whose executions all come to a receipt executes no
task twice; and a frame whose execution does not is executed again when it comes again. -/
theorem runs_each_task_once (w : Wire) (p : PeerRunner) (frames : List Frame) :
    (∀ x ∈ executions w p .empty frames,
      x.1 = member x.2.1 "task_id" ∧ Admitted w p x.2.1 x.2.2) ∧
    ((∀ s ∈ trace w p .empty frames, Settled w p s) →
      ((executions w p .empty frames).map Prod.fst).Nodup) ∧
    ∀ s ∈ trace w p .empty frames, ¬ Settled w p s →
      ∃ x, executes w p s = some x ∧
        executes w p ((handle w p s.1 s.2.1 s.2.2).seen, s.2) = some x :=
  ⟨executions_admitted .empty frames, executions_nodup, fun _ _ hs => executes_again hs⟩

/-- A peer whose keys verify every record and whose digests are all `d0`. -/
def trustingWire : Wire :=
  ⟨fun _ => .ok (), fun _ _ => .ok .null, fun _ => "d0", fun _ => .ok .null⟩

def smallPeer : PeerRunner := ⟨some (.str "lab"), [.str "d0"], "c0", "worker"⟩

/-- A task for `smallPeer`. -/
def smallTask : Json :=
  .obj [("kind", .str taskKind), ("version", .str taskVersionV1), ("pool_id", .str "lab"),
    ("charter_digest", .str "c0"), ("peer_id", .str "worker"), ("task_id", .str "t-1"),
    ("artifact_digest", .str "d0"), ("artifact", .str ""), ("runner", .str "test-py"),
    ("effect_class", .str "pure"), ("issued_at", .str "2026")]

/-- A receipt comes of the task, and the same frame again is refused. -/
theorem small_task_runs_once :
    ((executions trustingWire smallPeer .empty
      [(smallTask, ⟨.done .null, .ok (.null, "e0")⟩),
        (smallTask, ⟨.done .null, .ok (.null, "e0")⟩)]).map Prod.fst).Nodup := by
  refine (runs_each_task_once trustingWire smallPeer _).2.1 ?_
  simp only [trace, List.forall_mem_cons]
  exact ⟨fun _ _ => ⟨_, rfl⟩, fun _ _ => ⟨_, rfl⟩, nofun⟩

/-- The artifact printed bytes that are no text: the error leaves the task unseen, and the same
frame runs it again. -/
theorem undecodable_output_runs_twice :
    ¬ ((executions trustingWire smallPeer .empty
      [(smallTask, ⟨.raised (.other "UnicodeDecodeError"), .ok (.null, "e0")⟩),
        (smallTask, ⟨.raised (.other "UnicodeDecodeError"), .ok (.null, "e0")⟩)]).map
      Prod.fst).Nodup := by
  have hran : (executions trustingWire smallPeer .empty
      [(smallTask, ⟨.raised (.other "UnicodeDecodeError"), .ok (.null, "e0")⟩),
        (smallTask, ⟨.raised (.other "UnicodeDecodeError"), .ok (.null, "e0")⟩)]).map
      Prod.fst = ["t-1", "t-1"] := by decide +kernel
  rw [hran]
  decide

end Checks

end PeerRunner

end Revl.Pool
