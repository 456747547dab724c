import Revl.Recovery.RollForward

/-!
# Recovery

- `recoverSharedGrants`: the inverse of a shared grant whose holders died with the process.
- `recoverSharedGrants_trace`: what it adds to the events of a run.
- `recover`: the verdict on a log, and the shared grants after it.
-/

namespace Revl.Recovery

/-! ## Shared grants -/

/-- Why a grant was left with holders. -/
inductive Basis where
  | estopStranded
  | wholeProcess
  deriving DecidableEq, Repr

inductive ReclaimOutcome where
  | ok
  | err
  | unknown
  deriving DecidableEq, Repr

/-- A `reclaim` record. -/
structure Reclaim where
  handle : String
  holders : Nat
  basis : Basis
  ok : Bool
  error : Option ErrorInfo
  outcome : ReclaimOutcome
  deriving DecidableEq

/-- `_reclaim_record` of an inverse that ran. -/
def Reclaim.done (g : Grant) (basis : Basis) : Reclaim :=
  ⟨g.handle, g.holders.length, basis, true, none, .ok⟩

/-- `_reclaim_record` of an inverse that did not. -/
def Reclaim.failed (g : Grant) (basis : Basis) (error : ErrorInfo) (fencedUnknown : Bool) :
    Reclaim :=
  ⟨g.handle, g.holders.length, basis, false, some error, if fencedUnknown then .unknown else .err⟩

/-- The last grant record of a handle. -/
def latestGrant (records : List WalRecord) (handle : String) : Option Grant :=
  Assoc.get? ((grantsOf records).map fun g => (g.handle, g)) handle

/-- The last grant record of each handle, by handle. -/
def latestGrants (records : List WalRecord) : List Grant :=
  (((grantsOf records).map Grant.handle).dedup.insertionSort (· ≤ ·)).filterMap
    (latestGrant records)

/-- What a binding says of a grant it did not reclaim. -/
def reclaimMessage (w : World) (g : Grant) : BindingOutcome → String
  | .failed =>
    "the inverse raised when the runtime reclaimed it; its fence stays, so it will not be " ++
      "re-fired"
  | .fenced => "an earlier attempt fenced this reclaim; its outcome is unknown, not re-fired"
  | .stranded => "an E-Stop is in force, nothing ran"
  | .otherGeneration => w.generationNote (.handle g.handle) ++ "; not attempted"
  | .wouldReactivate => w.reactivationNote g.inverse.receiver ++ "; not attempted"
  | _ => "the inverse names no host body in this composition binding; not attempted"

/-- `UNBOUND_SHARED_RECLAIM`. -/
def unboundSharedReclaim : String :=
  "this world has no entry point that reclaims a shared grant, which is fenced by HANDLE " ++
    "(`shared-reclaim-fence`, `shared-complete`), not by seq. A composition binding (`revl " ++
    "recover --composition`) reclaims it through `runtime.reclaim_shared`"

def sharedFencedError : ErrorInfo :=
  ⟨"fenced-before-attempt", "this shared reclaim was fenced before a confirmed completion; its " ++
    "inverse may have raised or crashed mid-attempt, so a second attempt cannot be proven safe " ++
    "(no double-close)"⟩

structure Shared where
  trace : List Event
  reclaims : List Reclaim

def Shared.add (s : Shared) (r : Reclaim) : Shared := { s with reclaims := s.reclaims ++ [r] }

def Shared.emit (s : Shared) (event : Event) : Shared := { s with trace := s.trace ++ [event] }

/-- One grant. Its arguments are not looked at before its inverse is issued. -/
def sharedStep (w : World) (durable : Bool) (basis : Basis) (records : List WalRecord)
    (s : Shared) (g : Grant) : Shared :=
  if g.handle ∈ sharedCompletedOf records then s
  else if g.handle ∈ sharedFencesOf records then
    s.add (.failed g basis sharedFencedError true)
  else if g.holders = [] then s
  else if w.reclaimsShared then
    let state := w.reclaimShared s.trace g
    let s := s.emit (.reclaimShared g)
    if state = .ran ∨ state = .settled then s.add (.done g basis)
    else s.add (.failed g basis ⟨state.name, reclaimMessage w g state⟩ (state == .fenced))
  else if !w.reIssuesCalls then
    s.add (.failed g basis ⟨"not-bound", "not attempted: " ++ unboundSharedReclaim⟩ false)
  else
    let s := if durable && w.spendsFences then s.emit (.sharedReclaimFence g.handle) else s
    let called := s.emit (.applyInverse (.shared g.handle) g.inverse)
    match w.applyInverse s.trace g.inverse with
    | some error => called.add (.failed g basis error false)
    | none => called.add (.done g basis)

/-- `recover_shared_grants`, from the events so far. -/
def recoverSharedGrants (w : World) (durable : Bool) (basis : Basis) (records : List WalRecord)
    (trace : List Event) : Shared :=
  (latestGrants records).foldl (sharedStep w durable basis records) ⟨trace, []⟩

/-- Whether an event is about a shared grant. -/
def Event.ofShared : Event → Bool
  | .reclaimShared _ => true
  | .sharedReclaimFence _ => true
  | .applyInverse (.shared _) _ => true
  | _ => false

/-- What one grant adds to the trace is about shared grants. -/
theorem sharedStep_trace (w : World) (durable : Bool) (basis : Basis) (records : List WalRecord)
    (s : Shared) (g : Grant) :
    ∃ events, (sharedStep w durable basis records s g).trace = s.trace ++ events ∧
      ∀ event ∈ events, event.ofShared = true := by
  have hnone (t : Shared) (ht : t.trace = s.trace) :
      ∃ events, t.trace = s.trace ++ events ∧ ∀ event ∈ events, event.ofShared = true :=
    ⟨[], by rw [ht, List.append_nil], fun _ h => (List.not_mem_nil h).elim⟩
  have hone (t : Shared) (event : Event) (hevent : event.ofShared = true)
      (ht : t.trace = s.trace ++ [event]) :
      ∃ events, t.trace = s.trace ++ events ∧ ∀ event ∈ events, event.ofShared = true :=
    ⟨[event], ht, fun e he => List.mem_singleton.1 he ▸ hevent⟩
  unfold sharedStep
  simp only
  split_ifs
  · exact hnone _ rfl
  · exact hnone _ rfl
  · exact hnone _ rfl
  · exact hone _ _ rfl rfl
  · exact hone _ _ rfl rfl
  · exact hnone _ rfl
  · -- the fence of the handle, then the inverse
    refine ⟨[.sharedReclaimFence g.handle, .applyInverse (.shared g.handle) g.inverse], ?_, ?_⟩
    · split <;> exact List.append_assoc _ _ _
    · intro event hevent
      rcases List.mem_pair.1 hevent with rfl | rfl <;> rfl
  · split
    · exact hone _ (.applyInverse (.shared g.handle) g.inverse) rfl rfl
    · exact hone _ (.applyInverse (.shared g.handle) g.inverse) rfl rfl

/-- What the grants add to the trace. -/
theorem recoverSharedGrants_trace (w : World) (durable : Bool) (basis : Basis)
    (records : List WalRecord) (trace : List Event) :
    ∃ events, (recoverSharedGrants w durable basis records trace).trace = trace ++ events ∧
      ∀ event ∈ events, event.ofShared = true := by
  refine List.foldlRecOn
    (motive := fun s : Shared => ∃ events, s.trace = trace ++ events ∧
      ∀ event ∈ events, event.ofShared = true)
    (latestGrants records) _ ⟨[], (List.append_nil trace).symm, fun _ h =>
      (List.not_mem_nil h).elim⟩ fun s hs g _ => ?_
  obtain ⟨old, htrace, hold⟩ := hs
  obtain ⟨new, hstep, hnew⟩ := sharedStep_trace w durable basis records s g
  refine ⟨old ++ new, by rw [hstep, htrace, List.append_assoc], fun event hevent => ?_⟩
  exact (List.mem_append.1 hevent).elim (hold event) (hnew event)

/-! ## The verdict -/

inductive Verdict where
  | forkRetired (at_ : Option Int)
  | rolledForward (deferrals : Crosscheck)
  | window (report : WindowReport)
  | rolledBack (report : RollBackReport)

/-- What a run of recovery did, and what it reported: nothing where a call raised. -/
structure Recovered where
  trace : List Event
  verdict : Option Verdict
  reclaims : List Reclaim

/-- The step a frozen fork was retired at. -/
def frozenAt (records : List WalRecord) : Option (Option Int) :=
  records.findSome? fun
    | .forkFrozen at_ => some at_
    | _ => none

/-- A verdict that was reached, with the shared grants after it. -/
def withShared (w : World) (basis : Basis) (records : List WalRecord) (trace : List Event)
    (verdict : Verdict) : Recovered :=
  let shared := recoverSharedGrants w true basis records trace
  ⟨shared.trace, some verdict, shared.reclaims⟩

/-- `recover`, over the log it read. -/
def recover (w : World) (strength : Option Strength) (basis : Basis) (wal : Wal) : Recovered :=
  let records := wal.records
  match frozenAt records with
  | some at_ => ⟨[], some (.forkRetired at_), []⟩
  | none =>
    if wal.complete then
      withShared w basis records [] (.rolledForward (deferralCrosscheck records))
    else if records.any isCommitApproved then
      let report := rollForwardWindow w true strength records
      withShared w basis records report.trace (.window report)
    else
      match rollBack w true wal with
      | .raised _ s => ⟨s.trace, none, []⟩
      | .ok s => withShared w basis records s.trace (.rolledBack (rollBackReport w wal s))

end Revl.Recovery
