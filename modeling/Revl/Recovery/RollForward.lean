import Revl.Recovery.RollBack

/-!
# Rolling forward

An approved session is committed. What it deferred is flushed, owed, or was never approved.
Two surfaces say which: the one for a log with the terminal marker, which reads approval by
position, and the one for a log cut between approval and discharge, which may also fire an
owed emission again.

- `deferralCrosscheck`: the first surface.
- `rollForwardWindow`: the second.
- `reissueOwed`: an owed emission fired again.
-/

namespace Revl.Recovery

/-- How an owed emission stands. -/
inductive OwedOutcome where
  | failed
  | notAttempted
  | unknown
  deriving DecidableEq, Repr

structure Owed where
  name : Named
  outcome : OwedOutcome
  deriving DecidableEq, Repr

def deferredName (d : Deferred) : Named := ⟨d.seq, deferredReferent d⟩

/-- `error or {...}`: the error of a `flush-residue` record. -/
def flushError (recorded : Option ErrorInfo) : ErrorInfo :=
  recorded.getD ⟨"flush-failed", "the host body raised at flush"⟩

/-- Residue for a deferred emission that is approved and not confirmed. -/
def flushRecord (d : Deferred) (error : ErrorInfo) (attemptedFlag : Bool)
    (outcome : ResidueOutcome) (hint : String) : Residue where
  kind := .flush
  crossing := crossingOfDeferred d
  attempted := .ofCall d.call none
  error := error
  attemptedFlag := attemptedFlag
  outcome := outcome
  referent := deferredReferent d
  hint := hint

def unconfirmedError : ErrorInfo :=
  ⟨"not-attempted", "approved but no `flushed` record — the host body may not have fired before " ++
    "the crash"⟩

/-! ## The queue of a log with the terminal marker -/

structure Crosscheck where
  flushed : List Named
  owed : List Owed
  dropped : List Named
  outstanding : List Residue

/-- What stands after the last record a test picks, `none` where it picks none. -/
def afterLast (p : WalRecord → Bool) : List WalRecord → Option (List WalRecord)
  | [] => none
  | r :: rest =>
    match afterLast p rest with
    | some tail => some tail
    | none => if p r then some rest else none

/-- The records after the last approval: the whole log where there is none. -/
def afterApproval (records : List WalRecord) : List WalRecord :=
  (afterLast isCommitApproved records).getD records

/-- The records the last approval stands after, that record included. -/
def upToApproval (records : List WalRecord) : List WalRecord :=
  records.take (records.length - (afterApproval records).length)

/-- An approved deferred emission. -/
def crosscheckStep (flushed : List Int) (flushFailed : List (Option Int × Option ErrorInfo))
    (c : Crosscheck) (d : Deferred) : Crosscheck :=
  if d.seq.any (· ∈ flushed) then { c with flushed := c.flushed ++ [deferredName d] }
  else
    match Assoc.get? flushFailed d.seq with
    | some recorded =>
      { c with
        owed := c.owed ++ [⟨deferredName d, .failed⟩]
        outstanding := c.outstanding ++ [flushRecord d (flushError recorded) true .failed
          ("the deferred emission's host body raised at flush (continue-and-record) and the run " ++
            "went on to stamp `activation-complete`; the marker does not settle this crossing — " ++
            "finish it by hand (issue #1017)")] }
    | none =>
      { c with
        owed := c.owed ++ [⟨deferredName d, .notAttempted⟩]
        outstanding := c.outstanding ++ [flushRecord d unconfirmedError false .notAttempted
          ("the emission was approved but its flush is unconfirmed, and `activation-complete` " ++
            "does not settle it — the marker proves activation finished, not that the deferral " ++
            "queue was flushed. Finish the flush by hand (issue #1017)")] }

/-- `_deferral_crosscheck`: approval is read by position, and what is not approved is
dropped. -/
def deferralCrosscheck (records : List WalRecord) : Crosscheck :=
  let approved := (deferredOf (upToApproval records)).foldl
    (crosscheckStep (flushedOf records) (flushFailedOf records)) ⟨[], [], [], []⟩
  { approved with dropped := (deferredOf (afterApproval records)).map deferredName }

/-! ## Firing an owed emission again -/

/-- The operator's re-issue strength. -/
inductive Strength where
  | keyed
  | declared
  deriving DecidableEq, Repr

/-- `_reissue_permitted`. -/
def reissuePermitted (register : Option Register) : Option Strength → Bool
  | none => false
  | some strength =>
    redispatchFree register || (register == some .declared && strength == .declared)

structure Reissued where
  name : Named
  register : Option Register
  idempotency : Option String
  throughBinding : Bool
  deriving DecidableEq

def redactedEmissionRecord (d : Deferred) : Residue where
  kind := .redacted
  crossing := crossingOfDeferred d
  attempted := .ofCall d.call none
  error := ⟨"redacted-argument", "the owed emission's argument was declared `Secret[T]` and is " ++
    "redacted in the log, so the call cannot be re-issued — not attempted"⟩
  attemptedFlag := false
  outcome := .unknown
  referent := deferredReferent d
  hint := "a confidential value is never written to the WAL. Finish this flush by hand with the " ++
    "value from its own store, or carry a non-confidential idempotency key"

/-- `UNBOUND_OWED_EMISSION`. -/
def unboundOwedEmission : String :=
  "this world has no entry point that re-fires an owed deferred emission (a FORWARD crossing, " ++
    "which must be flushed, never replayed as an inverse). A composition binding (`revl recover " ++
    "--composition`) fires it through `runtime.reissue_deferred`, the session's own flush"

/-- What a binding outcome other than `ran` and `settled` says of an owed emission. -/
def reissueText (w : World) (d : Deferred) : BindingOutcome → String × ResidueKind
  | .failed =>
    (namedCall d.call ++ " raised when the runtime flushed it (`flush-residue` written)", .flush)
  | .stranded =>
    (namedCall d.call ++ ": an E-Stop is in force, so nothing fired", .stranded)
  | .otherGeneration =>
    (namedCall d.call ++ ": " ++ w.generationNote (.seq d.seq) ++ "; not fired", .generation)
  | .wouldReactivate =>
    (namedCall d.call ++ ": " ++ w.reactivationNote d.call.receiver ++ "; not fired",
      .reactivation)
  | _ =>
    (namedCall d.call ++ ": names no host body in this composition binding; not fired",
      .unresolved)

def reissueRecord (w : World) (d : Deferred) (state : BindingOutcome) : Residue :=
  let text := reissueText w d state
  { kind := text.2
    crossing := crossingOfDeferred d
    attempted := .ofCall d.call none
    error := ⟨state.name, text.1⟩
    attemptedFlag := state == .failed
    outcome := if state = .failed then .failed else .unknown
    referent := namedCall d.call
    hint := "finish the flush by hand; its reissue-fence is spent, so a declared-tier emission " ++
      "will not be fired again" }

/-- The fence of an owed emission, where the world spends one. -/
def reissueFence (w : World) (durable : Bool) (d : Deferred) : List Event :=
  match d.seq with
  | some n => if durable && w.spendsFences then [.reissueFence n d.register] else []
  | none => []

/-- `_reissue_through_binding`: what happened, and what is reported. -/
def reissueThroughBinding (w : World) (durable : Bool) (trace : List Event) (d : Deferred) :
    List Event × Except Residue Reissued :=
  let fence := if w.declined d.seq d.call.receiver = none then reissueFence w durable d else []
  let state := w.reissueDeferred (trace ++ fence) d
  let events := fence ++ [.reissueDeferred d]
  if state = .ran ∨ state = .settled then
    (events, .ok ⟨deferredName d, d.register, d.idempotency, true⟩)
  else (events, .error (reissueRecord w d state))

/-- `_reissue_owed`. -/
def reissueOwed (w : World) (durable : Bool) (trace : List Event) (d : Deferred) :
    List Event × Except Residue Reissued :=
  if hasRedactedArg d.call then ([], .error (redactedEmissionRecord d))
  else if w.reissuesDeferred then reissueThroughBinding w durable trace d
  else if !w.reIssuesCalls then
    ([], .error (unboundRecord (crossingOfDeferred d) d.call (deferredReferent d)
      unboundOwedEmission))
  else
    let fence := reissueFence w durable d
    let events := fence ++ [.reissue d.call]
    match w.reissue (trace ++ fence) d.call with
    | some error =>
      (events, .error (flushRecord d error true .failed
        ("the owed emission was re-issued by recovery and the adapter raised; the crossing is " ++
          "unconfirmed — finish it by hand (item 440)")))
    | none => (events, .ok ⟨deferredName d, d.register, d.idempotency, false⟩)

/-! ## The window between approval and discharge -/

/-- `_owed_hint`. -/
def owedHint (register : Option Register) : Option Strength → String
  | none =>
    "the emission was approved but its flush is unconfirmed; v1 recover never auto-fires an " ++
      "owed emission — finish the flush by hand or re-run with the idempotency key (item 309)"
  | some _ =>
    if register = some .declared then
      "the emission was approved but its flush is unconfirmed. Its register is `declared` (the " ++
        "author's unverified claim) and the policy admits only dedup-safe re-issues; finish the " ++
        "flush by hand, declare `idempotent(key: <param>)`, or widen the knob to `recovery may " ++
        "re-issue owed emissions (strength: declared)` (item 440)"
    else
      "the emission was approved but its flush is unconfirmed, and it carries NO idempotency " ++
        "register — whether the pre-crash flush landed cannot be decided, so recovery refuses to " ++
        "fire it under any policy. Finish the flush by hand, or declare `idempotent(key: " ++
        "<param>)` so a re-issue is dedup-safe by construction (item 440)"

structure Window where
  trace : List Event
  flushed : List Named
  owed : List Owed
  reissued : List Reissued
  outstanding : List Residue

local instance lawfulDeferredSeq : LawfulBEq (Option Int) := inferInstance

/-- One deferred emission of the window. -/
def windowStep (w : World) (durable : Bool) (strength : Option Strength)
    (records : List WalRecord) (s : Window) (d : Deferred) : Window :=
  let name := deferredName d
  let fenced := d.seq ∈ reissueFencesOf records
  if d.seq.any (· ∈ flushedOf records) then { s with flushed := s.flushed ++ [name] }
  else
    match Assoc.get? (flushFailedOf records) d.seq with
    | some recorded =>
      { s with
        owed := s.owed ++ [⟨name, .failed⟩]
        outstanding := s.outstanding ++ [flushRecord d (flushError recorded) true .failed
          ("the deferred emission's host body raised at flush (continue-and-record); finish it " ++
            "by hand or re-run with an idempotency key")] }
    | none =>
      if reissuePermitted d.register strength ∧ (¬fenced ∨ redispatchFree d.register) then
        let attempt := reissueOwed w durable s.trace d
        let s := { s with trace := s.trace ++ attempt.1 }
        match attempt.2 with
        | .ok entry => { s with reissued := s.reissued ++ [entry] }
        | .error residue =>
          { s with
            owed := s.owed ++ [⟨name, .failed⟩]
            outstanding := s.outstanding ++ [residue] }
      else if fenced ∧ reissuePermitted d.register strength then
        { s with
          owed := s.owed ++ [⟨name, .unknown⟩]
          outstanding := s.outstanding ++ [flushRecord d
            ⟨"fenced-before-attempt", "fenced-before-attempt, outcome unknown, will not re-fire " ++
              "— an earlier recovery run fenced this owed emission under the author's unverified " ++
              "`declared` claim; a second attempt cannot be proven safe"⟩ false .unknown
            ("declare `idempotent(key: <param>)` so the re-issue is dedup-safe by construction " ++
              "and needs no fence, or finish this flush by hand (item 440)")] }
      else
        { s with
          owed := s.owed ++ [⟨name, .notAttempted⟩]
          outstanding := s.outstanding ++ [flushRecord d unconfirmedError false .notAttempted
            (owedHint d.register strength)] }

/-- The descriptors no `discharge` record names, in order. -/
def owedDischarge (records : List WalRecord) : List Int :=
  (((descriptorsOf records).map Descriptor.seq).filter
    (· ∉ dischargedOf records)).insertionSort (· ≤ ·)

/-- What `_roll_forward_window` reports. -/
structure WindowReport extends Window where
  rolledForwardDischarge : List Int
  clean : Bool

/-- `_roll_forward_window`: every deferred emission of the log is walked. -/
def rollForwardWindow (w : World) (durable : Bool) (strength : Option Strength)
    (records : List WalRecord) : WindowReport :=
  let owed := owedDischarge records
  let rolled := if owed = [] then [] else [Event.discharge owed]
  let s := (deferredOf records).foldl (windowStep w durable strength records)
    ⟨rolled, [], [], [], []⟩
  { toWindow := s, rolledForwardDischarge := owed, clean := s.outstanding.isEmpty }

end Revl.Recovery
