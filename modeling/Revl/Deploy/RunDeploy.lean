import Revl.Lib.Assoc

/-!
# The coordinated deploy (`deploy.py`)

The coordinator sends PREPARE, then COMMIT, to every participant in order. It holds no
inverse: on a failure it sends ABORT to the participants that committed, newest first, and
reports what each one said.

- `runDeploy`: the whole protocol, with the calls it made.
- `commitLoop_split`: the commits up to the first that is not answered `ok`.
- `abortLoop_spec`: what the abort loop reports and whom it asks.
- `run_deploy_claims`: the report claims no rollback it did not obtain exactly where the
  failing participant proved it holds nothing, or is unresolved beside an unclean unwind.
-/

namespace Revl.Deploy

/-! ## Participants -/

/-- A participant's own proof that nothing of it is left. -/
structure Residue where
  clean : Bool
  outstanding : List String
  deriving DecidableEq, Repr

/-- The reply of a participant, with the fields the coordinator reads. -/
structure Report where
  ok : Bool
  reason : Option String
  /-- Set by the coordinator when it never heard back. -/
  unresolved : Bool
  residue : Option Residue
  pid : Option Nat
  deriving DecidableEq, Repr

/-- What a call on a participant comes back with. -/
inductive Answer where
  | reply (report : Report)
  /-- `Unreachable`, with its message. -/
  | unreachable (message : String)
  /-- Any other exception: its class and its message. -/
  | raised (kind message : String)
  deriving DecidableEq, Repr

/-- A participant: its identity, and how its three calls behave. -/
structure Participant where
  identity : String
  prepare : Answer
  commit : Answer
  abort : Answer
  deriving DecidableEq, Repr

/-- A refusal the coordinator writes itself. -/
def Report.refused (reason : String) (unresolved : Bool) : Report :=
  ⟨false, some reason, unresolved, none, none⟩

/-- The report of a PREPARE call. -/
def prepareReport : Answer → Report
  | .reply report => report
  | .unreachable message => .refused ("unreachable during PREPARE: " ++ message) false
  | .raised kind message => .refused (kind ++ ": " ++ message) false

/-- The report of a COMMIT call. -/
def commitReport : Answer → Report
  | .reply report => report
  | .unreachable message => .refused ("unreachable during COMMIT: " ++ message) true
  | .raised kind message => .refused (kind ++ ": " ++ message) false

/-! ## The report -/

/-- What a participant's outcome is reported as. -/
inductive Outcome where
  | neverCommitted (reason : Option String) (localRollback : Option Residue)
  | applied (receipt : Report)
  | rolledBackClean (residue : Option Residue) (unwoundBy : Option Nat)
  | rolledBackWithResidue (residue : Option Residue) (unwoundBy : Option Nat)
  | unresolved (reason : Option String) (lastReceipt : Option Report)
  deriving DecidableEq, Repr

inductive Verdict where
  | applied
  | refused
  | abortedClean
  | abortedWithResidue
  deriving DecidableEq, Repr

/-- A call the coordinator made. -/
inductive Call where
  | prepare (identity : String)
  | commit (identity : String)
  | abort (identity : String)
  deriving DecidableEq, Repr

/-- A durable decision record. -/
inductive Decision where
  | approved (federation : String) (generation : Int) (participants : List String)
  | aborted (federation : String) (generation : Int) (reason : Option String) (failed : String)
  deriving DecidableEq, Repr

/-- A row of the commit ledger. -/
structure LedgerEntry where
  identity : String
  order : Nat
  receipt : Report
  deriving DecidableEq, Repr

/-- What an abort left behind: a participant that was not reached, or one with residue. -/
inductive Outstanding where
  | unresolved (identity reason : String)
  | residue (identity : String) (outstanding : Option (List String))
  deriving DecidableEq, Repr

/-- What `run_deploy` returns, with the calls it made and the decision it recorded. -/
structure DeployReport where
  verdict : Verdict
  failedAt : Option String
  reason : Option String
  participants : String → Outcome
  commitLedger : List LedgerEntry
  abortOrder : List String
  clean : Bool
  outstanding : List Outstanding
  proof : String
  calls : List Call
  decision : Option Decision

/-! ## The loops -/

/-- The coordinator's state in the COMMIT and ABORT phases. -/
structure Coordinator where
  outcomes : String → Outcome
  ledger : List LedgerEntry
  unresolved : List Outstanding
  residue : List Outstanding
  calls : List Call

namespace Coordinator

/-- Nothing committed yet. -/
def start (calls : List Call) : Coordinator :=
  ⟨fun _ => .neverCommitted none none, [], [], [], calls⟩

def call (s : Coordinator) (c : Call) : Coordinator := { s with calls := s.calls ++ [c] }

def setOutcome (s : Coordinator) (identity : String) (outcome : Outcome) : Coordinator :=
  { s with outcomes := Function.update s.outcomes identity outcome }

/-- A participant that answered COMMIT with `ok`. -/
def committed (s : Coordinator) (identity : String) (report : Report) : Coordinator :=
  { (s.setOutcome identity (.applied report)) with
    ledger := s.ledger ++ [⟨identity, s.ledger.length, report⟩] }

end Coordinator

/-- The failure that ended the COMMIT phase. -/
structure Failure where
  identity : String
  reason : Option String
  deriving DecidableEq, Repr

/-- The first PREPARE that is not answered `ok`. -/
def prepareLoop : List Participant → List Call → List Call × Option Failure
  | [], calls => (calls, none)
  | p :: ps, calls =>
    let calls := calls ++ [.prepare p.identity]
    let report := prepareReport p.prepare
    if report.ok then prepareLoop ps calls else (calls, some ⟨p.identity, report.reason⟩)

/-- The outcome of a participant whose COMMIT was not answered `ok`. -/
def failedOutcome (report : Report) : Outcome :=
  if report.unresolved then .unresolved report.reason none
  else .neverCommitted report.reason report.residue

/-- The COMMIT phase: it ends at the first answer that is not `ok`. -/
def commitLoop : List Participant → Coordinator → Coordinator × Option Failure
  | [], s => (s, none)
  | p :: ps, s =>
    let s := s.call (.commit p.identity)
    let report := commitReport p.commit
    if report.ok then commitLoop ps (s.committed p.identity report)
    else (s.setOutcome p.identity (failedOutcome report), some ⟨p.identity, report.reason⟩)

/-- `bool((report.get("residue") or {}).get("clean"))`. -/
def Report.clean (report : Report) : Bool := (report.residue.map Residue.clean).getD false

/-- One ABORT. -/
def abortOne (s : Coordinator) (entry : LedgerEntry) : Answer → Coordinator
  | .reply report =>
    if report.clean then
      s.setOutcome entry.identity (.rolledBackClean report.residue report.pid)
    else
      { (s.setOutcome entry.identity (.rolledBackWithResidue report.residue report.pid)) with
        residue := s.residue ++
          [.residue entry.identity (report.residue.map Residue.outstanding)] }
  | .unreachable message =>
    { (s.setOutcome entry.identity (.unresolved (some message) (some entry.receipt))) with
      unresolved := s.unresolved ++ [.unresolved entry.identity message] }
  | .raised kind message =>
    { (s.setOutcome entry.identity
        (.unresolved (some (kind ++ ": " ++ message)) (some entry.receipt))) with
      unresolved := s.unresolved ++ [.unresolved entry.identity message] }

/-- The ABORT phase, over the ledger newest first. -/
def abortLoop (byIdentity : String → Option Participant) :
    List LedgerEntry → Coordinator → Coordinator
  | [], s => s
  | entry :: entries, s =>
    match byIdentity entry.identity with
    | some p =>
      abortLoop byIdentity entries (abortOne (s.call (.abort entry.identity)) entry p.abort)
    | none => s

/-- `{p.identity: p for p in participants}`. -/
def participantOf (participants : List Participant) (identity : String) : Option Participant :=
  Assoc.get? (participants.map fun p => (p.identity, p)) identity

/-- `_abort_proof`. -/
def abortProof (ledger unresolved residue : Nat) : String :=
  if ledger = 0 then
    "no participant had committed when the failure was reported, so the abort had nothing to " ++
      "unwind."
  else if unresolved = 0 ∧ residue = 0 then
    toString ledger ++ " committed participant(s) were sent ABORT in reverse commit order; each " ++
      "ran its OWN local LIFO unwind in its own process and proved its own no-residue. The " ++
      "coordinator held only the commit ledger — it never held or ran an inverse."
  else
    let unresolvedPart := if unresolved = 0 then [] else
      [toString unresolved ++ " participant(s) UNRESOLVED (unreachable for ABORT). Their " ++
        "inverses live in their own processes, so this is reported, not resolved: settle each " ++
        "from its own WAL"]
    let residuePart := if residue = 0 then [] else
      [toString residue ++ " participant(s) rolled back but reported residue of their own"]
    "; ".intercalate (unresolvedPart ++ residuePart) ++
      ". No participant is claimed rolled back that did not say so."

/-- The decision file of a federation, where the deploy has one. -/
structure Federation where
  id : String
  generation : Int
  deriving DecidableEq, Repr

/-- `run_deploy` once a COMMIT failed: the decision, the ABORT phase and the report. -/
def abortPhase (federation : Option Federation) (participants : List Participant)
    (s : Coordinator) (failure : Failure) : DeployReport :=
  let order := s.ledger.reverse
  let s := abortLoop (participantOf participants) order s
  let clean := s.unresolved.isEmpty && s.residue.isEmpty
  { verdict := if clean then .abortedClean else .abortedWithResidue,
    failedAt := some failure.identity, reason := failure.reason,
    participants := s.outcomes, commitLedger := s.ledger,
    abortOrder := order.map LedgerEntry.identity,
    clean := clean, outstanding := s.unresolved ++ s.residue,
    proof := abortProof s.ledger.length s.unresolved.length s.residue.length,
    calls := s.calls,
    decision := federation.map fun f =>
      .aborted f.id f.generation failure.reason failure.identity }

/-- `run_deploy`. -/
def runDeploy (federation : Option Federation) (participants : List Participant) :
    DeployReport :=
  match prepareLoop participants [] with
  | (calls, some refusal) =>
    { verdict := .refused, failedAt := some refusal.identity, reason := refusal.reason,
      participants := fun _ => .neverCommitted none none, commitLedger := [], abortOrder := [],
      clean := true, outstanding := [],
      proof := "PREPARE has no runtime effects, so a refusal there is not a rollback: no " ++
        "participant activated anything and there is nothing to undo.",
      calls := calls, decision := none }
  | (calls, none) =>
    match commitLoop participants (.start calls) with
    | (s, none) =>
      { verdict := .applied, failedAt := none, reason := none, participants := s.outcomes,
        commitLedger := s.ledger, abortOrder := [], clean := true, outstanding := [],
        proof := "every participant applied its own slice and returned a receipt; nothing was " ++
          "aborted.",
        calls := s.calls,
        decision := federation.map fun f =>
          .approved f.id f.generation ((participants.map Participant.identity).mergeSort (· ≤ ·)) }
    | (s, some failure) => abortPhase federation participants s failure

/-! ## What the loops do -/

/-- COMMIT was answered `ok`. -/
def answeredOk (p : Participant) : Bool := (commitReport p.commit).ok

/-- The participants that commit: those before the first that does not answer `ok`. -/
def committedOf (participants : List Participant) : List Participant :=
  participants.takeWhile answeredOk

/-- The participant whose COMMIT fails, where one does. -/
def failingOf (participants : List Participant) : Option Participant :=
  participants.find? fun p => !answeredOk p

/-- The calls and the ledger rows of participants that all answer `ok`. -/
def commitAll (participants : List Participant) (s : Coordinator) : Coordinator :=
  participants.foldl (fun s p =>
    (s.call (.commit p.identity)).committed p.identity (commitReport p.commit)) s

/-- **The commits up to the first that is not answered `ok`.** -/
theorem commitLoop_split (participants : List Participant) (s : Coordinator) :
    commitLoop participants s =
      match failingOf participants with
      | none => (commitAll (committedOf participants) s, none)
      | some p =>
        (((commitAll (committedOf participants) s).call (.commit p.identity)).setOutcome
          p.identity (failedOutcome (commitReport p.commit)),
          some ⟨p.identity, (commitReport p.commit).reason⟩) := by
  induction participants generalizing s with
  | nil => rfl
  | cons p ps ih =>
    unfold commitLoop
    by_cases hok : answeredOk p = true
    · have hreport : (commitReport p.commit).ok = true := hok
      have hfailing : failingOf (p :: ps) = failingOf ps := by
        unfold failingOf
        rw [List.find?_cons_of_neg (by simp [hok])]
      have hcommitted : committedOf (p :: ps) = p :: committedOf ps :=
        List.takeWhile_cons_of_pos hok
      simp only [hreport, if_true]
      rw [ih, hfailing, hcommitted]
      rfl
    · have hreport : ¬ (commitReport p.commit).ok = true := hok
      have hfailing : failingOf (p :: ps) = some p := by
        unfold failingOf
        rw [List.find?_cons_of_pos (by simp [hok])]
      have hcommitted : committedOf (p :: ps) = [] := List.takeWhile_cons_of_neg hok
      simp only [hreport, hfailing, hcommitted]
      rfl

section CommitAll

variable (participants : List Participant) (s : Coordinator)

theorem commitAll_calls : (commitAll participants s).calls =
    s.calls ++ participants.map fun p => .commit p.identity := by
  induction participants generalizing s with
  | nil => simp [commitAll]
  | cons p ps ih =>
    have hstep := ih ((s.call (.commit p.identity)).committed p.identity (commitReport p.commit))
    have hcalls : ((s.call (.commit p.identity)).committed p.identity
        (commitReport p.commit)).calls = s.calls ++ [.commit p.identity] := rfl
    rw [hcalls, List.append_assoc] at hstep
    exact hstep

theorem commitAll_ledger : (commitAll participants s).ledger.map LedgerEntry.identity =
    s.ledger.map LedgerEntry.identity ++ participants.map Participant.identity := by
  induction participants generalizing s with
  | nil => simp [commitAll]
  | cons p ps ih =>
    have hstep := ih ((s.call (.commit p.identity)).committed p.identity (commitReport p.commit))
    have hledger : ((s.call (.commit p.identity)).committed p.identity
        (commitReport p.commit)).ledger =
          s.ledger ++ [⟨p.identity, s.ledger.length, commitReport p.commit⟩] := rfl
    rw [hledger, List.map_append, List.append_assoc] at hstep
    exact hstep

theorem commitAll_aborts : (commitAll participants s).unresolved = s.unresolved ∧
    (commitAll participants s).residue = s.residue := by
  induction participants generalizing s with
  | nil => exact ⟨rfl, rfl⟩
  | cons p ps ih => exact ih _

/-- Every participant that committed is reported as applied, before the aborts, and no other
outcome is touched. -/
theorem commitAll_outcome (id : String) :
    (id ∉ participants.map Participant.identity →
        (commitAll participants s).outcomes id = s.outcomes id) ∧
      (id ∈ participants.map Participant.identity →
        ∃ receipt, (commitAll participants s).outcomes id = .applied receipt) := by
  induction participants generalizing s with
  | nil => exact ⟨fun _ => rfl, fun h => absurd h List.not_mem_nil⟩
  | cons p ps ih =>
    obtain ⟨hstay, hmem⟩ := ih
      ((s.call (.commit p.identity)).committed p.identity (commitReport p.commit))
    have hstep : id ∉ ps.map Participant.identity → (commitAll (p :: ps) s).outcomes id =
        Function.update s.outcomes p.identity (.applied (commitReport p.commit)) id := hstay
    rw [List.map_cons, List.mem_cons]
    constructor
    · intro hnot
      rw [not_or] at hnot
      rw [hstep hnot.2, Function.update_of_ne hnot.1]
    · intro hid
      by_cases hlater : id ∈ ps.map Participant.identity
      · exact hmem hlater
      · obtain rfl := hid.resolve_right hlater
        exact ⟨_, (hstep hlater).trans (Function.update_self ..)⟩

end CommitAll

/-- ABORT was answered with a residue proof that came out clean. -/
def CleanAbort (answer : Answer) : Prop := ∃ report, answer = .reply report ∧ report.clean = true

/-- What one ABORT is reported as. -/
def abortOutcome (entry : LedgerEntry) : Answer → Outcome
  | .reply report =>
    if report.clean then .rolledBackClean report.residue report.pid
    else .rolledBackWithResidue report.residue report.pid
  | .unreachable message => .unresolved (some message) (some entry.receipt)
  | .raised kind message => .unresolved (some (kind ++ ": " ++ message)) (some entry.receipt)

theorem abortOne_outcomes (s : Coordinator) (entry : LedgerEntry) (answer : Answer) :
    (abortOne s entry answer).outcomes =
      Function.update s.outcomes entry.identity (abortOutcome entry answer) := by
  cases answer with
  | reply report =>
    unfold abortOne abortOutcome
    by_cases hclean : report.clean = true
    · simp only [hclean, if_true]
      rfl
    · simp only [hclean]
      rfl
  | unreachable message => rfl
  | raised kind message => rfl

theorem abortOne_calls (s : Coordinator) (entry : LedgerEntry) (answer : Answer) :
    (abortOne s entry answer).calls = s.calls := by
  cases answer with
  | reply report =>
    simp only [abortOne]
    split <;> rfl
  | unreachable message => rfl
  | raised kind message => rfl

theorem abortOne_ledger (s : Coordinator) (entry : LedgerEntry) (answer : Answer) :
    (abortOne s entry answer).ledger = s.ledger := by
  cases answer with
  | reply report =>
    simp only [abortOne]
    split <;> rfl
  | unreachable message => rfl
  | raised kind message => rfl

/-- An ABORT adds nothing to either list exactly when it is answered clean. -/
theorem abortOne_clean_iff (s : Coordinator) (entry : LedgerEntry) (answer : Answer) :
    ((abortOne s entry answer).unresolved = [] ∧ (abortOne s entry answer).residue = []) ↔
      (s.unresolved = [] ∧ s.residue = []) ∧ CleanAbort answer := by
  cases answer with
  | reply report =>
    unfold abortOne
    by_cases hclean : report.clean = true
    · have hwit : CleanAbort (.reply report) := ⟨report, rfl, hclean⟩
      simp only [hclean, if_true]
      exact ⟨fun h => ⟨h, hwit⟩, fun h => h.1⟩
    · have hnot : ¬ CleanAbort (.reply report) := by
        rintro ⟨r, heq, hr⟩
        cases heq
        exact hclean hr
      simp [hclean, hnot]
  | unreachable message =>
    have hnot : ¬ CleanAbort (.unreachable message) := fun ⟨_, h, _⟩ => by cases h
    simp [abortOne, hnot]
  | raised kind message =>
    have hnot : ¬ CleanAbort (.raised kind message) := fun ⟨_, h, _⟩ => by cases h
    simp [abortOne, hnot]

section AbortLoop

variable {byIdentity : String → Option Participant}

/-- **What the abort loop asks and reports**, over rows whose participants are known: one ABORT
each, in order; outcomes off the list stay; nothing is added to the two lists exactly when
every ABORT is answered clean. -/
theorem abortLoop_spec : ∀ (entries : List LedgerEntry) (s : Coordinator),
    (∀ e ∈ entries, ∃ p, byIdentity e.identity = some p) →
      (abortLoop byIdentity entries s).calls =
          s.calls ++ entries.map (fun e => .abort e.identity) ∧
        (abortLoop byIdentity entries s).ledger = s.ledger ∧
        (∀ id ∉ entries.map LedgerEntry.identity,
          (abortLoop byIdentity entries s).outcomes id = s.outcomes id) ∧
        ((abortLoop byIdentity entries s).unresolved = [] ∧
            (abortLoop byIdentity entries s).residue = [] ↔
          (s.unresolved = [] ∧ s.residue = []) ∧
            ∀ e ∈ entries, ∀ p, byIdentity e.identity = some p → CleanAbort p.abort) := by
  intro entries
  induction entries with
  | nil =>
    intro s _
    simp [abortLoop]
  | cons e entries ih =>
    intro s hknown
    obtain ⟨p, hp⟩ := hknown e (List.mem_cons_self ..)
    obtain ⟨hcalls, hledger, houtcomes, hclean⟩ := ih
      (abortOne (s.call (.abort e.identity)) e p.abort)
      (fun e' he' => hknown e' (List.mem_cons_of_mem _ he'))
    rw [abortLoop, hp]
    refine ⟨?_, ?_, ?_, ?_⟩
    · dsimp only
      rw [hcalls, abortOne_calls]
      simp [Coordinator.call]
    · dsimp only
      rw [hledger, abortOne_ledger]
      rfl
    · intro id hid
      rw [List.map_cons, List.mem_cons, not_or] at hid
      dsimp only
      rw [houtcomes id hid.2, abortOne_outcomes, Function.update_of_ne hid.1]
      rfl
    · dsimp only
      rw [hclean, abortOne_clean_iff]
      constructor
      · rintro ⟨⟨hs, habort⟩, hrest⟩
        refine ⟨hs, fun e' he' p' hp' => ?_⟩
        rcases List.mem_cons.mp he' with rfl | he'
        · rw [hp, Option.some.injEq] at hp'
          exact hp' ▸ habort
        · exact hrest e' he' p' hp'
      · rintro ⟨hs, hall⟩
        refine ⟨⟨hs, hall e (List.mem_cons_self ..) p hp⟩, fun e' he' => ?_⟩
        exact hall e' (List.mem_cons_of_mem _ he')

/-- Each row asked is reported as its ABORT came back. -/
theorem abortLoop_outcome : ∀ (entries : List LedgerEntry) (s : Coordinator),
    (∀ e ∈ entries, ∃ p, byIdentity e.identity = some p) →
      (entries.map LedgerEntry.identity).Nodup → ∀ e ∈ entries, ∀ p,
        byIdentity e.identity = some p →
          (abortLoop byIdentity entries s).outcomes e.identity = abortOutcome e p.abort := by
  intro entries
  induction entries with
  | nil => exact fun _ _ _ e he => absurd he List.not_mem_nil
  | cons e₀ entries ih =>
    intro s hknown hnodup e he p hp
    obtain ⟨p₀, hp₀⟩ := hknown e₀ (List.mem_cons_self ..)
    rw [List.map_cons, List.nodup_cons] at hnodup
    have hknown' : ∀ e ∈ entries, ∃ p, byIdentity e.identity = some p :=
      fun e' he' => hknown e' (List.mem_cons_of_mem _ he')
    rw [abortLoop, hp₀]
    dsimp only
    rcases List.mem_cons.mp he with rfl | he
    · rw [hp₀, Option.some.injEq] at hp
      subst hp
      rw [(abortLoop_spec entries _ hknown').2.2.1 e.identity hnodup.1, abortOne_outcomes,
        Function.update_self]
    · exact ih _ hknown' hnodup.2 e he p hp

end AbortLoop

/-! ## The protocol as a whole -/

/-- Every PREPARE was answered `ok`. -/
def AllPrepared (participants : List Participant) : Prop :=
  ∀ p ∈ participants, (prepareReport p.prepare).ok = true

theorem prepareLoop_of_allPrepared : ∀ (participants : List Participant) (calls : List Call),
    AllPrepared participants → prepareLoop participants calls =
      (calls ++ participants.map fun p => .prepare p.identity, none)
  | [], calls, _ => by simp [prepareLoop]
  | p :: ps, calls, h => by
    have hp : (prepareReport p.prepare).ok = true := h p (List.mem_cons_self ..)
    have hps := prepareLoop_of_allPrepared ps (calls ++ [.prepare p.identity])
      fun q hq => h q (List.mem_cons_of_mem _ hq)
    simp only [prepareLoop, hp, if_true]
    rw [hps]
    simp

/-- A PREPARE that is not `ok` ends the deploy before any COMMIT. -/
theorem prepareLoop_of_not : ∀ (participants : List Participant) (calls : List Call),
    ¬ AllPrepared participants → (∀ c ∈ calls, ∃ id, c = .prepare id) →
      ∃ calls' refusal, prepareLoop participants calls = (calls', some refusal) ∧
        ∀ c ∈ calls', ∃ id, c = .prepare id
  | [], _, h, _ => absurd (fun p hp => absurd hp List.not_mem_nil) h
  | p :: ps, calls, h, hcalls => by
    have hcalls' : ∀ c ∈ calls ++ [Call.prepare p.identity], ∃ id, c = .prepare id := by
      intro c hc
      rcases List.mem_append.mp hc with hc | hc
      · exact hcalls c hc
      · exact ⟨p.identity, List.mem_singleton.mp hc⟩
    by_cases hp : (prepareReport p.prepare).ok = true
    · have hps : ¬ AllPrepared ps := by
        intro hall
        refine h fun q hq => ?_
        rcases List.mem_cons.mp hq with rfl | hq
        · exact hp
        · exact hall q hq
      -- the one that is refused comes later
      obtain ⟨calls', refusal, heq, hall⟩ := prepareLoop_of_not ps _ hps hcalls'
      refine ⟨calls', refusal, ?_, hall⟩
      simp only [prepareLoop, hp, if_true]
      exact heq
    · refine ⟨calls ++ [.prepare p.identity], ⟨p.identity, (prepareReport p.prepare).reason⟩, ?_,
        hcalls'⟩
      simp only [prepareLoop, hp]
      rfl

/-- The participants before the failing one, the failing one, and those never asked. -/
theorem split_of_failing {participants : List Participant} {f : Participant}
    (h : failingOf participants = some f) :
    (∃ rest, participants = committedOf participants ++ f :: rest) ∧
      ¬ answeredOk f = true := by
  induction participants with
  | nil => cases h
  | cons p ps ih =>
    by_cases hok : answeredOk p = true
    · have hps : failingOf ps = some f := by
        unfold failingOf at h ⊢
        rwa [List.find?_cons_of_neg (by simp [hok])] at h
      obtain ⟨⟨rest, heq⟩, hf⟩ := ih hps
      refine ⟨⟨rest, ?_⟩, hf⟩
      have hcommitted : committedOf (p :: ps) = p :: committedOf ps :=
        List.takeWhile_cons_of_pos hok
      rw [hcommitted, List.cons_append, ← heq]
    · have hp : p = f := by
        unfold failingOf at h
        rw [List.find?_cons_of_pos (by simp [hok]), Option.some.injEq] at h
        exact h
      subst hp
      have hcommitted : committedOf (p :: ps) = [] := List.takeWhile_cons_of_neg hok
      exact ⟨⟨ps, by rw [hcommitted, List.nil_append]⟩, hok⟩

theorem committed_ok {participants : List Participant} {p : Participant}
    (h : p ∈ committedOf participants) : answeredOk p = true := List.mem_takeWhile_imp h

theorem committed_of_not_failing {participants : List Participant}
    (h : failingOf participants = none) : committedOf participants = participants := by
  unfold failingOf at h
  refine List.takeWhile_eq_self_iff.mpr fun p hp => ?_
  simpa using List.find?_eq_none.mp h p hp

/-- `by_identity` finds every participant. -/
theorem participantOf_eq {participants : List Participant}
    (hnodup : (participants.map Participant.identity).Nodup) {p : Participant}
    (hp : p ∈ participants) : participantOf participants p.identity = some p := by
  unfold participantOf
  rw [Assoc.get?_eq_some_iff (by rwa [List.map_map])]
  exact List.mem_map.mpr ⟨p, hp, rfl⟩

/-- The report says the deploy was rolled back clean. -/
def ClaimsClean (d : DeployReport) : Prop := d.verdict = .abortedClean ∧ d.clean = true

section Failed

variable (participants : List Participant) (f : Participant)

/-- What the abort loop of a deploy that failed at `f` starts from. -/
def abortStart : Coordinator :=
  ((commitAll (committedOf participants)
    (.start (participants.map fun p => .prepare p.identity))).call
      (.commit f.identity)).setOutcome f.identity (failedOutcome (commitReport f.commit))

theorem abortStart_calls : (abortStart participants f).calls =
    participants.map (fun p => .prepare p.identity) ++
      (committedOf participants).map (fun p => .commit p.identity) ++ [.commit f.identity] := by
  show (commitAll _ _).calls ++ [Call.commit f.identity] = _
  rw [commitAll_calls]
  rfl

/-- The rows of the ledger are the committed participants, in order. -/
theorem abortStart_ledger : (abortStart participants f).ledger.map LedgerEntry.identity =
    (committedOf participants).map Participant.identity :=
  (commitAll_ledger _ _).trans (List.nil_append _)

theorem abortStart_reverse : (abortStart participants f).ledger.reverse.map LedgerEntry.identity =
    ((committedOf participants).map Participant.identity).reverse := by
  rw [List.map_reverse, abortStart_ledger]

theorem abortStart_lists :
    (abortStart participants f).unresolved = [] ∧ (abortStart participants f).residue = [] :=
  commitAll_aborts _ _

theorem abortStart_failed :
    (abortStart participants f).outcomes f.identity = failedOutcome (commitReport f.commit) :=
  Function.update_self ..

theorem abortStart_untouched {id : String}
    (hid : id ∉ (committedOf participants ++ [f]).map Participant.identity) :
    (abortStart participants f).outcomes id = .neverCommitted none none := by
  rw [List.map_append, List.mem_append, not_or] at hid
  have hne : id ≠ f.identity := fun h => hid.2 (by simp [h])
  refine (Function.update_of_ne hne _ _).trans ?_
  exact (commitAll_outcome _ _ id).1 hid.1

/-- The row of a committed participant, and the participant of a row. -/
theorem abortStart_row {q : Participant} (hq : q ∈ committedOf participants) :
    ∃ e ∈ (abortStart participants f).ledger.reverse, e.identity = q.identity := by
  have hid : q.identity ∈ (abortStart participants f).ledger.map LedgerEntry.identity := by
    rw [abortStart_ledger]
    exact List.mem_map.mpr ⟨q, hq, rfl⟩
  obtain ⟨e, he, heq⟩ := List.mem_map.mp hid
  exact ⟨e, List.mem_reverse.mpr he, heq⟩

theorem abortStart_committed {e : LedgerEntry}
    (he : e ∈ (abortStart participants f).ledger.reverse) :
    ∃ q ∈ committedOf participants, q.identity = e.identity := by
  have hid : e.identity ∈ (committedOf participants).map Participant.identity := by
    rw [← abortStart_ledger participants f]
    exact List.mem_map.mpr ⟨e, List.mem_reverse.mp he, rfl⟩
  obtain ⟨q, hq, heq⟩ := List.mem_map.mp hid
  exact ⟨q, hq, heq⟩

variable {participants f}

theorem committed_mem {q : Participant} (hq : q ∈ committedOf participants) : q ∈ participants :=
  (List.takeWhile_sublist _).subset hq

/-- Every row names a participant. -/
theorem abortStart_known (hnodup : (participants.map Participant.identity).Nodup) :
    ∀ e ∈ (abortStart participants f).ledger.reverse,
      ∃ p, participantOf participants e.identity = some p := by
  intro e he
  obtain ⟨q, hq, heq⟩ := abortStart_committed participants f he
  exact ⟨q, heq ▸ participantOf_eq hnodup (committed_mem hq)⟩

/-- The abort loop adds nothing to either list exactly when every ABORT is answered clean. -/
theorem abortStart_clean (hnodup : (participants.map Participant.identity).Nodup) :
    ((abortLoop (participantOf participants) (abortStart participants f).ledger.reverse
        (abortStart participants f)).unresolved = [] ∧
      (abortLoop (participantOf participants) (abortStart participants f).ledger.reverse
        (abortStart participants f)).residue = []) ↔
      ∀ q ∈ committedOf participants, CleanAbort q.abort := by
  rw [(abortLoop_spec _ _ (abortStart_known hnodup)).2.2.2]
  constructor
  · rintro ⟨-, hall⟩ q hq
    obtain ⟨e, he, heq⟩ := abortStart_row participants f hq
    exact hall e he q (heq ▸ participantOf_eq hnodup (committed_mem hq))
  · intro hall
    refine ⟨abortStart_lists participants f, fun e he p hp => ?_⟩
    obtain ⟨q, hq, heq⟩ := abortStart_committed participants f he
    rw [← heq, participantOf_eq hnodup (committed_mem hq), Option.some.injEq] at hp
    exact hp ▸ hall q hq

theorem runDeploy_eq_abortPhase (federation : Option Federation) (hprep : AllPrepared participants)
    (hf : failingOf participants = some f) :
    runDeploy federation participants =
      abortPhase federation participants (abortStart participants f)
        ⟨f.identity, (commitReport f.commit).reason⟩ := by
  have hcommit := commitLoop_split participants
    (.start (participants.map fun p => .prepare p.identity))
  rw [hf] at hcommit
  unfold runDeploy
  rw [prepareLoop_of_allPrepared participants [] hprep, List.nil_append]
  dsimp only
  rw [hcommit]
  rfl

end Failed

/-- **A deploy that failed at COMMIT**: the verdict is clean exactly when every committed
participant answered ABORT clean; the failing participant and the committed ones are reported
as they answered; and the calls are the prepares, the commits and the aborts in reverse. -/
theorem runDeploy_failed (federation : Option Federation) {participants : List Participant}
    (hnodup : (participants.map Participant.identity).Nodup) (hprep : AllPrepared participants)
    {f : Participant} (hf : failingOf participants = some f) :
    let d := runDeploy federation participants
    ((ClaimsClean d ↔ ∀ q ∈ committedOf participants, CleanAbort q.abort) ∧
      d.verdict ≠ .applied) ∧ d.failedAt = some f.identity ∧
      d.participants f.identity = failedOutcome (commitReport f.commit) ∧
      (∀ q ∈ committedOf participants, ∃ e, d.participants q.identity =
        abortOutcome e q.abort) ∧
      (∀ id ∉ (committedOf participants ++ [f]).map Participant.identity,
        d.participants id = .neverCommitted none none) ∧
      d.calls = participants.map (fun p => .prepare p.identity) ++
        (committedOf participants).map (fun p => .commit p.identity) ++
        .commit f.identity :: (committedOf participants).reverse.map
          fun p => .abort p.identity := by
  obtain ⟨⟨rest, hsplit⟩, -⟩ := split_of_failing hf
  have hids : ((committedOf participants).map Participant.identity ++
      f.identity :: rest.map Participant.identity).Nodup := by
    have h := hnodup
    rw [hsplit, List.map_append, List.map_cons] at h
    exact h
  have hrev := abortStart_reverse participants f
  have hknown := abortStart_known (f := f) hnodup
  have hclean := abortStart_clean (f := f) hnodup
  obtain ⟨hacalls, -, hastay, -⟩ := abortLoop_spec _ _ hknown
  dsimp only
  rw [runDeploy_eq_abortPhase federation hprep hf]
  unfold abortPhase
  refine ⟨⟨?_, ?_⟩, rfl, ?_, ?_, ?_, ?_⟩
  · rw [← hclean]
    unfold ClaimsClean
    dsimp only
    generalize (abortLoop (participantOf participants) (abortStart participants f).ledger.reverse
      (abortStart participants f)).unresolved = u
    generalize (abortLoop (participantOf participants) (abortStart participants f).ledger.reverse
      (abortStart participants f)).residue = r
    cases u <;> cases r <;> simp
  · dsimp only
    split <;> exact Verdict.noConfusion
  · -- the failing participant has no row, so no ABORT touches its outcome
    have hnot : f.identity ∉
        (abortStart participants f).ledger.reverse.map LedgerEntry.identity := by
      rw [hrev, List.mem_reverse]
      exact fun h => (List.nodup_append'.mp hids).2.2 h (List.mem_cons_self ..)
    exact (hastay _ hnot).trans (abortStart_failed participants f)
  · intro q hq
    obtain ⟨e, he, heq⟩ := abortStart_row participants f hq
    refine ⟨e, ?_⟩
    -- no participant has two rows, so a later ABORT does not overwrite what this one reports
    have hnd : ((abortStart participants f).ledger.reverse.map LedgerEntry.identity).Nodup := by
      rw [hrev, List.nodup_reverse]
      exact (List.nodup_append'.mp hids).1
    have hpart : participantOf participants e.identity = some q :=
      heq ▸ participantOf_eq hnodup (committed_mem hq)
    have := abortLoop_outcome _ (abortStart participants f) hknown hnd e he q hpart
    rw [heq] at this
    exact this
  · intro id hid
    have hnot : id ∉ (abortStart participants f).ledger.reverse.map LedgerEntry.identity := by
      rw [hrev, List.mem_reverse]
      rw [List.map_append, List.mem_append, not_or] at hid
      exact hid.1
    exact (hastay id hnot).trans (abortStart_untouched participants f hid)
  · dsimp only
    rw [hacalls, abortStart_calls]
    have haborts : (abortStart participants f).ledger.reverse.map (fun e => Call.abort e.identity) =
        (committedOf participants).reverse.map fun p => Call.abort p.identity := by
      have h := congrArg (List.map Call.abort) hrev
      rw [← List.map_reverse, List.map_map, List.map_map] at h
      exact h
    rw [haborts]
    simp

/-! ## What the report claims -/

/-- COMMIT was answered with a local failure and a clean residue proof: the participant applied,
unwound its own slice, and says nothing of it is left. -/
def ProvedEmpty (answer : Answer) : Prop :=
  ∃ report, answer = .reply report ∧ report.ok = false ∧ report.unresolved = false ∧
    report.clean = true

/-- The participants that answered COMMIT `ok`, in the order they were asked. -/
def askedAndOk (participants : List Participant) (calls : List Call) : List Participant :=
  participants.filter fun p => decide (.commit p.identity ∈ calls) && answeredOk p

/-- The participants ABORT was sent to, in the order it was sent. -/
def abortsOf (calls : List Call) : List String :=
  calls.filterMap fun
    | .abort identity => some identity
    | _ => none

/-- A report that claims no rollback the deploy did not obtain. -/
structure Honest (participants : List Participant) (d : DeployReport) : Prop where
  applied : d.verdict = .applied → ∀ p ∈ participants, answeredOk p = true
  none_unresolved : ClaimsClean d → ∀ p ∈ participants,
    ∀ reason receipt, d.participants p.identity ≠ .unresolved reason receipt
  unwound : ClaimsClean d → ∀ p ∈ askedAndOk participants d.calls,
    CleanAbort p.abort
  failing_empty : ClaimsClean d → ∃ p ∈ participants,
    d.failedAt = some p.identity ∧ ProvedEmpty p.commit
  aborted : ClaimsClean d →
    abortsOf d.calls = ((askedAndOk participants d.calls).map Participant.identity).reverse
  /-- A participant asked to commit that did not prove it holds nothing may have applied. -/
  never_committed : ∀ p ∈ participants, .commit p.identity ∈ d.calls → ¬ ProvedEmpty p.commit →
    ∀ reason residue, d.participants p.identity ≠ .neverCommitted reason residue

/-- The condition: a PREPARE is refused, or every COMMIT is `ok`, or the first that is not is a
local failure with a clean proof, or is unresolved beside an earlier participant whose ABORT is
not answered clean. -/
def HoldsWhen (participants : List Participant) : Prop :=
  ¬ AllPrepared participants ∨ ∀ f, failingOf participants = some f →
    ProvedEmpty f.commit ∨ ((commitReport f.commit).unresolved = true ∧
      ∃ q ∈ committedOf participants, ¬ CleanAbort q.abort)

theorem not_commit_of_prepares {calls : List Call} (h : ∀ c ∈ calls, ∃ id, c = .prepare id)
    (identity : String) : .commit identity ∉ calls := by
  intro hmem
  obtain ⟨id, heq⟩ := h _ hmem
  cases heq

/-- Where a PREPARE is refused there is nothing to claim. -/
theorem honest_of_refused (federation : Option Federation) {participants : List Participant}
    (h : ¬ AllPrepared participants) : Honest participants (runDeploy federation participants) := by
  obtain ⟨calls, refusal, heq, hcalls⟩ := prepareLoop_of_not participants [] h
    (fun c hc => absurd hc List.not_mem_nil)
  unfold runDeploy
  rw [heq]
  exact
    { applied := Verdict.noConfusion
      none_unresolved := fun h => Verdict.noConfusion h.1
      unwound := fun h => Verdict.noConfusion h.1
      failing_empty := fun h => Verdict.noConfusion h.1
      aborted := fun h => Verdict.noConfusion h.1
      never_committed := fun p _ hcall => absurd hcall (not_commit_of_prepares hcalls _) }

/-- Where every COMMIT is `ok` the report says so. -/
theorem honest_of_applied (federation : Option Federation) {participants : List Participant}
    (hprep : AllPrepared participants) (hf : failingOf participants = none) :
    Honest participants (runDeploy federation participants) := by
  have hall := committed_of_not_failing hf
  have hcommit := commitLoop_split participants
    (.start (participants.map fun p => .prepare p.identity))
  rw [hf, hall] at hcommit
  dsimp only at hcommit
  unfold runDeploy
  rw [prepareLoop_of_allPrepared participants [] hprep, List.nil_append]
  dsimp only
  rw [hcommit]
  exact
    { applied := fun _ p hp => committed_ok (hall.symm ▸ hp)
      none_unresolved := fun h => Verdict.noConfusion h.1
      unwound := fun h => Verdict.noConfusion h.1
      failing_empty := fun h => Verdict.noConfusion h.1
      aborted := fun h => Verdict.noConfusion h.1
      never_committed := by
        intro p hp _ _ reason residue
        obtain ⟨receipt, heq⟩ := (commitAll_outcome participants
          (.start (participants.map fun p => .prepare p.identity)) p.identity).2
            (List.mem_map.mpr ⟨p, hp, rfl⟩)
        intro h
        have happlied : Outcome.applied receipt = .neverCommitted reason residue := heq.symm.trans h
        cases happlied }

/-- In a deploy that failed at COMMIT, the participants that answered `ok` are those before the
failing one. -/
theorem askedAndOk_failed {participants : List Participant}
    (hnodup : (participants.map Participant.identity).Nodup) {f : Participant}
    (hf : failingOf participants = some f) {calls : List Call}
    (hcalls : ∀ identity, .commit identity ∈ calls ↔
      identity ∈ (committedOf participants ++ [f]).map Participant.identity) :
    askedAndOk participants calls = committedOf participants := by
  obtain ⟨⟨rest, hsplit⟩, hnotok⟩ := split_of_failing hf
  unfold askedAndOk
  conv_lhs => rw [hsplit]
  rw [List.filter_append]
  have hpre : (committedOf participants).filter
      (fun p => decide (.commit p.identity ∈ calls) && answeredOk p) =
        committedOf participants := by
    refine List.filter_eq_self.mpr fun p hp => ?_
    rw [committed_ok hp, Bool.and_true, decide_eq_true_eq, hcalls]
    exact List.mem_map.mpr ⟨p, List.mem_append_left _ hp, rfl⟩
  have hpost : (f :: rest).filter
      (fun p => decide (.commit p.identity ∈ calls) && answeredOk p) = [] := by
    refine List.filter_eq_nil_iff.mpr fun p hp => ?_
    rcases List.mem_cons.mp hp with rfl | hp
    · simp [hnotok]
    · -- a participant after the failing one was not asked
      rw [hsplit] at hnodup
      have hids :
          (((committedOf participants ++ [f]) ++ rest).map Participant.identity).Nodup := by
        simpa using hnodup
      rw [List.map_append] at hids
      have hnot : Call.commit p.identity ∉ calls := by
        rw [hcalls]
        exact fun h => (List.nodup_append'.mp hids).2.2 h (List.mem_map.mpr ⟨p, hp, rfl⟩)
      simp [hnot]
  rw [hpre, hpost, List.append_nil]

section FailedAt

variable {participants : List Participant} {f : Participant}

theorem failing_mem (hf : failingOf participants = some f) : f ∈ participants := by
  obtain ⟨⟨rest, hsplit⟩, -⟩ := split_of_failing hf
  rw [hsplit]
  exact List.mem_append_right _ (List.mem_cons_self ..)

/-- COMMIT was sent to the committed participants and to the failing one. -/
theorem commits_failed (federation : Option Federation)
    (hnodup : (participants.map Participant.identity).Nodup) (hprep : AllPrepared participants)
    (hf : failingOf participants = some f) (identity : String) :
    .commit identity ∈ (runDeploy federation participants).calls ↔
      identity ∈ (committedOf participants ++ [f]).map Participant.identity := by
  obtain ⟨-, -, -, -, -, hcalls⟩ := runDeploy_failed federation hnodup hprep hf
  rw [hcalls]
  simp [eq_comm]

/-- Whoever was asked to commit is a committed participant or the failing one. -/
theorem asked_failed (federation : Option Federation)
    (hnodup : (participants.map Participant.identity).Nodup) (hprep : AllPrepared participants)
    (hf : failingOf participants = some f) {p : Participant} (hp : p ∈ participants)
    (hcall : .commit p.identity ∈ (runDeploy federation participants).calls) :
    p ∈ committedOf participants ∨ p = f := by
  obtain ⟨q, hq, hid⟩ :=
    List.mem_map.mp ((commits_failed federation hnodup hprep hf _).mp hcall)
  have hqmem : q ∈ participants := by
    rcases List.mem_append.mp hq with hq | hq
    · exact committed_mem hq
    · exact List.mem_singleton.mp hq ▸ failing_mem hf
  -- an identity names one participant
  obtain rfl : q = p := List.inj_on_of_nodup_map hnodup hqmem hp hid
  rcases List.mem_append.mp hq with hq | hq
  · exact Or.inl hq
  · exact Or.inr (List.mem_singleton.mp hq)

/-- An honest report of a deploy that failed at COMMIT: the failing participant proved it holds
nothing, or is unresolved beside an unclean ABORT. -/
theorem condition_of_honest (federation : Option Federation)
    (hnodup : (participants.map Participant.identity).Nodup) (hprep : AllPrepared participants)
    (hf : failingOf participants = some f)
    (hhonest : Honest participants (runDeploy federation participants)) :
    ProvedEmpty f.commit ∨ ((commitReport f.commit).unresolved = true ∧
      ∃ q ∈ committedOf participants, ¬ CleanAbort q.abort) := by
  obtain ⟨⟨hverdict, -⟩, -, houtcome, -, -, -⟩ := runDeploy_failed federation hnodup hprep hf
  have hfmem := failing_mem hf
  by_cases hun : (commitReport f.commit).unresolved = true
  · right
    refine ⟨hun, ?_⟩
    by_contra hall
    push Not at hall
    refine hhonest.none_unresolved (hverdict.mpr hall) f hfmem
      (commitReport f.commit).reason none ?_
    rw [houtcome, failedOutcome, if_pos hun]
  · left
    by_contra hnot
    have hfasked : .commit f.identity ∈ (runDeploy federation participants).calls := by
      rw [commits_failed federation hnodup hprep hf]
      simp
    refine hhonest.never_committed f hfmem hfasked hnot (commitReport f.commit).reason
      (commitReport f.commit).residue ?_
    rw [houtcome, failedOutcome, if_neg hun]

/-- And under that condition the report is honest. -/
theorem honest_of_condition (federation : Option Federation)
    (hnodup : (participants.map Participant.identity).Nodup) (hprep : AllPrepared participants)
    (hf : failingOf participants = some f)
    (hcond : ProvedEmpty f.commit ∨ ((commitReport f.commit).unresolved = true ∧
      ∃ q ∈ committedOf participants, ¬ CleanAbort q.abort)) :
    Honest participants (runDeploy federation participants) := by
  obtain ⟨⟨hverdict, hnotapplied⟩, hfailedAt, houtcome, hcommitted, huntouched, hcalls⟩ :=
    runDeploy_failed federation hnodup hprep hf
  have hcommits := commits_failed federation hnodup hprep hf
  have hasked := askedAndOk_failed hnodup hf hcommits
  have hempty : ClaimsClean (runDeploy federation participants) → ProvedEmpty f.commit := by
    intro hv
    rcases hcond with hempty | ⟨-, q, hq, hdirty⟩
    · exact hempty
    · exact absurd (hverdict.mp hv q hq) hdirty
  have hresolved : ProvedEmpty f.commit → (commitReport f.commit).unresolved = false := by
    rintro ⟨report, heq, -, hun, -⟩
    rw [heq]
    exact hun
  exact
    { applied := fun hv => absurd hv hnotapplied
      none_unresolved := by
        intro hv p hp reason receipt hout
        by_cases hcall : .commit p.identity ∈ (runDeploy federation participants).calls
        · rcases asked_failed federation hnodup hprep hf hp hcall with hq | rfl
          · obtain ⟨e, he⟩ := hcommitted p hq
            obtain ⟨report, habort, hclean⟩ := hverdict.mp hv p hq
            rw [he, habort, abortOutcome, if_pos hclean] at hout
            cases hout
          · have hun := hresolved (hempty hv)
            rw [houtcome, failedOutcome, hun] at hout
            cases hout
        · rw [hcommits] at hcall
          rw [huntouched _ hcall] at hout
          cases hout
      unwound := fun hv p hp => hverdict.mp hv p (hasked ▸ hp)
      failing_empty := fun hv => ⟨f, failing_mem hf, hfailedAt, hempty hv⟩
      aborted := by
        intro _
        rw [hasked, hcalls]
        simp [abortsOf]
      never_committed := by
        intro p hp hcall hnot reason residue hout
        rcases asked_failed federation hnodup hprep hf hp hcall with hq | rfl
        · obtain ⟨e, he⟩ := hcommitted p hq
          rw [he] at hout
          unfold abortOutcome at hout
          split at hout
          · split at hout <;> cases hout
          · cases hout
          · cases hout
        · rcases hcond with hempty | ⟨hun, -⟩
          · exact hnot hempty
          · rw [houtcome, failedOutcome, if_pos hun] at hout
            cases hout }

end FailedAt

/-- **The report claims no rollback the deploy did not obtain exactly where** the failing
participant proved it holds nothing, or is unresolved beside an unclean ABORT. -/
theorem run_deploy_claims (federation : Option Federation) (participants : List Participant)
    (hnodup : (participants.map Participant.identity).Nodup) :
    Honest participants (runDeploy federation participants) ↔ HoldsWhen participants := by
  by_cases hprep : AllPrepared participants
  swap
  · exact ⟨fun _ => Or.inl hprep, fun _ => honest_of_refused federation hprep⟩
  cases hf : failingOf participants with
  | none =>
    refine ⟨fun _ => Or.inr fun f h => ?_, fun _ => honest_of_applied federation hprep hf⟩
    rw [hf] at h
    cases h
  | some f =>
    constructor
    · intro hhonest
      refine Or.inr fun f' hf' => ?_
      exact condition_of_honest federation hnodup hprep hf' hhonest
    · intro hholds
      have hcond := hholds.resolve_left (not_not.mpr hprep) f hf
      exact honest_of_condition federation hnodup hprep hf hcond

/-! ### A participant lost at COMMIT -/

/-- A reply that is `ok`, with a clean residue. -/
def Report.done : Report := ⟨true, none, false, some ⟨true, []⟩, some 1⟩

/-- A participant that answers every call. -/
def wellBehaved (identity : String) : Participant :=
  ⟨identity, .reply .done, .reply .done, .reply .done⟩

/-- A participant whose process dies at COMMIT, before or after it applied. -/
def lostAtCommit (identity : String) : Participant :=
  ⟨identity, .reply .done, .unreachable "it died mid-phase", .unreachable "it is gone"⟩

theorem run_deploy_claims_well_behaved :
    Honest [wellBehaved "db", wellBehaved "web"]
      (runDeploy none [wellBehaved "db", wellBehaved "web"]) :=
  (run_deploy_claims none [wellBehaved "db", wellBehaved "web"] (by decide)).mpr
    (Or.inr fun f h => by
      have hnone : failingOf [wellBehaved "db", wellBehaved "web"] = none := by decide
      rw [hnone] at h
      cases h)

/-- **A deploy is reported rolled back clean beside a participant that may have applied**: the
first participant commits and unwinds clean, the second is lost at COMMIT. -/
theorem lost_participant_aborted_clean :
    ¬ ∀ (federation : Option Federation) (participants : List Participant),
      (participants.map Participant.identity).Nodup →
        Honest participants (runDeploy federation participants) := by
  intro hclaim
  have hhonest := hclaim none [wellBehaved "db", lostAtCommit "web"] (by decide)
  have hclean : ClaimsClean (runDeploy none [wellBehaved "db", lostAtCommit "web"]) :=
    ⟨by decide, by decide⟩
  refine hhonest.none_unresolved hclean (lostAtCommit "web") (by decide)
    (some "unreachable during COMMIT: it died mid-phase") none ?_
  decide

end Revl.Deploy
