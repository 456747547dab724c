import Revl.Recovery.Record

/-!
# Forward recovery of admissions

A turn that was admitted in two phases leaves `admit-*` records. Recovery classifies what was
decided and not settled, and finalizes forward what the evidence proves advanced.

- `JournalServed`: the seam that serves completed fenced crossings from the journal.
- `recoverForwardAdmissions`: the scan.
- `Vouched`: what a finalized admission has to show.
- `finalized_vouched`: **only a vouched admission is finalized, every other unsettled one is
  reported, and a second scan settles nothing again.**
-/

namespace Revl.Recovery

/-! ## Records -/

/-- The digests of a surface. -/
structure Surface where
  baseManifestHash : Option String
  classMapDigest : Option String
  deriving DecidableEq

/-- An `admit-decided` record. -/
structure Decided where
  decisionId : Option String
  seq : Option Int
  expected : Surface
  turn : Json
  spends : List Json
  deriving DecidableEq

inductive CrossingPhase where
  | begun
  | complete
  | other
  deriving DecidableEq, Repr

/-- A record of an admission's life. `other` is a kind the scan does not read. -/
inductive AdmitRecord where
  | decided (d : Decided)
  | applied (decisionId : Option String)
  | finalized (decisionId : Option String)
  | abandoned (decisionId : Option String) (reason : String)
  | estopAmbiguous (decisionId : Option String) (seq : Option Int)
  | crossing (decisionId : Option String) (ordinal : Int) (phase : CrossingPhase)
  | other (kind : String)
  deriving DecidableEq

namespace AdmitRecord

/-- A record that settles an admission. -/
def settles (decisionId : Option String) : AdmitRecord → Bool
  | .finalized did => did == decisionId
  | .abandoned did _ => did == decisionId
  | _ => false

end AdmitRecord

def decidedOf (records : List AdmitRecord) : List Decided :=
  records.filterMap fun
    | .decided d => some d
    | _ => none

/-- Whether an admission was finalized or abandoned. -/
def admissionSettled (records : List AdmitRecord) (decisionId : Option String) : Bool :=
  records.any (AdmitRecord.settles decisionId)

/-- The `estop-ambiguous` records that stand for a decision: the tagged ones, and an untagged one
that came after it. -/
def ambiguousOf (records : List AdmitRecord) (d : Decided) : List (Option Int) :=
  records.filterMap fun
    | .estopAmbiguous did seq =>
      if did = d.decisionId ∨ (did = none ∧ d.seq.getD 0 < seq.getD (-1)) then some seq else none
    | _ => none

/-- The ordinals of a decision's crossings that reached a phase. -/
def ordinalsOf (records : List AdmitRecord) (decisionId : Option String)
    (phase : CrossingPhase) : List Int :=
  records.filterMap fun
    | .crossing did ordinal p => if did = decisionId ∧ p = phase then some ordinal else none
    | _ => none

/-- `_served_fenced_crossings`: what ran to completion, and what was cut. -/
def servedFencedCrossings (records : List AdmitRecord) (decisionId : Option String) :
    List Int × List Int :=
  let begins := ordinalsOf records decisionId .begun
  let completes := ordinalsOf records decisionId .complete
  (completes.dedup.insertionSort (· ≤ ·),
    (begins.filter fun o => o ∉ completes).dedup.insertionSort (· ≤ ·))

/-! ## The session -/

/-- The journal-served mode of a session. -/
structure JournalServed where
  served : List Int
  decision : Option String
  ordinal : Nat
  /-- `_fenced_dispatch_count`. -/
  dispatched : Nat

/-- `begin_journal_served`. -/
def beginJournalServed (decision : Option String) (served : List Int) : JournalServed :=
  ⟨served, decision, 0, 0⟩

/-- `serve_fenced_crossing`: ordinals are consumed in body order, and one that was not recorded
complete is dispatched. -/
def JournalServed.serveFencedCrossing (j : JournalServed) : JournalServed :=
  if j.decision = none then { j with dispatched := j.dispatched + 1 }
  else if (j.ordinal : Int) ∈ j.served then { j with ordinal := j.ordinal + 1 }
  else { j with ordinal := j.ordinal + 1, dispatched := j.dispatched + 1 }

/-- What serving every completed crossing of a decision dispatches. -/
def dispatchedBy (decision : Option String) (served : List Int) : Nat :=
  (served.foldl (fun j _ => j.serveFencedCrossing) (beginJournalServed decision served)).dispatched

/-- A session a snapshot was restored into. -/
structure RestoredSession where
  /-- `_forward_surface_for_turn`: the surface the turn would run on, or the refusal. -/
  forwardSurface : Json → Except String Surface
  /-- It has `begin_journal_served`. -/
  servesJournal : Bool

/-- A digest that was expected and is not there any more. -/
def driftOf (key : String) (expected live : Option String) : List String :=
  if expected ≠ none ∧ live ≠ expected then
    [key ++ ": " ++ expected.getD "None" ++ " -> " ++ live.getD "None"]
  else []

def drifted (expected live : Surface) : List String :=
  driftOf "baseManifestHash" expected.baseManifestHash live.baseManifestHash ++
    driftOf "classMapDigest" expected.classMapDigest live.classMapDigest

/-- The content compare-and-swap: nothing, or what moved. -/
def contentCas (session : RestoredSession) (d : Decided) : Option String :=
  match session.forwardSurface d.turn with
  | .error message => some message
  | .ok live =>
    match drifted d.expected live with
    | [] => none
    | moved => some (", ".intercalate moved)

/-! ## The scan -/

inductive Classification where
  | owed
  | advanced
  | unverified
  | stale
  | ambiguous
  deriving DecidableEq, Repr

/-- The report of one admission. A field the source leaves out is `none` or empty. -/
structure AdmissionReport where
  decisionId : Option String
  classification : Classification
  decision : String
  finalized : Bool
  turn : Option Json := none
  spends : List Json := []
  estopAmbiguous : List (Option Int) := []
  inFlight : List Int := []
  served : List Int := []
  dispatched : Option Nat := none
  drift : Option String := none
  casChecked : Option Bool := none
  abandoned : Option Bool := none
  deriving DecidableEq

namespace AdmissionReport

/-- A fenced crossing was cut by the E-Stop. -/
def halted (d : Decided) (estopAmbiguous : List (Option Int)) : AdmissionReport where
  decisionId := d.decisionId
  classification := .ambiguous
  decision := "a fenced crossing was in flight at the cut (estop-ambiguous under this decision); " ++
    "forward recovery refuses to finalize and leaves the one record for the operator, exactly as " ++
    "an E-Stop halt."
  estopAmbiguous := estopAmbiguous
  finalized := false

def owed (d : Decided) : AdmissionReport where
  decisionId := d.decisionId
  classification := .owed
  decision := "the runtime did not advance past the decision (no `admit-applied`). The recorded " ++
    "turn is re-admittable through the gate, which re-asks any ticket — the spends this decision " ++
    "committed are already consumed (fail-closed). Reported; not silently re-run."
  turn := some d.turn
  spends := d.spends
  finalized := false

def unverified (d : Decided) : AdmissionReport where
  decisionId := d.decisionId
  classification := .unverified
  decision := "the runtime advanced past the decision, but forward recovery has no restored " ++
    "Session to recompute and compare the CURRENT surface against (no `--restore`), so the " ++
    "content CAS design 460 §3 requires never ran. The decision is NOT finalized — its " ++
    "`admit-applied` is historical applied state, not checked-current state. Re-run with " ++
    "`--restore SNAPSHOT` to authorize the forward finalize under the surface CAS."
  casChecked := some false
  finalized := false

def stale (d : Decided) (drift : String) (write : Bool) : AdmissionReport where
  decisionId := d.decisionId
  classification := .stale
  decision := "the runtime advanced, but the surface the decision was checked against moved " ++
    "(content CAS failed); the decision is abandoned and finalizes nothing. The landed effects " ++
    "are left to the normal roll-back/roll-forward verdict."
  drift := some drift
  casChecked := some true
  finalized := false
  abandoned := some write

/-- A fenced crossing was cut by a plain crash. -/
def cut (d : Decided) (inFlight : List Int) : AdmissionReport where
  decisionId := d.decisionId
  classification := .ambiguous
  decision := "a fenced crossing was in flight at the cut (an `admit-crossing begin` with no " ++
    "`complete` under this decision); forward recovery refuses to finalize and leaves the one " ++
    "crossing for the operator, never re-dispatching a fenced extern (§4/§8)."
  inFlight := inFlight
  finalized := false

def unserved (d : Decided) (dispatched : Nat) : AdmissionReport where
  decisionId := d.decisionId
  classification := .ambiguous
  decision := "the journal-served seam did not serve a completed fenced crossing (dispatched " ++
    toString dispatched ++ "); forward recovery refuses to finalize rather than risk a " ++
    "double-run (§4)."
  dispatched := some dispatched
  finalized := false

def advanced (d : Decided) (served : List Int) (write : Bool) : AdmissionReport where
  decisionId := d.decisionId
  classification := .advanced
  decision := "the runtime advanced past the decision and the surface still matches (content CAS " ++
    "passed); the decision is finalized forward rather than left ambiguous — its effects landed " ++
    "and its approvals were spent, so a dropped admission would be the lie the world " ++
    "contradicts. Its fenced crossings are served from the journal, not re-dispatched (§4)."
  served := served
  dispatched := some 0
  casChecked := some true
  finalized := write

end AdmissionReport

/-- What the scan makes of one admission: the report, and the records it appends. -/
structure Scanned where
  report : AdmissionReport
  appended : List AdmitRecord
  deriving DecidableEq

/-- One decided admission. `write` is whether this is a forward run over a log on disk. -/
def scanAdmission (records : List AdmitRecord) (session : Option RestoredSession) (write : Bool)
    (d : Decided) : Option Scanned :=
  if admissionSettled records d.decisionId then none
  else if ambiguousOf records d ≠ [] then some ⟨.halted d (ambiguousOf records d), []⟩
  else if .applied d.decisionId ∉ records then some ⟨.owed d, []⟩
  else
    match session with
    | none => some ⟨.unverified d, []⟩
    | some session =>
      match contentCas session d with
      | some drift =>
        some ⟨.stale d drift write, if write then [.abandoned d.decisionId "stale"] else []⟩
      | none =>
        let (served, inFlight) := servedFencedCrossings records d.decisionId
        if inFlight ≠ [] then some ⟨.cut d inFlight, []⟩
        else
          let dispatched :=
            if served ≠ [] ∧ session.servesJournal then dispatchedBy d.decisionId served else 0
          if dispatched ≠ 0 then some ⟨.unserved d dispatched, []⟩
          else some ⟨.advanced d served write, if write then [.finalized d.decisionId] else []⟩

/-- `recover_forward_admissions`. -/
def recoverForwardAdmissions (records : List AdmitRecord) (session : Option RestoredSession)
    (forward durable : Bool) : List Scanned :=
  ((decidedOf records).insertionSort fun a b => a.seq.getD 0 ≤ b.seq.getD 0).filterMap
    (scanAdmission records session (forward && durable))

/-- The records a scan leaves in the log. -/
def admitAppended (scan : List Scanned) : List AdmitRecord := scan.flatMap Scanned.appended

/-! ## What one admission can come to -/

/-- The surface still has every digest that was expected. -/
def SurfaceHolds (expected live : Surface) : Prop :=
  (∀ v, expected.baseManifestHash = some v → live.baseManifestHash = some v) ∧
    ∀ v, expected.classMapDigest = some v → live.classMapDigest = some v

/-- What vouches for an admission: it was applied, a restored session finds the surface it was
decided on, no E-Stop cut stands for it, each of its fenced crossings ran to completion, and
serving them dispatches nothing. -/
structure Vouched (records : List AdmitRecord) (session : Option RestoredSession)
    (d : Decided) : Prop where
  decided : .decided d ∈ records
  unsettled : admissionSettled records d.decisionId = false
  applied : .applied d.decisionId ∈ records
  surface : ∃ s live, session = some s ∧ s.forwardSurface d.turn = .ok live ∧
    SurfaceHolds d.expected live
  calm : ∀ did seq, .estopAmbiguous did seq ∈ records →
    did ≠ d.decisionId ∧ (did = none → seq.getD (-1) ≤ d.seq.getD 0)
  landed : ∀ o, .crossing d.decisionId o .begun ∈ records →
    .crossing d.decisionId o .complete ∈ records
  silent : ∀ s, session = some s → s.servesJournal = true →
    dispatchedBy d.decisionId (servedFencedCrossings records d.decisionId).1 = 0

variable {records : List AdmitRecord} {session : Option RestoredSession} {write : Bool}
  {d : Decided}

theorem mem_decidedOf : d ∈ decidedOf records ↔ .decided d ∈ records := by
  constructor
  · intro h
    obtain ⟨r, hr, hd⟩ := List.mem_filterMap.1 h
    cases r with
    | decided d' =>
      obtain rfl : d' = d := Option.some.inj hd
      exact hr
    | _ => exact nomatch hd
  · exact fun h => List.mem_filterMap.2 ⟨_, h, rfl⟩

theorem mem_ordinalsOf {decisionId : Option String} {phase : CrossingPhase} {o : Int} :
    o ∈ ordinalsOf records decisionId phase ↔ .crossing decisionId o phase ∈ records := by
  constructor
  · intro h
    obtain ⟨r, hr, ho⟩ := List.mem_filterMap.1 h
    cases r with
    | crossing did ordinal p =>
      simp only at ho
      split at ho
      · rename_i hmatch
        obtain rfl : ordinal = o := Option.some.inj ho
        rw [← hmatch.1, ← hmatch.2]
        exact hr
      · exact nomatch ho
    | _ => exact nomatch ho
  · intro h
    refine List.mem_filterMap.2 ⟨_, h, ?_⟩
    simp only [and_self, if_pos]

theorem driftOf_eq_nil {key : String} {expected live : Option String} :
    driftOf key expected live = [] ↔ ∀ v, expected = some v → live = some v := by
  rw [driftOf]
  cases expected with
  | none => simp
  | some v => by_cases h : live = some v <;> simp [h]

/-- A compare-and-swap that passed has seen the surface. -/
theorem contentCas_none {s : RestoredSession} (h : contentCas s d = none) :
    ∃ live, s.forwardSurface d.turn = .ok live ∧ SurfaceHolds d.expected live := by
  rw [contentCas] at h
  split at h
  · exact nomatch h
  · rename_i live hlive
    split at h
    · rename_i hdrift
      rw [drifted, List.append_eq_nil_iff, driftOf_eq_nil, driftOf_eq_nil] at hdrift
      exact ⟨live, hlive, hdrift⟩
    · exact nomatch h

theorem calm_of_not_ambiguous (h : ambiguousOf records d = []) (did : Option String)
    (seq : Option Int) (hr : .estopAmbiguous did seq ∈ records) :
    did ≠ d.decisionId ∧ (did = none → seq.getD (-1) ≤ d.seq.getD 0) := by
  have hnot := List.filterMap_eq_nil_iff.1 h _ hr
  simp only [ite_eq_right_iff, reduceCtorEq, imp_false, not_or, not_and, Int.not_lt] at hnot
  exact hnot

theorem landed_of_not_cut (h : (servedFencedCrossings records d.decisionId).2 = []) (o : Int)
    (ho : .crossing d.decisionId o .begun ∈ records) :
    .crossing d.decisionId o .complete ∈ records := by
  rw [← mem_ordinalsOf] at ho ⊢
  by_contra hnot
  have hmem : o ∈ (servedFencedCrossings records d.decisionId).2 := by
    rw [servedFencedCrossings, List.mem_insertionSort, List.mem_dedup, List.mem_filter]
    exact ⟨ho, by simpa using hnot⟩
  rw [h] at hmem
  exact nomatch hmem

/-- What one admission of a log can come to. -/
inductive Scans (records : List AdmitRecord) (session : Option RestoredSession) (write : Bool)
    (d : Decided) : Scanned → Prop where
  | finalized (vouched : .decided d ∈ records → Vouched records session d) (hwrite : write = true)
      {report : AdmissionReport} (done : report.finalized = true)
      (named : report.decisionId = d.decisionId) :
      Scans records session write d ⟨report, [.finalized d.decisionId]⟩
  | abandoned {report : AdmissionReport} (owed : report.finalized = false)
      (named : report.decisionId = d.decisionId) {reason : String} :
      Scans records session write d ⟨report, [.abandoned d.decisionId reason]⟩
  | reported {report : AdmissionReport} (owed : report.finalized = false)
      (named : report.decisionId = d.decisionId) :
      Scans records session write d ⟨report, []⟩

theorem Scans.named {s : Scanned} (h : Scans records session write d s) :
    s.report.decisionId = d.decisionId := by
  cases h with
  | finalized _ _ _ named => exact named
  | abandoned _ named => exact named
  | reported _ named => exact named

/-- **One admission**: skipped when it is settled, else reported. -/
theorem scanAdmission_cases (records : List AdmitRecord) (session : Option RestoredSession)
    (write : Bool) (d : Decided) :
    (admissionSettled records d.decisionId = true ∧
        scanAdmission records session write d = none) ∨
      (admissionSettled records d.decisionId = false ∧
        ∃ s, scanAdmission records session write d = some s ∧ Scans records session write d s) := by
  simp only [scanAdmission]
  by_cases hsettled : admissionSettled records d.decisionId = true
  · exact .inl ⟨hsettled, if_pos hsettled⟩
  refine .inr ⟨Bool.eq_false_iff.2 hsettled, ?_⟩
  rw [if_neg hsettled]
  by_cases hestop : ambiguousOf records d = []
  swap
  · rw [if_pos hestop]
    exact ⟨_, rfl, .reported rfl rfl⟩
  rw [if_neg (not_not.2 hestop)]
  by_cases happlied : .applied d.decisionId ∈ records
  swap
  · rw [if_pos happlied]
    exact ⟨_, rfl, .reported rfl rfl⟩
  rw [if_neg (not_not.2 happlied)]
  cases session with
  | none => exact ⟨_, rfl, .reported rfl rfl⟩
  | some s =>
    simp only
    cases hcas : contentCas s d with
    | some drift =>
      cases write with
      | true => exact ⟨_, rfl, .abandoned rfl rfl⟩
      | false => exact ⟨_, rfl, .reported rfl rfl⟩
    | none =>
      simp only
      by_cases hcut : (servedFencedCrossings records d.decisionId).2 = []
      swap
      · rw [if_pos hcut]
        exact ⟨_, rfl, .reported rfl rfl⟩
      rw [if_neg (not_not.2 hcut)]
      generalize hdispatched : (if (servedFencedCrossings records d.decisionId).1 ≠ [] ∧
          s.servesJournal = true then
        dispatchedBy d.decisionId (servedFencedCrossings records d.decisionId).1 else 0) = dispatched
      by_cases hzero : dispatched = 0
      swap
      · rw [if_pos hzero]
        exact ⟨_, rfl, .reported rfl rfl⟩
      rw [if_neg (not_not.2 hzero)]
      cases write with
      | false => exact ⟨_, rfl, .reported rfl rfl⟩
      | true =>
        refine ⟨_, rfl, .finalized (fun hd => ?_) rfl rfl rfl⟩
        constructor
        case decided => exact hd
        case unsettled => exact Bool.eq_false_iff.2 hsettled
        case applied => exact happlied
        case surface =>
          obtain ⟨live, hlive, hholds⟩ := contentCas_none hcas
          exact ⟨s, live, rfl, hlive, hholds⟩
        case calm => exact calm_of_not_ambiguous hestop
        case landed => exact landed_of_not_cut hcut
        case silent =>
          intro s' hs' hserves
          obtain rfl : s = s' := Option.some.inj hs'
          rw [hzero] at hdispatched
          by_cases hnone : (servedFencedCrossings records d.decisionId).1 = []
          · rw [hnone]
            rfl
          · rwa [if_pos ⟨hnone, hserves⟩] at hdispatched

/-! ## A second scan -/

/-- Records that settle admissions and say nothing else. -/
def Settlements (extra : List AdmitRecord) : Prop :=
  ∀ r ∈ extra, ∃ did, r = .finalized did ∨ ∃ reason, r = .abandoned did reason

theorem Settlements.filterMap {extra : List AdmitRecord} (h : Settlements extra) {β : Type}
    {f : AdmitRecord → Option β} (hfinal : ∀ did, f (.finalized did) = none)
    (habandoned : ∀ did reason, f (.abandoned did reason) = none) :
    (records ++ extra).filterMap f = records.filterMap f := by
  have hnone : extra.filterMap f = [] := by
    refine List.filterMap_eq_nil_iff.2 fun r hr => ?_
    obtain ⟨did, rfl | ⟨reason, rfl⟩⟩ := h r hr
    · exact hfinal did
    · exact habandoned did reason
  rw [List.filterMap_append, hnone, List.append_nil]

/-- Settlements change nothing but which admissions are settled. -/
theorem scanAdmission_settlements {extra : List AdmitRecord} (h : Settlements extra)
    (session : Option RestoredSession) (write : Bool) (d : Decided) :
    scanAdmission (records ++ extra) session write d =
      if admissionSettled extra d.decisionId then none
      else scanAdmission records session write d := by
  have hsettled : admissionSettled (records ++ extra) d.decisionId =
      (admissionSettled records d.decisionId || admissionSettled extra d.decisionId) :=
    List.any_append
  have hambiguous : ambiguousOf (records ++ extra) d = ambiguousOf records d :=
    h.filterMap (fun _ => rfl) fun _ _ => rfl
  have hordinals : ∀ phase, ordinalsOf (records ++ extra) d.decisionId phase =
      ordinalsOf records d.decisionId phase :=
    fun _ => h.filterMap (fun _ => rfl) fun _ _ => rfl
  have happlied : .applied d.decisionId ∈ records ++ extra ↔ .applied d.decisionId ∈ records := by
    refine ⟨fun hmem => (List.mem_append.1 hmem).resolve_right fun hextra => ?_,
      List.mem_append_left extra⟩
    obtain ⟨did, hr | ⟨reason, hr⟩⟩ := h _ hextra
    · exact nomatch hr
    · exact nomatch hr
  simp only [scanAdmission, hsettled, hambiguous, happlied, servedFencedCrossings, hordinals]
  cases admissionSettled extra d.decisionId with
  | true => simp only [Bool.or_true, if_true]
  | false =>
    simp only [Bool.or_false, Bool.false_eq_true, if_false]
    congr

theorem decidedOf_settlements {extra : List AdmitRecord} (h : Settlements extra) :
    decidedOf (records ++ extra) = decidedOf records :=
  h.filterMap (fun _ => rfl) fun _ _ => rfl

section Scan

variable {forward durable : Bool}

theorem mem_recoverForwardAdmissions {s : Scanned} :
    s ∈ recoverForwardAdmissions records session forward durable ↔
      ∃ d, .decided d ∈ records ∧ scanAdmission records session (forward && durable) d = some s := by
  rw [recoverForwardAdmissions, List.mem_filterMap]
  simp only [List.mem_insertionSort, mem_decidedOf]

/-- What a scan reported comes from a decided, unsettled admission. -/
theorem scans_of_mem {s : Scanned}
    (h : s ∈ recoverForwardAdmissions records session forward durable) :
    ∃ d, .decided d ∈ records ∧ admissionSettled records d.decisionId = false ∧
      scanAdmission records session (forward && durable) d = some s ∧
      Scans records session (forward && durable) d s := by
  obtain ⟨d, hd, hs⟩ := mem_recoverForwardAdmissions.1 h
  rcases scanAdmission_cases records session (forward && durable) d with
    ⟨-, hnone⟩ | ⟨hopen, s', hs', hscans⟩
  · rw [hs] at hnone
    exact nomatch hnone
  · obtain rfl : s = s' := Option.some.inj (hs.symm.trans hs')
    exact ⟨d, hd, hopen, hs, hscans⟩

theorem settlements_appended :
    Settlements (admitAppended (recoverForwardAdmissions records session forward durable)) := by
  intro r hr
  obtain ⟨s, hs, hrs⟩ := List.mem_flatMap.1 hr
  obtain ⟨d, -, -, -, hscans⟩ := scans_of_mem hs
  cases hscans with
  | finalized _ _ _ _ => exact ⟨_, .inl (List.mem_singleton.1 hrs)⟩
  | abandoned _ _ => exact ⟨_, .inr ⟨_, List.mem_singleton.1 hrs⟩⟩
  | reported _ _ => exact nomatch hrs

/-- A record a scan appended settles its admission. -/
theorem settled_of_appended {s : Scanned}
    (h : s ∈ recoverForwardAdmissions records session forward durable) (hs : s.appended ≠ []) :
    admissionSettled (admitAppended (recoverForwardAdmissions records session forward durable))
      s.report.decisionId = true := by
  obtain ⟨d, -, -, -, hscans⟩ := scans_of_mem h
  refine List.any_eq_true.2 ?_
  cases hscans with
  | finalized _ _ _ named =>
    exact ⟨_, List.mem_flatMap.2 ⟨_, h, List.mem_singleton_self _⟩,
      by simp [AdmitRecord.settles, named]⟩
  | abandoned _ named =>
    exact ⟨_, List.mem_flatMap.2 ⟨_, h, List.mem_singleton_self _⟩,
      by simp [AdmitRecord.settles, named]⟩
  | reported _ _ => exact absurd rfl hs

/-- A scan over the log the first one left skips what that one settled. -/
theorem second_scan (session' : Option RestoredSession) (forward' durable' : Bool) :
    recoverForwardAdmissions
        (records ++ admitAppended (recoverForwardAdmissions records session forward durable))
        session' forward' durable' =
      (recoverForwardAdmissions records session' forward' durable').filter fun s =>
        !admissionSettled
          (admitAppended (recoverForwardAdmissions records session forward durable))
          s.report.decisionId := by
  generalize hextra : admitAppended (recoverForwardAdmissions records session forward durable) =
    extra
  have hsettle : Settlements extra := hextra ▸ settlements_appended
  rw [recoverForwardAdmissions, recoverForwardAdmissions, decidedOf_settlements hsettle,
    List.filter_filterMap]
  refine List.filterMap_congr fun d _ => ?_
  rw [scanAdmission_settlements hsettle]
  rcases scanAdmission_cases records session' (forward' && durable') d with
    ⟨-, hnone⟩ | ⟨-, s, hs, hscans⟩
  · rw [hnone]
    simp
  · rw [hs, Option.filter_some, hscans.named]
    cases admissionSettled extra d.decisionId <;> rfl

end Scan

/-- **Forward recovery finalizes only what it can vouch for.** Over any log and any session: a
record `admit-finalized` and a report that says so stand for a vouched admission; every other
unsettled admission is reported as residue; and a second scan over the log with the records of the
first neither reports nor settles what the first one settled, and the same scan again appends
nothing and reports what is left as before. -/
theorem finalized_vouched (records : List AdmitRecord) (session : Option RestoredSession)
    (forward durable : Bool) :
    (∀ did, .finalized did ∈
        admitAppended (recoverForwardAdmissions records session forward durable) →
      ∃ d, d.decisionId = did ∧ Vouched records session d) ∧
    (∀ s ∈ recoverForwardAdmissions records session forward durable,
      s.report.finalized = true →
        ∃ d, d.decisionId = s.report.decisionId ∧ Vouched records session d) ∧
    (∀ d, .decided d ∈ records → admissionSettled records d.decisionId = false →
      ∃ s ∈ recoverForwardAdmissions records session forward durable,
        s.report.decisionId = d.decisionId ∧
          (s.report.finalized = true ∧ s.appended = [.finalized d.decisionId] ∨
            s.report.finalized = false ∧ .finalized d.decisionId ∉ s.appended)) ∧
    (∀ session' forward' durable',
      ∀ s ∈ recoverForwardAdmissions
          (records ++ admitAppended (recoverForwardAdmissions records session forward durable))
          session' forward' durable',
        admissionSettled
          (records ++ admitAppended (recoverForwardAdmissions records session forward durable))
          s.report.decisionId = false) ∧
    admitAppended (recoverForwardAdmissions
      (records ++ admitAppended (recoverForwardAdmissions records session forward durable))
      session forward durable) = [] ∧
    recoverForwardAdmissions
      (records ++ admitAppended (recoverForwardAdmissions records session forward durable))
      session forward durable =
      (recoverForwardAdmissions records session forward durable).filter fun s =>
        !admissionSettled
          (admitAppended (recoverForwardAdmissions records session forward durable))
          s.report.decisionId := by
  refine ⟨?_, ?_, ?_, ?_, ?_, second_scan session forward durable⟩
  · intro did hdid
    obtain ⟨s, hs, hmem⟩ := List.mem_flatMap.1 hdid
    obtain ⟨d, hd, -, -, hscans⟩ := scans_of_mem hs
    cases hscans with
    | finalized vouched _ _ _ =>
      obtain rfl : did = d.decisionId := by simpa using hmem
      exact ⟨d, rfl, vouched hd⟩
    | abandoned _ _ => exact absurd hmem (by simp)
    | reported _ _ => cases hmem
  · intro s hs hfinal
    obtain ⟨d, hd, -, -, hscans⟩ := scans_of_mem hs
    cases hscans with
    | finalized vouched _ _ named => exact ⟨d, named.symm, vouched hd⟩
    | abandoned owed _ => cases owed.symm.trans hfinal
    | reported owed _ => cases owed.symm.trans hfinal
  · intro d hd hopen
    rcases scanAdmission_cases records session (forward && durable) d with
      ⟨hsettled, -⟩ | ⟨-, s, hs, hscans⟩
    · cases hopen.symm.trans hsettled
    refine ⟨s, mem_recoverForwardAdmissions.2 ⟨d, hd, hs⟩, ?_⟩
    cases hscans with
    | finalized _ _ done named => exact ⟨named, .inl ⟨done, rfl⟩⟩
    | abandoned owed named => exact ⟨named, .inr ⟨owed, by simp⟩⟩
    | reported owed named => exact ⟨named, .inr ⟨owed, by simp⟩⟩
  · intro session' forward' durable' s hs
    obtain ⟨d, -, hopen, -, hscans⟩ := scans_of_mem hs
    exact (congrArg _ hscans.named).trans hopen
  · -- what would append again was settled by its own record
    refine List.flatMap_eq_nil_iff.2 fun s hs => ?_
    rw [second_scan, List.mem_filter] at hs
    by_contra happended
    have hsettled := settled_of_appended hs.1 happended
    rw [hsettled] at hs
    cases hs.2

/-- A decision whose one fenced crossing ran to completion. -/
def Decided.servedOnce : Decided := ⟨some "d", some 1, ⟨some "h", none⟩, .null, []⟩

/-- **A completed fenced crossing does not hold an admission back**: it is served from the
journal. -/
theorem served_finalized :
    let records := [.decided .servedOnce, .crossing (some "d") 0 .begun,
      .crossing (some "d") 0 .complete, .applied (some "d")]
    (servedFencedCrossings records (some "d")).1 = [0] ∧
      admitAppended (recoverForwardAdmissions records
        (some ⟨fun _ => .ok ⟨some "h", none⟩, true⟩) true true) = [.finalized (some "d")] := by
  decide

end Revl.Recovery
