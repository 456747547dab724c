import Revl.Lib.Fallible
import Revl.Lib.Json.Canonical
import Revl.Lib.Json.Repr

/-!
# The measurement a commit answers with (`deploy.py`)

A conductor asks a host over a transport to admit a staged bundle, and later to measure what it
loads. Each request carries a challenge, which the reply echoes beside a receipt; the receipt is
signed by the host, the reply is not.

- `requestAdmission`, `requestCommit`, `RemoteParticipant`: the conductor's side.
- `History`: what the host served before and after a request was sent.
- `Unforged`: the replies a transport can make up: any envelope, around no receipt of its own.
- `answers_request_iff`: **a commit (and an admission) that is taken answers its own request
  exactly where no other receipt the host ever signed fits the request.**
-/

namespace Revl.Measure

open Fallible (bind_ok_iff)

/-! ## Constants -/

def receiptKind : String := "revl.deploy.receipt"

def receiptVersion : String := "1.0"

def verdictAccept : String := "ACCEPT"

def verdictRefuse : String := "REFUSE"

def verdictCommitted : String := "COMMITTED"

def commitPhase : String := "commit-load"

def linkTransport : String := "transport"

def linkArtifact : String := "artifact-bytes"

/-- The kinds of a request and its response, and what errors call them. -/
structure Phase where
  requestKind : String
  responseKind : String
  name : String
  deriving DecidableEq

def admission : Phase :=
  ⟨"revl.deploy.admit-request", "revl.deploy.admit-response", "admit"⟩

def commitment : Phase :=
  ⟨"revl.deploy.commit-request", "revl.deploy.commit-response", "commit"⟩

def protocolVersion : String := "1.0"

/-! ## Receipts -/

/-- `hmac.compare_digest` of two strings: a `TypeError` unless both are ASCII. -/
def compareDigest (a b : String) : Except String Bool :=
  if a.toList.all (fun c => c.toNat < 128) && b.toList.all (fun c => c.toNat < 128) then
    .ok (a = b)
  else .error "TypeError"

theorem compareDigest_ok_true {a b : String} (h : compareDigest a b = .ok true) : a = b := by
  unfold compareDigest at h
  split at h
  · simpa using h
  · cases h

/-- `receipt.get(key)!r`. -/
def fieldRepr (receipt : Json) (key : String) : String := ((receipt.get? key).getD .null).pyRepr

/-- `{receipt.get(key)}`. -/
def fieldStr (receipt : Json) (key : String) : String := ((receipt.get? key).getD .null).pyStr

/-- `_refusal`, which nobody signs. -/
def refusal (link reason : String) : Json :=
  .obj [("kind", .str receiptKind), ("version", .str receiptVersion),
    ("verdict", .str verdictRefuse), ("link", .str link), ("reason", .str reason)]

/-- The members a signature covers. -/
def body (receipt : Json) : List (String × Json) :=
  match receipt with
  | .obj fields => fields.filter fun p => p.1 ≠ "signature"
  | _ => []

/-- A check: `return False, reason` where it fails. -/
def refuseIf (failed : Bool) (reason : String) (rest : Except String (Bool × String)) :
    Except String (Bool × String) :=
  if failed then .ok (false, reason) else rest

section Key

-- `_receipt_mac` under the host's key; none where the body has no canonical spelling
variable (mac : List (String × Json) → Option String)

/-- `verify_receipt`. -/
def verifyReceipt (receipt : Json) : Except String (Bool × String) :=
  match receipt.getStr? "signature" with
  | none => .ok (false, "receipt carries no signature")
  | some given =>
    match mac (body receipt) with
    | none => .ok (false, "receipt cannot be verified")
    | some expected => do
      let same ← compareDigest expected given
      refuseIf (!same) "receipt signature mismatch" <|
        refuseIf (receipt.get? "kind" ≠ some (.str receiptKind))
          (s!"not a {receiptKind} record: kind is " ++ fieldRepr receipt "kind") <|
        refuseIf (receipt.get? "version" ≠ some (.str receiptVersion))
          ("receipt version is " ++ fieldRepr receipt "version" ++
            s!", expected {Json.reprStr receiptVersion}") <|
        refuseIf (receipt.get? "verdict" ≠ some (.str verdictAccept) ∧
            receipt.get? "verdict" ≠ some (.str verdictRefuse) ∧
            receipt.get? "verdict" ≠ some (.str verdictCommitted))
          ("receipt verdict is " ++ fieldRepr receipt "verdict") <|
        .ok (true, "receipt is authentic")

/-- The first twelve characters. -/
def short (digest : String) : String := String.ofList (digest.toList.take 12)

/-- `{str(value)[:12]}` of a member. -/
def shown (receipt : Json) (key : String) : String := short (fieldStr receipt key)

/-- A member that is a non-empty string, or the empty string. -/
def bound (receipt : Json) (key : String) : String := (receipt.getStr? key).getD ""

/-- A measured hash against the admitted one; a hash that is no string matches nothing. -/
def hashMatches (loaded : Option String) (admitted : String) : Except String Bool :=
  match loaded with
  | none => .ok false
  | some loaded => compareDigest loaded admitted

/-- The hard comparison: the load-time hashes against the admitted ones. -/
def compareHashes (admissionReceipt commitReceipt : Json) : Except String (Bool × String) := do
  let boundIr := bound admissionReceipt "composition_hash"
  let boundArtifact := bound admissionReceipt "artifact_hash"
  let artifact ← hashMatches (commitReceipt.getStr? "artifact_hash") boundArtifact
  refuseIf (!artifact)
    ("the bytes the host measured at COMMIT-load time do not match the admitted artifact: " ++
      s!"admission bound {short boundArtifact}…, the host loaded " ++
      shown commitReceipt "artifact_hash" ++ "…. The load-time measurement is the authority, " ++
      "not PREPARE's earlier verify.") <| do
    let ir ← hashMatches (commitReceipt.getStr? "composition_hash") boundIr
    refuseIf (!ir)
      ("the composition the host measured at COMMIT-load time does not match the admitted one: " ++
        s!"admission bound {short boundIr}…, the host loaded " ++
        shown commitReceipt "composition_hash" ++ "…") <|
      .ok (true, "the bytes the host measured at COMMIT-load time are the admitted ones, and " ++
        "the measurement is signed by the host")

/-- `compare_commit_receipt`. -/
def compareCommitReceipt (admissionReceipt commitReceipt : Json) : Except String (Bool × String) :=
  do
    let verified ← verifyReceipt mac commitReceipt
    let admittedBackend := bound admissionReceipt "backend"
    refuseIf (!verified.1)
      (s!"the COMMIT receipt is unattributable ({verified.2}); a load-time measurement the " ++
        "conductor cannot pin to the host's key is refused rather than compared") <|
      refuseIf (commitReceipt.get? "verdict" ≠ some (.str verdictCommitted))
        ("the COMMIT receipt verdict is " ++ fieldRepr commitReceipt "verdict" ++
          s!", not {verdictCommitted}: an admission receipt is not a statement about what was " ++
          "loaded") <|
      refuseIf (commitReceipt.get? "phase" ≠ some (.str commitPhase))
        (s!"the COMMIT receipt is not a {Json.reprStr commitPhase} record (phase is " ++
          fieldRepr commitReceipt "phase" ++ "), so it is not a load-time measurement") <|
      refuseIf (admissionReceipt.get? "verdict" ≠ some (.str verdictAccept))
        ("the admission receipt verdict is " ++ fieldRepr admissionReceipt "verdict" ++
          s!", not {verdictAccept}: nothing authorised loading, so there is no binding to " ++
          "compare the load against") <|
      refuseIf (bound admissionReceipt "composition_hash" = "" ∨
          bound admissionReceipt "artifact_hash" = "" ∨ admittedBackend = "")
        ("the admission receipt does not bind a composition, an artifact and a backend, so " ++
          "there is nothing for the load-time measurement to be compared against") <|
      refuseIf (commitReceipt.get? "backend" ≠ some (.str admittedBackend))
        (s!"the host was admitted to load the {Json.reprStr admittedBackend} artifact but " ++
          "measured the " ++ fieldRepr commitReceipt "backend" ++
          " one at COMMIT: a different backend is a different artifact") <|
      compareHashes admissionReceipt commitReceipt

end Key

/-! ## Messages -/

/-- `AdmitRequest` and `CommitRequest`; the evidence flags are the admission's. -/
structure Request where
  bundle : String
  backend : String
  challenge : String
  requireGauntlet : Bool
  requireConformance : Bool
  deriving DecidableEq

/-- `to_wire`. -/
def Request.toWire (phase : Phase) (r : Request) : Json :=
  .obj ([("kind", .str phase.requestKind), ("version", .str protocolVersion),
      ("bundle", .str r.bundle), ("backend", .str r.backend), ("challenge", .str r.challenge)] ++
    if phase = admission then
      [("require_gauntlet", .bool r.requireGauntlet),
        ("require_conformance", .bool r.requireConformance)]
    else [])

/-- The envelope of a message: an object of the kind and the version. -/
def checkEnvelope (what kind : String) (wire : Json) : Except String Unit :=
  match wire with
  | .obj _ =>
    if wire.get? "kind" ≠ some (.str kind) then
      .error (s!"not a {kind} record: kind is " ++ fieldRepr wire "kind")
    else if wire.get? "version" ≠ some (.str protocolVersion) then
      .error (s!"{what} version is " ++ fieldRepr wire "version" ++
        s!", expected {Json.reprStr protocolVersion}")
    else .ok ()
  | _ => .error s!"{what} is not a mapping"

/-- A member of a request that must be a non-empty string. -/
def requiredMember (what : String) (wire : Json) (key : String) : Except String String :=
  if bound wire key = "" then
    .error (s!"{what} {Json.reprStr key} must be a non-empty string, got " ++ fieldRepr wire key)
  else .ok (bound wire key)

/-- `from_wire` of a request. -/
def Request.fromWire (phase : Phase) (wire : Json) : Except String Request := do
  let what := phase.name ++ " request"
  checkEnvelope what phase.requestKind wire
  let bundle ← requiredMember what wire "bundle"
  let backend ← requiredMember what wire "backend"
  let challenge ← requiredMember what wire "challenge"
  let asks (flag : String) := decide (phase = admission) && Json.truthy? (wire.get? flag)
  return ⟨bundle, backend, challenge, asks "require_gauntlet", asks "require_conformance"⟩

/-- `AdmitResponse` and `CommitResponse`. -/
structure Response where
  receipt : Json
  challenge : String
  deriving DecidableEq

def Response.toWire (phase : Phase) (r : Response) : Json :=
  .obj [("kind", .str phase.responseKind), ("version", .str protocolVersion),
    ("challenge", .str r.challenge), ("receipt", r.receipt)]

/-- `from_wire` of a response. -/
def Response.fromWire (phase : Phase) (wire : Json) : Except String Response := do
  let what := phase.name ++ " response"
  checkEnvelope what phase.responseKind wire
  match wire.get? "receipt" with
  | some (.obj fields) =>
    if bound wire "challenge" = "" then .error s!"{what} carries no challenge"
    else .ok ⟨.obj fields, bound wire "challenge"⟩
  | _ => .error s!"{what} carries no receipt mapping"

/-! ## The host -/

/-- The two hashes of staged bytes. -/
structure Hashes where
  composition : String
  artifact : String

/-- What the host finds on its own disk when it serves a request. -/
structure Staged where
  /-- `admit`: the link and reason of a refusal, or the key id and the hashes re-derived. -/
  chain : Except (String × String) (Json × Hashes)
  /-- The measurement at load time, or why there is none. -/
  measured : Except String Hashes
  nonce : String
  now : String

structure Host where
  mac : List (String × Json) → Option String
  runtimeVersions : List (String × Json)

/-- A body with its signature; none where it cannot be signed. -/
def sign (mac : List (String × Json) → Option String) (fields : List (String × Json)) :
    Option Json :=
  (mac fields).map fun signature => .obj (fields ++ [("signature", .str signature)])

/-- `admit`, from what the chain came to. -/
def admitReceipt (host : Host) (backend : String) (staged : Staged) : Option Json :=
  match staged.chain with
  | .error (link, reason) => some (refusal link reason)
  | .ok (keyId, hashes) =>
    sign host.mac [("kind", .str receiptKind), ("version", .str receiptVersion),
      ("verdict", .str verdictAccept), ("backend", .str backend),
      ("composition_hash", .str hashes.composition), ("artifact_hash", .str hashes.artifact),
      ("key_id", keyId), ("runtime_versions", .obj host.runtimeVersions),
      ("nonce", .str staged.nonce), ("admitted_at", .str staged.now)]

/-- `commit_receipt`, from what was measured. -/
def commitReceipt (host : Host) (backend : String) (hashes : Hashes) (staged : Staged) :
    Option Json :=
  sign host.mac [("kind", .str receiptKind), ("version", .str receiptVersion),
    ("verdict", .str verdictCommitted), ("phase", .str commitPhase), ("backend", .str backend),
    ("composition_hash", .str hashes.composition), ("artifact_hash", .str hashes.artifact),
    ("runtime_versions", .obj host.runtimeVersions), ("nonce", .str staged.nonce),
    ("loaded_at", .str staged.now)]

/-- `serve_admit_request`. -/
def serveAdmitRequest (host : Host) (wire : Json) (staged : Staged) : Option Response :=
  match Request.fromWire admission wire with
  | .error e =>
    some ⟨refusal linkTransport ("the deploy-admit request could not be parsed, so nothing was " ++
      s!"admitted: {e}"), bound wire "challenge"⟩
  | .ok request => (admitReceipt host request.backend staged).map (⟨·, request.challenge⟩)

/-- `serve_commit_request`, of a host that holds a key. -/
def serveCommitRequest (host : Host) (wire : Json) (staged : Staged) : Option Response :=
  match Request.fromWire commitment wire with
  | .error e =>
    some ⟨refusal linkTransport ("the deploy commit request could not be parsed, so nothing was " ++
      s!"committed: {e}"), bound wire "challenge"⟩
  | .ok request =>
    match staged.measured with
    | .error e =>
      some ⟨refusal linkArtifact ("the host could not measure the bytes it was to load at " ++
        s!"COMMIT, so it has NOT committed: {e}"), request.challenge⟩
    | .ok hashes =>
      (commitReceipt host request.backend hashes staged).map (⟨·, request.challenge⟩)

/-- `serve_deploy_request`: the phase a request names, admission for every other kind. -/
def serveDeployRequest (host : Host) (wire : Json) (staged : Staged) : Option Response :=
  if wire.get? "kind" = some (.str commitment.requestKind) then
    serveCommitRequest host wire staged
  else serveAdmitRequest host wire staged

/-! ## The conductor -/

/-- A response that echoes the challenge of the request, or the refusal. -/
def readResponse (phase : Phase) (request : Request) (reply : Json) (unread unbound : String) :
    Except String (Except Json Json) :=
  match Response.fromWire phase reply with
  | .error e => .ok (.error (refusal linkTransport (unread ++ e)))
  | .ok response => do
    if ← compareDigest response.challenge request.challenge then return .ok response.receipt
    else return .error (refusal linkTransport
      (s!"the runner's {unbound} (sent {short request.challenge}…, got " ++
        s!"{short response.challenge}…)"))

/-- `request_admission`, of the reply the transport brings. -/
def requestAdmission (request : Request) (reply : Json) : Except String Json := do
  match ← readResponse admission request reply
    ("the runner's reply could not be read as an admission response, so no verdict was " ++
      "received: ") "reply did not echo this request's challenge nonce" with
  | .ok receipt => return receipt
  | .error refused => return refused

/-- `request_commit`. -/
def requestCommit (mac : List (String × Json) → Option String) (request : Request)
    (admissionReceipt reply : Json) : Except String (Bool × String × Json) := do
  match ← readResponse commitment request reply
    ("the runner's reply could not be read as a commit response, so no load-time measurement " ++
      "was received: ") "commit reply did not echo this request's challenge nonce" with
  | .error refused => return (false, bound refused "reason", refused)
  | .ok receipt =>
    let compared ← compareCommitReceipt mac admissionReceipt receipt
    return (compared.1, compared.2, receipt)

/-- A participant behind a transport. -/
structure RemoteParticipant where
  mac : List (String × Json) → Option String
  admitRequest : Request
  commitRequest : Request
  admissionReceipt : Option Json

namespace RemoteParticipant

/-- What a phase answers: the receipt it took, or the reason it took none. -/
abbrev Outcome := Except String Json

/-- `prepare`. -/
def prepare (p : RemoteParticipant) (reply : Json) : Except String (Outcome × RemoteParticipant) :=
  do
    let receipt ← requestAdmission p.admitRequest reply
    if receipt.get? "verdict" ≠ some (.str verdictAccept) then
      return (.error ("the runner refused admission at `" ++ fieldStr receipt "link" ++ "`: " ++
        fieldStr receipt "reason"), p)
    let verified ← verifyReceipt p.mac receipt
    if !verified.1 then
      return (.error ("the runner's admission receipt did not verify against this host's key: " ++
        verified.2), p)
    return (.ok receipt, { p with admissionReceipt := some receipt })

/-- `commit`. -/
def commit (p : RemoteParticipant) (reply : Json) : Except String Outcome :=
  match p.admissionReceipt with
  | none => .ok (.error ("COMMIT was reached without a verified admission receipt from PREPARE, " ++
      "so there is nothing to commit against"))
  | some admissionReceipt => do
    let answer ← requestCommit p.mac p.commitRequest admissionReceipt reply
    return if answer.1 then .ok answer.2.2 else .error answer.2.1

/-- A participant of a host: every admission receipt it holds came through `prepare`. -/
inductive Reached (host : Host) : RemoteParticipant → Prop
  | start (admitRequest commitRequest : Request) :
    Reached host ⟨host.mac, admitRequest, commitRequest, none⟩
  | prepared {p p' : RemoteParticipant} {reply : Json} {outcome : Outcome} (h : Reached host p)
    (hprepare : p.prepare reply = .ok (outcome, p')) : Reached host p'

end RemoteParticipant

/-! ## Exchanges -/

/-- The same dictionary: every key reads the same, nested keys in any order. -/
def Same (r r' : Json) : Prop :=
  ∀ key, (r.get? key).map Json.sortKeys = (r'.get? key).map Json.sortKeys

/-- The signature of a receipt is the host's. -/
def Authentic (mac : List (String × Json) → Option String) (receipt : Json) : Prop :=
  ∃ why, verifyReceipt mac receipt = .ok (true, why)

/-- A request the host served, as it came off the wire. -/
structure Served where
  wire : Json
  staged : Staged

/-- The receipt of the host's answer, its keys in any order. -/
def Served.Mints (host : Host) (s : Served) (receipt : Json) : Prop :=
  ∃ response, serveDeployRequest host s.wire s.staged = some response ∧
    Same response.receipt receipt

/-- No signed receipt is the answer of both. -/
def Served.Apart (host : Host) (s s' : Served) : Prop :=
  ∀ receipt, Authentic host.mac receipt → s.Mints host receipt → ¬ s'.Mints host receipt

instance (host : Host) : Std.Symm (Served.Apart host) where
  symm _ _ h receipt hauth hmints' hmints := h receipt hauth hmints hmints'

/-- What a host served before a request was sent to it, and since. -/
structure History (host : Host) where
  before : List Served
  after : List Served
  /-- A signed receipt carries a nonce of its own. -/
  distinct : (before ++ after).Pairwise (Served.Apart host)

variable {host : Host}

/-- A transport may send anything but a receipt that verifies and that the host never signed. -/
def Unforged (h : History host) (reply : Json) : Prop :=
  ∀ receipt, reply.get? "receipt" = some receipt → Authentic host.mac receipt →
    ∃ s ∈ h.before ++ h.after, s.Mints host receipt

/-- The host minted the receipt when it served this very request, after it was sent. -/
def Answers (h : History host) (phase : Phase) (request : Request) (receipt : Json) : Prop :=
  ∃ s ∈ h.after, s.wire = request.toWire phase ∧ s.Mints host receipt

/-- An admission that is taken was minted for this request. -/
def AdmissionAnswers (h : History host) (p : RemoteParticipant) : Prop :=
  ∀ reply, Unforged h reply → ∀ receipt p', p.prepare reply = .ok (.ok receipt, p') →
    Answers h admission p.admitRequest receipt

/-- A commit that is taken was minted for this request, and measured what an ACCEPT receipt the
host signed had bound. -/
def CommitAnswers (h : History host) (p : RemoteParticipant) : Prop :=
  ∀ reply, Unforged h reply → ∀ receipt, p.commit reply = .ok (.ok receipt) →
    Answers h commitment p.commitRequest receipt ∧
    receipt.get? "verdict" = some (.str verdictCommitted) ∧
    ∃ admitted, Authentic host.mac admitted ∧
      admitted.get? "verdict" = some (.str verdictAccept) ∧
      ∀ key ∈ ["backend", "composition_hash", "artifact_hash"],
        ∃ value, receipt.get? key = some (.str value) ∧ admitted.get? key = some (.str value)

/-- A challenge that an echo can match. -/
def Nonce (challenge : String) : Prop :=
  challenge ≠ "" ∧ compareDigest challenge challenge = .ok true

/-- A receipt the comparison takes for the admission receipt, by what it says. -/
structure Fits (admitted receipt : Json) : Prop where
  accepted : admitted.get? "verdict" = some (.str verdictAccept)
  verdict : receipt.get? "verdict" = some (.str verdictCommitted)
  phase : receipt.get? "phase" = some (.str commitPhase)
  bound : ∀ key ∈ ["backend", "composition_hash", "artifact_hash"], bound admitted key ≠ "" ∧
    receipt.get? key = some (.str (Measure.bound admitted key))
  ascii : ∀ key ∈ ["composition_hash", "artifact_hash"],
    compareDigest (Measure.bound admitted key) (Measure.bound admitted key) = .ok true

/-- No signed receipt that a test takes was minted before the request was sent, or for another
request. -/
def Unique (h : History host) (phase : Phase) (request : Request) (takes : Json → Prop) : Prop :=
  (∀ s ∈ h.before, ∀ receipt, Authentic host.mac receipt → s.Mints host receipt →
    ¬ takes receipt) ∧
  ∀ s ∈ h.after, ∀ receipt, Authentic host.mac receipt → s.Mints host receipt → takes receipt →
    s.wire = request.toWire phase

/-- No other ACCEPT receipt of the host can be taken for the answer. -/
def AdmissionUnique (h : History host) (p : RemoteParticipant) : Prop :=
  Nonce p.admitRequest.challenge →
    Unique h admission p.admitRequest fun r => r.get? "verdict" = some (.str verdictAccept)

/-- No other COMMITTED receipt of the host binds what was admitted. -/
def CommitUnique (h : History host) (p : RemoteParticipant) : Prop :=
  Nonce p.commitRequest.challenge → ∀ admitted ∈ p.admissionReceipt,
    Unique h commitment p.commitRequest (Fits admitted)

/-! ## What the checks take -/

theorem getStr?_eq_some_iff {v : Json} {key s : String} :
    v.getStr? key = some s ↔ v.get? key = some (.str s) := by
  rw [Json.getStr?]
  cases v.get? key with
  | none => simp
  | some w => cases w <;> simp [Json.str?]

theorem bound_ne_empty {v : Json} {key : String} (h : bound v key ≠ "") :
    v.get? key = some (.str (bound v key)) := by
  rw [← getStr?_eq_some_iff]
  unfold bound at h ⊢
  cases hget : v.getStr? key with
  | none => simp [hget] at h
  | some s => rfl

theorem hashMatches_ok_true {receipt : Json} {key admitted : String} :
    hashMatches (receipt.getStr? key) admitted = .ok true ↔
      receipt.get? key = some (.str admitted) ∧ compareDigest admitted admitted = .ok true := by
  rw [← getStr?_eq_some_iff]
  cases hget : receipt.getStr? key with
  | none => simp [hashMatches]
  | some loaded =>
    constructor
    · intro h
      obtain rfl := compareDigest_ok_true h
      exact ⟨rfl, h⟩
    · rintro ⟨heq, h⟩
      obtain rfl := Option.some.inj heq
      exact h

theorem refuseIf_ok_true {failed : Bool} {reason why : String}
    {rest : Except String (Bool × String)} :
    refuseIf failed reason rest = .ok (true, why) ↔ failed = false ∧ rest = .ok (true, why) := by
  cases failed <;> simp [refuseIf]

theorem compareHashes_iff {admitted receipt : Json} :
    (∃ why, compareHashes admitted receipt = .ok (true, why)) ↔
      ∀ key ∈ ["artifact_hash", "composition_hash"],
        receipt.get? key = some (.str (bound admitted key)) ∧
        compareDigest (bound admitted key) (bound admitted key) = .ok true := by
  simp only [compareHashes, bind_ok_iff, refuseIf_ok_true, Bool.not_eq_false', Except.ok.injEq,
    Prod.mk.injEq, true_and, List.forall_mem_cons, List.not_mem_nil, false_imp_iff, implies_true,
    and_true]
  constructor
  · rintro ⟨why, artifact, hartifact, rfl, ir, hir, rfl, -⟩
    exact ⟨hashMatches_ok_true.mp hartifact, hashMatches_ok_true.mp hir⟩
  · rintro ⟨hartifact, hir⟩
    exact ⟨_, true, hashMatches_ok_true.mpr hartifact, rfl, true, hashMatches_ok_true.mpr hir, rfl,
      rfl⟩

/-- The comparison takes the authentic receipts that fit. -/
theorem compareCommitReceipt_iff {mac : List (String × Json) → Option String}
    {admitted receipt : Json} :
    (∃ why, compareCommitReceipt mac admitted receipt = .ok (true, why)) ↔
      Authentic mac receipt ∧ Fits admitted receipt := by
  simp only [compareCommitReceipt, bind_ok_iff, refuseIf_ok_true, Bool.not_eq_false',
    decide_eq_false_iff_not, not_not, not_or]
  constructor
  · rintro ⟨why, ⟨ok, reason⟩, hverify, rfl, hverdict, hphase, haccepted,
      ⟨hir, hartifact, hne⟩, hbackend, hhashes⟩
    have hkeys := compareHashes_iff.mp ⟨why, hhashes⟩
    simp only [List.forall_mem_cons, List.not_mem_nil, false_imp_iff, implies_true,
      and_true] at hkeys
    obtain ⟨⟨hartifact', hartifact''⟩, hir', hir''⟩ := hkeys
    refine ⟨⟨reason, hverify⟩, haccepted, hverdict, hphase, ?_, ?_⟩
    · simp only [List.forall_mem_cons]
      exact ⟨⟨hne, hbackend⟩, ⟨hir, hir'⟩, ⟨hartifact, hartifact'⟩, nofun⟩
    · simp only [List.forall_mem_cons]
      exact ⟨hir'', hartifact'', nofun⟩
  · rintro ⟨⟨reason, hverify⟩, haccepted, hverdict, hphase, hbound, hascii⟩
    simp only [List.forall_mem_cons] at hbound hascii
    obtain ⟨⟨hne, hbackend⟩, ⟨hir, hir'⟩, ⟨hartifact, hartifact'⟩, -⟩ := hbound
    obtain ⟨why, hhashes⟩ := compareHashes_iff.mpr (by
      simp only [List.forall_mem_cons]
      exact ⟨⟨hartifact', hascii.2.1⟩, ⟨hir', hascii.1⟩, nofun⟩)
    exact ⟨why, (true, reason), hverify, rfl, hverdict, hphase, haccepted, ⟨hir, hartifact, hne⟩,
      hbackend, hhashes⟩

/-! ## What the conductor takes -/

theorem pure_ok_iff {ε α : Type} {a b : α} : (pure a : Except ε α) = .ok b ↔ a = b :=
  Except.ok.injEq a b ▸ Iff.rfl

/-- A response that is read carries the receipt of the reply and a challenge. -/
theorem fromWire_ok {phase : Phase} {reply : Json} {response : Response}
    (h : Response.fromWire phase reply = .ok response) :
    reply.get? "receipt" = some response.receipt ∧ response.challenge ≠ "" := by
  unfold Response.fromWire at h
  obtain ⟨-, -, h⟩ := bind_ok_iff.mp h
  split at h
  next fields hreceipt =>
    split at h
    next => cases h
    next hchallenge =>
      obtain rfl := Except.ok.inj h
      exact ⟨hreceipt, hchallenge⟩
  next => cases h

/-- What is sent is read. -/
theorem fromWire_toWire {phase : Phase} {fields : List (String × Json)} {challenge : String}
    (hc : challenge ≠ "") :
    Response.fromWire phase (Response.toWire phase ⟨.obj fields, challenge⟩) =
      .ok ⟨.obj fields, challenge⟩ := by
  simp [Response.fromWire, Response.toWire, checkEnvelope, Json.get?, Assoc.get?_cons, bound,
    Json.getStr?, Json.str?, hc, bind, Except.bind]

/-- The reply is read, and echoes the challenge of the request. -/
def Echoes (phase : Phase) (request : Request) (reply receipt : Json) : Prop :=
  ∃ challenge, Response.fromWire phase reply = .ok ⟨receipt, challenge⟩ ∧
    compareDigest challenge request.challenge = .ok true

theorem readResponse_iff {phase : Phase} {request : Request} {reply receipt : Json}
    {unread unbound : String} :
    readResponse phase request reply unread unbound = .ok (.ok receipt) ↔
      Echoes phase request reply receipt := by
  unfold readResponse Echoes
  cases hread : Response.fromWire phase reply with
  | error e => simp
  | ok response =>
    obtain ⟨receipt', challenge⟩ := response
    dsimp only
    rw [bind_ok_iff]
    constructor
    · rintro ⟨same, hsame, h⟩
      cases same with
      | false => simp [pure, Except.pure] at h
      | true =>
        rw [if_pos rfl, pure_ok_iff, Except.ok.injEq] at h
        exact ⟨challenge, by rw [h], hsame⟩
    · rintro ⟨challenge', heq, hsame⟩
      rw [Except.ok.injEq, Response.mk.injEq] at heq
      obtain ⟨rfl, rfl⟩ := heq
      exact ⟨true, hsame, rfl⟩

/-- A reply that is not read comes to a refusal. -/
theorem readResponse_error {phase : Phase} {request : Request} {reply refused : Json}
    {unread unbound : String}
    (h : readResponse phase request reply unread unbound = .ok (.error refused)) :
    refused.get? "verdict" = some (.str verdictRefuse) := by
  unfold readResponse at h
  split at h
  next e _ =>
    rw [Except.ok.injEq, Except.error.injEq] at h
    rw [← h]
    rfl
  next response _ =>
    obtain ⟨same, -, h⟩ := bind_ok_iff.mp h
    cases same with
    | true => simp [pure, Except.pure] at h
    | false =>
      rw [if_neg (by decide), pure_ok_iff, Except.error.injEq] at h
      rw [← h]
      rfl

theorem nonce_of_echoes {phase : Phase} {request : Request} {reply receipt : Json}
    (h : Echoes phase request reply receipt) : Nonce request.challenge := by
  obtain ⟨challenge, hread, hsame⟩ := h
  obtain rfl := compareDigest_ok_true hsame
  exact ⟨(fromWire_ok hread).2, hsame⟩

/-- Any receipt can be put in an envelope that echoes the challenge. -/
theorem echoes_toWire {mac : List (String × Json) → Option String} {phase : Phase}
    {request : Request} {receipt : Json} (hc : Nonce request.challenge)
    (hreceipt : Authentic mac receipt) :
    Echoes phase request (Response.toWire phase ⟨receipt, request.challenge⟩) receipt := by
  obtain ⟨why, hverify⟩ := hreceipt
  cases receipt with
  | obj fields => exact ⟨request.challenge, fromWire_toWire hc.1, hc.2⟩
  | _ => simp [verifyReceipt, Json.getStr?, Json.get?] at hverify

theorem requestAdmission_accept {request : Request} {reply receipt : Json}
    (hverdict : receipt.get? "verdict" = some (.str verdictAccept)) :
    requestAdmission request reply = .ok receipt ↔ Echoes admission request reply receipt := by
  unfold requestAdmission
  rw [bind_ok_iff]
  constructor
  · rintro ⟨result, hresult, h⟩
    cases result with
    | ok r =>
      obtain rfl := pure_ok_iff.mp h
      exact readResponse_iff.mp hresult
    | error refused =>
      obtain rfl := pure_ok_iff.mp h
      rw [readResponse_error hresult] at hverdict
      simp [verdictRefuse, verdictAccept] at hverdict
  · intro h
    exact ⟨.ok receipt, readResponse_iff.mpr h, rfl⟩

theorem requestCommit_iff {mac : List (String × Json) → Option String} {request : Request}
    {admitted reply receipt : Json} :
    (∃ reason, requestCommit mac request admitted reply = .ok (true, reason, receipt)) ↔
      Echoes commitment request reply receipt ∧ Authentic mac receipt ∧ Fits admitted receipt := by
  rw [← compareCommitReceipt_iff]
  unfold requestCommit
  constructor
  · rintro ⟨reason, h⟩
    obtain ⟨result, hresult, h⟩ := bind_ok_iff.mp h
    cases result with
    | error refused => simp [pure, Except.pure] at h
    | ok r =>
      obtain ⟨⟨ok, why⟩, hcompared, h⟩ := bind_ok_iff.mp h
      rw [pure_ok_iff, Prod.mk.injEq, Prod.mk.injEq] at h
      obtain ⟨rfl, rfl, rfl⟩ := h
      exact ⟨readResponse_iff.mp hresult, why, hcompared⟩
  · rintro ⟨hechoes, why, hcompared⟩
    refine ⟨why, bind_ok_iff.mpr ⟨.ok receipt, readResponse_iff.mpr hechoes, ?_⟩⟩
    exact bind_ok_iff.mpr ⟨(true, why), hcompared, rfl⟩

namespace RemoteParticipant

/-- `prepare` takes an authentic ACCEPT receipt in an envelope that echoes the challenge. -/
theorem prepare_ok_iff {p p' : RemoteParticipant} {reply receipt : Json} :
    p.prepare reply = .ok (.ok receipt, p') ↔
      receipt.get? "verdict" = some (.str verdictAccept) ∧
      Echoes admission p.admitRequest reply receipt ∧ Authentic p.mac receipt ∧
      p' = { p with admissionReceipt := some receipt } := by
  unfold prepare
  rw [bind_ok_iff]
  constructor
  · rintro ⟨taken, htaken, h⟩
    split at h
    next => simp [pure, Except.pure] at h
    next hverdict =>
      rw [not_not] at hverdict
      obtain ⟨⟨ok, why⟩, hverify, h⟩ := bind_ok_iff.mp h
      cases ok with
      | false => simp [pure, Except.pure] at h
      | true =>
        rw [if_neg (by simp), pure_ok_iff, Prod.mk.injEq, Except.ok.injEq] at h
        obtain ⟨rfl, rfl⟩ := h
        exact ⟨hverdict, (requestAdmission_accept hverdict).mp htaken, ⟨why, hverify⟩, rfl⟩
  · rintro ⟨hverdict, hechoes, ⟨why, hverify⟩, rfl⟩
    refine ⟨receipt, (requestAdmission_accept hverdict).mpr hechoes, ?_⟩
    rw [if_neg (not_not.mpr hverdict)]
    exact bind_ok_iff.mpr ⟨(true, why), hverify, rfl⟩

/-- `commit` takes an authentic receipt that fits the one `prepare` took. -/
theorem commit_ok_iff {p : RemoteParticipant} {reply receipt : Json} :
    p.commit reply = .ok (.ok receipt) ↔
      ∃ admitted ∈ p.admissionReceipt, Echoes commitment p.commitRequest reply receipt ∧
        Authentic p.mac receipt ∧ Fits admitted receipt := by
  unfold commit
  cases hp : p.admissionReceipt with
  | none => simp
  | some admitted =>
    simp only [Option.mem_some_iff, exists_eq_left', ← requestCommit_iff]
    rw [bind_ok_iff]
    constructor
    · rintro ⟨⟨ok, reason, taken⟩, hanswer, h⟩
      cases ok with
      | false => simp [pure, Except.pure] at h
      | true =>
        rw [pure_ok_iff, if_pos rfl, Except.ok.injEq] at h
        obtain rfl : taken = receipt := h
        exact ⟨reason, hanswer⟩
    · rintro ⟨reason, hanswer⟩
      exact ⟨(true, reason, receipt), hanswer, rfl⟩

/-- What `prepare` leaves besides the receipt it may take. -/
theorem prepare_cases {p p' : RemoteParticipant} {reply : Json} {outcome : Outcome}
    (h : p.prepare reply = .ok (outcome, p')) :
    p' = p ∨ ∃ receipt, outcome = .ok receipt := by
  cases outcome with
  | ok receipt => exact .inr ⟨receipt, rfl⟩
  | error reason =>
    left
    unfold prepare at h
    obtain ⟨taken, -, h⟩ := bind_ok_iff.mp h
    split at h
    next => exact (Prod.mk.inj (pure_ok_iff.mp h)).2.symm
    next =>
      obtain ⟨⟨ok, why⟩, -, h⟩ := bind_ok_iff.mp h
      cases ok with
      | true => simp [pure, Except.pure] at h
      | false => exact (Prod.mk.inj (pure_ok_iff.mp h)).2.symm

/-- A participant works with its host's key, and holds authentic ACCEPT receipts. -/
theorem Reached.holds {p : RemoteParticipant} (h : Reached host p) :
    p.mac = host.mac ∧ ∀ admitted ∈ p.admissionReceipt,
      admitted.get? "verdict" = some (.str verdictAccept) ∧ Authentic host.mac admitted := by
  induction h with
  | start => exact ⟨rfl, nofun⟩
  | prepared _ hprepare ih =>
    rcases prepare_cases hprepare with rfl | ⟨receipt, rfl⟩
    · exact ih
    · obtain ⟨hverdict, -, hauthentic, rfl⟩ := prepare_ok_iff.mp hprepare
      refine ⟨ih.1, fun admitted hadmitted => ?_⟩
      obtain rfl := Option.mem_some_iff.mp hadmitted
      exact ⟨hverdict, ih.1 ▸ hauthentic⟩

end RemoteParticipant

/-! ## Whose answer it is -/

theorem Same.refl (receipt : Json) : Same receipt receipt := fun _ => rfl

/-- Where nothing else fits, what the host minted answers the request; and where all that fits
does, nothing else fits, since no two servings mint one receipt. -/
theorem answers_iff_unique {h : History host} {phase : Phase} {request : Request}
    {takes : Json → Prop} :
    (∀ receipt, (∃ s ∈ h.before ++ h.after, s.Mints host receipt) → Authentic host.mac receipt →
      takes receipt → Answers h phase request receipt) ↔ Unique h phase request takes := by
  obtain ⟨-, hafter, hcross⟩ := List.pairwise_append.mp h.distinct
  constructor
  · intro hall
    refine ⟨fun s hs receipt hauth hmints htakes => ?_, fun s hs receipt hauth hmints htakes => ?_⟩
    · obtain ⟨s', hs', -, hmints'⟩ :=
        hall receipt ⟨s, List.mem_append_left _ hs, hmints⟩ hauth htakes
      exact hcross s hs s' hs' receipt hauth hmints hmints'
    · obtain ⟨s', hs', hwire, hmints'⟩ :=
        hall receipt ⟨s, List.mem_append_right _ hs, hmints⟩ hauth htakes
      by_cases heq : s = s'
      · rw [heq]
        exact hwire
      · exact absurd hmints' (hafter.forall hs hs' heq receipt hauth hmints)
  · rintro ⟨hbefore, hwire⟩ receipt ⟨s, hs, hmints⟩ hauth htakes
    rcases List.mem_append.mp hs with hs | hs
    · exact absurd htakes (hbefore s hs receipt hauth hmints)
    · exact ⟨s, hs, hwire s hs receipt hauth hmints htakes, hmints⟩

/-- An envelope around what the host minted is no forgery. -/
theorem unforged_toWire {h : History host} {phase : Phase} {receipt : Json} {challenge : String}
    (hminted : ∃ s ∈ h.before ++ h.after, s.Mints host receipt) :
    Unforged h (Response.toWire phase ⟨receipt, challenge⟩) := by
  intro receipt' hget _
  have hsame : receipt' = receipt := by
    simpa [Response.toWire, Json.get?, Assoc.get?_cons] using hget.symm
  rw [hsame]
  exact hminted

theorem unforged_minted {h : History host} {phase : Phase} {request : Request}
    {reply receipt : Json} (hreply : Unforged h reply)
    (hechoes : Echoes phase request reply receipt) (hauth : Authentic host.mac receipt) :
    ∃ s ∈ h.before ++ h.after, s.Mints host receipt := by
  obtain ⟨challenge, hread, -⟩ := hechoes
  exact hreply receipt (fromWire_ok hread).1 hauth

theorem admission_answers_iff {p : RemoteParticipant} (hp : p.Reached host) (h : History host) :
    AdmissionAnswers h p ↔ AdmissionUnique h p := by
  have hmac := hp.holds.1
  rw [AdmissionUnique, ← answers_iff_unique]
  constructor
  · intro hall hnonce receipt hminted hauth htakes
    refine hall _ (unforged_toWire hminted) receipt _
      (RemoteParticipant.prepare_ok_iff.mpr ⟨htakes, echoes_toWire hnonce hauth, ?_, rfl⟩)
    rw [hmac]
    exact hauth
  · intro hall reply hreply receipt p' hprepare
    obtain ⟨htakes, hechoes, hauth, -⟩ := RemoteParticipant.prepare_ok_iff.mp hprepare
    rw [hmac] at hauth
    exact hall (nonce_of_echoes hechoes) receipt (unforged_minted hreply hechoes hauth) hauth htakes

theorem commit_answers_iff {p : RemoteParticipant} (hp : p.Reached host) (h : History host) :
    CommitAnswers h p ↔ CommitUnique h p := by
  obtain ⟨hmac, hholds⟩ := hp.holds
  simp only [CommitUnique, ← answers_iff_unique]
  constructor
  · intro hall hnonce admitted hadmitted receipt hminted hauth hfits
    refine (hall _ (unforged_toWire hminted) receipt
      (RemoteParticipant.commit_ok_iff.mpr
        ⟨admitted, hadmitted, echoes_toWire hnonce hauth, ?_, hfits⟩)).1
    rw [hmac]
    exact hauth
  · intro hall reply hreply receipt hcommit
    obtain ⟨admitted, hadmitted, hechoes, hauth, hfits⟩ :=
      RemoteParticipant.commit_ok_iff.mp hcommit
    rw [hmac] at hauth
    have hanswers := hall (nonce_of_echoes hechoes) admitted hadmitted receipt
      (unforged_minted hreply hechoes hauth) hauth hfits
    refine ⟨hanswers, hfits.verdict, admitted, (hholds admitted hadmitted).2, hfits.accepted, ?_⟩
    intro key hkey
    obtain ⟨hne, hreceipt⟩ := hfits.bound key hkey
    exact ⟨bound admitted key, hreceipt, bound_ne_empty hne⟩

/-- **Freshness**: whatever the transport replays, rewrites or drops, an admission and a commit
that a participant takes were minted for their own request exactly where no other receipt the host
signed fits. -/
theorem answers_request_iff {p : RemoteParticipant} (hp : p.Reached host) (h : History host) :
    (AdmissionAnswers h p ↔ AdmissionUnique h p) ∧ (CommitAnswers h p ↔ CommitUnique h p) :=
  ⟨admission_answers_iff hp h, commit_answers_iff hp h⟩

/-! ### A replay -/

/-- A host whose signature is the nonce of what it signs, which no two receipts share. -/
def plainHost : Host := ⟨fun fields => (Json.obj fields).getStr? "nonce", []⟩

def stagedAt (nonce : String) : Staged :=
  ⟨.ok (.str "k0", ⟨"c0", "a0"⟩), .ok ⟨"c0", "a0"⟩, nonce, "2026"⟩

def requestWith (challenge : String) : Request := ⟨"/srv/b", "py", challenge, false, false⟩

/-- What the plain host answers. -/
def plainReceipt (phase : Phase) (challenge nonce : String) : Json :=
  ((serveDeployRequest plainHost ((requestWith challenge).toWire phase) (stagedAt nonce)).map
    Response.receipt).getD .null

/-- An admission and a first commit, both served before the second commit was asked for. -/
def replayHistory : History plainHost where
  before := [⟨(requestWith "ch0").toWire admission, stagedAt "n0"⟩,
    ⟨(requestWith "ch1").toWire commitment, stagedAt "n1"⟩]
  after := []
  distinct := by
    refine List.pairwise_pair.mpr ?_
    rintro receipt - ⟨response, hserve, hsame⟩ ⟨response', hserve', hagain⟩
    have hkeys := (hsame "verdict").trans (hagain "verdict").symm
    have hfirst : serveDeployRequest plainHost ((requestWith "ch0").toWire admission)
        (stagedAt "n0") = some ⟨plainReceipt admission "ch0" "n0", "ch0"⟩ := by decide +kernel
    have hsecond : serveDeployRequest plainHost ((requestWith "ch1").toWire commitment)
        (stagedAt "n1") = some ⟨plainReceipt commitment "ch1" "n1", "ch1"⟩ := by decide +kernel
    obtain rfl := Option.some.inj (hfirst.symm.trans hserve)
    obtain rfl := Option.some.inj (hsecond.symm.trans hserve')
    revert hkeys
    decide +kernel

def replayParticipant : RemoteParticipant :=
  ⟨plainHost.mac, requestWith "ch0", requestWith "ch2",
    some (plainReceipt admission "ch0" "n0")⟩

/-- The receipt of the first commit, put in an envelope with the challenge of the second, is
taken for the answer of the second, which the host never served. -/
theorem replayed_commit_taken :
    replayParticipant.Reached plainHost ∧ ¬ CommitAnswers replayHistory replayParticipant := by
  have hadmission : Authentic plainHost.mac (plainReceipt admission "ch0" "n0") :=
    ⟨"receipt is authentic", by decide +kernel⟩
  have hcommit : Authentic plainHost.mac (plainReceipt commitment "ch1" "n1") :=
    ⟨"receipt is authentic", by decide +kernel⟩
  have hserve : serveDeployRequest plainHost ((requestWith "ch1").toWire commitment)
      (stagedAt "n1") = some ⟨plainReceipt commitment "ch1" "n1", "ch1"⟩ := by decide +kernel
  have hechoes : Echoes admission (requestWith "ch0")
      (Response.toWire admission ⟨plainReceipt admission "ch0" "n0", "ch0"⟩) _ :=
    echoes_toWire ⟨by decide, by decide +kernel⟩ hadmission
  have hreached : replayParticipant.Reached plainHost :=
    .prepared (.start (requestWith "ch0") (requestWith "ch2"))
      (RemoteParticipant.prepare_ok_iff.mpr ⟨by decide +kernel, hechoes, hadmission, rfl⟩)
  have hfits : Fits (plainReceipt admission "ch0" "n0") (plainReceipt commitment "ch1" "n1") :=
    ⟨by decide +kernel, by decide +kernel, by decide +kernel, by decide +kernel,
      by decide +kernel⟩
  have hminted : ∃ s ∈ replayHistory.before ++ replayHistory.after,
      s.Mints plainHost (plainReceipt commitment "ch1" "n1") :=
    ⟨_, List.mem_cons_of_mem _ List.mem_cons_self, _, hserve, .refl _⟩
  refine ⟨hreached, fun h => ?_⟩
  obtain ⟨⟨s, hs, -⟩, -⟩ := h _ (unforged_toWire hminted) (plainReceipt commitment "ch1" "n1")
    (RemoteParticipant.commit_ok_iff.mpr ⟨_, rfl, echoes_toWire ⟨by decide, by decide +kernel⟩
      hcommit, hcommit, hfits⟩)
  cases hs

/-- Asked once, a host answers for itself: every admission and commit a participant takes from
this history is its own. -/
theorem served_request_answers :
    AdmissionAnswers
      (⟨[], [⟨(requestWith "ch0").toWire admission, stagedAt "n0"⟩],
        List.pairwise_singleton _ _⟩ : History plainHost)
      ⟨plainHost.mac, requestWith "ch0", requestWith "ch2", none⟩ := by
  refine (answers_request_iff (.start _ _) _).1.mpr fun _ => ⟨nofun, fun s hs _ _ _ _ => ?_⟩
  rw [List.mem_singleton.mp hs]

end Revl.Measure
