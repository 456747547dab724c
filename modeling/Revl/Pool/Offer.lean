import Revl.Pool.Authority
import Revl.Lib.Json.Repr

/-!
# Peer offers (`peer_offer.py`)

A peer advertises what it will lend in a signed record. A placement slot says what it needs and
what it would hand over; an offer is eligible where it verifies, meets every facet of the slot
and has a ceiling that covers the slot's grant.

- `trustRank`: the order of trust levels.
- `Host`: what lies outside: the MAC of a record, the enclave check and floats.
- `validateEnvelope`, `verifyOffer`, `offerEligible`: the gates in their order.
- `Eligible`, `offerEligible_ok`: what an offer that passes every gate has shown.
-/

namespace Revl.Retry

open CapOrder
open Fallible (bind_ok mapError_ok)

/-! ## Constants -/

def offerKind : String := "revl.peer-offer"

def offerVersion : String := "1.0"

/-- `SIGN_ALGS`. -/
def signAlgs : List String := ["hmac-sha256", "ecdsa-p256-sha256"]

/-- `TRUST_ORDER`. -/
def trustOrder : List (String × Nat) := [("verified", 0), ("attested", 1), ("local", 2)]

/-- `_TRUST_ALIASES`. -/
def canonTrust (level : String) : String := if level = "trusted" then "local" else level

def expectedTrust : String := "attested, local, verified"

/-- `_trust_rank`. -/
def trustRank (level : String) : Except Fault Nat :=
  match Assoc.get? trustOrder (canonTrust level) with
  | some rank => .ok rank
  | none => .error (.offer (s!"unknown trust level {Json.reprStr level}; expected one of " ++
      expectedTrust))

/-! ## Slots -/

/-- `ResourceNeed`; a time is the number it is written as. -/
structure ResourceNeed where
  cores : Int
  memoryBytes : Int
  maxTimeS : Json

/-- `PlacementSlot`; `R` is the type of the enclave requirements. -/
structure PlacementSlot (R : Type) where
  trustFloor : String
  regions : Option (List String)
  hardware : Option (List String)
  need : ResourceNeed
  grant : List String
  budgets : Dict String Int
  attestedTee : Option R

/-- `PlacementSlot()`. -/
def PlacementSlot.default (R : Type) : PlacementSlot R where
  trustFloor := "verified"
  regions := none
  hardware := none
  need := ⟨0, 0, .float "0.0"⟩
  grant := []
  budgets := Dict.empty
  attestedTee := none

/-- What the gates call: the MAC of the signed members under the key, none where they have no
canonical bytes; `tee_admits` on a proof and a peer; `int` of a float; `>=` of two floats. -/
structure Host (R : Type) where
  mac : List (String × Json) → Option String
  teeAdmits : Json → R → String → Except String Unit
  truncate : String → Int
  floatGe : Json → Json → Bool

variable {R : Type} (host : Host R)

/-! ## Verification -/

/-- `record.get(name)!r`. -/
def reprOf (v : Option Json) : String := (v.getD .null).pyRepr

/-- A number that is not negative. -/
def nonNegative : Json → Bool
  | .int n => decide (0 ≤ n)
  | .float literal => !(literal.toList.head? == some '-') || Json.zeroFloat literal
  | _ => false

/-- One of the strings of a list; none where an item is not a string. -/
def strings? : Json → Option (List String)
  | .arr items => items.mapM Json.str?
  | _ => none

def isKeyId (s : String) : Bool :=
  s.length = 16 && s.toList.all fun c => ('0' ≤ c && c ≤ '9') || ('a' ≤ c && c ≤ 'f')

/-- `(False, reason)` where a check fails. -/
def require (ok : Bool) (reason : String) : Except String Unit :=
  if ok then .ok () else .error reason

def refused (what : String) : String := "envelope refused: " ++ what

/-- A record's attestation, as an object with a trust level. -/
def attestationOf (record : Json) : Except String Json :=
  match record.get? "attestation" with
  | some (.obj att) => .ok (.obj att)
  | att => .error (refused ("attestation is not an object (" ++ reprOf att ++ ")"))

/-- The level an attestation names. -/
def trustOf (att : Json) : Except String String :=
  match att.getStr? "trust" with
  | some trust =>
    if (Assoc.get? trustOrder (canonTrust trust)).isSome then .ok trust
    else .error (refused (s!"attestation.trust is {Json.reprStr trust}, expected one of " ++
      expectedTrust))
  | none => .error (refused ("attestation.trust is " ++ reprOf (att.get? "trust") ++
      s!", expected one of {expectedTrust}"))

/-- The facets of an attestation are strings, and its resources numbers that are not negative. -/
def facetsOk (att : Json) : Except String Unit := do
  for facet in ["region", "hardware"] do
    require (att.getStr? facet).isSome
      (refused (s!"attestation.{facet} is not a string (" ++ reprOf (att.get? facet) ++ ")"))
  match att.get? "resource_offer" with
  | some (.obj ro) =>
    for facet in ["cores", "memory_bytes", "max_time_s"] do
      require (((Assoc.get? ro facet).map nonNegative).getD false)
        (refused (s!"resource_offer.{facet} is not a non-negative number (" ++
          reprOf (Assoc.get? ro facet) ++ ")"))
  | ro => .error (refused ("resource_offer is not an object (" ++ reprOf ro ++ ")"))

/-- The spellings of a record's ceiling. -/
def ceilingOf (record : Json) : Except String (List String) :=
  match (record.get? "grant_ceiling").bind strings? with
  | some spellings => .ok spellings
  | none => .error (refused ("grant_ceiling is not a list of capability strings (" ++
      reprOf (record.get? "grant_ceiling") ++ ")"))

/-- The capabilities a list of spellings names. -/
def parsedSpellings (spellings : List String) : Except CapError (List Cap) :=
  spellings.mapM fun c => parseCap c .absent

def isObjectOrAbsent : Option Json → Bool
  | none => true
  | some .null => true
  | some (.obj _) => true
  | _ => false

/-- `_validate_envelope`: a reason where the record is not well formed. -/
def validateEnvelope (record : Json) : Except String Unit := do
  require (record.getStr? "kind" = some offerKind)
    (refused ("kind is " ++ reprOf (record.get? "kind") ++ ", expected " ++
      Json.reprStr offerKind))
  require (record.getStr? "version" = some offerVersion)
    (refused ("version is " ++ reprOf (record.get? "version") ++ ", expected " ++
      Json.reprStr offerVersion))
  require ((record.getStr? "sign_alg").elim false (· ∈ signAlgs))
    (refused ("sign_alg is " ++ reprOf (record.get? "sign_alg") ++ ", expected one of " ++
      ", ".intercalate signAlgs))
  require ((record.getStr? "peer_id").elim false (· ≠ ""))
    (refused ("peer_id is not a non-empty string (" ++ reprOf (record.get? "peer_id") ++ ")"))
  let att ← attestationOf record
  let _ ← trustOf att
  facetsOk att
  let spellings ← ceilingOf record
  let _ ← (parsedSpellings spellings).mapError fun e =>
    refused ("grant_ceiling has an unparseable capability (" ++ e.message ++ ")")
  require (isObjectOrAbsent (record.get? "tee_proof"))
    (refused ("tee_proof is not an object (" ++ reprOf (record.get? "tee_proof") ++ ")"))
  require ((record.getStr? "key_id").elim false isKeyId)
    (refused ("key_id is not a key fingerprint (" ++ reprOf (record.get? "key_id") ++ ")"))

/-- The members a signature covers. -/
def signedFields : Json → List (String × Json)
  | .obj fields => fields.filter fun p => p.1 ≠ "signature"
  | _ => []

def isAscii (s : String) : Bool := s.toList.all fun c => c.toNat < 128

/-- `verify_offer` under a key, a refusal with its reason; `hmac.compare_digest` takes ASCII
strings only. -/
def verifyOffer (record : Json) : Except Fault (Except String Unit) :=
  match record.getStr? "signature" with
  | none => .ok (.error "peer offer has no signature")
  | some given =>
    match host.mac (signedFields record) with
    | none => .ok (.error "peer offer cannot be verified")
    | some expected =>
      if !isAscii given then
        .error (.type "comparing strings with non-ASCII characters is not supported")
      else .ok (do
        require (expected = given) ("signature mismatch: wrong key, or the offer was tampered " ++
          "with after signing")
        validateEnvelope record)

/-! ## Eligibility -/

/-- `int(x)` of a number. -/
def intOf : Json → Int
  | .int n => n
  | .float literal => host.truncate literal
  | _ => 0

/-- `ResourceOffer.satisfies`. -/
def satisfies (ro : Json) (need : ResourceNeed) : Bool :=
  decide (need.cores ≤ intOf host ((ro.get? "cores").getD .null)) &&
    decide (need.memoryBytes ≤ intOf host ((ro.get? "memory_bytes").getD .null)) &&
    host.floatGe ((ro.get? "max_time_s").getD .null) need.maxTimeS

/-- The enclave gate. -/
def teeGate (record : Json) (slot : PlacementSlot R) : Except String Unit :=
  match slot.attestedTee with
  | none => .ok ()
  | some requirement =>
    match record.get? "tee_proof" with
    | some (.obj proof) =>
      host.teeAdmits (.obj proof) requirement ((record.getStr? "peer_id").getD "")
    | _ => .error ("the slot requires an attested TEE but the offer carries no enclave " ++
        "evidence, so there is nothing to check the requirement against")

/-- A facet in the slot's allowed set. -/
def facetAllowed (allowed : Option (List String)) (facet : String) : Bool :=
  allowed.elim true fun names => facet ∈ names

/-- The region, the hardware and the resources. -/
def facetsMeet (att : Json) (slot : PlacementSlot R) : Except String Unit := do
  let region := (att.getStr? "region").getD ""
  let hardware := (att.getStr? "hardware").getD ""
  require (facetAllowed slot.regions region)
    s!"region {Json.reprStr region} not in the slot's allowed set"
  require (facetAllowed slot.hardware hardware)
    s!"hardware {Json.reprStr hardware} not in the slot's allowed set"
  require (satisfies host ((att.get? "resource_offer").getD .null) slot.need)
    (s!"resource offer does not meet the slot need cores>={slot.need.cores}, " ++
      s!"memory_bytes>={slot.need.memoryBytes}, max_time_s>=" ++ slot.need.maxTimeS.pyRepr)

/-- A spelling between backquotes. -/
def ticked (c : Cap) : String := "`" ++ (c.toStr).getD c.token ++ "`"

/-- The ceiling gate. -/
def ceilingGate (record : Json) (grant : List String) : Except String Unit := do
  let unparseable := fun e : CapError => s!"a capability spelling is unparseable: {e.message}"
  let spellings ← ceilingOf record
  let ceiling ← (parsedSpellings spellings).mapError unparseable
  let wanted ← (parsedSpellings grant).mapError unparseable
  require (coversSet ceiling wanted = [])
    ("the slot grant exceeds the peer's advertised ceiling: " ++ ", ".intercalate
      (((coversSet ceiling wanted).map ticked).insertionSort (· ≤ ·)) ++
        " not covered by grant_ceiling")

/-- The trust gate, on the ranks of the offer and of the floor. -/
def trustGate (trust floor : String) (offered low : Nat) : Except String Unit :=
  require (low ≤ offered)
    s!"trust {Json.reprStr trust} is below the slot floor {Json.reprStr floor}"

/-- `offer_eligible`, a refusal with its reason. -/
def offerEligible (record : Json) (slot : PlacementSlot R) :
    Except Fault (Except String Unit) := do
  let verified ← verifyOffer host record
  match verified.mapError (fun reason => "signature: " ++ reason),
      (teeGate host record slot).mapError (fun reason => "attestation: " ++ reason) with
  | .error reason, _ => return .error reason
  | _, .error reason => return .error reason
  | .ok _, .ok _ =>
    let att := (record.get? "attestation").getD .null
    let trust := (att.getStr? "trust").getD ""
    let offered ← trustRank trust
    let low ← trustRank slot.trustFloor
    return do
      trustGate trust slot.trustFloor offered low
      facetsMeet host att slot
      ceilingGate record slot.grant

/-! ## What an eligible offer has shown -/

/-- What an offer has shown that is eligible for a grant at a trust floor. -/
structure Eligible (record : Json) (grant : List String) (floor : Nat) : Prop where
  verified : verifyOffer host record = .ok (.ok ())
  trust : ∃ level rank, ((record.get? "attestation").getD .null).getStr? "trust" = some level ∧
    trustRank level = .ok rank ∧ floor ≤ rank
  ceiling : ∃ spellings ceiling wanted, ceilingOf record = .ok spellings ∧
    parsedSpellings spellings = .ok ceiling ∧ parsedSpellings grant = .ok wanted ∧
      ∀ c ∈ wanted, ∃ a ∈ ceiling, covers a c = true

theorem require_ok {ok : Bool} {reason : String} (h : require ok reason = .ok ()) : ok = true := by
  unfold require at h
  split at h
  · assumption
  · cases h

/-- A record whose envelope is accepted names a trust level. -/
theorem validateEnvelope_trust {record : Json} (h : validateEnvelope record = .ok ()) :
    ∃ level, ((record.get? "attestation").getD .null).getStr? "trust" = some level := by
  obtain ⟨_, -, h⟩ := bind_ok h
  obtain ⟨_, -, h⟩ := bind_ok h
  obtain ⟨_, -, h⟩ := bind_ok h
  obtain ⟨_, -, h⟩ := bind_ok h
  obtain ⟨att, hatt, h⟩ := bind_ok h
  obtain ⟨trust, htrust, -⟩ := bind_ok h
  unfold attestationOf at hatt
  split at hatt
  · next fields hfields =>
    obtain rfl : Json.obj fields = att := Except.ok.inj hatt
    rw [hfields]
    unfold trustOf at htrust
    split at htrust
    · next level hlevel => exact ⟨level, hlevel⟩
    · cases htrust
  · cases hatt

theorem verifyOffer_envelope {record : Json} (h : verifyOffer host record = .ok (.ok ())) :
    validateEnvelope record = .ok () := by
  unfold verifyOffer at h
  split at h
  · cases h
  · split at h
    · cases h
    · split at h
      · cases h
      · obtain ⟨_, -, henvelope⟩ := bind_ok (Except.ok.inj h)
        exact henvelope

/-- **An offer that passes every gate has shown what the slot asks for.** -/
theorem offerEligible_ok {record : Json} {slot : PlacementSlot R}
    (h : offerEligible host record slot = .ok (.ok ())) {floor : Nat}
    (hfloor : ∀ rank, trustRank slot.trustFloor = .ok rank → floor ≤ rank) :
    Eligible host record slot.grant floor := by
  obtain ⟨verified, hverify, h⟩ := bind_ok h
  split at h
  · cases h
  · cases h
  · next hok _ =>
    have hverified : verified = .ok () := mapError_ok hok
    rw [hverified] at hverify
    obtain ⟨level, hlevel⟩ := validateEnvelope_trust (verifyOffer_envelope host hverify)
    obtain ⟨offered, hoffered, h⟩ := bind_ok h
    obtain ⟨low, hlow, h⟩ := bind_ok h
    obtain ⟨_, htrust, h⟩ := bind_ok (Except.ok.inj h)
    obtain ⟨_, -, h⟩ := bind_ok h
    obtain ⟨spellings, hspellings, h⟩ := bind_ok h
    obtain ⟨ceiling, hceiling, h⟩ := bind_ok h
    obtain ⟨wanted, hwanted, h⟩ := bind_ok h
    rw [hlevel, Option.getD_some] at hoffered
    have hle : low ≤ offered := of_decide_eq_true (require_ok htrust)
    have hcovered : coversSet ceiling wanted = [] := of_decide_eq_true (require_ok h)
    exact ⟨hverify, ⟨level, offered, hlevel, hoffered, (hfloor low hlow).trans hle⟩, spellings,
      ceiling, wanted, hspellings, mapError_ok hceiling, mapError_ok hwanted,
      coversSet_eq_nil_iff.mp hcovered⟩

end Revl.Retry
