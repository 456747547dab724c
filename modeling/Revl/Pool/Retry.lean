import Revl.Pool.Offer
import Revl.Lib.Json.Text

/-!
# Lawful retry after a lost attempt (`lawful_retry.py`)

A lost attempt is replayed to another peer, compensated, handed off or refused, by the class of
its effect. A replay is a further hop of the delegation chain, with one retry less to spend.

- `retryGrant`, `slotForRetry`, `choosePeer`, `dispatchOnLoss`: the dispatcher.
- `dispatchOnLoss_replay`: what a replay says of the attempt, the chain and the peer.
- `Replays`, `replays_le`: **a run of losses replays no more often than its first grant allows.**
- `lawful_retry`: **every replay of a record is lawful exactly where the record is not secret
  together with deferred or witnessed.**
-/

namespace Revl.Retry

open CapOrder
open Fallible (bind_ok)

variable {R : Type} (host : Host R)

/-! ## Classes -/

inductive EffectClass where
  | pure
  | idempotentExternal
  | witnessed
  | deferredIrreversible
  | secretBearing
  deriving DecidableEq

def EffectClass.value : EffectClass → String
  | pure => "pure"
  | idempotentExternal => "idempotent-external"
  | witnessed => "witnessed"
  | deferredIrreversible => "deferred-irreversible"
  | secretBearing => "secret-bearing"

inductive Disposition where
  | replay
  | compensate
  | durableHandoff
  | commitAuthorityOnly
  | refuse
  deriving DecidableEq

/-- `facets.get(name)`, as a truth value. -/
def facet (facets : Json) (name : String) : Bool := Json.truthy? (facets.get? name)

/-- `classify_extern`. -/
def classifyExtern (facets : Json) : EffectClass :=
  if facet facets "secret" then .secretBearing
  else if facet facets "deferred" then .deferredIrreversible
  else if facet facets "witnessed" then .witnessed
  else if facet facets "idempotent" || facet facets "undo_idempotent" then .idempotentExternal
  else .pure

structure Attempt (R : Type) where
  effectClass : EffectClass
  grant : Grant
  hasRecordedInverse : Bool
  baseSlot : Option (PlacementSlot R)

structure Decision where
  disposition : Disposition
  reason : String
  retryGrant : Option Grant
  peerId : Option String

/-! ## The dispatcher -/

def retryBudgetKey : String := "retries"

/-- The retry budget a grant names, 0 where it names none. -/
def Grant.retries (g : Grant) : Int := (g.budgets.get? retryBudgetKey).getD 0

/-- `retry_budget`. -/
def retryBudget (attempt : Attempt R) : Int := attempt.grant.retries

/-- `_retry_grant`. -/
def retryGrant (attempt : Attempt R) (holder : String) : Grant where
  holder := holder
  caps := attempt.grant.caps
  budgets := attempt.grant.budgets.set retryBudgetKey (max 0 (retryBudget attempt - 1))

def secretTrustFloor : String := "attested"

/-- The floor of a class. -/
def trustFloor (ec : EffectClass) : String :=
  if ec = .secretBearing then secretTrustFloor else "verified"

/-- `_slot_for_retry`: the floor is raised, never lowered. -/
def slotForRetry (attempt : Attempt R) (grant : Grant) (floor : String) :
    Except Fault (PlacementSlot R) := do
  let base := attempt.baseSlot.getD (PlacementSlot.default R)
  let baseRank ← trustRank base.trustFloor
  let floorRank ← trustRank floor
  return { base with
    trustFloor := if floorRank < baseRank then base.trustFloor else floor
    grant := grant.caps
    budgets := grant.budgets }

/-- `str(record.get("peer_id"))`. -/
def peerIdOf (record : Json) : String := ((record.get? "peer_id").getD .null).pyStr

def peerIdRepr (record : Json) : String := ((record.get? "peer_id").getD .null).pyRepr

/-- One widened budget, as the message has it. -/
def budgetText (w : String × Option Int × Int) : String :=
  match w.2.1 with
  | none => s!"budget `{w.1}={w.2.2}` (delegator holds no `{w.1}`)"
  | some held => s!"budget `{w.1}={w.2.2}` (delegator holds `{w.1}={held}`)"

/-- `AuthorityWidening._message`. -/
def Widening.message (w : Widening) : String :=
  let caps := if w.caps = [] then []
    else ["capabilities " ++ ", ".intercalate (w.caps.map fun c => s!"`{c}`")]
  let parts := caps ++ w.budgets.map budgetText
  let granted := if parts = [] then "authority" else "; ".intercalate parts
  s!"delegation hop {w.index}: `{w.delegator}` grants `{w.holder}` {granted}, but a peer may " ++
    "receive no more authority, data, time, money, or retry budget than its delegator holds — " ++
    "authority may only narrow along a delegation or retry chain, never widen"

/-- The loop of `_choose_peer`. -/
def choosePeer (chain : List Grant) (grant : Grant) (slot : PlacementSlot R) :
    List Json → List String → Except Fault (Option String × List String)
  | [], rejected => .ok (none, rejected)
  | record :: rest, rejected => do
    match ← offerEligible host record slot with
    | .error reason =>
      choosePeer chain grant slot rest (rejected ++ [s!"{peerIdRepr record}: {reason}"])
    | .ok _ =>
      match checkDelegationChain (chain ++ [{ grant with holder := peerIdOf record }]) with
      | .ok _ => return (some (peerIdOf record), rejected)
      | .error (.widening w) =>
        choosePeer chain grant slot rest (rejected ++
          [s!"{peerIdRepr record}: retry hop would widen the chain ({w.message})"])
      | .error e => throw e

def ruling (disposition : Disposition) (reason : String) : Decision :=
  ⟨disposition, reason, none, none⟩

/-- The ruling for a replay to a peer. -/
def replaying (ec : EffectClass) (grant : Grant) (peerId : String) : Decision :=
  ⟨.replay, s!"replaying {ec.value} work to {Json.reprStr peerId}: its offer covers the " ++
    "narrowed retry grant and the retry hop keeps the chain monotone",
    some { grant with holder := peerId }, some peerId⟩

/-- `dispatch_on_loss`. -/
def dispatchOnLoss (chain : List Grant) (attempt : Attempt R) (candidates : List Json) :
    Except Fault Decision :=
  let ec := attempt.effectClass
  let budget := retryBudget attempt
  if ec = .witnessed then
    .ok (ruling .durableHandoff ("witnessed/revertible work is not speculatively replayed; it is " ++
      "handed off durably for WAL-based recovery coordination (recovery.py)"))
  else if ec = .deferredIrreversible then
    .ok (ruling .commitAuthorityOnly ("a deferred-irreversible commit is resolvable only at a " ++
      "trusted commit authority; it is never speculatively re-issued to a pool peer"))
  else if ec = .idempotentExternal ∧ budget ≤ 0 then
    if attempt.hasRecordedInverse then
      .ok (ruling .compensate ("the retry budget is exhausted; the recorded inverse is run " ++
        "instead of re-issuing (recovery.py's roll-back path)"))
    else
      .ok (ruling .refuse ("the retry budget is exhausted and no inverse is recorded; refusing " ++
        "rather than replaying past the budget or widening it"))
  else if budget ≤ 0 then
    if attempt.hasRecordedInverse then
      .ok (ruling .compensate ("no retry budget remains to spend on a replay; the recorded " ++
        "inverse is run instead"))
    else
      .ok (ruling .refuse ("no retry budget remains and no inverse is recorded; refusing rather " ++
        "than replaying with a budget the delegator did not hand down"))
  else do
    let grant := retryGrant attempt "<retry>"
    let slot ← slotForRetry attempt grant (trustFloor ec)
    let (peer, rejected) ← choosePeer host chain grant slot candidates []
    match peer with
    | none =>
      let detail := if rejected = [] then "no candidates offered" else "; ".intercalate rejected
      return ruling .refuse s!"no eligible peer for a lawful replay ({detail})"
    | some peerId =>
      return replaying ec grant peerId

/-! ## What a replay says -/

/-- The chosen peer is a candidate that is eligible, and whose hop the chain takes. -/
theorem choosePeer_some {chain : List Grant} {grant : Grant} {slot : PlacementSlot R}
    {candidates : List Json} {rejected rejected' : List String} {peerId : String}
    (h : choosePeer host chain grant slot candidates rejected = .ok (some peerId, rejected')) :
    ∃ record ∈ candidates, peerIdOf record = peerId ∧
      offerEligible host record slot = .ok (.ok ()) ∧
        checkDelegationChain (chain ++ [{ grant with holder := peerId }]) = .ok () := by
  induction candidates generalizing rejected with
  | nil => cases h
  | cons record rest ih =>
    have hlater : ∀ {rejected : List String},
        choosePeer host chain grant slot rest rejected = .ok (some peerId, rejected') →
          ∃ record' ∈ record :: rest, peerIdOf record' = peerId ∧
            offerEligible host record' slot = .ok (.ok ()) ∧
              checkDelegationChain (chain ++ [{ grant with holder := peerId }]) = .ok () := by
      intro rejected hrest
      obtain ⟨record', hmem, hpeer⟩ := ih hrest
      exact ⟨record', List.mem_cons_of_mem _ hmem, hpeer⟩
    rw [choosePeer] at h
    obtain ⟨verdict, heligible, h⟩ := bind_ok h
    cases verdict with
    | error reason => exact hlater h
    | ok _ =>
      simp only at h
      split at h
      · next hchain =>
        cases h
        exact ⟨record, List.mem_cons_self, rfl, heligible, hchain⟩
      · exact hlater h
      · cases h

/-- The slot of a retry holds its grant, at a floor no lower than the one asked for. -/
theorem slotForRetry_ok {attempt : Attempt R} {grant : Grant} {floor : String}
    {slot : PlacementSlot R} (h : slotForRetry attempt grant floor = .ok slot) {low : Nat}
    (hlow : trustRank floor = .ok low) :
    slot.grant = grant.caps ∧ ∀ rank, trustRank slot.trustFloor = .ok rank → low ≤ rank := by
  obtain ⟨base, hbase, h⟩ := bind_ok h
  obtain ⟨rank, hrank, h⟩ := bind_ok h
  obtain rfl : low = rank := Except.ok.inj (hlow.symm.trans hrank)
  cases h
  refine ⟨rfl, fun r hr => ?_⟩
  simp only at hr
  split_ifs at hr with hlt
  · have : base = r := Except.ok.inj (hbase.symm.trans hr)
    omega
  · have : low = r := Except.ok.inj (hlow.symm.trans hr)
    omega

/-- The rank of a class's floor. -/
def floorRank (ec : EffectClass) : Nat := if ec = .secretBearing then 1 else 0

theorem trustRank_floor (ec : EffectClass) : trustRank (trustFloor ec) = .ok (floorRank ec) := by
  unfold trustFloor floorRank
  split_ifs <;> rfl

/-- **What a replay says**: the class may be replayed, there was a retry to spend, the hop is the
attempt's grant with one retry less, the chain takes it and the peer is eligible for it. -/
theorem dispatchOnLoss_replay {chain : List Grant} {attempt : Attempt R} {candidates : List Json}
    {d : Decision} (h : dispatchOnLoss host chain attempt candidates = .ok d)
    (hreplay : d.disposition = .replay) :
    attempt.effectClass ≠ .witnessed ∧ attempt.effectClass ≠ .deferredIrreversible ∧
      0 < retryBudget attempt ∧ ∃ peerId, d.peerId = some peerId ∧
        d.retryGrant = some (retryGrant attempt peerId) ∧
          checkDelegationChain (chain ++ [retryGrant attempt peerId]) = .ok () ∧
            ∃ record ∈ candidates, peerIdOf record = peerId ∧
              Eligible host record (retryGrant attempt peerId).caps
                (floorRank attempt.effectClass) := by
  unfold dispatchOnLoss at h
  simp only at h
  have hruling : ∀ {disposition : Disposition} {reason : String}, disposition ≠ .replay →
      (Except.ok (ruling disposition reason) : Except Fault Decision) ≠ .ok d := by
    intro disposition reason hne heq
    cases heq
    exact hne hreplay
  split_ifs at h with hwitnessed hdeferred hspent hinverse hnone hinverse'
  -- every other branch is a ruling of its own, and none of them replays
  all_goals try exact absurd h (hruling (by decide))
  obtain ⟨slot, hslot, h⟩ := bind_ok h
  obtain ⟨⟨peer, rejected⟩, hpeer, h⟩ := bind_ok h
  cases peer with
  | none => exact absurd h (hruling (by decide))
  | some peerId =>
    cases h
    obtain ⟨record, hmem, hid, heligible, hchain⟩ := choosePeer_some host hpeer
    obtain ⟨hgrant, hfloor⟩ := slotForRetry_ok hslot (trustRank_floor attempt.effectClass)
    have helig := offerEligible_ok host heligible hfloor
    rw [hgrant] at helig
    exact ⟨hwitnessed, hdeferred, by omega, peerId, rfl, rfl, hchain, record, hmem, hid, helig⟩

/-! ## Runs of losses -/

theorem retryGrant_retries (attempt : Attempt R) (holder : String) :
    (retryGrant attempt holder).retries = max 0 (retryBudget attempt - 1) := by
  unfold Grant.retries retryGrant
  rw [Dict.get?_set_self]
  rfl

/-- A run of losses, every one of them replayed: each attempt holds the last grant of its chain,
of whatever class, and a replay makes the chain longer. -/
inductive Replays : List Grant → Grant → Nat → Prop where
  | done (chain : List Grant) (grant : Grant) : Replays chain grant 0
  | replay {chain : List Grant} {attempt : Attempt R} {candidates : List Json} {d : Decision}
      {next : Grant} {n : Nat} (h : dispatchOnLoss host chain attempt candidates = .ok d)
      (hreplay : d.disposition = .replay) (hnext : d.retryGrant = some next)
      (hmore : Replays (chain ++ [next]) next n) : Replays chain attempt.grant (n + 1)

/-- **A run of losses replays no more often than its first grant allows.** -/
theorem replays_le {chain : List Grant} {grant : Grant} {n : Nat}
    (h : Replays host chain grant n) : n ≤ grant.retries.toNat := by
  induction h with
  | done => exact Nat.zero_le _
  | @replay chain attempt candidates d next n h hreplay hnext hmore ih =>
    obtain ⟨-, -, hpos, peerId, -, hgrant, -⟩ := dispatchOnLoss_replay host h hreplay
    rw [hgrant, Option.some.injEq] at hnext
    subst hnext
    rw [retryGrant_retries] at ih
    have : 0 < attempt.grant.retries := hpos
    unfold retryBudget at ih
    omega

/-! ## The claim -/

/-- A replay of a record's attempt that is lawful. -/
structure Lawful (facets : Json) (chain : List Grant) (attempt : Attempt R)
    (candidates : List Json) (d : Decision) : Prop where
  revertible : facet facets "deferred" = false ∧ facet facets "witnessed" = false
  hop : ∃ grant, d.retryGrant = some grant ∧ grant.retries < retryBudget attempt ∧
    (∀ g ∈ chain, g.Under grant) ∧ ∃ record ∈ candidates, some (peerIdOf record) = d.peerId ∧
      Eligible host record grant.caps (floorRank attempt.effectClass)

/-- A record that is secret, and deferred or witnessed as well. -/
def Masked (facets : Json) : Prop :=
  facet facets "secret" = true ∧
    (facet facets "deferred" = true ∨ facet facets "witnessed" = true)

/-- What a replay of a chain that passes says of its hop. -/
theorem replay_hop {facets : Json} {chain : List Grant} {attempt : Attempt R}
    {candidates : List Json} {d : Decision}
    (h : dispatchOnLoss host chain attempt candidates = .ok d)
    (hreplay : d.disposition = .replay)
    (hrevertible : facet facets "deferred" = false ∧ facet facets "witnessed" = false) :
    Lawful host facets chain attempt candidates d := by
  obtain ⟨-, -, hpos, peerId, hpeer, hgrant, hchain, record, hmem, hid, helig⟩ :=
    dispatchOnLoss_replay host h hreplay
  have hunder := checkDelegationChain_pairwise hchain
  refine ⟨hrevertible, _, hgrant, ?_, ?_, record, hmem, ?_, helig⟩
  · rw [retryGrant_retries]
    omega
  · intro g hg
    exact (List.pairwise_append.mp hunder).2.2 g hg _ (List.mem_singleton_self _)
  · rw [hid, hpeer]

/-- An attempt whose record is not masked is replayed only where the record is neither deferred
nor witnessed. -/
theorem classify_revertible {facets : Json} (hmask : ¬ Masked facets)
    (hwitnessed : classifyExtern facets ≠ .witnessed)
    (hdeferred : classifyExtern facets ≠ .deferredIrreversible) :
    facet facets "deferred" = false ∧ facet facets "witnessed" = false := by
  unfold Masked at hmask
  unfold classifyExtern at hwitnessed hdeferred
  cases hs : facet facets "secret" <;> cases hd : facet facets "deferred" <;>
    cases hw : facet facets "witnessed" <;> simp_all

/-! ### A replay of any secret record -/

/-- The members of an offer that lends nothing and asks for nothing. -/
def bareOffer : List (String × Json) :=
  [("kind", .str offerKind), ("version", .str offerVersion), ("peer_id", .str "p"),
    ("attestation", .obj [("trust", .str "attested"), ("region", .str ""), ("hardware", .str ""),
      ("resource_offer", .obj [("cores", .int 0), ("memory_bytes", .int 0),
        ("max_time_s", .float "0.0")])]),
    ("grant_ceiling", .arr []), ("sign_alg", .str "hmac-sha256"),
    ("key_id", .str "0000000000000000")]

def bareRecord (signature : String) : Json :=
  .obj (bareOffer ++ [("signature", .str signature)])

/-- The grant of an attempt with one retry and no capability. -/
def oneRetry : Grant := ⟨"a", [], Dict.empty.set retryBudgetKey 1⟩

/-- What the host is known for: a record of plain members has a MAC, in hexadecimal digits, and
no time is less than none. -/
structure Host.Plain (host : Host R) : Prop where
  signs : ∃ signature, host.mac bareOffer = some signature ∧ isAscii signature = true
  time : host.floatGe (.float "0.0") (.float "0.0") = true

/-- The attempt a masked record is replayed from. -/
def maskedAttempt (R : Type) : Attempt R := ⟨.secretBearing, oneRetry, false, none⟩

/-- The slot its replay is offered to. -/
def maskedSlot (R : Type) : PlacementSlot R :=
  { PlacementSlot.default R with
    trustFloor := secretTrustFloor
    grant := []
    budgets := (retryGrant (maskedAttempt R) "<retry>").budgets }

theorem bareRecord_valid (signature : String) :
    validateEnvelope (bareRecord signature) = .ok () := rfl

theorem bareRecord_verified {signature : String} (hmac : host.mac bareOffer = some signature)
    (hascii : isAscii signature = true) :
    verifyOffer host (bareRecord signature) = .ok (.ok ()) := by
  have hgiven : (bareRecord signature).getStr? "signature" = some signature := rfl
  have hfields : signedFields (bareRecord signature) = bareOffer := rfl
  unfold verifyOffer
  rw [hgiven, hfields]
  simp only [hmac, hascii, Bool.not_true, Bool.false_eq_true, if_false, decide_true]
  exact congrArg Except.ok (bareRecord_valid signature)

theorem bareRecord_eligible {signature : String} (hmac : host.mac bareOffer = some signature)
    (hascii : isAscii signature = true)
    (htime : host.floatGe (.float "0.0") (.float "0.0") = true) :
    offerEligible host (bareRecord signature) (maskedSlot R) = .ok (.ok ()) := by
  have hresources : satisfies host (.obj [("cores", .int 0), ("memory_bytes", .int 0),
      ("max_time_s", .float "0.0")]) ⟨0, 0, .float "0.0"⟩ = true := by
    show (true && true && host.floatGe (.float "0.0") (.float "0.0")) = true
    rw [htime]
    rfl
  have hfacets : facetsMeet host (((bareRecord signature).get? "attestation").getD .null)
      (maskedSlot R) = .ok () := by
    show require (satisfies host (.obj [("cores", .int 0), ("memory_bytes", .int 0),
      ("max_time_s", .float "0.0")]) ⟨0, 0, .float "0.0"⟩) _ = .ok ()
    rw [hresources]
    rfl
  unfold offerEligible
  rw [bareRecord_verified host hmac hascii]
  show Except.ok (facetsMeet host (((bareRecord signature).get? "attestation").getD .null)
      (maskedSlot R) >>= fun _ => ceilingGate (bareRecord signature) []) = _
  rw [hfacets]
  rfl

/-- The attempt is replayed. -/
theorem masked_replayed {signature : String} (hmac : host.mac bareOffer = some signature)
    (hascii : isAscii signature = true)
    (htime : host.floatGe (.float "0.0") (.float "0.0") = true) :
    ∃ d, dispatchOnLoss host [oneRetry] (maskedAttempt R) [bareRecord signature] = .ok d ∧
      d.disposition = .replay := by
  have hslot : slotForRetry (maskedAttempt R) (retryGrant (maskedAttempt R) "<retry>")
      (trustFloor .secretBearing) = .ok (maskedSlot R) := rfl
  have hchain : checkDelegationChain ([oneRetry] ++
      [⟨"p", (retryGrant (maskedAttempt R) "<retry>").caps,
        (retryGrant (maskedAttempt R) "<retry>").budgets⟩]) = .ok () := rfl
  have hchosen : choosePeer host [oneRetry] (retryGrant (maskedAttempt R) "<retry>") (maskedSlot R)
      [bareRecord signature] [] = .ok (some "p", []) := by
    have hid : peerIdOf (bareRecord signature) = "p" := rfl
    rw [choosePeer, bareRecord_eligible host hmac hascii htime, hid]
    simp only [hchain, bind, Except.bind]
    rfl
  refine ⟨replaying .secretBearing (retryGrant (maskedAttempt R) "<retry>") "p", ?_, rfl⟩
  unfold dispatchOnLoss
  have hclass : (maskedAttempt R).effectClass = .secretBearing := rfl
  have hbudget : retryBudget (maskedAttempt R) = 1 := rfl
  simp only [hclass, hbudget, reduceCtorEq, if_false, false_and, show ¬(1 : Int) ≤ 0 by decide]
  show (slotForRetry (maskedAttempt R) (retryGrant (maskedAttempt R) "<retry>")
    (trustFloor .secretBearing) >>= _) = _
  rw [hslot]
  show (choosePeer host [oneRetry] (retryGrant (maskedAttempt R) "<retry>") (maskedSlot R)
    [bareRecord signature] [] >>= _) = _
  rw [hchosen]
  rfl

/-- **Lawful retry**: a replay of a record's attempt, from a chain that passes and ends in the
attempt's grant, is of a record that is neither deferred nor witnessed, and its hop is under
every grant of the chain, is offered to a peer eligible for it and has one retry less, exactly
where the record is not secret together with one of the two. A run of losses ends in any case. -/
theorem lawful_retry (hplain : host.Plain) (facets : Json) :
    ((∀ (chain : List Grant) (attempt : Attempt R) (candidates : List Json) (d : Decision),
      attempt.effectClass = classifyExtern facets → checkDelegationChain chain = .ok () →
        chain.getLast? = some attempt.grant →
          dispatchOnLoss host chain attempt candidates = .ok d → d.disposition = .replay →
            Lawful host facets chain attempt candidates d) ↔ ¬ Masked facets) ∧
      ∀ (chain : List Grant) (grant : Grant) (n : Nat), Replays host chain grant n →
        n ≤ grant.retries.toNat := by
  refine ⟨⟨fun hall hmasked => ?_, fun hmask => ?_⟩, fun chain grant n => replays_le host⟩
  · obtain ⟨signature, hmac, hascii⟩ := hplain.signs
    obtain ⟨d, hd, hreplay⟩ := masked_replayed host hmac hascii hplain.time
    have hclass : (maskedAttempt R).effectClass = classifyExtern facets := by
      unfold classifyExtern
      rw [if_pos hmasked.1]
      rfl
    have hlawful := hall _ _ _ d hclass rfl rfl hd hreplay
    rcases hmasked.2 with hdeferred | hwitnessed
    · exact Bool.false_ne_true (hlawful.revertible.1.symm.trans hdeferred)
    · exact Bool.false_ne_true (hlawful.revertible.2.symm.trans hwitnessed)
  · intro chain attempt candidates d hclass _ _ hd hreplay
    obtain ⟨hwitnessed, hdeferred, -⟩ := dispatchOnLoss_replay host hd hreplay
    rw [hclass] at hwitnessed hdeferred
    exact replay_hop host hd hreplay (classify_revertible hmask hwitnessed hdeferred)

/-- A host that signs everything alike and takes every time for enough. -/
def plainHost : Host Unit where
  mac _ := some "00"
  teeAdmits _ _ _ := .ok ()
  truncate _ := 0
  floatGe _ _ := true

/-- The record of an extern that is secret and deferred. -/
def secretDeferred : Json := .obj [("secret", .bool true), ("deferred", .bool true)]

theorem lawful_retry_secret_deferred : plainHost.Plain ∧ ¬ ∀ (chain : List Grant)
    (attempt : Attempt Unit) (candidates : List Json) (d : Decision),
      attempt.effectClass = classifyExtern secretDeferred → checkDelegationChain chain = .ok () →
        chain.getLast? = some attempt.grant →
          dispatchOnLoss plainHost chain attempt candidates = .ok d → d.disposition = .replay →
            Lawful plainHost secretDeferred chain attempt candidates d :=
  ⟨⟨⟨"00", rfl, rfl⟩, rfl⟩, fun hall =>
    ((lawful_retry plainHost ⟨⟨"00", rfl, rfl⟩, rfl⟩ secretDeferred).1.mp hall) ⟨rfl, .inl rfl⟩⟩

/-- A secret and deferred commit is issued again to a pool peer. -/
theorem secret_deferred_replayed : ∃ (attempt : Attempt Unit) (d : Decision),
    attempt.effectClass = classifyExtern secretDeferred ∧
      checkDelegationChain [oneRetry] = .ok () ∧ [oneRetry].getLast? = some attempt.grant ∧
        dispatchOnLoss plainHost [oneRetry] attempt [bareRecord "00"] = .ok d ∧
          d.disposition = .replay ∧
            ¬ Lawful plainHost secretDeferred [oneRetry] attempt [bareRecord "00"] d := by
  obtain ⟨d, hd, hreplay⟩ := masked_replayed (R := Unit) plainHost rfl rfl rfl
  refine ⟨maskedAttempt Unit, d, rfl, rfl, rfl, hd, hreplay, fun hlawful => ?_⟩
  exact Bool.false_ne_true hlawful.revertible.1.symm

end Revl.Retry
