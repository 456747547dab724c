import Revl.Lib.Steps
import Revl.Mcp.Grant

/-!
# The lease gate

An `effect lease` step is a class-(c) acquisition. Before a composition boots, the gate finds a
lease grant for each of its leases, mints one from a satisfied decision, or raises a ticket.

- `collectLeaseRequests`, `buildLeaseTicket`: the leases of a composition and their tickets.
- `findStandingApproval`, `satisfiedDecisionFor`: the votes that answer a ticket.
- `Reached`: the states a session's mints, votes, spends, expiries, revokes and reloads reach.
- `lease_boots_live`: **where the lookup accepts no lapsed and no foreign grant and the acquiring
  component is the crossing one, a gate that returns found each lease live authority of its own,
  and it raises no ticket for a lease that has some.**
-/

namespace Revl.Mcp

open Entrywise (forall₂_right)

open CapOrder
open Fallible (bind_ok)

/-! ## Leases -/

/-- An `effect lease` acquisition. -/
structure Lease where
  component : String
  capability : String
  ttlMs : Option Int
  uses : Option Int
  deriving DecidableEq, Repr

/-- What a `lease` marker holds. -/
structure LeaseMarker where
  capability : String
  ttlMs : Option Int
  uses : Option Int
  deriving Repr

/-- A step of an activation body, with the branches of an `if`. -/
inductive BodyStep where
  | mk (lease : Option LeaseMarker) (thenSteps elseSteps : List BodyStep)

mutual

def BodyStep.leases (component : String) : BodyStep → List Lease
  | .mk lease thenSteps elseSteps =>
    (lease.toList.map fun m => ⟨component, m.capability, m.ttlMs, m.uses⟩) ++
      walkLeases component thenSteps ++ walkLeases component elseSteps

/-- `_walk`. -/
def walkLeases (component : String) : List BodyStep → List Lease
  | [] => []
  | step :: steps => step.leases component ++ walkLeases component steps

end

/-- `_collect_lease_requests`. -/
def collectLeaseRequests (components : List (String × List BodyStep)) : List Lease :=
  components.flatMap fun c => walkLeases c.1 c.2

/-! ## The session -/

/-- An entry of `_ledger`: one approval. -/
structure LedgerEntry where
  requestId : String
  hash : String
  candidateHash : String
  component : String
  consumed : Bool
  expiresAt : Option Int
  expiredAt : Option Int
  deriving DecidableEq, Repr

/-- A record of `_quorums`. -/
structure Decision where
  hash : String
  candidateHash : String
  component : String
  outcome : Option String
  satisfiedBy : Option String
  deriving DecidableEq, Repr

structure LeaseState where
  session : String
  grants : List Grant
  /-- `_tickets`. -/
  tickets : List (String × Ticket)
  ledger : List LedgerEntry
  quorums : List (String × Decision)
  /-- Every grant minted from a ticket, as it was minted. The code reads it nowhere. -/
  mints : List (Ticket × Grant)

/-- What the gate asks of the rest of the session. -/
structure LeaseEnv where
  policy : MintPolicy
  /-- The digest of a lease ticket's body. -/
  digest : String → String → Lease → String
  /-- `_issue_ticket` refuses to ask: no vote could answer. -/
  unaskable : Ticket → Bool
  /-- `_now_ms`, read once a call. -/
  now : Int

/-- `_expired` of a ledger entry, with the latch it leaves. -/
def LedgerEntry.expire (e : LedgerEntry) (now : Int) : Bool × LedgerEntry :=
  if e.expiredAt.isSome then (true, e)
  else if e.expiresAt.any fun expiresAt => decide (expiresAt < now) then
    (true, { e with expiredAt := some now })
  else (false, e)

/-- `_find_standing_approval`: the ledger with the expiries it observed, and the place of the
first spendable entry. -/
def findStandingApproval (ticket : Ticket) (now : Int) :
    List LedgerEntry → List LedgerEntry × Option Nat
  | [] => ([], none)
  | e :: es =>
    if e.consumed || e.hash != ticket.hash || e.candidateHash != ticket.candidateHash ||
        e.component != ticket.component then
      let rest := findStandingApproval ticket now es
      (e :: rest.1, rest.2.map (· + 1))
    else
      match e.expire now with
      | (true, e) =>
        let rest := findStandingApproval ticket now es
        (e :: rest.1, rest.2.map (· + 1))
      | (false, e) => (e :: es, some 0)

/-- Whether the decision filed under the entry's request is satisfied, and is the entry's. -/
def answeredBy (quorums : List (String × Decision)) (entry : LedgerEntry) : Bool :=
  match Assoc.get? quorums entry.requestId with
  | none => false
  | some d =>
    d.outcome == some "satisfied" && decide (d.satisfiedBy ∈ [some "votes", some "override"]) &&
      decide ((d.hash, d.candidateHash, d.component) =
        (entry.hash, entry.candidateHash, entry.component))

/-- `_satisfied_decision_for`. -/
def satisfiedDecisionFor (s : LeaseState) (ticket : Ticket) (now : Int) :
    List LedgerEntry × Option Nat :=
  let found := findStandingApproval ticket now s.ledger
  (found.1, found.2.filter fun i => (found.1[i]?).any (answeredBy s.quorums))

/-- `_decision_authorizes_grant`. -/
def decisionAuthorizesGrant (s : LeaseState) (hash : String) (decision : Nat) (now : Int) : Bool :=
  match Assoc.get? s.tickets hash with
  | none => false
  | some ticket =>
    ticket.lease.isSome && decide ((satisfiedDecisionFor s ticket now).2 = some decision)

/-! ## The gate -/

inductive GateError where
  | noPolicy
  | notCrossed
  | ambiguous
  | mint (error : MintError)
  | unaskable
  /-- `ApprovalRequired`. -/
  | approvalRequired (ticket : Ticket)

/-- The ticket of a lease whose crossing has this identity. -/
def leaseTicket (digest : String → String → Lease → String) (component candidateHash : String)
    (lz : Lease) : Ticket where
  hash := digest component candidateHash lz
  component := component
  candidateHash := candidateHash
  capabilities := [lz.capability]
  classCCapabilities := [lz.capability]
  lease := some ⟨lz.component, lz.ttlMs, lz.uses⟩

/-- `_build_lease_ticket`. -/
def buildLeaseTicket (env : LeaseEnv) (lz : Lease) : Except GateError Ticket :=
  match (env.policy.crossings.map (· lz.capability)).getD [] with
  | [] => .error .notCrossed
  | target :: targets =>
    if ((target :: targets).map Target.component).dedup.length > 1 then .error .ambiguous
    else .ok (leaseTicket env.digest target.component target.candidateHash lz)

/-- What `_live_lease_grant` asks of a grant. -/
def Grant.answersLease (g : Grant) (session component capability : String) : Bool :=
  g.lease && !g.consumed && !g.revoked && g.session == session && g.component == component &&
    capCovers g.capability capability

/-- `_live_lease_grant`. -/
def liveLeaseGrant (s : LeaseState) (component capability : String) : Option Grant :=
  s.grants.find? fun g => g.answersLease s.session component capability

/-- `_mint_grant`, which appends to `_grants`. -/
def LeaseState.mint (s : LeaseState) (policy : MintPolicy) (now : Int) (req : MintRequest) :
    Except MintError LeaseState := do
  let tickets := Assoc.get? s.tickets
  let g ← mintGrant policy tickets s.session now s.grants.length req
  .ok { s with
    grants := s.grants ++ [g]
    mints := s.mints ++ ((req.ticketHash.bind tickets).toList.map fun t => (t, g)) }

/-- `_consume_approval`. -/
def consumeEntry (ledger : List LedgerEntry) (i : Nat) : List LedgerEntry :=
  ledger.modify i fun e => { e with consumed := true }

/-- `_issue_ticket` and the raise after it. -/
def issueTicket (env : LeaseEnv) (s : LeaseState) (ticket : Ticket) :
    Outcome GateError LeaseState :=
  if env.unaskable ticket then .raised .unaskable s
  else
    .raised (.approvalRequired ticket) { s with tickets := (ticket.hash, ticket) :: s.tickets }

/-- One lease of the gate's loop. -/
def gateLease (env : LeaseEnv) (s : LeaseState) (lz : Lease) : Outcome GateError LeaseState :=
  match liveLeaseGrant s lz.component lz.capability with
  | some _ => .ok s
  | none =>
    match buildLeaseTicket env lz with
    | .error e => .raised e s
    | .ok ticket =>
      if (Assoc.get? s.tickets ticket.hash).isSome then
        let found := satisfiedDecisionFor s ticket env.now
        let s := { s with ledger := found.1 }
        match found.2 with
        | none => issueTicket env s ticket
        | some decision =>
          let decided := decisionAuthorizesGrant s ticket.hash decision env.now
          match s.mint env.policy env.now ⟨some ticket.hash, none, none, none, decided⟩ with
          | .error e => .raised (.mint e) s
          | .ok s => .ok { s with ledger := consumeEntry s.ledger decision }
      else issueTicket env s ticket

/-- `_enforce_lease_gate`. -/
def enforceLeaseGate (env : LeaseEnv) (components : List (String × List BodyStep))
    (s : LeaseState) : Outcome GateError LeaseState :=
  match collectLeaseRequests components with
  | [] => .ok s
  | leases =>
    if env.policy.crossings.isNone then .raised .noPolicy s
    else Outcome.runSteps (gateLease env) leases s

/-! ## What a session can do -/

/-- The same grant, at another moment: counters, flags and the expiry latch may differ. -/
structure SameGrant (g g' : Grant) : Prop where
  requestId : g'.requestId = g.requestId
  capability : g'.capability = g.capability
  component : g'.component = g.component
  session : g'.session = g.session
  lease : g'.lease = g.lease
  expiresAt : g'.expiresAt = g.expiresAt

theorem SameGrant.refl (g : Grant) : SameGrant g g := ⟨rfl, rfl, rfl, rfl, rfl, rfl⟩

theorem SameGrant.trans {g g' g'' : Grant} (h : SameGrant g g') (h' : SameGrant g' g'') :
    SameGrant g g'' where
  requestId := h'.requestId.trans h.requestId
  capability := h'.capability.trans h.capability
  component := h'.component.trans h.component
  session := h'.session.trans h.session
  lease := h'.lease.trans h.lease
  expiresAt := h'.expiresAt.trans h.expiresAt

/-- The ticket is the lease's. -/
structure Ticket.IsFor (ticket : Ticket) (lz : Lease) : Prop where
  capabilities : ticket.capabilities = [lz.capability]
  lease : ticket.lease = some ⟨lz.component, lz.ttlMs, lz.uses⟩

theorem Ticket.IsFor.unique {ticket : Ticket} {lz lz' : Lease} (h : ticket.IsFor lz)
    (h' : ticket.IsFor lz') : lz = lz' := by
  have hcap := h.capabilities.symm.trans h'.capabilities
  have hlease := h.lease.symm.trans h'.lease
  cases lz
  cases lz'
  simp_all

/-- **Live authority of a lease**: an unspent, unrevoked, unexpired lease grant of the session that
covers it and was minted from one of its tickets. -/
structure Backs (s : LeaseState) (now : Int) (lz : Lease) (g : Grant) : Prop where
  held : g ∈ s.grants
  lease : g.lease = true
  unconsumed : g.consumed = false
  unrevoked : g.revoked = false
  session : g.session = s.session
  unexpired : (g.expire now).1 = false
  covers : capCovers g.capability lz.capability = true
  minted : ∃ p ∈ s.mints, p.1.IsFor lz ∧ SameGrant p.2 g

/-- Where the gate does what it says for one lease. -/
structure Clear (env : LeaseEnv) (s : LeaseState) (lz : Lease) : Prop where
  /-- No grant the lookup accepts has lapsed. -/
  unlapsed : ∀ g ∈ s.grants, g.answersLease s.session lz.component lz.capability = true →
    (g.expire env.now).1 = false
  /-- No grant minted for another lease of the component covers this one. -/
  own : ∀ p ∈ s.mints, p.2.component = lz.component →
    capCovers p.2.capability lz.capability = true → p.1.IsFor lz
  /-- The capability is crossed in the acquiring component. -/
  crossing : ∀ crossings ∈ env.policy.crossings, ∀ target ∈ crossings lz.capability,
    target.component = lz.component
  /-- The lease does not lapse as it is granted. -/
  ttl : ∀ ttl ∈ lz.ttlMs.or (env.policy.ticketTtl [lz.capability]), 0 ≤ ttl
  /-- The capability is stored as a spelling that reads back. -/
  legible : StatesLegibly lz.capability
  /-- No other outstanding ticket has the digest of this lease's. -/
  digest : ∀ ticket, buildLeaseTicket env lz = .ok ticket → ∀ t,
    Assoc.get? s.tickets ticket.hash = some t → t = ticket

/-- Every lease the gate comes to is clear. -/
def ClearGate (env : LeaseEnv) : List Lease → LeaseState → Prop
  | [], _ => True
  | lz :: leases, s => Clear env s lz ∧ ∀ s', gateLease env s lz = .ok s' → ClearGate env leases s'

/-- What a session does between and in its gates. -/
inductive SessionStep : LeaseState → LeaseState → Prop where
  /-- `mint_standing_grant`: an operator's mint passes no decision. -/
  | mint {s s' : LeaseState} {policy : MintPolicy} {now : Int} {req : MintRequest}
      (hreq : req.decided = false) (h : s.mint policy now req = .ok s') : SessionStep s s'
  /-- Spends, reservations, releases, observed expiries and revokes. -/
  | grants {s : LeaseState} {grants : List Grant} (h : List.Forall₂ SameGrant s.grants grants) :
      SessionStep s { s with grants := grants }
  /-- Approvals, votes and spends of approvals. -/
  | votes {s : LeaseState} (ledger : List LedgerEntry) (quorums : List (String × Decision)) :
      SessionStep s { s with ledger := ledger, quorums := quorums }
  /-- Another gate's ticket. -/
  | ticket {s : LeaseState} {t : Ticket} (h : t.lease = none) :
      SessionStep s { s with tickets := (t.hash, t) :: s.tickets }
  /-- A new generation. -/
  | reload {s : LeaseState} : SessionStep s { s with tickets := [] }
  | gate {s : LeaseState} {env : LeaseEnv} {components : List (String × List BodyStep)}
      (h : ClearGate env (collectLeaseRequests components) s) :
      SessionStep s (enforceLeaseGate env components s).state

/-- The states of a session whose gates were all clear. -/
inductive Reached (session : String) : LeaseState → Prop where
  | start : Reached session ⟨session, [], [], [], [], []⟩
  | step {s s' : LeaseState} (hs : Reached session s) (h : SessionStep s s') : Reached session s'

/-! ## The invariant -/

/-- Lease tickets name the acquiring component as the crossing one, and every lease grant was
minted from one. -/
structure LeaseInv (s : LeaseState) : Prop where
  tickets : ∀ p ∈ s.tickets, ∀ terms ∈ p.2.lease, p.2.component = terms.component
  mints : ∀ p ∈ s.mints, ∀ terms ∈ p.1.lease, p.2.component = terms.component
  grants : ∀ g ∈ s.grants, g.lease = true → ∃ p ∈ s.mints, SameGrant p.2 g

theorem resolveMint_ticket {policy : MintPolicy} {tickets : String → Option Ticket}
    {req : MintRequest} {r : Resolved} (h : resolveMint policy tickets req = .ok r) :
    (req.ticketHash = none ∧ r.lease = false) ∨
      ∃ hash ticket, req.ticketHash = some hash ∧ tickets hash = some ticket ∧
        r.component = ticket.component ∧ r.lease = ticket.lease.isSome := by
  rw [resolveMint] at h
  split_ifs at h
  cases hhash : req.ticketHash with
  | some hash =>
    simp only [hhash] at h
    cases hticket : tickets hash with
    | none =>
      rw [hticket] at h
      cases h
    | some ticket =>
      simp only [hticket] at h
      obtain ⟨capability, -, h⟩ := bind_ok h
      cases h
      exact .inr ⟨hash, ticket, rfl, hticket, rfl, rfl⟩
  | none =>
    cases hcap : req.capability with
    | none =>
      simp only [hhash, hcap] at h
      cases h
    | some capability =>
      simp only [hhash, hcap] at h
      split at h
      · cases h
      · split at h
        · cases h
        · cases h
          exact .inl ⟨rfl, rfl⟩
        · cases h

/-- What a mint adds to the session. -/
theorem LeaseState.mint_ok {s s' : LeaseState} {policy : MintPolicy} {now : Int}
    {req : MintRequest} (h : s.mint policy now req = .ok s') :
    ∃ g, mintGrant policy (Assoc.get? s.tickets) s.session now s.grants.length req = .ok g ∧
      s' = { s with
        grants := s.grants ++ [g]
        mints := s.mints ++
          ((req.ticketHash.bind (Assoc.get? s.tickets)).toList.map fun t => (t, g)) } := by
  rw [LeaseState.mint] at h
  obtain ⟨g, hg, h⟩ := bind_ok h
  cases h
  exact ⟨g, hg, rfl⟩

theorem LeaseInv.mint {s s' : LeaseState} {policy : MintPolicy} {now : Int} {req : MintRequest}
    (hinv : LeaseInv s) (h : s.mint policy now req = .ok s') : LeaseInv s' := by
  obtain ⟨g, hg, rfl⟩ := LeaseState.mint_ok h
  obtain ⟨r, hr, -, hcomponent, -, -, hlease, -⟩ := mintGrant_ok hg
  constructor
  · exact hinv.tickets
  · intro p hp terms hterms
    rcases List.mem_append.1 hp with hp | hp
    · exact hinv.mints p hp terms hterms
    obtain ⟨t, ht, rfl⟩ := List.mem_map.1 hp
    rcases resolveMint_ticket hr with ⟨hnone, -⟩ | ⟨hash, ticket, hhash, hticket, hcomp, -⟩
    · rw [hnone] at ht
      cases ht
    · rw [hhash] at ht
      simp only [Option.bind_some, hticket, Option.toList_some, List.mem_singleton] at ht
      subst ht
      rw [hcomponent, hcomp]
      exact hinv.tickets _ (Assoc.mem_of_get? hticket) terms hterms
  · intro g' hg' hlease'
    rcases List.mem_append.1 hg' with hg' | hg'
    · obtain ⟨p, hp, hsame⟩ := hinv.grants g' hg' hlease'
      exact ⟨p, List.mem_append_left _ hp, hsame⟩
    obtain rfl := List.mem_singleton.1 hg'
    rcases resolveMint_ticket hr with ⟨-, hfalse⟩ | ⟨hash, ticket, hhash, hticket, -, -⟩
    · rw [hlease, hfalse] at hlease'
      cases hlease'
    · refine ⟨(ticket, g'), List.mem_append_right _ ?_, .refl g'⟩
      simp [hhash, hticket]

theorem LeaseInv.issueTicket {env : LeaseEnv} {s : LeaseState} {ticket : Ticket}
    (hinv : LeaseInv s) (h : ∀ terms ∈ ticket.lease, ticket.component = terms.component) :
    LeaseInv (issueTicket env s ticket).state := by
  rw [Mcp.issueTicket]
  split_ifs
  · exact hinv
  · refine ⟨?_, hinv.mints, hinv.grants⟩
    intro p hp
    rcases List.mem_cons.1 hp with rfl | hp
    · exact h
    · exact hinv.tickets p hp

/-! ## One lease -/

/-- Everything one lease can do to the session. -/
theorem gateLease_cases (env : LeaseEnv) (s : LeaseState) (lz : Lease) :
    (∃ g, liveLeaseGrant s lz.component lz.capability = some g ∧ gateLease env s lz = .ok s) ∨
    liveLeaseGrant s lz.component lz.capability = none ∧
      ((∃ e, buildLeaseTicket env lz = .error e ∧ gateLease env s lz = .raised e s) ∨
        ∃ ticket ledger, buildLeaseTicket env lz = .ok ticket ∧
          (gateLease env s lz = issueTicket env { s with ledger := ledger } ticket ∨
            (∃ e, gateLease env s lz = .raised (.mint e) { s with ledger := ledger }) ∨
            ∃ decided decision s', (Assoc.get? s.tickets ticket.hash).isSome ∧
              { s with ledger := ledger }.mint env.policy env.now
                ⟨some ticket.hash, none, none, none, decided⟩ = .ok s' ∧
              gateLease env s lz = .ok { s' with ledger := consumeEntry s'.ledger decision })) := by
  cases hlive : liveLeaseGrant s lz.component lz.capability with
  | some g => exact .inl ⟨g, rfl, by rw [gateLease, hlive]⟩
  | none =>
    refine .inr ⟨rfl, ?_⟩
    cases hbuild : buildLeaseTicket env lz with
    | error e => exact .inl ⟨e, rfl, by rw [gateLease, hlive, hbuild]⟩
    | ok ticket =>
      right
      by_cases hout : (Assoc.get? s.tickets ticket.hash).isSome
      · refine ⟨ticket, (satisfiedDecisionFor s ticket env.now).1, rfl, ?_⟩
        simp only [gateLease, hlive, hbuild, if_pos hout]
        cases (satisfiedDecisionFor s ticket env.now).2 with
        | none => exact .inl rfl
        | some decision =>
          right
          simp only
          generalize hdecided : decisionAuthorizesGrant _ ticket.hash decision env.now = decided
          cases hmint : LeaseState.mint _ env.policy env.now
              ⟨some ticket.hash, none, none, none, decided⟩ with
          | error e => exact .inl ⟨e, rfl⟩
          | ok s' => exact .inr ⟨decided, decision, s', hout, hmint, rfl⟩
      · refine ⟨ticket, s.ledger, rfl, .inl ?_⟩
        simp only [gateLease, hlive, hbuild, if_neg hout]

/-- A clear lease's ticket is its own, in its own component. -/
theorem buildLeaseTicket_clear {env : LeaseEnv} {s : LeaseState} {lz : Lease} {ticket : Ticket}
    (hclear : Clear env s lz) (h : buildLeaseTicket env lz = .ok ticket) :
    ticket.IsFor lz ∧ ticket.component = lz.component ∧
      ticket.classCCapabilities = [lz.capability] := by
  rw [buildLeaseTicket] at h
  cases hcrossings : env.policy.crossings with
  | none =>
    rw [hcrossings] at h
    exact nomatch h
  | some crossings =>
    rw [hcrossings] at h
    simp only [Option.map_some, Option.getD_some] at h
    cases htargets : crossings lz.capability with
    | nil =>
      rw [htargets] at h
      exact nomatch h
    | cons target targets =>
      rw [htargets] at h
      simp only at h
      split_ifs at h
      cases h
      have hcomponent := hclear.crossing crossings hcrossings target
        (htargets ▸ List.mem_cons_self)
      exact ⟨⟨rfl, rfl⟩, hcomponent, rfl⟩

/-- A grant is stored at or above its spelling. -/
theorem StoredAs.covers_self {spelling : String} {g : Grant} (h : StoredAs spelling g) :
    capCovers g.capability spelling = true := by
  cases hs : parseCap spelling .absent with
  | error e => exact capCovers_iff.2 (.inl (h.unread e hs).1)
  | ok c =>
    obtain ⟨hread, -⟩ := h.read c hs
    have hstored : parseStoredCap g.capability = .ok (splitCeilings c).1 :=
      parseCap_core (fun p hp => parseCap_absent_core hread hp) hread
    have hc : parseStoredCap spelling = .ok c :=
      parseCap_core (fun p hp => parseCap_absent_core hs hp) hs
    have hwf := parseCap_wellFormed hs
    refine capCovers_iff.2 (.inr ⟨_, c, hstored, hc, covers_iff.2 ?_⟩)
    by_cases hstar : c.token = "*"
    · exact .inl ⟨hstar, hstar⟩
    · refine .inr ⟨hstar, rfl, fun p hp => ⟨p.2, ?_, paramLeq_refl p.2⟩⟩
      exact (Assoc.get?_eq_some_iff hwf.sorted.nodup).2 (mem_resource.1 hp).1

/-- What a gate adds leaves what was there. -/
structure Kept (s s' : LeaseState) : Prop where
  session : s'.session = s.session
  grants : ∀ g ∈ s.grants, g ∈ s'.grants
  mints : ∀ p ∈ s.mints, p ∈ s'.mints

theorem Backs.kept {s s' : LeaseState} {now : Int} {lz : Lease} {g : Grant} (hkept : Kept s s')
    (h : Backs s now lz g) : Backs s' now lz g where
  held := hkept.grants g h.held
  lease := h.lease
  unconsumed := h.unconsumed
  unrevoked := h.unrevoked
  session := h.session.trans hkept.session.symm
  unexpired := h.unexpired
  covers := h.covers
  minted := by
    obtain ⟨p, hp, hfor, hsame⟩ := h.minted
    exact ⟨p, hkept.mints p hp, hfor, hsame⟩

/-- **A clear lease that is let through has live authority of its own.** -/
theorem gateLease_ok {env : LeaseEnv} {s s' : LeaseState} {lz : Lease} (hinv : LeaseInv s)
    (hclear : Clear env s lz) (h : gateLease env s lz = .ok s') :
    LeaseInv s' ∧ Kept s s' ∧ ∃ g, Backs s' env.now lz g := by
  rcases gateLease_cases env s lz with ⟨g, hlive, hgate⟩ | ⟨-, ⟨e, -, hgate⟩ |
    ⟨ticket, ledger, hbuild, hgate | ⟨e, hgate⟩ | ⟨decided, decision, s₁, hout, hmint, hgate⟩⟩⟩
  · rw [hgate] at h
    cases h
    refine ⟨hinv, ⟨rfl, fun _ => id, fun _ => id⟩, g, ?_⟩
    have hmem := List.mem_of_find?_eq_some hlive
    have hanswers := List.find?_some hlive
    have hunlapsed := hclear.unlapsed g hmem hanswers
    simp only [Grant.answersLease, Bool.and_eq_true, beq_iff_eq, Bool.not_eq_true'] at hanswers
    obtain ⟨⟨⟨⟨⟨hlease, hconsumed⟩, hrevoked⟩, hsession⟩, hcomponent⟩, hcovers⟩ := hanswers
    obtain ⟨p, hp, hsame⟩ := hinv.grants g hmem hlease
    refine ⟨hmem, hlease, hconsumed, hrevoked, hsession, hunlapsed, hcovers, p, hp, ?_, hsame⟩
    exact hclear.own p hp (hsame.component.symm.trans hcomponent) (hsame.capability ▸ hcovers)
  · rw [hgate] at h
    exact nomatch h
  · rw [hgate, issueTicket] at h
    split_ifs at h
  · rw [hgate] at h
    exact nomatch h
  · rw [hgate] at h
    cases h
    obtain ⟨hfor, hcomponent, hcaps⟩ := buildLeaseTicket_clear hclear hbuild
    obtain ⟨t, ht⟩ := Option.isSome_iff_exists.1 hout
    obtain rfl := hclear.digest ticket hbuild t ht
    have hinv₁ : LeaseInv { s with ledger := ledger } := ⟨hinv.tickets, hinv.mints, hinv.grants⟩
    have hinv₂ := hinv₁.mint hmint
    obtain ⟨g, hg, rfl⟩ := LeaseState.mint_ok hmint
    refine ⟨⟨hinv₂.tickets, hinv₂.mints, hinv₂.grants⟩, ⟨rfl, fun g hg =>
      List.mem_append_left _ hg, fun p hp => List.mem_append_left _ hp⟩, g, ?_⟩
    obtain ⟨r, hr, hstored, -, -, hsession, hlease, hexpires, hexpired, hconsumed, hrevoked⟩ :=
      mintGrant_ok hg
    -- the ticket shows the lease's capability alone, and carries its bounds
    have hresolved : r.capability = lz.capability ∧ r.lease = true ∧
        r.ttlMs.or r.policyTtl = lz.ttlMs.or (env.policy.ticketTtl [lz.capability]) := by
      rw [resolveMint] at hr
      simp only [Option.any_none, Bool.false_eq_true, if_false, ht, ticketCapability, hcaps] at hr
      obtain ⟨capability, hcap, hr⟩ := bind_ok hr
      cases hcap
      cases hr
      exact ⟨rfl, by rw [hfor.lease]; rfl, by rw [hfor.lease, hfor.capabilities]; rfl⟩
    obtain ⟨hcapability, hlease', httl⟩ := hresolved
    refine ⟨List.mem_append_right _ (List.mem_singleton_self g), hlease.trans hlease', hconsumed,
      hrevoked, hsession, ?_, ?_, (t, g), List.mem_append_right _ ?_, hfor, .refl g⟩
    · rw [Grant.expire_fst, hexpired, hexpires, httl]
      have hnn := hclear.ttl
      cases hterm : lz.ttlMs.or (env.policy.ticketTtl [lz.capability]) with
      | none => rfl
      | some ttl =>
        have hlt : ¬ env.now + ttl < env.now := by
          have := hnn ttl hterm
          omega
        simp [hlt]
    · rw [hcapability] at hstored
      exact (storedForm_storedAs hclear.legible hstored).covers_self
    · simp [ht]

/-- **A lease that is ticketed has no live authority of its own.** -/
theorem gateLease_raised {env : LeaseEnv} {s s' : LeaseState} {lz : Lease} {e : GateError}
    (hinv : LeaseInv s) (hclear : Clear env s lz) (h : gateLease env s lz = .raised e s') :
    LeaseInv s' ∧ ∀ ticket, e = .approvalRequired ticket → ∀ lz', ticket.IsFor lz' →
      ∀ g, ¬ Backs s' env.now lz' g := by
  rcases gateLease_cases env s lz with ⟨g, -, hgate⟩ | ⟨hnone, ⟨e', hbuild, hgate⟩ |
    ⟨ticket, ledger, hbuild, hgate | ⟨e', hgate⟩ | ⟨decided, decision, s₁, -, -, hgate⟩⟩⟩
  · rw [hgate] at h
    exact nomatch h
  · rw [hgate] at h
    cases h
    refine ⟨hinv, fun ticket he => ?_⟩
    -- no lease ticket is refused with one
    rw [buildLeaseTicket] at hbuild
    split at hbuild
    · cases hbuild
      exact nomatch he
    · split_ifs at hbuild
      cases hbuild
      exact nomatch he
  · obtain ⟨hfor, hcomponent, -⟩ := buildLeaseTicket_clear hclear hbuild
    have hinv₁ : LeaseInv { s with ledger := ledger } := ⟨hinv.tickets, hinv.mints, hinv.grants⟩
    have hstate : (issueTicket env { s with ledger := ledger } ticket).state = s' := by
      rw [← hgate, h]
      rfl
    have hinv' : LeaseInv (issueTicket env { s with ledger := ledger } ticket).state := by
      refine hinv₁.issueTicket fun terms hterms => ?_
      rw [hfor.lease] at hterms
      cases hterms
      exact hcomponent
    rw [hstate] at hinv'
    refine ⟨hinv', fun ticket' he lz' hfor' g hbacks => ?_⟩
    rw [hgate, issueTicket] at h
    split_ifs at h
    · cases h
      exact nomatch he
    cases h
    cases he
    obtain rfl := hfor.unique hfor'
    obtain ⟨p, hp, hpfor, hsame⟩ := hbacks.minted
    have hcomp : g.component = lz.component :=
      hsame.component.trans (hinv.mints p hp _ hpfor.lease)
    have hanswers : g.answersLease s.session lz.component lz.capability = true := by
      simp [Grant.answersLease, hbacks.lease, hbacks.unconsumed, hbacks.unrevoked, hcomp,
        hbacks.covers, show g.session = s.session from hbacks.session]
    exact absurd hanswers (List.find?_eq_none.1 hnone g hbacks.held)
  · rw [hgate] at h
    cases h
    exact ⟨⟨hinv.tickets, hinv.mints, hinv.grants⟩, fun ticket he => nomatch he⟩
  · rw [hgate] at h
    exact nomatch h

/-! ## A whole gate -/

theorem Kept.refl (s : LeaseState) : Kept s s := ⟨rfl, fun _ => id, fun _ => id⟩

theorem Kept.trans {s s' s'' : LeaseState} (h : Kept s s') (h' : Kept s' s'') : Kept s s'' where
  session := h'.session.trans h.session
  grants g hg := h'.grants g (h.grants g hg)
  mints p hp := h'.mints p (h.mints p hp)

theorem gate_ok {env : LeaseEnv} {leases : List Lease} {s s' : LeaseState} (hinv : LeaseInv s)
    (hclear : ClearGate env leases s) (h : Outcome.runSteps (gateLease env) leases s = .ok s') :
    LeaseInv s' ∧ Kept s s' ∧ ∀ lz ∈ leases, ∃ g, Backs s' env.now lz g := by
  induction leases generalizing s with
  | nil =>
    cases h
    exact ⟨hinv, .refl _, nofun⟩
  | cons lz leases ih =>
    obtain ⟨hlz, hrest⟩ := hclear
    rw [Outcome.runSteps_cons] at h
    cases hstep : gateLease env s lz with
    | raised e t =>
      rw [hstep] at h
      exact nomatch h
    | ok t =>
      rw [hstep] at h
      obtain ⟨hinvt, hkept, g, hg⟩ := gateLease_ok hinv hlz hstep
      obtain ⟨hinv', hkept', hbacked⟩ := ih hinvt (hrest t hstep) h
      refine ⟨hinv', hkept.trans hkept', fun lz' hlz' => ?_⟩
      rcases List.mem_cons.1 hlz' with rfl | hlz'
      · exact ⟨g, hg.kept hkept'⟩
      · exact hbacked lz' hlz'

theorem gate_raised {env : LeaseEnv} {leases : List Lease} {s s' : LeaseState} {e : GateError}
    (hinv : LeaseInv s) (hclear : ClearGate env leases s)
    (h : Outcome.runSteps (gateLease env) leases s = .raised e s') :
    LeaseInv s' ∧ ∀ ticket, e = .approvalRequired ticket → ∀ lz, ticket.IsFor lz →
      ∀ g, ¬ Backs s' env.now lz g := by
  induction leases generalizing s with
  | nil => exact nomatch h
  | cons lz leases ih =>
    obtain ⟨hlz, hrest⟩ := hclear
    rw [Outcome.runSteps_cons] at h
    cases hstep : gateLease env s lz with
    | raised e' t =>
      rw [hstep] at h
      cases h
      exact gateLease_raised hinv hlz hstep
    | ok t =>
      rw [hstep] at h
      exact ih (gateLease_ok hinv hlz hstep).1 (hrest t hstep) h

/-- The gate with leases is its loop, under an approval policy. -/
theorem enforceLeaseGate_cases (env : LeaseEnv) (components : List (String × List BodyStep))
    (s : LeaseState) :
    enforceLeaseGate env components s = .raised .noPolicy s ∨
      enforceLeaseGate env components s =
        Outcome.runSteps (gateLease env) (collectLeaseRequests components) s := by
  rw [enforceLeaseGate]
  cases collectLeaseRequests components with
  | nil => exact .inr rfl
  | cons lz leases =>
    simp only
    split_ifs
    · exact .inl rfl
    · exact .inr rfl

theorem LeaseInv.step {s s' : LeaseState} (hinv : LeaseInv s) (h : SessionStep s s') :
    LeaseInv s' := by
  cases h with
  | mint _ h => exact hinv.mint h
  | @grants grants h =>
    refine ⟨hinv.tickets, hinv.mints, fun g' hg' hlease => ?_⟩
    obtain ⟨g, hg, hsame⟩ := forall₂_right h hg'
    obtain ⟨p, hp, hsame'⟩ := hinv.grants g hg (hsame.lease ▸ hlease)
    exact ⟨p, hp, hsame'.trans hsame⟩
  | votes _ _ => exact ⟨hinv.tickets, hinv.mints, hinv.grants⟩
  | ticket h =>
    refine ⟨fun p hp terms hterms => ?_, hinv.mints, hinv.grants⟩
    rcases List.mem_cons.1 hp with rfl | hp
    · rw [h] at hterms
      exact nomatch hterms
    · exact hinv.tickets p hp terms hterms
  | reload => exact ⟨nofun, hinv.mints, hinv.grants⟩
  | @gate env components hclear =>
    rcases enforceLeaseGate_cases env components s with h | h
    · rw [h]
      exact hinv
    · rw [h]
      cases hrun : Outcome.runSteps (gateLease env) (collectLeaseRequests components) s with
      | ok s' => exact (gate_ok hinv hclear hrun).1
      | raised e s' => exact (gate_raised hinv hclear hrun).1

theorem Reached.inv {session : String} {s : LeaseState} (h : Reached session s) : LeaseInv s := by
  induction h with
  | start =>
    exact ⟨fun _ hp => absurd hp List.not_mem_nil, fun _ hp => absurd hp List.not_mem_nil,
      fun _ hg => absurd hg List.not_mem_nil⟩
  | step _ h ih => exact ih.step h

/-- **A lease boots on live authority of its own**: in a session whose gates were all clear, a
clear gate that returns found some for each lease, and one that raises a ticket raises it for a
lease that has none. -/
theorem lease_boots_live {session : String} {s : LeaseState} (hs : Reached session s)
    {env : LeaseEnv} {components : List (String × List BodyStep)}
    (hclear : ClearGate env (collectLeaseRequests components) s) :
    (∀ s', enforceLeaseGate env components s = .ok s' →
      ∀ lz ∈ collectLeaseRequests components, ∃ g, Backs s' env.now lz g) ∧
    ∀ s' ticket, enforceLeaseGate env components s = .raised (.approvalRequired ticket) s' →
      ∀ lz, ticket.IsFor lz → ∀ g, ¬ Backs s' env.now lz g := by
  have hinv := hs.inv
  rcases enforceLeaseGate_cases env components s with h | h
  · rw [h]
    exact ⟨fun s' h => (nomatch h), fun s' ticket h => (nomatch h)⟩
  · rw [h]
    exact ⟨fun s' hrun => (gate_ok hinv hclear hrun).2.2,
      fun s' ticket hrun => (gate_raised hinv hclear hrun).2 ticket rfl⟩

/-- A gate over one live crossing, in the component. -/
def leaseEnv (component : String) (now : Int) : LeaseEnv where
  policy := permissive [component]
  digest _ _ lz := lz.component ++ lz.capability
  unaskable _ := false
  now := now

def netLease : Lease := ⟨"A", "net", some 10, none⟩

/-- One component that leases `net` for ten milliseconds. -/
def netComponents : List (String × List BodyStep) :=
  [("A", [.mk (some ⟨"net", some 10, none⟩) [] []])]

def netTicket (component : String) : Ticket :=
  ⟨"Anet", component, "h", ["net"], ["net"], some ⟨"A", some 10, none⟩⟩

/-- The session whose lease ticket, from a crossing in the component, was granted at once. -/
def granted (component : String) : LeaseState where
  session := "s"
  grants := [⟨"grant:1:net", "net", "h", component, "s", 0, some 10, none, none, false,
    false, true, []⟩]
  tickets := [("Anet", netTicket component)]
  ledger := []
  quorums := []
  mints := [(netTicket component,
    ⟨"grant:1:net", "net", "h", component, "s", 0, some 10, none, none, false, false, true, []⟩)]

theorem granted_backs (component : String) {now : Int} (h : now ≤ 10) :
    ∃ g, Backs (granted component) now netLease g := by
  refine ⟨_, List.mem_singleton_self _, rfl, rfl, rfl, rfl, ?_, rfl, _,
    List.mem_singleton_self _, ⟨rfl, rfl⟩, .refl _⟩
  simp [h]

/-- The session before anything, and after its first gate. -/
def unasked : LeaseState := ⟨"s", [], [], [], [], []⟩

def asked (component : String) : LeaseState :=
  { unasked with tickets := [("Anet", netTicket component)] }

theorem asked_mint :
    (asked "A").mint (permissive ["A"]) 0 ⟨some "Anet", none, none, none, false⟩ =
      .ok (granted "A") := rfl

theorem netLease_clear {s : LeaseState} {now : Int}
    (hgrants : ∀ g ∈ s.grants, g.expiredAt = none ∧ ∀ e ∈ g.expiresAt, now ≤ e)
    (hmints : ∀ p ∈ s.mints, p.1 = netTicket "A")
    (htickets : ∀ t, Assoc.get? s.tickets "Anet" = some t → t = netTicket "A") :
    Clear (leaseEnv "A" now) s netLease where
  unlapsed g hg _ := by
    obtain ⟨hexpired, hexpires⟩ := hgrants g hg
    rw [Grant.expire_fst, hexpired]
    cases he : g.expiresAt with
    | none => rfl
    | some e =>
      show (false || decide (e < now)) = false
      rw [Bool.false_or, decide_eq_false_iff_not]
      exact Int.not_lt.2 (hexpires e he)
  own p hp _ _ := by
    rw [hmints p hp]
    exact ⟨rfl, rfl⟩
  crossing crossings hcrossings target htarget := by
    cases hcrossings
    obtain rfl := List.mem_singleton.1 htarget
    rfl
  ttl ttl httl := by
    obtain rfl : 10 = ttl := Option.some.inj httl
    decide
  legible c hc hne := by
    have hparse : parseCap "net" .absent = .ok ⟨"net", []⟩ := rfl
    obtain rfl := Except.ok.inj (hparse.symm.trans hc)
    exact absurd rfl hne
  digest ticket hticket t ht := by
    cases hticket
    exact htickets t ht

theorem granted_clear {now : Int} (h : now ≤ 10) :
    ClearGate (leaseEnv "A" now) (collectLeaseRequests netComponents) (granted "A") := by
  refine ⟨netLease_clear ?_ ?_ ?_, fun _ _ => trivial⟩
  · intro g hg
    obtain rfl := List.mem_singleton.1 hg
    refine ⟨rfl, fun e he => ?_⟩
    obtain rfl : 10 = e := Option.some.inj he
    exact h
  · intro p hp
    obtain rfl := List.mem_singleton.1 hp
    rfl
  · exact fun t ht => (Option.some.inj ht).symm

theorem granted_reached : Reached "s" (granted "A") := by
  have hclear : ClearGate (leaseEnv "A" 0) (collectLeaseRequests netComponents) unasked :=
    ⟨netLease_clear (fun _ hg => absurd hg List.not_mem_nil)
      (fun _ hp => absurd hp List.not_mem_nil) (fun _ ht => nomatch ht), fun _ _ => trivial⟩
  have hasked : Reached "s" (asked "A") := (Reached.start : Reached "s" unasked).step (.gate hclear)
  exact hasked.step (.mint rfl asked_mint)

theorem lease_boots_live_granted : ∃ g, Backs (granted "A") 5 netLease g :=
  (lease_boots_live granted_reached (granted_clear (by decide))).1 _ rfl netLease
    (List.mem_singleton_self _)

/-- A grant that lapsed between the mint and the boot passes the gate, and a lease acquired
outside the crossing component is ticketed again whatever was minted for it. -/
theorem lease_boots_lapsed :
    (enforceLeaseGate (leaseEnv "A" 0) netComponents unasked =
        .raised (.approvalRequired (netTicket "A")) (asked "A") ∧
      (asked "A").mint (permissive ["A"]) 0 ⟨some "Anet", none, none, none, false⟩ =
        .ok (granted "A") ∧
      enforceLeaseGate (leaseEnv "A" 20) netComponents (granted "A") = .ok (granted "A") ∧
      ∀ g, ¬ Backs (granted "A") 20 netLease g) ∧
    (asked "B").mint (permissive ["B"]) 0 ⟨some "Anet", none, none, none, false⟩ =
        .ok (granted "B") ∧
      (∃ s, enforceLeaseGate (leaseEnv "B" 1) netComponents (granted "B") =
        .raised (.approvalRequired (netTicket "B")) s) ∧
      (netTicket "B").IsFor netLease ∧ ∃ g, Backs (granted "B") 1 netLease g := by
  refine ⟨⟨rfl, rfl, rfl, fun g hbacks => ?_⟩, rfl, ⟨_, rfl⟩, ⟨rfl, rfl⟩,
    granted_backs "B" (by decide)⟩
  obtain rfl := List.mem_singleton.1 hbacks.held
  exact nomatch hbacks.unexpired

end Revl.Mcp
