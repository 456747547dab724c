import Revl.Mcp.SeamCache

/-!
# Multi-party approval

A rule `require N of S` makes a ticket a question that N of the operators of `S` answer. A cast is
bound to a principal before it counts, a question is asked once a round, and a round that reaches
its count mints one ledger entry.

- `resolveCast`: whose cast it is.
- `issueQuestion`, `approveTicket`, `castVote`, `closeQuestion`: the acts on a question.
- `QuorumInv`: what the records and the ledger say of the casts.
- `quorum_safety`: **an entry minted by votes was voted by N distinct approvers, none the proposer,
  in time and on an open question, and no two of them under one credential**, where no operator
  that a cast is bound to without a proof shares its credential.
-/

namespace Revl.Mcp

/-! ## Principals -/

/-- A declared credential: the digest of a secret, or a public key. -/
inductive Credential where
  | key (digest : String)
  | sign (publicKey : String)
  deriving DecidableEq

/-- An operator of the profile. -/
structure Operator where
  token : String
  voteKey : Option String
  signKey : Option String
  deriving DecidableEq

/-- What a cast for the operator has to prove. -/
def Operator.credential (o : Operator) : Option Credential :=
  match o.signKey with
  | some publicKey => some (.sign publicKey)
  | none => o.voteKey.map .key

/-- The unit that is counted. The source hashes a credential; here it stands for itself. -/
inductive Principal where
  | session (token : String)
  | credential (c : Credential)
  deriving DecidableEq

/-- The hash of a question and the round it is asked in. -/
abbrev Request := String × Nat

/-- What a proof signs. -/
structure CastBinding where
  request : Request
  candidateHash : String
  component : String
  action : String
  vote : Option String
  asToken : Option String

/-- What a cast presents. An empty string is `none`. -/
structure Presented where
  asToken : Option String
  asSecret : Option String
  asProof : Option String

structure Cast where
  voter : String
  principal : Principal

/-- Why an identity is not bound. -/
inductive CastRefusal where
  | unnamedCredential
  | unboundIdentity
  | unknownOperator
  | lapsedCredential
  | unsignedCast
  | unprovenSignature
  | unkeyedIdentity
  | unprovenIdentity
  deriving DecidableEq

/-- A `require N of {…}` clause, as the policy parser lets it through. -/
structure QuorumRule where
  require : Nat
  approvers : List String
  named : approvers ≠ []

/-- What a session asks of the profile, the policy and the clock. -/
structure QuorumEnv where
  /-- `operator_registry`. -/
  registry : Option (List Operator)
  digest : String → String
  verify : String → CastBinding → String → Bool
  /-- Revoked, or past its `until`. -/
  lapsed : Operator → Int → Bool
  /-- `_ticket_approval_shape` of a question: `error` where two rules disagree. -/
  shape : String → Except String (Option QuorumRule)
  /-- `_ticket_ttl_ms` of a question. -/
  ttlMs : String → Option Int
  clock : Nat → Int

/-- `resolve_cast`. -/
def resolveCast (env : QuorumEnv) (bound : Option Operator) (now : Int) (p : Presented)
    (binding : CastBinding) : Except CastRefusal Cast :=
  let token := (bound.map Operator.token).getD ""
  let sessionCast : Except CastRefusal Cast :=
    if bound.any fun o => env.lapsed o now then .error .lapsedCredential
    else .ok ⟨token, .session token⟩
  match p.asToken with
  | none =>
    if p.asSecret.isSome || p.asProof.isSome then .error .unnamedCredential else sessionCast
  | some asToken =>
    if bound.map Operator.token = some asToken ∧ p.asSecret = none ∧ p.asProof = none then
      sessionCast
    else
      match env.registry with
      | none => .error .unboundIdentity
      | some operators =>
        match operators.find? fun o => o.token = asToken with
        | none => .error .unknownOperator
        | some o =>
          if env.lapsed o now then .error .lapsedCredential
          else
            match o.signKey, p.asProof with
            | some _, none => .error .unsignedCast
            | some publicKey, some proof =>
              if env.verify publicKey binding proof then
                .ok ⟨asToken, .credential (.sign publicKey)⟩
              else .error .unprovenSignature
            | none, some _ => .error .unprovenSignature
            | none, none =>
              match o.voteKey, p.asSecret with
              | none, _ => .error .unkeyedIdentity
              | some _, none => .error .unprovenIdentity
              | some voteKey, some secret =>
                if env.digest secret = voteKey then .ok ⟨asToken, .credential (.key voteKey)⟩
                else .error .unprovenIdentity

/-! ## Questions -/

inductive Outcome where
  | satisfied
  | denied
  | expired
  | escalated
  | revoked
  deriving DecidableEq

inductive SatisfiedBy where
  | votes
  | override
  deriving DecidableEq

/-- A row of `votes`. -/
structure VoteRow where
  vote : String
  castAt : Int
  principal : Principal
  /-- The credential declared for the voter. No decision reads it. -/
  backing : Option Credential

/-- A record of `_quorums`. -/
structure Quorum where
  candidateHash : String
  component : String
  require : Nat
  approvers : List String
  proposer : String
  openedAt : Int
  expiresAt : Option Int
  expiredAt : Option Int
  votes : List (String × VoteRow)
  principals : List (Principal × String)
  outcome : Option Outcome
  satisfiedBy : Option SatisfiedBy
  /-- It was denied, expired, escalated or revoked once. No decision reads it. -/
  closedOnce : Bool

structure QuorumTicket where
  hash : String
  candidateHash : String
  component : String

/-- A ledger entry, as far as it concerns the question it answers. -/
structure QuorumEntry where
  request : Request
  consumed : Bool
  expiresAt : Option Int
  expiredAt : Option Int
  satisfiedBy : Option SatisfiedBy

/-- A cast whose identity was bound, and the question as it stood then. No decision reads it. -/
structure CastEvent where
  request : Request
  voter : String
  vote : String
  castAt : Int
  outcome : Option Outcome

structure QuorumState where
  /-- `_tickets`. -/
  tickets : List QuorumTicket
  /-- `_ticket_rounds`, 0 where there is none. -/
  rounds : String → Nat
  /-- `_quorums`. -/
  quorums : Request → Option Quorum
  /-- `_ledger`. -/
  ledger : List QuorumEntry
  floor : Int
  ticks : Nat
  casts : List CastEvent

/-- The round-scoped id of a question. -/
def QuorumState.request (s : QuorumState) (hash : String) : Request := (hash, max (s.rounds hash) 1)

/-- The outstanding ticket of a hash. -/
def QuorumState.ticket (s : QuorumState) (hash : String) : Option QuorumTicket :=
  s.tickets.find? fun ticket => ticket.hash = hash

/-- `_now_ms`. -/
def QuorumState.now (env : QuorumEnv) (s : QuorumState) : Int := max s.floor (env.clock s.ticks)

def QuorumState.tick (env : QuorumEnv) (s : QuorumState) : QuorumState :=
  { s with floor := s.now env, ticks := s.ticks + 1 }

def QuorumState.set (s : QuorumState) (request : Request) (q : Quorum) : QuorumState :=
  { s with quorums := Function.update s.quorums request (some q) }

/-- `_counted`. -/
def Quorum.counted (q : Quorum) : Nat := q.votes.countP fun p => p.2.vote == "approve"

/-- `_quorum_shortfall`. -/
def quorumShortfall (rule : QuorumRule) (proposer : String) : Bool :=
  decide ((rule.approvers.filter fun name => name ≠ proposer).length < rule.require)

/-- The record a question opens with. -/
def newQuorum (env : QuorumEnv) (ticket : QuorumTicket) (rule : QuorumRule) (proposer : String)
    (now : Int) : Quorum where
  candidateHash := ticket.candidateHash
  component := ticket.component
  require := rule.require
  approvers := rule.approvers
  proposer := proposer
  openedAt := now
  expiresAt := (env.ttlMs ticket.hash).map (now + ·)
  expiredAt := none
  votes := []
  principals := []
  outcome := none
  satisfiedBy := none
  closedOnce := false

/-- `_open_quorum`: `none` is a refusal. -/
def openQuorum (env : QuorumEnv) (proposer : String) (ticket : QuorumTicket) (rule : QuorumRule)
    (s : QuorumState) : QuorumState × Option Quorum :=
  match s.quorums (s.request ticket.hash) with
  | some q => (s, some q)
  | none =>
    if quorumShortfall rule proposer then (s, none)
    else
      let q := newQuorum env ticket rule proposer (s.now env)
      ((s.tick env).set (s.request ticket.hash) q, some q)

def Quorum.close (q : Quorum) (outcome : Outcome) : Quorum :=
  { q with outcome := some outcome, closedOnce := true }

/-- `_lapse_quorum`, with the latch it leaves. -/
def Quorum.lapse (q : Quorum) (now : Int) : Bool × Quorum :=
  if q.outcome = some .expired ∨ q.expiredAt.isSome then (true, q)
  else
    match expired q.expiresAt q.expiredAt now with
    | (true, latch) =>
      if q.outcome.isSome then (true, { q with expiredAt := latch })
      else (true, { q.close .expired with expiredAt := latch })
    | (false, _) => (false, q)

/-- The loop of `_spendable_entry_for_ticket`. -/
def spendableEntry (now : Int) (hash : String) : List QuorumEntry → Bool × List QuorumEntry
  | [] => (false, [])
  | e :: es =>
    let rest := spendableEntry now hash es
    if e.request.1 ≠ hash ∨ e.consumed then (rest.1, e :: rest.2)
    else
      match expired e.expiresAt e.expiredAt now with
      | (true, latch) => (rest.1, { e with expiredAt := latch } :: rest.2)
      | (false, _) => (true, e :: es)

/-- `_quorum_pending`. -/
def quorumPending (s : QuorumState) (hash : String) : Bool :=
  (s.quorums (s.request hash)).any fun q => q.outcome.isNone && q.expiredAt.isNone

/-- `_mint_ticket_entry`. -/
def mintTicketEntry (env : QuorumEnv) (hash : String) (satisfiedBy : Option SatisfiedBy)
    (s : QuorumState) : QuorumState :=
  { s.tick env with
    ledger := s.ledger ++ [⟨s.request hash, false, (env.ttlMs hash).map (s.now env + ·), none,
      satisfiedBy⟩] }

/-! ## Acts -/

def tokenOf (bound : Option Operator) : String := (bound.map Operator.token).getD ""

/-- `_issue_ticket`, as far as it concerns the question and its round. -/
def issueQuestion (env : QuorumEnv) (bound : Option Operator) (ticket : QuorumTicket)
    (s : QuorumState) : QuorumState :=
  match env.shape ticket.hash with
  | .error _ => s
  | .ok rule =>
    if rule.any fun rule => quorumShortfall rule (tokenOf bound) then s
    else
      let found := spendableEntry (s.now env) ticket.hash s.ledger
      let asked := { s.tick env with
        tickets := s.tickets.filter (fun t => t.hash ≠ ticket.hash) ++ [ticket]
        ledger := found.2
        rounds :=
          if found.1 = false ∧ quorumPending s ticket.hash = false then
            Function.update s.rounds ticket.hash (s.rounds ticket.hash + 1)
          else s.rounds }
      match rule with
      | none => asked
      | some rule => (openQuorum env (tokenOf bound) ticket rule asked).1

/-- Enter a counted vote. -/
def Quorum.vote (q : Quorum) (cast : Cast) (vote : String) (backing : Option Credential)
    (now : Int) : Quorum :=
  { q with
    votes := q.votes ++ [(cast.voter, ⟨vote, now, cast.principal, backing⟩)]
    principals := q.principals ++ [(cast.principal, cast.voter)] }

/-- The credential behind a cast: the one it proved, or the one its operator declares. -/
def backing (bound : Option Operator) (cast : Cast) : Option Credential :=
  match cast.principal with
  | .session _ => bound.bind Operator.credential
  | .credential c => some c

/-- `_decide_denied`. -/
def Quorum.deny (q : Quorum) : Quorum :=
  let remaining := q.approvers.filter fun name => name ∉ q.votes.map Prod.fst
  let separated := remaining.filter fun name => name ≠ q.proposer
  if q.require ≤ q.counted + separated.length then q else q.close .denied

/-- `_decide_satisfied`. -/
def decideSatisfied (env : QuorumEnv) (request : Request) (q : Quorum) (satisfiedBy : SatisfiedBy)
    (s : QuorumState) : QuorumState :=
  mintTicketEntry env request.1 (some satisfiedBy)
    (s.set request { q with outcome := some .satisfied, satisfiedBy := some satisfiedBy })

/-- The refusals of a vote on an open question. -/
def voteRefused (q : Quorum) (ticket : QuorumTicket) (cast : Cast) : Bool :=
  decide (q.candidateHash ≠ ticket.candidateHash ∨ q.component ≠ ticket.component) ||
    (decide (q.approvers ≠ []) && decide (cast.voter ∉ q.approvers)) ||
    decide (cast.voter = q.proposer) ||
    decide (cast.voter ∈ q.votes.map Prod.fst) ||
    ((Assoc.get? q.principals cast.principal).any fun prior => decide (prior ≠ cast.voter))

/-- `_cast_vote` past the binding of the cast. -/
def countVote (env : QuorumEnv) (bound : Option Operator) (ticket : QuorumTicket)
    (request : Request) (q : Quorum) (cast : Cast) (vote : String) (s : QuorumState) :
    QuorumState :=
  if vote ≠ "approve" ∧ vote ≠ "deny" then s
  else if q.outcome.isSome ∧ q.outcome ≠ some .expired then s
  else
    match q.lapse (s.now env) with
    | (true, q) => (s.tick env).set request q
    | (false, q) =>
      if voteRefused q ticket cast then s.tick env
      else
        let s := s.tick env
        let q := q.vote cast vote (backing bound cast) (s.now env)
        if vote = "approve" ∧ q.require ≤ q.counted then
          decideSatisfied env request q .votes (s.tick env)
        else (s.tick env).set request q.deny

/-- `_cast_vote`. -/
def castVote (env : QuorumEnv) (bound : Option Operator) (ticket : QuorumTicket)
    (rule : QuorumRule) (p : Presented) (vote : String) (s : QuorumState) : QuorumState :=
  match openQuorum env (tokenOf bound) ticket rule s with
  | (s, none) => s
  | (s, some q) =>
    let request := s.request ticket.hash
    match resolveCast env bound (s.now env) p
        ⟨request, q.candidateHash, q.component, "vote", some vote, p.asToken⟩ with
    | .error _ => s.tick env
    | .ok cast =>
      let s := s.tick env
      let s := { s with casts := s.casts ++ [⟨request, cast.voter, vote, s.now env, q.outcome⟩] }
      countVote env bound ticket request q cast vote s

/-- `approve_ticket`. The refusals of the single-party path are not read here. -/
def approveTicket (env : QuorumEnv) (bound : Option Operator) (hash : String) (p : Presented)
    (vote : String) (s : QuorumState) : QuorumState :=
  match s.ticket hash, env.shape hash with
  | some ticket, .ok (some rule) => castVote env bound ticket rule p vote s
  | some _, .ok none =>
    if s.ledger.any fun e => decide (e.request = s.request hash) then s
    else mintTicketEntry env hash none s
  | _, _ => s

/-- An act that closes a question, past the binding of its actor. -/
inductive Closing where
  | override
  | escalate
  | revoke
  deriving DecidableEq

def Closing.name : Closing → String
  | .override => "override"
  | .escalate => "escalate"
  | .revoke => "revoke"

/-- Whether the actor may, and the question may still be closed so. -/
def Closing.refused (act : Closing) (q : Quorum) (cast : Cast) (reason : Bool) : Bool :=
  match act with
  | .override => !reason ||
      (q.outcome.isSome && decide (q.outcome ≠ some .expired ∧ q.outcome ≠ some .escalated))
  | .escalate => (decide (q.approvers ≠ []) && decide (cast.voter ≠ q.proposer) &&
        decide (cast.voter ∉ q.approvers)) ||
      (q.outcome.isSome && decide (q.outcome ≠ some .expired))
  | .revoke => (decide (q.approvers ≠ []) && decide (cast.voter ≠ q.proposer) &&
      decide (cast.voter ∉ q.approvers)) || q.outcome.isSome

/-- `override_ticket`, `escalate_ticket` and `revoke_ticket` of a question with a quorum. A
revocation does not ask for the deadline. -/
def closeQuestion (env : QuorumEnv) (bound : Option Operator) (act : Closing) (hash : String)
    (p : Presented) (reason : Bool) (s : QuorumState) : QuorumState :=
  match s.ticket hash, env.shape hash with
  | some ticket, .ok (some rule) =>
    if rule.require ≤ 1 then s
    else
      match openQuorum env (tokenOf bound) ticket rule s with
      | (s, none) => s
      | (s, some q) =>
        let request := s.request hash
        match resolveCast env bound (s.now env) p
            ⟨request, q.candidateHash, q.component, act.name, none, p.asToken⟩ with
        | .error _ => s.tick env
        | .ok cast =>
          let s := s.tick env
          if act.refused q cast reason then s
          else
            match act with
            | .revoke => s.set request (q.close .revoked)
            | .escalate =>
              match q.lapse (s.now env) with
              | (true, q) => (s.tick env).set request q
              | (false, q) => (s.tick env).set request (q.close .escalated)
            | .override =>
              match q.lapse (s.now env) with
              | (true, q) => (s.tick env).set request q
              | (false, q) => decideSatisfied env request q .override (s.tick env)
  | _, _ => s

/-! ## What a record says of the casts -/

/-- A bound operator of the profile is what a cast falls back on. -/
def Enrolled (env : QuorumEnv) (bound : Option Operator) : Prop :=
  ∀ o ∈ bound, ∃ operators, env.registry = some operators ∧ o ∈ operators

/-- No other operator of the profile declares the credential of the bound one. -/
def Unshared (env : QuorumEnv) (bound : Option Operator) : Prop :=
  ∀ o ∈ bound, ∀ operators, env.registry = some operators → ∀ o' ∈ operators,
    o'.token ≠ o.token → ∀ c, o.credential = some c → o'.credential ≠ some c

/-- What stands behind a voter's row. -/
def Backed (env : QuorumEnv) (voter : String) (row : VoteRow) : Prop :=
  match row.principal with
  | .session token => voter = token ∧ ∀ c ∈ row.backing, ∃ operators,
      env.registry = some operators ∧ (∃ o ∈ operators, o.token = token ∧ o.credential = some c) ∧
        ∀ o ∈ operators, o.token ≠ token → o.credential ≠ some c
  | .credential c => row.backing = some c ∧ ∃ operators, env.registry = some operators ∧
      ∃ o ∈ operators, o.token = voter ∧ o.credential = some c

/-- **Two rows under different names and principals have different credentials.** -/
theorem Backed.ne {env : QuorumEnv} {voter voter' : String} {row row' : VoteRow}
    (h : Backed env voter row) (h' : Backed env voter' row') (hvoter : voter ≠ voter')
    (hprincipal : row.principal ≠ row'.principal) {c : Credential} (hc : row.backing = some c) :
    row'.backing ≠ some c := by
  -- the operator behind either row declares the credential
  have hdeclares : ∀ {voter row}, Backed env voter row → row.backing = some c →
      ∃ operators, env.registry = some operators ∧
        ∃ o ∈ operators, o.token = voter ∧ o.credential = some c := by
    intro voter row h hc
    rw [Backed] at h
    cases hp : row.principal with
    | session token =>
      rw [hp] at h
      obtain ⟨rfl, hown⟩ := h
      obtain ⟨operators, hreg, hdeclared, -⟩ := hown c hc
      exact ⟨operators, hreg, hdeclared⟩
    | credential c' =>
      rw [hp] at h
      obtain rfl := Option.some.inj (h.1.symm.trans hc)
      exact h.2
  have hexclusive : ∀ {voter voter' row row'}, Backed env voter row → Backed env voter' row' →
      voter ≠ voter' → row.backing = some c → row'.backing = some c →
        ∀ token, row.principal ≠ .session token := by
    intro voter voter' row row' h h' hne hc hc' token hp
    obtain ⟨operators', hreg', o, ho, htoken, hcred⟩ := hdeclares h' hc'
    rw [Backed, hp] at h
    obtain ⟨rfl, hown⟩ := h
    obtain ⟨operators, hreg, -, hothers⟩ := hown c hc
    obtain rfl : operators = operators' := Option.some.inj (hreg.symm.trans hreg')
    exact hothers o ho (htoken ▸ Ne.symm hne) hcred
  intro hc'
  cases hp : row.principal with
  | session token => exact hexclusive h h' hvoter hc hc' token hp
  | credential c₁ =>
    cases hp' : row'.principal with
    | session token => exact hexclusive h' h (Ne.symm hvoter) hc' hc token hp'
    | credential c₂ =>
      rw [Backed, hp] at h
      rw [Backed, hp'] at h'
      have h₁ : c₁ = c := Option.some.inj (h.1.symm.trans hc)
      have h₂ : c₂ = c := Option.some.inj (h'.1.symm.trans hc')
      exact hprincipal (by rw [hp, hp', h₁, h₂])

/-- **A cast that was bound is backed.** -/
theorem resolveCast_backed {env : QuorumEnv} {bound : Option Operator} {now : Int} {p : Presented}
    {binding : CastBinding} {cast : Cast} (henrolled : Enrolled env bound)
    (hunshared : Unshared env bound)
    (h : resolveCast env bound now p binding = .ok cast) (vote : String) (castAt : Int) :
    Backed env cast.voter ⟨vote, castAt, cast.principal, backing bound cast⟩ := by
  have hsession : ∀ {cast : Cast}, (if bound.any fun o => env.lapsed o now then
        (Except.error CastRefusal.lapsedCredential : Except CastRefusal Cast)
      else .ok ⟨(bound.map Operator.token).getD "",
        .session ((bound.map Operator.token).getD "")⟩) = .ok cast →
      Backed env cast.voter ⟨vote, castAt, cast.principal, backing bound cast⟩ := by
    intro cast h
    split_ifs at h
    obtain rfl := Except.ok.inj h
    refine ⟨rfl, fun c hc => ?_⟩
    cases bound with
    | none => exact nomatch hc
    | some o =>
      obtain ⟨operators, hreg, ho⟩ := henrolled o rfl
      exact ⟨operators, hreg, ⟨o, ho, rfl, hc⟩, fun o' ho' hne =>
        hunshared o rfl operators hreg o' ho' hne c hc⟩
  rw [resolveCast] at h
  cases hasToken : p.asToken with
  | none =>
    rw [hasToken] at h
    dsimp only at h
    by_cases hpresented : (p.asSecret.isSome || p.asProof.isSome) = true
    · rw [if_pos hpresented] at h
      exact nomatch h
    · rw [if_neg hpresented] at h
      exact hsession h
  | some asToken =>
    rw [hasToken] at h
    dsimp only at h
    by_cases hown : bound.map Operator.token = some asToken ∧ p.asSecret = none ∧ p.asProof = none
    · rw [if_pos hown] at h
      exact hsession h
    rw [if_neg hown] at h
    cases hreg : env.registry with
    | none =>
      rw [hreg] at h
      exact nomatch h
    | some operators =>
      rw [hreg] at h
      dsimp only at h
      cases hfind : operators.find? fun o => decide (o.token = asToken) with
      | none =>
        rw [hfind] at h
        exact nomatch h
      | some o =>
        rw [hfind] at h
        dsimp only at h
        have ho := List.mem_of_find?_eq_some hfind
        have htoken : o.token = asToken := by simpa using List.find?_some hfind
        split_ifs at h
        cases hsign : o.signKey with
        | some publicKey =>
          rw [hsign] at h
          cases hproof : p.asProof with
          | none =>
            rw [hproof] at h
            exact nomatch h
          | some proof =>
            rw [hproof] at h
            dsimp only at h
            split_ifs at h
            obtain rfl := Except.ok.inj h
            refine ⟨rfl, operators, hreg, o, ho, htoken, ?_⟩
            rw [Operator.credential, hsign]
        | none =>
          rw [hsign] at h
          cases hproof : p.asProof with
          | some proof =>
            rw [hproof] at h
            exact nomatch h
          | none =>
            rw [hproof] at h
            dsimp only at h
            cases hkey : o.voteKey with
            | none =>
              rw [hkey] at h
              exact nomatch h
            | some voteKey =>
              rw [hkey] at h
              cases hsecret : p.asSecret with
              | none =>
                rw [hsecret] at h
                exact nomatch h
              | some secret =>
                rw [hsecret] at h
                dsimp only at h
                split_ifs at h
                obtain rfl := Except.ok.inj h
                refine ⟨rfl, operators, hreg, o, ho, htoken, ?_⟩
                rw [Operator.credential, hsign, hkey]
                rfl

/-- A cast for the voter, on the question while it was open and in time. -/
def Casted (casts : List CastEvent) (request : Request) (expiresAt : Option Int)
    (voter vote : String) : Prop :=
  ∃ c ∈ casts, c.request = request ∧ c.voter = voter ∧ c.vote = vote ∧ c.outcome = none ∧
    ¬ Lapsed c.castAt expiresAt

/-- A record and the casts it counts. -/
structure RecordInv (env : QuorumEnv) (casts : List CastEvent) (request : Request) (q : Quorum) :
    Prop where
  rule : ∃ rule, env.shape request.1 = .ok (some rule) ∧ q.require = rule.require ∧
    q.approvers = rule.approvers
  names : (q.votes.map Prod.fst).Nodup
  principals : ∀ p ∈ q.votes, Assoc.get? q.principals p.2.principal = some p.1
  voters : ∀ p ∈ q.votes, p.1 ∈ q.approvers ∧ p.1 ≠ q.proposer ∧ Backed env p.1 p.2 ∧
    Casted casts request q.expiresAt p.1 p.2.vote
  opened : q.outcome = none → q.closedOnce = false
  closed : q.closedOnce = true → q.satisfiedBy ≠ some .votes
  unsettled : q.outcome ≠ some .satisfied → q.satisfiedBy = none

theorem RecordInv.mono {env : QuorumEnv} {casts : List CastEvent} {request : Request} {q : Quorum}
    (h : RecordInv env casts request q) (new : List CastEvent) :
    RecordInv env (casts ++ new) request q where
  rule := h.rule
  names := h.names
  principals := h.principals
  voters p hp := by
    obtain ⟨hmem, hne, hbacked, c, hc, hcast⟩ := h.voters p hp
    exact ⟨hmem, hne, hbacked, c, List.mem_append_left _ hc, hcast⟩
  opened := h.opened
  closed := h.closed
  unsettled := h.unsettled

theorem newQuorum_inv {env : QuorumEnv} {casts : List CastEvent} {request : Request}
    {ticket : QuorumTicket} {rule : QuorumRule} (hrequest : request.1 = ticket.hash)
    (hrule : env.shape ticket.hash = .ok (some rule)) (proposer : String) (now : Int) :
    RecordInv env casts request (newQuorum env ticket rule proposer now) where
  rule := ⟨rule, by rw [hrequest]; exact hrule, rfl, rfl⟩
  names := List.nodup_nil
  principals _ h := absurd h List.not_mem_nil
  voters _ h := absurd h List.not_mem_nil
  opened _ := rfl
  closed h := nomatch h
  unsettled _ := rfl

/-- Closing a question without votes. -/
theorem RecordInv.close {env : QuorumEnv} {casts : List CastEvent} {request : Request} {q : Quorum}
    (h : RecordInv env casts request q) (hnot : q.outcome ≠ some .satisfied) (outcome : Outcome) :
    RecordInv env casts request (q.close outcome) := by
  have hnone := h.unsettled hnot
  refine ⟨h.rule, h.names, h.principals, h.voters, nofun, fun _ => ?_, fun _ => hnone⟩
  show q.satisfiedBy ≠ some .votes
  rw [hnone]
  nofun

/-- **A vote that is not refused is one more name under one more principal.** -/
theorem RecordInv.vote {env : QuorumEnv} {casts : List CastEvent} {request : Request} {q : Quorum}
    (h : RecordInv env casts request q) {ticket : QuorumTicket} {cast : Cast} {vote : String}
    {credential : Option Credential} {now : Int}
    (hrefused : voteRefused q ticket cast = false)
    (hbacked : Backed env cast.voter ⟨vote, now, cast.principal, credential⟩)
    (hcasted : Casted casts request q.expiresAt cast.voter vote) :
    RecordInv env casts request (q.vote cast vote credential now) := by
  rw [voteRefused, Bool.or_eq_false_iff, Bool.or_eq_false_iff, Bool.or_eq_false_iff,
    Bool.or_eq_false_iff] at hrefused
  obtain ⟨⟨⟨⟨-, hnamed⟩, hproposer⟩, hduplicate⟩, hprincipal⟩ := hrefused
  have happrover : cast.voter ∈ q.approvers := by
    obtain ⟨rule, -, -, happrovers⟩ := h.rule
    have hsome : q.approvers ≠ [] := by
      rw [happrovers]
      exact rule.named
    by_contra hnot
    simp [hsome, hnot] at hnamed
  have hnew : cast.voter ∉ q.votes.map Prod.fst := of_decide_eq_false hduplicate
  have hfresh : ∀ p ∈ q.votes, p.2.principal ≠ cast.principal := by
    intro p hp heq
    have hprior := h.principals p hp
    rw [heq] at hprior
    rw [hprior] at hprincipal
    have hsame : p.1 = cast.voter := by simpa using hprincipal
    exact hnew (hsame ▸ List.mem_map_of_mem hp)
  refine ⟨h.rule, ?_, fun p hp => ?_, fun p hp => ?_, h.opened, h.closed, h.unsettled⟩
  · show ((q.votes ++ [_]).map Prod.fst).Nodup
    rw [List.map_append, List.nodup_append_comm]
    exact List.nodup_cons.2 ⟨hnew, h.names⟩
  · show Assoc.get? (q.principals ++ [_]) _ = _
    rw [Assoc.get?_append, Assoc.get?_cons]
    rcases List.mem_append.1 hp with hp | hp
    · rw [if_neg (Ne.symm (hfresh p hp))]
      exact h.principals p hp
    · rw [List.mem_singleton.1 hp, if_pos rfl]
      rfl
  · rcases List.mem_append.1 hp with hp | hp
    · exact h.voters p hp
    · rw [List.mem_singleton.1 hp]
      exact ⟨happrover, of_decide_eq_false hproposer, hbacked, hcasted⟩

theorem not_lapsed_of_expired {deadline latch latch' : Option Int} {now : Int}
    (h : expired deadline latch now = (false, latch')) : ¬ Lapsed now deadline :=
  expired_false (congrArg Prod.fst h)

/-- What a lapse leaves, and what it says of a question that has not lapsed. -/
theorem lapse_inv {env : QuorumEnv} {casts : List CastEvent} {request : Request} {q : Quorum}
    (h : RecordInv env casts request q) (hnot : q.outcome ≠ some .satisfied) (now : Int) :
    RecordInv env casts request (q.lapse now).2 ∧ ((q.lapse now).1 = false →
      (q.lapse now).2 = q ∧ q.outcome ≠ some .expired ∧ ¬ Lapsed now q.expiresAt) := by
  rw [Quorum.lapse]
  by_cases hdone : q.outcome = some .expired ∨ q.expiredAt.isSome
  · rw [if_pos hdone]
    exact ⟨h, nofun⟩
  rw [if_neg hdone]
  rcases hexp : expired q.expiresAt q.expiredAt now with ⟨past, latch⟩
  cases past with
  | false => exact ⟨h, fun _ => ⟨rfl, fun he => hdone (.inl he), not_lapsed_of_expired hexp⟩⟩
  | true =>
    dsimp only
    split_ifs
    · exact ⟨⟨h.rule, h.names, h.principals, h.voters, h.opened, h.closed, h.unsettled⟩, nofun⟩
    · have hclosed := h.close hnot .expired
      exact ⟨⟨hclosed.rule, hclosed.names, hclosed.principals, hclosed.voters, hclosed.opened,
        hclosed.closed, hclosed.unsettled⟩, nofun⟩

/-! ## The records and the ledger -/

/-- What was minted, and by what. -/
def QuorumState.mints (s : QuorumState) : List (Request × Option SatisfiedBy) :=
  s.ledger.map fun e => (e.request, e.satisfiedBy)

structure QuorumInv (env : QuorumEnv) (s : QuorumState) : Prop where
  records : ∀ request q, s.quorums request = some q → RecordInv env s.casts request q
  entries : ∀ m ∈ s.mints, (env.shape m.1.1 = .ok none ∧ m.2 = none) ∨
    ∃ q, s.quorums m.1 = some q ∧ q.outcome = some .satisfied ∧ q.satisfiedBy = m.2 ∧
      (m.2 = some .votes → q.require ≤ q.counted)
  once : (s.mints.map Prod.fst).Nodup

/-- Nothing was minted for a question that is not satisfied. -/
theorem QuorumInv.unminted {env : QuorumEnv} {s : QuorumState} (hs : QuorumInv env s)
    {request : Request} {rule : QuorumRule} (hrule : env.shape request.1 = .ok (some rule))
    (hnot : ∀ q, s.quorums request = some q → q.outcome ≠ some .satisfied) :
    ∀ m ∈ s.mints, m.1 ≠ request := by
  rintro m hm rfl
  rcases hs.entries m hm with ⟨hsingle, -⟩ | ⟨q, hq, hsat, -⟩
  · rw [hrule] at hsingle
    exact nomatch hsingle
  · exact hnot q hq hsat

theorem QuorumInv.tick {env : QuorumEnv} {s : QuorumState} (hs : QuorumInv env s) :
    QuorumInv env (s.tick env) :=
  ⟨hs.records, hs.entries, hs.once⟩

/-- **Rewriting the record of a question that is not satisfied keeps the invariant.** -/
theorem QuorumInv.set {env : QuorumEnv} {s : QuorumState} (hs : QuorumInv env s)
    {request : Request} {q' : Quorum}
    (hnot : ∀ q, s.quorums request = some q → q.outcome ≠ some .satisfied)
    (hq' : RecordInv env s.casts request q') : QuorumInv env (s.set request q') := by
  obtain ⟨rule, hrule, -, -⟩ := hq'.rule
  have hunminted := hs.unminted hrule hnot
  refine ⟨fun request' q hq => ?_, fun m hm => ?_, hs.once⟩
  · replace hq : Function.update s.quorums request (some q') request' = some q := hq
    by_cases hr : request' = request
    · subst hr
      rw [Function.update_self] at hq
      obtain rfl := Option.some.inj hq
      exact hq'
    · rw [Function.update_of_ne hr] at hq
      exact hs.records request' q hq
  · refine (hs.entries m hm).imp_right ?_
    rintro ⟨q, hq, hrest⟩
    refine ⟨q, ?_, hrest⟩
    show Function.update s.quorums request (some q') m.1 = some q
    rwa [Function.update_of_ne (hunminted m hm)]

/-- **A question that is satisfied mints its one entry.** -/
theorem QuorumInv.satisfied {env : QuorumEnv} {s : QuorumState} (hs : QuorumInv env s)
    {request : Request} {q : Quorum} (hrequest : s.request request.1 = request)
    (hnot : ∀ q, s.quorums request = some q → q.outcome ≠ some .satisfied)
    (hq : RecordInv env s.casts request q) {satisfiedBy : SatisfiedBy}
    (hvotes : satisfiedBy = .votes → q.outcome = none ∧ q.require ≤ q.counted) :
    QuorumInv env (decideSatisfied env request q satisfiedBy s) := by
  obtain ⟨rule, hrule, -, -⟩ := hq.rule
  have hunminted := hs.unminted hrule hnot
  have hmints : (decideSatisfied env request q satisfiedBy s).mints =
      s.mints ++ [(request, some satisfiedBy)] := by
    show (s.ledger ++ [_]).map _ = _
    rw [List.map_append, List.map_singleton]
    exact congrArg (fun r => s.mints ++ [(r, some satisfiedBy)]) hrequest
  have hq' : RecordInv env s.casts request
      { q with outcome := some .satisfied, satisfiedBy := some satisfiedBy } := by
    refine ⟨hq.rule, hq.names, hq.principals, hq.voters, (fun h => by cases h), fun hclosed => ?_,
      fun h => absurd rfl h⟩
    rintro hby
    obtain rfl := Option.some.inj hby
    have hopen := hq.opened (hvotes rfl).1
    rw [hopen] at hclosed
    cases hclosed
  have hset := hs.set hnot hq'
  refine ⟨hset.records, fun m hm => ?_, ?_⟩
  · rw [hmints] at hm
    rcases List.mem_append.1 hm with hm | hm
    · exact hset.entries m hm
    · rw [List.mem_singleton.1 hm]
      refine .inr ⟨_, Function.update_self _ _ _, rfl, rfl, fun hby => ?_⟩
      exact (hvotes (Option.some.inj hby)).2
  · rw [hmints, List.map_append, List.nodup_append_comm]
    refine List.nodup_cons.2 ⟨fun hmem => ?_, hs.once⟩
    obtain ⟨m, hm, hmr⟩ := List.mem_map.1 hmem
    exact hunminted m hm hmr

theorem openQuorum_inv {env : QuorumEnv} {ticket : QuorumTicket} {rule : QuorumRule}
    {s : QuorumState} (hs : QuorumInv env s) (proposer : String)
    (hrule : env.shape ticket.hash = .ok (some rule)) :
    QuorumInv env (openQuorum env proposer ticket rule s).1 ∧
      (openQuorum env proposer ticket rule s).1.rounds = s.rounds ∧
      ∀ q, (openQuorum env proposer ticket rule s).2 = some q →
        (openQuorum env proposer ticket rule s).1.quorums (s.request ticket.hash) = some q := by
  rw [openQuorum]
  cases hq : s.quorums (s.request ticket.hash) with
  | some q =>
    refine ⟨hs, rfl, fun q' h => ?_⟩
    obtain rfl := Option.some.inj h
    exact hq
  | none =>
    dsimp only
    split_ifs
    · exact ⟨hs, rfl, fun _ h => nomatch h⟩
    · refine ⟨hs.tick.set (fun q hq' => ?_) (newQuorum_inv rfl hrule _ _), rfl, fun q h => ?_⟩
      · rw [show (s.tick env).quorums = s.quorums from rfl, hq] at hq'
        exact nomatch hq'
      · obtain rfl := Option.some.inj h
        exact Function.update_self _ _ _

/-- **A bound cast counts at most once, and what it closes mints at most once.** -/
theorem countVote_inv {env : QuorumEnv} {bound : Option Operator} {ticket : QuorumTicket}
    {request : Request} {q : Quorum} {cast : Cast} {vote : String} {s : QuorumState}
    (hs : QuorumInv env s) (hrequest : s.request request.1 = request)
    (hq : s.quorums request = some q)
    (hcast : ⟨request, cast.voter, vote, s.now env, q.outcome⟩ ∈ s.casts)
    (hbacked : ∀ castAt, Backed env cast.voter ⟨vote, castAt, cast.principal, backing bound cast⟩) :
    QuorumInv env (countVote env bound ticket request q cast vote s) := by
  rw [countVote]
  split_ifs with hmalformed hclosed
  · exact hs
  · exact hs
  have hnot : q.outcome ≠ some .satisfied := fun hsat => hclosed ⟨by rw [hsat]; rfl, by
    rw [hsat]
    nofun⟩
  have hnot' : ∀ q', (s.tick env).quorums request = some q' → q'.outcome ≠ some .satisfied := by
    intro q' hq'
    obtain rfl : q = q' := Option.some.inj (hq.symm.trans hq')
    exact hnot
  obtain ⟨hlapsed, hopen⟩ := lapse_inv (hs.records request q hq) hnot (s.now env)
  rcases hlapse : q.lapse (s.now env) with ⟨past, q₁⟩
  rw [hlapse] at hlapsed hopen
  cases past with
  | true => exact hs.tick.set hnot' hlapsed
  | false =>
    obtain ⟨rfl, hunexpired, htimely⟩ := hopen rfl
    dsimp only
    split_ifs with hrefused hcounted
    · exact hs.tick
    all_goals
      have hnone : q₁.outcome = none := by
        by_contra hsome
        exact hclosed ⟨Option.isSome_iff_ne_none.2 hsome, hunexpired⟩
      have hvoted : RecordInv env s.casts request
          (q₁.vote cast vote (backing bound cast) ((s.tick env).now env)) :=
        hlapsed.vote (by simpa using hrefused) (hbacked _)
          ⟨_, hcast, rfl, rfl, rfl, hnone, htimely⟩
    · exact QuorumInv.satisfied hs.tick.tick hrequest hnot' hvoted fun _ => ⟨hnone, hcounted.2⟩
    · refine hs.tick.tick.set hnot' ?_
      rw [Quorum.deny]
      split_ifs
      · exact hvoted
      · exact hvoted.close hnot .denied

theorem castVote_inv {env : QuorumEnv} {bound : Option Operator} {ticket : QuorumTicket}
    {rule : QuorumRule} {p : Presented} {vote : String} {s : QuorumState} (hs : QuorumInv env s)
    (hrule : env.shape ticket.hash = .ok (some rule)) (henrolled : Enrolled env bound)
    (hunshared : Unshared env bound) :
    QuorumInv env (castVote env bound ticket rule p vote s) := by
  obtain ⟨hopened, hrounds, hrecord⟩ := openQuorum_inv hs (tokenOf bound) hrule
  rw [castVote]
  rcases hopen : openQuorum env (tokenOf bound) ticket rule s with ⟨s₁, q⟩
  rw [hopen] at hopened hrounds hrecord
  cases q with
  | none => exact hopened
  | some q =>
    have hq : s₁.quorums (s₁.request ticket.hash) = some q := by
      rw [QuorumState.request, show s₁.rounds = s.rounds from hrounds]
      exact hrecord q rfl
    dsimp only
    rcases hresolve : resolveCast env bound (s₁.now env) p
      ⟨s₁.request ticket.hash, q.candidateHash, q.component, "vote", some vote, p.asToken⟩ with
      refusal | cast
    · exact hopened.tick
    · -- the cast is on the record before anything is asked of it
      have hlogged : QuorumInv env { s₁.tick env with
          casts := s₁.casts ++ [⟨s₁.request ticket.hash, cast.voter, vote, (s₁.tick env).now env,
            q.outcome⟩] } :=
        ⟨fun request q hq => (hopened.records request q hq).mono _, hopened.entries, hopened.once⟩
      exact countVote_inv hlogged rfl hq (List.mem_append_right _ (List.mem_singleton_self _))
        (resolveCast_backed henrolled hunshared hresolve vote)

theorem ticket_hash {s : QuorumState} {hash : String} {ticket : QuorumTicket}
    (h : s.ticket hash = some ticket) : ticket.hash = hash := by
  simpa using List.find?_some h

theorem approveTicket_inv {env : QuorumEnv} {bound : Option Operator} {hash : String}
    {p : Presented} {vote : String} {s : QuorumState} (hs : QuorumInv env s)
    (henrolled : Enrolled env bound) (hunshared : Unshared env bound) :
    QuorumInv env (approveTicket env bound hash p vote s) := by
  rw [approveTicket]
  split
  · next ticket rule hticket hrule =>
    have hhash := ticket_hash hticket
    exact castVote_inv hs (hhash ▸ hrule) henrolled hunshared
  · next ticket hticket hrule =>
    split_ifs with hminted
    · exact hs
    · have hnew : ∀ m ∈ s.mints, m.1 ≠ s.request hash := by
        rintro m hm hmr
        obtain ⟨e, he, rfl⟩ := List.mem_map.1 hm
        exact hminted (List.any_eq_true.2 ⟨e, he, decide_eq_true hmr⟩)
      have hmints : (mintTicketEntry env hash none s).mints =
          s.mints ++ [(s.request hash, none)] := by
        show (s.ledger ++ [_]).map _ = _
        rw [List.map_append, List.map_singleton]
        rfl
      refine ⟨hs.records, fun m hm => ?_, ?_⟩
      · rw [hmints] at hm
        rcases List.mem_append.1 hm with hm | hm
        · exact hs.entries m hm
        · rw [List.mem_singleton.1 hm]
          exact .inl ⟨hrule, rfl⟩
      · rw [hmints, List.map_append, List.nodup_append_comm]
        refine List.nodup_cons.2 ⟨fun hmem => ?_, hs.once⟩
        obtain ⟨m, hm, hmr⟩ := List.mem_map.1 hmem
        exact hnew m hm hmr
  · exact hs

theorem closeQuestion_inv {env : QuorumEnv} {bound : Option Operator} {act : Closing}
    {hash : String} {p : Presented} {reason : Bool} {s : QuorumState} (hs : QuorumInv env s) :
    QuorumInv env (closeQuestion env bound act hash p reason s) := by
  rw [closeQuestion]
  split
  · next ticket rule hticket hrule =>
    have hhash := ticket_hash hticket
    subst hhash
    split_ifs
    · exact hs
    obtain ⟨hopened, hrounds, hrecord⟩ := openQuorum_inv hs (tokenOf bound) hrule
    rcases hopen : openQuorum env (tokenOf bound) ticket rule s with ⟨s₁, q⟩
    rw [hopen] at hopened hrounds hrecord
    cases q with
    | none => exact hopened
    | some q =>
      have hq : s₁.quorums (s₁.request ticket.hash) = some q := by
        rw [QuorumState.request, show s₁.rounds = s.rounds from hrounds]
        exact hrecord q rfl
      dsimp only
      rcases resolveCast env bound (s₁.now env) p
        ⟨s₁.request ticket.hash, q.candidateHash, q.component, act.name, none, p.asToken⟩ with
        refusal | cast
      · exact hopened.tick
      dsimp only
      split_ifs with hrefused
      · exact hopened.tick
      -- what may still be closed was not satisfied
      have hnot : q.outcome ≠ some .satisfied := by
        intro hsat
        refine hrefused ?_
        cases act with
        | override => simp [Closing.refused, hsat]
        | escalate => simp [Closing.refused, hsat]
        | revoke => simp [Closing.refused, hsat]
      have hnot' : ∀ q', s₁.quorums (s₁.request ticket.hash) = some q' →
          q'.outcome ≠ some .satisfied := by
        intro q' hq'
        obtain rfl : q = q' := Option.some.inj (hq.symm.trans hq')
        exact hnot
      have hq₁ := hopened.records _ q hq
      obtain ⟨hlapsed, hopenq⟩ := lapse_inv hq₁ hnot ((s₁.tick env).now env)
      cases act with
      | revoke => exact hopened.tick.set hnot' (hq₁.close hnot .revoked)
      | escalate =>
        dsimp only
        rcases hlapse : q.lapse ((s₁.tick env).now env) with ⟨past, q₂⟩
        rw [hlapse] at hlapsed hopenq
        cases past with
        | true => exact hopened.tick.tick.set hnot' hlapsed
        | false =>
          obtain ⟨rfl, -, -⟩ := hopenq rfl
          exact hopened.tick.tick.set hnot' (hlapsed.close hnot .escalated)
      | override =>
        dsimp only
        rcases hlapse : q.lapse ((s₁.tick env).now env) with ⟨past, q₂⟩
        rw [hlapse] at hlapsed hopenq
        cases past with
        | true => exact hopened.tick.tick.set hnot' hlapsed
        | false =>
          obtain ⟨rfl, -, -⟩ := hopenq rfl
          exact QuorumInv.satisfied hopened.tick.tick rfl hnot' hlapsed nofun
  · exact hs

/-- A search of the ledger only latches. -/
theorem spendableEntry_mints (now : Int) (hash : String) (ledger : List QuorumEntry) :
    ((spendableEntry now hash ledger).2.map fun e => (e.request, e.satisfiedBy)) =
      ledger.map fun e => (e.request, e.satisfiedBy) := by
  induction ledger with
  | nil => rfl
  | cons e es ih =>
    rw [spendableEntry]
    split_ifs
    · rw [List.map_cons, List.map_cons, ih]
    · rcases expired e.expiresAt e.expiredAt now with ⟨past, latch⟩
      cases past with
      | true =>
        dsimp only
        rw [List.map_cons, List.map_cons, ih]
      | false => rfl

theorem issueQuestion_inv {env : QuorumEnv} {bound : Option Operator} {ticket : QuorumTicket}
    {s : QuorumState} (hs : QuorumInv env s) :
    QuorumInv env (issueQuestion env bound ticket s) := by
  rw [issueQuestion]
  cases hshape : env.shape ticket.hash with
  | error e => exact hs
  | ok rule =>
    dsimp only
    by_cases hshort : (rule.any fun rule => quorumShortfall rule (tokenOf bound)) = true
    · rw [if_pos hshort]
      exact hs
    rw [if_neg hshort]
    have hmints := spendableEntry_mints (s.now env) ticket.hash s.ledger
    have hasked : ∀ (rounds : String → Nat), QuorumInv env { s.tick env with
        tickets := s.tickets.filter (fun t => t.hash ≠ ticket.hash) ++ [ticket]
        ledger := (spendableEntry (s.now env) ticket.hash s.ledger).2
        rounds := rounds } := by
      intro rounds
      refine ⟨hs.records, fun m hm => hs.entries m ?_, ?_⟩
      · rw [QuorumState.mints] at hm ⊢
        rwa [hmints] at hm
      · rw [QuorumState.mints, hmints]
        exact hs.once
    cases rule with
    | none => exact hasked _
    | some rule => exact (openQuorum_inv (hasked _) (tokenOf bound) hshape).1

/-! ## Runs -/

/-- What happens on a session. The operator it is bound to may change from one request to the next,
and a vote is cast under a binding of which `admits` holds. -/
inductive QuorumStep (env : QuorumEnv) (admits : Option Operator → Prop) :
    QuorumState → QuorumState → Prop where
  | issue {s : QuorumState} (bound : Option Operator) (ticket : QuorumTicket) :
      QuorumStep env admits s (issueQuestion env bound ticket s)
  | approve {s : QuorumState} {bound : Option Operator} (henrolled : Enrolled env bound)
      (hadmits : admits bound) (hash : String) (p : Presented) (vote : String) :
      QuorumStep env admits s (approveTicket env bound hash p vote s)
  /-- An override, an escalation or a revocation. -/
  | close {s : QuorumState} (bound : Option Operator) (act : Closing) (hash : String)
      (p : Presented) (reason : Bool) :
      QuorumStep env admits s (closeQuestion env bound act hash p reason s)
  /-- An entry is spent at its crossing, or withdrawn. -/
  | consume {s : QuorumState} (request : Request) :
      QuorumStep env admits s { s with ledger := s.ledger.map fun e =>
        if e.request = request then { e with consumed := true } else e }
  /-- A new generation has no outstanding ticket. -/
  | generation {s : QuorumState} : QuorumStep env admits s { s with tickets := [] }
  /-- `_reset`. -/
  | unload {s : QuorumState} : QuorumStep env admits s
      ⟨[], fun _ => 0, fun _ => none, [], s.floor, s.ticks, []⟩

/-- The states of a session. -/
inductive Asked (env : QuorumEnv) (admits : Option Operator → Prop) : QuorumState → Prop where
  | start (floor : Int) : Asked env admits ⟨[], fun _ => 0, fun _ => none, [], floor, 0, []⟩
  | step {s s' : QuorumState} (hs : Asked env admits s) (h : QuorumStep env admits s s') :
      Asked env admits s'

theorem empty_inv (env : QuorumEnv) (floor : Int) (ticks : Nat) :
    QuorumInv env ⟨[], fun _ => 0, fun _ => none, [], floor, ticks, []⟩ :=
  ⟨fun _ _ h => (nomatch h), fun _ h => absurd h List.not_mem_nil, List.nodup_nil⟩

/-- **One step keeps the invariant.** -/
theorem quorumStep_inv {env : QuorumEnv} {s s' : QuorumState} (hs : QuorumInv env s)
    (h : QuorumStep env (Unshared env) s s') : QuorumInv env s' := by
  cases h with
  | issue bound ticket => exact issueQuestion_inv hs
  | approve henrolled hadmits hash p vote => exact approveTicket_inv hs henrolled hadmits
  | close bound act hash p reason => exact closeQuestion_inv hs
  | consume request =>
    have hmints : QuorumState.mints { s with ledger := s.ledger.map fun e =>
        if e.request = request then { e with consumed := true } else e } = s.mints := by
      rw [QuorumState.mints, QuorumState.mints, List.map_map]
      refine List.map_congr_left fun e _ => ?_
      show ((if e.request = request then { e with consumed := true } else e).request,
        (if e.request = request then { e with consumed := true } else e).satisfiedBy) = _
      split_ifs <;> rfl
    refine ⟨hs.records, fun m hm => hs.entries m ?_, ?_⟩
    · rwa [hmints] at hm
    · rw [hmints]
      exact hs.once
  | generation => exact ⟨hs.records, hs.entries, hs.once⟩
  | unload => exact empty_inv env _ _

theorem Asked.inv {env : QuorumEnv} {s : QuorumState} (h : Asked env (Unshared env) s) :
    QuorumInv env s := by
  induction h with
  | start floor => exact empty_inv env floor 0
  | step _ h ih => exact quorumStep_inv ih h

/-- The votes an entry was minted by. -/
structure VotedBy (s : QuorumState) (e : QuorumEntry) (rule : QuorumRule) (q : Quorum)
    (counted : List (String × VoteRow)) : Prop where
  names : (counted.map Prod.fst).Nodup
  enough : rule.require ≤ counted.length
  /-- Each is an approver of the rule and not the proposer, and cast an `approve` in the round, in
  time and while the question was open. -/
  casted : ∀ p ∈ counted, p.1 ∈ rule.approvers ∧ p.1 ≠ q.proposer ∧
    Casted s.casts e.request q.expiresAt p.1 "approve"
  distinct : ∀ p ∈ counted, ∀ p' ∈ counted, p.1 ≠ p'.1 → ∀ c, p.2.backing = some c →
    p'.2.backing ≠ some c

/-- **Quorum safety**, where no operator that a vote is bound to without a proof shares its
credential: an entry minted by votes was voted by N distinct approvers, none of them the proposer,
in its round, in time, on an open question and under distinct credentials; a round mints at most
one entry; and a round that was denied, expired, escalated or revoked mints none by votes. -/
theorem quorum_safety {env : QuorumEnv} {s : QuorumState} (hs : Asked env (Unshared env) s) :
    (∀ e ∈ s.ledger, e.satisfiedBy = some .votes → ∃ rule q counted,
      env.shape e.request.1 = .ok (some rule) ∧ s.quorums e.request = some q ∧
        VotedBy s e rule q counted) ∧
    (s.ledger.map QuorumEntry.request).Nodup ∧
    ∀ request q, s.quorums request = some q → q.closedOnce = true →
      ∀ e ∈ s.ledger, e.request = request → e.satisfiedBy ≠ some .votes := by
  have hinv := hs.inv
  have hmint : ∀ {e}, e ∈ s.ledger → (e.request, e.satisfiedBy) ∈ s.mints := fun he =>
    List.mem_map_of_mem (f := fun e : QuorumEntry => (e.request, e.satisfiedBy)) he
  refine ⟨fun e he hvotes => ?_, ?_, fun request q hq hclosed e he hrequest hvotes => ?_⟩
  · rcases hinv.entries _ (hmint he) with ⟨-, hnone⟩ | ⟨q, hq, -, -, henough⟩
    · replace hnone : e.satisfiedBy = none := hnone
      rw [hvotes] at hnone
      exact nomatch hnone
    have hrec := hinv.records e.request q hq
    obtain ⟨rule, hrule, hrequire, happrovers⟩ := hrec.rule
    have hkeep : ∀ p ∈ q.votes.filter fun p => p.2.vote == "approve",
        p ∈ q.votes ∧ p.2.vote = "approve" := fun p hp =>
      ⟨(List.mem_filter.1 hp).1, beq_iff_eq.1 (List.mem_filter.1 hp).2⟩
    refine ⟨rule, q, q.votes.filter fun p => p.2.vote == "approve", hrule, hq, ?_, ?_,
      fun p hp => ?_, fun p hp p' hp' hne c hc => ?_⟩
    · exact hrec.names.sublist (List.filter_sublist.map _)
    · rw [← hrequire, ← List.countP_eq_length_filter]
      exact henough hvotes
    · obtain ⟨hmem, hvote⟩ := hkeep p hp
      obtain ⟨happrover, hproposer, -, hcasted⟩ := hrec.voters p hmem
      rw [hvote] at hcasted
      exact ⟨happrovers ▸ happrover, hproposer, hcasted⟩
    · obtain ⟨hmem, -⟩ := hkeep p hp
      obtain ⟨hmem', -⟩ := hkeep p' hp'
      refine (hrec.voters p hmem).2.2.1.ne (hrec.voters p' hmem').2.2.1 hne (fun heq => ?_) hc
      have hprior := hrec.principals p hmem
      rw [heq, hrec.principals p' hmem'] at hprior
      exact hne (Option.some.inj hprior).symm
  · have honce := hinv.once
    rw [QuorumState.mints, List.map_map] at honce
    exact honce
  · rcases hinv.entries _ (hmint he) with ⟨-, hnone⟩ | ⟨q', hq', -, hby, -⟩
    · replace hnone : e.satisfiedBy = none := hnone
      rw [hvotes] at hnone
      exact nomatch hnone
    · replace hq' : s.quorums e.request = some q' := hq'
      rw [hrequest, hq] at hq'
      obtain rfl := Option.some.inj hq'
      exact (hinv.records request q hq).closed hclosed (hby.trans hvotes)

def alice : Operator := ⟨"alice", none, none⟩

def bob : Operator := ⟨"bob", some "K", none⟩

/-- `require 2 of {bob, carol}`, and a profile in which carol declares `carolKey`. -/
def twoOf (carolKey : String) : QuorumEnv where
  registry := some [alice, bob, ⟨"carol", some carolKey, none⟩]
  digest secret := secret
  verify _ _ _ := false
  lapsed _ _ := false
  shape _ := .ok (some ⟨2, ["bob", "carol"], List.cons_ne_nil _ _⟩)
  ttlMs _ := none
  clock _ := 0

/-- alice asks; bob votes as the operator the transport authenticated, and carol's vote comes with
the secret of `carolKey`. -/
def bothVoted (carolKey : String) : QuorumState :=
  approveTicket (twoOf carolKey) (some alice) "h" ⟨some "carol", some carolKey, none⟩ "approve"
    (approveTicket (twoOf carolKey) (some bob) "h" ⟨none, none, none⟩ "approve"
      (issueQuestion (twoOf carolKey) (some alice) ⟨"h", "candidate", "Main"⟩
        ⟨[], fun _ => 0, fun _ => none, [], 0, 0, []⟩))

theorem enrolled_twoOf {carolKey : String} {o : Operator} (h : o = alice ∨ o = bob) :
    Enrolled (twoOf carolKey) (some o) := by
  rintro _ ⟨⟩
  refine ⟨_, rfl, ?_⟩
  rcases h with rfl | rfl
  · exact List.mem_cons_self
  · exact List.mem_cons_of_mem _ List.mem_cons_self

theorem asked_bothVoted {carolKey : String} {admits : Option Operator → Prop}
    (halice : admits (some alice)) (hbob : admits (some bob)) :
    Asked (twoOf carolKey) admits (bothVoted carolKey) :=
  .step (.step (.step (.start 0) (.issue _ _)) (.approve (enrolled_twoOf (.inr rfl)) hbob _ _ _))
    (.approve (enrolled_twoOf (.inl rfl)) halice _ _ _)

theorem unshared_twoOf {o : Operator} (h : o = alice ∨ o = bob) :
    Unshared (twoOf "L") (some o) := by
  rintro _ ⟨⟩ operators hreg o' ho' hne c hc hc'
  obtain rfl := Option.some.inj hreg
  rcases h with rfl | rfl
  · exact nomatch hc
  · obtain rfl := Option.some.inj hc
    rcases List.mem_cons.1 ho' with rfl | ho'
    · exact nomatch hc'
    rcases List.mem_cons.1 ho' with rfl | ho'
    · exact hne rfl
    rw [List.mem_singleton.1 ho'] at hc'
    exact absurd hc' (by decide)

/-- Two keys, two votes. -/
theorem quorum_safety_two_keys :
    (bothVoted "L").ledger.map QuorumEntry.satisfiedBy = [some .votes] ∧
      ∀ e ∈ (bothVoted "L").ledger, e.satisfiedBy = some .votes → ∃ rule q counted,
        (twoOf "L").shape e.request.1 = .ok (some rule) ∧
          (bothVoted "L").quorums e.request = some q ∧
            VotedBy (bothVoted "L") e rule q counted :=
  ⟨by decide, (quorum_safety
    (asked_bothVoted (unshared_twoOf (.inl rfl)) (unshared_twoOf (.inr rfl)))).1⟩

/-- **One secret votes twice** where it is declared for the bound operator and for another: the
principal of a bound cast is its name, not its credential. -/
theorem shared_secret_votes_twice :
    Asked (twoOf "K") (fun _ => True) (bothVoted "K") ∧
      (bothVoted "K").ledger.map (fun e => (e.request, e.satisfiedBy)) =
        [(("h", 1), some .votes)] ∧
      ((bothVoted "K").quorums ("h", 1)).map (fun q =>
          q.votes.map fun p => (p.1, p.2.vote, p.2.backing)) =
        some [("bob", "approve", some (.key "K")), ("carol", "approve", some (.key "K"))] :=
  ⟨asked_bothVoted trivial trivial, by decide, by decide⟩

end Revl.Mcp
