import Revl.Mcp.Intent

/-!
# Standing grants

A standing grant is one operator's yes, recorded once. It is minted for a capability spelling, it
answers for the crossings it covers, and a revoke retires it.

- `Ticket`, `MintPolicy`, `mintGrant`: the mint, from a ticket or for a capability.
- `grantWithin`, `revokeStandingGrant`: what a revoke spelling retires.
- `liveGrantFor`: the grant that answers for a crossing.
- `mint_cover_revoke`: **a minted grant covers what is at or below the spelling it was stated in,
  and is retired by that spelling and every one above it.**
-/

namespace Revl.Mcp

open CapOrder
open Fallible (bind_ok)

/-! ## Coverage of spellings -/

/-- `_cap_covers`: the same spelling, or the order of the stored readings. -/
def capCovers (wide narrow : String) : Bool :=
  wide == narrow ||
    match parseStoredCap wide, parseStoredCap narrow with
    | .ok a, .ok b => covers a b
    | _, _ => false

/-! ## Grants -/

/-- An entry of `_grants`. -/
structure Grant where
  requestId : String
  capability : String
  candidateHash : String
  component : String
  session : String
  grantedAt : Int
  expiresAt : Option Int
  /-- The latch of an expiry that was observed. -/
  expiredAt : Option Int
  remainingUses : Option Int
  consumed : Bool
  revoked : Bool
  lease : Bool
  declaredCeilings : List (String × Int)
  deriving DecidableEq, Repr

/-- `_expired`, with the latch it leaves. -/
def Grant.expire (g : Grant) (now : Int) : Bool × Grant :=
  if g.expiredAt.isSome then (true, g)
  else if g.expiresAt.any fun expiresAt => decide (expiresAt < now) then
    (true, { g with expiredAt := some now })
  else (false, g)

@[simp] theorem Grant.expire_fst (g : Grant) (now : Int) :
    (g.expire now).1 =
      (g.expiredAt.isSome || g.expiresAt.any fun expiresAt => decide (expiresAt < now)) := by
  rw [Grant.expire]
  split_ifs with hlatch hpast
  · rw [hlatch, Bool.true_or]
  · rw [hpast, Bool.or_true]
  · simp [hlatch, hpast]

/-- What a lease ticket carries: who acquires, and the bounds of the lease. -/
structure LeaseTerms where
  component : String
  ttlMs : Option Int
  uses : Option Int
  deriving DecidableEq, Repr

/-- An outstanding ticket. -/
structure Ticket where
  hash : String
  component : String
  candidateHash : String
  capabilities : List String
  classCCapabilities : List String
  /-- The terms of a ticket of kind `lease`. -/
  lease : Option LeaseTerms
  deriving DecidableEq, Repr

/-- A live class-(c) crossing. -/
structure Target where
  component : String
  candidateHash : String
  capabilities : List String
  deriving DecidableEq, Repr

/-- What the mint asks of the policy, the class map and the operator's profile. -/
structure MintPolicy where
  /-- `crossings_for_capability`, under an approval policy. -/
  crossings : Option (String → List Target)
  /-- `_multi_party_rules`. -/
  multiParty : List String → Bool
  /-- `_never_standing_rules`. -/
  neverStanding : List String → Bool
  /-- `_ticket_ttl_ms`. -/
  ticketTtl : List String → Option Int
  /-- `mint_refusal`. -/
  refusal : String → Option Int → Option Int → Option String

inductive MintError where
  | uses
  | ttl
  | unknownTicket
  | nameOne (reached : Nat)
  | notOnTicket
  | noPolicy
  | notLive
  | ambiguous
  | nothingNamed
  | multiParty
  | neverStanding
  | secret
  | unrenderable
  | unbounded
  | refused (message : String)
  deriving DecidableEq, Repr

/-- The arguments of a mint. `decided` is whether a satisfied decision authorizes it. -/
structure MintRequest where
  ticketHash : Option String
  capability : Option String
  uses : Option Int
  ttlMs : Option Int
  decided : Bool
  deriving DecidableEq, Repr

/-- What a mint resolved, before the spelling is stored. -/
structure Resolved where
  capability : String
  component : String
  candidateHash : String
  uses : Option Int
  ttlMs : Option Int
  policyTtl : Option Int
  shapeCaps : List String
  lease : Bool
  deriving DecidableEq, Repr

/-- The capability a ticket is widened for: the only one it shows, or one at or below a shown
one. -/
def ticketCapability (ticket : Ticket) : Option String → Except MintError String
  | none =>
    match ticket.classCCapabilities with
    | [capability] => .ok capability
    | caps => .error (.nameOne caps.length)
  | some capability =>
    if ticket.classCCapabilities.any fun shown => capCovers shown capability then .ok capability
    else .error .notOnTicket

def resolveMint (policy : MintPolicy) (tickets : String → Option Ticket) (req : MintRequest) :
    Except MintError Resolved :=
  if req.uses.any fun n => decide (n < 1) then .error .uses
  else if req.ttlMs.any fun n => decide (n < 1) then .error .ttl
  else
    match req.ticketHash, req.capability with
    | some hash, capability =>
      match tickets hash with
      | none => .error .unknownTicket
      | some ticket => do
        let capability ← ticketCapability ticket capability
        -- a lease ticket carries the bounds of its own lease
        .ok ⟨capability, ticket.component, ticket.candidateHash,
          req.uses.or (ticket.lease.bind LeaseTerms.uses),
          req.ttlMs.or (ticket.lease.bind LeaseTerms.ttlMs),
          policy.ticketTtl ticket.capabilities, ticket.capabilities, ticket.lease.isSome⟩
    | none, some capability =>
      match policy.crossings with
      | none => .error .noPolicy
      | some crossings =>
        match crossings capability with
        | [] => .error .notLive
        | [target] =>
          .ok ⟨capability, target.component, target.candidateHash, req.uses, req.ttlMs, none,
            target.capabilities, false⟩
        | _ => .error .ambiguous
    | none, none => .error .nothingNamed

/-- `REDACTED_SECRET`. -/
def redactedSecret : String := "<redacted:secret>"

def mentionsSecret (capability : String) : Bool :=
  capability.toList.tails.any redactedSecret.toList.isPrefixOf

/-- The spelling as it is stored: the ceilings are erased from it, and `calls` becomes a counter. -/
def storedForm (capability : String) (uses : Option Int) :
    Except MintError (String × Option Int × List (String × Int)) :=
  match parseCap capability .absent with
  | .error _ => .ok (capability, uses, [])
  | .ok cap =>
    let (resource, ceilings) := splitCeilings cap
    if ceilings = [] then .ok (capability, uses, [])
    else
      let uses :=
        match Assoc.get? ceilings "calls" with
        | none => uses
        | some calls => some (uses.elim calls (min calls))
      match resource.toStr with
      | none => .error .unrenderable
      | some text => .ok (text, uses, ceilings)

/-- `_mint_grant`. `minted` is how many grants the session holds already. -/
def mintGrant (policy : MintPolicy) (tickets : String → Option Ticket) (session : String)
    (now : Int) (minted : Nat) (req : MintRequest) : Except MintError Grant := do
  let r ← resolveMint policy tickets req
  if policy.multiParty r.shapeCaps && !req.decided then .error .multiParty
  else if policy.neverStanding (r.shapeCaps ++ [r.capability]) then .error .neverStanding
  else if mentionsSecret r.capability then .error .secret
  else do
    let (capability, uses, ceilings) ← storedForm r.capability r.uses
    let ttl := r.ttlMs.or r.policyTtl
    if uses = none ∧ ttl = none then .error .unbounded
    else
      match policy.refusal r.capability uses ttl with
      | some message => .error (.refused message)
      | none =>
        .ok
          { requestId := "grant:" ++ toString (minted + 1) ++ ":" ++ capability
            capability := capability
            candidateHash := r.candidateHash
            component := r.component
            session := session
            grantedAt := now
            expiresAt := ttl.map (now + ·)
            expiredAt := none
            remainingUses := uses
            consumed := false
            revoked := false
            lease := r.lease
            declaredCeilings := ceilings }

/-! ## Cover and revoke -/

/-- A spelling that cannot be compared. -/
def uncomparable : Refusal := ⟨.extraCapability, none⟩

/-- `_grant_refusal`: nothing where the grant covers the crossing. -/
def grantRefusal (g : Grant) (crossing : String) : Except String (Option Refusal) := do
  let declared ← gateIntent g.capability g.declaredCeilings
  let action ← gateAction crossing none
  match declared, action with
  | some declared, some action => .ok (refine declared action)
  | _, _ => .ok (if g.capability = crossing then none else some uncomparable)

/-- `_grant_within`: the revoke spelling is the declaration, and a ceiling it does not state is
left out of the grant's side. -/
def grantWithin (g : Grant) (spelling : String) : Except String Bool := do
  match ← gateIntent spelling [] with
  | none => .ok (spelling == g.capability)
  | some intent =>
    match parseStoredCap g.capability with
    | .error _ => .ok (spelling == g.capability)
    | .ok heldCap =>
      let bounds := dictUpdate (splitCeilings heldCap).2 g.declaredCeilings
      let stated := bounds.filter fun p => p.1 ∈ intent.ceilings.map Prod.fst
      match ← gateAction g.capability (some stated) with
      | none => .ok (spelling == g.capability)
      | some held => .ok (refine intent held).isNone

/-- Whether a revoke retires the grant. -/
def retires (session : String) (capability requestId : Option String) (g : Grant) :
    Except String Bool :=
  if g.revoked || g.consumed then .ok false
  else if g.session ≠ session then .ok false
  else if requestId.any (· ≠ g.requestId) then .ok false
  else
    match capability with
    | none => .ok true
    | some spelling => grantWithin g spelling

def Grant.retired (g : Grant) : Grant := { g with revoked := true, consumed := true }

/-- The loop of a revoke. A `ValueError` stops it where it is. -/
def revokeLoop (session : String) (capability requestId : Option String) :
    List Grant → List Grant × Except String (List String)
  | [] => ([], .ok [])
  | g :: gs =>
    match retires session capability requestId g with
    | .error message => (g :: gs, .error message)
    | .ok hit =>
      let rest := revokeLoop session capability requestId gs
      ((if hit then g.retired else g) :: rest.1,
        rest.2.map fun ids => if hit then g.requestId :: ids else ids)

inductive RevokeError where
  | nothingNamed
  | ambiguous
  | value (message : String)
  deriving DecidableEq, Repr

/-- `revoke_standing_grant`: the grants it leaves, and the ids it retired. -/
def revokeStandingGrant (policy : MintPolicy) (session : String)
    (capability requestId : Option String) (grants : List Grant) :
    List Grant × Except RevokeError (List String) :=
  if capability = none ∧ requestId = none then (grants, .error .nothingNamed)
  else if (capability.bind fun c => policy.crossings.map (· c)).any
      fun targets => decide (1 < (targets.map Target.component).dedup.length) then
    (grants, .error .ambiguous)
  else
    let out := revokeLoop session capability requestId grants
    (out.1, out.2.mapError .value)

/-- Live on every axis but coverage. -/
def Grant.standing (g : Grant) (component candidateHash session : String) (now : Int) : Bool :=
  !g.consumed && g.component == component && g.candidateHash == candidateHash &&
    g.session == session && !(g.expire now).1 && g.remainingUses.all fun n => decide (0 < n)

/-- `_live_grant_for`: the first live grant that covers the crossing. -/
def liveGrantFor (component candidateHash session : String) (now : Int) (crossing : String) :
    List Grant → Except String (Option Grant)
  | [] => .ok none
  | g :: gs =>
    if g.standing component candidateHash session now then do
      match ← grantRefusal g crossing with
      | none => .ok (some g)
      | some _ => liveGrantFor component candidateHash session now crossing gs
    else liveGrantFor component candidateHash session now crossing gs

/-! ## What a stored grant answers for -/

theorem capCovers_iff {wide narrow : String} :
    capCovers wide narrow = true ↔ wide = narrow ∨ ∃ w n, parseStoredCap wide = .ok w ∧
      parseStoredCap narrow = .ok n ∧ covers w n = true := by
  rw [capCovers, Bool.or_eq_true, beq_iff_eq]
  refine or_congr_right ?_
  cases parseStoredCap wide <;> cases parseStoredCap narrow <;> simp

/-- The grant holds what the spelling states: the resource part as its spelling, the ceilings
beside it, or the whole spelling where it does not parse. -/
structure StoredAs (spelling : String) (g : Grant) : Prop where
  read : ∀ c, parseCap spelling .absent = .ok c →
    parseCap g.capability .absent = .ok (splitCeilings c).1 ∧
      g.declaredCeilings = (splitCeilings c).2
  unread : ∀ e, parseCap spelling .absent = .error e →
    g.capability = spelling ∧ g.declaredCeilings = []

/-- **What a stored grant covers is at or below its spelling**, `calls` apart. -/
theorem StoredAs.covers {spelling crossing : String} {g : Grant} (h : StoredAs spelling g)
    (hcovers : grantRefusal g crossing = .ok none) : AtOrBelow .absent spelling crossing := by
  rw [grantRefusal] at hcovers
  obtain ⟨declared, hdeclared, hcovers⟩ := bind_ok hcovers
  obtain ⟨action, haction, hcovers⟩ := bind_ok hcovers
  cases hs : parseCap spelling .absent with
  | error e =>
    obtain ⟨hcap, -⟩ := h.unread e hs
    rw [gateIntent, hcap, hs] at hdeclared
    cases hdeclared
    left
    by_contra hne
    simp [hcap, hne] at hcovers
  | ok s =>
    obtain ⟨hread, hceilings⟩ := h.read s hs
    rw [gateIntent, hread] at hdeclared
    simp only [splitCeilings_resource, hceilings, dictUpdate_nil_left] at hdeclared
    obtain ⟨bounds, hbounds, hdeclared⟩ := bind_ok hdeclared
    cases hdeclared
    rw [gateAction] at haction
    cases hx : parseCap crossing .absent with
    | error e =>
      rw [hx] at haction
      cases haction
      have hne : g.capability ≠ crossing := fun he => by
        rw [he, hx] at hread
        exact nomatch hread
      simp [hne] at hcovers
    | ok x =>
      rw [hx] at haction
      obtain ⟨amounts, hamounts, haction⟩ := bind_ok haction
      cases haction
      obtain ⟨hcone, -, hmet, -⟩ := refine_gate.1 (Except.ok.inj hcovers)
      refine .inr ⟨s, x, hs, hx, ?_⟩
      have hswf := parseCap_wellFormed hs
      have hxwf := parseCap_wellFormed hx
      refine (covers_unmetered_iff hswf hxwf).2 ⟨hcone, fun p hp hname => ?_⟩
      obtain ⟨n, hn, hle⟩ := hmet p ((gateCeilings_mem hbounds).2 ⟨hp, hname⟩)
      obtain ⟨hn, -⟩ := (gateCeilings_mem hamounts).1 (Assoc.mem_of_get? hn)
      exact ⟨n, (get?_ceilings hxwf.sorted.nodup).2 (mem_ceilings.1 hn), hle⟩

/-- **Every spelling at or above the grant's names it to a revoke.** -/
theorem StoredAs.within {spelling wide : String} {g : Grant} (h : StoredAs spelling g)
    (hbounds : ∀ c, parseCap spelling .absent = .ok c → ∀ p ∈ (splitCeilings c).2, 0 ≤ p.2)
    (hwide : AtOrBelow .absent wide spelling) : grantWithin g wide = .ok true := by
  cases hs : parseCap spelling .absent with
  | error e =>
    obtain rfl : wide = spelling := by
      rcases hwide with rfl | ⟨w, n, -, hn, -⟩
      · rfl
      · rw [hs] at hn
        exact nomatch hn
    obtain ⟨hcap, -⟩ := h.unread e hs
    simp [grantWithin, gateIntent, hs, hcap, bind, Except.bind]
  | ok s =>
    obtain ⟨hread, hceilings⟩ := h.read s hs
    have hswf := parseCap_wellFormed hs
    obtain ⟨w, hw, hcov⟩ : ∃ w, parseCap wide .absent = .ok w ∧
        CapOrder.covers (unmetered w) s = true := by
      rcases hwide with rfl | ⟨w, n, hw, hn, hcov⟩
      · exact ⟨s, hs, covers_unmetered ((covers_iff_point_le hswf hswf).2 le_rfl)⟩
      · rw [hs] at hn
        cases hn
        exact ⟨w, hw, hcov⟩
    have hwwf := parseCap_wellFormed hw
    obtain ⟨hcone, hmet⟩ := (covers_unmetered_iff hwwf hswf).1 hcov
    have hsnn := hbounds s hs
    have hmem : ∀ {name n}, Assoc.get? (splitCeilings s).2 name = some n →
        (name, n) ∈ (splitCeilings s).2 := Assoc.mem_of_get?
    -- the revoke's own bounds are above bounds that are not negative
    obtain ⟨intended, hintended⟩ : ∃ c, gateCeilings (splitCeilings w).2 = .ok c := by
      refine gateCeilings_exists fun p hp hname => ⟨isCeiling_of_mem hwwf hp ?_, ?_⟩
      · exact parseCap_absent_core hw (mem_ceilings.1 hp)
      · obtain ⟨n, hn, hle⟩ := hmet p hp hname
        exact (hsnn _ (hmem hn)).trans hle
    obtain ⟨held, hheld⟩ : ∃ c, gateCeilings ((splitCeilings s).2.filter
        fun p => p.1 ∈ intended.map Prod.fst) = .ok c := by
      refine gateCeilings_exists fun p hp _ => ?_
      obtain ⟨hp, -⟩ := List.mem_filter.1 hp
      exact ⟨isCeiling_of_mem hswf hp (parseCap_absent_core hs (mem_ceilings.1 hp)), hsnn p hp⟩
    have hheldnd : (((splitCeilings s).2.filter
        fun p => p.1 ∈ intended.map Prod.fst).map Prod.fst).Nodup :=
      (ceilings_nodup hswf.sorted.nodup).sublist (List.filter_sublist.map _)
    have hstored : parseStoredCap g.capability = .ok (splitCeilings s).1 :=
      parseCap_core (fun p hp => parseCap_absent_core hread hp) hread
    have hrefine : refine ⟨(splitCeilings w).1, [gateVerb], intended, none, [], []⟩
        ⟨(splitCeilings s).1, gateVerb, held, none, []⟩ = none := by
      rw [refine_gate]
      refine ⟨hcone, ?_, ?_, ?_⟩
      · intro p hp
        rcases List.mem_append.1 hp with hp | hp
        · obtain ⟨hp, hname⟩ := (gateCeilings_mem hintended).1 hp
          obtain ⟨n, hn, hle⟩ := hmet p hp hname
          exact (hsnn _ (hmem hn)).trans hle
        · exact hsnn p (List.mem_filter.1 ((gateCeilings_mem hheld).1 hp).1).1
      · intro p hp
        obtain ⟨hpw, hname⟩ := (gateCeilings_mem hintended).1 hp
        obtain ⟨n, hn, hle⟩ := hmet p hpw hname
        refine ⟨n, ?_, hle⟩
        rw [Assoc.get?_eq_some_iff (gateCeilings_nodup hheld hheldnd), gateCeilings_mem hheld]
        refine ⟨List.mem_filter.2 ⟨hmem hn, ?_⟩, hname⟩
        exact decide_eq_true (List.mem_map.2 ⟨p, hp, rfl⟩)
      · intro p hp
        exact of_decide_eq_true (List.mem_filter.1 ((gateCeilings_mem hheld).1 hp).1).2
    simp [grantWithin, gateIntent, gateAction, hw, hread, hstored, hintended, hheld, hceilings,
      splitCeilings_resource, hrefine, bind, Except.bind]

/-! ## The mint -/

/-- The stored spelling of a stated resource part reads back. -/
def StatesLegibly (spelling : String) : Prop :=
  ∀ c, parseCap spelling .absent = .ok c → (splitCeilings c).2 ≠ [] → (splitCeilings c).1.Legible

theorem resource_toStr {spelling : String} {c : Cap} (hc : parseCap spelling .absent = .ok c)
    (hl : (splitCeilings c).1.Legible) :
    ∃ text, (splitCeilings c).1.toStr = some text ∧
      parseCap text .absent = .ok (splitCeilings c).1 := by
  have hcore : ∀ p ∈ (splitCeilings c).1.params, isCore p.1 = true := fun p hp =>
    parseCap_absent_core hc (mem_resource.1 hp).1
  obtain ⟨token, raw, hmake⟩ := parseCap_made hc
  have hchecked : Checked (splitCeilings c).1 := fun name s hname hmem =>
    makeCap_checked hmake name s hname (mem_resource.1 hmem).1
  obtain ⟨text, htext, hparse⟩ :=
    parseStoredCap_toStr_made (resource_wellFormed (parseCap_wellFormed hc)) hchecked hl
  rw [reread_core hcore] at hparse
  exact ⟨text, htext, parseCap_core hcore hparse⟩

theorem storedForm_storedAs {spelling : String} {uses : Option Int} {g : Grant}
    (hlegible : StatesLegibly spelling)
    (h : storedForm spelling uses = .ok (g.capability, g.remainingUses, g.declaredCeilings)) :
    StoredAs spelling g := by
  refine ⟨fun c hc => ?_, fun e he => ?_⟩
  · simp only [storedForm, hc] at h
    by_cases hnil : (splitCeilings c).2 = []
    · rw [if_pos hnil] at h
      simp only [Except.ok.injEq, Prod.mk.injEq] at h
      obtain ⟨hcap, -, hceilings⟩ := h
      rw [← hcap, ← hceilings, splitCeilings_of_nil hnil, hnil]
      exact ⟨hc, rfl⟩
    · rw [if_neg hnil] at h
      obtain ⟨text, htext, hparse⟩ := resource_toStr hc (hlegible c hc hnil)
      simp only [htext, Except.ok.injEq, Prod.mk.injEq] at h
      obtain ⟨hcap, -, hceilings⟩ := h
      rw [← hcap, ← hceilings]
      exact ⟨hparse, rfl⟩
  · simp only [storedForm, he, Except.ok.injEq, Prod.mk.injEq] at h
    obtain ⟨hcap, -, hceilings⟩ := h
    exact ⟨hcap.symm, hceilings.symm⟩

/-- The stated `calls` are a counter from the mint on. -/
theorem storedForm_calls {spelling text : String} {uses remaining : Option Int}
    {ceilings : List (String × Int)} {c : Cap} {n : Int}
    (h : storedForm spelling uses = .ok (text, remaining, ceilings))
    (hc : parseCap spelling .absent = .ok c) (hn : ("calls", .ceiling n) ∈ c.params) :
    ∃ m ≤ n, remaining = some m := by
  have hget : Assoc.get? (splitCeilings c).2 "calls" = some n :=
    (get?_ceilings (parseCap_wellFormed hc).sorted.nodup).2 hn
  have hne : (splitCeilings c).2 ≠ [] := fun hnil => by
    rw [hnil] at hget
    cases hget
  simp only [storedForm, hc, if_neg hne, hget] at h
  cases htext : (splitCeilings c).1.toStr with
  | none =>
    rw [htext] at h
    cases h
  | some _ =>
    rw [htext] at h
    cases h
    cases uses with
    | none => exact ⟨n, le_rfl, rfl⟩
    | some m => exact ⟨min n m, min_le_left _ _, rfl⟩

/-- What an accepted mint returns. -/
theorem mintGrant_ok {policy : MintPolicy} {tickets : String → Option Ticket} {session : String}
    {now : Int} {minted : Nat} {req : MintRequest} {g : Grant}
    (h : mintGrant policy tickets session now minted req = .ok g) :
    ∃ r, resolveMint policy tickets req = .ok r ∧
      storedForm r.capability r.uses = .ok (g.capability, g.remainingUses, g.declaredCeilings) ∧
      g.component = r.component ∧ g.candidateHash = r.candidateHash ∧ g.session = session ∧
      g.lease = r.lease ∧ g.expiresAt = (r.ttlMs.or r.policyTtl).map (now + ·) ∧
      g.expiredAt = none ∧ g.consumed = false ∧ g.revoked = false := by
  rw [mintGrant] at h
  obtain ⟨r, hr, h⟩ := bind_ok h
  split_ifs at h
  obtain ⟨⟨text, remaining, ceilings⟩, hstored, h⟩ := bind_ok h
  simp only at h
  split_ifs at h
  cases hrefusal : policy.refusal r.capability remaining (r.ttlMs.or r.policyTtl) with
  | some message =>
    rw [hrefusal] at h
    exact nomatch h
  | none =>
    rw [hrefusal] at h
    cases h
    exact ⟨r, hr, hstored, rfl, rfl, rfl, rfl, rfl, rfl, rfl, rfl⟩

/-- A ticket is widened for a spelling at or below one it shows. -/
theorem resolveMint_shown {policy : MintPolicy} {tickets : String → Option Ticket}
    {req : MintRequest} {r : Resolved} {hash : String} {ticket : Ticket}
    (h : resolveMint policy tickets req = .ok r) (hhash : req.ticketHash = some hash)
    (hticket : tickets hash = some ticket) :
    ∃ shown ∈ ticket.classCCapabilities, capCovers shown r.capability = true := by
  rw [resolveMint, hhash] at h
  split_ifs at h
  simp only [hticket] at h
  obtain ⟨capability, hcap, h⟩ := bind_ok h
  cases h
  cases hreq : req.capability with
  | none =>
    rw [hreq, ticketCapability] at hcap
    split at hcap
    · rename_i shown hshown
      cases hcap
      exact ⟨capability, by rw [hshown]; exact List.mem_singleton_self _,
        capCovers_iff.2 (.inl rfl)⟩
    · exact nomatch hcap
  | some asked =>
    rw [hreq, ticketCapability] at hcap
    split_ifs at hcap with hany
    cases hcap
    exact List.any_eq_true.1 hany

/-! ## The revoke -/

/-- The grant at a later moment: a spend, an observed expiry and a revoke leave its spelling. -/
structure Later (g g' : Grant) : Prop where
  capability : g'.capability = g.capability
  declaredCeilings : g'.declaredCeilings = g.declaredCeilings
  session : g'.session = g.session
  retired : g'.revoked = true → g'.consumed = true

theorem Later.storedAs {spelling : String} {g g' : Grant} (h : StoredAs spelling g)
    (hlater : Later g g') : StoredAs spelling g' := by
  constructor
  · rw [hlater.capability, hlater.declaredCeilings]
    exact h.read
  · rw [hlater.capability, hlater.declaredCeilings]
    exact h.unread

theorem revokeLoop_append {session : String} {capability requestId : Option String}
    {before after out : List Grant} {g : Grant} {ids : List String}
    (h : revokeLoop session capability requestId (before ++ g :: after) = (out, .ok ids)) :
    ∃ before' hit after', retires session capability requestId g = .ok hit ∧
      out = before' ++ (if hit then g.retired else g) :: after' ∧
      before'.length = before.length := by
  induction before generalizing out ids with
  | nil =>
    rw [List.nil_append, revokeLoop] at h
    cases hhit : retires session capability requestId g with
    | error message =>
      rw [hhit] at h
      exact nomatch h
    | ok hit =>
      rw [hhit] at h
      exact ⟨[], hit, _, rfl, (congrArg Prod.fst h).symm, rfl⟩
  | cons b before ih =>
    rw [List.cons_append, revokeLoop] at h
    cases hhit : retires session capability requestId b with
    | error message =>
      rw [hhit] at h
      exact nomatch h
    | ok hit =>
      rw [hhit] at h
      simp only [Prod.mk.injEq] at h
      obtain ⟨rfl, hids⟩ := h
      -- the rest of the loop returned as well
      obtain ⟨ids', hids'⟩ : ∃ ids', (revokeLoop session capability requestId
          (before ++ g :: after)).2 = .ok ids' := by
        cases hrest : (revokeLoop session capability requestId (before ++ g :: after)).2 with
        | error message =>
          rw [hrest] at hids
          exact nomatch hids
        | ok ids' => exact ⟨ids', rfl⟩
      obtain ⟨before', hit', after', hretires, hout, hlen⟩ := ih (Prod.ext rfl hids')
      exact ⟨(if hit then b.retired else b) :: before', hit', after', hretires,
        congrArg ((if hit then b.retired else b) :: ·) hout, congrArg (· + 1) hlen⟩

theorem liveGrantFor_consumed {component candidateHash session crossing : String} {now : Int}
    {grants : List Grant} {g : Grant}
    (h : liveGrantFor component candidateHash session now crossing grants = .ok (some g)) :
    g.consumed = false := by
  induction grants with
  | nil => exact nomatch h
  | cons b grants ih =>
    rw [liveGrantFor] at h
    split_ifs at h with hstanding
    · obtain ⟨refusal, -, h⟩ := bind_ok h
      cases refusal with
      | none =>
        cases h
        simp only [Grant.standing, Bool.and_eq_true, Bool.not_eq_true'] at hstanding
        exact hstanding.1.1.1.1.1
      | some _ => exact ih h
    · exact ih h

/-! ## Mint, cover and revoke -/

/-- **Mint, cover and revoke agree**: what a minted grant covers is at or below the spelling it
was stated in and one its ticket showed, with the stated `calls` as its counter; a revoke that
returns retires it for that spelling and every one above, and it answers for nothing after. -/
theorem mint_cover_revoke {policy : MintPolicy} {tickets : String → Option Ticket}
    {session : String} {now : Int} {minted : Nat} {req : MintRequest} {r : Resolved} {g : Grant}
    (hr : resolveMint policy tickets req = .ok r)
    (hg : mintGrant policy tickets session now minted req = .ok g)
    (hlegible : StatesLegibly r.capability)
    (hbounds : ∀ c, parseCap r.capability .absent = .ok c → ∀ p ∈ (splitCeilings c).2, 0 ≤ p.2) :
    (∀ g', Later g g' → ∀ crossing, grantRefusal g' crossing = .ok none →
      AtOrBelow .absent r.capability crossing ∧
        ∀ hash ticket, req.ticketHash = some hash → tickets hash = some ticket →
          ∃ shown ∈ ticket.classCCapabilities, AtOrBelow .admitUnknown shown crossing) ∧
    (∀ c n, parseCap r.capability .absent = .ok c → ("calls", .ceiling n) ∈ c.params →
      ∃ m ≤ n, g.remainingUses = some m) ∧
    ∀ g', Later g g' → ∀ wide, AtOrBelow .absent wide r.capability →
      ∀ policy' requestId, (∀ id ∈ requestId, id = g'.requestId) →
        ∀ before after out ids,
          revokeStandingGrant policy' session (some wide) requestId (before ++ g' :: after) =
            (out, .ok ids) →
          ∃ before' x after', out = before' ++ x :: after' ∧ before'.length = before.length ∧
            (x = g' ∨ x = g'.retired) ∧ x.consumed = true ∧
            ∀ component candidateHash session' now' crossing,
              liveGrantFor component candidateHash session' now' crossing out ≠ .ok (some x) := by
  obtain ⟨r', hr', hstored, -, -, hsession, -⟩ := mintGrant_ok hg
  obtain rfl : r = r' := Except.ok.inj (hr.symm.trans hr')
  have hstoredAs := storedForm_storedAs hlegible hstored
  refine ⟨?_, ?_, ?_⟩
  · intro g' hlater crossing hcovers
    have hbelow := (hlater.storedAs hstoredAs).covers hcovers
    refine ⟨hbelow, fun hash ticket hhash hticket => ?_⟩
    obtain ⟨shown, hshown, hcov⟩ := resolveMint_shown hr hhash hticket
    refine ⟨shown, hshown, ?_⟩
    rcases capCovers_iff.1 hcov with rfl | ⟨w, s, hw, hs, hws⟩
    · refine hbelow.imp_right ?_
      rintro ⟨s, x, hs, hx, hsx⟩
      exact ⟨s, x, parseCap_core (fun p hp => parseCap_absent_core hs hp) hs,
        parseCap_core (fun p hp => parseCap_absent_core hx hp) hx, hsx⟩
    · rcases hbelow with rfl | ⟨s', x, hs', hx, hsx⟩
      · exact .inr ⟨w, s, hw, hs, covers_unmetered hws⟩
      · have hss : parseStoredCap r.capability = .ok s' :=
          parseCap_core (fun p hp => parseCap_absent_core hs' hp) hs'
        obtain rfl : s = s' := Except.ok.inj (hs.symm.trans hss)
        exact .inr ⟨w, x, hw, parseCap_core (fun p hp => parseCap_absent_core hx hp) hx,
          covers_unmetered_trans hws hsx⟩
  · intro c n hc hn
    exact storedForm_calls hstored hc hn
  · intro g' hlater wide hwide policy' requestId hid before after out ids hrevoke
    have hwithin := (hlater.storedAs hstoredAs).within hbounds hwide
    rw [revokeStandingGrant, if_neg (fun h => nomatch h.1)] at hrevoke
    split_ifs at hrevoke
    · exact nomatch congrArg Prod.snd hrevoke
    obtain ⟨hout, hok⟩ := Prod.mk.inj hrevoke
    obtain ⟨ids', hids'⟩ : ∃ ids', (revokeLoop session (some wide) requestId
        (before ++ g' :: after)).2 = .ok ids' := by
      cases hrest : (revokeLoop session (some wide) requestId (before ++ g' :: after)).2 with
      | error message =>
        rw [hrest] at hok
        exact nomatch hok
      | ok ids' => exact ⟨ids', rfl⟩
    obtain ⟨before', hit, after', hretires, hsplit, hlen⟩ :=
      revokeLoop_append (Prod.ext hout hids')
    have hx : (if hit then g'.retired else g').consumed = true := by
      cases hit with
      | true => rfl
      | false =>
        -- in the session and covered, it is passed over only because it is gone already
        show g'.consumed = true
        have hany : requestId.any (fun id => decide (id ≠ g'.requestId)) = false := by
          cases requestId with
          | none => rfl
          | some id => simpa using hid id rfl
        by_contra hlive
        have hgone : (g'.revoked || g'.consumed) = false := by
          have hrev : g'.revoked ≠ true := fun h => hlive (hlater.retired h)
          rw [Bool.eq_false_of_not_eq_true hrev, Bool.eq_false_of_not_eq_true hlive]
          rfl
        rw [retires, hgone, if_neg Bool.false_ne_true,
          if_neg (not_not.2 (hlater.session.trans hsession)), hany,
          if_neg Bool.false_ne_true] at hretires
        exact nomatch hwithin.symm.trans hretires
    refine ⟨before', _, after', hsplit, hlen, ?_, hx, ?_⟩
    · cases hit with
      | true => exact .inr rfl
      | false => exact .inl rfl
    · intro component candidateHash session' now' crossing hlive
      exact absurd (hx.symm.trans (liveGrantFor_consumed hlive)) nofun

/-- A policy that refuses nothing, over one live crossing in each of the components. -/
def permissive (components : List String) : MintPolicy where
  crossings := some fun capability => components.map fun c => ⟨c, "h", [capability]⟩
  multiParty _ := false
  neverStanding _ := false
  ticketTtl _ := none
  refusal _ _ _ := none

/-- A ticket of one component that shows one capability. -/
def shows (capability : String) : Ticket := ⟨"t", "net", "h", [capability], [capability], none⟩

/-- The grant of `net(calls=3,host="a",size=10)`. -/
def hostGrant : Grant :=
  ⟨"grant:1:net(host=\"a\")", "net(host=\"a\")", "h", "net", "s", 0, none, none, some 3, false,
    false, false, [("calls", 3), ("size", 10)]⟩

theorem mint_cover_revoke_host :
    ∃ g g', mintGrant (permissive ["net"])
        (fun _ => some (shows "net(calls=3,host=\"a\",size=10)")) "s" 0 0
        ⟨some "t", none, none, none, false⟩ = .ok g ∧ g.capability = "net(host=\"a\")" ∧
      g.remainingUses = some 3 ∧
      AtOrBelow .absent "net(calls=3,host=\"a\",size=10)" "net(host=\"a\",size=4)" ∧
      revokeStandingGrant (permissive ["net"]) "s" (some "net(host=\"a\")") none [g] =
        ([g'], .ok [g.requestId]) ∧ g'.consumed = true := by
  have hparse : parseCap "net(calls=3,host=\"a\",size=10)" .absent = .ok ⟨"net",
      [("calls", .ceiling 3), ("host", .discrete "a"), ("size", .ceiling 10)]⟩ := rfl
  have hmint : mintGrant (permissive ["net"])
      (fun _ => some (shows "net(calls=3,host=\"a\",size=10)")) "s" 0 0
      ⟨some "t", none, none, none, false⟩ = .ok hostGrant := rfl
  obtain ⟨hcovers, -, hrevoke⟩ := mint_cover_revoke (r := ⟨"net(calls=3,host=\"a\",size=10)", "net",
    "h", none, none, none, ["net(calls=3,host=\"a\",size=10)"], false⟩) rfl hmint
    (fun c hc _ => by
      obtain rfl := Except.ok.inj (hparse.symm.trans hc)
      refine ⟨by decide, ?_, ?_⟩
      · intro p hp
        obtain rfl := List.mem_singleton.1 hp
        exact ⟨rfl, by simp⟩
      · intro p hp
        obtain rfl := List.mem_singleton.1 hp
        exact (by decide : '"' ∉ "a".toList))
    (fun c hc p hp => by
      obtain rfl := Except.ok.inj (hparse.symm.trans hc)
      revert p
      show ∀ p ∈ [(("calls", 3) : String × Int), ("size", 10)], 0 ≤ p.2
      simp)
  have hlater : Later hostGrant hostGrant := ⟨rfl, rfl, rfl, id⟩
  have hretired : revokeStandingGrant (permissive ["net"]) "s" (some "net(host=\"a\")") none
      [hostGrant] = ([hostGrant.retired], .ok [hostGrant.requestId]) := rfl
  obtain ⟨before, x, after, hout, hlen, -, hx, -⟩ := hrevoke hostGrant hlater "net(host=\"a\")"
    (.inr ⟨⟨"net", [("host", .discrete "a")]⟩, _, rfl, hparse, rfl⟩) (permissive ["net"]) none nofun
    [] [] [hostGrant.retired] [hostGrant.requestId] hretired
  obtain rfl : before = [] := List.length_eq_zero_iff.1 hlen
  obtain ⟨rfl, -⟩ := List.cons.inj hout
  exact ⟨hostGrant, hostGrant.retired, hmint, rfl, rfl,
    (hcovers hostGrant hlater "net(host=\"a\",size=4)" rfl).1, hretired, hx⟩

/-- A stated `calls` bounds the uses and no crossing, and a spelling that is live in two
components names no grant to a revoke. -/
theorem calls_uncompared :
    ∃ g, mintGrant (permissive ["net"]) (fun _ => some (shows "net(calls=1)")) "s" 0 0
        ⟨some "t", none, none, none, false⟩ = .ok g ∧
      grantRefusal g "net(calls=9)" = .ok none ∧ capCovers "net(calls=1)" "net(calls=9)" = false ∧
      grantRefusal g "net" = .ok none ∧ capCovers "net(calls=1)" "net" = false ∧
      revokeStandingGrant (permissive ["net", "web"]) "s" (some "net(calls=1)") none [g] =
        ([g], .error .ambiguous) ∧
      liveGrantFor "net" "h" "s" 0 "net(calls=1)" [g] = .ok (some g) :=
  ⟨⟨"grant:1:net", "net", "h", "net", "s", 0, none, none, some 1, false, false, false,
    [("calls", 1)]⟩, rfl, rfl, rfl, rfl, rfl, rfl, rfl⟩

end Revl.Mcp
