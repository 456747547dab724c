import Revl.Mcp.Grant
import Revl.Mcp.Spend

/-!
# The seam cache

A method may declare that its result is kept. The result of a miss is stored under the authority
the miss spent, and answers for as long as that authority and the generation live and nothing the
method subscribes to was crossed.

- `approvalDecideCall`, `call`: a call, from the lookup to the invalidations it fires.
- `CacheStep`, `Cached`: what a session does, and the states it reaches.
- `Evolves`: what spending and releasing leave of a record.
- `hit_serves_live`: **a hit answers from live authority, in its generation, with nothing crossed
  since its miss**, where no call raises after it crossed a subscribed token.
-/

namespace Revl.Mcp

open Entrywise (forall₂_left forall₂_right forall₂_trans)

/-! ## Entries -/

/-- The `cache` clause of a method. -/
inductive CacheClass where
  | pureFn
  | capabilityResult
  | externalEffect
  deriving DecidableEq

/-- A descriptor of `_cache_index`. -/
structure CacheSpec where
  cls : CacheClass
  ttlMs : Option Int
  invalidatedBy : List String

/-- What `classify_call` answers. -/
structure Reach where
  /-- The class is `c`. -/
  classC : Bool
  capabilities : List String

/-- The miss an entry comes from. No decision reads it. -/
structure Miss where
  spent : List Slot
  tokens : List String
  generation : Nat
  /-- How many capabilities calls had crossed by then. -/
  crossed : Nat

/-- An entry of `_cache_entries`. -/
structure CacheEntry (ν : Type) where
  value : ν
  generation : Nat
  grantIds : List (Nat × Nat)
  approvalExpiresAt : Option Int
  approvalExpiredAt : Option Int
  expiresAt : Option Int
  expiredAt : Option Int
  invalEpochs : List (String × Nat)
  miss : Miss

/-- The key, the method and the digest of the arguments. -/
abbrev CallKey := String × String × String

/-- What a call of a session reads and writes. -/
structure CacheState (α ν : Type) where
  authority : SpendState α
  /-- Whether an `approval_policy` is bound. -/
  approvalPolicy : Bool
  generation : Nat
  classMap : Option (String → String → Option Reach)
  cacheIndex : List ((String × String) × CacheSpec)
  cacheEntries : List (CallKey × CacheEntry ν)
  cachePure : List (CallKey × ν)
  /-- `_cache_inval_epoch`, a token that was never bumped being at 0. -/
  invalEpoch : String → Nat
  /-- Every capability a call crossed, in order. No decision reads it. -/
  crossed : List String

variable {α τ ν : Type}

/-- `_cache_inval_tokens`. -/
def CacheState.invalTokens (s : CacheState α ν) : List String :=
  s.cacheIndex.flatMap fun p => p.2.invalidatedBy

/-- A write into a dict. -/
def put {κ : Type} [DecidableEq κ] {β : Type} (l : List (κ × β)) (k : κ) (v : β) : List (κ × β) :=
  (l.filter fun p => p.1 ≠ k) ++ [(k, v)]

/-- `_expired` of one deadline, with its latch. -/
def expired (deadline latch : Option Int) (now : Int) : Bool × Option Int :=
  if latch.isSome then (true, latch)
  else if deadline.any fun expiresAt => decide (expiresAt < now) then (true, some now)
  else (false, latch)

/-- `_grant_live_by_id`. -/
def grantLiveById (now : Int) (id : Nat × Nat) : List (Record α) → Bool × List (Record α)
  | [] => (false, [])
  | r :: rs =>
    if r.id = id then
      if r.consumed then (false, r :: rs)
      else
        let e := r.expire now
        (!e.1, e.2 :: rs)
    else
      let rest := grantLiveById now id rs
      (rest.1, r :: rest.2)

/-- The loop over the grants of an entry. -/
def grantsLive (now : Int) : List (Nat × Nat) → List (Record α) → Bool × List (Record α)
  | [], grants => (true, grants)
  | id :: ids, grants =>
    match grantLiveById now id grants with
    | (false, grants) => (false, grants)
    | (true, grants) => grantsLive now ids grants

/-- `_now_ms`, with the ratchet it leaves. -/
def readClock (env : SpendEnv α τ) (s : SpendState α) : SpendState α :=
  { s with floor := nowMs env s, ticks := s.ticks + 1 }

/-- `_cache_entry_live`. -/
def cacheEntryLive (env : SpendEnv α τ) (s : CacheState α ν) (entry : CacheEntry ν) :
    SpendState α × CacheEntry ν × Bool :=
  if entry.generation ≠ s.generation then (s.authority, entry, false)
  else
    let a := readClock env s.authority
    match expired entry.expiresAt entry.expiredAt a.floor with
    | (true, latch) => (a, { entry with expiredAt := latch }, false)
    | (false, _) =>
      match expired entry.approvalExpiresAt entry.approvalExpiredAt a.floor with
      | (true, latch) => (a, { entry with approvalExpiredAt := latch }, false)
      | (false, _) =>
        if entry.invalEpochs.any fun p => decide (s.invalEpoch p.1 ≠ p.2) then (a, entry, false)
        else
          let found := grantsLive a.floor entry.grantIds (a.store .grant)
          let store := Function.update a.store .grant found.2
          ({ a with store := store, dead := a.dead ++ latchedIds store }, entry, found.1)

/-! ## Calls -/

/-- What a call asks for. -/
structure Invocation (τ : Type) where
  key : String
  method : String
  /-- `_session_args_digest`: `none` where the arguments have none. -/
  digest : Option String
  /-- `none` where building the ticket raises, or where a refusal answers it. -/
  ticket : Option τ

/-- The `record` a decision fills. -/
structure DecisionRecord where
  spent : List Slot
  approvalExpiresAt : Option Int

/-- The deadline of the approval a decision spent. -/
def approvalDeadline (s : SpendState α) : List Slot → Option Int
  | [(.approval, id)] => ((s.store .approval).find? fun r => r.id = id).bind Record.expiresAt
  | _ => none

/-- `_approval_decide_call`: `none` is a refusal. -/
def approvalDecideCall (env : SpendEnv α τ) (s : CacheState α ν) (inv : Invocation τ) :
    SpendState α × Option DecisionRecord :=
  match s.approvalPolicy, s.classMap with
  | true, some classify =>
    match classify inv.key inv.method with
    | none => (s.authority, none)
    | some reach =>
      if reach.classC = false then (s.authority, some ⟨[], none⟩)
      else
        match inv.ticket with
        | none => (s.authority, none)
        | some t =>
          match findAuthority env t s.authority with
          | (a, .ok (some xs)) =>
            let a := xs.foldl consume a
            (a, some ⟨xs, approvalDeadline a xs⟩)
          | (a, _) => (a, none)
  | _, _ => (s.authority, some ⟨[], none⟩)

/-- A composition about to go live: a swapped generation, or a turn merged into the running one. -/
structure Surface (α τ : Type) where
  classMap : String → String → Option Reach
  cacheIndex : List ((String × String) × CacheSpec)
  rules : List (AutoApproveRule α)
  /-- The activation bodies its gate walks. -/
  bodies : List (Option τ)
  /-- It boots. -/
  boots : Bool

/-- The class map, the rules and `_install_cache_index`. -/
def installSurface (env : SpendEnv α τ) (surface : Surface α τ) (s : CacheState α ν) :
    CacheState α ν :=
  { s with
    authority := install env surface.rules s.authority
    classMap := if s.approvalPolicy then some surface.classMap else none
    cacheIndex := surface.cacheIndex
    cacheEntries := []
    cachePure := []
    invalEpoch := fun _ => 0 }

/-- `_wire_turn`, and whether it returns. -/
def wireTurn (env : SpendEnv α τ) (turn : Surface α τ) (s : CacheState α ν) :
    CacheState α ν × Bool :=
  match walk env turn.bodies [] s.authority with
  | (a, .cleared) =>
    if turn.boots then (installSurface env turn { s with authority := a }, true)
    else ({ s with authority := a }, false)
  | (a, _) => ({ s with authority := a }, false)

/-- `_drain_pending_admits`. -/
def drainPendingAdmits (env : SpendEnv α τ) :
    List (Surface α τ) → CacheState α ν → CacheState α ν × Bool
  | [], s => (s, true)
  | turn :: turns, s =>
    match wireTurn env turn s with
    | (s, false) => (s, false)
    | (s, true) => drainPendingAdmits env turns s

/-- What the host does once a call is decided. -/
inductive CallOutcome (α τ ν : Type) where
  | raised (crossed : List String)
  | returned (value : ν) (crossed : List String) (admitted : List (Surface α τ))

def CallOutcome.crossed : CallOutcome α τ ν → List String
  | .raised crossed => crossed
  | .returned _ crossed _ => crossed

def CallOutcome.admitted : CallOutcome α τ ν → List (Surface α τ)
  | .raised _ => []
  | .returned _ _ admitted => admitted

/-- How a call ends. -/
inductive Answer (ν : Type) where
  | hit (value : ν)
  | fresh (value : ν)
  /-- It raised once it was decided. -/
  | raised
  /-- It raised before. -/
  | refused
  deriving DecidableEq

/-- What is kept of a result. -/
inductive Keep where
  | nothing
  | memo (k : CallKey)
  | entry (k : CallKey) (spec : CacheSpec)

/-- `_cache_store`. -/
def cacheStore (env : SpendEnv α τ) (k : CallKey) (value : ν) (spec : CacheSpec)
    (decision : DecisionRecord) (s : CacheState α ν) : CacheState α ν :=
  let grantIds := decision.spent.filterMap fun x => if x.1 = .grant then some x.2 else none
  if grantIds = [] ∧ decision.approvalExpiresAt = none then s
  else
    let a := readClock env s.authority
    { s with
      authority := a
      cacheEntries := put s.cacheEntries k {
        value := value
        generation := s.generation
        grantIds := grantIds
        approvalExpiresAt := decision.approvalExpiresAt
        approvalExpiredAt := none
        expiresAt := spec.ttlMs.map (a.floor + ·)
        expiredAt := none
        invalEpochs := spec.invalidatedBy.map fun token => (token, s.invalEpoch token)
        miss := ⟨decision.spent, spec.invalidatedBy, s.generation, s.crossed.length⟩ } }

def keepResult (env : SpendEnv α τ) (keep : Keep) (value : ν) (decision : DecisionRecord)
    (s : CacheState α ν) : CacheState α ν :=
  match keep with
  | .nothing => s
  | .memo k => { s with cachePure := put s.cachePure k value }
  | .entry k spec => cacheStore env k value spec decision s

/-- `_fire_cache_invalidations`. -/
def fireInvalidations (key method : String) (s : CacheState α ν) : CacheState α ν :=
  match s.classMap.bind fun classify => classify key method with
  | none => s
  | some reach =>
    { s with
      invalEpoch := fun token =>
        if token ∈ s.invalTokens ∧ reach.capabilities.any (capCovers · token) then
          s.invalEpoch token + 1
        else s.invalEpoch token }

/-- A call past the lookup. -/
def fire (env : SpendEnv α τ) (keep : Keep) (inv : Invocation τ) (outcome : CallOutcome α τ ν)
    (s : CacheState α ν) : CacheState α ν × Answer ν :=
  match approvalDecideCall env s inv with
  | (a, none) => ({ s with authority := a }, .refused)
  | (a, some decision) =>
    match outcome with
    | .raised crossed => ({ s with authority := a, crossed := s.crossed ++ crossed }, .raised)
    | .returned value crossed admitted =>
      match drainPendingAdmits env admitted
          { s with authority := a, crossed := s.crossed ++ crossed } with
      | (s, false) => (s, .raised)
      | (s, true) =>
        (fireInvalidations inv.key inv.method (keepResult env keep value decision s), .fresh value)

/-- `call`. -/
def call (env : SpendEnv α τ) (inv : Invocation τ) (outcome : CallOutcome α τ ν)
    (s : CacheState α ν) : CacheState α ν × Answer ν :=
  match Assoc.get? s.cacheIndex (inv.key, inv.method) with
  | none => fire env .nothing inv outcome s
  | some spec =>
    if spec.cls = .pureFn then
      match inv.digest with
      | none => (s, .refused)
      | some digest =>
        match Assoc.get? s.cachePure (inv.key, inv.method, digest) with
        | some value => (s, .hit value)
        | none => fire env (.memo (inv.key, inv.method, digest)) inv outcome s
    else if s.approvalPolicy = false ∨ s.classMap.isNone then fire env .nothing inv outcome s
    else
      match inv.digest with
      | none => (s, .refused)
      | some digest =>
        let k := (inv.key, inv.method, digest)
        match Assoc.get? s.cacheEntries k with
        | none => fire env (.entry k spec) inv outcome s
        | some entry =>
          match cacheEntryLive env s entry with
          | (a, entry, true) =>
            ({ s with authority := a, cacheEntries := put s.cacheEntries k entry },
              .hit entry.value)
          | (a, entry, false) =>
            fire env (.entry k spec) inv outcome
              { s with authority := a, cacheEntries := put s.cacheEntries k entry }

/-! ## Generations -/

/-- `swap`: the gate, the cut over, and the predecessor's return where the successor does not
boot. -/
def swap (env : SpendEnv α τ) (surface : Surface α τ) (s : CacheState α ν) : CacheState α ν :=
  match walk env surface.bodies [] s.authority with
  | (a, .cleared) =>
    if surface.boots then
      installSurface env surface { s with authority := a, generation := s.generation + 1 }
    else { s with authority := a, generation := s.generation + 2 }
  | (a, _) => { s with authority := a }

/-- `load`: the surface is installed before its gate. -/
def load (env : SpendEnv α τ) (surface : Surface α τ) (s : CacheState α ν) : CacheState α ν :=
  let s := installSurface env surface s
  match walk env surface.bodies [] s.authority with
  | (a, .cleared) => { s with authority := a, generation := 1 }
  | (a, _) => { s with authority := a }

/-- `_reset`. -/
def unload (s : CacheState α ν) : CacheState α ν :=
  { s with
    authority := { s.authority with store := fun _ => [] }
    generation := 0
    classMap := none
    cacheIndex := []
    cacheEntries := []
    cachePure := []
    invalEpoch := fun _ => 0 }

/-! ## What spending leaves of a record -/

/-- Uses are left, unless the record says that none are. -/
def Solvent (consumed : Bool) (remaining : Option Int) : Prop :=
  consumed = false → ∀ n ∈ remaining, 0 < n

def SolventAt (id : Nat × Nat) (store : Authority → List (Record α)) : Prop :=
  ∀ r ∈ store .grant, r.id = id → Solvent r.consumed r.remainingUses

/-- The same object under the same deadline. -/
structure SameDeadline (r r' : Record α) : Prop where
  id : r'.id = r.id
  expiresAt : r'.expiresAt = r.expiresAt

/-- What deciding, reserving, releasing and committing may change. -/
structure Evolves (s s' : SpendState α) : Prop where
  next : s.next ≤ s'.next
  store : ∀ k, k ≠ .auto → List.Forall₂ SameDeadline (s.store k) (s'.store k)
  solvent : ∀ id, SolventAt id s.store → SolventAt id s'.store

theorem SameDeadline.refl (r : Record α) : SameDeadline r r := ⟨rfl, rfl⟩

theorem SameDeadline.trans {r r' r'' : Record α} (h : SameDeadline r r')
    (h' : SameDeadline r' r'') : SameDeadline r r'' :=
  ⟨h'.id.trans h.id, h'.expiresAt.trans h.expiresAt⟩

theorem Evolves.refl (s : SpendState α) : Evolves s s :=
  ⟨le_rfl, fun _ _ => List.forall₂_same.2 fun r _ => .refl r, fun _ => id⟩

theorem Evolves.trans {s s' s'' : SpendState α} (h : Evolves s s') (h' : Evolves s' s'') :
    Evolves s s'' where
  next := h.next.trans h'.next
  store k hk := forall₂_trans (R := SameDeadline) (fun _ _ _ => SameDeadline.trans)
    (h.store k hk) (h'.store k hk)
  solvent id hid := h'.solvent id (h.solvent id hid)

theorem Searched.evolves {s s' : SpendState α} (h : Searched s s') : Evolves s s' where
  next := h.next.ge
  store k _ := (h.store k).imp fun r r' hlatch => by
    rw [hlatch.same]
    exact ⟨rfl, rfl⟩
  solvent id hid r' hr' hrid := by
    obtain ⟨r, hr, hlatch⟩ := forall₂_right (h.store .grant) hr'
    rw [hlatch.same] at hrid ⊢
    exact hid r hr hrid

theorem sameDeadline_modifyAt (store : Authority → List (Record α)) (x : Slot)
    {f : Record α → Record α} (hsame : ∀ r, SameDeadline r (f r)) (k : Authority) :
    List.Forall₂ SameDeadline (store k) (modifyAt store x f k) := by
  by_cases hk : k = x.1
  · subst hk
    rw [modifyAt_self, atId, List.forall₂_map_right_iff]
    refine List.forall₂_same.2 fun r _ => ?_
    split_ifs
    · exact hsame r
    · exact .refl r
  · rw [modifyAt_of_ne _ _ hk]
    exact List.forall₂_same.2 fun r _ => .refl r

/-- Rewriting one record into a solvent one. -/
theorem solventAt_modifyAt {store : Authority → List (Record α)} {x : Slot}
    {f : Record α → Record α} (hsame : ∀ r, SameDeadline r (f r)) {id : Nat × Nat}
    (hid : SolventAt id store)
    (hsolvent : x = (.grant, id) → ∀ r, Solvent (f r).consumed (f r).remainingUses) :
    SolventAt id (modifyAt store x f) := by
  intro r' hr' hrid
  obtain ⟨r, hr, ⟨hk, hx, rfl⟩ | ⟨-, rfl⟩⟩ := mem_modifyAt hr'
  · rw [(hsame r).id, hx] at hrid
    exact hsolvent (Prod.ext hk.symm hrid) r
  · exact hid r' hr hrid

/-- A spend leaves uses or says that it took the last. -/
theorem solvent_spend (r : Record α) :
    Solvent (r.spend .grant).consumed (r.spend .grant).remainingUses := by
  obtain ⟨_, _, _, consumed, remaining, _, _⟩ := r
  cases remaining with
  | none => exact fun _ _ hn => nomatch hn
  | some m =>
    rintro hconsumed n hn
    obtain rfl : m - 1 = n := Option.some.inj hn
    have hleft := of_decide_eq_false (Bool.or_eq_false_iff.1 hconsumed).2
    omega

theorem evolves_spend (s : SpendState α) (x : Slot) :
    Evolves s { s with store := modifyAt s.store x (Record.spend x.1) } := by
  have hsame : ∀ r : Record α, SameDeadline r (r.spend x.1) := fun r =>
    ⟨spend_id x.1 r, (spend_rest x.1 r).2.1⟩
  refine ⟨le_rfl, fun k _ => sameDeadline_modifyAt s.store x hsame k, fun id hid => ?_⟩
  refine solventAt_modifyAt hsame hid ?_
  rintro rfl r
  exact solvent_spend r

theorem evolves_consume (s : SpendState α) (x : Slot) : Evolves s (consume s x) :=
  ⟨le_rfl, (evolves_spend s x).store, (evolves_spend s x).solvent⟩

theorem evolves_consumeAll (xs : List Slot) (s : SpendState α) :
    Evolves s (xs.foldl consume s) := by
  induction xs generalizing s with
  | nil => exact .refl s
  | cons x xs ih => exact (evolves_consume s x).trans (ih _)

/-- What was consumed is solvent. -/
theorem consumeAll_solvent {xs : List Slot} {s : SpendState α} {id : Nat × Nat}
    (h : (Authority.grant, id) ∈ xs) : SolventAt id (xs.foldl consume s).store := by
  induction xs generalizing s with
  | nil => exact absurd h List.not_mem_nil
  | cons x xs ih =>
    rcases List.mem_cons.1 h with rfl | h
    · refine (evolves_consumeAll xs _).solvent id ?_
      intro r' hr' hid
      replace hr' : r' ∈ modifyAt s.store (.grant, id) (Record.spend .grant) .grant := hr'
      obtain ⟨r, -, ⟨-, -, rfl⟩ | ⟨hne, rfl⟩⟩ := mem_modifyAt hr'
      · exact solvent_spend r
      · exact absurd (congrArg (Prod.mk Authority.grant) hid) hne
    · exact ih h

/-- What a reservation holds is no worse than what the walk began with. -/
def Restores (s : SpendState α) (plan : List Reservation) : Prop :=
  ∀ release ∈ plan, release.authority = .grant → SolventAt release.id s.store →
    Solvent release.consumed release.remainingUses

theorem restores_reservation {s₀ s : SpendState α} {plan : List Reservation}
    (hplan : Restores s₀ plan) (h : Evolves s₀ s) (x : Slot) :
    Restores s₀ (plan ++ [reservation s x]) := by
  intro release hrelease hk hid
  rcases List.mem_append.1 hrelease with hrelease | hrelease
  · exact hplan release hrelease hk hid
  · obtain rfl := List.mem_singleton.1 hrelease
    rw [reservation] at hk hid ⊢
    cases hfind : (s.store x.1).find? fun r => decide (r.id = x.2) with
    | none => rintro _ _ ⟨⟩
    | some r =>
      rw [hfind] at hk hid
      replace hk : x.1 = .grant := hk
      have hr := List.mem_of_find?_eq_some hfind
      have hrid : r.id = x.2 := by simpa using List.find?_some hfind
      rw [hk] at hr
      exact h.solvent x.2 hid r hr hrid

theorem reserveAll_evolves {s₀ : SpendState α} (xs : List Slot) {plan : List Reservation}
    {s : SpendState α} (hplan : Restores s₀ plan) (h : Evolves s₀ s) :
    Restores s₀ (reserveAll xs plan s).2 ∧ Evolves s₀ (reserveAll xs plan s).1 := by
  induction xs generalizing plan s with
  | nil => exact ⟨hplan, h⟩
  | cons x xs ih => exact ih (restores_reservation hplan h x) (h.trans (evolves_spend s x))

theorem release_evolves {s₀ s : SpendState α} {plan : List Reservation} (hplan : Restores s₀ plan)
    (h : Evolves s₀ s) : Evolves s₀ (releaseSpends plan s) := by
  induction plan with
  | nil => exact h
  | cons release plan ih =>
    have hrest := ih fun release' hrelease' => hplan release' (List.mem_cons_of_mem _ hrelease')
    have hsame : ∀ r : Record α, SameDeadline r (r.restore release) := fun r => ⟨rfl, rfl⟩
    refine ⟨hrest.next, fun k hk => ?_, fun id hid => ?_⟩
    · exact forall₂_trans (R := SameDeadline) (fun _ _ _ => SameDeadline.trans) (hrest.store k hk)
        (sameDeadline_modifyAt _ release.target hsame k)
    · refine solventAt_modifyAt (x := release.target) hsame (hrest.solvent id hid) ?_
      intro htarget r
      have hk : release.authority = .grant := congrArg Prod.fst htarget
      have hrid : release.id = id := congrArg Prod.snd htarget
      have hsolvent := hplan release List.mem_cons_self hk (hrid ▸ hid)
      show Solvent release.consumed (if release.authority = .approval then _ else _)
      rwa [if_neg (by rw [hk]; nofun)]

theorem commitSpends_store (plan : List Reservation) (s : SpendState α) :
    (commitSpends plan s).store = s.store ∧ (commitSpends plan s).next = s.next := by
  induction plan generalizing s with
  | nil => exact ⟨rfl, rfl⟩
  | cons release plan ih => exact ih (commitSpend s release.target)

/-- **A walk changes no record's object or deadline, and leaves what was solvent solvent.** -/
theorem walk_evolves {env : SpendEnv α τ} {s₀ : SpendState α} (bodies : List (Option τ))
    {plan : List Reservation} {s : SpendState α} (hplan : Restores s₀ plan)
    (h : Evolves s₀ s) : Evolves s₀ (walk env bodies plan s).1 := by
  induction bodies generalizing plan s with
  | nil =>
    obtain ⟨hstore, hnext⟩ := commitSpends_store plan s
    refine ⟨?_, fun k hk => ?_, fun id hid => ?_⟩
    · exact h.next.trans hnext.ge
    · show List.Forall₂ SameDeadline _ ((commitSpends plan s).store k)
      rw [hstore]
      exact h.store k hk
    · show SolventAt id (commitSpends plan s).store
      rw [hstore]
      exact h.solvent id hid
  | cons body bodies ih =>
    cases body with
    | none => exact release_evolves hplan h
    | some t =>
      have hsearched := (findAuthority_spec env t s).1
      rw [walk]
      rcases hfind : findAuthority env t s with ⟨s₁, res⟩
      rw [hfind] at hsearched
      have h₁ := h.trans hsearched.evolves
      match res with
      | .error e => exact release_evolves hplan h₁
      | .ok none => exact release_evolves hplan h₁
      | .ok (some xs) =>
        obtain ⟨hplan', h'⟩ := reserveAll_evolves xs hplan h₁
        exact ih hplan' h'

/-- A gate starts with nothing reserved. -/
theorem walk_gate (env : SpendEnv α τ) (bodies : List (Option τ)) (s : SpendState α) :
    Evolves s (walk env bodies [] s).1 :=
  walk_evolves bodies (fun _ h => absurd h List.not_mem_nil) (Evolves.refl s)

theorem install_evolves (env : SpendEnv α τ) (rules : List (AutoApproveRule α))
    (s : SpendState α) : Evolves s (install env rules s) := by
  have hone : ∀ (now : Int) (s : SpendState α) (rule : AutoApproveRule α),
      s.next ≤ (materialize now s rule).next ∧
        ∀ k, k ≠ .auto → (materialize now s rule).store k = s.store k := by
    intro now s rule
    rw [materialize]
    split_ifs
    · exact ⟨le_rfl, fun _ _ => rfl⟩
    · cases Assoc.get? s.autoSpend rule.key with
      | some b => exact ⟨le_rfl, fun k hk => Function.update_of_ne hk _ _⟩
      | none => exact ⟨Nat.le_succ _, fun k hk => Function.update_of_ne hk _ _⟩
  have hfold : ∀ (now : Int) (rules : List (AutoApproveRule α)) (s : SpendState α),
      s.next ≤ (rules.foldl (materialize now) s).next ∧
        ∀ k, k ≠ .auto → (rules.foldl (materialize now) s).store k = s.store k := by
    intro now rules
    induction rules with
    | nil => exact fun s => ⟨le_rfl, fun _ _ => rfl⟩
    | cons rule rules ih =>
      intro s
      obtain ⟨hnext, hstore⟩ := ih (materialize now s rule)
      obtain ⟨hnext₁, hstore₁⟩ := hone now s rule
      exact ⟨hnext₁.trans hnext, fun k hk => (hstore k hk).trans (hstore₁ k hk)⟩
  obtain ⟨hnext, hstore⟩ := hfold (nowMs env s) rules
    { s with store := Function.update s.store .auto [], floor := nowMs env s, ticks := s.ticks + 1 }
  have hstore' : ∀ k, k ≠ .auto → (install env rules s).store k = s.store k := fun k hk =>
    (hstore k hk).trans (Function.update_of_ne hk _ _)
  refine ⟨hnext, fun k hk => ?_, fun id hid r hr => ?_⟩
  · rw [hstore' k hk]
    exact List.forall₂_same.2 fun r _ => .refl r
  · rw [hstore' .grant (fun h => by cases h)] at hr
    exact hid r hr

/-- Objects are told apart, and the next one is new. -/
structure Books (s : SpendState α) : Prop where
  ids : ∀ k, k ≠ .auto → ((s.store k).map Record.id).Nodup
  old : ∀ k, k ≠ .auto → ∀ r ∈ s.store k, r.id.1 < s.next

theorem Books.evolves {s s' : SpendState α} (hs : Books s) (h : Evolves s s') : Books s' where
  ids k hk := by
    have hids : (s'.store k).map Record.id = (s.store k).map Record.id := by
      have hstore := h.store k hk
      generalize s.store k = l at hstore
      generalize s'.store k = l' at hstore
      induction hstore with
      | nil => rfl
      | cons hsame _ ih => rw [List.map_cons, List.map_cons, ih, hsame.id]
    rw [hids]
    exact hs.ids k hk
  old k hk r' hr' := by
    obtain ⟨r, hr, hsame⟩ := forall₂_right (h.store k hk) hr'
    rw [hsame.id]
    exact (hs.old k hk r hr).trans_le h.next

/-! ## What an entry is bound to -/

/-- A decision's spends, and what the session still says of them. -/
structure Bound (s : SpendState α) (spent : List Slot) (approvalExpiresAt : Option Int) : Prop where
  old : ∀ x ∈ spent, x.1 ≠ .auto → x.2.1 < s.next
  solvent : ∀ id, (Authority.grant, id) ∈ spent → SolventAt id s.store
  due : ∀ id, (Authority.approval, id) ∈ spent →
    ∀ r ∈ s.store .approval, r.id = id → r.expiresAt = approvalExpiresAt

theorem Bound.evolves {s s' : SpendState α} {spent : List Slot} {approvalExpiresAt : Option Int}
    (hs : Bound s spent approvalExpiresAt) (h : Evolves s s') :
    Bound s' spent approvalExpiresAt where
  old x hx hk := (hs.old x hx hk).trans_le h.next
  solvent id hid := h.solvent id (hs.solvent id hid)
  due id hid r' hr' hrid := by
    obtain ⟨r, hr, hsame⟩ := forall₂_right (h.store .approval nofun) hr'
    rw [hsame.expiresAt]
    exact hs.due id hid r hr (hsame.id.symm.trans hrid)

/-- A new record is none of those. -/
theorem Bound.issue {s : SpendState α} {spent : List Slot} {approvalExpiresAt : Option Int}
    (hs : Bound s spent approvalExpiresAt) (k : Authority) (info : α)
    (uses expiresAt : Option Int) :
    Bound (issue k info uses expiresAt s) spent approvalExpiresAt := by
  have hnew : ∀ {x : Slot} {k' r}, x ∈ spent → x.1 ≠ .auto →
      r ∈ (Mcp.issue k info uses expiresAt s).store k' → r.id = x.2 → r ∈ s.store k' := by
    intro x k' r hx hauto hr hid
    by_cases hk : k' = k
    · subst hk
      replace hr : r ∈ Function.update s.store k' (s.store k' ++ [_]) k' := hr
      rw [Function.update_self] at hr
      rcases List.mem_append.1 hr with hr | hr
      · exact hr
      · rw [List.mem_singleton.1 hr] at hid
        have hlt := hs.old x hx hauto
        rw [← hid] at hlt
        exact absurd hlt (lt_irrefl _)
    · replace hr : r ∈ Function.update s.store k (s.store k ++ [_]) k' := hr
      rwa [Function.update_of_ne hk] at hr
  refine ⟨fun x hx hk => Nat.lt_succ_of_lt (hs.old x hx hk), fun id hid r hr hrid => ?_,
    fun id hid r hr hrid => ?_⟩
  · exact hs.solvent id hid r (hnew hid nofun hr hrid) hrid
  · exact hs.due id hid r (hnew hid nofun hr hrid) hrid

/-- No capability crossed since is at or above a token of the entry whose epoch stands. -/
structure Unstale (tokens : List String) (epoch : String → Nat) (crossed : List String)
    (entry : CacheEntry ν) : Prop where
  generation : entry.generation = entry.miss.generation
  names : entry.invalEpochs.map Prod.fst = entry.miss.tokens
  subscribed : ∀ token ∈ entry.miss.tokens, token ∈ tokens
  past : entry.miss.crossed ≤ crossed.length
  epochs : ∀ p ∈ entry.invalEpochs, p.2 ≤ epoch p.1 ∧ (epoch p.1 = p.2 →
    ∀ cap ∈ crossed.drop entry.miss.crossed, capCovers cap p.1 = false)

/-- **Crossing more keeps the epochs honest** where each token that is crossed moves on. -/
theorem Unstale.cross {tokens : List String} {epoch epoch' : String → Nat}
    {crossed new : List String} {entry : CacheEntry ν} (h : Unstale tokens epoch crossed entry)
    (hmono : ∀ token, epoch token ≤ epoch' token)
    (hbump : ∀ token ∈ tokens, ∀ cap ∈ new, capCovers cap token = true →
      epoch token < epoch' token) :
    Unstale tokens epoch' (crossed ++ new) entry where
  generation := h.generation
  names := h.names
  subscribed := h.subscribed
  past := h.past.trans (by rw [List.length_append]; exact Nat.le_add_right _ _)
  epochs p hp := by
    obtain ⟨hle, hsince⟩ := h.epochs p hp
    refine ⟨hle.trans (hmono p.1), fun heq cap hcap => ?_⟩
    have hstood : epoch p.1 = p.2 := le_antisymm ((hmono p.1).trans heq.le) hle
    rw [List.drop_append_of_le_length h.past] at hcap
    rcases List.mem_append.1 hcap with hcap | hcap
    · exact hsince hstood cap hcap
    · have htoken : p.1 ∈ tokens :=
        h.subscribed p.1 (h.names ▸ List.mem_map_of_mem hp)
      by_contra hcov
      have hlt := hbump p.1 htoken cap hcap (by simpa using hcov)
      omega

/-- An entry and what it is bound to, as far as the crossings of `crossed`. -/
structure EntryInv (s : CacheState α ν) (crossed : List String) (k : CallKey)
    (entry : CacheEntry ν) : Prop where
  bound : Bound s.authority entry.miss.spent entry.approvalExpiresAt
  spent : entry.miss.spent ≠ []
  kinds : ∀ x ∈ entry.miss.spent, (x.1 = .grant ∧ x.2 ∈ entry.grantIds) ∨
    (x.1 = .approval ∧ entry.approvalExpiresAt.isSome)
  declared : ∃ spec, Assoc.get? s.cacheIndex (k.1, k.2.1) = some spec ∧
    spec.invalidatedBy = entry.miss.tokens
  unstale : Unstale s.invalTokens s.invalEpoch crossed entry

theorem EntryInv.moved {s s' : CacheState α ν} {crossed : List String} {k : CallKey}
    {entry : CacheEntry ν} (h : EntryInv s crossed k entry)
    (hauthority : Evolves s.authority s'.authority) (hindex : s'.cacheIndex = s.cacheIndex)
    (hepoch : s'.invalEpoch = s.invalEpoch) : EntryInv s' crossed k entry where
  bound := h.bound.evolves hauthority
  spent := h.spent
  kinds := h.kinds
  declared := by
    rw [hindex]
    exact h.declared
  unstale := by
    rw [hepoch, CacheState.invalTokens, hindex]
    exact h.unstale

/-- The cache's invariant. -/
structure CacheInv (s : CacheState α ν) : Prop where
  books : Books s.authority
  governed : s.cacheEntries = [] ∨ (s.approvalPolicy = true ∧ s.classMap.isSome)
  entries : ∀ p ∈ s.cacheEntries, EntryInv s s.crossed p.1 p.2

theorem subscribed_of_declared {s : CacheState α ν} {km : String × String} {spec : CacheSpec}
    (h : Assoc.get? s.cacheIndex km = some spec) : ∀ token ∈ spec.invalidatedBy,
      token ∈ s.invalTokens := fun _ htoken =>
  List.mem_flatMap.2 ⟨_, Assoc.mem_of_get? h, htoken⟩

/-- **Authority moving on keeps the invariant.** -/
theorem CacheInv.evolves {s : CacheState α ν} (hs : CacheInv s) {a : SpendState α}
    (h : Evolves s.authority a) : CacheInv { s with authority := a } where
  books := hs.books.evolves h
  governed := hs.governed
  entries p hp := (hs.entries p hp).moved h rfl rfl

/-- Without entries only the books are left to keep. -/
theorem cacheInv_empty {s : CacheState α ν} (hbooks : Books s.authority)
    (hentries : s.cacheEntries = []) : CacheInv s where
  books := hbooks
  governed := .inl hentries
  entries p hp := by
    rw [hentries] at hp
    exact absurd hp List.not_mem_nil

theorem mem_put {κ β : Type} [DecidableEq κ] {l : List (κ × β)} {k : κ} {v : β} {p : κ × β}
    (h : p ∈ put l k v) : p ∈ l ∨ p = (k, v) :=
  (List.mem_append.1 h).imp (fun h => (List.mem_filter.1 h).1) List.mem_singleton.1

/-! ## Liveness of an entry -/

/-- **A grant that is live by its id can be spent.** -/
theorem grantLiveById_spec (now : Int) (id : Nat × Nat) (grants : List (Record α)) :
    List.Forall₂ (Latch now) grants (grantLiveById now id grants).2 ∧
      ((grantLiveById now id grants).1 = true → ∃ r ∈ (grantLiveById now id grants).2,
        r.id = id ∧ r.consumed = false ∧ ¬ Lapsed now r.expiresAt) := by
  induction grants with
  | nil => exact ⟨.nil, fun h => nomatch h⟩
  | cons r rs ih =>
    have hself : List.Forall₂ (Latch now) rs rs := List.forall₂_same.2 fun r _ => .refl now r
    rw [grantLiveById]
    split_ifs with hid hconsumed
    · exact ⟨.cons (.refl now r) hself, fun h => nomatch h⟩
    · refine ⟨.cons (expire_latch r now) hself, fun h => ?_⟩
      rcases he : r.expire now with ⟨past, r'⟩
      rw [he] at h
      obtain rfl : past = false := by simpa using h
      obtain ⟨rfl, hlapsed⟩ := expire_false he
      exact ⟨r', List.mem_cons_self, hid, by simpa using hconsumed, hlapsed⟩
    · refine ⟨.cons (.refl now r) ih.1, fun h => ?_⟩
      obtain ⟨q, hq, hrest⟩ := ih.2 h
      exact ⟨q, List.mem_cons_of_mem _ hq, hrest⟩

theorem latches_trans {now : Int} {l m n : List (Record α)} (h : List.Forall₂ (Latch now) l m)
    (h' : List.Forall₂ (Latch now) m n) : List.Forall₂ (Latch now) l n :=
  forall₂_trans (R := Latch now) (fun _ _ _ hxy hyz => hxy.trans le_rfl hyz) h h'

theorem grantsLive_spec (now : Int) (ids : List (Nat × Nat)) (grants : List (Record α)) :
    List.Forall₂ (Latch now) grants (grantsLive now ids grants).2 ∧
      ((grantsLive now ids grants).1 = true → ∀ id ∈ ids, ∃ r ∈ (grantsLive now ids grants).2,
        r.id = id ∧ r.consumed = false ∧ ¬ Lapsed now r.expiresAt) := by
  induction ids generalizing grants with
  | nil =>
    exact ⟨List.forall₂_same.2 fun r _ => .refl now r, fun _ _ h => absurd h List.not_mem_nil⟩
  | cons id ids ih =>
    obtain ⟨hlatch, hlive⟩ := grantLiveById_spec now id grants
    rw [grantsLive]
    rcases hone : grantLiveById now id grants with ⟨live, grants'⟩
    rw [hone] at hlatch hlive
    cases live with
    | false => exact ⟨hlatch, fun h => nomatch h⟩
    | true =>
      obtain ⟨hrest, hids⟩ := ih grants'
      refine ⟨latches_trans hlatch hrest, fun h id' hid' => ?_⟩
      rcases List.mem_cons.1 hid' with rfl | hid'
      · obtain ⟨r, hr, hrid, hconsumed, hlapsed⟩ := hlive rfl
        obtain ⟨r', hr', hlatch'⟩ := forall₂_left hrest hr
        refine ⟨r', hr', ?_, ?_, ?_⟩ <;> rw [hlatch'.same]
        · exact hrid
        · exact hconsumed
        · exact hlapsed
      · exact hids h id' hid'

theorem expired_false {deadline latch : Option Int} {now : Int}
    (h : (expired deadline latch now).1 = false) : ¬ Lapsed now deadline := by
  rintro ⟨e, he, hlt⟩
  rw [expired] at h
  split_ifs at h with hlatch hpast
  refine hpast ?_
  rw [Option.mem_def.1 he]
  exact decide_eq_true hlt

theorem readClock_searched (env : SpendEnv α τ) (s : SpendState α) : Searched s (readClock env s) :=
  ⟨le_max_left _ _, fun _ => List.forall₂_same.2 fun r _ => .refl _ r, rfl, rfl, rfl, rfl,
    fun _ => id, fun _ => .inl⟩

/-- **What the seam checks before it answers.** -/
theorem cacheEntryLive_spec (env : SpendEnv α τ) (s : CacheState α ν) (entry : CacheEntry ν) :
    Evolves s.authority (cacheEntryLive env s entry).1 ∧
      (∃ latch latch', (cacheEntryLive env s entry).2.1 =
        { entry with expiredAt := latch, approvalExpiredAt := latch' }) ∧
      ((cacheEntryLive env s entry).2.2 = true →
        (cacheEntryLive env s entry).2.1 = entry ∧ entry.generation = s.generation ∧
        ¬ Lapsed (cacheEntryLive env s entry).1.floor entry.approvalExpiresAt ∧
        (∀ p ∈ entry.invalEpochs, s.invalEpoch p.1 = p.2) ∧
        ∀ id ∈ entry.grantIds, ∃ r ∈ (cacheEntryLive env s entry).1.store .grant,
          r.id = id ∧ r.consumed = false ∧
            ¬ Lapsed (cacheEntryLive env s entry).1.floor r.expiresAt) := by
  have hread := readClock_searched env s.authority
  rw [cacheEntryLive]
  by_cases hgen : entry.generation ≠ s.generation
  · rw [if_pos hgen]
    exact ⟨.refl _, ⟨_, _, rfl⟩, fun h => nomatch h⟩
  rw [if_neg hgen]
  dsimp only
  generalize readClock env s.authority = a at hread
  rcases hown : expired entry.expiresAt entry.expiredAt a.floor with ⟨past, latch⟩
  cases past with
  | true => exact ⟨hread.evolves, ⟨_, _, rfl⟩, fun h => nomatch h⟩
  | false =>
    rcases happroval : expired entry.approvalExpiresAt entry.approvalExpiredAt a.floor with
      ⟨past, latch'⟩
    cases past with
    | true => exact ⟨hread.evolves, ⟨_, _, rfl⟩, fun h => nomatch h⟩
    | false =>
      dsimp only
      split_ifs with hepoch
      · exact ⟨hread.evolves, ⟨_, _, rfl⟩, fun h => nomatch h⟩
      obtain ⟨hlatch, hlive⟩ := grantsLive_spec a.floor entry.grantIds (a.store .grant)
      refine ⟨hread.evolves.trans (Searched.evolves ⟨le_rfl, fun k => ?_, rfl, rfl, rfl, rfl,
        fun x hx => List.mem_append_left _ hx, fun x hx => ?_⟩), ⟨_, _, rfl⟩, fun h => ?_⟩
      · show List.Forall₂ (Latch a.floor) (a.store k) (Function.update a.store .grant _ k)
        by_cases hk : k = .grant
        · subst hk
          rw [Function.update_self]
          exact hlatch
        · rw [Function.update_of_ne hk]
          exact List.forall₂_same.2 fun r _ => .refl _ r
      · exact (List.mem_append.1 hx).imp_right mem_latchedIds
      · refine ⟨rfl, not_not.1 hgen, ?_, fun p hp => ?_, fun id hid => ?_⟩
        · exact expired_false (congrArg Prod.fst happroval)
        · by_contra hne
          exact hepoch (List.any_eq_true.2 ⟨p, hp, decide_eq_true hne⟩)
        · obtain ⟨r, hr, hrest⟩ := hlive h id hid
          refine ⟨r, ?_, hrest⟩
          show r ∈ Function.update a.store .grant _ .grant
          rw [Function.update_self]
          exact hr

/-! ## A call -/

/-- A decision spends one approval, grants, or one rule. -/
theorem findAuthority_shape (env : SpendEnv α τ) (t : τ) (s : SpendState α) {xs : List Slot}
    (h : (findAuthority env t s).2 = .ok (some xs)) :
    (∃ id, xs = [(.approval, id)]) ∨ (∀ x ∈ xs, x.1 = .grant) ∨ ∃ id, xs = [(.auto, id)] := by
  rw [findAuthority] at h
  generalize find env .approval t "" s = found₁ at h
  obtain ⟨s₁, res₁⟩ := found₁
  rcases res₁ with e | _ | id
  · cases h
  · dsimp only at h
    generalize findStandingGrant env t s₁ = found₂ at h
    obtain ⟨s₂, res₂⟩ := found₂
    rcases res₂ with e | _ | ids
    · cases h
    · dsimp only at h
      generalize find env .auto t "" s₂ = found₃ at h
      obtain ⟨s₃, res₃⟩ := found₃
      rcases res₃ with e | _ | id
      · cases h
      · cases h
      · exact .inr (.inr ⟨id, (Option.some.inj (Except.ok.inj h)).symm⟩)
    · refine .inr (.inl fun x hx => ?_)
      rw [← Option.some.inj (Except.ok.inj h)] at hx
      obtain ⟨id, -, rfl⟩ := List.mem_map.1 hx
      rfl
  · exact .inl ⟨id, (Option.some.inj (Except.ok.inj h)).symm⟩

/-- What a decision records. -/
structure Decided (a : SpendState α) (decision : DecisionRecord) : Prop where
  bound : Bound a decision.spent decision.approvalExpiresAt
  approval : decision.approvalExpiresAt.isSome → ∃ id, decision.spent = [(.approval, id)]
  grants : ∀ id, (Authority.grant, id) ∈ decision.spent → ∀ x ∈ decision.spent, x.1 = .grant

theorem Decided.evolves {a a' : SpendState α} {decision : DecisionRecord} (h : Decided a decision)
    (h' : Evolves a a') : Decided a' decision :=
  ⟨h.bound.evolves h', h.approval, h.grants⟩

theorem decided_nothing (a : SpendState α) : Decided a ⟨[], none⟩ where
  bound := ⟨fun _ h => absurd h List.not_mem_nil, fun _ h => absurd h List.not_mem_nil,
    fun _ h => absurd h List.not_mem_nil⟩
  approval h := nomatch h
  grants _ h := absurd h List.not_mem_nil

theorem decided_spent {a : SpendState α} {xs : List Slot} (hbooks : Books a)
    (hold : ∀ x ∈ xs, x.1 ≠ .auto → x.2.1 < a.next)
    (hsolvent : ∀ id, (Authority.grant, id) ∈ xs → SolventAt id a.store)
    (hshape : (∃ id, xs = [(.approval, id)]) ∨ (∀ x ∈ xs, x.1 = .grant) ∨
      ∃ id, xs = [(.auto, id)]) : Decided a ⟨xs, approvalDeadline a xs⟩ := by
  rcases hshape with ⟨id, rfl⟩ | hgrants | ⟨id, rfl⟩
  · refine ⟨⟨hold, hsolvent, fun id' hid' r hr hrid => ?_⟩, fun _ => ⟨id, rfl⟩, fun id' hid' => ?_⟩
    · obtain rfl : id' = id := congrArg Prod.snd (List.mem_singleton.1 hid')
      show r.expiresAt = ((a.store .approval).find? fun r => r.id = id').bind Record.expiresAt
      rw [find?_id (hbooks.ids .approval nofun) hr hrid]
      rfl
    · exact absurd (congrArg Prod.fst (List.mem_singleton.1 hid')) nofun
  · have hnone : approvalDeadline a xs = none := by
      match xs, hgrants with
      | [], _ => rfl
      | [(.approval, id)], hgrants => exact absurd (hgrants _ List.mem_cons_self) nofun
      | [(.grant, id)], _ => rfl
      | [(.auto, id)], _ => rfl
      | (.approval, _) :: _ :: _, _ => rfl
      | (.grant, _) :: _ :: _, _ => rfl
      | (.auto, _) :: _ :: _, _ => rfl
    refine ⟨⟨hold, hsolvent, fun id hid => ?_⟩, fun h => ?_, fun _ _ => hgrants⟩
    · exact absurd (hgrants _ hid) nofun
    · rw [hnone] at h
      exact nomatch h
  · refine ⟨⟨hold, hsolvent, fun id' hid' => ?_⟩, (nomatch ·), fun id' hid' => ?_⟩
    · exact absurd (congrArg Prod.fst (List.mem_singleton.1 hid')) nofun
    · exact absurd (congrArg Prod.fst (List.mem_singleton.1 hid')) nofun

/-- **A decision spends what it records**, and only of a call it can classify. -/
theorem approvalDecideCall_spec (env : SpendEnv α τ) {s : CacheState α ν}
    (hbooks : Books s.authority) (inv : Invocation τ) :
    Evolves s.authority (approvalDecideCall env s inv).1 ∧
      ∀ decision, (approvalDecideCall env s inv).2 = some decision →
        Decided (approvalDecideCall env s inv).1 decision ∧
          ∀ classify, s.approvalPolicy = true → s.classMap = some classify →
            (classify inv.key inv.method).isSome := by
  rw [approvalDecideCall]
  split
  · next classify hpolicy hmap =>
    have hclassified : ∀ {reach}, classify inv.key inv.method = some reach →
        ∀ classify', s.approvalPolicy = true → s.classMap = some classify' →
          (classify' inv.key inv.method).isSome := by
      rintro reach hreach classify' - hmap'
      rw [hmap] at hmap'
      obtain rfl := Option.some.inj hmap'
      rw [hreach]
      rfl
    cases hreach : classify inv.key inv.method with
    | none => exact ⟨.refl _, fun _ h => nomatch h⟩
    | some reach =>
      dsimp only
      split_ifs with hclass
      · refine ⟨.refl _, fun decision h => ?_⟩
        obtain rfl := Option.some.inj h
        exact ⟨decided_nothing _, hclassified hreach⟩
      cases inv.ticket with
      | none => exact ⟨.refl _, fun _ h => nomatch h⟩
      | some t =>
        obtain ⟨hsearched, hfound⟩ := findAuthority_spec env t s.authority
        have hshape := fun xs : List Slot => @findAuthority_shape α τ env t s.authority xs
        dsimp only
        rcases hfind : findAuthority env t s.authority with ⟨a, res⟩
        rw [hfind] at hsearched hfound hshape
        match res, hfound, hshape with
        | .error e, _, _ => exact ⟨hsearched.evolves, fun _ h => nomatch h⟩
        | .ok none, _, _ => exact ⟨hsearched.evolves, fun _ h => nomatch h⟩
        | .ok (some xs), hfound, hshape =>
          have hconsumed := evolves_consumeAll xs a
          have hbooks₁ := hbooks.evolves hsearched.evolves
          refine ⟨hsearched.evolves.trans hconsumed, fun decision h => ?_⟩
          obtain rfl := Option.some.inj h
          refine ⟨decided_spent (hbooks₁.evolves hconsumed) (fun x hx hk => ?_)
            (fun id hid => consumeAll_solvent hid) (hshape xs rfl), hclassified hreach⟩
          obtain ⟨r, hr⟩ := (hfound xs rfl).2 x hx
          have hlt := hbooks₁.old x.1 hk r hr.held
          rw [hr.id] at hlt
          exact hlt.trans_le hconsumed.next
  · refine ⟨.refl _, fun decision h => ?_⟩
    obtain rfl := Option.some.inj h
    refine ⟨decided_nothing _, fun classify hpolicy hmap => ?_⟩
    next hother => exact absurd hmap (hother classify hpolicy)

theorem wireTurn_spec (env : SpendEnv α τ) (turn : Surface α τ) (s : CacheState α ν) :
    Evolves s.authority (wireTurn env turn s).1.authority ∧
      (wireTurn env turn s).1.crossed = s.crossed ∧
      (wireTurn env turn s).1.approvalPolicy = s.approvalPolicy ∧
      (((wireTurn env turn s).2 = true ∧ (wireTurn env turn s).1.cacheEntries = [] ∧
          (wireTurn env turn s).1.cacheIndex = turn.cacheIndex ∧
          (s.approvalPolicy = true → (wireTurn env turn s).1.classMap.isSome)) ∨
        ((wireTurn env turn s).2 = false ∧
          ∃ a, (wireTurn env turn s).1 = { s with authority := a })) := by
  have hwalk := walk_gate env turn.bodies s.authority
  rw [wireTurn]
  rcases hgate : walk env turn.bodies [] s.authority with ⟨a, verdict⟩
  rw [hgate] at hwalk
  cases verdict with
  | cleared =>
    dsimp only
    split_ifs with hboots
    · refine ⟨hwalk.trans (install_evolves env turn.rules a), rfl, rfl, .inl ⟨rfl, rfl, rfl, ?_⟩⟩
      intro hpolicy
      show (if s.approvalPolicy then some turn.classMap else none).isSome
      rw [hpolicy]
      rfl
    · exact ⟨hwalk, rfl, rfl, .inr ⟨rfl, a, rfl⟩⟩
  | refused => exact ⟨hwalk, rfl, rfl, .inr ⟨rfl, a, rfl⟩⟩
  | raised => exact ⟨hwalk, rfl, rfl, .inr ⟨rfl, a, rfl⟩⟩

/-- **A drain either wires a turn, and no entry is left, or changes nothing but the authority.** -/
theorem drainPendingAdmits_spec (env : SpendEnv α τ) (turns : List (Surface α τ))
    (s : CacheState α ν) :
    Evolves s.authority (drainPendingAdmits env turns s).1.authority ∧
      (drainPendingAdmits env turns s).1.crossed = s.crossed ∧
      (drainPendingAdmits env turns s).1.approvalPolicy = s.approvalPolicy ∧
      (((drainPendingAdmits env turns s).1.cacheEntries = [] ∧
          (∃ turn ∈ turns, (drainPendingAdmits env turns s).1.cacheIndex = turn.cacheIndex) ∧
          (s.approvalPolicy = true → (drainPendingAdmits env turns s).1.classMap.isSome)) ∨
        (((drainPendingAdmits env turns s).2 = true → turns = []) ∧
          ∃ a, (drainPendingAdmits env turns s).1 = { s with authority := a })) := by
  induction turns generalizing s with
  | nil => exact ⟨.refl _, rfl, rfl, .inr ⟨fun _ => rfl, s.authority, rfl⟩⟩
  | cons turn turns ih =>
    obtain ⟨hevolves, hcrossed, hpolicy, hwired⟩ := wireTurn_spec env turn s
    rw [drainPendingAdmits]
    rcases hwire : wireTurn env turn s with ⟨s₁, ok⟩
    rw [hwire] at hevolves hcrossed hpolicy hwired
    cases ok with
    | false =>
      rcases hwired with ⟨hok, -⟩ | ⟨-, a, ha⟩
      · exact nomatch hok
      · exact ⟨hevolves, hcrossed, hpolicy, .inr ⟨(nomatch ·), a, ha⟩⟩
    | true =>
      rcases hwired with ⟨-, hentries, hindex, hmap⟩ | ⟨hok, -⟩
      · obtain ⟨hevolves', hcrossed', hpolicy', hrest⟩ := ih s₁
        refine ⟨hevolves.trans hevolves', hcrossed'.trans hcrossed, hpolicy'.trans hpolicy,
          .inl ?_⟩
        rcases hrest with ⟨hnone, ⟨turn', hturn', hindex'⟩, hmap'⟩ | ⟨-, a, ha⟩
        · refine ⟨hnone, ⟨turn', List.mem_cons_of_mem _ hturn', hindex'⟩, fun h => hmap' ?_⟩
          exact hpolicy.trans h
        · dsimp only at ha ⊢
          rw [ha]
          exact ⟨hentries, ⟨turn, List.mem_cons_self, hindex⟩, hmap⟩
      · exact nomatch hok

/-- The crossings of a call, before its invalidations are fired: an entry is either honest about
them already, or its class map classifies the call that made them. -/
def Pending (key method : String) (new : List String) (s : CacheState α ν)
    (p : CallKey × CacheEntry ν) : Prop :=
  EntryInv s s.crossed p.1 p.2 ∨ ∃ old reach, s.crossed = old ++ new ∧ EntryInv s old p.1 p.2 ∧
    (s.classMap.bind fun classify => classify key method) = some reach ∧
    ∀ cap ∈ new, cap ∈ reach.capabilities

theorem Pending.moved {key method : String} {new : List String} {s s' : CacheState α ν}
    {p : CallKey × CacheEntry ν} (h : Pending key method new s p)
    (hauthority : Evolves s.authority s'.authority) (hindex : s'.cacheIndex = s.cacheIndex)
    (hepoch : s'.invalEpoch = s.invalEpoch) (hcrossed : s'.crossed = s.crossed)
    (hmap : s'.classMap = s.classMap) : Pending key method new s' p := by
  rw [Pending, hcrossed, hmap]
  rcases h with h | ⟨old, reach, hold, h, hreach⟩
  · exact .inl (h.moved hauthority hindex hepoch)
  · exact .inr ⟨old, reach, hold, h.moved hauthority hindex hepoch, hreach⟩

/-- **Firing the invalidations settles the crossings.** -/
theorem fireInvalidations_inv {key method : String} {new : List String} {s : CacheState α ν}
    (hbooks : Books s.authority)
    (hgoverned : s.cacheEntries = [] ∨ (s.approvalPolicy = true ∧ s.classMap.isSome))
    (hentries : ∀ p ∈ s.cacheEntries, Pending key method new s p) :
    CacheInv (fireInvalidations key method s) := by
  rw [fireInvalidations]
  cases hclass : s.classMap.bind fun classify => classify key method with
  | none =>
    refine ⟨hbooks, hgoverned, fun p hp => ?_⟩
    rcases hentries p hp with h | ⟨old, reach, -, -, hreach, -⟩
    · exact h
    · rw [hclass] at hreach
      exact nomatch hreach
  | some reach =>
    dsimp only
    have hmono : ∀ token, s.invalEpoch token ≤
        if token ∈ s.invalTokens ∧ (reach.capabilities.any (capCovers · token)) = true then
          s.invalEpoch token + 1 else s.invalEpoch token := by
      intro token
      split_ifs
      · exact Nat.le_succ _
      · exact le_rfl
    refine ⟨hbooks, hgoverned, fun p hp => ?_⟩
    rcases hentries p hp with h | ⟨old, reach', hcrossed, h, hreach', hnew⟩
    · refine ⟨h.bound, h.spent, h.kinds, h.declared, ?_⟩
      have hcross : Unstale s.invalTokens _ (s.crossed ++ []) p.2 :=
        h.unstale.cross hmono fun _ _ _ hcap => absurd hcap List.not_mem_nil
      rwa [List.append_nil] at hcross
    · obtain rfl : reach = reach' := Option.some.inj (hclass.symm.trans hreach')
      refine ⟨h.bound, h.spent, h.kinds, h.declared, ?_⟩
      show Unstale s.invalTokens _ s.crossed p.2
      rw [hcrossed]
      refine h.unstale.cross hmono fun token htoken cap hcap hcov => ?_
      exact lt_of_lt_of_eq (Nat.lt_succ_self _)
        (if_pos ⟨htoken, List.any_eq_true.2 ⟨cap, hnew cap hcap, hcov⟩⟩).symm

/-- What a call may keep: an entry for its own method, as the index declares it. -/
def Keep.Allowed (keep : Keep) (inv : Invocation τ) (s : CacheState α ν) : Prop :=
  ∀ k spec, keep = .entry k spec → k.1 = inv.key ∧ k.2.1 = inv.method ∧
    Assoc.get? s.cacheIndex (inv.key, inv.method) = some spec ∧ s.approvalPolicy = true ∧
    s.classMap.isSome

/-- **What is stored is bound to what the miss spent.** -/
theorem keepResult_pending (env : SpendEnv α τ) {keep : Keep} {inv : Invocation τ} (value : ν)
    {decision : DecisionRecord} (new : List String) {s : CacheState α ν}
    (hkeep : keep.Allowed inv s) (hdecided : Decided s.authority decision)
    (hbooks : Books s.authority)
    (hgoverned : s.cacheEntries = [] ∨ (s.approvalPolicy = true ∧ s.classMap.isSome))
    (hentries : ∀ p ∈ s.cacheEntries, Pending inv.key inv.method new s p) :
    Books (keepResult env keep value decision s).authority ∧
      ((keepResult env keep value decision s).cacheEntries = [] ∨
        ((keepResult env keep value decision s).approvalPolicy = true ∧
          (keepResult env keep value decision s).classMap.isSome)) ∧
      ∀ p ∈ (keepResult env keep value decision s).cacheEntries,
        Pending inv.key inv.method new (keepResult env keep value decision s) p := by
  cases keep with
  | nothing => exact ⟨hbooks, hgoverned, hentries⟩
  | memo k =>
    exact ⟨hbooks, hgoverned, fun p hp => (hentries p hp).moved (.refl _) rfl rfl rfl rfl⟩
  | entry k spec =>
    obtain ⟨hkey, hmethod, hspec, hpolicy, hmap⟩ := hkeep k spec rfl
    rw [keepResult, cacheStore]
    dsimp only
    split_ifs with hscope
    · exact ⟨hbooks, hgoverned, hentries⟩
    have hread := (readClock_searched env s.authority).evolves
    refine ⟨hbooks.evolves hread, .inr ⟨hpolicy, hmap⟩, fun p hp => ?_⟩
    rcases mem_put hp with hp | rfl
    · exact (hentries p hp).moved hread rfl rfl rfl rfl
    · -- the spends of the miss are its grants, or the one approval
      have hgrant : ∀ {id}, (Authority.grant, id) ∈ decision.spent → id ∈
          decision.spent.filterMap fun x => if x.1 = .grant then some x.2 else none := fun h =>
        List.mem_filterMap.2 ⟨_, h, rfl⟩
      have hkinds : decision.spent ≠ [] ∧ ∀ x ∈ decision.spent, (x.1 = .grant ∧ x.2 ∈
            decision.spent.filterMap fun x => if x.1 = .grant then some x.2 else none) ∨
          (x.1 = .approval ∧ decision.approvalExpiresAt.isSome) := by
        cases hdeadline : decision.approvalExpiresAt with
        | some e =>
          obtain ⟨id, hid⟩ := hdecided.approval (by rw [hdeadline]; rfl)
          rw [hid]
          refine ⟨List.cons_ne_nil _ _, fun x hx => .inr ?_⟩
          rw [List.mem_singleton.1 hx]
          exact ⟨rfl, rfl⟩
        | none =>
          have hsome := fun h => hscope ⟨h, hdeadline⟩
          obtain ⟨id, hid⟩ := List.exists_mem_of_ne_nil _ hsome
          obtain ⟨x, hx, hxid⟩ := List.mem_filterMap.1 hid
          split_ifs at hxid with hxk
          refine ⟨List.ne_nil_of_mem hx, fun y hy => .inl ?_⟩
          have hy' := hdecided.grants x.2 (by rw [← hxk]; exact hx) y hy
          refine ⟨hy', hgrant ?_⟩
          rw [← hy']
          exact hy
      refine .inl ⟨hdecided.bound.evolves hread, hkinds.1, hkinds.2, ⟨spec, ?_, rfl⟩, ?_⟩
      · show Assoc.get? s.cacheIndex (k.1, k.2.1) = some spec
        rw [hkey, hmethod]
        exact hspec
      · refine ⟨rfl, ?_, subscribed_of_declared hspec, le_rfl, fun p hp => ?_⟩
        · rw [List.map_map]
          exact List.map_id _
        · obtain ⟨token, -, rfl⟩ := List.mem_map.1 hp
          refine ⟨le_rfl, fun _ cap hcap => ?_⟩
          rw [List.drop_length] at hcap
          exact absurd hcap List.not_mem_nil

/-- No token of the session is at or below what was crossed. -/
def Unsubscribed (s : CacheState α ν) (crossed : List String) : Prop :=
  ∀ cap ∈ crossed, ∀ token ∈ s.invalTokens, capCovers cap token = false

theorem CacheInv.crossing {s : CacheState α ν} (hs : CacheInv s) {new : List String}
    (hnew : Unsubscribed s new) : CacheInv { s with crossed := s.crossed ++ new } where
  books := hs.books
  governed := hs.governed
  entries p hp := by
    have he := hs.entries p hp
    refine ⟨he.bound, he.spent, he.kinds, he.declared, ?_⟩
    refine he.unstale.cross (fun _ => le_rfl) fun token htoken cap hcap hcov => ?_
    rw [hnew cap hcap token htoken] at hcov
    cases hcov

/-- What a call's host did, as far as the session promises it: it crossed what the call was
classified to reach, and the turns it admitted restate the clause of the method. -/
structure HostRun (s : CacheState α ν) (inv : Invocation τ) (outcome : CallOutcome α τ ν) :
    Prop where
  reached : ∀ classify reach, s.classMap = some classify →
    classify inv.key inv.method = some reach → ∀ cap ∈ outcome.crossed, cap ∈ reach.capabilities
  kept : ∀ turn ∈ outcome.admitted, ∀ spec,
    Assoc.get? s.cacheIndex (inv.key, inv.method) = some spec →
      Assoc.get? turn.cacheIndex (inv.key, inv.method) = some spec

/-- **A call past its lookup keeps the invariant**, where it does not raise after it crossed a
subscribed token. -/
theorem fire_inv {env : SpendEnv α τ} {keep : Keep} {inv : Invocation τ}
    {outcome : CallOutcome α τ ν} {s : CacheState α ν} (hs : CacheInv s)
    (hkeep : keep.Allowed inv s) (hrun : HostRun s inv outcome)
    (hraised : (fire env keep inv outcome s).2 = .raised → Unsubscribed s outcome.crossed) :
    CacheInv (fire env keep inv outcome s).1 := by
  obtain ⟨hevolves, hdecided⟩ := approvalDecideCall_spec env hs.books inv
  rw [fire] at hraised ⊢
  rcases hdecide : approvalDecideCall env s inv with ⟨a, decision⟩
  rw [hdecide] at hevolves hdecided hraised
  cases decision with
  | none => exact hs.evolves hevolves
  | some decision =>
    obtain ⟨hdec, hclassified⟩ := hdecided decision rfl
    cases outcome with
    | raised crossed => exact (hs.crossing (hraised rfl)).evolves hevolves
    | returned value crossed admitted =>
      dsimp only at hraised ⊢
      obtain ⟨hdrained, hcrossed, hpolicy, hturns⟩ := drainPendingAdmits_spec env admitted
        { s with authority := a, crossed := s.crossed ++ crossed }
      rcases hdrain : drainPendingAdmits env admitted
        { s with authority := a, crossed := s.crossed ++ crossed } with ⟨s', ok⟩
      rw [hdrain] at hdrained hcrossed hpolicy hturns hraised
      have hbooks' := (hs.books.evolves hevolves).evolves hdrained
      cases ok with
      | false =>
        rcases hturns with ⟨hnone, -⟩ | ⟨-, a', ha'⟩
        · exact cacheInv_empty hbooks' hnone
        · dsimp only at ha' hdrained ⊢
          rw [ha'] at hdrained ⊢
          exact (hs.crossing (hraised rfl)).evolves (hevolves.trans hdrained)
      | true =>
        have hdec' := hdec.evolves hdrained
        rcases hturns with ⟨hnone, ⟨turn, hturn, hindex⟩, hmap⟩ | ⟨hnil, a', ha'⟩
        · -- a turn was wired: the entries are gone, and the one to store is of its index
          have hkeep' : keep.Allowed inv s' := by
            rintro k spec rfl
            obtain ⟨hkey, hmethod, hspec, hbound, -⟩ := hkeep k spec rfl
            refine ⟨hkey, hmethod, ?_, hpolicy.trans hbound, hmap hbound⟩
            rw [show s'.cacheIndex = turn.cacheIndex from hindex]
            exact hrun.kept turn hturn spec hspec
          obtain ⟨hbooks, hgoverned, hentries⟩ := keepResult_pending env value []
            hkeep' hdec' hbooks' (.inl hnone) fun p hp => by
              rw [show s'.cacheEntries = [] from hnone] at hp
              exact absurd hp List.not_mem_nil
          exact fireInvalidations_inv hbooks hgoverned hentries
        · dsimp only at ha' hdrained hdec' hbooks' ⊢
          rw [ha'] at hdrained hdec' hbooks' ⊢
          have hmove := hevolves.trans hdrained
          obtain ⟨hbooks, hgoverned, hentries⟩ := keepResult_pending env value crossed
            (s := { s with authority := a', crossed := s.crossed ++ crossed })
            hkeep hdec' hbooks' hs.governed fun p hp => by
              have he := hs.entries p hp
              rcases hs.governed with hnone | ⟨hbound, hmap⟩
              · rw [show s.cacheEntries = [] from hnone] at hp
                exact absurd hp List.not_mem_nil
              obtain ⟨classify, hclassify⟩ := Option.isSome_iff_exists.1 hmap
              obtain ⟨reach, hreach⟩ := Option.isSome_iff_exists.1
                (hclassified classify hbound hclassify)
              refine .inr ⟨s.crossed, reach, rfl,
                he.moved hmove rfl rfl, ?_,
                hrun.reached classify reach hclassify hreach⟩
              show (s.classMap.bind fun classify => classify inv.key inv.method) = some reach
              rw [hclassify]
              exact hreach
          exact fireInvalidations_inv hbooks hgoverned hentries

/-- A lookup leaves the latches of its entry, and what it observed of the grants. -/
theorem CacheInv.looked {s : CacheState α ν} (hs : CacheInv s) (env : SpendEnv α τ) {k : CallKey}
    {entry : CacheEntry ν} (hentry : (k, entry) ∈ s.cacheEntries) :
    CacheInv { s with
      authority := (cacheEntryLive env s entry).1
      cacheEntries := put s.cacheEntries k (cacheEntryLive env s entry).2.1 } := by
  obtain ⟨hevolves, ⟨latch, latch', hlatched⟩, -⟩ := cacheEntryLive_spec env s entry
  refine ⟨hs.books.evolves hevolves, .inr ?_, fun p hp => ?_⟩
  · rcases hs.governed with hnone | hgoverned
    · rw [hnone] at hentry
      exact absurd hentry List.not_mem_nil
    · exact hgoverned
  · rcases mem_put hp with hp | rfl
    · exact (hs.entries p hp).moved hevolves rfl rfl
    · have he : EntryInv { s with
          authority := (cacheEntryLive env s entry).1
          cacheEntries := put s.cacheEntries k (cacheEntryLive env s entry).2.1 }
          s.crossed k entry := (hs.entries _ hentry).moved hevolves rfl rfl
      rw [hlatched]
      exact ⟨he.bound, he.spent, he.kinds, he.declared, he.unstale.generation, he.unstale.names,
        he.unstale.subscribed, he.unstale.past, he.unstale.epochs⟩

/-- **A call keeps the invariant**, where it does not raise after it crossed a subscribed token. -/
theorem call_inv {env : SpendEnv α τ} {inv : Invocation τ} {outcome : CallOutcome α τ ν}
    {s : CacheState α ν} (hs : CacheInv s) (hrun : HostRun s inv outcome)
    (hraised : (call env inv outcome s).2 = .raised → Unsubscribed s outcome.crossed) :
    CacheInv (call env inv outcome s).1 := by
  have hnothing : Keep.Allowed .nothing inv s := fun _ _ h => nomatch h
  rw [call] at hraised ⊢
  cases hspec : Assoc.get? s.cacheIndex (inv.key, inv.method) with
  | none =>
    rw [hspec] at hraised
    exact fire_inv hs hnothing hrun hraised
  | some spec =>
    rw [hspec] at hraised
    dsimp only at hraised ⊢
    by_cases hcls : spec.cls = .pureFn
    · rw [if_pos hcls] at hraised ⊢
      cases hdigest : inv.digest with
      | none => exact hs
      | some digest =>
        rw [hdigest] at hraised
        dsimp only at hraised ⊢
        cases hmemo : Assoc.get? s.cachePure (inv.key, inv.method, digest) with
        | some value => exact hs
        | none =>
          rw [hmemo] at hraised
          exact fire_inv hs (fun _ _ h => nomatch h) hrun hraised
    rw [if_neg hcls] at hraised ⊢
    by_cases hactive : s.approvalPolicy = false ∨ s.classMap.isNone
    · rw [if_pos hactive] at hraised ⊢
      exact fire_inv hs hnothing hrun hraised
    rw [if_neg hactive] at hraised ⊢
    cases hdigest : inv.digest with
    | none => exact hs
    | some digest =>
      rw [hdigest] at hraised
      dsimp only at hraised ⊢
      have hallowed : Keep.Allowed (.entry (inv.key, inv.method, digest) spec) inv s := by
        rintro k spec' h
        obtain ⟨rfl, rfl⟩ := Keep.entry.inj h
        refine ⟨rfl, rfl, hspec, ?_, ?_⟩
        · simpa using fun h => hactive (.inl h)
        · cases hmap : s.classMap with
          | none => exact absurd (.inr (by rw [hmap]; rfl)) hactive
          | some classify => rfl
      cases hentry : Assoc.get? s.cacheEntries (inv.key, inv.method, digest) with
      | none =>
        rw [hentry] at hraised
        exact fire_inv hs hallowed hrun hraised
      | some entry =>
        rw [hentry] at hraised
        dsimp only at hraised ⊢
        have hlooked := hs.looked env (Assoc.mem_of_get? hentry)
        rcases hlive : cacheEntryLive env s entry with ⟨a, entry', live⟩
        rw [hlive] at hraised hlooked
        cases live with
        | true => exact hlooked
        | false => exact fire_inv hlooked hallowed ⟨hrun.reached, hrun.kept⟩ hraised

/-! ## Runs -/

/-- What a session does. A call that raises once it was decided has crossed what `admits` holds
of. -/
inductive CacheStep (env : SpendEnv α τ) (admits : CacheState α ν → List String → Prop) :
    CacheState α ν → CacheState α ν → Prop where
  | call {s : CacheState α ν} {inv : Invocation τ} {outcome : CallOutcome α τ ν}
      (hrun : HostRun s inv outcome)
      (hraised : (call env inv outcome s).2 = .raised → admits s outcome.crossed) :
      CacheStep env admits s (call env inv outcome s).1
  /-- An approval or a mint. -/
  | issue {s : CacheState α ν} {k : Authority} (hk : k ≠ .auto) (info : α)
      (uses expiresAt : Option Int) :
      CacheStep env admits s { s with authority := issue k info uses expiresAt s.authority }
  /-- A revoke of an approval or of a standing grant. -/
  | withdraw {s : CacheState α ν} (x : Slot) :
      CacheStep env admits s { s with authority := { s.authority with
        store := modifyAt s.authority.store x fun r => { r with consumed := true } } }
  /-- A distillation is applied or revoked: the budget of the text is dropped. -/
  | review {s : CacheState α ν} (rules : List (AutoApproveRule α)) (key : String) :
      CacheStep env admits s { s with authority := install env rules { s.authority with
        autoSpend := s.authority.autoSpend.filter fun p => p.1 ≠ key } }
  | turn {s : CacheState α ν} (turn : Surface α τ) : CacheStep env admits s (wireTurn env turn s).1
  | swap {s : CacheState α ν} (surface : Surface α τ) : CacheStep env admits s (swap env surface s)
  | load {s : CacheState α ν} (surface : Surface α τ) : CacheStep env admits s (load env surface s)
  | unload {s : CacheState α ν} : CacheStep env admits s (unload s)

/-- The states of a session. -/
inductive Cached (env : SpendEnv α τ) (admits : CacheState α ν → List String → Prop) :
    CacheState α ν → Prop where
  | start (floor : Int) (approvalPolicy : Bool) :
      Cached env admits ⟨⟨fun _ => [], [], floor, 0, 0, [], [], []⟩, approvalPolicy, 0, none, [],
        [], [], fun _ => 0, []⟩
  | step {s s' : CacheState α ν} (hs : Cached env admits s) (h : CacheStep env admits s s') :
      Cached env admits s'

theorem Books.issue {s : SpendState α} (hs : Books s) (k : Authority) (info : α)
    (uses expiresAt : Option Int) : Books (issue k info uses expiresAt s) := by
  refine ⟨fun k' hk' => ?_, fun k' hk' r hr => ?_⟩
  · show ((Function.update s.store k (s.store k ++ [_]) k').map Record.id).Nodup
    by_cases hk : k' = k
    · subst hk
      rw [Function.update_self, List.map_append, List.nodup_append_comm]
      refine List.nodup_cons.2 ⟨fun hmem => ?_, hs.ids k' hk'⟩
      obtain ⟨r, hr, hid⟩ := List.mem_map.1 hmem
      have hlt := hs.old k' hk' r hr
      rw [hid] at hlt
      exact absurd hlt (lt_irrefl _)
    · rw [Function.update_of_ne hk]
      exact hs.ids k' hk'
  · show r.id.1 < s.next + 1
    replace hr : r ∈ Function.update s.store k (s.store k ++ [_]) k' := hr
    by_cases hk : k' = k
    · subst hk
      rw [Function.update_self] at hr
      rcases List.mem_append.1 hr with hr | hr
      · exact Nat.lt_succ_of_lt (hs.old k' hk' r hr)
      · rw [List.mem_singleton.1 hr]
        exact Nat.lt_succ_self _
    · rw [Function.update_of_ne hk] at hr
      exact Nat.lt_succ_of_lt (hs.old k' hk' r hr)

theorem withdraw_evolves (s : SpendState α) (x : Slot) :
    Evolves s { s with store := modifyAt s.store x fun r => { r with consumed := true } } := by
  have hsame : ∀ r : Record α, SameDeadline r { r with consumed := true } := fun r => ⟨rfl, rfl⟩
  refine ⟨le_rfl, fun k _ => sameDeadline_modifyAt s.store x hsame k, fun id hid => ?_⟩
  exact solventAt_modifyAt hsame hid fun _ r hconsumed => nomatch hconsumed

/-- **One step keeps the invariant.** -/
theorem cacheStep_inv {env : SpendEnv α τ} {s s' : CacheState α ν} (hs : CacheInv s)
    (h : CacheStep env Unsubscribed s s') : CacheInv s' := by
  cases h with
  | call hrun hraised => exact call_inv hs hrun hraised
  | @issue k hk info uses expiresAt =>
    refine ⟨hs.books.issue k info uses expiresAt, hs.governed, fun p hp => ?_⟩
    have he := hs.entries p hp
    exact ⟨he.bound.issue k info uses expiresAt, he.spent, he.kinds, he.declared, he.unstale⟩
  | withdraw x => exact hs.evolves (withdraw_evolves s.authority x)
  | review rules key =>
    have hdropped : Evolves s.authority { s.authority with
        autoSpend := s.authority.autoSpend.filter fun p => p.1 ≠ key } :=
      ⟨le_rfl, fun _ _ => List.forall₂_same.2 fun r _ => .refl r, fun _ => id⟩
    exact hs.evolves (hdropped.trans (install_evolves env rules _))
  | turn turn =>
    obtain ⟨hevolves, -, -, ⟨-, hnone, -⟩ | ⟨-, a, ha⟩⟩ := wireTurn_spec env turn s
    · exact cacheInv_empty (hs.books.evolves hevolves) hnone
    · rw [ha] at hevolves ⊢
      exact hs.evolves hevolves
  | swap surface =>
    have hwalk := walk_gate env surface.bodies s.authority
    rw [swap]
    rcases hgate : walk env surface.bodies [] s.authority with ⟨a, verdict⟩
    rw [hgate] at hwalk
    cases verdict with
    | cleared =>
      dsimp only
      split_ifs
      · exact cacheInv_empty ((hs.books.evolves hwalk).evolves
          (install_evolves env surface.rules a)) rfl
      · have hmoved := hs.evolves hwalk
        exact ⟨hmoved.books, hmoved.governed, fun p hp =>
          (hmoved.entries p hp).moved (.refl _) rfl rfl⟩
    | refused => exact hs.evolves hwalk
    | raised => exact hs.evolves hwalk
  | load surface =>
    have hinstall := install_evolves env surface.rules s.authority
    have hwalk := walk_gate env surface.bodies (install env surface.rules s.authority)
    rw [load]
    rcases hgate : walk env surface.bodies [] (installSurface env surface s).authority with
      ⟨a, verdict⟩
    rw [show walk env surface.bodies [] (install env surface.rules s.authority) = (a, verdict) from
      hgate] at hwalk
    have hbooks := hs.books.evolves (hinstall.trans hwalk)
    cases verdict with
    | cleared => exact cacheInv_empty hbooks rfl
    | refused => exact cacheInv_empty hbooks rfl
    | raised => exact cacheInv_empty hbooks rfl
  | unload =>
    refine cacheInv_empty ⟨fun _ _ => List.nodup_nil, fun _ _ _ hr => ?_⟩ rfl
    exact absurd hr List.not_mem_nil

theorem Cached.inv {env : SpendEnv α τ} {s : CacheState α ν} (h : Cached env Unsubscribed s) :
    CacheInv s := by
  induction h with
  | start floor approvalPolicy =>
    exact cacheInv_empty
      ⟨fun _ _ => List.nodup_nil, fun _ _ _ hr => absurd hr List.not_mem_nil⟩ rfl
  | step _ h ih => exact cacheStep_inv ih h

/-- What an entry that answers is bound to is still good. -/
structure Served (s : CacheState α ν) (spec : CacheSpec) (entry : CacheEntry ν) : Prop where
  generation : entry.miss.generation = s.generation
  /-- The miss spent grants, or an approval with a deadline. -/
  spent : entry.miss.spent ≠ [] ∧ ∀ x ∈ entry.miss.spent, x.1 ≠ .auto
  grants : ∀ id, (Authority.grant, id) ∈ entry.miss.spent →
    (∃ r ∈ s.authority.store .grant, r.id = id) ∧ ∀ r ∈ s.authority.store .grant, r.id = id →
      Live s.authority.floor s.authority.store (.grant, id) r
  approvals : ∀ id, (Authority.approval, id) ∈ entry.miss.spent →
    ∀ r ∈ s.authority.store .approval, r.id = id →
      r.expiresAt.isSome ∧ ¬ Lapsed s.authority.floor r.expiresAt
  uncrossed : ∀ token ∈ spec.invalidatedBy, ∀ cap ∈ s.crossed.drop entry.miss.crossed,
    capCovers cap token = false

theorem fire_not_hit {env : SpendEnv α τ} {keep : Keep} {inv : Invocation τ}
    {outcome : CallOutcome α τ ν} {s : CacheState α ν} {value : ν} :
    (fire env keep inv outcome s).2 ≠ .hit value := by
  rw [fire]
  rcases approvalDecideCall env s inv with ⟨a, _ | decision⟩
  · nofun
  cases outcome with
  | raised crossed => nofun
  | returned value crossed admitted =>
    dsimp only
    rcases drainPendingAdmits env admitted
      { s with authority := a, crossed := s.crossed ++ crossed } with ⟨s', ok⟩
    cases ok <;> nofun

/-- **The seam cache serves nothing stale and launders no authority**: whenever a `cache
capability` or `cache external` method is answered from an entry, the grants its miss spent can
still be spent and the approval its miss spent has not lapsed, the generation is the one of the
miss, and no call since has crossed a capability at or above a token of its clause; in every run
in which a call that raises has crossed no subscribed token. -/
theorem hit_serves_live {env : SpendEnv α τ} {s : CacheState α ν} (hs : Cached env Unsubscribed s)
    {inv : Invocation τ} {outcome : CallOutcome α τ ν} {spec : CacheSpec} {value : ν}
    (hspec : Assoc.get? s.cacheIndex (inv.key, inv.method) = some spec)
    (hcls : spec.cls ≠ .pureFn) (hhit : (call env inv outcome s).2 = .hit value) :
    ∃ digest entry, inv.digest = some digest ∧
      Assoc.get? s.cacheEntries (inv.key, inv.method, digest) = some entry ∧
      value = entry.value ∧ Served (call env inv outcome s).1 spec entry := by
  have hinv := hs.inv
  rw [call, hspec] at hhit ⊢
  dsimp only at hhit ⊢
  rw [if_neg hcls] at hhit ⊢
  by_cases hactive : s.approvalPolicy = false ∨ s.classMap.isNone
  · rw [if_pos hactive] at hhit
    exact absurd hhit fire_not_hit
  rw [if_neg hactive] at hhit ⊢
  cases hdigest : inv.digest with
  | none =>
    rw [hdigest] at hhit
    exact nomatch hhit
  | some digest =>
    rw [hdigest] at hhit
    dsimp only at hhit ⊢
    cases hentry : Assoc.get? s.cacheEntries (inv.key, inv.method, digest) with
    | none =>
      rw [hentry] at hhit
      exact absurd hhit fire_not_hit
    | some entry =>
      rw [hentry] at hhit
      dsimp only at hhit ⊢
      obtain ⟨hevolves, -, hlive⟩ := cacheEntryLive_spec env s entry
      rcases hcheck : cacheEntryLive env s entry with ⟨a, entry', live⟩
      rw [hcheck] at hhit hevolves hlive
      cases live with
      | false => exact absurd hhit fire_not_hit
      | true =>
        obtain ⟨rfl, hgeneration, hdeadline, hepochs, hgrants⟩ := hlive rfl
        have he := hinv.entries _ (Assoc.mem_of_get? hentry)
        have hbooks := hinv.books.evolves hevolves
        have hbound := he.bound.evolves hevolves
        refine ⟨digest, entry', rfl, hentry, (Answer.hit.inj hhit).symm, ?_⟩
        refine ⟨he.unstale.generation.symm.trans hgeneration, ⟨he.spent, fun x hx => ?_⟩,
          fun id hid => ?_, fun id hid r hr hrid => ?_, fun token htoken cap hcap => ?_⟩
        · rcases he.kinds x hx with ⟨hk, -⟩ | ⟨hk, -⟩
          · rw [hk]
            nofun
          · rw [hk]
            nofun
        · obtain ⟨-, hmem⟩ | ⟨hk, -⟩ := he.kinds _ hid
          · obtain ⟨q, hq, hqid, hconsumed, hlapsed⟩ := hgrants id hmem
            refine ⟨⟨q, hq, hqid⟩, fun r hr hrid => ?_⟩
            obtain rfl := eq_of_id (hbooks.ids .grant nofun) hq hr (hqid.trans hrid.symm)
            exact ⟨hq, hqid, hconsumed, hbound.solvent id hid q hq hqid hconsumed, hlapsed⟩
          · exact nomatch hk
        · obtain ⟨hk, -⟩ | ⟨-, hsome⟩ := he.kinds _ hid
          · exact nomatch hk
          · rw [hbound.due id hid r hr hrid]
            exact ⟨hsome, hdeadline⟩
        · obtain ⟨spec', hspec', htokens⟩ := he.declared
          obtain rfl : spec = spec' := Option.some.inj (hspec.symm.trans hspec')
          rw [htokens, ← he.unstale.names] at htoken
          obtain ⟨p, hp, rfl⟩ := List.mem_map.1 htoken
          exact (he.unstale.epochs p hp).2 (hepochs p hp) cap hcap

/-- A host whose clock stands still and whose grants cover everything. -/
def grantedEnv : SpendEnv Unit String where
  clock _ := 0
  eligible k _ _ := k = .grant
  covers _ _ _ _ := .ok true
  capabilities t := [t]
  grantable _ := true

/-- `db.read` is kept until `db.write` is crossed. -/
def dbSurface : Surface Unit String where
  classMap _ method :=
    if method = "read" then some ⟨true, ["db.read"]⟩
    else if method = "write" then some ⟨true, ["db.write"]⟩
    else none
  cacheIndex := [(("db", "read"), ⟨.capabilityResult, none, ["db.write"]⟩)]
  rules := []
  bodies := []
  boots := true

def readCall : Invocation String := ⟨"db", "read", some "[]", some "db.read"⟩

def writeCall : Invocation String := ⟨"db", "write", some "[]", some "db.write"⟩

/-- A loaded session with one standing grant. -/
def dbGranted : CacheState Unit Nat :=
  let s := load grantedEnv dbSurface
    ⟨⟨fun _ => [], [], 0, 0, 0, [], [], []⟩, true, 0, none, [], [], [], fun _ => 0, []⟩
  { s with authority := issue .grant () none none s.authority }

theorem cached_granted (admits : CacheState Unit Nat → List String → Prop) :
    Cached grantedEnv admits dbGranted :=
  .step (.step (.start 0 true) (.load dbSurface)) (.issue (k := .grant) nofun () none none)

/-- The read of 1. -/
def readOnce : CacheState Unit Nat :=
  (call grantedEnv readCall (.returned 1 ["db.read"] []) dbGranted).1

theorem cached_readOnce (admits : CacheState Unit Nat → List String → Prop) :
    Cached grantedEnv admits readOnce := by
  refine .step (cached_granted admits) (.call ⟨?_, ?_⟩ fun h => absurd h (by decide))
  · rintro classify reach hmap hreach cap hcap
    obtain rfl : dbSurface.classMap = classify := Option.some.inj hmap
    obtain rfl : (⟨true, ["db.read"]⟩ : Reach) = reach := Option.some.inj hreach
    exact hcap
  · exact fun _ h => absurd h List.not_mem_nil

/-- A second read is answered from the entry of the first. -/
theorem hit_serves_live_db : ∃ digest entry, readCall.digest = some digest ∧
    Assoc.get? readOnce.cacheEntries ("db", "read", digest) = some entry ∧ 1 = entry.value ∧
    Served (call grantedEnv readCall (.raised []) readOnce).1
      ⟨.capabilityResult, none, ["db.write"]⟩ entry :=
  hit_serves_live (cached_readOnce Unsubscribed) rfl nofun (by decide)

/-- A write that raised once it had crossed `db.write`. -/
def writeRaised : CacheState Unit Nat :=
  (call grantedEnv writeCall (.raised ["db.write"]) readOnce).1

/-- **A call that crosses a subscribed token and raises invalidates nothing**: the read is still
answered from before the write. -/
theorem stale_after_raise :
    Cached grantedEnv (fun _ _ => True) writeRaised ∧
      (call grantedEnv readCall (.raised []) writeRaised).2 = .hit 1 ∧
      ∃ entry, Assoc.get? writeRaised.cacheEntries ("db", "read", "[]") = some entry ∧
        "db.write" ∈ writeRaised.crossed.drop entry.miss.crossed := by
  refine ⟨.step (cached_readOnce _) (.call ⟨?_, ?_⟩ fun _ => trivial), by decide, ?_⟩
  · rintro classify reach hmap hreach cap hcap
    obtain rfl : dbSurface.classMap = classify := Option.some.inj hmap
    obtain rfl : (⟨true, ["db.write"]⟩ : Reach) = reach := Option.some.inj hreach
    exact hcap
  · exact fun _ h => absurd h List.not_mem_nil
  · exact ⟨_, rfl, by decide⟩

end Revl.Mcp
