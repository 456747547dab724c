import Revl.Lib.Assoc

/-!
# Spending authority

A crossing spends a ledger entry, a use of each standing grant it needs, or a use of a distilled
rule. A call spends what it found at once. The activation gate reserves what covers each body and
commits the whole set, or releases it newest first.

- `find`, `findAuthority`: what covers a ticket, with the expiries the search observed.
- `reserveSpend`, `releaseSpends`, `commitSpends`, `walk`: the two-phase spend of the gate.
- `findAuthority_spec`: what a decision finds is live and found once.
- `release_reserve`, `reserveAll_release`: **a release undoes its reservations.**
-/

namespace Revl.Mcp

open Entrywise (forall₂_left)

/-- The three kinds of authority. -/
inductive Authority where
  | approval
  | grant
  | auto
  deriving DecidableEq, Repr

/-- A ledger entry, a grant or a materialized rule: what a spend reads and writes of it, beside
what its coverage is about. -/
structure Record (α : Type) where
  /-- Which object it is: what its spends are accounted under, and which copy of it. -/
  id : Nat × Nat
  /-- The text of a rule. -/
  key : String
  info : α
  consumed : Bool
  remainingUses : Option Int
  expiresAt : Option Int
  expiredAt : Option Int

def Record.account {α : Type} (r : Record α) : Nat := r.id.1

/-- An object of one of the three lists. -/
abbrev Slot := Authority × (Nat × Nat)

def Slot.account (x : Slot) : Authority × Nat := (x.1, x.2.1)

/-- An entry of `_auto_spend`. -/
structure Budget where
  id : Nat
  remainingUses : Option Int
  expiresAt : Option Int
  consumed : Bool

/-- A rule of the bound policy. -/
structure AutoApproveRule (α : Type) where
  /-- `to_dsl`. -/
  key : String
  uses : Option Int
  ttlMs : Option Int
  info : α
  /-- Its capabilities parse. -/
  wellFormed : Bool

/-- A session's authority. The last three fields are read by no decision. -/
structure SpendState (α : Type) where
  /-- `_ledger`, `_grants` and `_auto_rules`. -/
  store : Authority → List (Record α)
  autoSpend : List (String × Budget)
  /-- `_clock_floor_ms`. -/
  floor : Int
  /-- How often the clock was read. -/
  ticks : Nat
  next : Nat
  /-- What was granted, with the uses it was granted for. -/
  issued : List ((Authority × Nat) × Option Int)
  /-- What was spent. -/
  spent : List (Authority × Nat)
  /-- What was observed expired. -/
  dead : List (Authority × Nat)

/-- What a decision asks of the clock and of the coverage predicates. -/
structure SpendEnv (α τ : Type) where
  /-- The reading of the clock, before the ratchet. -/
  clock : Nat → Int
  /-- What is compared before the expiry is: the hash, the component, the session. -/
  eligible : Authority → α → τ → Bool
  /-- What is compared after it. The comparison of a grant may raise. -/
  covers : Authority → α → τ → String → Except String Bool
  /-- `classCCapabilities`. -/
  capabilities : τ → List String
  /-- No multi-party and no never-standing rule. -/
  grantable : τ → Bool

variable {α τ : Type}

/-! ## Searching -/

/-- `_now_ms`: the ratcheted reading. -/
def nowMs (env : SpendEnv α τ) (s : SpendState α) : Int := max s.floor (env.clock s.ticks)

/-- `_expired`, with the latch it leaves. -/
def Record.expire (r : Record α) (now : Int) : Bool × Record α :=
  if r.expiredAt.isSome then (true, r)
  else if r.expiresAt.any fun expiresAt => decide (expiresAt < now) then
    (true, { r with expiredAt := some now })
  else (false, r)

/-- The loop of a search: the first record that is unspent, eligible, unexpired, not used up and
covering. -/
def findLive (eligible : Record α → Bool) (covers : Record α → Except String Bool) (now : Int) :
    List (Record α) → List (Record α) × Except String (Option (Nat × Nat))
  | [] => ([], .ok none)
  | r :: rs =>
    let rest := findLive eligible covers now rs
    if r.consumed || !eligible r then (r :: rest.1, rest.2)
    else
      match r.expire now with
      | (true, r) => (r :: rest.1, rest.2)
      | (false, r) =>
        if r.remainingUses.any fun n => decide (n ≤ 0) then (r :: rest.1, rest.2)
        else
          match covers r with
          | .error e => (r :: rs, .error e)
          | .ok false => (r :: rest.1, rest.2)
          | .ok true => (r :: rs, .ok (some r.id))

/-- The latches of a store. -/
def latchedIds (store : Authority → List (Record α)) : List (Authority × Nat) :=
  [.approval, .grant, .auto].flatMap fun k =>
    ((store k).filter fun r => r.expiredAt.isSome).map fun r => (k, r.account)

/-- `_find_standing_approval`, `_live_grant_for` and `_find_auto_approve`. -/
def find (env : SpendEnv α τ) (k : Authority) (t : τ) (cap : String) (s : SpendState α) :
    SpendState α × Except String (Option (Nat × Nat)) :=
  let now := nowMs env s
  let found := findLive (fun r => env.eligible k r.info t) (fun r => env.covers k r.info t cap) now
    (s.store k)
  let store := Function.update s.store k found.1
  ({ s with
      store := store
      floor := now
      ticks := s.ticks + 1
      dead := s.dead ++ latchedIds store },
    found.2)

/-- The loop of `_find_standing_grant`: a live grant for every capability, each once. -/
def findGrants (env : SpendEnv α τ) (t : τ) :
    List String → List (Nat × Nat) → Bool → SpendState α →
      SpendState α × Except String (Option (List (Nat × Nat)))
  | [], grants, missing, s => (s, .ok (if missing then none else some grants))
  | cap :: caps, grants, missing, s =>
    match find env .grant t cap s with
    | (s, .error e) => (s, .error e)
    | (s, .ok none) => findGrants env t caps grants true s
    | (s, .ok (some id)) =>
      findGrants env t caps (if id ∈ grants then grants else grants ++ [id]) missing s

/-- `_find_standing_grant`. -/
def findStandingGrant (env : SpendEnv α τ) (t : τ) (s : SpendState α) :
    SpendState α × Except String (Option (List (Nat × Nat))) :=
  if env.capabilities t = [] ∨ env.grantable t = false then (s, .ok none)
  else findGrants env t (env.capabilities t) [] false s

/-- The order every decision asks in: an approval, the standing grants, a distilled rule. -/
def findAuthority (env : SpendEnv α τ) (t : τ) (s : SpendState α) :
    SpendState α × Except String (Option (List Slot)) :=
  match find env .approval t "" s with
  | (s, .error e) => (s, .error e)
  | (s, .ok (some id)) => (s, .ok (some [(.approval, id)]))
  | (s, .ok none) =>
    match findStandingGrant env t s with
    | (s, .error e) => (s, .error e)
    | (s, .ok (some ids)) => (s, .ok (some (ids.map (Authority.grant, ·))))
    | (s, .ok none) =>
      match find env .auto t "" s with
      | (s, .error e) => (s, .error e)
      | (s, .ok id) => (s, .ok (id.map fun id => [(.auto, id)]))

/-! ## Spending -/

/-- The in-memory half of a spend. -/
def Record.spend (k : Authority) (r : Record α) : Record α :=
  match k with
  | .approval => { r with consumed := true }
  | _ =>
    match r.remainingUses with
    | none => r
    | some n =>
      { r with
        remainingUses := some (n - 1)
        consumed := r.consumed || decide (n - 1 ≤ 0) }

def atId (id : Nat × Nat) (f : Record α → Record α) (records : List (Record α)) : List (Record α) :=
  records.map fun r => if r.id = id then f r else r

def modifyAt (store : Authority → List (Record α)) (x : Slot)
    (f : Record α → Record α) : Authority → List (Record α) :=
  Function.update store x.1 (atId x.2 f (store x.1))

/-- What undoes a reservation. -/
structure Reservation where
  authority : Authority
  id : Nat × Nat
  consumed : Bool
  remainingUses : Option Int

def Reservation.target (release : Reservation) : Slot := (release.authority, release.id)

/-- The release token of a record. -/
def reservation (s : SpendState α) (x : Slot) : Reservation :=
  match (s.store x.1).find? fun r => r.id = x.2 with
  | none => ⟨x.1, x.2, false, none⟩
  | some r => ⟨x.1, x.2, r.consumed, r.remainingUses⟩

/-- `_reserve_spend`. -/
def reserveSpend (s : SpendState α) (x : Slot) : SpendState α × Reservation :=
  ({ s with store := modifyAt s.store x (Record.spend x.1) }, reservation s x)

/-- The reservations of one body. -/
def reserveAll : List Slot → List Reservation → SpendState α →
    SpendState α × List Reservation
  | [], plan, s => (s, plan)
  | x :: xs, plan, s =>
    let reserved := reserveSpend s x
    reserveAll xs (plan ++ [reserved.2]) reserved.1

def Record.restore (release : Reservation) (r : Record α) : Record α :=
  { r with
    consumed := release.consumed
    remainingUses :=
      if release.authority = .approval then r.remainingUses else release.remainingUses }

/-- `_release_spends`, newest first. -/
def releaseStore (plan : List Reservation) (store : Authority → List (Record α)) :
    Authority → List (Record α) :=
  plan.foldr (fun release store => modifyAt store release.target (Record.restore release)) store

def releaseSpends (plan : List Reservation) (s : SpendState α) : SpendState α :=
  { s with store := releaseStore plan s.store }

/-- `_persist_auto_spend`. -/
def persistAutoSpend (autoSpend : List (String × Budget)) (r : Record α) : List (String × Budget) :=
  autoSpend.map fun p =>
    if p.1 = r.key then
      (p.1, { p.2 with remainingUses := r.remainingUses, consumed := r.consumed })
    else p

/-- One spend made durable. -/
def commitSpend (s : SpendState α) (x : Slot) : SpendState α :=
  { s with
    autoSpend :=
      match x.1, (s.store x.1).find? fun r => r.id = x.2 with
      | .auto, some r => persistAutoSpend s.autoSpend r
      | _, _ => s.autoSpend
    spent := s.spent ++ [x.account] }

/-- `_commit_spends`. -/
def commitSpends (plan : List Reservation) (s : SpendState α) : SpendState α :=
  plan.foldl (fun s release => commitSpend s release.target) s

/-- `_consume_approval`, `_consume_grant` and `_consume_auto_rule`. -/
def consume (s : SpendState α) (x : Slot) : SpendState α :=
  commitSpend { s with store := modifyAt s.store x (Record.spend x.1) } x

/-! ## Decisions -/

/-- How a decision ends. -/
inductive Verdict where
  | cleared
  | refused
  | raised
  deriving DecidableEq

/-- The class-(c) arm of `_approval_decide_call`. -/
def decideCall (env : SpendEnv α τ) (t : τ) (s : SpendState α) : SpendState α × Verdict :=
  match findAuthority env t s with
  | (s, .error _) => (s, .raised)
  | (s, .ok none) => (s, .refused)
  | (s, .ok (some xs)) => (xs.foldl consume s, .cleared)

/-- `_enforce_activation_gate` over the bodies that reach a class-(c) crossing. `none` is a body
whose ticket raises. -/
def walk (env : SpendEnv α τ) :
    List (Option τ) → List Reservation → SpendState α → SpendState α × Verdict
  | [], plan, s => (commitSpends plan s, .cleared)
  | none :: _, plan, s => (releaseSpends plan s, .raised)
  | some t :: bodies, plan, s =>
    match findAuthority env t s with
    | (s, .error _) => (releaseSpends plan s, .raised)
    | (s, .ok none) => (releaseSpends plan s, .refused)
    | (s, .ok (some xs)) =>
      let reserved := reserveAll xs plan s
      walk env bodies reserved.2 reserved.1

/-! ## Granting -/

/-- A new ledger entry or grant. -/
def issue (k : Authority) (info : α) (uses expiresAt : Option Int) (s : SpendState α) :
    SpendState α :=
  let remaining := if k = .approval then none else uses
  { s with
    store := Function.update s.store k
      (s.store k ++ [⟨(s.next, 0), "", info, false, remaining, expiresAt, none⟩])
    next := s.next + 1
    issued := s.issued ++ [((k, s.next), if k = .approval then some 1 else uses)] }

/-- One rule of `_install_auto_approve_rules`: its budget is its own the first time, and what is
left of it from then on. -/
def materialize (now : Int) (s : SpendState α) (rule : AutoApproveRule α) : SpendState α :=
  if rule.wellFormed = false then s
  else
    match Assoc.get? s.autoSpend rule.key with
    | some b =>
      { s with
        store := Function.update s.store .auto (s.store .auto ++
          [⟨(b.id, (s.store .auto).length), rule.key, rule.info, b.consumed, b.remainingUses,
            b.expiresAt, none⟩]) }
    | none =>
      let expiresAt := rule.ttlMs.map (now + ·)
      { s with
        store := Function.update s.store .auto (s.store .auto ++
          [⟨(s.next, (s.store .auto).length), rule.key, rule.info, false, rule.uses, expiresAt,
            none⟩])
        autoSpend := s.autoSpend ++ [(rule.key, ⟨s.next, rule.uses, expiresAt, false⟩)]
        next := s.next + 1
        issued := s.issued ++ [((.auto, s.next), rule.uses)] }

/-- `_install_auto_approve_rules`. -/
def install (env : SpendEnv α τ) (rules : List (AutoApproveRule α)) (s : SpendState α) :
    SpendState α :=
  let now := nowMs env s
  rules.foldl (materialize now)
    { s with store := Function.update s.store .auto [], floor := now, ticks := s.ticks + 1 }

/-! ## What a search leaves -/

/-- The deadline is behind the clock. -/
def Lapsed (floor : Int) (expiresAt : Option Int) : Prop := ∃ e ∈ expiresAt, e < floor

theorem Lapsed.mono {floor floor' : Int} {expiresAt : Option Int} (h : Lapsed floor expiresAt)
    (hle : floor ≤ floor') : Lapsed floor' expiresAt := by
  obtain ⟨e, he, hlt⟩ := h
  exact ⟨e, he, hlt.trans_le hle⟩

/-- The same record, but for an expiry that was observed in between. -/
structure Latch (floor : Int) (r r' : Record α) : Prop where
  same : r' = { r with expiredAt := r'.expiredAt }
  kept : r.expiredAt.isSome → r'.expiredAt.isSome
  lapsed : r'.expiredAt.isSome → r.expiredAt.isSome ∨ Lapsed floor r.expiresAt

theorem Latch.refl (floor : Int) (r : Record α) : Latch floor r r := ⟨rfl, id, .inl⟩

theorem Latch.trans {floor floor' : Int} (hle : floor ≤ floor') {r r' r'' : Record α}
    (h : Latch floor r r') (h' : Latch floor' r' r'') : Latch floor' r r'' where
  same := by rw [h'.same, h.same]
  kept := h'.kept ∘ h.kept
  lapsed hl := by
    rcases h'.lapsed hl with hl | hl
    · exact (h.lapsed hl).imp_right (·.mono hle)
    · rw [h.same] at hl
      exact .inr hl

/-- What a search may change: the clock moves on, and expiries are observed. -/
structure Searched (s s' : SpendState α) : Prop where
  floor : s.floor ≤ s'.floor
  store : ∀ k, List.Forall₂ (Latch s'.floor) (s.store k) (s'.store k)
  autoSpend : s'.autoSpend = s.autoSpend
  next : s'.next = s.next
  issued : s'.issued = s.issued
  spent : s'.spent = s.spent
  deadKept : ∀ x ∈ s.dead, x ∈ s'.dead
  dead : ∀ x ∈ s'.dead, x ∈ s.dead ∨ ∃ r ∈ s'.store x.1, r.account = x.2 ∧ r.expiredAt.isSome

theorem Searched.refl (s : SpendState α) : Searched s s where
  floor := le_rfl
  store _ := List.forall₂_same.2 fun r _ => .refl _ r
  autoSpend := rfl
  next := rfl
  issued := rfl
  spent := rfl
  deadKept _ := id
  dead _ := .inl

/-- What does not look at a latched expiry is the same after a search. -/
theorem Searched.map_eq {s s' : SpendState α} (h : Searched s s') {β : Type*} {f : Record α → β}
    (hf : ∀ r e, f { r with expiredAt := e } = f r) (k : Authority) :
    (s'.store k).map f = (s.store k).map f := by
  have hstore := h.store k
  generalize s.store k = l at hstore
  generalize s'.store k = l' at hstore
  induction hstore with
  | nil => rfl
  | cons hlatch _ ih => rw [List.map_cons, List.map_cons, ih, hlatch.same, hf]

theorem Searched.trans {s s' s'' : SpendState α} (h : Searched s s') (h' : Searched s' s'') :
    Searched s s'' where
  floor := h.floor.trans h'.floor
  store k := by
    have h₁ := h.store k
    have h₂ := h'.store k
    generalize s.store k = l₀ at h₁
    generalize s'.store k = l₁ at h₁ h₂
    generalize s''.store k = l₂ at h₂
    induction h₁ generalizing l₂ with
    | nil =>
      cases h₂
      exact .nil
    | cons hR _ ih =>
      cases h₂ with
      | cons hR' h₂ => exact .cons (hR.trans h'.floor hR') (ih _ h₂)
  autoSpend := h'.autoSpend.trans h.autoSpend
  next := h'.next.trans h.next
  issued := h'.issued.trans h.issued
  spent := h'.spent.trans h.spent
  deadKept x hx := h'.deadKept x (h.deadKept x hx)
  dead x hx := by
    rcases h'.dead x hx with hx | hx
    · refine (h.dead x hx).imp_right ?_
      rintro ⟨r, hr, hid, hlatched⟩
      obtain ⟨r', hr', hlatch⟩ := forall₂_left (h'.store x.1) hr
      exact ⟨r', hr', by rw [hlatch.same]; exact hid, hlatch.kept hlatched⟩
    · exact .inr hx

/-- What a search returns can be spent, and had not lapsed when the search began. -/
structure Live (floor : Int) (store : Authority → List (Record α)) (x : Slot)
    (r : Record α) : Prop where
  held : r ∈ store x.1
  id : r.id = x.2
  unconsumed : r.consumed = false
  left : ∀ n ∈ r.remainingUses, 0 < n
  unlapsed : ¬ Lapsed floor r.expiresAt

theorem Live.searched {s s' : SpendState α} {floor : Int} {x : Slot} {r : Record α}
    (h : Live floor s.store x r) (hs : Searched s s') : ∃ r', Live floor s'.store x r' := by
  obtain ⟨r', hr', hlatch⟩ := forall₂_left (hs.store x.1) h.held
  refine ⟨r', hr', ?_, ?_, ?_, ?_⟩ <;> rw [hlatch.same]
  · exact h.id
  · exact h.unconsumed
  · exact h.left
  · exact h.unlapsed

theorem expire_latch (r : Record α) (now : Int) : Latch now r (r.expire now).2 := by
  rw [Record.expire]
  split_ifs with hlatched hpast
  · exact .refl now r
  · refine ⟨rfl, fun h => rfl, fun _ => .inr ?_⟩
    cases he : r.expiresAt with
    | none =>
      rw [he] at hpast
      exact nomatch hpast
    | some e =>
      rw [he] at hpast
      exact ⟨e, rfl, of_decide_eq_true hpast⟩
  · exact .refl now r

theorem expire_false {r r' : Record α} {now : Int} (h : r.expire now = (false, r')) :
    r' = r ∧ ¬ Lapsed now r.expiresAt := by
  rw [Record.expire] at h
  split_ifs at h with hlatched hpast
  · exact absurd (Prod.mk.inj h).1 nofun
  · exact absurd (Prod.mk.inj h).1 nofun
  · refine ⟨(Prod.mk.inj h).2.symm, ?_⟩
    rintro ⟨e, he, hlt⟩
    refine hpast ?_
    rw [Option.mem_def.1 he]
    exact decide_eq_true hlt

theorem findLive_spec (eligible : Record α → Bool) (covers : Record α → Except String Bool)
    (now : Int) (records : List (Record α)) :
    List.Forall₂ (Latch now) records (findLive eligible covers now records).1 ∧
      ∀ id, (findLive eligible covers now records).2 = .ok (some id) →
        ∃ r ∈ (findLive eligible covers now records).1, r.id = id ∧ r.consumed = false ∧
          (∀ n ∈ r.remainingUses, 0 < n) ∧ ¬ Lapsed now r.expiresAt := by
  induction records with
  | nil => exact ⟨.nil, fun id h => nomatch h⟩
  | cons r rs ih =>
    -- passing over a record keeps what the rest of the loop finds
    have hskip : ∀ r', Latch now r r' → ∀ out,
        out = (r' :: (findLive eligible covers now rs).1, (findLive eligible covers now rs).2) →
        List.Forall₂ (Latch now) (r :: rs) out.1 ∧ ∀ id, out.2 = .ok (some id) →
          ∃ r ∈ out.1, r.id = id ∧ r.consumed = false ∧ (∀ n ∈ r.remainingUses, 0 < n) ∧
            ¬ Lapsed now r.expiresAt := by
      rintro r' hr' out rfl
      refine ⟨.cons hr' ih.1, fun id h => ?_⟩
      obtain ⟨q, hq, hrest⟩ := ih.2 id h
      exact ⟨q, List.mem_cons_of_mem _ hq, hrest⟩
    have hself : List.Forall₂ (Latch now) (r :: rs) (r :: rs) :=
      List.forall₂_same.2 fun r _ => .refl now r
    rw [findLive]
    by_cases hpass : (r.consumed || !eligible r) = true
    · rw [if_pos hpass]
      exact hskip r (.refl now r) _ rfl
    rw [if_neg hpass]
    rcases hexp : r.expire now with ⟨expired, r'⟩
    cases expired with
    | true =>
      refine hskip r' ?_ _ rfl
      have := expire_latch r now
      rwa [hexp] at this
    | false =>
      obtain ⟨rfl, hunlapsed⟩ := expire_false hexp
      simp only
      by_cases hused : (r'.remainingUses.any fun n => decide (n ≤ 0)) = true
      · rw [if_pos hused]
        exact hskip r' (.refl now r') _ rfl
      rw [if_neg hused]
      cases covers r' with
      | error e => exact ⟨hself, fun id h => nomatch h⟩
      | ok covered =>
        cases covered with
        | false => exact hskip r' (.refl now r') _ rfl
        | true =>
          refine ⟨hself, fun id h => ⟨r', List.mem_cons_self, ?_, ?_, ?_, hunlapsed⟩⟩
          · exact Option.some.inj (Except.ok.inj h)
          · cases hc : r'.consumed with
            | false => rfl
            | true => simp [hc] at hpass
          · intro n hn
            by_contra hle
            refine hused ?_
            rw [Option.mem_def.1 hn]
            exact decide_eq_true (not_lt.1 hle)

theorem mem_latchedIds {store : Authority → List (Record α)} {x : Authority × Nat}
    (h : x ∈ latchedIds store) : ∃ r ∈ store x.1, r.account = x.2 ∧ r.expiredAt.isSome := by
  rw [latchedIds, List.mem_flatMap] at h
  obtain ⟨k, -, h⟩ := h
  obtain ⟨r, hr, rfl⟩ := List.mem_map.1 h
  exact ⟨r, (List.mem_filter.1 hr).1, rfl, (List.mem_filter.1 hr).2⟩

theorem find_spec (env : SpendEnv α τ) (k : Authority) (t : τ) (cap : String) (s : SpendState α) :
    Searched s (find env k t cap s).1 ∧ ∀ id, (find env k t cap s).2 = .ok (some id) →
      ∃ r, Live s.floor (find env k t cap s).1.store (k, id) r := by
  have hspec := findLive_spec (fun r => env.eligible k r.info t)
    (fun r => env.covers k r.info t cap) (nowMs env s) (s.store k)
  have hfloor : s.floor ≤ nowMs env s := le_max_left _ _
  refine ⟨⟨hfloor, fun k' => ?_, rfl, rfl, rfl, rfl, fun x hx => List.mem_append_left _ hx, ?_⟩, ?_⟩
  · show List.Forall₂ (Latch (nowMs env s)) (s.store k') (Function.update s.store k _ k')
    by_cases hk : k' = k
    · subst hk
      rw [Function.update_self]
      exact hspec.1
    · rw [Function.update_of_ne hk]
      exact List.forall₂_same.2 fun r _ => .refl _ r
  · intro x hx
    exact (List.mem_append.1 hx).imp_right mem_latchedIds
  · intro id hid
    obtain ⟨r, hr, hrid, hcons, hleft, hlapsed⟩ := hspec.2 id hid
    refine ⟨r, ?_, hrid, hcons, hleft, fun h => hlapsed (h.mono hfloor)⟩
    show r ∈ Function.update s.store k _ k
    rw [Function.update_self]
    exact hr

theorem findGrants_spec (env : SpendEnv α τ) (t : τ) {floor : Int} (caps : List String)
    {grants : List (Nat × Nat)} {missing : Bool} {s : SpendState α} (hfloor : floor ≤ s.floor)
    (hnd : grants.Nodup) (hlive : ∀ id ∈ grants, ∃ r, Live floor s.store (.grant, id) r) :
    Searched s (findGrants env t caps grants missing s).1 ∧
      ∀ ids, (findGrants env t caps grants missing s).2 = .ok (some ids) → ids.Nodup ∧
        ∀ id ∈ ids, ∃ r,
          Live floor (findGrants env t caps grants missing s).1.store (.grant, id) r := by
  induction caps generalizing grants missing s with
  | nil =>
    refine ⟨.refl s, fun ids h => ?_⟩
    cases missing with
    | true => exact nomatch h
    | false =>
      cases h
      exact ⟨hnd, hlive⟩
  | cons cap caps ih =>
    obtain ⟨hsearched, hfound⟩ := find_spec env .grant t cap s
    rw [findGrants]
    rcases hfind : find env .grant t cap s with ⟨s₁, res⟩
    rw [hfind] at hsearched hfound
    have hlive₁ : ∀ id ∈ grants, ∃ r, Live floor s₁.store (.grant, id) r := fun id hid =>
      (hlive id hid).elim fun r hr => hr.searched hsearched
    have hfloor₁ := hfloor.trans hsearched.floor
    match res, hfound with
    | .error e, _ => exact ⟨hsearched, fun ids h => nomatch h⟩
    | .ok none, _ =>
      obtain ⟨hrest, hids⟩ := @ih grants true s₁ hfloor₁ hnd hlive₁
      exact ⟨hsearched.trans hrest, hids⟩
    | .ok (some id), hfound =>
      have hnew : ∃ r, Live floor s₁.store (.grant, id) r := by
        obtain ⟨r, hr⟩ := hfound id rfl
        exact ⟨r, hr.held, hr.id, hr.unconsumed, hr.left, fun h => hr.unlapsed (h.mono hfloor)⟩
      by_cases hmem : id ∈ grants
      · simp only [if_pos hmem]
        obtain ⟨hrest, hids⟩ := ih hfloor₁ hnd hlive₁
        exact ⟨hsearched.trans hrest, hids⟩
      · simp only [if_neg hmem]
        have hnd' : (grants ++ [id]).Nodup := by
          rw [List.nodup_append_comm]
          exact List.nodup_cons.2 ⟨hmem, hnd⟩
        obtain ⟨hrest, hids⟩ := ih hfloor₁ hnd' fun id' hid' => by
          rcases List.mem_append.1 hid' with hid' | hid'
          · exact hlive₁ id' hid'
          · rw [List.mem_singleton.1 hid']
            exact hnew
        exact ⟨hsearched.trans hrest, hids⟩

/-- **What a decision finds is live and is found once.** -/
theorem findAuthority_spec (env : SpendEnv α τ) (t : τ) (s : SpendState α) :
    Searched s (findAuthority env t s).1 ∧
      ∀ xs, (findAuthority env t s).2 = .ok (some xs) → xs.Nodup ∧
        ∀ x ∈ xs, ∃ r, Live s.floor (findAuthority env t s).1.store x r := by
  obtain ⟨hs₁, hfound₁⟩ := find_spec env .approval t "" s
  rw [findAuthority]
  rcases hfind₁ : find env .approval t "" s with ⟨s₁, res₁⟩
  rw [hfind₁] at hs₁ hfound₁
  match res₁, hfound₁ with
  | .error e, _ => exact ⟨hs₁, fun xs h => nomatch h⟩
  | .ok (some id), hfound₁ =>
    refine ⟨hs₁, fun xs h => ?_⟩
    cases h
    refine ⟨List.nodup_singleton _, fun x hx => ?_⟩
    rw [List.mem_singleton.1 hx]
    exact hfound₁ id rfl
  | .ok none, _ =>
    have hgrants : Searched s₁ (findStandingGrant env t s₁).1 ∧
        ∀ ids, (findStandingGrant env t s₁).2 = .ok (some ids) → ids.Nodup ∧
          ∀ id ∈ ids, ∃ r, Live s.floor (findStandingGrant env t s₁).1.store (.grant, id) r := by
      rw [findStandingGrant]
      split_ifs
      · exact ⟨.refl s₁, fun ids h => nomatch h⟩
      · exact findGrants_spec env t _ hs₁.floor List.nodup_nil
          fun id hid => absurd hid List.not_mem_nil
    obtain ⟨hs₂, hfound₂⟩ := hgrants
    simp only
    rcases hfind₂ : findStandingGrant env t s₁ with ⟨s₂, res₂⟩
    rw [hfind₂] at hs₂ hfound₂
    have hs₂' := hs₁.trans hs₂
    match res₂, hfound₂ with
    | .error e, _ => exact ⟨hs₂', fun xs h => nomatch h⟩
    | .ok (some ids), hfound₂ =>
      refine ⟨hs₂', fun xs h => ?_⟩
      cases h
      obtain ⟨hnd, hlive⟩ := hfound₂ ids rfl
      refine ⟨hnd.map fun a b hab => (Prod.mk.inj hab).2, fun x hx => ?_⟩
      obtain ⟨id, hid, rfl⟩ := List.mem_map.1 hx
      exact hlive id hid
    | .ok none, _ =>
      obtain ⟨hs₃, hfound₃⟩ := find_spec env .auto t "" s₂
      simp only
      rcases hfind₃ : find env .auto t "" s₂ with ⟨s₃, res₃⟩
      rw [hfind₃] at hs₃ hfound₃
      have hs₃' := hs₂'.trans hs₃
      match res₃, hfound₃ with
      | .error e, _ => exact ⟨hs₃', fun xs h => nomatch h⟩
      | .ok none, _ => exact ⟨hs₃', fun xs h => nomatch h⟩
      | .ok (some id), hfound₃ =>
        refine ⟨hs₃', fun xs h => ?_⟩
        cases h
        refine ⟨List.nodup_singleton _, fun x hx => ?_⟩
        rw [List.mem_singleton.1 hx]
        obtain ⟨r, hr⟩ := hfound₃ id rfl
        exact ⟨r, hr.held, hr.id, hr.unconsumed, hr.left,
          fun h => hr.unlapsed (h.mono hs₂'.floor)⟩

/-! ## Reserving and releasing -/

theorem eq_of_id {records : List (Record α)} (hnd : (records.map Record.id).Nodup) {r r' : Record α}
    (hr : r ∈ records) (hr' : r' ∈ records) (h : r.id = r'.id) : r = r' :=
  List.inj_on_of_nodup_map hnd hr hr' h

theorem find?_id {records : List (Record α)} (hnd : (records.map Record.id).Nodup) {r : Record α}
    {id : Nat × Nat} (hr : r ∈ records) (hid : r.id = id) :
    (records.find? fun r => r.id = id) = some r := by
  cases h : records.find? fun r => decide (r.id = id) with
  | none =>
    have := List.find?_eq_none.1 h r hr
    simp [hid] at this
  | some r' =>
    have hr' := List.mem_of_find?_eq_some h
    have hid' : r'.id = id := by simpa using List.find?_some h
    rw [eq_of_id hnd hr' hr (hid'.trans hid.symm)]

@[simp] theorem spend_id (k : Authority) (r : Record α) : (r.spend k).id = r.id := by
  cases k with
  | approval => rfl
  | grant => cases h : r.remainingUses <;> simp [Record.spend, h]
  | auto => cases h : r.remainingUses <;> simp [Record.spend, h]

/-- A spend leaves all of a record but its flag and its counter. -/
theorem spend_rest (k : Authority) (r : Record α) :
    (r.spend k).key = r.key ∧ (r.spend k).expiresAt = r.expiresAt ∧
      (r.spend k).expiredAt = r.expiredAt := by
  cases k with
  | approval => exact ⟨rfl, rfl, rfl⟩
  | grant => cases h : r.remainingUses <;> simp [Record.spend, h]
  | auto => cases h : r.remainingUses <;> simp [Record.spend, h]

theorem restore_spend (k : Authority) (id : Nat × Nat) (r : Record α) :
    (r.spend k).restore ⟨k, id, r.consumed, r.remainingUses⟩ = r := by
  obtain ⟨_, _, _, _, remaining, _, _⟩ := r
  cases k with
  | approval => rfl
  | grant => cases remaining <;> rfl
  | auto => cases remaining <;> rfl

theorem modifyAt_self (store : Authority → List (Record α)) (x : Slot)
    (f : Record α → Record α) : modifyAt store x f x.1 = atId x.2 f (store x.1) :=
  Function.update_self _ _ _

theorem modifyAt_of_ne (store : Authority → List (Record α)) {x : Slot}
    (f : Record α → Record α) {k : Authority} (h : k ≠ x.1) : modifyAt store x f k = store k :=
  Function.update_of_ne h _ _

theorem mem_modifyAt {store : Authority → List (Record α)} {x : Slot}
    {f : Record α → Record α} {k : Authority} {r' : Record α} (h : r' ∈ modifyAt store x f k) :
    ∃ r ∈ store k, (k = x.1 ∧ r.id = x.2 ∧ r' = f r) ∨ ((k, r.id) ≠ x ∧ r' = r) := by
  by_cases hk : k = x.1
  · subst hk
    rw [modifyAt_self] at h
    obtain ⟨r, hr, rfl⟩ := List.mem_map.1 h
    refine ⟨r, hr, ?_⟩
    by_cases hid : r.id = x.2
    · exact .inl ⟨rfl, hid, if_pos hid⟩
    · exact .inr ⟨fun he => hid (congrArg Prod.snd he), if_neg hid⟩
  · rw [modifyAt_of_ne store f hk] at h
    exact ⟨r', h, .inr ⟨fun he => hk (congrArg Prod.fst he), rfl⟩⟩

theorem modifyAt_ids (store : Authority → List (Record α)) (x : Slot)
    {f : Record α → Record α} (hf : ∀ r, (f r).id = r.id) (k : Authority) :
    (modifyAt store x f k).map Record.id = (store k).map Record.id := by
  by_cases hk : k = x.1
  · subst hk
    rw [modifyAt_self, atId, List.map_map]
    refine List.map_congr_left fun r _ => ?_
    show (if r.id = x.2 then f r else r).id = r.id
    split_ifs
    · exact hf r
    · rfl
  · rw [modifyAt_of_ne store f hk]

/-- **Releasing a reservation undoes it.** -/
theorem release_reserve {s : SpendState α} {x : Slot} {r : Record α}
    (hnd : ((s.store x.1).map Record.id).Nodup) (hr : r ∈ s.store x.1) (hid : r.id = x.2) :
    modifyAt (modifyAt s.store x (Record.spend x.1)) (reservation s x).target
      (Record.restore (reservation s x)) = s.store := by
  have hres : reservation s x = ⟨x.1, x.2, r.consumed, r.remainingUses⟩ := by
    rw [reservation, find?_id hnd hr hid]
  rw [hres]
  funext k
  by_cases hk : k = x.1
  · subst hk
    show modifyAt _ (x.1, x.2) _ x.1 = _
    rw [modifyAt_self, modifyAt_self, atId, atId, List.map_map]
    refine (List.map_congr_left fun q hq => ?_).trans (List.map_id _)
    show (if (if q.id = x.2 then q.spend x.1 else q).id = x.2 then _ else _) = q
    by_cases hq' : q.id = x.2
    · obtain rfl := eq_of_id hnd hq hr (hq'.trans hid.symm)
      simp only [if_pos hq', spend_id]
      exact restore_spend x.1 x.2 q
    · simp only [if_neg hq']
  · show modifyAt _ (x.1, x.2) _ k = _
    rw [modifyAt_of_ne _ _ hk, modifyAt_of_ne _ _ hk]

theorem latch_restore {floor : Int} {r r' : Record α} (h : Latch floor r r')
    (release : Reservation) : Latch floor (r.restore release) (r'.restore release) := by
  refine ⟨?_, h.kept, h.lapsed⟩
  rw [h.same]
  rfl

theorem latch_modifyAt {floor : Int} {store store' : Authority → List (Record α)}
    (h : ∀ k, List.Forall₂ (Latch floor) (store k) (store' k)) (release : Reservation)
    (k : Authority) :
    List.Forall₂ (Latch floor) (modifyAt store release.target (Record.restore release) k)
      (modifyAt store' release.target (Record.restore release) k) := by
  by_cases hk : k = release.target.1
  · subst hk
    rw [modifyAt_self, modifyAt_self, atId, atId, List.forall₂_map_left_iff,
      List.forall₂_map_right_iff]
    refine (h _).imp fun r r' hlatch => ?_
    have hid : r'.id = r.id := by rw [hlatch.same]
    rw [hid]
    split_ifs
    · exact latch_restore hlatch release
    · exact hlatch
  · rw [modifyAt_of_ne _ _ hk, modifyAt_of_ne _ _ hk]
    exact h k

theorem latch_release {floor : Int} {store store' : Authority → List (Record α)}
    (h : ∀ k, List.Forall₂ (Latch floor) (store k) (store' k)) (plan : List Reservation)
    (k : Authority) :
    List.Forall₂ (Latch floor) (releaseStore plan store k) (releaseStore plan store' k) := by
  induction plan generalizing k with
  | nil => exact h k
  | cons release plan ih => exact latch_modifyAt ih release k

/-- A release leaves the expiries that were observed. -/
theorem latched_release {store : Authority → List (Record α)} (plan : List Reservation)
    {k : Authority} {r : Record α} (hr : r ∈ store k) :
    ∃ r' ∈ releaseStore plan store k, r'.id = r.id ∧ r'.expiredAt = r.expiredAt := by
  induction plan with
  | nil => exact ⟨r, hr, rfl, rfl⟩
  | cons release plan ih =>
    obtain ⟨r', hr', hid, hexp⟩ := ih
    show ∃ q ∈ modifyAt (releaseStore plan store) release.target (Record.restore release) k, _
    by_cases hk : k = release.target.1
    · subst hk
      rw [modifyAt_self]
      refine ⟨_, List.mem_map_of_mem hr', ?_⟩
      split_ifs
      · exact ⟨hid, hexp⟩
      · exact ⟨hid, hexp⟩
    · rw [modifyAt_of_ne _ _ hk]
      exact ⟨r', hr', hid, hexp⟩

/-- A search between a reservation and its release changes nothing about the release. -/
theorem Searched.release {s s' : SpendState α} (h : Searched s s') (plan : List Reservation) :
    Searched (releaseSpends plan s) (releaseSpends plan s') where
  floor := h.floor
  store := latch_release h.store plan
  autoSpend := h.autoSpend
  next := h.next
  issued := h.issued
  spent := h.spent
  deadKept := h.deadKept
  dead x hx := by
    refine (h.dead x hx).imp_right ?_
    rintro ⟨r, hr, hid, hlatched⟩
    obtain ⟨r', hr', hid', hexp⟩ := latched_release plan hr
    exact ⟨r', hr', (congrArg Prod.fst hid').trans hid, hexp ▸ hlatched⟩

theorem reserveAll_release {xs : List Slot} {plan : List Reservation}
    {s : SpendState α} (hnd : ∀ k, ((s.store k).map Record.id).Nodup)
    (hheld : ∀ x ∈ xs, ∃ r ∈ s.store x.1, r.id = x.2) :
    releaseSpends (reserveAll xs plan s).2 (reserveAll xs plan s).1 = releaseSpends plan s := by
  induction xs generalizing plan s with
  | nil => rfl
  | cons x xs ih =>
    obtain ⟨r, hr, hid⟩ := hheld x List.mem_cons_self
    have hids := modifyAt_ids s.store x (f := Record.spend x.1) (spend_id x.1)
    rw [reserveAll, ih (fun k => by
        show ((modifyAt s.store x (Record.spend x.1) k).map Record.id).Nodup
        rw [hids k]
        exact hnd k)
      (fun y hy => by
        obtain ⟨q, hq, hqid⟩ := hheld y (List.mem_cons_of_mem _ hy)
        have hmem : y.2 ∈ (modifyAt s.store x (Record.spend x.1) y.1).map Record.id := by
          rw [hids y.1]
          exact List.mem_map.2 ⟨q, hq, hqid⟩
        exact List.mem_map.1 hmem)]
    show { s with store := releaseStore (plan ++ [reservation s x]) _ } = _
    rw [releaseStore, List.foldr_append]
    show { s with store := releaseStore plan (modifyAt (modifyAt s.store x (Record.spend x.1))
      (reservation s x).target (Record.restore (reservation s x))) } = _
    rw [release_reserve (hnd x.1) hr hid]
    rfl

end Revl.Mcp
