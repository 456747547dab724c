import Revl.Lib.Glob

/-!
# Typed approvals at a crossing

A session owner holds a ledger of granted approvals. A crossing looks for one that covers it,
marks an entry consumed and only then starts the host call.

- `Entry`, `Owner`: a granted approval; the ledger with the live candidates and the session.
- `findApproval`: the first entry valid at a clock reading; entries past their deadline latch.
- `SpendsValid`: a call that fires spends an entry that was valid for it, before it starts.
- `StaleName`: the handle names an entry that is not valid while another one is.
- `approvalCrossing_spec`: **an enforced crossing spends a valid entry unless the name is stale,
  and over a whole history no entry is spent twice**.
-/

namespace Revl.Runtime.Approval

/-! ## The ledger -/

/-- One granted `Approval[C]`. -/
structure Entry where
  requestId : Option String
  capability : Option String
  component : Option String
  candidateHash : Option String
  session : Option String
  expiresAt : Option Int
  consumed : Bool
  expiredAt : Option Int
  deriving DecidableEq, Repr

/-- The approval state of the session owner. A frame without an owner is one with an owner that
does not enforce. -/
structure Owner where
  approvalLedger : List Entry
  approvalEnforced : Bool
  approvalCandidates : String → Option String
  sessionId : Option String

/-- Exact match or a glob scope. -/
def approvalScopeCovers (scope : Option String) (token : String) : Bool :=
  match scope with
  | none => false
  | some s => s == token || Glob.fnmatchcase token s

/-- What a search asks of an entry. -/
structure Want where
  capability : String
  component : String
  candidateHash : Option String
  session : Option String

/-- What the search does at one entry: pass it over, latch its expiry, or return it. -/
inductive Look where
  | skip
  | expire
  | take
  deriving DecidableEq, Repr

def look (w : Want) (now : Int) (e : Entry) : Look :=
  if e.consumed then .skip
  else if e.component ≠ some w.component then .skip
  else if approvalScopeCovers e.capability w.capability = false then .skip
  else if e.expiredAt.isSome then .skip
  else if e.expiresAt.any (· < now) then .expire
  else if w.candidateHash.isSome ∧ e.candidateHash ≠ w.candidateHash then .skip
  else if w.session.isSome ∧ e.session ≠ none ∧ e.session ≠ w.session then .skip
  else .take

/-- The loop of `find_approval`: the ledger it leaves and the place of the entry it returns. -/
def searchLedger (w : Want) (now : Int) : List Entry → List Entry × Option Nat
  | [] => ([], none)
  | e :: rest =>
    match look w now e with
    | .take => (e :: rest, some 0)
    | .skip =>
      let r := searchLedger w now rest
      (e :: r.1, r.2.map (· + 1))
    | .expire =>
      let r := searchLedger w now rest
      ({ e with expiredAt := some now } :: r.1, r.2.map (· + 1))

def Owner.want (o : Owner) (capability component : String) (candidateHash : Option String) :
    Want where
  capability := capability
  component := component
  candidateHash := candidateHash.or (o.approvalCandidates component)
  session := o.sessionId

def Owner.findApproval (o : Owner) (now : Int) (capability component : String)
    (candidateHash : Option String) : Owner × Option Nat :=
  let r := searchLedger (o.want capability component candidateHash) now o.approvalLedger
  ({ o with approvalLedger := r.1 }, r.2)

/-- Idempotent on the request id. -/
def Owner.grantApproval (o : Owner) (e : Entry) : Owner :=
  if o.approvalLedger.any (·.requestId = e.requestId) then o
  else { o with approvalLedger := o.approvalLedger ++ [e] }

/-! ## The crossing -/

inductive Event where
  /-- The ledger entry at this place is marked consumed. -/
  | spent (i : Nat)
  | approvalConsumed (requestId : Option String)
  | fire
  | approvalEmission (requestId : Option String) (capability component : String)
  deriving DecidableEq, Repr

/-- What is threaded to the crossing; a value that is no dictionary names nothing. -/
structure Handle where
  requestId : Option String
  passthrough : Bool
  deriving DecidableEq, Repr

/-- One `emit <call> with a`. -/
structure Crossing where
  handle : Handle
  capability : String
  component : String
  /-- The readings the two searches of one crossing make of the clock. -/
  now : Int
  later : Int
  halted : Bool
  /-- Whether a log is open. -/
  wal : Bool
  raises : Bool
  deriving DecidableEq, Repr

def markConsumed (ledger : List Entry) (i : Nat) : List Entry :=
  ledger.modify i fun e => { e with consumed := true }

/-- Consume, fire, and record the emission if the host call returned. -/
def Owner.spend (o : Owner) (c : Crossing) (i : Nat) : Owner × List Event :=
  let rid := o.approvalLedger[i]?.bind (·.requestId)
  ({ o with approvalLedger := markConsumed o.approvalLedger i },
    .spent i :: (if c.wal then [.approvalConsumed rid] else []) ++ .fire ::
      if c.wal && !c.raises then [.approvalEmission rid c.capability c.component] else [])

/-- The entry a named handle is after: the first unconsumed one of that request id. -/
def Owner.named (o : Owner) (h : Handle) : Option Nat :=
  h.requestId.bind fun rid =>
    o.approvalLedger.findIdx? fun e => e.requestId = some rid && !e.consumed

def Owner.enforces (o : Owner) (h : Handle) : Bool :=
  o.approvalEnforced && !h.passthrough

def Owner.fallback (o : Owner) (c : Crossing) (now : Int) : Owner × List Event :=
  match o.findApproval now c.capability c.component none with
  | (o', some i) => o'.spend c i
  | (o', none) => (o', [])

/-- The owner a crossing leaves and what it did, in order. A refused crossing fires nothing. -/
def approvalCrossing (o : Owner) (c : Crossing) : Owner × List Event :=
  if c.halted then (o, [])
  else if o.enforces c.handle = false then (o, [.fire])
  else
    match o.named c.handle with
    | none => o.fallback c c.now
    | some i =>
      -- the named token is spent when *some* entry covers the crossing
      match o.findApproval c.now c.capability c.component none with
      | (o', some _) => o'.spend c i
      | (o', none) => o'.fallback c c.later

/-! ## What the search finds -/

/-- An entry is valid for a crossing at a clock reading. -/
structure Valid (w : Want) (now : Int) (e : Entry) : Prop where
  unconsumed : e.consumed = false
  component : e.component = some w.component
  scope : approvalScopeCovers e.capability w.capability = true
  unlatched : e.expiredAt = none
  unexpired : ∀ deadline, e.expiresAt = some deadline → now ≤ deadline
  candidate : ∀ h, w.candidateHash = some h → e.candidateHash = some h
  session : ∀ s, w.session = some s → e.session = none ∨ e.session = some s

theorem look_take {w : Want} {now : Int} {e : Entry} : look w now e = .take ↔ Valid w now e := by
  constructor
  · intro h
    unfold look at h
    split_ifs at h with h₁ h₂ h₃ h₄ h₅ h₆ h₇
    exact
      { unconsumed := by simpa using h₁
        component := by simpa using h₂
        scope := by simpa using h₃
        unlatched := by simpa using h₄
        unexpired := by
          rintro d hd
          simpa [hd] using h₅
        candidate := by
          intro x hx
          simpa [hx] using h₆
        session := by
          intro s hs
          by_contra hne
          exact h₇ ⟨by simp [hs], fun hn => hne (Or.inl hn), fun he => hne (Or.inr (he.trans hs))⟩ }
  · rintro ⟨h₁, h₂, h₃, h₄, h₅, h₆, h₇⟩
    unfold look
    have hdeadline : e.expiresAt.any (· < now) = false := by
      cases he : e.expiresAt with
      | none => rfl
      | some d => simpa using h₅ d he
    have hhash : ¬(w.candidateHash.isSome ∧ e.candidateHash ≠ w.candidateHash) := by
      rintro ⟨hs, hne⟩
      obtain ⟨x, hx⟩ := Option.isSome_iff_exists.1 hs
      exact hne ((h₆ x hx).trans hx.symm)
    have hsession : ¬(w.session.isSome ∧ e.session ≠ none ∧ e.session ≠ w.session) := by
      rintro ⟨hs, hn, hne⟩
      obtain ⟨x, hx⟩ := Option.isSome_iff_exists.1 hs
      exact (h₇ x hx).elim hn fun he => hne (he.trans hx.symm)
    simp [h₁, h₂, h₃, h₄, hdeadline, hhash, hsession]

/-- An entry the search passed over stays invalid at every later reading: what is past its
deadline is latched. -/
theorem look_skip {w : Want} {now : Int} {e : Entry} (h : look w now e = .skip) (t : Int) :
    ¬Valid w t e := by
  intro hv
  have hdeadline : e.expiresAt.any (· < now) = false := by
    by_contra hpast
    have hexpire : look w now e = .expire := by
      unfold look
      simp [hv.unconsumed, hv.component, hv.scope, hv.unlatched, hpast]
    rw [hexpire] at h
    cases h
  have hnow : Valid w now e :=
    { hv with
      unexpired := by
        intro d hd
        simpa [hd] using hdeadline }
  rw [look_take.2 hnow] at h
  cases h

theorem searchLedger_none {w : Want} {now : Int} {l l' : List Entry}
    (h : searchLedger w now l = (l', none)) : ∀ e ∈ l', ∀ t, ¬Valid w t e := by
  induction l generalizing l' with
  | nil =>
    cases h
    simp
  | cons e rest ih =>
    rw [searchLedger] at h
    cases hl : look w now e with
    | take => simp [hl] at h
    | skip =>
      simp only [hl, Prod.mk.injEq, Option.map_eq_none_iff] at h
      obtain ⟨rfl, hnone⟩ := h
      exact List.forall_mem_cons.2 ⟨look_skip hl, ih (Prod.ext rfl hnone)⟩
    | expire =>
      simp only [hl, Prod.mk.injEq, Option.map_eq_none_iff] at h
      obtain ⟨rfl, hnone⟩ := h
      refine List.forall_mem_cons.2 ⟨fun t hv => ?_, ih (Prod.ext rfl hnone)⟩
      cases hv.unlatched

/-- The first valid entry is returned, and the ledger holds it as it was. -/
theorem searchLedger_some {w : Want} {now : Int} {l l' : List Entry} {i : Nat}
    (h : searchLedger w now l = (l', some i)) :
    ∃ e, l[i]? = some e ∧ l'[i]? = some e ∧ Valid w now e := by
  induction l generalizing l' i with
  | nil => cases h
  | cons e rest ih =>
    rw [searchLedger] at h
    cases hl : look w now e with
    | take =>
      simp only [hl, Prod.mk.injEq, Option.some.injEq] at h
      obtain ⟨rfl, rfl⟩ := h
      exact ⟨e, rfl, rfl, look_take.1 hl⟩
    | skip =>
      simp only [hl, Prod.mk.injEq, Option.map_eq_some_iff] at h
      obtain ⟨rfl, j, hj, rfl⟩ := h
      exact ih (Prod.ext rfl hj)
    | expire =>
      simp only [hl, Prod.mk.injEq, Option.map_eq_some_iff] at h
      obtain ⟨rfl, j, hj, rfl⟩ := h
      exact ih (Prod.ext rfl hj)

theorem searchLedger_isSome {w : Want} {now : Int} {l : List Entry} :
    (searchLedger w now l).2.isSome ↔ ∃ e ∈ l, Valid w now e := by
  induction l with
  | nil => simp [searchLedger]
  | cons e rest ih =>
    rw [searchLedger, List.exists_mem_cons_iff, ← look_take]
    cases hl : look w now e with
    | take => simp
    | skip => simpa using ih
    | expire => simpa using ih

/-! ## What the search changes

It latches expiries and nothing else: the ledger keeps its entries, spent or not, in place. -/

/-- What an expiry does not touch, the search does not. -/
theorem searchLedger_map {β : Type} (f : Entry → β)
    (hf : ∀ e t, f { e with expiredAt := t } = f e) (w : Want) (now : Int) (l : List Entry) :
    (searchLedger w now l).1.map f = l.map f := by
  induction l with
  | nil => rfl
  | cons e rest ih =>
    rw [searchLedger]
    cases look w now e <;> simp [ih, hf]

theorem findApproval_map {β : Type} {f : Entry → β}
    (hf : ∀ e t, f { e with expiredAt := t } = f e) (o : Owner) (now : Int) (cap comp : String)
    (h : Option String) :
    (o.findApproval now cap comp h).1.approvalLedger.map f = o.approvalLedger.map f :=
  searchLedger_map f hf (o.want cap comp h) now o.approvalLedger

/-- A search leaves what it asks for and what is consumed. -/
theorem findApproval_search {o o' : Owner} {now : Int} {cap comp : String} {h : Option String}
    {r : Option Nat} (hf : o.findApproval now cap comp h = (o', r)) :
    searchLedger (o.want cap comp h) now o.approvalLedger = (o'.approvalLedger, r) ∧
      o'.want cap comp h = o.want cap comp h ∧
      o'.approvalLedger.map (·.consumed) = o.approvalLedger.map (·.consumed) := by
  have hmap := findApproval_map (f := Entry.consumed) (fun _ _ => rfl) o now cap comp h
  rw [hf] at hmap
  obtain ⟨rfl, rfl⟩ := Prod.ext_iff.1 hf
  exact ⟨rfl, rfl, hmap⟩

/-! ## One crossing -/

/-- A call that fires under enforcement marks one entry consumed, that entry was valid for the
crossing at the clock, and the consumption is recorded before the call starts. -/
def SpendsValid (o : Owner) (c : Crossing) : Prop :=
  o.enforces c.handle → .fire ∈ (approvalCrossing o c).2 →
    ∃ i e, o.approvalLedger[i]? = some e ∧
      Valid (o.want c.capability c.component none) c.now e ∧
      (approvalCrossing o c).1.approvalLedger.map (·.consumed) =
        (o.approvalLedger.map (·.consumed)).set i true ∧
      ∃ rest, (approvalCrossing o c).2 =
        .spent i :: (if c.wal then [.approvalConsumed e.requestId] else []) ++ .fire :: rest

/-- The handle names an entry that is not valid for the crossing, while another entry is. -/
def StaleName (o : Owner) (c : Crossing) : Prop :=
  (∃ i e, o.named c.handle = some i ∧ o.approvalLedger[i]? = some e ∧
    ¬Valid (o.want c.capability c.component none) c.now e) ∧
  ∃ e ∈ o.approvalLedger, Valid (o.want c.capability c.component none) c.now e

theorem markConsumed_consumed (l : List Entry) (i : Nat) :
    (markConsumed l i).map (·.consumed) = (l.map (·.consumed)).set i true := by
  apply List.ext_getElem?
  intro j
  by_cases hij : i = j
  · subst hij
    cases hl : l[i]? with
    | none => simp_all [markConsumed]
    | some e =>
      have hlt : i < l.length := (List.getElem?_eq_some_iff.1 hl).1
      simp [markConsumed, hlt]
  · simp [markConsumed, hij]

theorem named_spec {o : Owner} {h : Handle} {i : Nat} (hn : o.named h = some i) :
    ∃ e, o.approvalLedger[i]? = some e ∧ e.consumed = false ∧ e.requestId = h.requestId := by
  unfold Owner.named at hn
  cases hr : h.requestId with
  | none => simp [hr] at hn
  | some rid =>
    rw [hr, Option.bind_some, List.findIdx?_eq_some_iff_getElem] at hn
    obtain ⟨hlt, he, -⟩ := hn
    refine ⟨o.approvalLedger[i], List.getElem?_eq_getElem hlt, ?_⟩
    simpa [and_comm] using he

/-- The ledger flags and the events after a search and a spend. -/
theorem spend_spec (o : Owner) (c : Crossing) {i : Nat} {e : Entry}
    (he : o.approvalLedger[i]? = some e) :
    ((o.findApproval c.now c.capability c.component none).1.spend c
        i).1.approvalLedger.map (·.consumed) = (o.approvalLedger.map (·.consumed)).set i true ∧
      ∃ rest, ((o.findApproval c.now c.capability c.component none).1.spend c i).2 =
        .spent i :: (if c.wal then [.approvalConsumed e.requestId] else []) ++ .fire :: rest := by
  constructor
  · rw [← findApproval_map (fun _ _ => rfl) o c.now c.capability c.component none]
    exact markConsumed_consumed _ i
  · have hids := congrArg (fun l : List (Option String) => l[i]?)
      (findApproval_map (f := Entry.requestId) (fun _ _ => rfl) o c.now c.capability
        c.component none)
    simp only [List.getElem?_map, he, Option.map_some] at hids
    generalize (o.findApproval c.now c.capability c.component none).1 = o' at hids ⊢
    have hrid : o'.approvalLedger[i]?.bind (·.requestId) = e.requestId := by
      cases hi : o'.approvalLedger[i]? with
      | none => simp [hi] at hids
      | some e' => simpa [hi] using hids
    refine ⟨if c.wal && !c.raises then [.approvalEmission e.requestId c.capability c.component]
      else [], ?_⟩
    rw [Owner.spend, hrid]

section Enforced

variable {o : Owner} {c : Crossing} (hh : c.halted = false) (he : o.enforces c.handle = true)

include hh he

/-- With a named entry and any valid one, the named entry is spent. -/
theorem approvalCrossing_named {i : Nat} (hn : o.named c.handle = some i)
    (hv : ∃ e ∈ o.approvalLedger, Valid (o.want c.capability c.component none) c.now e) :
    approvalCrossing o c =
      (o.findApproval c.now c.capability c.component none).1.spend c i := by
  obtain ⟨j, hj⟩ := Option.isSome_iff_exists.1 (searchLedger_isSome.2 hv)
  have hfind : (o.findApproval c.now c.capability c.component none).2 = some j := hj
  rw [approvalCrossing]
  simp only [hh, he, hn, Bool.false_eq_true, if_false, reduceCtorEq]
  cases hf : o.findApproval c.now c.capability c.component none with
  | mk o' r =>
    rw [hf] at hfind
    cases hfind
    rfl

/-- With a named entry and no valid one, the second search finds nothing either. -/
theorem approvalCrossing_refused {i : Nat} (hn : o.named c.handle = some i)
    (hv : ¬∃ e ∈ o.approvalLedger, Valid (o.want c.capability c.component none) c.now e) :
    (approvalCrossing o c).2 = [] ∧
      (approvalCrossing o c).1.approvalLedger.map (·.consumed) =
        o.approvalLedger.map (·.consumed) := by
  rw [approvalCrossing]
  simp only [hh, he, hn, Bool.false_eq_true, if_false, reduceCtorEq]
  cases hf : o.findApproval c.now c.capability c.component none with
  | mk o' r =>
    obtain ⟨hsearch, hwant, hfirst⟩ := findApproval_search hf
    cases r with
    | some j =>
      obtain ⟨e, hj, -, hvalid⟩ := searchLedger_some hsearch
      exact absurd ⟨e, List.mem_of_getElem? hj, hvalid⟩ hv
    | none =>
      have hnone : searchLedger (o'.want c.capability c.component none) c.later
          o'.approvalLedger |>.2.isSome = false := by
        rw [Bool.eq_false_iff]
        intro hsome
        obtain ⟨e, hmem, hvalid⟩ := searchLedger_isSome.1 hsome
        rw [hwant] at hvalid
        exact searchLedger_none hsearch e hmem _ hvalid
      rw [Option.isSome_eq_false_iff, Option.isNone_iff_eq_none] at hnone
      constructor
      · show (o'.fallback c c.later).2 = []
        simp [Owner.fallback, Owner.findApproval, hnone]
      · show (o'.fallback c c.later).1.approvalLedger.map (·.consumed) = _
        simp only [Owner.fallback, Owner.findApproval, hnone]
        rw [searchLedger_map (fun e => e.consumed) (fun _ _ => rfl)]
        exact hfirst

/-- With no named entry the first valid entry is spent, or nothing fires. -/
theorem approvalCrossing_unnamed (hn : o.named c.handle = none) :
    ((approvalCrossing o c).2 = [] ∧
      (approvalCrossing o c).1.approvalLedger.map (·.consumed) =
        o.approvalLedger.map (·.consumed)) ∨
      ∃ j e, o.approvalLedger[j]? = some e ∧
        Valid (o.want c.capability c.component none) c.now e ∧
        approvalCrossing o c =
          (o.findApproval c.now c.capability c.component none).1.spend c j := by
  rw [approvalCrossing]
  simp only [hh, he, hn, Bool.false_eq_true, if_false, reduceCtorEq, Owner.fallback]
  cases hf : o.findApproval c.now c.capability c.component none with
  | mk o' r =>
    obtain ⟨hsearch, -, hfirst⟩ := findApproval_search hf
    cases r with
    | none => exact Or.inl ⟨rfl, hfirst⟩
    | some j =>
      obtain ⟨e, hj, -, hvalid⟩ := searchLedger_some hsearch
      exact Or.inr ⟨j, e, hj, hvalid, rfl⟩

end Enforced

/-- What an enforced crossing can do: refuse, or spend one unconsumed entry and fire. The entry
is valid for the crossing, or it is the one the handle names while another is valid. -/
theorem approvalCrossing_cases {o : Owner} {c : Crossing} (hh : c.halted = false)
    (he : o.enforces c.handle = true) :
    ((approvalCrossing o c).2 = [] ∧
      (approvalCrossing o c).1.approvalLedger.map (·.consumed) =
        o.approvalLedger.map (·.consumed)) ∨
      ∃ i e, o.approvalLedger[i]? = some e ∧ e.consumed = false ∧
        (Valid (o.want c.capability c.component none) c.now e ∨
          o.named c.handle = some i ∧
            ∃ e ∈ o.approvalLedger, Valid (o.want c.capability c.component none) c.now e) ∧
        approvalCrossing o c =
          (o.findApproval c.now c.capability c.component none).1.spend c i := by
  cases hn : o.named c.handle with
  | none =>
    rcases approvalCrossing_unnamed hh he hn with h | ⟨j, e, hj, hvalid, heq⟩
    · exact Or.inl h
    · exact Or.inr ⟨j, e, hj, hvalid.unconsumed, Or.inl hvalid, heq⟩
  | some i =>
    by_cases hv : ∃ e ∈ o.approvalLedger, Valid (o.want c.capability c.component none) c.now e
    · obtain ⟨e, hi, hfree, -⟩ := named_spec hn
      exact Or.inr ⟨i, e, hi, hfree, Or.inr ⟨rfl, hv⟩, approvalCrossing_named hh he hn hv⟩
    · exact Or.inl (approvalCrossing_refused hh he hn hv)

/-- **The property of one crossing holds unless the name is stale.** -/
theorem spendsValid_iff (o : Owner) (c : Crossing) :
    SpendsValid o c ↔ ¬(c.halted = false ∧ o.enforces c.handle = true ∧ StaleName o c) := by
  constructor
  · rintro h ⟨hh, he, ⟨i, stale, hn, hi, hstale⟩, hv⟩
    obtain ⟨-, rest, hevents⟩ := spend_spec o c hi
    rw [← approvalCrossing_named hh he hn hv] at hevents
    obtain ⟨j, e, hj, hvalid, -, rest', hevents'⟩ := h he (by rw [hevents]; simp)
    -- the spent entry is the named one on both readings
    rw [hevents] at hevents'
    obtain rfl : i = j := by simpa using (List.cons.inj hevents').1
    rw [hi] at hj
    cases hj
    exact hstale hvalid
  · intro h he hfire
    have hh : c.halted = false := by
      cases hhalt : c.halted with
      | false => rfl
      | true => simp [approvalCrossing, hhalt] at hfire
    rcases approvalCrossing_cases hh he with ⟨hnil, -⟩ | ⟨i, e, hi, -, hwhy, heq⟩
    · rw [hnil] at hfire
      cases hfire
    · rw [heq]
      refine ⟨i, e, hi, ?_, spend_spec o c hi⟩
      rcases hwhy with hvalid | ⟨hn, hv⟩
      · exact hvalid
      · by_contra hstale
        exact h ⟨hh, he, ⟨i, e, hn, hi, hstale⟩, hv⟩

/-! ## Histories -/

/-- What a session does to its approval state. -/
inductive Op where
  | grant (e : Entry)
  /-- `await approval[C]`, the search without a spend. -/
  | request (capability component : String) (now : Int)
  | crossing (c : Crossing)
  /-- A load, a swap or an added turn re-seeds what the frame check compares with. -/
  | reseed (enforced : Bool) (candidates : String → Option String) (session : Option String)

def Owner.step (o : Owner) : Op → Owner × List Event
  | .grant e => (o.grantApproval e, [])
  | .request cap comp now =>
    if o.approvalEnforced then ((o.findApproval now cap comp none).1, []) else (o, [])
  | .crossing c => approvalCrossing o c
  | .reseed enforced candidates session =>
    ({ o with
      approvalEnforced := enforced
      approvalCandidates := candidates
      sessionId := session }, [])

def Owner.run (o : Owner) : List Op → List Event
  | [] => []
  | op :: ops => (o.step op).2 ++ (o.step op).1.run ops

/-- The ledger places spent, in order. -/
def spentOf (events : List Event) : List Nat :=
  events.filterMap fun
    | .spent i => some i
    | _ => none

theorem spentOf_append (a b : List Event) : spentOf (a ++ b) = spentOf a ++ spentOf b :=
  List.filterMap_append

/-- How often the host call starts. -/
def firesOf (events : List Event) : Nat := events.countP (· = .fire)

theorem spentOf_spend (o : Owner) (c : Crossing) (i : Nat) : spentOf (o.spend c i).2 = [i] := by
  rw [Owner.spend]
  cases c.wal <;> cases c.raises <;> rfl

theorem firesOf_spend (o : Owner) (c : Crossing) (i : Nat) : firesOf (o.spend c i).2 = 1 := by
  rw [Owner.spend]
  cases c.wal <;> cases c.raises <;> rfl

/-- A crossing under enforcement starts as many calls as it spends entries. -/
theorem approvalCrossing_fires {o : Owner} {c : Crossing} (he : o.enforces c.handle = true) :
    firesOf (approvalCrossing o c).2 = (spentOf (approvalCrossing o c).2).length := by
  by_cases hh : c.halted = false
  · rcases approvalCrossing_cases hh he with ⟨h, -⟩ | ⟨i, e, -, -, -, heq⟩
    · rw [h]
      rfl
    · rw [heq, spentOf_spend, firesOf_spend]
      rfl
  · rw [Bool.not_eq_false] at hh
    simp [approvalCrossing, hh, firesOf, spentOf]

/-- What one step does to the spent flags: it appends, or it spends one unspent entry. -/
theorem step_flags (o : Owner) (op : Op) :
    (spentOf (o.step op).2 = [] ∧
      o.approvalLedger.map (·.consumed) <+: (o.step op).1.approvalLedger.map (·.consumed)) ∨
    ∃ i e, spentOf (o.step op).2 = [i] ∧ o.approvalLedger[i]? = some e ∧ e.consumed = false ∧
      (o.step op).1.approvalLedger.map (·.consumed) =
        (o.approvalLedger.map (·.consumed)).set i true := by
  cases op with
  | grant e =>
    refine Or.inl ⟨rfl, ?_⟩
    show _ <+: (o.grantApproval e).approvalLedger.map (·.consumed)
    unfold Owner.grantApproval
    split
    · exact List.prefix_refl _
    · simp
  | request cap comp now =>
    rw [Owner.step]
    split
    · have hsame := findApproval_map (f := Entry.consumed) (fun _ _ => rfl) o now cap comp none
      exact Or.inl ⟨rfl, hsame ▸ List.prefix_refl _⟩
    · exact Or.inl ⟨rfl, List.prefix_refl _⟩
  | reseed enforced candidates session => exact Or.inl ⟨rfl, List.prefix_refl _⟩
  | crossing c =>
    show (spentOf (approvalCrossing o c).2 = [] ∧
      _ <+: (approvalCrossing o c).1.approvalLedger.map (·.consumed)) ∨ ∃ i e,
        spentOf (approvalCrossing o c).2 = [i] ∧ _ ∧ _ ∧
          (approvalCrossing o c).1.approvalLedger.map (·.consumed) = _
    cases hh : c.halted with
    | true => exact Or.inl ⟨by simp [approvalCrossing, hh, spentOf], by simp [approvalCrossing, hh]⟩
    | false =>
      cases he : o.enforces c.handle with
      | false =>
        exact Or.inl ⟨by simp [approvalCrossing, hh, he, spentOf],
          by simp [approvalCrossing, hh, he]⟩
      | true =>
        rcases approvalCrossing_cases hh he with ⟨hnil, hflags⟩ | ⟨i, e, hi, hfree, -, heq⟩
        · rw [hnil, hflags]
          exact Or.inl ⟨rfl, List.prefix_refl _⟩
        · rw [heq]
          exact Or.inr ⟨i, e, spentOf_spend _ c i, hi, hfree, (spend_spec o c hi).1⟩

/-- A spent entry stays spent. -/
theorem step_keeps_consumed (o : Owner) (op : Op) {i : Nat}
    (h : (o.approvalLedger.map (·.consumed))[i]? = some true) :
    ((o.step op).1.approvalLedger.map (·.consumed))[i]? = some true := by
  have hlt := (List.getElem?_eq_some_iff.1 h).1
  rcases step_flags o op with ⟨-, happend⟩ | ⟨j, e, -, -, -, hset⟩
  · obtain ⟨more, hmore⟩ := happend
    rw [← hmore, List.getElem?_append_left hlt]
    exact h
  · rw [hset, List.getElem?_set]
    by_cases hj : j = i
    · rw [if_pos hj, if_pos (hj ▸ hlt)]
    · rw [if_neg hj]
      exact h

/-- By induction on the history: its spends are distinct, and none is of an entry that was spent
when it began. -/
theorem run_spent (o : Owner) (ops : List Op) :
    (spentOf (o.run ops)).Nodup ∧
      ∀ i ∈ spentOf (o.run ops), (o.approvalLedger.map (·.consumed))[i]? ≠ some true := by
  induction ops generalizing o with
  | nil => exact ⟨List.nodup_nil, fun i hi => absurd hi List.not_mem_nil⟩
  | cons op ops ih =>
    obtain ⟨hnodup, hfresh⟩ := ih (o.step op).1
    rw [Owner.run, spentOf_append]
    have hlater : ∀ i ∈ spentOf ((o.step op).1.run ops),
        (o.approvalLedger.map (·.consumed))[i]? ≠ some true :=
      fun i hi h => hfresh i hi (step_keeps_consumed o op h)
    rcases step_flags o op with ⟨hnil, -⟩ | ⟨i, e, hone, hi, hfree, hset⟩
    · rw [hnil, List.nil_append]
      exact ⟨hnodup, hlater⟩
    · rw [hone]
      have hnow : ((o.step op).1.approvalLedger.map (·.consumed))[i]? = some true := by
        have hlt := (List.getElem?_eq_some_iff.1 hi).1
        rw [hset]
        simp [hlt]
      constructor
      · exact List.nodup_cons.2 ⟨fun hmem => hfresh i hmem hnow, hnodup⟩
      · intro j hj
        rcases List.mem_cons.1 hj with rfl | hj
        · simp [hi, hfree]
        · exact hlater j hj

/-- **A crossing that fires under enforcement spends a valid entry, recorded before the call
starts, exactly when its handle does not name a stale entry. It starts as many calls as it
spends entries, and over any history no entry is spent twice.** -/
theorem approvalCrossing_spec (o : Owner) :
    (∀ c, SpendsValid o c ↔ ¬(c.halted = false ∧ o.enforces c.handle = true ∧ StaleName o c)) ∧
    (∀ c, o.enforces c.handle = true →
      firesOf (approvalCrossing o c).2 = (spentOf (approvalCrossing o c).2).length) ∧
    ∀ ops, (spentOf (o.run ops)).Nodup :=
  ⟨spendsValid_iff o, fun _ he => approvalCrossing_fires he, fun ops => (run_spent o ops).1⟩

/-! ## A token past its deadline -/

/-- Two approvals of one capability; the first one's deadline has passed. -/
def twoGrants : Owner where
  approvalLedger :=
    [⟨some "appr:1:pay.send", some "pay.send", some "Vault", none, none, some 100, false, none⟩,
      ⟨some "appr:2:pay.send", some "pay.send", some "Vault", none, none, some 900, false, none⟩]
  approvalEnforced := true
  approvalCandidates := fun _ => none
  sessionId := none

/-- A crossing with the handle of the first one. -/
def lateCrossing : Crossing where
  handle := ⟨some "appr:1:pay.send", false⟩
  capability := "pay.send"
  component := "Vault"
  now := 200
  later := 200
  halted := false
  wal := true
  raises := false

/-- It fires on the expired entry, and the valid one can be spent again. -/
theorem not_spendsValid_twoGrants : ¬SpendsValid twoGrants lateCrossing := by
  rw [spendsValid_iff, not_not]
  have hscope : approvalScopeCovers (some "pay.send") "pay.send" = true := by
    simp [approvalScopeCovers]
  refine ⟨rfl, rfl, ⟨0, _, rfl, rfl, ?_⟩, _, List.mem_cons_of_mem _ List.mem_cons_self, ?_⟩
  · intro hv
    exact absurd (hv.unexpired 100 rfl) (by decide)
  · exact
      { unconsumed := rfl
        component := rfl
        scope := hscope
        unlatched := rfl
        unexpired := by
          rintro d hd
          cases hd
          decide
        candidate := by rintro h ⟨⟩
        session := by rintro s ⟨⟩ }

end Revl.Runtime.Approval
