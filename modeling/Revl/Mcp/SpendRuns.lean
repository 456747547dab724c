import Revl.Mcp.Spend

/-!
# Authority over a session's runs

- `Tally`: a record's flag and counter against how often it was spent.
- `SpendInv`: the books of a session, a walk's reservations and half-made commits included.
- `SpendStep`, `Spending`: what a session does, and the states it reaches.
- `authority_is_spent`: **nothing is spent more often than it was granted for, nothing is spent
  after its expiry was observed, and a walk that does not clear restores every counter.**
-/

namespace Revl.Mcp

open Entrywise (forall₂_left forall₂_right)

variable {α τ : Type}

/-! ## Tallies -/

/-- The uses granted are the uses spent and the uses left. -/
def Balanced (uses remaining : Option Int) (count : Nat) : Prop :=
  match uses, remaining with
  | none, none => True
  | some n, some m => (count : Int) + m = n ∧ (0 < count → 0 ≤ m)
  | _, _ => False

/-- What a record says of how often it was spent: an approval by its flag, the others by their
counter. -/
def Tally (k : Authority) (uses : Option Int) (consumed : Bool) (remaining : Option Int)
    (count : Nat) : Prop :=
  match k with
  | .approval => uses = some 1 ∧ count ≤ 1 ∧ (consumed = false → count = 0)
  | _ => Balanced uses remaining count

theorem Balanced.bound {n : Int} {remaining : Option Int} {count : Nat}
    (h : Balanced (some n) remaining count) : (count : Int) ≤ max n 0 := by
  cases remaining with
  | none => exact h.elim
  | some m =>
    obtain ⟨hsum, hleft⟩ := h
    by_cases hc : 0 < count
    · have := hleft hc
      omega
    · omega

theorem Tally.bound {k : Authority} {n : Int} {consumed : Bool} {remaining : Option Int}
    {count : Nat} (h : Tally k (some n) consumed remaining count) : (count : Int) ≤ max n 0 := by
  cases k with
  | approval =>
    obtain ⟨hn, hle, -⟩ := h
    have : n = 1 := Option.some.inj hn
    omega
  | grant => exact Balanced.bound h
  | auto => exact Balanced.bound h

theorem Balanced.spend {uses : Option Int} {r : Record α} {count : Nat}
    (h : Balanced uses r.remainingUses count) (hleft : ∀ n ∈ r.remainingUses, 0 < n) {k : Authority}
    (hk : k ≠ .approval) : Balanced uses (r.spend k).remainingUses (count + 1) := by
  have hspend : (r.spend k).remainingUses = r.remainingUses.map (· - 1) := by
    obtain ⟨_, _, _, _, remaining, _, _⟩ := r
    cases k with
    | approval => exact absurd rfl hk
    | grant => cases remaining <;> rfl
    | auto => cases remaining <;> rfl
  rw [hspend]
  cases huses : uses with
  | none =>
    rw [huses] at h
    cases hrem : r.remainingUses with
    | none => trivial
    | some m =>
      rw [hrem] at h
      exact h.elim
  | some n =>
    rw [huses] at h
    cases hrem : r.remainingUses with
    | none =>
      rw [hrem] at h
      exact h.elim
    | some m =>
      rw [hrem] at h
      obtain ⟨hsum, -⟩ := h
      have := hleft m hrem
      refine ⟨?_, fun _ => ?_⟩
      · push_cast
        omega
      · show 0 ≤ m - 1
        omega

/-- **A spend of a live record keeps its tally.** -/
theorem Tally.spend {k : Authority} {uses : Option Int} {r : Record α} {count : Nat}
    (h : Tally k uses r.consumed r.remainingUses count) (hconsumed : r.consumed = false)
    (hleft : ∀ n ∈ r.remainingUses, 0 < n) :
    Tally k uses (r.spend k).consumed (r.spend k).remainingUses (count + 1) := by
  cases k with
  | approval =>
    obtain ⟨huses, -, hzero⟩ := h
    have := hzero hconsumed
    exact ⟨huses, by omega, fun hc => nomatch hc⟩
  | grant => exact Balanced.spend h hleft nofun
  | auto => exact Balanced.spend h hleft nofun

/-- A withdrawn record is spent no further. -/
theorem Tally.withdraw {k : Authority} {uses remaining : Option Int} {consumed : Bool} {count : Nat}
    (h : Tally k uses consumed remaining count) : Tally k uses true remaining count := by
  cases k with
  | approval => exact ⟨h.1, h.2.1, nofun⟩
  | grant => exact h
  | auto => exact h

/-! ## The books -/

/-- A session's books, while the reservations `pending` are uncommitted and the spends of
`persisted` are in the budgets already. -/
structure SpendInv (s : SpendState α) (pending : List Slot)
    (persisted : List (Authority × Nat)) : Prop where
  /-- No two objects share an account. -/
  accounts : ∀ k, ((s.store k).map Record.account).Nodup
  issuedOld : ∀ p ∈ s.issued, p.1.2 < s.next
  issuedOnce : (s.issued.map Prod.fst).Nodup
  approvals : ∀ p ∈ s.issued, p.1.1 = .approval → p.2 = some 1
  takenOld : ∀ x ∈ s.spent ++ pending.map Slot.account, x.2 < s.next
  deadOld : ∀ x ∈ s.dead, x.2 < s.next
  held : ∀ x ∈ pending, ∃ r ∈ s.store x.1, r.id = x.2
  records : ∀ k, ∀ r ∈ s.store k, ∃ uses, ((k, r.account), uses) ∈ s.issued ∧
    Tally k uses r.consumed r.remainingUses
      ((s.spent ++ pending.map Slot.account).count (k, r.account))
  budgets : ∀ p ∈ s.autoSpend, ∃ uses, ((Authority.auto, p.2.id), uses) ∈ s.issued ∧
    Balanced uses p.2.remainingUses (if (Authority.auto, p.2.id) ∈ persisted
      then (s.spent ++ pending.map Slot.account).count (.auto, p.2.id)
      else s.spent.count (.auto, p.2.id))
  budgetKeys : (s.autoSpend.map Prod.fst).Nodup
  budgetIds : (s.autoSpend.map fun p => p.2.id).Nodup
  synced : ∀ r ∈ s.store .auto, ∃ b, (r.key, b) ∈ s.autoSpend ∧ b.id = r.account ∧
    b.expiresAt = r.expiresAt ∧
    ((.auto, r.account) ∉ pending.map Slot.account ∨ (.auto, r.account) ∈ persisted →
      b.remainingUses = r.remainingUses ∧ b.consumed = r.consumed)
  bound : ∀ x n, (x, some n) ∈ s.issued → (s.spent.count x : Int) ≤ max n 0
  latched : ∀ k, ∀ r ∈ s.store k, r.expiredAt.isSome → Lapsed s.floor r.expiresAt
  dead : ∀ x ∈ s.dead, ∀ r ∈ s.store x.1, r.account = x.2 → Lapsed s.floor r.expiresAt
  deadBudgets : ∀ p ∈ s.autoSpend, (Authority.auto, p.2.id) ∈ s.dead → Lapsed s.floor p.2.expiresAt

theorem eq_of_account {records : List (Record α)} (hnd : (records.map Record.account).Nodup)
    {r r' : Record α} (hr : r ∈ records) (hr' : r' ∈ records) (h : r.account = r'.account) :
    r = r' :=
  List.inj_on_of_nodup_map hnd hr hr' h

theorem SpendInv.ids {s : SpendState α} {pending : List Slot} {persisted : List (Authority × Nat)}
    (hinv : SpendInv s pending persisted) (k : Authority) : ((s.store k).map Record.id).Nodup := by
  refine List.Nodup.of_map Prod.fst ?_
  rw [List.map_map]
  exact hinv.accounts k

/-- **A search keeps the books.** -/
theorem SpendInv.searched {s s' : SpendState α} {pending : List Slot}
    {persisted : List (Authority × Nat)} (hinv : SpendInv s pending persisted)
    (h : Searched s s') : SpendInv s' pending persisted := by
  have hback : ∀ {k r'}, r' ∈ s'.store k → ∃ r ∈ s.store k, Latch s'.floor r r' :=
    fun hr' => forall₂_right (h.store _) hr'
  have hlatched : ∀ k, ∀ r ∈ s'.store k, r.expiredAt.isSome → Lapsed s'.floor r.expiresAt := by
    intro k r' hr' hl
    obtain ⟨r, hr, hlatch⟩ := hback hr'
    rw [hlatch.same]
    rcases hlatch.lapsed hl with hl | hl
    · exact (hinv.latched k r hr hl).mono h.floor
    · exact hl
  have haccounts : ∀ k, (s'.store k).map Record.account = (s.store k).map Record.account :=
    h.map_eq fun _ _ => rfl
  constructor
  · exact fun k => haccounts k ▸ hinv.accounts k
  · rw [h.issued, h.next]
    exact hinv.issuedOld
  · rw [h.issued]
    exact hinv.issuedOnce
  · rw [h.issued]
    exact hinv.approvals
  · rw [h.spent, h.next]
    exact hinv.takenOld
  · intro x hx
    rw [h.next]
    rcases h.dead x hx with hx | ⟨r', hr', hid, -⟩
    · exact hinv.deadOld x hx
    · obtain ⟨r, hr, hlatch⟩ := hback hr'
      obtain ⟨uses, hissued, -⟩ := hinv.records x.1 r hr
      have := hinv.issuedOld _ hissued
      rw [hlatch.same] at hid
      exact hid ▸ this
  · intro x hx
    obtain ⟨r, hr, hid⟩ := hinv.held x hx
    obtain ⟨r', hr', hlatch⟩ := forall₂_left (h.store x.1) hr
    exact ⟨r', hr', by rw [hlatch.same]; exact hid⟩
  · intro k r' hr'
    obtain ⟨r, hr, hlatch⟩ := hback hr'
    rw [hlatch.same, h.issued, h.spent]
    exact hinv.records k r hr
  · rw [h.autoSpend, h.issued, h.spent]
    exact hinv.budgets
  · rw [h.autoSpend]
    exact hinv.budgetKeys
  · rw [h.autoSpend]
    exact hinv.budgetIds
  · intro r' hr'
    obtain ⟨r, hr, hlatch⟩ := hback hr'
    rw [hlatch.same, h.autoSpend]
    exact hinv.synced r hr
  · rw [h.issued, h.spent]
    exact hinv.bound
  · exact hlatched
  · intro x hx r' hr' hid
    rcases h.dead x hx with hx | ⟨q, hq, hqid, hl⟩
    · obtain ⟨r, hr, hlatch⟩ := hback hr'
      rw [hlatch.same] at hid ⊢
      exact (hinv.dead x hx r hr hid).mono h.floor
    · obtain rfl := eq_of_account (haccounts x.1 ▸ hinv.accounts x.1) hr' hq (hid.trans hqid.symm)
      exact hlatched x.1 r' hr' hl
  · intro p hp hdead
    rw [h.autoSpend] at hp
    rcases h.dead _ hdead with hdead | ⟨r', hr', hid, hl⟩
    · exact (hinv.deadBudgets p hp hdead).mono h.floor
    · obtain ⟨r, hr, hlatch⟩ := hback hr'
      have hlapsed := hlatched _ r' hr' hl
      rw [hlatch.same] at hid hlapsed
      -- the budget of the latched record is the only one with its id
      obtain ⟨b, hb, hbid, hbexp, -⟩ := hinv.synced r hr
      obtain rfl : p = (r.key, b) :=
        List.inj_on_of_nodup_map hinv.budgetIds hp hb (hbid.trans hid).symm
      rw [hbexp]
      exact hlapsed

theorem modifyAt_accounts (store : Authority → List (Record α)) (x : Slot)
    {f : Record α → Record α} (hf : ∀ r, (f r).id = r.id) (k : Authority) :
    (modifyAt store x f k).map Record.account = (store k).map Record.account := by
  have h := congrArg (List.map Prod.fst) (modifyAt_ids store x hf k)
  rwa [List.map_map, List.map_map] at h

/-- The object of an account is the only one. -/
theorem SpendInv.account_ne {s : SpendState α} {pending : List Slot}
    {persisted : List (Authority × Nat)} (hinv : SpendInv s pending persisted) {x : Slot}
    {r q : Record α} {k : Authority} (hr : r ∈ s.store x.1) (hid : r.id = x.2) (hq : q ∈ s.store k)
    (hne : (k, q.id) ≠ x) : x.account ≠ (k, q.account) := by
  intro h
  obtain rfl : x.1 = k := congrArg Prod.fst h
  have haccount : r.account = q.account := (congrArg Prod.fst hid).trans (congrArg Prod.snd h)
  obtain rfl := eq_of_account (hinv.accounts x.1) hr hq haccount
  exact hne (Prod.ext rfl hid)

/-- **A reservation of a live record keeps the books**, and is pending in them. -/
theorem SpendInv.reserve {s : SpendState α} {pending : List Slot}
    (hinv : SpendInv s pending []) {floor : Int} {x : Slot} {r : Record α}
    (hlive : Live floor s.store x r) :
    SpendInv (reserveSpend s x).1 (pending ++ [x]) [] := by
  have hids := modifyAt_ids s.store x (f := Record.spend x.1) (spend_id x.1)
  have hrest : ∀ q : Record α, (q.spend x.1).id = q.id ∧ (q.spend x.1).key = q.key ∧
      (q.spend x.1).expiresAt = q.expiresAt ∧ (q.spend x.1).expiredAt = q.expiredAt := fun q =>
    ⟨spend_id x.1 q, spend_rest x.1 q⟩
  have hback : ∀ {k q'}, q' ∈ modifyAt s.store x (Record.spend x.1) k →
      ∃ q ∈ s.store k, q'.id = q.id ∧ q'.key = q.key ∧ q'.expiresAt = q.expiresAt ∧
        q'.expiredAt = q.expiredAt := by
    intro k q' hq'
    obtain ⟨q, hq, ⟨-, -, rfl⟩ | ⟨-, rfl⟩⟩ := mem_modifyAt hq'
    · exact ⟨q, hq, hrest q⟩
    · exact ⟨q', hq, rfl, rfl, rfl, rfl⟩
  have hidmem : ∀ y : Slot, (∃ q ∈ s.store y.1, q.id = y.2) →
      ∃ q ∈ modifyAt s.store x (Record.spend x.1) y.1, q.id = y.2 := by
    rintro y ⟨q, hq, hqid⟩
    have hmem : y.2 ∈ (modifyAt s.store x (Record.spend x.1) y.1).map Record.id := by
      rw [hids y.1]
      exact List.mem_map.2 ⟨q, hq, hqid⟩
    exact List.mem_map.1 hmem
  have htaken : s.spent ++ (pending ++ [x]).map Slot.account =
      (s.spent ++ pending.map Slot.account) ++ [x.account] := by
    rw [List.map_append, List.append_assoc, List.map_singleton]
  constructor
  · intro k
    show ((modifyAt s.store x (Record.spend x.1) k).map Record.account).Nodup
    rw [modifyAt_accounts s.store x (spend_id x.1) k]
    exact hinv.accounts k
  · exact hinv.issuedOld
  · exact hinv.issuedOnce
  · exact hinv.approvals
  · intro y hy
    replace hy : y ∈ s.spent ++ (pending ++ [x]).map Slot.account := hy
    rw [htaken] at hy
    rcases List.mem_append.1 hy with hy | hy
    · exact hinv.takenOld y hy
    · rw [List.mem_singleton.1 hy]
      obtain ⟨uses, hissued, -⟩ := hinv.records x.1 r hlive.held
      have haccount : r.account = x.2.1 := congrArg Prod.fst hlive.id
      rw [haccount] at hissued
      exact hinv.issuedOld _ hissued
  · exact hinv.deadOld
  · intro y hy
    refine hidmem y ?_
    rcases List.mem_append.1 hy with hy | hy
    · exact hinv.held y hy
    · rw [List.mem_singleton.1 hy]
      exact ⟨r, hlive.held, hlive.id⟩
  · intro k q' hq'
    show ∃ uses, _ ∈ s.issued ∧ Tally k uses _ _
      ((s.spent ++ (pending ++ [x]).map Slot.account).count _)
    rw [htaken, List.count_append, List.count_singleton]
    obtain ⟨q, hq, ⟨rfl, hid, rfl⟩ | ⟨hne, rfl⟩⟩ := mem_modifyAt hq'
    · obtain rfl := eq_of_id (hinv.ids x.1) hq hlive.held (hid.trans hlive.id.symm)
      obtain ⟨uses, hissued, htally⟩ := hinv.records x.1 q hq
      have haccount : (q.spend x.1).account = q.account := congrArg Prod.fst (spend_id x.1 q)
      have hx : x.account = (x.1, q.account) := Prod.ext rfl (congrArg Prod.fst hid).symm
      rw [haccount, hx, if_pos (beq_self_eq_true _)]
      exact ⟨uses, hissued, htally.spend hlive.unconsumed hlive.left⟩
    · obtain ⟨uses, hissued, htally⟩ := hinv.records k q' hq
      refine ⟨uses, hissued, ?_⟩
      rw [if_neg (by simpa using hinv.account_ne hlive.held hlive.id hq hne)]
      exact htally
  · exact hinv.budgets
  · exact hinv.budgetKeys
  · exact hinv.budgetIds
  · intro q' hq'
    obtain ⟨q, hq, ⟨hk, hid, rfl⟩ | ⟨hne, rfl⟩⟩ := mem_modifyAt hq'
    · obtain ⟨b, hb, hbid, hbexp, -⟩ := hinv.synced q hq
      obtain ⟨hqid, hqkey, hqexp, -⟩ := hrest q
      have haccount : (q.spend x.1).account = q.account := congrArg Prod.fst hqid
      rw [haccount, hqkey, hqexp]
      refine ⟨b, hb, hbid, hbexp, fun h => ?_⟩
      rcases h with h | h
      · refine absurd ?_ h
        rw [List.map_append, List.map_singleton]
        refine List.mem_append_right _ (List.mem_singleton.2 ?_)
        exact Prod.ext hk (congrArg Prod.fst hid)
      · exact absurd h List.not_mem_nil
    · obtain ⟨b, hb, hbid, hbexp, hsame⟩ := hinv.synced q' hq
      refine ⟨b, hb, hbid, hbexp, fun h => hsame (h.imp_left fun hnot hmem => hnot ?_)⟩
      rw [List.map_append]
      exact List.mem_append_left _ hmem
  · exact hinv.bound
  · intro k q' hq' hl
    obtain ⟨q, hq, -, -, hexp, hexpired⟩ := hback hq'
    rw [hexp]
    exact hinv.latched k q hq (hexpired ▸ hl)
  · intro y hy q' hq' hid
    obtain ⟨q, hq, hqid, -, hexp, -⟩ := hback hq'
    rw [hexp]
    exact hinv.dead y hy q hq ((congrArg Prod.fst hqid).symm.trans hid)
  · exact hinv.deadBudgets

/-- Reserving one record leaves the others live. -/
theorem Live.modify {floor : Int} {store : Authority → List (Record α)} {x y : Slot}
    {r : Record α} (hlive : Live floor store y r) (hne : x ≠ y) (f : Record α → Record α) :
    Live floor (modifyAt store x f) y r := by
  refine ⟨?_, hlive.id, hlive.unconsumed, hlive.left, hlive.unlapsed⟩
  by_cases hk : y.1 = x.1
  · rw [hk, modifyAt_self]
    refine List.mem_map.2 ⟨r, hk ▸ hlive.held, if_neg fun hid => hne ?_⟩
    exact Prod.ext hk.symm (hid.symm.trans hlive.id)
  · rw [modifyAt_of_ne _ _ hk]
    exact hlive.held

theorem SpendInv.reserveAll {xs : List Slot} {plan : List Reservation}
    {s : SpendState α} (hinv : SpendInv s (plan.map Reservation.target) []) (hnd : xs.Nodup)
    {floor : Int} (hlive : ∀ x ∈ xs, ∃ r, Live floor s.store x r) :
    SpendInv (reserveAll xs plan s).1 ((reserveAll xs plan s).2.map Reservation.target) [] := by
  induction xs generalizing plan s with
  | nil => exact hinv
  | cons x xs ih =>
    obtain ⟨r, hr⟩ := hlive x List.mem_cons_self
    obtain ⟨hx, hnd⟩ := List.nodup_cons.1 hnd
    have htarget : (reserveSpend s x).2.target = x := by
      show (reservation s x).target = x
      rw [reservation]
      cases (s.store x.1).find? fun r => r.id = x.2 <;> rfl
    refine ih ?_ hnd fun y hy => ?_
    · rw [List.map_append, List.map_singleton, htarget]
      exact hinv.reserve hr
    · obtain ⟨q, hq⟩ := hlive y (List.mem_cons_of_mem _ hy)
      exact ⟨q, hq.modify (fun he : x = y => hx (he ▸ hy)) _⟩

/-! ## Committing -/

/-- What a commit writes: the values of the record into its own budget. -/
theorem SpendInv.persisted_budgets {s : SpendState α} {x : Slot}
    {pending : List Slot} {persisted : List (Authority × Nat)} (hinv : SpendInv s pending persisted)
    (hx : x ∈ pending) :
    ∃ g, (commitSpend s x).autoSpend = s.autoSpend.map g ∧ ∀ q ∈ s.autoSpend,
      (g q).1 = q.1 ∧ (g q).2.id = q.2.id ∧ (g q).2.expiresAt = q.2.expiresAt ∧
        ((x.account = (.auto, q.2.id) ∧ ∃ r ∈ s.store .auto, r.account = q.2.id ∧
            (g q).2.remainingUses = r.remainingUses ∧ (g q).2.consumed = r.consumed) ∨
          (x.account ≠ (.auto, q.2.id) ∧ g q = q)) := by
  obtain ⟨k, id⟩ := x
  by_cases hk : k = .auto
  · subst hk
    obtain ⟨r, hr, hid⟩ := hinv.held _ hx
    replace hid : r.id = id := hid
    obtain ⟨b, hb, hbid, -⟩ := hinv.synced r hr
    have haccount : r.account = id.1 := congrArg Prod.fst hid
    let g : String × Budget → String × Budget := fun q =>
      if q.1 = r.key then
        (q.1, { q.2 with remainingUses := r.remainingUses, consumed := r.consumed })
      else q
    refine ⟨g, ?_, fun q hq => ?_⟩
    · simp only [commitSpend, find?_id (hinv.ids .auto) hr hid]
      rfl
    · by_cases hkey : q.1 = r.key
      · have hgq : g q =
            (q.1, { q.2 with remainingUses := r.remainingUses, consumed := r.consumed }) :=
          if_pos hkey
        obtain rfl : q = (r.key, b) := List.inj_on_of_nodup_map hinv.budgetKeys hq hb hkey
        rw [hgq]
        refine ⟨rfl, rfl, rfl, .inl ⟨?_, r, hr, hbid.symm, rfl, rfl⟩⟩
        exact Prod.ext rfl (haccount.symm.trans hbid.symm)
      · have hgq : g q = q := if_neg hkey
        rw [hgq]
        refine ⟨rfl, rfl, rfl, .inr ⟨fun he => hkey ?_, rfl⟩⟩
        have hqid : q.2.id = b.id :=
          (congrArg Prod.snd he).symm.trans (haccount.symm.trans hbid.symm)
        exact congrArg Prod.fst (List.inj_on_of_nodup_map hinv.budgetIds hq hb hqid)
  · refine ⟨fun q => q, ?_, fun q _ =>
      ⟨rfl, rfl, rfl, .inr ⟨fun he => hk (congrArg Prod.fst he), rfl⟩⟩⟩
    rw [List.map_id']
    cases k with
    | approval => rfl
    | grant => rfl
    | auto => exact absurd rfl hk

section Commit

variable {s : SpendState α} {x : Slot} {pending : List Slot} {persisted : List (Authority × Nat)}

/-- A commit moves a spend from the pending ones to the committed ones. -/
theorem spent_cons : (s.spent ++ [x.account]) ++ pending.map Slot.account =
    s.spent ++ (x :: pending).map Slot.account := by
  rw [List.append_assoc, List.singleton_append, List.map_cons]

variable (hinv : SpendInv s (x :: pending) persisted)

include hinv

/-- The budget of the committed slot is its object's now; the others stay. -/
theorem SpendInv.commit_budgets : ∀ p ∈ (commitSpend s x).autoSpend, ∃ uses,
    ((Authority.auto, p.2.id), uses) ∈ s.issued ∧
      Balanced uses p.2.remainingUses (if (Authority.auto, p.2.id) ∈ x.account :: persisted
        then ((s.spent ++ [x.account]) ++ pending.map Slot.account).count (.auto, p.2.id)
        else (s.spent ++ [x.account]).count (.auto, p.2.id)) := by
  obtain ⟨g, hg, hspec⟩ := hinv.persisted_budgets List.mem_cons_self
  intro p hp
  rw [hg] at hp
  obtain ⟨q, hq, rfl⟩ := List.mem_map.1 hp
  obtain ⟨-, hid, -, ⟨hx, r, hr, hrid, hrem, -⟩ | ⟨hne, hsame⟩⟩ := hspec q hq
  · obtain ⟨uses, hissued, htally⟩ := hinv.records .auto r hr
    rw [hrid] at hissued htally
    rw [hid, hrem]
    refine ⟨uses, hissued, ?_⟩
    rw [if_pos (hx ▸ List.mem_cons_self), spent_cons]
    exact htally
  · obtain ⟨uses, hissued, hbal⟩ := hinv.budgets q hq
    rw [hsame]
    refine ⟨uses, hissued, ?_⟩
    have hcount : (s.spent ++ [x.account]).count (.auto, q.2.id) =
        s.spent.count (.auto, q.2.id) := by
      rw [List.count_append, List.count_singleton, if_neg (by simpa using hne), Nat.add_zero]
    have hmem : (Authority.auto, q.2.id) ∈ x.account :: persisted ↔
        (Authority.auto, q.2.id) ∈ persisted := by
      rw [List.mem_cons]
      exact or_iff_right (Ne.symm hne)
    simp only [spent_cons, hcount, hmem]
    exact hbal

/-- And every object is in step with its budget unless it is pending still. -/
theorem SpendInv.commit_synced : ∀ r ∈ s.store .auto, ∃ b,
    (r.key, b) ∈ (commitSpend s x).autoSpend ∧ b.id = r.account ∧ b.expiresAt = r.expiresAt ∧
      ((.auto, r.account) ∉ pending.map Slot.account ∨
          (.auto, r.account) ∈ x.account :: persisted →
        b.remainingUses = r.remainingUses ∧ b.consumed = r.consumed) := by
  obtain ⟨g, hg, hspec⟩ := hinv.persisted_budgets List.mem_cons_self
  intro r hr
  obtain ⟨b, hb, hbid, hbexp, hsame⟩ := hinv.synced r hr
  obtain ⟨hkey, hid, hexp, hval⟩ := hspec _ hb
  refine ⟨(g (r.key, b)).2, ?_, hid.trans hbid, hexp.trans hbexp, fun h => ?_⟩
  · rw [hg]
    exact List.mem_map.2 ⟨_, hb, Prod.ext hkey rfl⟩
  · rcases hval with ⟨hx, q, hq, hqid, hrem, hcons⟩ | ⟨hne, heq⟩
    · obtain rfl := eq_of_account (hinv.accounts .auto) hq hr (hqid.trans hbid)
      exact ⟨hrem, hcons⟩
    · rw [heq]
      refine hsame (h.imp (fun hnot hmem => ?_) fun hmem => ?_)
      · rcases List.mem_cons.1 hmem with hmem | hmem
        · exact hne (by rw [← hmem, hbid])
        · exact hnot hmem
      · rcases List.mem_cons.1 hmem with hmem | hmem
        · exact absurd (by rw [← hmem, hbid]) hne
        · exact hmem

/-- What is committed stays under the bound of its issue. -/
theorem SpendInv.commit_bound : ∀ y n, (y, some n) ∈ s.issued →
    ((s.spent ++ [x.account]).count y : Int) ≤ max n 0 := by
  intro y n hy
  by_cases hxy : x.account = y
  · subst hxy
    obtain ⟨r, hr, hid⟩ := hinv.held x List.mem_cons_self
    obtain ⟨uses, hissued, htally⟩ := hinv.records x.1 r hr
    have haccount : (x.1, r.account) = x.account := Prod.ext rfl (congrArg Prod.fst hid)
    rw [haccount] at hissued htally
    obtain rfl : uses = some n := congrArg Prod.snd
      (List.inj_on_of_nodup_map hinv.issuedOnce hissued hy rfl)
    have hle : (s.spent ++ [x.account]).count x.account ≤
        (s.spent ++ (x :: pending).map Slot.account).count x.account := by
      rw [← spent_cons]
      exact (List.sublist_append_left _ _).count_le x.account
    have hmax : ((s.spent ++ (x :: pending).map Slot.account).count x.account : Int) ≤
        max n 0 := htally.bound
    omega
  · rw [List.count_append, List.count_singleton, if_neg (by simpa using hxy), Nat.add_zero]
    exact hinv.bound y n hy

/-- **A commit keeps the books.** -/
theorem SpendInv.commit : SpendInv (commitSpend s x) pending (x.account :: persisted) := by
  obtain ⟨g, hg, hspec⟩ := hinv.persisted_budgets List.mem_cons_self
  have hkeys : (commitSpend s x).autoSpend.map Prod.fst = s.autoSpend.map Prod.fst := by
    rw [hg, List.map_map]
    exact List.map_congr_left fun q hq => (hspec q hq).1
  have hbids : (commitSpend s x).autoSpend.map (fun p => p.2.id) =
      s.autoSpend.map fun p => p.2.id := by
    rw [hg, List.map_map]
    exact List.map_congr_left fun q hq => (hspec q hq).2.1
  constructor
  · exact hinv.accounts
  · exact hinv.issuedOld
  · exact hinv.issuedOnce
  · exact hinv.approvals
  · intro y hy
    refine hinv.takenOld y ?_
    rw [← spent_cons]
    exact hy
  · exact hinv.deadOld
  · exact fun y hy => hinv.held y (List.mem_cons_of_mem _ hy)
  · intro k r hr
    show ∃ uses, _ ∧ Tally k uses _ _
      (((s.spent ++ [x.account]) ++ pending.map Slot.account).count (k, r.account))
    rw [spent_cons]
    exact hinv.records k r hr
  · exact hinv.commit_budgets
  · exact hkeys ▸ hinv.budgetKeys
  · exact hbids ▸ hinv.budgetIds
  · exact hinv.commit_synced
  · exact hinv.commit_bound
  · exact hinv.latched
  · exact hinv.dead
  · intro p hp hdead
    rw [hg] at hp
    obtain ⟨q, hq, rfl⟩ := List.mem_map.1 hp
    obtain ⟨-, hid, hexp, -⟩ := hspec q hq
    rw [hexp]
    exact hinv.deadBudgets q hq (hid ▸ hdead)

end Commit

/-- With nothing pending, it no longer matters what a commit wrote. -/
theorem SpendInv.settle {s : SpendState α} {persisted : List (Authority × Nat)}
    (hinv : SpendInv s [] persisted) : SpendInv s [] [] where
  accounts := hinv.accounts
  issuedOld := hinv.issuedOld
  issuedOnce := hinv.issuedOnce
  approvals := hinv.approvals
  takenOld := hinv.takenOld
  deadOld := hinv.deadOld
  held := hinv.held
  records := hinv.records
  budgets p hp := by
    obtain ⟨uses, hissued, hbal⟩ := hinv.budgets p hp
    refine ⟨uses, hissued, ?_⟩
    rw [List.map_nil, List.append_nil] at hbal ⊢
    rwa [ite_self] at hbal ⊢
  budgetKeys := hinv.budgetKeys
  budgetIds := hinv.budgetIds
  synced r hr := by
    obtain ⟨b, hb, hbid, hbexp, hsame⟩ := hinv.synced r hr
    exact ⟨b, hb, hbid, hbexp, fun _ => hsame (.inl List.not_mem_nil)⟩
  bound := hinv.bound
  latched := hinv.latched
  dead := hinv.dead
  deadBudgets := hinv.deadBudgets

theorem SpendInv.commitSpends {plan : List Reservation} {s : SpendState α}
    {persisted : List (Authority × Nat)}
    (hinv : SpendInv s (plan.map Reservation.target) persisted) :
    SpendInv (commitSpends plan s) [] [] := by
  induction plan generalizing s persisted with
  | nil => exact hinv.settle
  | cons release plan ih => exact ih hinv.commit

/-- A one-shot spend is a reservation committed at once. -/
theorem SpendInv.consumeOne {s : SpendState α} (hinv : SpendInv s [] []) {floor : Int}
    {x : Slot} {r : Record α} (hlive : Live floor s.store x r) :
    SpendInv (consume s x) [] [] :=
  (hinv.reserve hlive).commit.settle

theorem SpendInv.consumeAll {xs : List Slot} {s : SpendState α}
    (hinv : SpendInv s [] []) (hnd : xs.Nodup) {floor : Int}
    (hlive : ∀ x ∈ xs, ∃ r, Live floor s.store x r) : SpendInv (xs.foldl consume s) [] [] := by
  induction xs generalizing s with
  | nil => exact hinv
  | cons x xs ih =>
    obtain ⟨r, hr⟩ := hlive x List.mem_cons_self
    obtain ⟨hx, hnd⟩ := List.nodup_cons.1 hnd
    refine ih (hinv.consumeOne hr) hnd fun y hy => ?_
    obtain ⟨q, hq⟩ := hlive y (List.mem_cons_of_mem _ hy)
    exact ⟨q, hq.modify (fun he : x = y => hx (he ▸ hy)) _⟩

/-! ## Decisions -/

theorem commitSpends_spent (plan : List Reservation) (s : SpendState α) :
    (commitSpends plan s).spent = s.spent ++ (plan.map Reservation.target).map Slot.account := by
  induction plan generalizing s with
  | nil => exact (List.append_nil _).symm
  | cons release plan ih =>
    refine (ih _).trans ?_
    show (s.spent ++ [release.target.account]) ++ _ = _
    rw [List.append_assoc, List.singleton_append, List.map_cons, List.map_cons]

theorem consumeAll_spent (xs : List Slot) (s : SpendState α) :
    (xs.foldl consume s).spent = s.spent ++ xs.map Slot.account := by
  induction xs generalizing s with
  | nil => exact (List.append_nil _).symm
  | cons x xs ih =>
    refine (ih _).trans ?_
    show (s.spent ++ [x.account]) ++ xs.map Slot.account = _
    rw [List.append_assoc, List.singleton_append, List.map_cons]

theorem reserveAll_targets (xs : List Slot) (plan : List Reservation)
    (s : SpendState α) :
    (reserveAll xs plan s).2.map Reservation.target = plan.map Reservation.target ++ xs ∧
      (reserveAll xs plan s).1.dead = s.dead := by
  induction xs generalizing plan s with
  | nil => exact ⟨(List.append_nil _).symm, rfl⟩
  | cons x xs ih =>
    obtain ⟨htargets, hdead⟩ := ih (plan ++ [reservation s x]) (reserveSpend s x).1
    have htarget : (reservation s x).target = x := by
      rw [reservation]
      cases (s.store x.1).find? fun r => r.id = x.2 <;> rfl
    refine ⟨htargets.trans ?_, hdead⟩
    rw [List.map_append, List.map_singleton, htarget, List.append_assoc, List.singleton_append]

/-- What is live was not observed expired. -/
theorem SpendInv.not_dead {s s' : SpendState α} {pending : List Slot}
    {persisted : List (Authority × Nat)}
    (hinv : SpendInv s pending persisted) (h : Searched s s') {x : Slot} {r : Record α}
    (hlive : Live s.floor s'.store x r) : x.account ∉ s.dead := by
  intro hdead
  obtain ⟨r₀, hr₀, hlatch⟩ := forall₂_right (h.store x.1) hlive.held
  have hid : r₀.account = r.account := by
    rw [hlatch.same]
    rfl
  have hexp : r.expiresAt = r₀.expiresAt := by rw [hlatch.same]
  have haccount : r₀.account = x.account.2 := hid.trans (congrArg Prod.fst hlive.id)
  exact hlive.unlapsed (hexp ▸ hinv.dead x.account hdead r₀ hr₀ haccount)

theorem decideCall_spec {env : SpendEnv α τ} {t : τ} {s : SpendState α} (hinv : SpendInv s [] []) :
    SpendInv (decideCall env t s).1 [] [] ∧
      ∃ new, (decideCall env t s).1.spent = s.spent ++ new ∧ ∀ x ∈ new, x ∉ s.dead := by
  obtain ⟨hsearched, hfound⟩ := findAuthority_spec env t s
  rw [decideCall]
  rcases hfind : findAuthority env t s with ⟨s₁, res⟩
  rw [hfind] at hsearched hfound
  have hinv₁ := hinv.searched hsearched
  have hnone : s₁.spent = s.spent ++ [] := hsearched.spent.trans (List.append_nil _).symm
  match res, hfound with
  | .error e, _ => exact ⟨hinv₁, [], hnone, fun _ hx => absurd hx List.not_mem_nil⟩
  | .ok none, _ => exact ⟨hinv₁, [], hnone, fun _ hx => absurd hx List.not_mem_nil⟩
  | .ok (some xs), hfound =>
    obtain ⟨hnd, hlive⟩ := hfound xs rfl
    refine ⟨hinv₁.consumeAll hnd hlive, xs.map Slot.account, ?_, fun y hy => ?_⟩
    · rw [← hsearched.spent]
      exact consumeAll_spent xs s₁
    · obtain ⟨x, hx, rfl⟩ := List.mem_map.1 hy
      obtain ⟨r, hr⟩ := hlive x hx
      exact hinv.not_dead hsearched hr

/-- **A walk commits everything or restores everything**: cleared, it keeps the books and spends
nothing that was dead when it began; otherwise only clock and latches are not as it found them. -/
theorem walk_spec {env : SpendEnv α τ} {bodies : List (Option τ)} {plan : List Reservation}
    {s₀ s : SpendState α} (hinv : SpendInv s (plan.map Reservation.target) [])
    (hundo : Searched s₀ (releaseSpends plan s))
    (hplan : ∀ x ∈ plan.map Reservation.target, x.account ∉ s₀.dead) :
    ((walk env bodies plan s).2 = .cleared → SpendInv (walk env bodies plan s).1 [] [] ∧
        ∃ new, (walk env bodies plan s).1.spent = s₀.spent ++ new ∧ ∀ x ∈ new, x ∉ s₀.dead) ∧
      ((walk env bodies plan s).2 ≠ .cleared → Searched s₀ (walk env bodies plan s).1) := by
  induction bodies generalizing plan s with
  | nil =>
    refine ⟨fun _ => ⟨hinv.commitSpends, (plan.map Reservation.target).map Slot.account, ?_,
      fun y hy => ?_⟩, fun h => absurd rfl h⟩
    · refine (commitSpends_spent plan s).trans ?_
      rw [show s.spent = s₀.spent from hundo.spent]
    · obtain ⟨x, hx, rfl⟩ := List.mem_map.1 hy
      exact hplan x hx
  | cons body bodies ih =>
    cases body with
    | none => exact ⟨fun h => (nomatch h), fun _ => hundo⟩
    | some t =>
      obtain ⟨hsearched, hfound⟩ := findAuthority_spec env t s
      rw [walk]
      rcases hfind : findAuthority env t s with ⟨s₁, res⟩
      rw [hfind] at hsearched hfound
      have hinv₁ := hinv.searched hsearched
      have hundo₁ := hundo.trans (hsearched.release plan)
      match res, hfound with
      | .error e, _ => exact ⟨fun h => (nomatch h), fun _ => hundo₁⟩
      | .ok none, _ => exact ⟨fun h => (nomatch h), fun _ => hundo₁⟩
      | .ok (some xs), hfound =>
        obtain ⟨hnd, hlive⟩ := hfound xs rfl
        have hheld : ∀ x ∈ xs, ∃ r ∈ s₁.store x.1, r.id = x.2 := fun x hx =>
          (hlive x hx).elim fun r hr => ⟨r, hr.held, hr.id⟩
        obtain ⟨htargets, -⟩ := reserveAll_targets xs plan s₁
        refine ih (hinv₁.reserveAll hnd hlive) ?_ fun x hx => ?_
        · rw [reserveAll_release hinv₁.ids hheld]
          exact hundo₁
        · rw [htargets] at hx
          rcases List.mem_append.1 hx with hx | hx
          · exact hplan x hx
          · obtain ⟨r, hr⟩ := hlive x hx
            exact fun hdead => hinv.not_dead hsearched hr (hundo.deadKept _ hdead)

/-- A walk starts with nothing reserved. -/
theorem walk_empty (env : SpendEnv α τ) (bodies : List (Option τ)) {s : SpendState α}
    (hinv : SpendInv s [] []) :
    ((walk env bodies [] s).2 = .cleared → SpendInv (walk env bodies [] s).1 [] [] ∧
        ∃ new, (walk env bodies [] s).1.spent = s.spent ++ new ∧ ∀ x ∈ new, x ∉ s.dead) ∧
      ((walk env bodies [] s).2 ≠ .cleared → Searched s (walk env bodies [] s).1) :=
  walk_spec hinv (Searched.refl s) fun _ hx => absurd hx List.not_mem_nil

/-! ## Granting and generations -/

theorem count_next {s : SpendState α} {pending : List Slot} {persisted : List (Authority × Nat)}
    (hinv : SpendInv s pending persisted) (k : Authority) :
    (s.spent ++ pending.map Slot.account).count (k, s.next) = 0 := by
  rw [List.count_eq_zero]
  intro hmem
  exact absurd (hinv.takenOld _ hmem) (lt_irrefl _)

theorem balanced_fresh (uses : Option Int) : Balanced uses uses 0 := by
  cases uses with
  | none => trivial
  | some n => exact ⟨by simp, fun h => absurd h (lt_irrefl _)⟩

/-- A record that was issued is older than the next. -/
theorem SpendInv.account_lt {s : SpendState α} {pending : List Slot}
    {persisted : List (Authority × Nat)}
    (hinv : SpendInv s pending persisted) {k : Authority} {r : Record α} (hr : r ∈ s.store k) :
    r.account < s.next := by
  obtain ⟨uses, hissued, -⟩ := hinv.records k r hr
  exact hinv.issuedOld _ hissued

theorem mem_update_append {store : Authority → List (Record α)} {k k' : Authority}
    {r new : Record α} (h : r ∈ Function.update store k (store k ++ [new]) k') :
    r ∈ store k' ∨ (k' = k ∧ r = new) := by
  by_cases hk : k' = k
  · subst hk
    rw [Function.update_self] at h
    exact (List.mem_append.1 h).imp_right fun h => ⟨rfl, List.mem_singleton.1 h⟩
  · rw [Function.update_of_ne hk] at h
    exact .inl h

theorem update_append_accounts {store : Authority → List (Record α)} {k : Authority}
    {new : Record α} (hnd : ∀ k, ((store k).map Record.account).Nodup)
    (hnew : ∀ r ∈ store k, r.account ≠ new.account) (k' : Authority) :
    ((Function.update store k (store k ++ [new]) k').map Record.account).Nodup := by
  by_cases hk : k' = k
  · subst hk
    rw [Function.update_self, List.map_append, List.nodup_append_comm]
    refine List.nodup_cons.2 ⟨fun hmem => ?_, hnd k'⟩
    obtain ⟨r, hr, hid⟩ := List.mem_map.1 hmem
    exact hnew r hr hid
  · rw [Function.update_of_ne hk]
    exact hnd k'

theorem issued_append {s : SpendState α} {pending : List Slot} {persisted : List (Authority × Nat)}
    (hinv : SpendInv s pending persisted) (k : Authority) (uses : Option Int) :
    ((s.issued ++ [((k, s.next), uses)]).map Prod.fst).Nodup ∧
      ∀ p ∈ s.issued ++ [((k, s.next), uses)], p.1.2 < s.next + 1 := by
  constructor
  · rw [List.map_append, List.nodup_append_comm]
    refine List.nodup_cons.2 ⟨fun hmem => ?_, hinv.issuedOnce⟩
    obtain ⟨p, hp, hkey⟩ := List.mem_map.1 hmem
    have := hinv.issuedOld p hp
    rw [hkey] at this
    exact absurd this (lt_irrefl _)
  · intro p hp
    rcases List.mem_append.1 hp with hp | hp
    · exact Nat.lt_succ_of_lt (hinv.issuedOld p hp)
    · rw [List.mem_singleton.1 hp]
      exact Nat.lt_succ_self _

theorem SpendInv.bound_append {s : SpendState α} {pending : List Slot}
    {persisted : List (Authority × Nat)}
    (hinv : SpendInv s pending persisted) (k : Authority) (uses : Option Int)
    {x : Authority × Nat} {n : Int} (h : (x, some n) ∈ s.issued ++ [((k, s.next), uses)]) :
    (s.spent.count x : Int) ≤ max n 0 := by
  rcases List.mem_append.1 h with h | h
  · exact hinv.bound x n h
  · obtain rfl : x = (k, s.next) := congrArg Prod.fst (List.mem_singleton.1 h)
    rw [List.count_eq_zero.2 fun hmem =>
      absurd (hinv.takenOld _ (List.mem_append_left _ hmem)) (lt_irrefl _)]
    exact le_max_right _ _

theorem SpendInv.issue {s : SpendState α} (hinv : SpendInv s [] []) {k : Authority}
    (hk : k ≠ .auto) (info : α) (uses expiresAt : Option Int) :
    SpendInv (issue k info uses expiresAt s) [] [] := by
  have hcount := count_next hinv k
  rw [List.map_nil] at hcount
  obtain ⟨honce, hold⟩ := issued_append hinv k (if k = .approval then some 1 else uses)
  constructor
  · exact update_append_accounts hinv.accounts fun r hr => (hinv.account_lt hr).ne
  · exact hold
  · exact honce
  · intro p hp hpk
    rcases List.mem_append.1 hp with hp | hp
    · exact hinv.approvals p hp hpk
    · rw [List.mem_singleton.1 hp] at hpk ⊢
      exact if_pos hpk
  · exact fun x hx => Nat.lt_succ_of_lt (hinv.takenOld x hx)
  · exact fun x hx => Nat.lt_succ_of_lt (hinv.deadOld x hx)
  · exact fun x hx => absurd hx List.not_mem_nil
  · intro k' r hr
    rcases mem_update_append hr with hr | ⟨rfl, rfl⟩
    · obtain ⟨uses', hissued, htally⟩ := hinv.records k' r hr
      exact ⟨uses', List.mem_append_left _ hissued, htally⟩
    · refine ⟨_, List.mem_append_right _ (List.mem_singleton_self _), ?_⟩
      show Tally k' _ false _ ((s.spent ++ []).count (k', s.next))
      rw [hcount]
      cases k' with
      | approval => exact ⟨rfl, Nat.zero_le _, fun _ => rfl⟩
      | grant => exact balanced_fresh uses
      | auto => exact absurd rfl hk
  · intro p hp
    obtain ⟨uses', hissued, hbal⟩ := hinv.budgets p hp
    exact ⟨uses', List.mem_append_left _ hissued, hbal⟩
  · exact hinv.budgetKeys
  · exact hinv.budgetIds
  · intro r hr
    rcases mem_update_append hr with hr | ⟨he, -⟩
    · exact hinv.synced r hr
    · exact absurd he.symm hk
  · exact fun x n h => hinv.bound_append k _ h
  · intro k' r hr hl
    rcases mem_update_append hr with hr | ⟨rfl, rfl⟩
    · exact hinv.latched k' r hr hl
    · exact nomatch hl
  · intro x hx r hr hid
    rcases mem_update_append hr with hr | ⟨-, rfl⟩
    · exact hinv.dead x hx r hr hid
    · have := hinv.deadOld x hx
      exact absurd (hid ▸ this) (lt_irrefl _)
  · exact hinv.deadBudgets

/-- What a revoke leaves of an entry or a grant. -/
def Record.withdrawn (r : Record α) : Record α := { r with consumed := true }

theorem SpendInv.withdraw {s : SpendState α} (hinv : SpendInv s [] []) {x : Slot}
    (hx : x.1 ≠ .auto) :
    SpendInv { s with store := modifyAt s.store x Record.withdrawn } [] [] := by
  have hback : ∀ {k q'}, q' ∈ modifyAt s.store x Record.withdrawn k →
      ∃ q ∈ s.store k, q' = q ∨ q' = q.withdrawn := by
    intro k q' hq'
    obtain ⟨q, hq, ⟨-, -, rfl⟩ | ⟨-, rfl⟩⟩ := mem_modifyAt hq'
    · exact ⟨q, hq, .inr rfl⟩
    · exact ⟨q', hq, .inl rfl⟩
  constructor
  · intro k
    show ((modifyAt s.store x Record.withdrawn k).map Record.account).Nodup
    rw [modifyAt_accounts s.store x fun r => (rfl : r.withdrawn.id = r.id)]
    exact hinv.accounts k
  · exact hinv.issuedOld
  · exact hinv.issuedOnce
  · exact hinv.approvals
  · exact hinv.takenOld
  · exact hinv.deadOld
  · exact fun y hy => absurd hy List.not_mem_nil
  · intro k q' hq'
    obtain ⟨q, hq, rfl | rfl⟩ := hback hq'
    · exact hinv.records k q' hq
    · obtain ⟨uses, hissued, htally⟩ := hinv.records k q hq
      exact ⟨uses, hissued, htally.withdraw⟩
  · exact hinv.budgets
  · exact hinv.budgetKeys
  · exact hinv.budgetIds
  · intro q' hq'
    replace hq' : q' ∈ modifyAt s.store x Record.withdrawn .auto := hq'
    rw [modifyAt_of_ne _ _ (Ne.symm hx)] at hq'
    exact hinv.synced q' hq'
  · exact hinv.bound
  · intro k q' hq' hl
    obtain ⟨q, hq, rfl | rfl⟩ := hback hq'
    · exact hinv.latched k q' hq hl
    · exact hinv.latched k q hq hl
  · intro y hy q' hq' hid
    obtain ⟨q, hq, rfl | rfl⟩ := hback hq'
    · exact hinv.dead y hy q' hq hid
    · exact hinv.dead y hy q hq hid
  · exact hinv.deadBudgets

/-- Forgetting the rules of a generation, some of the budgets, and perhaps the session's ledger and
grants. -/
theorem SpendInv.forget {s : SpendState α} (hinv : SpendInv s [] [])
    (store : Authority → List (Record α)) (hstore : ∀ k, store k = s.store k ∨ store k = [])
    (hauto : store .auto = []) {autoSpend : List (String × Budget)}
    (hsub : autoSpend.Sublist s.autoSpend) :
    SpendInv { s with store := store, autoSpend := autoSpend } [] [] := by
  have hback : ∀ {k r}, r ∈ store k → r ∈ s.store k := by
    intro k r hr
    rcases hstore k with h | h
    · exact h ▸ hr
    · rw [h] at hr
      exact absurd hr List.not_mem_nil
  constructor
  · intro k
    show ((store k).map Record.account).Nodup
    rcases hstore k with h | h
    · rw [h]
      exact hinv.accounts k
    · rw [h]
      exact List.nodup_nil
  · exact hinv.issuedOld
  · exact hinv.issuedOnce
  · exact hinv.approvals
  · exact hinv.takenOld
  · exact hinv.deadOld
  · exact fun y hy => absurd hy List.not_mem_nil
  · exact fun k r hr => hinv.records k r (hback hr)
  · exact fun p hp => hinv.budgets p (hsub.subset hp)
  · exact hinv.budgetKeys.sublist (hsub.map _)
  · exact hinv.budgetIds.sublist (hsub.map _)
  · intro r hr
    replace hr : r ∈ store .auto := hr
    rw [hauto] at hr
    exact absurd hr List.not_mem_nil
  · exact hinv.bound
  · exact fun k r hr => hinv.latched k r (hback hr)
  · exact fun x hx r hr => hinv.dead x hx r (hback hr)
  · exact fun p hp => hinv.deadBudgets p (hsub.subset hp)

/-- A materialized rule holds what is left of its budget. -/
theorem SpendInv.materialize {s : SpendState α} (hinv : SpendInv s [] []) (now : Int)
    {rule : AutoApproveRule α} (hnew : ∀ r ∈ s.store .auto, r.key ≠ rule.key) :
    SpendInv (materialize now s rule) [] [] := by
  rw [Mcp.materialize]
  split_ifs
  · exact hinv
  cases hb : Assoc.get? s.autoSpend rule.key with
  | some b =>
    dsimp only
    have hmem := Assoc.mem_of_get? hb
    have hother : ∀ r ∈ s.store .auto, r.account ≠ b.id := by
      intro r hr hid
      obtain ⟨b', hb', hbid, -⟩ := hinv.synced r hr
      have := List.inj_on_of_nodup_map hinv.budgetIds hb' hmem (hbid.trans hid)
      exact hnew r hr (congrArg Prod.fst this)
    obtain ⟨uses, hissued, hbal⟩ := hinv.budgets _ hmem
    constructor
    · exact update_append_accounts hinv.accounts hother
    · exact hinv.issuedOld
    · exact hinv.issuedOnce
    · exact hinv.approvals
    · exact hinv.takenOld
    · exact hinv.deadOld
    · exact fun x hx => absurd hx List.not_mem_nil
    · intro k r hr
      rcases mem_update_append hr with hr | ⟨rfl, rfl⟩
      · exact hinv.records k r hr
      · refine ⟨uses, hissued, ?_⟩
        show Balanced uses b.remainingUses ((s.spent ++ []).count (Authority.auto, b.id))
        rw [List.append_nil]
        rwa [if_neg List.not_mem_nil] at hbal
    · exact hinv.budgets
    · exact hinv.budgetKeys
    · exact hinv.budgetIds
    · intro r hr
      rcases @mem_update_append α s.store .auto .auto r _ hr with hr | ⟨-, rfl⟩
      · exact hinv.synced r hr
      · exact ⟨b, hmem, rfl, rfl, fun _ => ⟨rfl, rfl⟩⟩
    · exact hinv.bound
    · intro k r hr hl
      rcases mem_update_append hr with hr | ⟨rfl, rfl⟩
      · exact hinv.latched k r hr hl
      · cases hl
    · intro x hx r hr hid
      rcases mem_update_append hr with hr | ⟨hk, rfl⟩
      · exact hinv.dead x hx r hr hid
      · have hx' : (Authority.auto, b.id) ∈ s.dead := by
          rw [show (Authority.auto, b.id) = x from Prod.ext hk.symm hid]
          exact hx
        exact hinv.deadBudgets _ hmem hx'
    · exact hinv.deadBudgets
  | none =>
    dsimp only
    have hkey : rule.key ∉ s.autoSpend.map Prod.fst := by
      intro hmem
      obtain ⟨⟨key, b⟩, hp, rfl⟩ := List.mem_map.1 hmem
      exact Assoc.get?_eq_none_iff.1 hb b hp
    obtain ⟨honce, hold⟩ := issued_append hinv .auto rule.uses
    have hcount := count_next hinv .auto
    rw [List.map_nil, List.append_nil] at hcount
    have hbudget : ∀ p ∈ s.autoSpend, p.2.id < s.next := by
      intro p hp
      obtain ⟨uses, hissued, -⟩ := hinv.budgets p hp
      exact hinv.issuedOld _ hissued
    constructor
    · exact update_append_accounts hinv.accounts fun r hr => (hinv.account_lt hr).ne
    · exact hold
    · exact honce
    · intro p hp hpk
      rcases List.mem_append.1 hp with hp | hp
      · exact hinv.approvals p hp hpk
      · rw [List.mem_singleton.1 hp] at hpk
        cases hpk
    · exact fun x hx => Nat.lt_succ_of_lt (hinv.takenOld x hx)
    · exact fun x hx => Nat.lt_succ_of_lt (hinv.deadOld x hx)
    · exact fun x hx => absurd hx List.not_mem_nil
    · intro k r hr
      rcases mem_update_append hr with hr | ⟨rfl, rfl⟩
      · obtain ⟨uses, hissued, htally⟩ := hinv.records k r hr
        exact ⟨uses, List.mem_append_left _ hissued, htally⟩
      · refine ⟨_, List.mem_append_right _ (List.mem_singleton_self _), ?_⟩
        show Balanced _ _ ((s.spent ++ []).count (Authority.auto, s.next))
        rw [List.append_nil, hcount]
        exact balanced_fresh rule.uses
    · intro p hp
      rcases List.mem_append.1 hp with hp | hp
      · obtain ⟨uses, hissued, hbal⟩ := hinv.budgets p hp
        exact ⟨uses, List.mem_append_left _ hissued, hbal⟩
      · rw [List.mem_singleton.1 hp]
        refine ⟨_, List.mem_append_right _ (List.mem_singleton_self _), ?_⟩
        rw [if_neg List.not_mem_nil]
        show Balanced _ _ (s.spent.count (Authority.auto, s.next))
        rw [hcount]
        exact balanced_fresh rule.uses
    · rw [List.map_append, List.nodup_append_comm]
      exact List.nodup_cons.2 ⟨hkey, hinv.budgetKeys⟩
    · rw [List.map_append, List.nodup_append_comm]
      refine List.nodup_cons.2 ⟨fun hmem => ?_, hinv.budgetIds⟩
      obtain ⟨p, hp, hid⟩ := List.mem_map.1 hmem
      exact absurd hid (hbudget p hp).ne
    · intro r hr
      rcases @mem_update_append α s.store .auto .auto r _ hr with hr | ⟨-, rfl⟩
      · obtain ⟨b, hb, hrest⟩ := hinv.synced r hr
        exact ⟨b, List.mem_append_left _ hb, hrest⟩
      · exact ⟨_, List.mem_append_right _ (List.mem_singleton_self _), rfl, rfl,
          fun _ => ⟨rfl, rfl⟩⟩
    · exact fun x n h => hinv.bound_append .auto rule.uses h
    · intro k r hr hl
      rcases mem_update_append hr with hr | ⟨rfl, rfl⟩
      · exact hinv.latched k r hr hl
      · cases hl
    · intro x hx r hr hid
      rcases mem_update_append hr with hr | ⟨-, rfl⟩
      · exact hinv.dead x hx r hr hid
      · have := hinv.deadOld x hx
        exact absurd (hid ▸ this) (lt_irrefl _)
    · intro p hp hdead
      rcases List.mem_append.1 hp with hp | hp
      · exact hinv.deadBudgets p hp hdead
      · rw [List.mem_singleton.1 hp] at hdead
        exact absurd (hinv.deadOld _ hdead) (lt_irrefl _)

theorem materialize_keys (now : Int) (s : SpendState α) (rule : AutoApproveRule α) {r : Record α}
    (hr : r ∈ (materialize now s rule).store .auto) : r ∈ s.store .auto ∨ r.key = rule.key := by
  rw [materialize] at hr
  split_ifs at hr
  · exact .inl hr
  cases hb : Assoc.get? s.autoSpend rule.key with
  | some b =>
    rw [hb] at hr
    refine (@mem_update_append α s.store .auto .auto r _ hr).imp_right ?_
    rintro ⟨-, rfl⟩
    rfl
  | none =>
    rw [hb] at hr
    refine (@mem_update_append α s.store .auto .auto r _ hr).imp_right ?_
    rintro ⟨-, rfl⟩
    rfl

/-- **A generation's rules keep the books** where no two of them have one text. -/
theorem SpendInv.install {s : SpendState α} (hinv : SpendInv s [] []) (now : Int)
    {rules : List (AutoApproveRule α)} (hkeys : (rules.map AutoApproveRule.key).Nodup)
    (hnew : ∀ r ∈ s.store .auto, r.key ∉ rules.map AutoApproveRule.key) :
    SpendInv (rules.foldl (Mcp.materialize now) s) [] [] := by
  induction rules generalizing s with
  | nil => exact hinv
  | cons rule rules ih =>
    obtain ⟨hrule, hkeys⟩ := List.nodup_cons.1 hkeys
    refine ih (hinv.materialize now fun r hr he => hnew r hr ?_) hkeys fun r hr => ?_
    · exact he ▸ List.mem_cons_self
    · rcases materialize_keys now s rule hr with hr | hkey
      · exact fun hmem => hnew r hr (List.mem_cons_of_mem _ hmem)
      · exact hkey ▸ hrule

/-! ## Runs -/

/-- What a session does under policies of which `policies` holds: it grants, withdraws, decides
calls, walks activations, and changes generation, policy or session. -/
inductive SpendStep (env : SpendEnv α τ) (policies : List (AutoApproveRule α) → Prop) :
    SpendState α → SpendState α → Prop where
  /-- An approval or a mint. -/
  | issue {s : SpendState α} {k : Authority} (hk : k ≠ .auto) (info : α)
      (uses expiresAt : Option Int) : SpendStep env policies s (issue k info uses expiresAt s)
  /-- A revoke of an approval or of a standing grant. -/
  | withdraw {s : SpendState α} {x : Slot} (hx : x.1 ≠ .auto) :
      SpendStep env policies s { s with store := modifyAt s.store x Record.withdrawn }
  | call {s : SpendState α} (t : τ) : SpendStep env policies s (decideCall env t s).1
  | walk {s : SpendState α} (bodies : List (Option τ)) :
      SpendStep env policies s (walk env bodies [] s).1
  /-- A load, a swap or a turn. -/
  | generation {s : SpendState α} {rules : List (AutoApproveRule α)} (hrules : policies rules) :
      SpendStep env policies s (install env rules s)
  /-- `apply_distillation` and `revoke_distillation`: the budget of the text is dropped. -/
  | review {s : SpendState α} {rules : List (AutoApproveRule α)} (key : String)
      (hrules : policies rules) :
      SpendStep env policies s (install env rules { s with
        autoSpend := s.autoSpend.filter fun p => p.1 ≠ key })
  /-- `_reset`. -/
  | unload {s : SpendState α} : SpendStep env policies s { s with store := fun _ => [] }

/-- The states of a session. -/
inductive Spending (env : SpendEnv α τ) (policies : List (AutoApproveRule α) → Prop) :
    SpendState α → Prop where
  | start (floor : Int) : Spending env policies ⟨fun _ => [], [], floor, 0, 0, [], [], []⟩
  | step {s s' : SpendState α} (hs : Spending env policies s) (h : SpendStep env policies s s') :
      Spending env policies s'

/-- No two rules of a policy have the same text. -/
def StatedOnce (rules : List (AutoApproveRule α)) : Prop :=
  (rules.map AutoApproveRule.key).Nodup

instance (rules : List (AutoApproveRule α)) : Decidable (StatedOnce rules) :=
  inferInstanceAs (Decidable (rules.map AutoApproveRule.key).Nodup)

theorem install_inv {env : SpendEnv α τ} {s : SpendState α} (hinv : SpendInv s [] [])
    {rules : List (AutoApproveRule α)} (hkeys : StatedOnce rules)
    {autoSpend : List (String × Budget)} (hsub : autoSpend.Sublist s.autoSpend) :
    SpendInv (install env rules { s with autoSpend := autoSpend }) [] [] := by
  have hforget := hinv.forget (Function.update s.store .auto [])
    (fun k => by
      by_cases hk : k = .auto
      · subst hk
        exact .inr (Function.update_self _ _ _)
      · exact .inl (Function.update_of_ne hk _ _))
    (Function.update_self _ _ _) hsub
  have hread : Searched { s with store := Function.update s.store .auto [], autoSpend := autoSpend }
      { s with
        store := Function.update s.store .auto []
        autoSpend := autoSpend
        floor := nowMs env { s with autoSpend := autoSpend }
        ticks := s.ticks + 1 } :=
    ⟨le_max_left _ _, fun k => List.forall₂_same.2 fun r _ => .refl _ r, rfl, rfl, rfl, rfl,
      fun _ => id, fun _ => .inl⟩
  refine (hforget.searched hread).install _ hkeys fun r hr => ?_
  replace hr : r ∈ Function.update s.store .auto [] .auto := hr
  rw [Function.update_self] at hr
  exact absurd hr List.not_mem_nil

theorem install_spent (env : SpendEnv α τ) (rules : List (AutoApproveRule α)) (s : SpendState α) :
    (install env rules s).spent = s.spent := by
  have hfold : ∀ (now : Int) (rules : List (AutoApproveRule α)) (s : SpendState α),
      (rules.foldl (materialize now) s).spent = s.spent := by
    intro now rules
    induction rules with
    | nil => exact fun s => rfl
    | cons rule rules ih =>
      intro s
      refine (ih _).trans ?_
      rw [materialize]
      split_ifs
      · rfl
      · cases Assoc.get? s.autoSpend rule.key <;> rfl
  exact hfold _ rules _

theorem start_inv (floor : Int) :
    SpendInv (⟨fun _ => [], [], floor, 0, 0, [], [], []⟩ : SpendState α) [] [] where
  accounts _ := List.nodup_nil
  issuedOld _ h := absurd h List.not_mem_nil
  issuedOnce := List.nodup_nil
  approvals _ h := absurd h List.not_mem_nil
  takenOld _ h := absurd h List.not_mem_nil
  deadOld _ h := absurd h List.not_mem_nil
  held _ h := absurd h List.not_mem_nil
  records _ _ h := absurd h List.not_mem_nil
  budgets _ h := absurd h List.not_mem_nil
  budgetKeys := List.nodup_nil
  budgetIds := List.nodup_nil
  synced _ h := absurd h List.not_mem_nil
  bound _ _ h := absurd h List.not_mem_nil
  latched _ _ h := absurd h List.not_mem_nil
  dead _ h := absurd h List.not_mem_nil
  deadBudgets _ h := absurd h List.not_mem_nil

/-- **One step keeps the books and spends nothing that was observed expired.** -/
theorem step_inv {env : SpendEnv α τ} {s s' : SpendState α} (hinv : SpendInv s [] [])
    (h : SpendStep env StatedOnce s s') :
    SpendInv s' [] [] ∧ ∃ new, s'.spent = s.spent ++ new ∧ ∀ x ∈ new, x ∉ s.dead := by
  have hnothing : ∀ {t : SpendState α}, t.spent = s.spent →
      ∃ new, t.spent = s.spent ++ new ∧ ∀ x ∈ new, x ∉ s.dead := fun ht =>
    ⟨[], ht.trans (List.append_nil _).symm, fun _ hx => absurd hx List.not_mem_nil⟩
  cases h with
  | issue hk info uses expiresAt => exact ⟨hinv.issue hk info uses expiresAt, hnothing rfl⟩
  | withdraw hx => exact ⟨hinv.withdraw hx, hnothing rfl⟩
  | call t => exact decideCall_spec hinv
  | walk bodies =>
    obtain ⟨hcleared, hother⟩ := walk_empty env bodies hinv
    by_cases hv : (Mcp.walk env bodies [] s).2 = .cleared
    · exact hcleared hv
    · have hsearched := hother hv
      exact ⟨hinv.searched hsearched, hnothing hsearched.spent⟩
  | generation hkeys =>
    exact ⟨install_inv hinv hkeys (List.Sublist.refl _), hnothing (install_spent _ _ _)⟩
  | review key hkeys =>
    exact ⟨install_inv hinv hkeys List.filter_sublist, hnothing (install_spent _ _ _)⟩
  | unload =>
    exact ⟨hinv.forget (fun _ => []) (fun _ => .inr rfl) rfl (List.Sublist.refl _), hnothing rfl⟩

theorem Spending.inv {env : SpendEnv α τ} {s : SpendState α} (h : Spending env StatedOnce s) :
    SpendInv s [] [] := by
  induction h with
  | start floor => exact start_inv floor
  | step _ h ih => exact (step_inv ih h).1

/-- The flags and counters of a list of records. -/
def counters (records : List (Record α)) : List ((Nat × Nat) × Bool × Option Int) :=
  records.map fun r => (r.id, r.consumed, r.remainingUses)

theorem counters_searched {s s' : SpendState α} (h : Searched s s') (k : Authority) :
    counters (s'.store k) = counters (s.store k) :=
  h.map_eq (fun _ _ => rfl) k

/-- **Authority is spent, never duplicated**, where no policy states one rule twice: over all
generations every record is spent at most as often as it was issued for, a ledger entry once; no
step spends what was observed expired; and a walk that does not clear leaves every flag and every
counter as it found them. -/
theorem authority_is_spent {env : SpendEnv α τ} {s : SpendState α}
    (hs : Spending env StatedOnce s) :
    (∀ x n, (x, some n) ∈ s.issued → (s.spent.count x : Int) ≤ max n 0) ∧
    (∀ id uses, ((Authority.approval, id), uses) ∈ s.issued → s.spent.count (.approval, id) ≤ 1) ∧
    (∀ s', SpendStep env StatedOnce s s' →
      ∃ new, s'.spent = s.spent ++ new ∧ ∀ x ∈ new, x ∉ s.dead) ∧
    ∀ bodies, (walk env bodies [] s).2 ≠ .cleared →
      (walk env bodies [] s).1.spent = s.spent ∧
        (walk env bodies [] s).1.autoSpend = s.autoSpend ∧
        ∀ k, counters ((walk env bodies [] s).1.store k) = counters (s.store k) := by
  have hinv := hs.inv
  refine ⟨hinv.bound, fun id uses hissued => ?_, fun s' h => (step_inv hinv h).2, ?_⟩
  · have huses : uses = some 1 := hinv.approvals _ hissued rfl
    have := hinv.bound _ 1 (huses ▸ hissued)
    omega
  · intro bodies hv
    obtain ⟨-, hother⟩ := walk_empty env bodies hinv
    have hsearched := hother hv
    exact ⟨hsearched.spent, hsearched.autoSpend, counters_searched hsearched⟩

/-- A host whose clock stands still and whose rules cover everything. -/
def openEnv : SpendEnv Unit Unit where
  clock _ := 0
  eligible k _ _ := k = .auto
  covers _ _ _ _ := .ok true
  capabilities _ := []
  grantable _ := true

def twice : AutoApproveRule Unit :=
  ⟨"component main may auto-approve send uses 2", some 2, none, (), true⟩

def unspent : SpendState Unit := ⟨fun _ => [], [], 0, 0, 0, [], [], []⟩

def called (s : SpendState Unit) : SpendState Unit := (decideCall openEnv () s).1

theorem authority_is_spent_twice :
    Spending openEnv StatedOnce (called (called (called (install openEnv [twice] unspent)))) ∧
      (((called (called (called (install openEnv [twice] unspent)))).spent.count (.auto, 0) : Int)
        ≤ max 2 0) := by
  have hs : Spending openEnv StatedOnce
      (called (called (called (install openEnv [twice] unspent)))) :=
    .step (.step (.step (.step (.start 0) (.generation (by decide)))
      (.call ())) (.call ())) (.call ())
  exact ⟨hs, (authority_is_spent hs).1 (.auto, 0) 2 (by decide)⟩

/-- Three calls, a swap, and two calls more. -/
def overspent : SpendState Unit :=
  called (called (install openEnv [twice, twice]
    (called (called (called (install openEnv [twice, twice] unspent))))))

/-- **A policy that states a rule twice gives it more uses than both lines together**: the second
copy writes what is left of it over the shared budget, and a swap gives that to both. -/
theorem stated_twice_overspent :
    Spending openEnv (· = [twice, twice]) overspent ∧
      overspent.issued = [((.auto, 0), some 2)] ∧
      ([twice, twice].filterMap AutoApproveRule.uses).sum = 4 ∧
      overspent.spent.count (.auto, 0) = 5 := by
  refine ⟨?_, by decide, by decide, by decide⟩
  have hswapped : Spending openEnv (· = [twice, twice])
      (called (called (called (install openEnv [twice, twice] unspent)))) :=
    .step (.step (.step (.step (.start 0) (.generation rfl)) (.call ())) (.call ())) (.call ())
  exact .step (.step (.step hswapped (.generation rfl)) (.call ())) (.call ())

end Revl.Mcp
