import Revl.Lib.Assoc

/-!
# A bounded replay window (`deploy.py`, `BoundedReplayLedger`)

What was seen is remembered for the identities that spoke last, and of each for the scopes that
were admitted last. A repeated scope moves its identity to the end of the first queue and stays
where it is in the second.

- `Use`, `served`: the uses of a run, with whether each was fresh.
- `Alive`: neither window was exceeded since.
- `remembered_iff`: **a scope is remembered exactly when it was admitted and is alive**.
- `evicted_add_size`: the counter counts what was forgotten.
-/

namespace Revl.Deploy

/-- The bounds of a window. A bound of zero is refused. -/
structure Window where
  perPeer : ℕ
  maxPeers : ℕ
  perPeer_pos : 0 < perPeer
  maxPeers_pos : 0 < maxPeers

variable {I S : Type}

/-- The scopes seen of each identity, oldest first, and how many were forgotten. -/
structure BoundedReplayLedger (I S : Type) where
  peers : List (I × List S)
  evicted : ℕ

namespace BoundedReplayLedger

def empty : BoundedReplayLedger I S := ⟨[], 0⟩

/-- `while len(self._peers) > self.max_peers` -/
def popPeers (maxPeers : ℕ) : List (I × List S) → ℕ → List (I × List S) × ℕ
  | [], evicted => ([], evicted)
  | p :: peers, evicted =>
    if maxPeers < (p :: peers).length then popPeers maxPeers peers (evicted + p.2.length)
    else (p :: peers, evicted)

/-- `while len(seen) > self.per_peer` -/
def popScopes (perPeer : ℕ) : List S → ℕ → List S × ℕ
  | [], evicted => ([], evicted)
  | s :: seen, evicted =>
    if perPeer < (s :: seen).length then popScopes perPeer seen (evicted + 1)
    else (s :: seen, evicted)

/-- `BoundedReplayLedger.admit` -/
def admitScope [DecidableEq I] [DecidableEq S] (w : Window) (l : BoundedReplayLedger I S)
    (identity : I) (scope : S) :
    Bool × BoundedReplayLedger I S :=
  let (seen, peers, evicted) := match Assoc.get? l.peers identity with
    | some seen => (seen, l.peers, l.evicted)
    | none => ([], popPeers w.maxPeers (l.peers ++ [(identity, [])]) l.evicted)
  -- `move_to_end`
  let others := peers.filter fun p => p.1 ≠ identity
  if scope ∈ seen then (false, ⟨others ++ [(identity, seen)], evicted⟩)
  else
    let (seen, evicted) := popScopes w.perPeer (seen ++ [scope]) evicted
    (true, ⟨others ++ [(identity, seen)], evicted⟩)

/-- `len(ledger)` -/
def size (l : BoundedReplayLedger I S) : ℕ := (l.peers.map fun p => p.2.length).sum

/-- `seen(identity, scope)` -/
def Remembered (l : BoundedReplayLedger I S) (identity : I) (scope : S) : Prop :=
  ∃ seen, (identity, seen) ∈ l.peers ∧ scope ∈ seen

/-- The bounds hold, and nothing is listed twice. -/
structure Bounded (w : Window) (l : BoundedReplayLedger I S) : Prop where
  nodup : (l.peers.map Prod.fst).Nodup
  peers : l.peers.length ≤ w.maxPeers
  seen_nodup : ∀ p ∈ l.peers, p.2.Nodup
  seen : ∀ p ∈ l.peers, p.2.length ≤ w.perPeer

variable {w : Window} {l : BoundedReplayLedger I S}

theorem bounded_empty : Bounded w (empty : BoundedReplayLedger I S) :=
  ⟨List.nodup_nil, Nat.zero_le _, fun _ hp => absurd hp List.not_mem_nil,
    fun _ hp => absurd hp List.not_mem_nil⟩

theorem Bounded.size_le (h : Bounded w l) : l.size ≤ w.perPeer * w.maxPeers := by
  have hsum : l.size ≤ (l.peers.map fun p => p.2.length).length * w.perPeer :=
    List.sum_le_card_nsmul _ _ fun n hn => by
      obtain ⟨p, hp, rfl⟩ := List.mem_map.mp hn
      exact h.seen p hp
  rw [List.length_map] at hsum
  calc l.size ≤ l.peers.length * w.perPeer := hsum
    _ ≤ w.maxPeers * w.perPeer := Nat.mul_le_mul_right _ h.peers
    _ = w.perPeer * w.maxPeers := Nat.mul_comm _ _

theorem popPeers_of_le {n : ℕ} {peers : List (I × List S)} (h : peers.length ≤ n) (evicted : ℕ) :
    popPeers n peers evicted = (peers, evicted) := by
  cases peers with
  | nil => rfl
  | cons p peers => rw [popPeers, if_neg (Nat.not_lt.mpr h)]

theorem popScopes_of_le {n : ℕ} {seen : List S} (h : seen.length ≤ n) (evicted : ℕ) :
    popScopes n seen evicted = (seen, evicted) := by
  cases seen with
  | nil => rfl
  | cons s seen => rw [popScopes, if_neg (Nat.not_lt.mpr h)]

/-! ## What one use can do -/

/-- The queue of identities before one is put at its end: it was there, there is room, or the
oldest one makes room. -/
inductive Room (w : Window) (l : BoundedReplayLedger I S) (i : I) :
    List (I × List S) → List S → ℕ → Prop where
  | known (before after : List (I × List S)) (seen : List S) :
      l.peers = before ++ (i, seen) :: after → Room w l i (before ++ after) seen l.evicted
  | free : (∀ p ∈ l.peers, p.1 ≠ i) → l.peers.length < w.maxPeers →
      Room w l i l.peers [] l.evicted
  | full (old : I × List S) (rest : List (I × List S)) : (∀ p ∈ l.peers, p.1 ≠ i) →
      l.peers = old :: rest → l.peers.length = w.maxPeers →
      Room w l i rest [] (l.evicted + old.2.length)

/-- What happens to the scopes of the identity: a repeat, room for one more, or the oldest makes
room. -/
inductive Seen (w : Window) (s : S) (seen : List S) (evicted : ℕ) : Bool → List S → ℕ → Prop where
  | repeated : s ∈ seen → Seen w s seen evicted false seen evicted
  | free : s ∉ seen → seen.length < w.perPeer → Seen w s seen evicted true (seen ++ [s]) evicted
  | full (old : S) (rest : List S) : s ∉ seen → seen = old :: rest → seen.length = w.perPeer →
      Seen w s seen evicted true (rest ++ [s]) (evicted + 1)

/-- An identity that is there splits the queue. -/
theorem Bounded.split (h : Bounded w l) {i : I} {seen : List S} (hmem : (i, seen) ∈ l.peers) :
    ∃ before after, l.peers = before ++ (i, seen) :: after ∧ (∀ p ∈ before, p.1 ≠ i) ∧
      ∀ p ∈ after, p.1 ≠ i := by
  obtain ⟨before, after, heq⟩ := List.append_of_mem hmem
  have hnodup := h.nodup
  rw [heq, List.map_append, List.map_cons] at hnodup
  have hnot := (List.nodup_middle.mp hnodup).notMem
  rw [← List.map_append] at hnot
  refine ⟨before, after, heq, fun p hp hi => hnot ?_, fun p hp hi => hnot ?_⟩
  · exact List.mem_map.mpr ⟨p, List.mem_append_left _ hp, hi⟩
  · exact List.mem_map.mpr ⟨p, List.mem_append_right _ hp, hi⟩

theorem Room.not_mem_of {i : I} {others : List (I × List S)} {seen : List S} {evicted : ℕ}
    (hroom : Room w l i others seen evicted) (hmem : ∃ seen', (i, seen') ∈ l.peers) :
    ∃ before after, l.peers = before ++ (i, seen) :: after ∧ others = before ++ after ∧
      evicted = l.evicted := by
  obtain ⟨seen', hmem⟩ := hmem
  cases hroom with
  | known before after _ heq => exact ⟨before, after, heq, rfl, rfl⟩
  | free hnew _ => exact absurd rfl (hnew _ hmem)
  | full old rest hnew _ _ => exact absurd rfl (hnew _ hmem)

/-- What making room keeps. -/
theorem Room.spec {i : I} {others : List (I × List S)} {seen : List S} {evicted : ℕ}
    (h : Bounded w l) (hroom : Room w l i others seen evicted) :
    others.Sublist l.peers ∧ others.length < w.maxPeers ∧ seen.Nodup ∧
      (others.map fun p => p.2.length).sum + seen.length + evicted = l.size + l.evicted := by
  cases hroom with
  | known before after _ heq =>
    have hmem : (i, seen) ∈ l.peers := heq ▸ List.mem_append_right _ List.mem_cons_self
    have hlength := h.peers
    refine ⟨?_, ?_, h.seen_nodup _ hmem, ?_⟩
    · rw [heq]
      exact List.Sublist.append_left (List.sublist_cons_self _ _) _
    · rw [heq] at hlength
      simp only [List.length_append, List.length_cons] at hlength ⊢
      omega
    · rw [size, heq]
      simp only [List.map_append, List.map_cons, List.sum_append, List.sum_cons]
      omega
  | free hnew hlt => exact ⟨List.Sublist.refl _, hlt, List.nodup_nil, rfl⟩
  | full old rest hnew heq hfull =>
    refine ⟨heq ▸ List.sublist_cons_self _ _, ?_, List.nodup_nil, ?_⟩
    · rw [← hfull, heq]
      simp
    · rw [size, heq]
      simp only [List.map_cons, List.sum_cons, List.length_nil]
      omega

theorem Seen.spec {s : S} {seen seen' : List S} {evicted evicted' : ℕ} {fresh : Bool}
    (hseen : Seen w s seen evicted fresh seen' evicted') (hnodup : seen.Nodup)
    (hlength : seen.length ≤ w.perPeer) :
    seen'.Nodup ∧ seen'.length ≤ w.perPeer ∧
      seen'.length + evicted' = seen.length + evicted + fresh.toNat := by
  cases hseen with
  | repeated => exact ⟨hnodup, hlength, rfl⟩
  | free hs hlt =>
    refine ⟨?_, by simpa using Nat.succ_le_of_lt hlt, by simp; omega⟩
    exact List.nodup_append'.mpr ⟨hnodup, List.nodup_singleton s, by simpa using hs⟩
  | full old rest hs heq hfull =>
    subst heq
    rw [List.length_cons] at hfull
    refine ⟨?_, by simp; omega, by simp; omega⟩
    refine List.nodup_append'.mpr ⟨hnodup.of_cons, List.nodup_singleton s, ?_⟩
    simpa using fun hmem => hs (List.mem_cons_of_mem _ hmem)

theorem Room.seen_le {i : I} {others : List (I × List S)} {seen : List S} {evicted : ℕ}
    (h : Bounded w l) (hroom : Room w l i others seen evicted) : seen.length ≤ w.perPeer := by
  cases hroom with
  | known before after _ heq =>
    exact h.seen (i, seen) (heq ▸ List.mem_append_right _ List.mem_cons_self)
  | free => exact Nat.zero_le _
  | full => exact Nat.zero_le _

theorem mem_of_room {i : I} {others : List (I × List S)} {seen : List S} {evicted : ℕ} {s : S}
    (hroom : Room w l i others seen evicted) (hs : s ∈ seen) : (i, seen) ∈ l.peers := by
  cases hroom with
  | known before after _ heq => exact heq ▸ List.mem_append_right _ List.mem_cons_self
  | free => cases hs
  | full => cases hs

/-! ## One use -/

variable [DecidableEq I] [DecidableEq S]

omit [DecidableEq S] in
theorem filter_ne_self {peers : List (I × List S)} {i : I} (h : ∀ p ∈ peers, p.1 ≠ i) :
    (peers.filter fun p => p.1 ≠ i) = peers :=
  List.filter_eq_self.mpr fun p hp => by simpa using h p hp

/-- **Everything one use can do.** -/
theorem admit_cases (h : Bounded w l) (i : I) (s : S) :
    ∃ others seen evicted fresh seen' evicted', Room w l i others seen evicted ∧
      Seen w s seen evicted fresh seen' evicted' ∧ (∀ p ∈ others, p.1 ≠ i) ∧
      l.admitScope w i s = (fresh, ⟨others ++ [(i, seen')], evicted'⟩) := by
  -- first the queue of identities
  obtain ⟨others, seen, evicted, hroom, hothers, hlength, heq⟩ :
      ∃ others seen evicted, Room w l i others seen evicted ∧ (∀ p ∈ others, p.1 ≠ i) ∧
        seen.length ≤ w.perPeer ∧ l.admitScope w i s =
          if s ∈ seen then (false, ⟨others ++ [(i, seen)], evicted⟩)
          else (true, ⟨others ++ [(i, (popScopes w.perPeer (seen ++ [s]) evicted).1)],
            (popScopes w.perPeer (seen ++ [s]) evicted).2⟩) := by
    unfold admitScope
    cases hget : Assoc.get? l.peers i with
    | some seen =>
      have hmem := (Assoc.get?_eq_some_iff h.nodup).mp hget
      obtain ⟨before, after, hsplit, hbefore, hafter⟩ := h.split hmem
      refine ⟨before ++ after, seen, l.evicted, .known before after seen hsplit, ?_,
        h.seen _ hmem, ?_⟩
      · exact fun p hp => (List.mem_append.mp hp).elim (hbefore p) (hafter p)
      · have hfilter : (l.peers.filter fun p => p.1 ≠ i) = before ++ after := by
          rw [hsplit, List.filter_append, List.filter_cons_of_neg (by simp), filter_ne_self hbefore,
            filter_ne_self hafter]
        simp only [hfilter]
    | none =>
      have hnew : ∀ p ∈ l.peers, p.1 ≠ i := fun p hp hi =>
        Assoc.get?_eq_none_iff.mp hget p.2 (hi ▸ hp)
      rcases h.peers.lt_or_eq with hlt | hfull
      · refine ⟨l.peers, [], l.evicted, .free hnew hlt, hnew, Nat.zero_le _, ?_⟩
        have hpop : popPeers w.maxPeers (l.peers ++ [(i, ([] : List S))]) l.evicted =
            (l.peers ++ [(i, [])], l.evicted) :=
          popPeers_of_le (by simpa using Nat.succ_le_of_lt hlt) l.evicted
        simp only [hpop, List.filter_append, filter_ne_self hnew]
        simp
      · cases hpeers : l.peers with
        | nil =>
          rw [hpeers] at hfull
          exact absurd hfull (Nat.ne_of_lt w.maxPeers_pos)
        | cons old rest =>
          have hrest : ∀ p ∈ rest, p.1 ≠ i := fun p hp =>
            hnew p (hpeers ▸ List.mem_cons_of_mem _ hp)
          refine ⟨rest, [], _, .full old rest hnew hpeers hfull, hrest, Nat.zero_le _, ?_⟩
          rw [hpeers, List.length_cons] at hfull
          have hpop : popPeers w.maxPeers (old :: rest ++ [(i, ([] : List S))]) l.evicted =
              (rest ++ [(i, [])], l.evicted + old.2.length) := by
            rw [List.cons_append, popPeers, if_pos (by simp; omega),
              popPeers_of_le (by simp; omega)]
          simp only [hpop, List.filter_append, filter_ne_self hrest]
          simp
  -- then that of its scopes
  refine ⟨others, seen, evicted, ?_⟩
  by_cases hs : s ∈ seen
  · exact ⟨false, seen, evicted, hroom, .repeated hs, hothers, by rw [heq, if_pos hs]⟩
  · rcases hlength.lt_or_eq with hlt | hfull
    · refine ⟨true, seen ++ [s], evicted, hroom, .free hs hlt, hothers, ?_⟩
      rw [heq, if_neg hs, popScopes_of_le (by simpa using Nat.succ_le_of_lt hlt)]
    · cases seen with
      | nil => exact absurd hfull (Nat.ne_of_lt w.perPeer_pos)
      | cons old rest =>
        refine ⟨true, rest ++ [s], evicted + 1, hroom, .full old rest hs rfl hfull, hothers, ?_⟩
        rw [List.length_cons] at hfull
        have hpop : popScopes w.perPeer (old :: rest ++ [s]) evicted =
            (rest ++ [s], evicted + 1) := by
          rw [List.cons_append, popScopes, if_pos (by simp; omega),
            popScopes_of_le (by simp; omega)]
        rw [heq, if_neg hs, hpop]

theorem Bounded.admitScope (h : Bounded w l) (i : I) (s : S) :
    Bounded w (l.admitScope w i s).2 := by
  obtain ⟨others, seen, evicted, fresh, seen', evicted', hroom, hseen, hothers, heq⟩ :=
    admit_cases h i s
  obtain ⟨hsub, hlt, hnodup, -⟩ := hroom.spec h
  obtain ⟨hnodup', hle', -⟩ := hseen.spec hnodup (hroom.seen_le h)
  rw [heq]
  refine ⟨?_, by simpa using Nat.succ_le_of_lt hlt, ?_, ?_⟩
  · rw [List.map_append]
    refine List.nodup_append'.mpr ⟨h.nodup.sublist (hsub.map _), List.nodup_singleton _, ?_⟩
    intro k hk hki
    obtain ⟨p, hp, rfl⟩ := List.mem_map.mp hk
    exact hothers p hp (by simpa using hki)
  · intro p hp
    rcases List.mem_append.mp hp with hp | hp
    · exact h.seen_nodup p (hsub.subset hp)
    · obtain rfl := List.mem_singleton.mp hp
      exact hnodup'
  · intro p hp
    rcases List.mem_append.mp hp with hp | hp
    · exact h.seen p (hsub.subset hp)
    · obtain rfl := List.mem_singleton.mp hp
      exact hle'

/-- A use adds itself to what is remembered or counted, if it is fresh. -/
theorem size_admit (h : Bounded w l) (i : I) (s : S) :
    (l.admitScope w i s).2.size + (l.admitScope w i s).2.evicted =
      l.size + l.evicted + (l.admitScope w i s).1.toNat := by
  obtain ⟨others, seen, evicted, fresh, seen', evicted', hroom, hseen, hothers, heq⟩ :=
    admit_cases h i s
  obtain ⟨-, -, hnodup, hsum⟩ := hroom.spec h
  obtain ⟨-, -, hsum'⟩ := hseen.spec hnodup (hroom.seen_le h)
  rw [heq]
  simp only [size, List.map_append, List.map_cons, List.map_nil, List.sum_append, List.sum_cons,
    List.sum_nil] at hsum ⊢
  omega

/-- **A use is refused exactly when its scope is remembered.** -/
theorem admit_eq_false_iff (h : Bounded w l) (i : I) (s : S) :
    (l.admitScope w i s).1 = false ↔ Remembered l i s := by
  obtain ⟨others, seen, evicted, fresh, seen', evicted', hroom, hseen, -, heq⟩ := admit_cases h i s
  have hmem : Remembered l i s → s ∈ seen := by
    rintro ⟨seen₀, hmem, hs⟩
    obtain ⟨before, after, hsplit, -⟩ := hroom.not_mem_of ⟨seen₀, hmem⟩
    have hmem' : (i, seen) ∈ l.peers := hsplit ▸ List.mem_append_right _ List.mem_cons_self
    have hsame := List.inj_on_of_nodup_map h.nodup hmem hmem' rfl
    exact (Prod.mk.inj hsame).2 ▸ hs
  rw [heq]
  cases hseen with
  | repeated hs => exact ⟨fun _ => ⟨seen, mem_of_room hroom hs, hs⟩, fun _ => rfl⟩
  | free hs _ => exact ⟨fun hfalse => (nomatch hfalse), fun hrem => absurd (hmem hrem) hs⟩
  | full old rest hs _ _ =>
    exact ⟨fun hfalse => (nomatch hfalse), fun hrem => absurd (hmem hrem) hs⟩

/-- What is remembered after a use was before, or is what the use was fresh with. -/
theorem remembered_admit (h : Bounded w l) {i j : I} {s t : S}
    (hrem : Remembered (l.admitScope w i s).2 j t) :
    Remembered l j t ∨ (l.admitScope w i s).1 = true ∧ j = i ∧ t = s := by
  obtain ⟨others, seen, evicted, fresh, seen', evicted', hroom, hseen, -, heq⟩ := admit_cases h i s
  obtain ⟨hsub, -⟩ := hroom.spec h
  rw [heq] at hrem ⊢
  obtain ⟨seen₀, hmem, ht⟩ := hrem
  rcases List.mem_append.mp hmem with hmem | hmem
  · exact .inl ⟨seen₀, hsub.subset hmem, ht⟩
  · obtain ⟨rfl, rfl⟩ := Prod.mk.inj (List.mem_singleton.mp hmem)
    cases hseen with
    | repeated hs => exact .inl ⟨seen, mem_of_room hroom ht, ht⟩
    | free hs _ =>
      rcases List.mem_append.mp ht with ht | ht
      · exact .inl ⟨seen, mem_of_room hroom ht, ht⟩
      · exact .inr ⟨rfl, rfl, List.mem_singleton.mp ht⟩
    | full old rest hs hold _ =>
      subst hold
      rcases List.mem_append.mp ht with ht | ht
      · have ht' := List.mem_cons_of_mem old ht
        exact .inl ⟨old :: rest, mem_of_room hroom ht', ht'⟩
      · exact .inr ⟨rfl, rfl, List.mem_singleton.mp ht⟩

/-- **A refused use adds nothing and forgets nothing.** -/
theorem admit_refused (h : Bounded w l) {i : I} {s : S}
    (hrefused : (l.admitScope w i s).1 = false) :
    (l.admitScope w i s).2.peers.Perm l.peers ∧ (l.admitScope w i s).2.evicted = l.evicted := by
  obtain ⟨others, seen, evicted, fresh, seen', evicted', hroom, hseen, -, heq⟩ := admit_cases h i s
  rw [heq] at hrefused ⊢
  cases hseen with
  | repeated hs =>
    obtain ⟨before, after, hsplit, rfl, rfl⟩ := hroom.not_mem_of ⟨seen, mem_of_room hroom hs⟩
    refine ⟨?_, rfl⟩
    rw [hsplit]
    exact (List.perm_append_singleton _ _).trans List.perm_middle.symm
  | free => cases hrefused
  | full => cases hrefused

/-! ## One remembered scope -/

/-- A remembered scope, with the scopes of its identity admitted since and the identities used since
its own was. -/
def Tracked (l : BoundedReplayLedger I S) (i : I) (s : S) (later : Finset S) (others : Finset I) :
    Prop :=
  ∃ before after front back, l.peers = before ++ (i, front ++ s :: back) :: after ∧
    back.toFinset = later ∧ (after.map Prod.fst).toFinset = others

variable {i : I} {s : S} {later : Finset S} {others : Finset I}

theorem Tracked.remembered (ht : Tracked l i s later others) : Remembered l i s := by
  obtain ⟨before, after, front, back, heq, -⟩ := ht
  exact ⟨_, heq ▸ List.mem_append_right _ List.mem_cons_self,
    List.mem_append_right _ List.mem_cons_self⟩

omit [DecidableEq I] [DecidableEq S] in
theorem not_remembered_of {l' : BoundedReplayLedger I S} {peers : List (I × List S)}
    {seen : List S} (heq : l'.peers = peers ++ [(i, seen)]) (hpeers : ∀ p ∈ peers, p.1 ≠ i)
    (hs : s ∉ seen) : ¬ Remembered l' i s := by
  rintro ⟨seen₀, hmem, hs₀⟩
  rw [heq] at hmem
  rcases List.mem_append.mp hmem with hmem | hmem
  · exact hpeers _ hmem rfl
  · obtain ⟨-, rfl⟩ := Prod.mk.inj (List.mem_singleton.mp hmem)
    exact hs hs₀

/-- A use of its own identity: the scope ages, unless the use is a repeat, and its identity does
not. -/
theorem Tracked.same (h : Bounded w l) (ht : Tracked l i s later others) (t : S) :
    ((l.admitScope w i t).1 = false → Tracked (l.admitScope w i t).2 i s later ∅) ∧
      ((l.admitScope w i t).1 = true → if (insert t later).card < w.perPeer
        then Tracked (l.admitScope w i t).2 i s (insert t later) ∅
        else ¬ Remembered (l.admitScope w i t).2 i s) := by
  obtain ⟨before, after, front, back, hpeers, rfl, -⟩ := ht
  obtain ⟨peers, seen, evicted, fresh, seen', evicted', hroom, hseen, hothers, heq⟩ :=
    admit_cases h i t
  have hmem : (i, front ++ s :: back) ∈ l.peers :=
    hpeers ▸ List.mem_append_right _ List.mem_cons_self
  -- the queue of scopes is the one that was split
  obtain rfl : seen = front ++ s :: back := by
    obtain ⟨_, _, hsplit, -⟩ := hroom.not_mem_of ⟨_, hmem⟩
    have hmem' : (i, seen) ∈ l.peers := hsplit ▸ List.mem_append_right _ List.mem_cons_self
    exact (Prod.mk.inj (List.inj_on_of_nodup_map h.nodup hmem' hmem rfl)).2
  have hnodup := h.seen_nodup _ hmem
  have hback : back.Nodup := (List.nodup_append'.mp hnodup).2.1.of_cons
  have hcard : t ∉ front ++ s :: back → (insert t back.toFinset).card = back.length + 1 := by
    intro ht
    rw [Finset.card_insert_of_notMem, List.toFinset_card_of_nodup hback]
    rw [List.mem_toFinset]
    exact fun hmem => ht (List.mem_append_right _ (List.mem_cons_of_mem _ hmem))
  have hinsert : insert t back.toFinset = (back ++ [t]).toFinset := by
    ext u
    simp
  rw [heq]
  cases hseen with
  | repeated => exact ⟨fun _ => ⟨peers, [], front, back, rfl, rfl, rfl⟩, fun hf => (nomatch hf)⟩
  | free ht hlt =>
    refine ⟨fun hf => (nomatch hf), fun _ => ?_⟩
    rw [hcard ht, if_pos (by simp at hlt; omega), hinsert]
    exact ⟨peers, [], front, back ++ [t], by simp, rfl, rfl⟩
  | full old rest ht hold hfull =>
    refine ⟨fun hf => (nomatch hf), fun _ => ?_⟩
    rw [hcard ht]
    cases front with
    | nil =>
      obtain ⟨rfl, rfl⟩ := List.cons.inj hold
      rw [if_neg (by simp at hfull; omega)]
      refine not_remembered_of rfl hothers fun hs => ?_
      rcases List.mem_append.mp hs with hs | hs
      · exact (List.nodup_cons.mp hnodup).1 hs
      · exact ht (List.mem_singleton.mp hs ▸ List.mem_cons_self)
    | cons f front =>
      obtain ⟨rfl, rfl⟩ := List.cons.inj hold
      rw [if_pos (by simp at hfull; omega), hinsert]
      exact ⟨peers, [], front, back ++ [t], by simp, rfl, rfl⟩

omit [DecidableEq S] in
theorem Bounded.tracked_lt {l' : BoundedReplayLedger I S} (h : Bounded w l')
    {before after : List (I × List S)} {p : I × List S} (heq : l'.peers = before ++ p :: after) :
    (after.map Prod.fst).toFinset.card < w.maxPeers := by
  have hle := h.peers
  rw [heq, List.length_append, List.length_cons] at hle
  have hcard := List.toFinset_card_le (after.map Prod.fst)
  rw [List.length_map] at hcard
  omega

/-- A use of another identity: the scope's own ages. -/
theorem Tracked.other (h : Bounded w l) (ht : Tracked l i s later others) {j : I} (hj : j ≠ i)
    (t : S) : if (insert j others).card < w.maxPeers
      then Tracked (l.admitScope w j t).2 i s later (insert j others)
      else ¬ Remembered (l.admitScope w j t).2 i s := by
  have hbounded := h.admitScope j t
  obtain ⟨before, after, front, back, hpeers, rfl, rfl⟩ := ht
  obtain ⟨peers, seen, evicted, fresh, seen', evicted', hroom, hseen, hothers, heq⟩ :=
    admit_cases h j t
  rw [heq] at hbounded ⊢
  -- where the scope is still there, the other identity is last
  have htracked : ∀ before' after', peers = before' ++ (i, front ++ s :: back) :: after' →
      insert j (after.map Prod.fst).toFinset = insert j (after'.map Prod.fst).toFinset →
      if (insert j (after.map Prod.fst).toFinset).card < w.maxPeers
        then Tracked ⟨peers ++ [(j, seen')], evicted'⟩ i s back.toFinset
          (insert j (after.map Prod.fst).toFinset)
        else ¬ Remembered ⟨peers ++ [(j, seen')], evicted'⟩ i s := by
    intro before' after' hpeers' hinsert
    have hsplit : peers ++ [(j, seen')] =
        before' ++ (i, front ++ s :: back) :: (after' ++ [(j, seen')]) := by
      rw [hpeers', List.append_assoc, List.cons_append]
    have hset : insert j (after'.map Prod.fst).toFinset =
        ((after' ++ [(j, seen')]).map Prod.fst).toFinset := by
      ext u
      simp
    have hlt := hbounded.tracked_lt hsplit
    rw [hinsert, hset, if_pos hlt]
    exact ⟨before', after' ++ [(j, seen')], front, back, hsplit, rfl, rfl⟩
  have hfilter : ∀ m : List (I × List S),
      insert j (m.map Prod.fst).toFinset =
        insert j ((m.filter fun p => p.1 ≠ j).map Prod.fst).toFinset := by
    intro m
    ext u
    by_cases hu : u = j
    · simp [hu]
    · simp [hu]
  cases hroom with
  | known b a _ hsplit =>
    have hba : b ++ a = (before.filter fun p => p.1 ≠ j) ++
        (i, front ++ s :: back) :: after.filter fun p => p.1 ≠ j := by
      have hall : (l.peers.filter fun p => p.1 ≠ j) = b ++ a := by
        have hb : ∀ p ∈ b, p.1 ≠ j := fun p hp => hothers p (List.mem_append_left _ hp)
        have ha : ∀ p ∈ a, p.1 ≠ j := fun p hp => hothers p (List.mem_append_right _ hp)
        rw [hsplit, List.filter_append, List.filter_cons_of_neg (by simp), filter_ne_self hb,
          filter_ne_self ha]
      rw [← hall, hpeers, List.filter_append, List.filter_cons_of_pos (by simp [hj.symm])]
    exact htracked _ _ hba (hfilter after)
  | free hnew _ => exact htracked before after hpeers rfl
  | full old rest hnew hold hfull =>
    cases before with
    | nil =>
      obtain ⟨rfl, rfl⟩ := List.cons.inj (hpeers.symm.trans hold)
      have hnodup := h.nodup
      rw [hpeers] at hnodup
      have hrest : (after.map Prod.fst).Nodup := (List.nodup_cons.mp hnodup).2
      have hj' : j ∉ (after.map Prod.fst).toFinset := by
        rw [List.mem_toFinset, List.mem_map]
        rintro ⟨p, hp, hpj⟩
        exact hothers p hp hpj
      have hcard : (insert j (after.map Prod.fst).toFinset).card = w.maxPeers := by
        rw [Finset.card_insert_of_notMem hj', List.toFinset_card_of_nodup hrest, List.length_map,
          ← hfull, hold, List.length_cons]
      rw [if_neg (by omega)]
      rintro ⟨seen₀, hmem, -⟩
      rcases List.mem_append.mp hmem with hmem | hmem
      · exact (List.nodup_cons.mp hnodup).1 (List.mem_map.mpr ⟨_, hmem, rfl⟩)
      · exact hj (Prod.mk.inj (List.mem_singleton.mp hmem)).1.symm
    | cons b before =>
      obtain ⟨rfl, rfl⟩ := List.cons.inj (hold.symm.trans hpeers)
      exact htracked before after rfl rfl

end BoundedReplayLedger

/-! ## Runs -/

/-- A use of the window, and whether its scope was fresh. -/
structure Use (I S : Type) where
  identity : I
  scope : S
  fresh : Bool

section Runs

variable [DecidableEq I] [DecidableEq S]

open BoundedReplayLedger

/-- One more use. -/
def serve (w : Window) (state : BoundedReplayLedger I S × List (Use I S)) (c : I × S) :
    BoundedReplayLedger I S × List (Use I S) :=
  ((state.1.admitScope w c.1 c.2).2, state.2 ++ [⟨c.1, c.2, (state.1.admitScope w c.1 c.2).1⟩])

/-- The window after a run of uses, and the uses. -/
def served (w : Window) (crossings : List (I × S)) : BoundedReplayLedger I S × List (Use I S) :=
  crossings.foldl (serve w) (empty, [])

/-- The identities of some uses. -/
def identities (uses : List (Use I S)) : Finset I := (uses.map (·.identity)).toFinset

/-- The scopes of an identity that some uses were fresh with. -/
def admitted (i : I) (uses : List (Use I S)) : Finset S :=
  ((uses.filter fun u => u.identity = i ∧ u.fresh).map (·.scope)).toFinset

/-- The uses since did not exceed a window: neither that of the identity's scopes, nor, between two
uses of the identity or after the last, that of the identities. -/
structure Alive (w : Window) (i : I) (since : List (Use I S)) : Prop where
  scopes : (admitted i since).card < w.perPeer
  peers : ∀ idle, idle <:+: since → (∀ u ∈ idle, u.identity ≠ i) →
    (identities idle).card < w.maxPeers

/-- The uses since the last one of the identity. -/
def idleSince (i : I) (uses : List (Use I S)) : List (Use I S) :=
  uses.rtakeWhile fun u => u.identity ≠ i

theorem served_concat (w : Window) (crossings : List (I × S)) (c : I × S) :
    served w (crossings ++ [c]) = serve w (served w crossings) c := by
  rw [served, List.foldl_append]
  rfl

theorem served_bounded (w : Window) (crossings : List (I × S)) :
    Bounded w (served w crossings).1 := by
  induction crossings using List.reverseRecOn with
  | nil => exact bounded_empty
  | append_singleton crossings c ih =>
    rw [served_concat]
    exact ih.admitScope c.1 c.2

/-- **The counter counts what was forgotten**: all that was admitted is remembered or counted. -/
theorem evicted_add_size (w : Window) (crossings : List (I × S)) :
    (served w crossings).1.size + (served w crossings).1.evicted =
      (served w crossings).2.countP (·.fresh) := by
  induction crossings using List.reverseRecOn with
  | nil => rfl
  | append_singleton crossings c ih =>
    rw [served_concat, serve, size_admit (served_bounded w crossings), ih, List.countP_append]
    cases ((served w crossings).1.admitScope w c.1 c.2).1 <;> rfl

section Alive

variable {w : Window} {i : I} {since : List (Use I S)}

theorem admitted_concat (i : I) (since : List (Use I S)) (u : Use I S) :
    admitted i (since ++ [u]) =
      if u.identity = i ∧ u.fresh then insert u.scope (admitted i since) else admitted i since := by
  unfold admitted
  ext t
  by_cases hu : u.identity = i ∧ u.fresh = true
  · rw [if_pos hu]
    simp [hu]
  · rw [if_neg hu, List.filter_append, List.filter_cons_of_neg (by simpa using hu)]
    simp

omit [DecidableEq S] in
theorem idleSince_concat (i : I) (since : List (Use I S)) (u : Use I S) :
    idleSince i (since ++ [u]) = if u.identity = i then [] else idleSince i since ++ [u] := by
  unfold idleSince
  by_cases hu : u.identity = i
  · rw [if_pos hu, List.rtakeWhile_concat_neg _ _ _ (by simpa using hu)]
  · rw [if_neg hu, List.rtakeWhile_concat_pos _ _ _ (by simpa using hu)]

omit [DecidableEq S] in
/-- Uses at the end without the identity are among those since its last one. -/
theorem subset_idleSince {idle : List (Use I S)} (hend : idle <:+ since)
    (hne : ∀ u ∈ idle, u.identity ≠ i) : idle ⊆ idleSince i since := by
  obtain ⟨front, rfl⟩ := hend
  have htake : (idle.reverse ++ front.reverse).takeWhile (fun u => decide (u.identity ≠ i)) =
      idle.reverse ++ front.reverse.takeWhile fun u => decide (u.identity ≠ i) :=
    List.takeWhile_append_of_pos fun u hu => by simpa using hne u (List.mem_reverse.mp hu)
  intro u hu
  rw [idleSince, List.rtakeWhile, List.reverse_append, htake, List.reverse_append,
    List.reverse_reverse]
  exact List.mem_append_right _ hu

/-- One more use decides by the scopes of the identity, or by the identities since its last use. -/
theorem alive_concat (u : Use I S) : Alive w i (since ++ [u]) ↔ Alive w i since ∧
    if u.identity = i then (admitted i (since ++ [u])).card < w.perPeer
    else (identities (idleSince i since ++ [u])).card < w.maxPeers := by
  have hmono : admitted i since ⊆ admitted i (since ++ [u]) := by
    rw [admitted_concat]
    split
    · exact Finset.subset_insert _ _
    · exact Finset.Subset.refl _
  have hidle : ∀ v ∈ idleSince i since, v.identity ≠ i := fun v hv => by
    simpa using List.mem_rtakeWhile_imp hv
  constructor
  · intro h
    refine ⟨⟨(Finset.card_le_card hmono).trans_lt h.scopes, fun idle hinside hne => ?_⟩, ?_⟩
    · exact h.peers idle (List.infix_concat_iff.mpr (.inr hinside)) hne
    · split
      · exact h.scopes
      · rename_i hu
        refine h.peers _ (List.infix_concat_iff.mpr (.inl ?_)) fun v hv => ?_
        · exact List.suffix_concat_iff.mpr (.inr ⟨_, rfl, List.rtakeWhile_suffix _ _⟩)
        · rcases List.mem_append.mp hv with hv | hv
          · exact hidle v hv
          · exact List.mem_singleton.mp hv ▸ hu
  · rintro ⟨h, hlast⟩
    refine ⟨?_, fun idle hinside hne => ?_⟩
    · by_cases hu : u.identity = i
      · rwa [if_pos hu] at hlast
      · rw [admitted_concat, if_neg fun hall => hu hall.1]
        exact h.scopes
    · rcases List.infix_concat_iff.mp hinside with hend | hinside
      · rcases List.suffix_concat_iff.mp hend with rfl | ⟨rest, rfl, hrest⟩
        · exact w.maxPeers_pos
        · have hu : u.identity ≠ i := hne u (List.mem_append_right _ List.mem_cons_self)
          rw [if_neg hu] at hlast
          refine (Finset.card_le_card fun j hj => ?_).trans_lt hlast
          have hsub := subset_idleSince hrest fun v (hv : v ∈ rest) =>
            hne v (List.mem_append_left _ hv)
          rw [identities, List.mem_toFinset, List.map_append, List.mem_append] at hj ⊢
          exact hj.imp_left fun hj => List.map_subset _ hsub hj
      · exact h.peers idle hinside hne

theorem alive_nil : Alive w i ([] : List (Use I S)) where
  scopes := w.perPeer_pos
  peers idle hinside _ := by
    rw [List.infix_nil.mp hinside]
    exact w.maxPeers_pos

end Alive

/-- What the uses of a run say of one remembered scope. -/
structure Explained (w : Window) (l : BoundedReplayLedger I S) (uses : List (Use I S)) (i : I)
    (s : S) : Prop where
  tracked : ∀ before after, uses = before ++ ⟨i, s, true⟩ :: after → Alive w i after →
    Tracked l i s (admitted i after) (identities (idleSince i after))
  admitted : Remembered l i s → ∃ before after, uses = before ++ ⟨i, s, true⟩ :: after ∧
    Alive w i after

/-- A scope that is alive and tracked is tracked after one more use, or forgotten as it dies. -/
theorem BoundedReplayLedger.Tracked.serve {w : Window} {l : BoundedReplayLedger I S}
    (h : Bounded w l) {i : I} {s : S}
    {since : List (Use I S)} (halive : Alive w i since)
    (ht : Tracked l i s (Deploy.admitted i since) (identities (idleSince i since)))
    (j : I) (t : S) :
    let u : Use I S := ⟨j, t, (l.admitScope w j t).1⟩
    (Alive w i (since ++ [u]) →
      Tracked (l.admitScope w j t).2 i s (Deploy.admitted i (since ++ [u]))
      (identities (idleSince i (since ++ [u])))) ∧
    (¬ Alive w i (since ++ [u]) → ¬ Remembered (l.admitScope w j t).2 i s) := by
  intro u
  rw [alive_concat, admitted_concat, idleSince_concat]
  by_cases hj : j = i
  · subst hj
    obtain ⟨hrepeat, hfresh⟩ := ht.same h t
    cases hscope : (l.admitScope w j t).1 with
    | false =>
      have hu : ¬ (u.identity = j ∧ u.fresh = true) := fun hall => by
        have : (l.admitScope w j t).1 = true := hall.2
        rw [hscope] at this
        cases this
      rw [if_neg hu, if_pos rfl, if_pos rfl]
      exact ⟨fun _ => hrepeat hscope, fun hdead => absurd ⟨halive, halive.scopes⟩ hdead⟩
    | true =>
      have hu : u.identity = j ∧ u.fresh = true := ⟨rfl, hscope⟩
      have hspec := hfresh hscope
      rw [if_pos hu, if_pos rfl, if_pos rfl]
      refine ⟨fun hnow => ?_, fun hdead => ?_⟩
      · rwa [if_pos hnow.2] at hspec
      · rwa [if_neg fun hlt => hdead ⟨halive, hlt⟩] at hspec
  · have hu : ¬ (u.identity = i ∧ u.fresh = true) := fun hall => hj hall.1
    have hspec := ht.other h hj t
    have hset : insert j (identities (idleSince i since)) =
        identities (idleSince i since ++ [u]) := by
      ext k
      simp [identities, u]
    rw [hset] at hspec
    have hne : ¬ u.identity = i := hj
    rw [if_neg hu, if_neg hne, if_neg hne]
    refine ⟨fun hnow => ?_, fun hdead => ?_⟩
    · rwa [if_pos hnow.2] at hspec
    · rwa [if_neg fun hlt => hdead ⟨halive, hlt⟩] at hspec

/-- **The step lemma.** -/
theorem Explained.serve {w : Window} {l : BoundedReplayLedger I S} {uses : List (Use I S)} {i : I}
    {s : S} (h : Bounded w l) (he : Explained w l uses i s) (j : I) (t : S) :
    Explained w (l.admitScope w j t).2 (uses ++ [⟨j, t, (l.admitScope w j t).1⟩]) i s where
  tracked before after heq halive := by
    rcases List.eq_nil_or_concat after with rfl | ⟨after, u, rfl⟩
    · -- the use is the one that was fresh with the scope
      obtain ⟨-, hlast⟩ := List.append_inj' heq rfl
      obtain ⟨rfl, rfl, hfresh⟩ := Use.mk.inj (List.cons.inj hlast).1
      obtain ⟨others, seen, evicted, fresh, seen', evicted', -, hseen, -, hscope⟩ :=
        admit_cases h j t
      rw [hscope] at hfresh ⊢
      cases hseen with
      | repeated => cases hfresh
      | free => exact ⟨others, [], seen, [], rfl, rfl, rfl⟩
      | full old rest => exact ⟨others, [], rest, [], rfl, rfl, rfl⟩
    · rw [List.concat_eq_append] at heq halive ⊢
      have hsplit : uses ++ [⟨j, t, (l.admitScope w j t).1⟩] =
          (before ++ ⟨i, s, true⟩ :: after) ++ [u] := by rw [heq]; simp
      obtain ⟨rfl, hlast⟩ := List.append_inj' hsplit rfl
      obtain rfl := (List.cons.inj hlast).1
      have hbefore := ((alive_concat _).mp halive).1
      exact ((he.tracked before after rfl hbefore).serve h hbefore j t).1 halive
  admitted hrem := by
    rcases remembered_admit h hrem with hold | ⟨hfresh, rfl, rfl⟩
    · obtain ⟨before, after, rfl, hbefore⟩ := he.admitted hold
      refine ⟨before, after ++ [⟨j, t, (l.admitScope w j t).1⟩], by simp, ?_⟩
      by_contra hdead
      exact ((he.tracked before after rfl hbefore).serve h hbefore j t).2 hdead hrem
    · exact ⟨uses, [], by rw [hfresh], alive_nil⟩

/-- **The run lemma.** -/
theorem served_explained (w : Window) (crossings : List (I × S)) (i : I) (s : S) :
    Explained w (served w crossings).1 (served w crossings).2 i s := by
  induction crossings using List.reverseRecOn with
  | nil =>
    refine ⟨fun before after heq => ?_, ?_⟩
    · simp [served] at heq
    · rintro ⟨seen, hmem, -⟩
      cases hmem
  | append_singleton crossings c ih =>
    rw [served_concat]
    exact ih.serve (served_bounded w crossings) c.1 c.2

/-- **A scope is remembered exactly when it was admitted and is alive.** -/
theorem remembered_iff (w : Window) (crossings : List (I × S)) (i : I) (s : S) :
    Remembered (served w crossings).1 i s ↔
      ∃ before after, (served w crossings).2 = before ++ ⟨i, s, true⟩ :: after ∧
        Alive w i after := by
  have hexplained := served_explained w crossings i s
  exact ⟨hexplained.admitted, fun ⟨before, after, heq, halive⟩ =>
    (hexplained.tracked before after heq halive).remembered⟩

end Runs

end Revl.Deploy
