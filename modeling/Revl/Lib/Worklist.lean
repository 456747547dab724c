import Mathlib

/-!
# Worklists over a finite graph

A graph is the successor list of each node. Two loops collect what is reachable from some
roots: one marks a node when it is queued, the other when it is taken off the stack. Both
run on a fuel, and both end within the fuel stated.

- `sweep`: the queue, marking on the way in. `mem_sweep_iff`: it collects what is reachable.
- `drain`: the stack, marking on the way out. `mem_drain_iff`: it collects what is reachable.
- `mem_iff_of_closed`: the one argument behind both: a closed set of reachable nodes that
  holds the roots is the reachable set.
-/

namespace Worklist

universe u

variable {α : Type u}

/-- Reachable along successors. -/
def Reach (next : α → List α) : α → α → Prop := Relation.ReflTransGen fun a b => b ∈ next a

/-- A set of nodes that holds the successors of its nodes. -/
def Closed (next : α → List α) (S : α → Prop) : Prop := ∀ a, S a → ∀ b ∈ next a, S b

theorem Closed.reach {next : α → List α} {S : α → Prop} (h : Closed next S) {a b : α}
    (ha : S a) (hab : Reach next a b) : S b := by
  induction hab with
  | refl => exact ha
  | tail _ hstep ih => exact h _ ih _ hstep

/-- A closed set of reachable nodes that holds the roots is the reachable set. -/
theorem mem_iff_of_closed {next : α → List α} (roots : List α) {S : α → Prop}
    (hroots : ∀ r ∈ roots, S r) (hclosed : Closed next S)
    (hsound : ∀ b, S b → ∃ r ∈ roots, Reach next r b) (b : α) :
    S b ↔ ∃ r ∈ roots, Reach next r b := by
  constructor
  · exact hsound b
  · rintro ⟨r, hr, hreach⟩
    exact hclosed.reach (hroots r hr) hreach

/-! ## Marking on the way in -/

variable [DecidableEq α]

/-- The nodes of a successor list that were not met before, each once. -/
def fresh (seen : List α) : List α → List α
  | [] => []
  | b :: bs => if b ∈ seen then fresh seen bs else b :: fresh (b :: seen) bs

theorem mem_fresh {bs : List α} : ∀ {seen : List α} {b : α},
    b ∈ fresh seen bs ↔ b ∈ bs ∧ b ∉ seen := by
  induction bs with
  | nil => intro seen b; simp [fresh]
  | cons c cs ih =>
    intro seen b
    unfold fresh
    by_cases hc : c ∈ seen
    · rw [if_pos hc, ih]
      constructor
      · rintro ⟨hb, hseen⟩
        exact ⟨List.mem_cons_of_mem _ hb, hseen⟩
      · rintro ⟨hb, hseen⟩
        rcases List.mem_cons.mp hb with rfl | hb
        · exact absurd hc hseen
        · exact ⟨hb, hseen⟩
    · rw [if_neg hc, List.mem_cons, ih, List.mem_cons]
      by_cases hbc : b = c
      · subst hbc
        simp [hc]
      · simp [hbc]

theorem nodup_fresh {bs : List α} : ∀ (seen : List α), (fresh seen bs).Nodup := by
  induction bs with
  | nil => intro seen; exact List.nodup_nil
  | cons c cs ih =>
    intro seen
    unfold fresh
    by_cases hc : c ∈ seen
    · rw [if_pos hc]
      exact ih seen
    · rw [if_neg hc]
      refine List.nodup_cons.mpr ⟨?_, ih _⟩
      intro hmem
      exact (mem_fresh.mp hmem).2 (List.mem_cons_self ..)

/-- The queue: a node is marked when it is put on it. -/
def sweep (next : α → List α) : Nat → List α → List α → List α
  | _, [], seen => seen
  | 0, _ :: _, seen => seen
  | n + 1, a :: queue, seen =>
    sweep next n (queue ++ fresh seen (next a)) (seen ++ fresh seen (next a))

/-- What the loop has marked stays marked. -/
theorem subset_sweep (next : α → List α) : ∀ (n : Nat) (queue seen : List α) {b : α},
    b ∈ seen → b ∈ sweep next n queue seen
  | _, [], _, _, h => by
    rw [sweep]
    exact h
  | 0, _ :: _, _, _, h => h
  | n + 1, _ :: _, _, _, h => subset_sweep next n _ _ (List.mem_append_left _ h)

/-- A property of the marked nodes that successors inherit. -/
theorem sweep_sound {next : α → List α} {P : α → Prop} (hnext : Closed next P) :
    ∀ (n : Nat) (queue seen : List α), (∀ a ∈ queue, P a) → (∀ a ∈ seen, P a) →
      ∀ b ∈ sweep next n queue seen, P b
  | _, [], _, _, hseen => by
    rw [sweep]
    exact hseen
  | 0, _ :: _, _, _, hseen => hseen
  | n + 1, a :: queue, seen, hqueue, hseen => by
    have hfresh : ∀ b ∈ fresh seen (next a), P b := by
      intro b hb
      exact hnext a (hqueue a (List.mem_cons_self ..)) b (mem_fresh.mp hb).1
    refine sweep_sound hnext n _ _ ?_ ?_
    · intro b hb
      rcases List.mem_append.mp hb with hb | hb
      · exact hqueue b (List.mem_cons_of_mem _ hb)
      · exact hfresh b hb
    · intro b hb
      rcases List.mem_append.mp hb with hb | hb
      · exact hseen b hb
      · exact hfresh b hb

/-- Marking the fresh nodes takes that many off the nodes still unmarked. -/
theorem card_unseen_fresh {U : Finset α} (seen : List α) {bs : List α} (hbs : ∀ b ∈ bs, b ∈ U) :
    (U \ (seen ++ fresh seen bs).toFinset).card + (fresh seen bs).length =
      (U \ seen.toFinset).card := by
  have hsub : (fresh seen bs).toFinset ⊆ U \ seen.toFinset := by
    intro b hb
    obtain ⟨hmem, hseen⟩ := mem_fresh.mp (List.mem_toFinset.mp hb)
    simp [hbs b hmem, hseen]
  have hsplit : U \ (seen ++ fresh seen bs).toFinset =
      (U \ seen.toFinset) \ (fresh seen bs).toFinset := by
    rw [List.toFinset_append, sdiff_sdiff_left]
    rfl
  have hlen : (fresh seen bs).toFinset.card = (fresh seen bs).length :=
    List.toFinset_card_of_nodup (nodup_fresh seen)
  rw [hsplit, ← hlen, Finset.card_sdiff_add_card_eq_card hsub]

/-- With a step left for every node queued or unmarked, the marked nodes end up closed. -/
theorem sweep_closed {next : α → List α} {U : Finset α} (hU : ∀ a, ∀ b ∈ next a, b ∈ U) :
    ∀ (n : Nat) (queue seen : List α),
      (∀ a ∈ seen, a ∉ queue → ∀ b ∈ next a, b ∈ seen) →
      queue.length + (U \ seen.toFinset).card ≤ n →
      Closed next (· ∈ sweep next n queue seen)
  | n, [], seen, hinv, _ => by
    rw [sweep]
    exact fun a ha => hinv a ha List.not_mem_nil
  | 0, a :: queue, seen, _, hfuel => by
    simp at hfuel
  | n + 1, a :: queue, seen, hinv, hfuel => by
    rw [sweep]
    refine sweep_closed hU n _ _ ?_ ?_
    · intro c hc hqueue b hb
      by_cases hseen : b ∈ seen
      · exact List.mem_append_left _ hseen
      · -- a successor not seen before: of the node taken off, or of one already left
        refine List.mem_append_right _ (mem_fresh.mpr ⟨?_, hseen⟩)
        rcases List.mem_append.mp hc with hc | hc
        · by_cases hca : c = a
          · exact hca ▸ hb
          · refine absurd (hinv c hc ?_ b hb) hseen
            intro hmem
            rcases List.mem_cons.mp hmem with heq | hmem
            · exact hca heq
            · exact hqueue (List.mem_append_left _ hmem)
        · exact absurd (List.mem_append_right _ hc) hqueue
    · have hcard := card_unseen_fresh seen (hU a)
      rw [List.length_cons] at hfuel
      rw [List.length_append]
      omega

/-- **The queue collects what is reachable.** -/
theorem mem_sweep_iff {next : α → List α} {U : List α} (hU : ∀ a, ∀ b ∈ next a, b ∈ U)
    (a b : α) : b ∈ sweep next (U.length + 1) [a] [a] ↔ Reach next a b := by
  have hclosed : Closed next (· ∈ sweep next (U.length + 1) [a] [a]) := by
    refine sweep_closed (U := U.toFinset) ?_ _ _ _ ?_ ?_
    · intro c d hd
      exact List.mem_toFinset.mpr (hU c d hd)
    · exact fun c hc hnot => absurd hc hnot
    · have hle : (U.toFinset \ [a].toFinset).card ≤ U.length :=
        le_trans (Finset.card_le_card Finset.sdiff_subset) (List.toFinset_card_le U)
      rw [List.length_singleton]
      omega
  have hiff := mem_iff_of_closed [a]
    (fun r hr => subset_sweep next (U.length + 1) [a] [a] hr) hclosed
    (fun c hc => by
      refine sweep_sound (P := fun c => ∃ r ∈ [a], Reach next r c) ?_ _ _ _ ?_ ?_ c hc
      · rintro c ⟨r, hr, hrc⟩ d hd
        exact ⟨r, hr, hrc.tail hd⟩
      · exact fun r hr => ⟨r, hr, .refl⟩
      · exact fun r hr => ⟨r, hr, .refl⟩) b
  rw [hiff]
  simp

/-! ## Marking on the way out -/

/-- The stack: a node is marked when it is taken off, and skipped the next time. -/
def drain (next : α → List α) : Nat → List α → List α → List α
  | _, [], seen => seen
  | 0, _ :: _, seen => seen
  | n + 1, a :: work, seen =>
    if a ∈ seen then drain next n work seen
    else drain next n (next a ++ work) (a :: seen)

/-- A property of the roots that successors inherit. -/
theorem drain_sound {next : α → List α} {P : α → Prop} (hnext : Closed next P) :
    ∀ (n : Nat) (work seen : List α), (∀ a ∈ work, P a) → (∀ a ∈ seen, P a) →
      ∀ b ∈ drain next n work seen, P b
  | _, [], _, _, hseen => by
    rw [drain]
    exact hseen
  | 0, _ :: _, _, _, hseen => hseen
  | n + 1, a :: work, seen, hwork, hseen => by
    have ha : P a := hwork a (List.mem_cons_self ..)
    have hrest : ∀ b ∈ work, P b := fun b hb => hwork b (List.mem_cons_of_mem _ hb)
    rw [drain]
    by_cases hmem : a ∈ seen
    · rw [if_pos hmem]
      exact drain_sound hnext n work seen hrest hseen
    · rw [if_neg hmem]
      refine drain_sound hnext n _ _ ?_ ?_
      · intro b hb
        rcases List.mem_append.mp hb with hb | hb
        · exact hnext a ha b hb
        · exact hrest b hb
      · intro b hb
        rcases List.mem_cons.mp hb with rfl | hb
        · exact ha
        · exact hseen b hb

/-- The successors still to be stacked: those of the nodes of `U` not marked yet. -/
def pending (next : α → List α) (seen : List α) : List α → Nat
  | [] => 0
  | a :: U => (if a ∈ seen then 0 else (next a).length) + pending next seen U

theorem pending_cons_le (next : α → List α) (seen U : List α) (a : α) :
    pending next (a :: seen) U ≤ pending next seen U := by
  induction U with
  | nil => exact Nat.le_refl _
  | cons c U ih =>
    unfold pending
    by_cases hc : c ∈ seen
    · rw [if_pos (List.mem_cons_of_mem _ hc), if_pos hc]
      omega
    · rw [if_neg hc]
      split <;> omega

/-- Marking a node of `U` takes its successors off the count. -/
theorem pending_mark {next : α → List α} {seen U : List α} {a : α} (ha : a ∈ U)
    (hseen : a ∉ seen) :
    (next a).length + pending next (a :: seen) U ≤ pending next seen U := by
  induction U with
  | nil => exact absurd ha List.not_mem_nil
  | cons c U ih =>
    have hle := pending_cons_le next seen U a
    unfold pending
    by_cases hca : a = c
    · subst hca
      rw [if_pos (List.mem_cons_self ..), if_neg hseen]
      omega
    · have hU := ih ((List.mem_cons.mp ha).resolve_left hca)
      by_cases hc : c ∈ seen
      · rw [if_pos (List.mem_cons_of_mem _ hc), if_pos hc]
        omega
      · rw [if_neg hc]
        split <;> omega

/-- With a step left for every node stacked or still to be stacked, what is on the stack
ends up marked, and the marked nodes closed. -/
theorem drain_closed {next : α → List α} {U : List α} (hU : ∀ a ∉ U, next a = []) :
    ∀ (n : Nat) (work seen : List α),
      (∀ a ∈ seen, ∀ b ∈ next a, b ∈ seen ∨ b ∈ work) →
      work.length + pending next seen U ≤ n →
      (∀ a, a ∈ work ∨ a ∈ seen → a ∈ drain next n work seen) ∧
        Closed next (· ∈ drain next n work seen)
  | n, [], seen, hinv, _ => by
    rw [drain]
    refine ⟨fun a ha => ha.resolve_left List.not_mem_nil, ?_⟩
    intro a ha b hb
    exact (hinv a ha b hb).resolve_right List.not_mem_nil
  | 0, a :: work, seen, _, hfuel => by
    simp at hfuel
  | n + 1, a :: work, seen, hinv, hfuel => by
    rw [List.length_cons] at hfuel
    rw [drain]
    by_cases hmem : a ∈ seen
    · rw [if_pos hmem]
      obtain ⟨hmarked, hclosed⟩ := drain_closed hU n work seen (by
        intro c hc b hb
        rcases hinv c hc b hb with hb | hb
        · exact Or.inl hb
        · rcases List.mem_cons.mp hb with rfl | hb
          · exact Or.inl hmem
          · exact Or.inr hb) (by omega)
      refine ⟨fun c hc => hmarked c ?_, hclosed⟩
      rcases hc with hc | hc
      · rcases List.mem_cons.mp hc with rfl | hc
        · exact Or.inr hmem
        · exact Or.inl hc
      · exact Or.inr hc
    · rw [if_neg hmem]
      have hcount : (next a).length + pending next (a :: seen) U ≤ pending next seen U := by
        by_cases ha : a ∈ U
        · exact pending_mark ha hmem
        · rw [hU a ha]
          simpa using pending_cons_le next seen U a
      obtain ⟨hmarked, hclosed⟩ := drain_closed hU n (next a ++ work) (a :: seen) (by
        intro c hc b hb
        rcases List.mem_cons.mp hc with rfl | hc
        · exact Or.inr (List.mem_append_left _ hb)
        · rcases hinv c hc b hb with hb | hb
          · exact Or.inl (List.mem_cons_of_mem _ hb)
          · rcases List.mem_cons.mp hb with rfl | hb
            · exact Or.inl (List.mem_cons_self ..)
            · exact Or.inr (List.mem_append_right _ hb)) (by
        rw [List.length_append]
        omega)
      refine ⟨fun c hc => hmarked c ?_, hclosed⟩
      rcases hc with hc | hc
      · rcases List.mem_cons.mp hc with rfl | hc
        · exact Or.inr (List.mem_cons_self ..)
        · exact Or.inl (List.mem_append_right _ hc)
      · exact Or.inr (List.mem_cons_of_mem _ hc)

/-- **The stack collects what is reachable.** -/
theorem mem_drain_iff {next : α → List α} {U : List α} (hU : ∀ a ∉ U, next a = [])
    (roots : List α) (b : α) :
    b ∈ drain next (roots.length + pending next [] U) roots [] ↔
      ∃ r ∈ roots, Reach next r b := by
  obtain ⟨hmarked, hclosed⟩ := drain_closed hU (roots.length + pending next [] U) roots []
    (fun a ha => absurd ha List.not_mem_nil) (Nat.le_refl _)
  refine mem_iff_of_closed roots (fun r hr => hmarked r (Or.inl hr)) hclosed ?_ b
  intro c hc
  refine drain_sound (P := fun c => ∃ r ∈ roots, Reach next r c) ?_ _ _ _ ?_ ?_ c hc
  · rintro c ⟨r, hr, hrc⟩ d hd
    exact ⟨r, hr, hrc.tail hd⟩
  · exact fun r hr => ⟨r, hr, .refl⟩
  · exact fun r hr => absurd hr List.not_mem_nil

end Worklist
