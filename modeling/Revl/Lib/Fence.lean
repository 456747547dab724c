import Mathlib

/-!
# Consume before fire

An attempt that must happen at most once is preceded by a durable fence. A run that finds the
fence makes no attempt. A run may stop at any point, between the fence and the attempt
included; the fences it wrote stay.

- `Act`: what a run does, as far as the fences can tell.
- `Guarded`: the discipline. A fence is written once, and only the key fenced last is attempted.
- `guarded_append`: the discipline, piece by piece.
- `runs_at_most_once`: **over any sequence of cut runs each key is attempted at most once**, and
  a key fenced before the sequence never.
-/

universe u

namespace Fence

variable {κ : Type u}

inductive Act (κ : Type u) where
  | fence (k : κ)
  | attempt (k : κ)
  | other
  deriving DecidableEq

/-- The keys fenced once a run did what it did. -/
def spentAfter (spent : Set κ) : List (Act κ) → Set κ
  | [] => spent
  | .fence k :: acts => spentAfter (insert k spent) acts
  | _ :: acts => spentAfter spent acts

/-- The key whose attempt may follow. -/
def armedAfter (armed : Option κ) : List (Act κ) → Option κ
  | [] => armed
  | .fence k :: acts => armedAfter (some k) acts
  | .attempt _ :: acts => armedAfter none acts
  | .other :: acts => armedAfter armed acts

/-- The discipline of a run, from the keys fenced and the key whose attempt may follow. -/
def Guarded (spent : Set κ) (armed : Option κ) : List (Act κ) → Prop
  | [] => True
  | .fence k :: acts => k ∉ spent ∧ Guarded (insert k spent) (some k) acts
  | .attempt k :: acts => armed = some k ∧ Guarded spent none acts
  | .other :: acts => Guarded spent armed acts

theorem spentAfter_append (spent : Set κ) (l m : List (Act κ)) :
    spentAfter spent (l ++ m) = spentAfter (spentAfter spent l) m := by
  induction l generalizing spent with
  | nil => rfl
  | cons a l ih => cases a <;> exact ih _

theorem armedAfter_append (armed : Option κ) (l m : List (Act κ)) :
    armedAfter armed (l ++ m) = armedAfter (armedAfter armed l) m := by
  induction l generalizing armed with
  | nil => rfl
  | cons a l ih => cases a <;> exact ih _

/-- Two pieces keep the discipline when the second keeps it from where the first ends. -/
theorem guarded_append {spent : Set κ} {armed : Option κ} {l m : List (Act κ)} :
    Guarded spent armed (l ++ m) ↔
      Guarded spent armed l ∧ Guarded (spentAfter spent l) (armedAfter armed l) m := by
  induction l generalizing spent armed with
  | nil => exact (iff_of_eq (true_and _)).symm
  | cons a l ih =>
    cases a with
    | fence k =>
      show _ ∧ Guarded _ _ (l ++ m) ↔ (_ ∧ Guarded _ _ l) ∧ _
      rw [ih, and_assoc]
      rfl
    | attempt k =>
      show _ ∧ Guarded _ _ (l ++ m) ↔ (_ ∧ Guarded _ _ l) ∧ _
      rw [ih, and_assoc]
      rfl
    | other => exact ih

/-- A run may stop anywhere. -/
theorem Guarded.cut {spent : Set κ} {armed : Option κ} {l m : List (Act κ)} (hl : l <+: m)
    (hm : Guarded spent armed m) : Guarded spent armed l := by
  obtain ⟨t, rfl⟩ := hl
  exact (guarded_append.1 hm).1

theorem subset_spentAfter (spent : Set κ) (acts : List (Act κ)) :
    spent ⊆ spentAfter spent acts := by
  induction acts generalizing spent with
  | nil => exact Set.Subset.refl _
  | cons a acts ih =>
    cases a with
    | fence k => exact (Set.subset_insert k spent).trans (ih _)
    | attempt k => exact ih _
    | other => exact ih _

/-- The keys fenced are the ones fenced before, and the ones a run fences. -/
theorem mem_spentAfter {spent : Set κ} {acts : List (Act κ)} {k : κ} :
    k ∈ spentAfter spent acts ↔ k ∈ spent ∨ .fence k ∈ acts := by
  induction acts generalizing spent with
  | nil => simp [spentAfter]
  | cons a acts ih =>
    cases a with
    | fence j => simp [spentAfter, ih, or_assoc, or_left_comm]
    | attempt j => simp [spentAfter, ih]
    | other => simp [spentAfter, ih]

variable [DecidableEq κ]

/-- A key that is fenced and not armed is not attempted. -/
theorem count_eq_zero_of_spent {spent : Set κ} {armed : Option κ} {acts : List (Act κ)} {k : κ}
    (hacts : Guarded spent armed acts) (hk : k ∈ spent) (harmed : armed ≠ some k) :
    acts.count (.attempt k) = 0 := by
  induction acts generalizing spent armed with
  | nil => rfl
  | cons a acts ih =>
    cases a with
    | fence j =>
      have hj : j ≠ k := fun h => hacts.1 (h ▸ hk)
      have hrest := ih hacts.2 (Set.mem_insert_of_mem j hk) (by simpa using hj)
      simpa using hrest
    | attempt j =>
      have hj : j ≠ k := fun h => harmed (h ▸ hacts.1)
      have hrest := ih hacts.2 hk (by simp)
      simpa [List.count_cons, hj] using hrest
    | other =>
      have hrest := ih (show Guarded spent armed acts from hacts) hk harmed
      simpa using hrest

/-- A key is attempted at most once in a run, and a key that was attempted is fenced after. -/
theorem count_le_one {spent : Set κ} {armed : Option κ} {acts : List (Act κ)} {k : κ}
    (hacts : Guarded spent armed acts) (harmed : armed = some k → k ∈ spent) :
    acts.count (.attempt k) ≤ 1 ∧
      (acts.count (.attempt k) ≠ 0 → k ∈ spentAfter spent acts) := by
  induction acts generalizing spent armed with
  | nil => simp
  | cons a acts ih =>
    cases a with
    | fence j =>
      have hrest := ih hacts.2 (fun h => by
        obtain rfl : j = k := by simpa using h
        exact Set.mem_insert j spent)
      simpa [spentAfter] using hrest
    | attempt j =>
      by_cases hj : j = k
      · subst hj
        have hspent : j ∈ spent := harmed hacts.1
        -- the fence is spent and nothing is armed: the rest makes no attempt
        have hrest := count_eq_zero_of_spent hacts.2 hspent (by simp)
        rw [List.count_cons_self, hrest]
        exact ⟨Nat.le_refl 1, fun _ => subset_spentAfter spent acts hspent⟩
      · have hrest := ih hacts.2 (fun h => by cases h)
        simpa [List.count_cons, hj, spentAfter] using hrest
    | other =>
      have hrest := ih (show Guarded spent armed acts from hacts) harmed
      simpa [spentAfter] using hrest

/-- A sequence of runs, each from the fences the runs before it left. -/
def GuardedRuns (spent : Set κ) : List (List (Act κ)) → Prop
  | [] => True
  | acts :: runs => Guarded spent none acts ∧ GuardedRuns (spentAfter spent acts) runs

omit [DecidableEq κ] in
theorem guardedRuns_cons {spent : Set κ} {acts : List (Act κ)} {runs : List (List (Act κ))} :
    GuardedRuns spent (acts :: runs) ↔
      Guarded spent none acts ∧ GuardedRuns (spentAfter spent acts) runs := Iff.rfl

theorem runs_of_spent {spent : Set κ} {runs : List (List (Act κ))} {k : κ}
    (hruns : GuardedRuns spent runs) (hk : k ∈ spent) : runs.flatten.count (.attempt k) = 0 := by
  induction runs generalizing spent with
  | nil => rfl
  | cons acts runs ih =>
    rw [List.flatten_cons, List.count_append]
    have hhead := count_eq_zero_of_spent hruns.1 hk (by simp)
    have hrest := ih hruns.2 (subset_spentAfter spent acts hk)
    omega

/-- **At most once**: over any sequence of cut runs a key is attempted at most once, and never
when it was fenced before them. -/
theorem runs_at_most_once {spent : Set κ} {runs : List (List (Act κ))} (k : κ)
    (hruns : GuardedRuns spent runs) :
    runs.flatten.count (.attempt k) ≤ 1 ∧
      (k ∈ spent → runs.flatten.count (.attempt k) = 0) := by
  refine ⟨?_, fun hk => runs_of_spent hruns hk⟩
  induction runs generalizing spent with
  | nil => simp
  | cons acts runs ih =>
    rw [List.flatten_cons, List.count_append]
    obtain ⟨hhead, hrest⟩ := hruns
    have hone := count_le_one (k := k) hhead (by simp)
    by_cases hzero : acts.count (.attempt k) = 0
    · have := ih hrest
      omega
    · -- the run that attempted it left its fence: the later runs find it
      have hlater := runs_of_spent hrest (hone.2 hzero)
      have := hone.1
      omega

end Fence
