import Mathlib

/-!
# Folds of steps that may raise

A loop body reads an item and a state and either goes on with a new state or raises. What it
did before raising stays done, so a raise carries the state it left behind.

- `runSteps`: the loop; it stops at the first error.
- `runSteps_inv`: **the invariant rule**.
- `runSteps_mem`: a loop that ran through made the step of each of its items.
- `runSteps_foldl`: a loop whose steps are plain functions.
-/

universe u v w

/-- A state, or an error together with the state it was raised in. -/
inductive Outcome (ε : Type u) (σ : Type v) where
  | ok (s : σ)
  | raised (e : ε) (s : σ)

namespace Outcome

variable {ε : Type u} {σ : Type v} {α : Type w}

/-- The state reached, whether or not an error ended the run. -/
def state : Outcome ε σ → σ
  | .ok s => s
  | .raised _ s => s

/-- Go on from a state that raised nothing. -/
def andThen (o : Outcome ε σ) (f : σ → Outcome ε σ) : Outcome ε σ :=
  match o with
  | .ok s => f s
  | .raised e s => .raised e s

@[simp] theorem andThen_ok (s : σ) (f : σ → Outcome ε σ) : (Outcome.ok s).andThen f = f s := rfl

/-- What one stage keeps and the next stage keeps, the two in sequence keep. -/
theorem andThen_inv {P : σ → Prop} {o : Outcome ε σ} {f : σ → Outcome ε σ} (ho : P o.state)
    (hf : ∀ s, P s → P (f s).state) : P (o.andThen f).state := by
  cases o with
  | ok s => exact hf s ho
  | raised e s => exact ho

/-- Run a step on each item in turn, stopping at the first error. -/
def runSteps (step : σ → α → Outcome ε σ) : List α → σ → Outcome ε σ
  | [], s => .ok s
  | a :: as, s => (step s a).andThen (runSteps step as)

theorem runSteps_cons (step : σ → α → Outcome ε σ) (a : α) (as : List α) (s : σ) :
    runSteps step (a :: as) s = (step s a).andThen (runSteps step as) := rfl

/-- **The invariant rule**: what every step keeps, the loop keeps, error or not. -/
theorem runSteps_inv {P : σ → Prop} {step : σ → α → Outcome ε σ} {as : List α}
    (hstep : ∀ a ∈ as, ∀ s, P s → P (step s a).state) {s : σ} (hs : P s) :
    P (runSteps step as s).state := by
  induction as generalizing s with
  | nil => exact hs
  | cons a as ih =>
    rw [runSteps_cons]
    refine andThen_inv (hstep a List.mem_cons_self s hs) fun t ht => ?_
    exact ih (fun b hb => hstep b (List.mem_cons_of_mem _ hb)) ht

theorem runSteps_inv_ok {P : σ → Prop} {step : σ → α → Outcome ε σ} {as : List α} {s t : σ}
    (hrun : runSteps step as s = .ok t) (hs : P s)
    (hstep : ∀ a ∈ as, ∀ s, P s → P (step s a).state) : P t := by
  have := runSteps_inv hstep hs
  rwa [hrun] at this

/-- A loop relates its ends by any preorder that relates the ends of its steps. -/
theorem runSteps_rel {R : σ → σ → Prop} (hrefl : ∀ s, R s s)
    (htrans : ∀ s t u, R s t → R t u → R s u) {step : σ → α → Outcome ε σ} {as : List α}
    (hstep : ∀ a ∈ as, ∀ s, R s (step s a).state) (s : σ) : R s (runSteps step as s).state :=
  runSteps_inv (P := R s) (fun a ha t ht => htrans s t _ ht (hstep a ha t)) (hrefl s)

/-- A loop that ran through made the step of each of its items, somewhere between its ends. -/
theorem runSteps_mem {R : σ → σ → Prop} (hrefl : ∀ s, R s s)
    (htrans : ∀ s t u, R s t → R t u → R s u) {step : σ → α → Outcome ε σ} {as : List α}
    (hstep : ∀ a ∈ as, ∀ s, R s (step s a).state) {s t : σ} (hrun : runSteps step as s = .ok t)
    {a : α} (ha : a ∈ as) : ∃ s₁ s₂, R s s₁ ∧ step s₁ a = .ok s₂ ∧ R s₂ t := by
  induction as generalizing s with
  | nil => cases ha
  | cons b as ih =>
    rw [runSteps_cons] at hrun
    have hrest : ∀ c ∈ as, ∀ s, R s (step s c).state :=
      fun c hc => hstep c (List.mem_cons_of_mem _ hc)
    cases hb : step s b with
    | raised e s' => simp [hb, andThen] at hrun
    | ok s' =>
      rw [hb, andThen_ok] at hrun
      rcases List.mem_cons.1 ha with rfl | ha
      · have hend := runSteps_rel hrefl htrans hrest s'
        rw [hrun] at hend
        exact ⟨s, s', hrefl s, hb, hend⟩
      · obtain ⟨s₁, s₂, h₁, h₂, h₃⟩ := ih hrest hrun ha
        have hhead := hstep b List.mem_cons_self s
        rw [hb] at hhead
        exact ⟨s₁, s₂, htrans s s' s₁ hhead h₁, h₂, h₃⟩

/-- A loop none of whose steps raises runs through. -/
theorem runSteps_ok {step : σ → α → Outcome ε σ} {as : List α}
    (hstep : ∀ a ∈ as, ∀ s, ∃ t, step s a = .ok t) (s : σ) : ∃ t, runSteps step as s = .ok t := by
  induction as generalizing s with
  | nil => exact ⟨s, rfl⟩
  | cons a as ih =>
    obtain ⟨t, ht⟩ := hstep a List.mem_cons_self s
    obtain ⟨u, hu⟩ := ih (fun b hb => hstep b (List.mem_cons_of_mem _ hb)) t
    exact ⟨u, by rw [runSteps_cons, ht, andThen_ok, hu]⟩

theorem andThen_eq_ok {o : Outcome ε σ} {f : σ → Outcome ε σ} {t : σ} :
    o.andThen f = .ok t ↔ ∃ s, o = .ok s ∧ f s = .ok t := by
  cases o with
  | ok s => simp
  | raised e s => simp [andThen]

/-- A loop whose steps are plain functions is a fold. -/
theorem runSteps_foldl (f : σ → α → σ) (as : List α) (s : σ) :
    runSteps (fun s a => (.ok (f s a) : Outcome ε σ)) as s = .ok (as.foldl f s) := by
  induction as generalizing s with
  | nil => rfl
  | cons a as ih =>
    rw [runSteps_cons, andThen_ok, ih]
    rfl

/-- `runSteps_mem` for a fold. -/
theorem foldl_mem {R : σ → σ → Prop} (hrefl : ∀ s, R s s)
    (htrans : ∀ s t u, R s t → R t u → R s u) {f : σ → α → σ} {as : List α}
    (hstep : ∀ a ∈ as, ∀ s, R s (f s a)) (s : σ) {a : α} (ha : a ∈ as) :
    ∃ s₁, R s s₁ ∧ R (f s₁ a) (as.foldl f s) := by
  have hrun : runSteps (fun s a => (.ok (f s a) : Outcome Empty σ)) as s = .ok (as.foldl f s) :=
    runSteps_foldl f as s
  obtain ⟨s₁, s₂, h₁, h₂, h₃⟩ := runSteps_mem hrefl htrans hstep hrun ha
  obtain rfl := Outcome.ok.inj h₂
  exact ⟨s₁, h₁, h₃⟩

end Outcome
