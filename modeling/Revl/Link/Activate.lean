import Revl.Lib.Kahn

/-!
# Parallel activation (`activation.py`, `activate_concurrent`)

Every component has a task of its own. It waits until each of its prerequisites is settled, is
skipped where one of them failed or was skipped, and is started otherwise; a started activation
finishes or fails, in any order. Teardown takes the finished ones last first.

- `State`, `Step`, `Run`: where each task stands, what one of them does next, any interleaving.
- `Inv`, `run_inv`: a component that was started has every prerequisite finished, and one that
  was skipped has a failed one behind it.
- `ended_unique`: **the statuses at the end do not depend on the interleaving.**
- `Follows`: the activation follows a graph of components. `follows_of_same`,
  `Follows.same`: **it follows a graph without cycles exactly where the prerequisites lead to the
  same components as the graph does.**
-/

namespace Revl.Link

universe u

/-- Where the task of a component stands. -/
inductive Status where
  | waiting
  | started
  | finished
  | failed
  | skipped
  deriving DecidableEq, Repr

namespace Status

/-- The task is over: its event is set. -/
def settled : Status → Bool
  | finished | failed | skipped => true
  | waiting | started => false

/-- The component is among the failed ones. -/
def lost : Status → Bool
  | failed | skipped => true
  | waiting | started | finished => false

/-- The activation was called. -/
def begun : Status → Bool
  | started | finished | failed => true
  | waiting | skipped => false

end Status

variable {N : Type u} [DecidableEq N]

/-- Where every task stands, and the components in the order their activations finished. -/
structure State (N : Type u) where
  status : N → Status
  completion : List N

/-- No task has done anything. -/
def State.initial : State N := ⟨fun _ => .waiting, []⟩

/-- A task moves on. -/
def State.set (s : State N) (name : N) (status : Status) : State N :=
  { s with status := Function.update s.status name status }

@[simp] theorem State.set_status_self (s : State N) (name : N) (status : Status) :
    (s.set name status).status name = status := Function.update_self ..

theorem State.set_status_of_ne (s : State N) {name other : N} (h : other ≠ name)
    (status : Status) : (s.set name status).status other = s.status other :=
  Function.update_of_ne h ..

/-- What a task does. -/
inductive Event (N : Type u) where
  | start (name : N)
  | skip (name : N)
  | finish (name : N)
  | fail (name : N)

variable (order : List N) (prereqs : N → List N)

/-- A task has waited for all its prerequisites. -/
def Due (s : State N) (name : N) : Prop :=
  name ∈ order ∧ s.status name = .waiting ∧
    ∀ p ∈ prereqs name, p ∈ order → (s.status p).settled = true

/-- A prerequisite is among the failed ones. -/
def Cascades (s : State N) (name : N) : Prop := ∃ p ∈ prereqs name, (s.status p).lost = true

/-- What one task does next. -/
inductive Step (s : State N) : Event N → State N → Prop where
  | skip {name : N} : Due order prereqs s name → Cascades prereqs s name →
      Step s (.skip name) (s.set name .skipped)
  | start {name : N} : Due order prereqs s name → ¬ Cascades prereqs s name →
      Step s (.start name) (s.set name .started)
  | finish {name : N} : s.status name = .started →
      Step s (.finish name) { s.set name .finished with completion := s.completion ++ [name] }
  | fail {name : N} : s.status name = .started → Step s (.fail name) (s.set name .failed)

/-- One task goes on. -/
def Moves (s s' : State N) : Prop := ∃ event, Step order prereqs s event s'

/-- A state some interleaving reaches. -/
def Run (s : State N) : Prop := Relation.ReflTransGen (Moves order prereqs) State.initial s

/-- Every task is over. -/
def Final (s : State N) : Prop := ∀ name ∈ order, (s.status name).settled = true

/-- `teardown_lifo`: the order of the disposals. -/
def teardownLifo (completion : List N) : List N := completion.reverse

/-- A component is waited for. -/
def Waits (p name : N) : Prop := p ∈ order ∧ name ∈ order ∧ p ∈ prereqs name

/-! ## What every interleaving keeps -/

/-- What holds in every state reached. -/
structure Inv (s : State N) : Prop where
  out : ∀ name, name ∉ order → s.status name = .waiting
  begun : ∀ name, (s.status name).begun = true → ∀ p, Waits order prereqs p name →
    s.status p = .finished
  acyclic : ∀ name, (s.status name).begun = true →
    ¬ Relation.TransGen (Waits order prereqs) name name
  skipped : ∀ name, s.status name = .skipped → ∃ p, s.status p = .failed ∧
    Relation.TransGen (Waits order prereqs) p name
  completion : ∀ name, name ∈ s.completion ↔ s.status name = .finished
  pairwise : s.completion.Pairwise fun a b => ¬ Relation.TransGen (Waits order prereqs) b a

variable {order prereqs}

omit [DecidableEq N] in
/-- Everything that leads to a component that was started is finished. -/
theorem Inv.finished_up {s : State N} (h : Inv order prereqs s) {p name : N}
    (hbegun : (s.status name).begun = true)
    (hway : Relation.TransGen (Waits order prereqs) p name) : s.status p = .finished := by
  induction hway using Relation.TransGen.head_induction_on with
  | single hedge => exact h.begun _ hbegun _ hedge
  | head hedge _ ih => exact h.begun _ (by rw [ih]; rfl) _ hedge

theorem Status.finished_of_settled {status : Status} (h : status.settled = true)
    (hlost : ¬ status.lost = true) : status = .finished := by
  cases status <;> simp_all [Status.settled, Status.lost]

omit [DecidableEq N] in
/-- Everything that leads to a component about to be started is finished. -/
theorem Inv.finished_of_due {s : State N} (h : Inv order prereqs s) {p name : N}
    (hdue : Due order prereqs s name) (hno : ¬ Cascades prereqs s name)
    (hway : Relation.TransGen (Waits order prereqs) p name) : s.status p = .finished := by
  obtain ⟨q, hpq, hedge⟩ := Relation.TransGen.tail'_iff.mp hway
  have hq : s.status q = .finished := Status.finished_of_settled (hdue.2.2 q hedge.2.2 hedge.1)
    fun hlost => hno ⟨q, hedge.2.2, hlost⟩
  rcases Relation.reflTransGen_iff_eq_or_transGen.mp hpq with rfl | hpq
  · exact hq
  · exact h.finished_up (by rw [hq]; rfl) hpq

omit [DecidableEq N] in
theorem inv_initial : Inv order prereqs (State.initial : State N) := by
  refine ⟨fun _ _ => rfl, fun _ h => ?_, fun _ h => ?_, fun _ h => ?_, fun _ => ?_, .nil⟩
  · cases h
  · cases h
  · cases h
  · exact ⟨fun h => absurd h List.not_mem_nil, fun h => nomatch h⟩

/-- A task that is not settled yet and moves on takes nothing back that is finished or failed. -/
theorem set_keeps {s : State N} {name p : N} {status was : Status} (hp : s.status p = was)
    (hname : s.status name ≠ was) : (s.set name status).status p = was := by
  rw [State.set_status_of_ne]
  · exact hp
  · rintro rfl
    exact hname hp

/-- What a task that is not settled yet has to bring when it moves on. -/
theorem Inv.move {s : State N} {name : N} {status : Status} {completion : List N}
    (h : Inv order prereqs s) (hname : name ∈ order)
    (hopen : s.status name = .waiting ∨ s.status name = .started)
    (hbegun : status.begun = true → (∀ p, Waits order prereqs p name → s.status p = .finished) ∧
      ¬ Relation.TransGen (Waits order prereqs) name name)
    (hskipped : status = .skipped → ∃ p, s.status p = .failed ∧
      Relation.TransGen (Waits order prereqs) p name)
    (hcompletion : ∀ m, m ∈ completion ↔ (s.set name status).status m = .finished)
    (hpairwise : completion.Pairwise fun a b => ¬ Relation.TransGen (Waits order prereqs) b a) :
    Inv order prereqs ⟨(s.set name status).status, completion⟩ := by
  have hfinished : s.status name ≠ .finished := by
    rcases hopen with h | h <;> rw [h] <;> simp
  have hfailed : s.status name ≠ .failed := by
    rcases hopen with h | h <;> rw [h] <;> simp
  refine ⟨fun m hm => ?_, fun m hm p hp => set_keeps ?_ hfinished, fun m hm => ?_, fun m hm => ?_,
    hcompletion, hpairwise⟩
  · have hne : m ≠ name := fun heq => hm (heq ▸ hname)
    exact (State.set_status_of_ne s hne _).trans (h.out m hm)
  · by_cases heq : m = name
    · subst heq
      rw [State.set_status_self] at hm
      exact (hbegun hm).1 p hp
    · rw [State.set_status_of_ne s heq] at hm
      exact h.begun m hm p hp
  · by_cases heq : m = name
    · subst heq
      rw [State.set_status_self] at hm
      exact (hbegun hm).2
    · rw [State.set_status_of_ne s heq] at hm
      exact h.acyclic m hm
  · obtain ⟨p, hp, hway⟩ : ∃ p, s.status p = .failed ∧
        Relation.TransGen (Waits order prereqs) p m := by
      by_cases heq : m = name
      · subst heq
        rw [State.set_status_self] at hm
        exact hskipped hm
      · rw [State.set_status_of_ne s heq] at hm
        exact h.skipped m hm
    exact ⟨p, set_keeps hp hfailed, hway⟩

/-- A task that moves on without finishing leaves the completion alone. -/
theorem Inv.completion_set {s : State N} {name : N} {status : Status} (h : Inv order prereqs s)
    (hwas : s.status name ≠ .finished) (hstatus : status ≠ .finished) (m : N) :
    m ∈ s.completion ↔ (s.set name status).status m = .finished := by
  rw [h.completion]
  by_cases heq : m = name
  · subst heq
    simp [hwas, hstatus]
  · rw [State.set_status_of_ne s heq]

theorem Inv.mem_of_started {s : State N} (h : Inv order prereqs s) {name : N}
    (hstarted : s.status name = .started) : name ∈ order := by
  by_contra hout
  rw [h.out name hout] at hstarted
  cases hstarted

/-- A component is skipped for a failed one that leads to it. -/
theorem Inv.cause {s : State N} (h : Inv order prereqs s) {name : N} (hname : name ∈ order)
    (hcascades : Cascades prereqs s name) :
    ∃ p, s.status p = .failed ∧ Relation.TransGen (Waits order prereqs) p name := by
  obtain ⟨p, hp, hlost⟩ := hcascades
  have hin : p ∈ order := by
    by_contra hout
    rw [h.out p hout] at hlost
    cases hlost
  have hedge : Waits order prereqs p name := ⟨hin, hname, hp⟩
  cases hstatus : s.status p with
  | failed => exact ⟨p, hstatus, .single hedge⟩
  | skipped =>
    obtain ⟨q, hq, hway⟩ := h.skipped p hstatus
    exact ⟨q, hq, hway.tail hedge⟩
  | waiting | started | finished =>
    rw [hstatus] at hlost
    cases hlost

/-- **Every step keeps the invariant.** -/
theorem Inv.step {s s' : State N} {event : Event N} (h : Inv order prereqs s)
    (hstep : Step order prereqs s event s') : Inv order prereqs s' := by
  cases hstep with
  | skip hdue hcascades =>
    -- what is skipped has a prerequisite that failed or was skipped: that is its cause
    refine h.move hdue.1 (.inl hdue.2.1) (fun hb => nomatch hb) (fun _ => h.cause hdue.1 hcascades)
      (h.completion_set ?_ (by simp)) h.pairwise
    rw [hdue.2.1]
    simp
  | @start name hdue hno =>
    -- all that leads to it is finished, and so would it be on a cycle
    refine h.move hdue.1 (.inl hdue.2.1) (fun _ => ⟨fun p hp => ?_, fun hcycle => ?_⟩)
      (fun hskipped => nomatch hskipped) (h.completion_set ?_ (by simp)) h.pairwise
    · exact h.finished_of_due hdue hno (.single hp)
    · have hfinished := h.finished_of_due hdue hno hcycle
      rw [hdue.2.1] at hfinished
      cases hfinished
    · rw [hdue.2.1]
      simp
  | @finish name hstarted =>
    have hbegun : (s.status name).begun = true := by
      rw [hstarted]
      rfl
    refine h.move (h.mem_of_started hstarted) (.inr hstarted)
      (fun _ => ⟨h.begun name hbegun, h.acyclic name hbegun⟩) (fun hskipped => nomatch hskipped)
      (fun m => ?_) ?_
    · rw [List.mem_append, List.mem_singleton, h.completion]
      by_cases heq : m = name
      · subst heq
        simp
      · rw [State.set_status_of_ne s heq]
        simp [heq]
    · -- it completes last, and nothing that completed before waits for it
      refine List.pairwise_append.mpr ⟨h.pairwise, List.pairwise_singleton _ _, ?_⟩
      intro a ha b hb hway
      rw [List.mem_singleton.mp hb] at hway
      have hfinished := h.finished_up (by rw [(h.completion a).mp ha]; rfl) hway
      rw [hstarted] at hfinished
      cases hfinished
  | @fail name hstarted =>
    have hbegun : (s.status name).begun = true := by
      rw [hstarted]
      rfl
    refine h.move (h.mem_of_started hstarted) (.inr hstarted)
      (fun _ => ⟨h.begun name hbegun, h.acyclic name hbegun⟩) (fun hskipped => nomatch hskipped)
      (h.completion_set ?_ (by simp)) h.pairwise
    rw [hstarted]
    simp

/-- **Every interleaving keeps the invariant.** -/
theorem run_inv {s : State N} (h : Run order prereqs s) : Inv order prereqs s := by
  induction h with
  | refl => exact inv_initial
  | tail _ hmoves ih =>
    obtain ⟨event, hstep⟩ := hmoves
    exact ih.step hstep

/-! ## Following a graph -/

variable (order prereqs) in
/-- The activation follows a graph: a component is started once everything an edge leads from is
finished, skipped exactly where a failed one leads to it, the tasks end, none is left once the
activations are over, and teardown disposes a component before anything that leads to it. -/
structure Follows (E : N → N → Prop) : Prop where
  starts : ∀ s, Run order prereqs s → ∀ name s', Step order prereqs s (.start name) s' →
    ∀ p, E p name → s.status p = .finished
  skips : ∀ s, Run order prereqs s → Final order s → ∀ name ∈ order,
    (s.status name = .skipped ↔ ∃ p, s.status p = .failed ∧ Relation.TransGen E p name)
  ends : ∀ s, Run order prereqs s → Acc (fun s' s => Moves order prereqs s s') s
  settles : ∀ s, Run order prereqs s → (∀ name, s.status name ≠ .started) → ¬ Final order s →
    ∃ s', Moves order prereqs s s'
  teardown : ∀ s, Run order prereqs s → (teardownLifo s.completion).Pairwise fun a b => ¬ E a b

/-- How many moves a task still makes at most. -/
def Status.left : Status → Nat
  | waiting => 2
  | started => 1
  | finished | failed | skipped => 0

variable (order) in
/-- How many moves are left. -/
def left (s : State N) : Nat := (order.map fun name => (s.status name).left).sum

theorem sum_set_lt {s : State N} {name : N} {status : Status}
    (hlt : status.left < (s.status name).left) (hname : name ∈ order) :
    (order.map fun m => ((s.set name status).status m).left).sum <
      (order.map fun m => (s.status m).left).sum := by
  refine List.sum_lt_sum _ _ (fun m _ => ?_) ⟨name, hname, ?_⟩
  · by_cases heq : m = name
    · subst heq
      rw [State.set_status_self]
      exact hlt.le
    · rw [State.set_status_of_ne s heq]
  · rw [State.set_status_self]
    exact hlt

theorem left_lt {s s' : State N} (h : Inv order prereqs s) (hmoves : Moves order prereqs s s') :
    left order s' < left order s := by
  obtain ⟨event, hstep⟩ := hmoves
  cases hstep with
  | skip hdue _ => exact sum_set_lt (by rw [hdue.2.1]; decide) hdue.1
  | start hdue _ => exact sum_set_lt (by rw [hdue.2.1]; decide) hdue.1
  | finish hstarted => exact sum_set_lt (by rw [hstarted]; decide) (h.mem_of_started hstarted)
  | fail hstarted => exact sum_set_lt (by rw [hstarted]; decide) (h.mem_of_started hstarted)

/-- **The tasks end**, whatever the interleaving. -/
theorem run_acc {s : State N} (h : Inv order prereqs s) :
    Acc (fun s' s => Moves order prereqs s s') s := by
  induction hleft : left order s using Nat.strong_induction_on generalizing s with
  | _ n ih =>
    refine ⟨s, fun s' hmoves => ?_⟩
    obtain ⟨event, hstep⟩ := hmoves
    exact ih _ (hleft ▸ left_lt h ⟨event, hstep⟩) (h.step hstep) rfl

/-- Without a cycle among the prerequisites some task can go on. -/
theorem moves_of_waiting (hacyclic : ∀ a, ¬ Relation.TransGen (Waits order prereqs) a a)
    {s : State N} (hstarted : ∀ name, s.status name ≠ .started) (hfinal : ¬ Final order s) :
    ∃ s', Moves order prereqs s s' := by
  unfold Final at hfinal
  push Not at hfinal
  obtain ⟨name, hname, hopen⟩ := hfinal
  obtain ⟨m, ⟨hm, hmopen⟩, hsource⟩ := Kahn.exists_source
    (P := fun a => a ∈ order ∧ ¬ (s.status a).settled = true) hacyclic ⟨hname, hopen⟩
    fun _ h => h.1
  have hwaiting : s.status m = .waiting := by
    have := hstarted m
    cases hstatus : s.status m <;> simp_all [Status.settled]
  have hdue : Due order prereqs s m := by
    refine ⟨hm, hwaiting, fun p hp hin => ?_⟩
    by_contra hpopen
    exact hsource p ⟨hin, hpopen⟩ ⟨hin, hm, hp⟩
  by_cases hcascades : Cascades prereqs s m
  · exact ⟨_, _, .skip hdue hcascades⟩
  · exact ⟨_, _, .start hdue hcascades⟩

omit [DecidableEq N] in
/-- At the end a component is skipped exactly where a failed one leads to it. -/
theorem Inv.skipped_iff {s : State N} (h : Inv order prereqs s) (hfinal : Final order s)
    {name : N} : s.status name = .skipped ↔ ∃ p, s.status p = .failed ∧
      Relation.TransGen (Waits order prereqs) p name := by
  refine ⟨h.skipped name, ?_⟩
  rintro ⟨p, hp, hway⟩
  obtain ⟨q, -, hedge⟩ := Relation.TransGen.tail'_iff.mp hway
  have hsettled := hfinal name hedge.2.1
  by_contra hne
  have hbegun : (s.status name).begun = true := by
    cases hstatus : s.status name <;> simp_all [Status.settled, Status.begun]
  rw [h.finished_up hbegun hway] at hp
  cases hp

variable (order prereqs) in
/-- An end of some interleaving in which exactly the activations that raise have failed. -/
structure Ended (raises : N → Prop) where
  state : State N
  run : Run order prereqs state
  final : Final order state
  failed : ∀ name, state.status name = .failed → raises name
  finished : ∀ name, state.status name = .finished → ¬ raises name

/-- What fails under one interleaving fails under another. -/
theorem Ended.failed_of {raises : N → Prop} (a b : Ended order prereqs raises) (name : N) :
    a.state.status name = .failed → b.state.status name = .failed := by
  intro h
  have hinv := run_inv a.run
  have hname : name ∈ order := by
    by_contra hout
    rw [hinv.out name hout] at h
    cases h
  have hsettled := b.final name hname
  cases hb : b.state.status name with
  | failed => rfl
  | finished => exact absurd (a.failed name h) (b.finished name hb)
  | skipped =>
    -- what it was skipped for had finished before it was started here
    obtain ⟨q, hq, hway⟩ := (run_inv b.run).skipped name hb
    exact absurd (b.failed q hq) (a.finished q (hinv.finished_up (by rw [h]; rfl) hway))
  | waiting => simp [hb, Status.settled] at hsettled
  | started => simp [hb, Status.settled] at hsettled

/-- **The interleaving does not matter.** Whatever the order the tasks go on in, and whichever
activations raise, every component ends as it does in any other order. -/
theorem ended_unique {raises : N → Prop} (a b : Ended order prereqs raises) :
    a.state.status = b.state.status := by
  funext name
  have hfailed : ∀ p, a.state.status p = .failed ↔ b.state.status p = .failed :=
    fun p => ⟨a.failed_of b p, b.failed_of a p⟩
  by_cases hname : name ∈ order
  · have hskipped : a.state.status name = .skipped ↔ b.state.status name = .skipped := by
      rw [(run_inv a.run).skipped_iff a.final, (run_inv b.run).skipped_iff b.final]
      simp only [hfailed]
    have ha := a.final name hname
    have hb := b.final name hname
    have hf := hfailed name
    cases hsa : a.state.status name <;> cases hsb : b.state.status name <;>
      simp_all [Status.settled]
  · rw [(run_inv a.run).out name hname, (run_inv b.run).out name hname]

/-- **Prerequisites that lead to the same components as a graph without cycles are enough to
follow it.** -/
theorem follows_of_same {E : N → N → Prop} (hacyclic : ∀ a, ¬ Relation.TransGen E a a)
    (hsame : ∀ p name,
      Relation.TransGen (Waits order prereqs) p name ↔ Relation.TransGen E p name) :
    Follows order prereqs E := by
  have hno : ∀ a, ¬ Relation.TransGen (Waits order prereqs) a a := fun a h =>
    hacyclic a ((hsame a a).mp h)
  refine ⟨fun s hrun name s' hstep p hedge => ?_, fun s hrun hfinal name _ => ?_,
    fun s hrun => run_acc (run_inv hrun), fun s _ => moves_of_waiting hno, fun s hrun => ?_⟩
  · cases hstep with
    | start hdue hcascades =>
      exact (run_inv hrun).finished_of_due hdue hcascades ((hsame p name).mpr (.single hedge))
  · rw [(run_inv hrun).skipped_iff hfinal]
    simp only [hsame]
  · rw [teardownLifo, List.pairwise_reverse]
    exact (run_inv hrun).pairwise.imp fun hnot hedge => hnot ((hsame _ _).mpr (.single hedge))

/-! ## Runs that tell the prerequisites from a graph -/

theorem Run.move {s s' : State N} {event : Event N} (h : Run order prereqs s)
    (hstep : Step order prereqs s event s') : Run order prereqs s' := h.tail ⟨event, hstep⟩

/-- Nothing has failed or is under way. -/
def Clean (s : State N) : Prop := ∀ name, s.status name = .waiting ∨ s.status name = .finished

/-- Every activation that is under way finishes, every task that can go on does, and no further
one fails. -/
theorem exists_final {E : N → N → Prop} (h : Follows order prereqs E) {s : State N}
    (hrun : Run order prereqs s) : ∃ s', Run order prereqs s' ∧ Final order s' ∧
      ∀ name, s'.status name = .failed ↔ s.status name = .failed := by
  induction hleft : left order s using Nat.strong_induction_on generalizing s with
  | _ n ih =>
    have hgo : ∀ {event s'}, Step order prereqs s event s' →
        (∀ name, s'.status name = .failed ↔ s.status name = .failed) →
        ∃ s'', Run order prereqs s'' ∧ Final order s'' ∧
          ∀ name, s''.status name = .failed ↔ s.status name = .failed := by
      intro event s' hstep hsame
      obtain ⟨s'', hrun', hfinal, hfailed⟩ :=
        ih _ (hleft ▸ left_lt (run_inv hrun) ⟨event, hstep⟩) (hrun.move hstep) rfl
      exact ⟨s'', hrun', hfinal, fun name => (hfailed name).trans (hsame name)⟩
    have hset : ∀ {name status}, s.status name ≠ .failed → status ≠ Status.failed →
        ∀ m, (s.set name status).status m = .failed ↔ s.status m = .failed := by
      intro name status hwas hstatus m
      by_cases heq : m = name
      · subst heq
        simp [hwas, hstatus]
      · rw [State.set_status_of_ne s heq]
    by_cases hstarted : ∃ name, s.status name = .started
    · obtain ⟨name, hname⟩ := hstarted
      exact hgo (.finish hname) (hset (by rw [hname]; simp) (by simp))
    by_cases hfinal : Final order s
    · exact ⟨s, hrun, hfinal, fun _ => Iff.rfl⟩
    obtain ⟨s', event, hstep⟩ :=
      h.settles s hrun (fun name hname => hstarted ⟨name, hname⟩) hfinal
    refine hgo hstep ?_
    cases hstep with
    | skip hdue _ => exact hset (by rw [hdue.2.1]; simp) (by simp)
    | start hdue _ => exact hset (by rw [hdue.2.1]; simp) (by simp)
    | finish hname => exact absurd ⟨_, hname⟩ hstarted
    | fail hname => exact absurd ⟨_, hname⟩ hstarted

/-- **An activation that ends leaves no cycle among the prerequisites.** -/
theorem Follows.acyclic {E : N → N → Prop} (h : Follows order prereqs E) (a : N) :
    ¬ Relation.TransGen (Waits order prereqs) a a := by
  intro hcycle
  obtain ⟨q, -, hedge⟩ := Relation.TransGen.tail'_iff.mp hcycle
  obtain ⟨s, hrun, hfinal, hfailed⟩ := exists_final h (Relation.ReflTransGen.refl)
  have hinv := run_inv hrun
  have hnone : ∀ name, s.status name ≠ .failed := fun name hname => nomatch (hfailed name).mp hname
  have hsettled := hfinal a hedge.2.1
  have hbegun : (s.status a).begun = true := by
    cases hstatus : s.status a with
    | skipped =>
      obtain ⟨p, hp, -⟩ := hinv.skipped a hstatus
      exact absurd hp (hnone p)
    | finished => rfl
    | failed => rfl
    | waiting | started => rw [hstatus] at hsettled; cases hsettled
  exact hinv.acyclic a hbegun hcycle

/-- A clean state in which everything that leads to a component, and the component, is
finished, and nothing else has changed. -/
def Climbed (order : List N) (prereqs : N → List N) (s : State N) (a : N) : Prop :=
  ∃ s', Run order prereqs s' ∧ Clean s' ∧ s'.status a = .finished ∧
    ∀ m, ¬ Relation.ReflTransGen (Waits order prereqs) m a → s'.status m = s.status m

omit [DecidableEq N] in
/-- A finished component stays finished while others are climbed. -/
theorem Inv.climbed {s s' : State N} {a m : N}
    (hs : s.status m = .finished) (hrun : Inv order prereqs s')
    (hfin : s'.status a = .finished)
    (hsame : ∀ m, ¬ Relation.ReflTransGen (Waits order prereqs) m a → s'.status m = s.status m) :
    s'.status m = .finished := by
  by_cases hway : Relation.ReflTransGen (Waits order prereqs) m a
  · rcases Relation.reflTransGen_iff_eq_or_transGen.mp hway with rfl | hway
    · exact hfin
    · exact hrun.finished_up (by rw [hfin]; rfl) hway
  · rw [hsame m hway, hs]

/-- The prerequisites of a component are finished one after the other. -/
theorem exists_due {a : N} (ha : a ∈ order)
    (hclimb : ∀ p, Waits order prereqs p a → ∀ s, Run order prereqs s → Clean s →
      Climbed order prereqs s p)
    (hacyclic : ¬ Relation.TransGen (Waits order prereqs) a a) {s : State N}
    (hrun : Run order prereqs s) (hclean : Clean s) (hwaiting : s.status a = .waiting) :
    ∃ s', Run order prereqs s' ∧ Clean s' ∧ Due order prereqs s' a ∧ ¬ Cascades prereqs s' a ∧
      ∀ m, ¬ Relation.TransGen (Waits order prereqs) m a → s'.status m = s.status m := by
  have hlist : ∀ ps : List N, (∀ p ∈ ps, p ∈ prereqs a) → ∃ s', Run order prereqs s' ∧ Clean s' ∧
      (∀ p ∈ ps, p ∈ order → s'.status p = .finished) ∧
        ∀ m, ¬ Relation.TransGen (Waits order prereqs) m a → s'.status m = s.status m := by
    -- by induction on the prerequisites still to be finished: one that is done stays done
    intro ps
    induction ps with
    | nil =>
      intro _
      exact ⟨s, hrun, hclean, fun p hp => absurd hp List.not_mem_nil, fun _ _ => rfl⟩
    | cons p ps ih =>
      intro hps
      obtain ⟨s₁, hrun₁, hclean₁, hdone₁, hsame₁⟩ :=
        ih fun q hq => hps q (List.mem_cons_of_mem _ hq)
      by_cases hin : p ∈ order
      · have hedge : Waits order prereqs p a := ⟨hin, ha, hps p List.mem_cons_self⟩
        obtain ⟨s₂, hrun₂, hclean₂, hfin, hsame₂⟩ := hclimb p hedge s₁ hrun₁ hclean₁
        refine ⟨s₂, hrun₂, hclean₂, fun q hq hqin => ?_, fun m hm => ?_⟩
        · rcases List.mem_cons.mp hq with rfl | hq
          · exact hfin
          · exact Inv.climbed (hdone₁ q hq hqin) (run_inv hrun₂) hfin hsame₂
        · rw [hsame₂ m fun hway => hm (.tail' hway hedge), hsame₁ m hm]
      · refine ⟨s₁, hrun₁, hclean₁, fun q hq hqin => ?_, hsame₁⟩
        rcases List.mem_cons.mp hq with rfl | hq
        · exact absurd hqin hin
        · exact hdone₁ q hq hqin
  obtain ⟨s', hrun', hclean', hdone, hsame⟩ := hlist (prereqs a) fun _ hp => hp
  refine ⟨s', hrun', hclean', ⟨ha, (hsame a hacyclic).trans hwaiting, fun p hp hin => ?_⟩, ?_,
    hsame⟩
  · rw [hdone p hp hin]
    rfl
  · rintro ⟨p, hp, hlost⟩
    rcases hclean' p with h | h <;> rw [h] at hlost <;> cases hlost

/-- Without a cycle every component can be finished with nothing failed, and nothing touched
that does not lead to it. -/
theorem climb (hacyclic : ∀ a, ¬ Relation.TransGen (Waits order prereqs) a a) {a : N}
    (ha : a ∈ order) {s : State N} (hrun : Run order prereqs s) (hclean : Clean s) :
    Climbed order prereqs s a := by
  by_contra hnot
  -- of the components that cannot be finished from somewhere, one waits for no other
  obtain ⟨b, ⟨hb, s, hrun, hclean, hnot⟩, hsource⟩ := Kahn.exists_source
    (P := fun b => b ∈ order ∧ ∃ s, Run order prereqs s ∧ Clean s ∧ ¬ Climbed order prereqs s b)
    hacyclic ⟨ha, s, hrun, hclean, hnot⟩ fun _ h => h.1
  have hclimb : ∀ p, Waits order prereqs p b → ∀ s, Run order prereqs s → Clean s →
      Climbed order prereqs s p := by
    intro p hedge s hrun hclean
    by_contra hp
    exact hsource p ⟨hedge.1, s, hrun, hclean, hp⟩ hedge
  refine hnot ?_
  rcases hclean b with hwaiting | hfinished
  · obtain ⟨s₁, hrun₁, hclean₁, hdue, hno, hsame⟩ :=
      exists_due hb hclimb (hacyclic b) hrun hclean hwaiting
    have hstarted := hrun₁.move (.start hdue hno)
    refine ⟨_, hstarted.move (.finish (State.set_status_self ..)), ?_, State.set_status_self .., ?_⟩
    · intro m
      by_cases heq : m = b
      · subst heq
        exact .inr (State.set_status_self ..)
      · have hm := hclean₁ m
        rw [← State.set_status_of_ne s₁ heq .started,
          ← State.set_status_of_ne (s₁.set b .started) heq .finished] at hm
        exact hm
    · intro m hm
      have heq : m ≠ b := fun heq => hm (heq ▸ .refl)
      exact (State.set_status_of_ne _ heq _).trans ((State.set_status_of_ne _ heq _).trans
        (hsame m fun hway => hm hway.to_reflTransGen))
  · exact ⟨s, hrun, hclean, hfinished, fun _ _ => rfl⟩

/-- **An activation follows a graph only where its prerequisites lead to the same components.** -/
theorem Follows.same {E : N → N → Prop} (h : Follows order prereqs E)
    (hin : ∀ p name, E p name → name ∈ order) (p name : N) :
    Relation.TransGen (Waits order prereqs) p name ↔ Relation.TransGen E p name := by
  have hacyclic := h.acyclic
  have hdue : ∀ a ∈ order, ∃ s, Run order prereqs s ∧ Clean s ∧ Due order prereqs s a ∧
      ¬ Cascades prereqs s a ∧
        ∀ m, ¬ Relation.TransGen (Waits order prereqs) m a → s.status m = .waiting :=
    fun a ha => exists_due ha
      (fun p hedge s hrun hclean => climb hacyclic hedge.1 hrun hclean) (hacyclic a) .refl
      (fun _ => .inl rfl) rfl
  constructor
  · refine fun hway => hway.lift' id fun p name hedge => ?_
    -- the prerequisite fails: the component is skipped, so an edge of the graph leads to it
    obtain ⟨s, hrun, hclean, hdue, hno, -⟩ := hdue p hedge.1
    have hfail := (hrun.move (.start hdue hno)).move (.fail (State.set_status_self ..))
    obtain ⟨s', hrun', hfinal, hfailed⟩ := exists_final h hfail
    have hp : s'.status p = .failed := (hfailed p).mpr (State.set_status_self ..)
    have hskipped := ((run_inv hrun').skipped_iff hfinal).mpr ⟨p, hp, .single hedge⟩
    obtain ⟨q, hq, hway⟩ := (h.skips s' hrun' hfinal name hedge.2.1).mp hskipped
    have hqp : q = p := by
      by_contra hne
      have hqfailed := (hfailed q).mp hq
      rw [State.set_status_of_ne _ hne, State.set_status_of_ne _ hne] at hqfailed
      rcases hclean q with hq | hq <;> rw [hq] at hqfailed <;> cases hqfailed
    exact hqp ▸ hway
  · refine fun hway => hway.lift' id fun p name hedge => ?_
    -- the component is started with nothing finished but what it waits for
    by_contra hnot
    obtain ⟨s, hrun, -, hdue, hno, hrest⟩ := hdue name (hin p name hedge)
    have hfinished := h.starts s hrun name _ (.start hdue hno) p hedge
    rw [hrest p hnot] at hfinished
    cases hfinished

end Revl.Link
