import Revl.Fork.Rewind

/-!
# What an unwind reports of guarded inverses (`replay.py`, `runtime.py`)

A timeline recorded from an emitted frame holds disposers that carry the frame's guard. A walk
decides by whether a disposer raised what it reports of the step; the guard catches what an author's
inverse raises, and answers for an inverse that it strands under a halt.

- `Disposer`, `Surroundings`: what a step's disposer is, and what the run does not decide.
- `guarded`, `disposed`: a call through `Frame._guard`, and what became of the inverse.
- `stepBackReport_lists`, `scopedReport_lists`: the lists of the two reports.
- `report_exact`: **when the reports are honest**.
-/

namespace Revl.Fork

/-! ## Calling a disposer -/

/-- What a recorded disposer is. The guard passes a withdrawal on by identity, and the offset of a
provide method never went through it. -/
inductive Disposer where
  | bare
  | function
  | transactional
  | compensation
  deriving DecidableEq, Repr

/-- How a call ends: `rejects` when awaiting what it returned raises. -/
inductive Outcome where
  | returns
  | raises
  | rejects
  deriving DecidableEq, Repr

/-- What became of an inverse whose disposer was called. -/
inductive Fate where
  | returned
  | raised
  | stranded
  | enqueued
  | held
  | discharged
  | spent
  deriving DecidableEq, Repr

/-- What the surroundings decide of a walk, by the index of the step. -/
structure Surroundings where
  disposer : Nat → Disposer
  /-- How the body of the inverse ends. -/
  outcome : Nat → Outcome
  /-- Whether a halt is in force when the guard polls. -/
  halted : Nat → Bool
  /-- Whether one is when a witnessed entry polls for itself. -/
  haltedInside : Nat → Bool
  halted_inside : ∀ i, halted i = true → haltedInside i = true
  /-- A halt stays in force on the way down. -/
  halted_below : ∀ i j, j < i → haltedInside i = true → halted j = true
  /-- Whether the session holds the frame's entries, and whether the frame is committed. -/
  holds : Bool
  committed : Bool
  /-- Whether a witnessed entry dropped its inverse before. -/
  spent : Nat → Bool

namespace Surroundings

variable (env : Surroundings)

/-- The body of an inverse runs. -/
def host (i : Nat) : Fate × Outcome :=
  match env.outcome i with
  | .returns => (.returned, .returns)
  | .raises => (.raised, .raises)
  | .rejects => (.raised, .rejects)

/-- `_Transactional.__call__` with `_replay` -/
def callTransactional (i : Nat) : Fate × Outcome :=
  if env.holds then (.held, .returns)
  else if env.committed then (.discharged, .returns)
  else if env.haltedInside i then (.stranded, .returns)
  else if env.spent i then (.spent, .returns)
  else env.host i

/-- `_Compensation.__call__`: the offset itself is left to Phase 2. -/
def callCompensation (_ : Nat) : Fate × Outcome :=
  if env.holds then (.held, .returns)
  else if env.committed then (.discharged, .returns)
  else (.enqueued, .returns)

/-- `Frame._guard`: nothing runs under a halt, and what the call raises stays here. -/
def guarded (i : Nat) (called : Fate × Outcome) : Fate × Outcome :=
  if env.halted i then (.stranded, .returns)
  else if called.2 = .raises then (called.1, .returns)
  else called

/-- Calling the disposer of a step. -/
def disposed (i : Nat) : Fate × Outcome :=
  match env.disposer i with
  | .bare => env.host i
  | .function => env.guarded i (env.host i)
  | .transactional => env.guarded i (env.callTransactional i)
  | .compensation => env.guarded i (env.callCompensation i)

/-- Whether the walk sees the disposer of a step raise. -/
def raises (s : LiveStep) : Bool := (env.disposed s.index).2 ≠ .returns

/-- What the surroundings have to grant of a step: its disposer is not guarded, or no halt is in
force when it is reached, its inverse does not raise in the call, and it is no offset that is only
enqueued. -/
def Sound (i : Nat) : Prop :=
  match env.disposer i with
  | .bare => True
  | .function => env.halted i = false ∧ env.outcome i ≠ .raises
  | .transactional =>
    env.holds = false ∧ env.committed = false ∧ env.haltedInside i = false ∧ env.spent i = false ∧
      env.outcome i ≠ .raises
  | .compensation => False

/-- A call that the walk does not see raise was a normal return of the inverse, and one whose
inverse raised or was stranded it sees raise: exactly under those circumstances. -/
theorem sound_iff (i : Nat) : env.Sound i ↔
    ((env.disposed i).2 = .returns → (env.disposed i).1 = .returned) ∧
      ((env.disposed i).1 = .raised ∨ (env.disposed i).1 = .stranded →
        (env.disposed i).2 ≠ .returns) := by
  have hinside := env.halted_inside i
  unfold Sound disposed guarded callTransactional callCompensation host
  cases hdisposer : env.disposer i with
  | bare => cases env.outcome i <;> simp
  | function => cases env.outcome i <;> cases env.halted i <;> simp
  | transactional =>
    cases env.outcome i <;> cases hhalted : env.halted i <;> cases hin : env.haltedInside i <;>
      cases env.holds <;> cases env.committed <;> cases env.spent i <;>
      simp_all
  | compensation => cases env.halted i <;> cases env.holds <;> cases env.committed <;> simp

end Surroundings

/-! ## What the reports list -/

namespace LiveStep

/-- A step whose disposer was called, as a report shows it. -/
def ran (s : LiveStep) : LiveStep := { s with undone := true }

end LiveStep

section
variable (raises : LiveStep → Bool)

theorem stepBackVisit_report (w : Walk StepBackReport) (s : LiveStep) :
    let r := (stepBackVisit raises w s).report
    r.inversesRan = w.report.inversesRan ++
        (if s.attempted && (!raises s && s.kind ≠ .compensation) then [s.ran] else []) ∧
      r.compensationsRan = w.report.compensationsRan ++
        (if s.attempted && (!raises s && s.kind = .compensation) then [s.ran] else []) ∧
      r.failed = w.report.failed ++ if s.attempted && raises s then [s.ran] else [] := by
  unfold stepBackVisit LiveStep.attempted LiveStep.revertible
  cases hkind : s.kind <;> cases hundone : s.undone <;> cases hraises : raises s <;>
    cases hcomp : s.compensation.isSome <;>
    simp [Walk.call, Walk.cross, Walk.note, LiveStep.ran, hkind]

theorem scopedVisit_report (w : Walk ScopedReport) (s : LiveStep) :
    let r := (scopedVisit raises w s).report
    r.inversesRan = w.report.inversesRan ++
        (if s.scopedAttempted && (!raises s && s.kind ≠ .provision) then [s.scopedEntry] else []) ∧
      r.provisionsWithdrawn = w.report.provisionsWithdrawn ++
        (if s.scopedAttempted && (!raises s && s.kind = .provision) then [s.scopedEntry] else []) ∧
      r.failed = w.report.failed ++
        if s.scopedAttempted && raises s then [s.scopedEntry] else [] := by
  unfold scopedVisit LiveStep.scopedAttempted LiveStep.confined LiveStep.revertible
  cases hkind : s.kind <;> cases hundone : s.undone <;> cases hraises : raises s <;>
    cases hscope : scopeHostConfined s.scope <;> cases hcomp : s.compensation.isSome <;>
    simp [Walk.call, Walk.cross, Walk.note]

/-- A list of a report, empty at first, that gets an entry for the called steps that `q` picks. -/
theorem foldl_lists {W β : Type} {visit : W → LiveStep → W} (get : W → List β)
    {attempted q : LiveStep → Bool} {g : LiveStep → β}
    (hvisit : ∀ w s, get (visit w s) = get w ++ if attempted s && q s then [g s] else [])
    (l : List LiveStep) (w : W) (hw : get w = []) :
    get (l.foldl visit w) = ((l.filter attempted).filter q).map g := by
  rw [foldl_collect get (fun s => attempted s && q s) g hvisit, hw, List.nil_append,
    List.filter_filter]
  simp only [Bool.and_comm]

/-- `step_back` lists a disposer it called where the call ended. -/
theorem stepBackReport_lists (tl : LiveTimeline) (k : Int) :
    let w := stepBackWalk raises tl k
    w.report.inversesRan =
        (w.called.filter fun s => !raises s && s.kind ≠ .compensation).map (·.ran) ∧
      w.report.compensationsRan =
        (w.called.filter fun s => !raises s && s.kind = .compensation).map (·.ran) ∧
      w.report.failed = (w.called.filter raises).map (·.ran) := by
  intro w
  have hcalled : w.called = (tl.tail k).filter (·.attempted) := stepBackWalk_called raises tl k
  rw [hcalled]
  refine ⟨?_, ?_, ?_⟩
  · exact foldl_lists (·.report.inversesRan) (fun w s => (stepBackVisit_report raises w s).1)
      (tl.tail k) ⟨tl, [], ⟨[], [], [], [], []⟩⟩ rfl
  · exact foldl_lists (·.report.compensationsRan) (fun w s => (stepBackVisit_report raises w s).2.1)
      (tl.tail k) ⟨tl, [], ⟨[], [], [], [], []⟩⟩ rfl
  · exact foldl_lists (·.report.failed) (fun w s => (stepBackVisit_report raises w s).2.2)
      (tl.tail k) ⟨tl, [], ⟨[], [], [], [], []⟩⟩ rfl

/-- And so does the scoped rewind. -/
theorem scopedReport_lists (tl : LiveTimeline) (k : Int) :
    let w := scopedWalk raises tl k
    w.report.inversesRan =
        (w.called.filter fun s => !raises s && s.kind ≠ .provision).map (·.scopedEntry) ∧
      w.report.provisionsWithdrawn =
        (w.called.filter fun s => !raises s && s.kind = .provision).map (·.scopedEntry) ∧
      w.report.failed = (w.called.filter raises).map (·.scopedEntry) := by
  intro w
  have hcalled : w.called = (tl.tail k).filter (·.scopedAttempted) := scopedWalk_called raises tl k
  rw [hcalled]
  refine ⟨?_, ?_, ?_⟩
  · exact foldl_lists (·.report.inversesRan) (fun w s => (scopedVisit_report raises w s).1)
      (tl.tail k) ⟨tl, [], ⟨[], [], [], [], [], [], []⟩⟩ rfl
  · exact foldl_lists (·.report.provisionsWithdrawn)
      (fun w s => (scopedVisit_report raises w s).2.1)
      (tl.tail k) ⟨tl, [], ⟨[], [], [], [], [], [], []⟩⟩ rfl
  · exact foldl_lists (·.report.failed) (fun w s => (scopedVisit_report raises w s).2.2)
      (tl.tail k) ⟨tl, [], ⟨[], [], [], [], [], [], []⟩⟩ rfl

end

/-! ## Honest reports -/

/-- What a report has to say of the disposers that a walk called: it lists as run only inverses that
ran and returned, it lists as failed all that raised or were stranded, and the disposers were those
of the `due` steps, each once and newest first. -/
structure Honest (env : Surroundings) (called due : List LiveStep) (listed failed : List Nat) :
    Prop where
  returned : ∀ i ∈ listed, i ∈ called.map (·.index) ∧ (env.disposed i).1 = .returned
  failures : ∀ s ∈ called, (env.disposed s.index).1 = .raised ∨
    (env.disposed s.index).1 = .stranded → s.index ∈ failed
  attempts : called.map (·.index) = due.map (·.index)
  newest_first : called.Pairwise (·.index > ·.index)

/-- The report of a step back that was not refused. -/
def StepBackHonest (env : Surroundings) (tl : LiveTimeline) (k : Int) : Prop :=
  let w := stepBackWalk env.raises tl k
  Honest env w.called ((tl.tail k).filter fun s => s.revertible && !s.undone)
    ((w.report.inversesRan ++ w.report.compensationsRan).map (·.index))
    (w.report.failed.map (·.index))

/-- The report of a scoped rewind. -/
def ScopedHonest (env : Surroundings) (tl : LiveTimeline) (k : Int) : Prop :=
  let w := scopedWalk env.raises tl k
  Honest env w.called ((tl.tail k).filter fun s => s.confined && !s.undone)
    ((w.report.inversesRan ++ w.report.provisionsWithdrawn).map (·.index))
    (w.report.failed.map (·.index))

/-- A report that lists what was called by whether it raised is honest where the surroundings grant
every step of it. -/
theorem honest_iff_sound (env : Surroundings) {called due : List LiveStep}
    {listed failed : List Nat}
    (hlisted : ∀ i, i ∈ listed ↔ ∃ s ∈ called, s.index = i ∧ env.raises s = false)
    (hfailed : ∀ i, i ∈ failed ↔ ∃ s ∈ called, s.index = i ∧ env.raises s = true)
    (hdue : called = due) (hpair : called.Pairwise (·.index > ·.index)) :
    Honest env called due listed failed ↔ ∀ s ∈ called, env.Sound s.index := by
  have hraises : ∀ s : LiveStep, env.raises s = false ↔ (env.disposed s.index).2 = .returns := by
    intro s
    simp [Surroundings.raises]
  constructor
  · intro h s hs
    refine (env.sound_iff s.index).mpr ⟨fun hquiet => ?_, fun hbad hquiet => ?_⟩
    · exact (h.returned s.index ((hlisted _).mpr ⟨s, hs, rfl, (hraises s).mpr hquiet⟩)).2
    · obtain ⟨s', hs', hindex, hraised⟩ := (hfailed _).mp (h.failures s hs hbad)
      rw [Surroundings.raises, hindex, hquiet] at hraised
      simp at hraised
  · intro h
    refine ⟨fun i hi => ?_, fun s hs hbad => ?_, by rw [hdue], hpair⟩
    · obtain ⟨s, hs, rfl, hquiet⟩ := (hlisted i).mp hi
      exact ⟨List.mem_map_of_mem hs,
        ((env.sound_iff s.index).mp (h s hs)).1 ((hraises s).mp hquiet)⟩
    · have hloud := ((env.sound_iff s.index).mp (h s hs)).2 hbad
      refine (hfailed _).mpr ⟨s, hs, rfl, ?_⟩
      rw [Surroundings.raises, decide_eq_true_eq]
      exact hloud

/-- The two lists of a report that stand for one call that returned. -/
theorem mem_lists {called : List LiveStep} {raises : LiveStep → Bool} (p : LiveStep → Bool)
    (i : Nat) :
    i ∈ (called.filter fun s => !raises s && !p s).map (·.index) ++
        (called.filter fun s => !raises s && p s).map (·.index) ↔
      ∃ s ∈ called, s.index = i ∧ raises s = false := by
  simp only [List.mem_append, List.mem_map, List.mem_filter, Bool.and_eq_true, Bool.not_eq_true']
  constructor
  · rintro (⟨s, ⟨hs, hquiet, -⟩, hindex⟩ | ⟨s, ⟨hs, hquiet, -⟩, hindex⟩)
    · exact ⟨s, hs, hindex, hquiet⟩
    · exact ⟨s, hs, hindex, hquiet⟩
  · rintro ⟨s, hs, hindex, hquiet⟩
    cases hp : p s with
    | false => exact .inl ⟨s, ⟨hs, hquiet, hp⟩, hindex⟩
    | true => exact .inr ⟨s, ⟨hs, hquiet, hp⟩, hindex⟩

/-- A report of the steps `p` of the tail, listed by whether they raised and by `q`. -/
theorem report_honest_iff (env : Surroundings) (tl : LiveTimeline) (k : Int) {β : Type}
    {called : List LiveStep} {p : LiveStep → Bool} (q : LiveStep → Bool) {g : LiveStep → β}
    {index : β → Nat} {first second failed : List β} (hg : ∀ s, index (g s) = s.index)
    (hcalled : called = (tl.tail k).filter fun s => p s && !s.undone)
    (hfirst : first = (called.filter fun s => !env.raises s && !q s).map g)
    (hsecond : second = (called.filter fun s => !env.raises s && q s).map g)
    (hfailed : failed = (called.filter env.raises).map g) :
    Honest env called ((tl.tail k).filter fun s => p s && !s.undone)
        ((first ++ second).map index) (failed.map index) ↔
      ∀ s ∈ tl.steps, k < s.index → p s = true → s.undone = false → env.Sound s.index := by
  have hcomp : index ∘ g = LiveStep.index := funext hg
  refine (honest_iff_sound env (fun i => ?_) (fun i => ?_) hcalled ?_).trans ?_
  · rw [List.map_append, hfirst, hsecond, List.map_map, List.map_map, hcomp]
    exact mem_lists q i
  · rw [hfailed, List.map_map, hcomp, List.mem_map]
    simp only [List.mem_filter, and_assoc]
    exact exists_congr fun s => and_congr_right fun _ => and_comm
  · rw [hcalled]
    exact (tl.tail_pairwise k).filter _
  · rw [hcalled]
    simp only [List.mem_filter, LiveTimeline.mem_tail, Bool.and_eq_true, Bool.not_eq_true',
      and_imp]

/-- A step back over the steps above `k`, not refused, and a scoped rewind of them report honestly
exactly when the surroundings grant every step that their mode may run and that was not undone
before. -/
theorem report_exact (env : Surroundings) (tl : LiveTimeline) (k : Int) :
    (StepBackHonest env tl k ↔ ∀ s ∈ tl.steps, k < s.index → s.revertible = true →
      s.undone = false → env.Sound s.index) ∧
    (ScopedHonest env tl k ↔ ∀ s ∈ tl.steps, k < s.index → s.confined = true →
      s.undone = false → env.Sound s.index) := by
  constructor
  · obtain ⟨hran, hoffset, hfailed⟩ := stepBackReport_lists env.raises tl k
    refine report_honest_iff env tl k (g := (·.ran)) (fun s => s.kind = .compensation)
      (fun _ => rfl)
      (stepBackWalk_called env.raises tl k) ?_ hoffset hfailed
    simpa only [ne_eq, decide_not] using hran
  · obtain ⟨hran, hwithdrawn, hfailed⟩ := scopedReport_lists env.raises tl k
    refine report_honest_iff env tl k (g := (·.scopedEntry)) (fun s => s.kind = .provision)
      (fun _ => rfl)
      (scopedWalk_called env.raises tl k) ?_ hwithdrawn hfailed
    simpa only [ne_eq, decide_not] using hran

/-- Surroundings in which an author's inverses raise, and no halt is in force. -/
def allRaise : Surroundings where
  disposer _ := .function
  outcome _ := .raises
  halted _ := false
  haltedInside _ := false
  halted_inside _ h := nomatch h
  halted_below _ _ _ h := nomatch h
  holds := false
  committed := false
  spent _ := false

/-- An inverse that raised is listed as run. -/
theorem raised_listed_as_run :
    ¬ StepBackHonest allRaise (LiveTimeline.empty.add .effect "ws/effect" none
      ⟨none, none, none, none, none, none, none⟩ (some ⟨false, false, ["fs"]⟩) none) (-1) := by
  intro h
  exact absurd (h.returned 0 (by decide)).2 (by decide)

end Revl.Fork
