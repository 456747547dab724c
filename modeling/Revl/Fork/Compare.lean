import Revl.Fork.Partition

/-!
# Comparing a branch with its parent (`branch.py`)

A fork retires a session at a step of one of its timelines and writes, on both sides, the lineage
that a reader later relates the two logs by. The reader sees the logs alone: it takes the point the
fork recorded for a position in the parent's log, and joins model decisions to steps by component
and step index.

- `Divergence.parentLog`, `Divergence.branchLog`: the logs that a fork leaves.
- `lineage`, `relate`, `side`, `compare`: the reader.
- `Recorded`: what holds of a session's log after any run.
- `compare_exact`: **when the comparison starts at the fork point and joins what belongs together**.
-/

namespace Revl.Fork.Compare

/-! ## Logs -/

/-- An `effect` record as `_entry` reports it. An explicit boundary record has no step index. -/
structure StepEntry where
  seq : Nat
  component : String
  stepIndex : Option Nat
  kind : Kind
  label : String
  scope : Option Scope
  deriving DecidableEq, Repr

/-- A `model-decision` record. Its crossing is the seq of the step it was written for, which the
record does not carry and no reader reads. -/
structure Decision where
  component : String
  stepIndex : Nat
  outcome : String
  llm : List (String × String)
  crossing : Nat
  deriving DecidableEq, Repr

/-- A line of a log. -/
inductive Line where
  | step (e : StepEntry)
  | decision (d : Decision)
  | forkBegin (parent : String) (point : Int)
  | forkBranch (branch parent : String) (point : Int)
  | forkFrozen (parent : String) (point : Int)
  | forkComplete (branch : String)
  /-- An approval, a deferral, a commit. -/
  | other
  deriving DecidableEq, Repr

/-- `_steps` -/
def steps (log : List Line) : List StepEntry :=
  log.filterMap fun
    | .step e => some e
    | _ => none

def decisionLines (log : List Line) : List Decision :=
  log.filterMap fun
    | .decision d => some d
    | _ => none

/-! ## Recording -/

/-- What a session recorded: for each of its timelines the seqs of the steps, the log, and the seq
it gives next. A reload starts a new timeline of the same component. -/
structure Session where
  components : Nat → String
  timelines : Nat → List Nat
  log : List Line
  nextSeq : Nat

inductive Event where
  | step (t : Nat) (kind : Kind) (label : String) (scope : Option Scope)
  | boundary (component : String) (kind : Kind) (label : String)
  /-- The seam of a model completion returned, for a step that is there and has no decision yet. -/
  | decide (t i : Nat) (outcome : String) (llm : List (String × String))
  | other (seqs : Nat)

namespace Session

def record (s : Session) : Event → Session
  | .step t kind label scope =>
    { s with
      timelines := Function.update s.timelines t (s.timelines t ++ [s.nextSeq])
      log := s.log ++
        [.step ⟨s.nextSeq, s.components t, some (s.timelines t).length, kind, label, scope⟩]
      nextSeq := s.nextSeq + 1 }
  | .boundary component kind label =>
    { s with
      log := s.log ++ [.step ⟨s.nextSeq, component, none, kind, label, none⟩]
      nextSeq := s.nextSeq + 1 }
  | .decide t i outcome llm =>
    match (s.timelines t)[i]? with
    | some seq =>
      if (decisionLines s.log).any (·.crossing = seq) then s
      else { s with log := s.log ++ [.decision ⟨s.components t, i, outcome, llm, seq⟩] }
    | none => s
  | .other seqs => { s with log := s.log ++ [.other], nextSeq := s.nextSeq + seqs }

def run (s : Session) (events : List Event) : Session := events.foldl record s

/-- A session whose log opens with some lines. -/
def start (components : Nat → String) (first : List Line) : Session :=
  ⟨components, fun _ => [], first, 0⟩

end Session

/-- A fork: who, what was recorded before it and during its rewind, the timeline and the step it
goes back to, and what the branch records. -/
structure Divergence where
  parent : String
  branch : String
  components : Nat → String
  /-- The fork that the parent is itself a branch of. -/
  origin : Option (String × Int)
  before : List Event
  during : List Event
  timeline : Nat
  point : Int
  branchComponents : Nat → String
  after : List Event

namespace Divergence

variable (f : Divergence)

/-- The parent when the fork is confirmed. -/
def confirmed : Session :=
  (Session.start f.components
    (f.origin.elim [] fun o => [.forkBranch f.parent o.1 o.2])).run f.before

/-- The parent once the tail is rewound: the bracket opens before the rewind. -/
def rewound : Session :=
  Session.run { f.confirmed with log := f.confirmed.log ++ [.forkBegin f.parent f.point] } f.during

def parentLog : List Line :=
  f.rewound.log ++ [.forkFrozen f.parent f.point, .forkComplete f.branch]

/-- `record_fork_branch` writes the first record of the branch. -/
def branchLog : List Line :=
  ((Session.start f.branchComponents [.forkBranch f.branch f.parent f.point]).run f.after).log

/-- The steps of the forked timeline that the fork rewound. -/
def rewoundSeqs : List Nat := (f.confirmed.timelines f.timeline).drop (f.point + 1).toNat

end Divergence

/-! ## Reading -/

inductive Role where
  | standalone | forkedParent | branch | forkedBranch
  deriving DecidableEq, Repr

structure Lineage where
  role : Role
  session : Option String
  parent : Option String
  divergedAt : Option Int
  deriving DecidableEq, Repr

/-- The first `fork-branch` record. -/
def forkBranch? (log : List Line) : Option (String × String × Int) :=
  log.findSome? fun
    | .forkBranch branch parent point => some (branch, parent, point)
    | _ => none

/-- The first `fork-frozen` record. -/
def forkFrozen? (log : List Line) : Option (String × Int) :=
  log.findSome? fun
    | .forkFrozen parent point => some (parent, point)
    | _ => none

def lineage (log : List Line) : Lineage where
  role :=
    match forkBranch? log, forkFrozen? log with
    | some _, some _ => .forkedBranch
    | some _, none => .branch
    | none, some _ => .forkedParent
    | none, none => .standalone
  session := (((forkBranch? log).map (·.1)).filter (· ≠ "")).or ((forkFrozen? log).map (·.1))
  parent := (forkBranch? log).map (·.2.1)
  divergedAt := (forkBranch? log).map (·.2.2)

inductive Relation where
  | parentBranch | siblings | unrelated
  deriving DecidableEq, Repr

/-- `_relate` -/
def relate (left right : Lineage) : Relation × Option Int :=
  if left.session ≠ none ∧ right.parent = left.session then (.parentBranch, right.divergedAt)
  else if right.session ≠ none ∧ left.parent = right.session then (.parentBranch, left.divergedAt)
  else if left.parent ≠ none ∧ left.parent = right.parent then
    if left.divergedAt = right.divergedAt then (.siblings, left.divergedAt) else (.siblings, none)
  else (.unrelated, none)

/-- `model_decisions`: the last record of a crossing's identity. -/
def modelDecisions (log : List Line) : Dict (String × Nat) Decision :=
  (decisionLines log).foldl (fun out d => out.set (d.component, d.stepIndex) d) Dict.empty

structure DecisionEntry where
  seq : Nat
  label : String
  decision : Decision
  deriving DecidableEq, Repr

/-- `_decisions` -/
def decisions (log : List Line) (tail : List StepEntry) : List DecisionEntry :=
  tail.filterMap fun e =>
    (e.stepIndex.bind fun i => (modelDecisions log).get? (e.component, i)).map
      fun d => ⟨e.seq, e.label, d⟩

structure Side where
  session : Option String
  role : Role
  steps : List StepEntry
  emissionsCrossed : List StepEntry
  modelDecisions : List DecisionEntry
  deriving DecidableEq, Repr

/-- `_side`: a branch is all tail. -/
def side (log : List Line) (doc : Lineage) (diverged : Option Int) : Side :=
  let tail :=
    if doc.role = .branch ∨ doc.role = .forkedBranch then steps log
    else match diverged with
      | none => steps log
      | some point => (steps log).filter fun e => point < e.seq
  ⟨doc.session, doc.role, tail, tail.filter (·.kind = .emission), decisions log tail⟩

structure Comparison where
  relation : Relation
  divergedAt : Option Int
  left : Side
  right : Side
  deriving DecidableEq, Repr

def compare (left right : List Line) : Comparison :=
  let (relation, diverged) := relate (lineage left) (lineage right)
  ⟨relation, diverged, side left (lineage left) diverged, side right (lineage right) diverged⟩

/-! ## What is recorded -/

@[simp] theorem steps_append (log more : List Line) :
    steps (log ++ more) = steps log ++ steps more :=
  List.filterMap_append

@[simp] theorem decisionLines_append (log more : List Line) :
    decisionLines (log ++ more) = decisionLines log ++ decisionLines more :=
  List.filterMap_append

@[simp] theorem steps_step (e : StepEntry) : steps [.step e] = [e] := rfl

@[simp] theorem steps_decision (d : Decision) : steps [.decision d] = [] := rfl

@[simp] theorem steps_other : steps [.other] = [] := rfl

@[simp] theorem decisionLines_step (e : StepEntry) : decisionLines [.step e] = [] := rfl

@[simp] theorem decisionLines_decision (d : Decision) : decisionLines [.decision d] = [d] := rfl

@[simp] theorem decisionLines_other : decisionLines [.other] = [] := rfl

/-- A session's log says of its timelines what they are: seqs grow, each step of a timeline has its
record, each decision was made at a step, which has no other. -/
structure Recorded (s : Session) : Prop where
  ordered : (steps s.log).Pairwise (·.seq < ·.seq)
  below : ∀ e ∈ steps s.log, e.seq < s.nextSeq
  recorded : ∀ t i q, (s.timelines t)[i]? = some q →
    ∃ e ∈ steps s.log, e.seq = q ∧ e.component = s.components t ∧ e.stepIndex = some i
  growing : ∀ t, (s.timelines t).Pairwise (· < ·)
  decided : ∀ d ∈ decisionLines s.log, ∃ e ∈ steps s.log,
    e.seq = d.crossing ∧ e.component = d.component ∧ e.stepIndex = some d.stepIndex
  single : (decisionLines s.log).Pairwise (·.crossing ≠ ·.crossing)

namespace Recorded

variable {s : Session}

/-- A session that starts with lineage records only. -/
theorem start (components : Nat → String) {first : List Line} (hsteps : steps first = [])
    (hdecisions : decisionLines first = []) : Recorded (Session.start components first) where
  ordered := by
    rw [Session.start, hsteps]
    exact List.Pairwise.nil
  below e he := by
    rw [Session.start, hsteps] at he
    cases he
  recorded t i q h := by simp [Session.start] at h
  growing t := List.Pairwise.nil
  decided d hd := by
    rw [Session.start, hdecisions] at hd
    cases hd
  single := by
    rw [Session.start, hdecisions]
    exact List.Pairwise.nil

/-- Every seq of a timeline was given. -/
theorem lt_nextSeq (h : Recorded s) {t q : Nat} (hq : q ∈ s.timelines t) : q < s.nextSeq := by
  obtain ⟨i, hi⟩ := List.mem_iff_getElem?.mp hq
  obtain ⟨e, he, rfl, -⟩ := h.recorded t i q hi
  exact h.below e he

/-- A seq is one step's. -/
theorem eq_of_seq (h : Recorded s) {e e' : StepEntry} (he : e ∈ steps s.log)
    (he' : e' ∈ steps s.log) (hseq : e.seq = e'.seq) : e = e' :=
  List.inj_on_of_nodup_map (List.pairwise_map.mpr (h.ordered.imp Nat.ne_of_lt)) he he' hseq

/-- A crossing has one decision. -/
theorem eq_of_crossing (h : Recorded s) {d d' : Decision} (hd : d ∈ decisionLines s.log)
    (hd' : d' ∈ decisionLines s.log) (hcrossing : d.crossing = d'.crossing) : d = d' :=
  List.inj_on_of_nodup_map (List.pairwise_map.mpr h.single) hd hd' hcrossing

/-- Lines that record no step and no decision, and seqs that nothing carries. -/
theorem note (h : Recorded s) {more : List Line} (hsteps : steps more = [])
    (hdecisions : decisionLines more = []) (seqs : Nat) :
    Recorded { s with log := s.log ++ more, nextSeq := s.nextSeq + seqs } := by
  have hs : steps (s.log ++ more) = steps s.log := by rw [steps_append, hsteps, List.append_nil]
  have hd : decisionLines (s.log ++ more) = decisionLines s.log := by
    rw [decisionLines_append, hdecisions, List.append_nil]
  constructor <;> simp only [hs, hd]
  · exact h.ordered
  · exact fun e he => Nat.lt_add_right seqs (h.below e he)
  · exact h.recorded
  · exact h.growing
  · exact h.decided
  · exact h.single

/-- The records of steps after one more. -/
theorem ordered_snoc (h : Recorded s) {e : StepEntry} (he : e.seq = s.nextSeq) :
    (steps s.log ++ [e]).Pairwise (·.seq < ·.seq) := by
  refine List.pairwise_append.mpr ⟨h.ordered, List.pairwise_singleton _ _, fun a ha b hb => ?_⟩
  rw [List.mem_singleton.mp hb, he]
  exact h.below a ha

theorem below_snoc (h : Recorded s) {e : StepEntry} (he : e.seq = s.nextSeq) :
    ∀ a ∈ steps s.log ++ [e], a.seq < s.nextSeq + 1 := by
  intro a ha
  rcases List.mem_append.mp ha with ha | ha
  · exact Nat.lt_succ_of_lt (h.below a ha)
  · rw [List.mem_singleton.mp ha, he]
    exact Nat.lt_succ_self _

theorem boundary (h : Recorded s) (component : String) (kind : Kind) (label : String) :
    Recorded (s.record (.boundary component kind label)) := by
  constructor <;> simp only [Session.record, steps_append, steps_step, decisionLines_append,
    decisionLines_step, List.append_nil]
  · exact h.ordered_snoc rfl
  · exact h.below_snoc rfl
  · intro t i q hq
    obtain ⟨e, he, hrest⟩ := h.recorded t i q hq
    exact ⟨e, List.mem_append_left _ he, hrest⟩
  · exact h.growing
  · intro d hd
    obtain ⟨e, he, hrest⟩ := h.decided d hd
    exact ⟨e, List.mem_append_left _ he, hrest⟩
  · exact h.single

theorem stepped (h : Recorded s) (t : Nat) (kind : Kind) (label : String) (scope : Option Scope) :
    Recorded (s.record (.step t kind label scope)) := by
  constructor <;> simp only [Session.record, steps_append, steps_step, decisionLines_append,
    decisionLines_step, List.append_nil]
  · exact h.ordered_snoc rfl
  · exact h.below_snoc rfl
  · intro t' i q hq
    by_cases ht : t' = t
    · subst ht
      rw [Function.update_self] at hq
      rcases Nat.lt_trichotomy i (s.timelines t').length with hi | rfl | hi
      · rw [List.getElem?_append_left hi] at hq
        obtain ⟨e, he, hrest⟩ := h.recorded t' i q hq
        exact ⟨e, List.mem_append_left _ he, hrest⟩
      · rw [List.getElem?_concat_length, Option.some.injEq] at hq
        exact ⟨_, List.mem_append_right _ List.mem_cons_self, hq, rfl, rfl⟩
      · rw [List.getElem?_eq_none (by simp; omega)] at hq
        cases hq
    · rw [Function.update_of_ne ht] at hq
      obtain ⟨e, he, hrest⟩ := h.recorded t' i q hq
      exact ⟨e, List.mem_append_left _ he, hrest⟩
  · intro t'
    by_cases ht : t' = t
    · subst ht
      rw [Function.update_self]
      refine List.pairwise_append.mpr
        ⟨h.growing t', List.pairwise_singleton _ _, fun a ha b hb => ?_⟩
      rw [List.mem_singleton.mp hb]
      exact h.lt_nextSeq ha
    · rw [Function.update_of_ne ht]
      exact h.growing t'
  · intro d hd
    obtain ⟨e, he, hrest⟩ := h.decided d hd
    exact ⟨e, List.mem_append_left _ he, hrest⟩
  · exact h.single

theorem decide (h : Recorded s) (t i : Nat) (outcome : String) (llm : List (String × String)) :
    Recorded (s.record (.decide t i outcome llm)) := by
  simp only [Session.record]
  split
  · rename_i seq hseq
    split
    · exact h
    · rename_i hnew
      constructor <;> simp only [steps_append, steps_decision, decisionLines_append,
        decisionLines_decision, List.append_nil]
      · exact h.ordered
      · exact h.below
      · exact h.recorded
      · exact h.growing
      · intro d hd
        rcases List.mem_append.mp hd with hd | hd
        · exact h.decided d hd
        · rw [List.mem_singleton.mp hd]
          exact h.recorded t i seq hseq
      · refine List.pairwise_append.mpr
          ⟨h.single, List.pairwise_singleton _ _, fun a ha b hb hab => hnew ?_⟩
        rw [List.mem_singleton.mp hb] at hab
        exact List.any_eq_true.mpr ⟨a, ha, decide_eq_true hab⟩
  · exact h

/-- One event keeps it. -/
theorem record (h : Recorded s) (e : Event) : Recorded (s.record e) := by
  cases e with
  | step t kind label scope => exact h.stepped t kind label scope
  | boundary component kind label => exact h.boundary component kind label
  | decide t i outcome llm => exact h.decide t i outcome llm
  | other seqs => exact h.note rfl rfl seqs

/-- **The log of a session says what was recorded**, after any run. -/
theorem run (h : Recorded s) (events : List Event) : Recorded (s.run events) := by
  induction events using List.reverseRecOn with
  | nil => exact h
  | append_singleton events e ih =>
    rw [Session.run, List.foldl_append]
    exact ih.record e

end Recorded

/-! ## What the lineage says -/

theorem forkBranch?_append (log more : List Line) :
    forkBranch? (log ++ more) = (forkBranch? log).or (forkBranch? more) :=
  List.findSome?_append

theorem forkFrozen?_append (log more : List Line) :
    forkFrozen? (log ++ more) = (forkFrozen? log).or (forkFrozen? more) :=
  List.findSome?_append

/-- What is recorded joins the log, and is no lineage. -/
theorem record_log (s : Session) (e : Event) : ∃ more, (s.record e).log = s.log ++ more ∧
    forkBranch? more = none ∧ forkFrozen? more = none := by
  cases e with
  | decide t i outcome llm =>
    simp only [Session.record]
    split
    · split
      · exact ⟨[], (List.append_nil _).symm, rfl, rfl⟩
      · exact ⟨_, rfl, rfl, rfl⟩
    · exact ⟨[], (List.append_nil _).symm, rfl, rfl⟩
  | _ => exact ⟨_, rfl, rfl, rfl⟩

theorem run_log (s : Session) (events : List Event) : ∃ more, (s.run events).log = s.log ++ more ∧
    forkBranch? more = none ∧ forkFrozen? more = none := by
  induction events using List.reverseRecOn with
  | nil => exact ⟨[], (List.append_nil _).symm, rfl, rfl⟩
  | append_singleton events e ih =>
    obtain ⟨more, hlog, hbranch, hfrozen⟩ := ih
    obtain ⟨last, hlast, hbranch', hfrozen'⟩ := record_log (s.run events) e
    refine ⟨more ++ last, ?_, ?_, ?_⟩
    · rw [Session.run, List.foldl_append]
      simp only [List.foldl_cons, List.foldl_nil]
      rw [Session.run] at hlog hlast
      rw [hlast, hlog, List.append_assoc]
    · rw [forkBranch?_append, hbranch, hbranch', Option.none_or]
    · rw [forkFrozen?_append, hfrozen, hfrozen', Option.none_or]

namespace Divergence

variable (f : Divergence)

theorem recorded_confirmed : Recorded f.confirmed := by
  refine (Recorded.start f.components ?_ ?_).run f.before
  · cases f.origin <;> rfl
  · cases f.origin <;> rfl

/-- The parent's session with the log that the fork closed. -/
theorem recorded_parent : Recorded { f.rewound with log := f.parentLog } := by
  have hbegin : Recorded { f.confirmed with
      log := f.confirmed.log ++ [.forkBegin f.parent f.point] } :=
    f.recorded_confirmed.note rfl rfl 0
  have hrewound : Recorded f.rewound := hbegin.run f.during
  exact hrewound.note rfl rfl 0

theorem recorded_branch : Recorded ((Session.start f.branchComponents
    [.forkBranch f.branch f.parent f.point]).run f.after) :=
  (Recorded.start f.branchComponents rfl rfl).run f.after

/-- The parent's log goes on from what the fork found. -/
theorem parentLog_eq : ∃ more, f.parentLog = f.confirmed.log ++ more ∧
    forkBranch? more = none ∧ forkFrozen? more = some (f.parent, f.point) := by
  obtain ⟨more, hlog, hbranch, hfrozen⟩ := run_log
    { f.confirmed with log := f.confirmed.log ++ [.forkBegin f.parent f.point] } f.during
  refine ⟨.forkBegin f.parent f.point :: more ++
    [.forkFrozen f.parent f.point, .forkComplete f.branch], ?_, ?_, ?_⟩
  · rw [parentLog, rewound, hlog]
    simp
  · rw [List.cons_append, ← List.singleton_append, forkBranch?_append, forkBranch?_append, hbranch]
    rfl
  · rw [List.cons_append, ← List.singleton_append, forkFrozen?_append, forkFrozen?_append, hfrozen]
    rfl

theorem confirmed_lineage : forkBranch? f.confirmed.log =
      f.origin.map (fun o => (f.parent, o.1, o.2)) ∧ forkFrozen? f.confirmed.log = none := by
  obtain ⟨more, hlog, hbranch, hfrozen⟩ := run_log (Session.start f.components
    (f.origin.elim [] fun o => [.forkBranch f.parent o.1 o.2])) f.before
  rw [confirmed, hlog, forkBranch?_append, forkFrozen?_append, hbranch, hfrozen, Option.or_none,
    Option.or_none]
  cases f.origin <;> exact ⟨rfl, rfl⟩

theorem lineage_parentLog : lineage f.parentLog =
    ⟨if f.origin.isSome then .forkedBranch else .forkedParent, some f.parent,
      f.origin.map (·.1), f.origin.map (·.2)⟩ := by
  obtain ⟨more, hlog, hbranch, hfrozen⟩ := f.parentLog_eq
  have hb : forkBranch? f.parentLog = f.origin.map fun o => (f.parent, o.1, o.2) := by
    rw [hlog, forkBranch?_append, hbranch, f.confirmed_lineage.1, Option.or_none]
  have hf : forkFrozen? f.parentLog = some (f.parent, f.point) := by
    rw [hlog, forkFrozen?_append, hfrozen, f.confirmed_lineage.2, Option.none_or]
  rw [lineage, hb, hf]
  cases f.origin with
  | none => rfl
  | some o => by_cases hempty : f.parent = "" <;> simp [hempty, Option.filter]

theorem lineage_branchLog : (lineage f.branchLog).role = .branch ∧
    (lineage f.branchLog).parent = some f.parent ∧
    (lineage f.branchLog).divergedAt = some f.point := by
  obtain ⟨more, hlog, hbranch, hfrozen⟩ := run_log (Session.start f.branchComponents
    [.forkBranch f.branch f.parent f.point]) f.after
  have hb : forkBranch? f.branchLog = some (f.branch, f.parent, f.point) := by
    rw [branchLog, hlog, forkBranch?_append, hbranch, Option.or_none]
    rfl
  have hf : forkFrozen? f.branchLog = none := by
    rw [branchLog, hlog, forkFrozen?_append, hfrozen, Option.or_none]
    rfl
  rw [lineage, hb, hf]
  exact ⟨rfl, rfl, rfl⟩

/-- What the comparison of the two logs shows. -/
theorem compare_logs : let doc := compare f.parentLog f.branchLog
    doc.left.steps = (if f.origin.isSome then steps f.parentLog
      else (steps f.parentLog).filter fun e => f.point < e.seq) ∧
    doc.left.modelDecisions = decisions f.parentLog doc.left.steps ∧
    doc.right.steps = steps f.branchLog ∧
    doc.right.modelDecisions = decisions f.branchLog (steps f.branchLog) := by
  obtain ⟨hrole, hparent, hdiverged⟩ := f.lineage_branchLog
  have hrelate : relate (lineage f.parentLog) (lineage f.branchLog) =
      (.parentBranch, some f.point) := by
    rw [relate, f.lineage_parentLog, hparent, hdiverged]
    simp
  simp only [compare, hrelate, side, hrole, true_or, if_true, and_true]
  rw [f.lineage_parentLog]
  cases f.origin with
  | none => simp
  | some o => simp

end Divergence

/-! ## The parent's tail -/

/-- Growing numbers are at least their places, and the place of one is bounded by where it stands
below another. -/
theorem le_getElem_of_growing {l : List Nat} (h : l.Pairwise (· < ·)) :
    ∀ i (hi : i < l.length), i ≤ l[i] := by
  intro i
  induction i with
  | zero => exact fun _ => Nat.zero_le _
  | succ i ih =>
    intro hi
    have hlt := List.pairwise_iff_getElem.mp h i (i + 1) (by omega) hi (by omega)
    have := ih (by omega)
    omega

/-- If growing numbers reach `n` at place `n`, they are the places up to there. -/
theorem getElem_eq_of_growing {l : List Nat} (h : l.Pairwise (· < ·)) {n : Nat} (hn : n < l.length)
    (hreach : l[n] ≤ n) : ∀ i (hi : i ≤ n), l[i] = i := by
  intro i hi
  have hle := le_getElem_of_growing h i (by omega)
  -- going down from `n`, each number is smaller by at least one
  have hgap : ∀ d (hd : d ≤ n), l[n - d] ≤ n - d := by
    intro d
    induction d with
    | zero => exact fun _ => hreach
    | succ d ih =>
      intro hd
      have hlt := List.pairwise_iff_getElem.mp h (n - (d + 1)) (n - d) (by omega) (by omega)
        (by omega)
      have := ih (by omega)
      omega
  have hge := hgap (n - i) (by omega)
  have hsub : n - (n - i) = i := by omega
  simp only [hsub] at hge
  omega

/-- Where the entries of a list stand past a place. -/
theorem mem_drop_of_growing {l : List Nat} (h : l.Pairwise (· < ·)) {n : Nat} (hn : n < l.length)
    {q : Nat} (hq : q ∈ l) : q ∈ l.drop (n + 1) ↔ l[n] < q := by
  obtain ⟨j, hj, rfl⟩ := List.mem_iff_getElem.mp hq
  have hmono := List.pairwise_iff_getElem.mp h
  constructor
  · intro hmem
    obtain ⟨i, hi, hget⟩ := List.mem_iff_getElem.mp hmem
    rw [List.getElem_drop] at hget
    rw [← hget]
    exact hmono n (n + 1 + i) hn _ (by omega)
  · intro hlt
    have hnj : n < j := by
      by_contra hle
      rcases Nat.eq_or_lt_of_le (Nat.le_of_not_lt hle) with rfl | hjn
      · exact absurd hlt (Nat.lt_irrefl _)
      · have := hmono j n hj hn hjn
        omega
    refine List.mem_iff_getElem.mpr ⟨j - (n + 1), by rw [List.length_drop]; omega, ?_⟩
    rw [List.getElem_drop]
    congr 1
    omega

/-- Two filters of one list agree where they agree on its entries. -/
theorem filter_eq_filter_iff {α : Type} {p q : α → Bool} {l : List α} :
    l.filter p = l.filter q ↔ ∀ a ∈ l, p a = q a := by
  constructor
  · intro h a ha
    have hiff : a ∈ l.filter p ↔ a ∈ l.filter q := by rw [h]
    rw [List.mem_filter, List.mem_filter] at hiff
    exact Bool.eq_iff_iff.mpr ⟨fun hp => (hiff.mp ⟨ha, hp⟩).2, fun hq => (hiff.mpr ⟨ha, hq⟩).2⟩
  · exact fun h => List.filter_congr h

namespace Divergence

variable (f : Divergence)

/-- The records of the steps that the fork rewound. -/
def rewoundSteps : List StepEntry :=
  (steps f.parentLog).filter fun e => e.seq ∈ f.rewoundSeqs

/-- The comparison is of a parent all of whose recorded steps are the forked timeline's, from before
the fork, and that recorded nothing else up to the step it was forked at; one that is a branch
itself was forked before its first step. -/
def Plain : Prop :=
  (∀ e ∈ steps f.parentLog, e.seq ∈ f.confirmed.timelines f.timeline) ∧
    (f.point = -1 ∨ f.origin = none ∧
      (f.confirmed.timelines f.timeline)[f.point.toNat]? = some f.point.toNat)

/-- A step of the forked timeline has its record in the parent's log. -/
theorem exists_entry {q : Nat} (hq : q ∈ f.confirmed.timelines f.timeline) :
    ∃ e ∈ steps f.parentLog, e.seq = q := by
  obtain ⟨i, hi⟩ := List.mem_iff_getElem?.mp hq
  obtain ⟨e, he, hseq, -⟩ := f.recorded_confirmed.recorded f.timeline i q hi
  obtain ⟨more, hlog, -⟩ := f.parentLog_eq
  refine ⟨e, ?_, hseq⟩
  rw [hlog, steps_append]
  exact List.mem_append_left _ he

/-- The reader's tail is what was rewound, entry by entry. -/
theorem tail_iff : (compare f.parentLog f.branchLog).left.steps = f.rewoundSteps ↔
    ∀ e ∈ steps f.parentLog,
      (f.origin.isSome = true ∨ f.point < e.seq) ↔ e.seq ∈ f.rewoundSeqs := by
  have hleft : (compare f.parentLog f.branchLog).left.steps =
      (steps f.parentLog).filter fun e => f.origin.isSome || decide (f.point < e.seq) := by
    rw [f.compare_logs.1]
    cases f.origin with
    | none => simp
    | some o => simp
  rw [hleft, rewoundSteps, filter_eq_filter_iff]
  refine forall₂_congr fun e _ => ?_
  rw [Bool.eq_iff_iff, Bool.or_eq_true, decide_eq_true_eq, decide_eq_true_eq]

/-- **The tail starts at the fork point** exactly for a plain parent. -/
theorem tail_eq_iff (hpoint : -1 ≤ f.point ∧
    f.point < (f.confirmed.timelines f.timeline).length) :
    (compare f.parentLog f.branchLog).left.steps = f.rewoundSteps ↔ f.Plain := by
  have hgrow := f.recorded_confirmed.growing f.timeline
  have hsub : ∀ q ∈ f.rewoundSeqs, q ∈ f.confirmed.timelines f.timeline := fun q hq =>
    List.mem_of_mem_drop hq
  rw [tail_iff, Plain]
  by_cases hstart : f.point = -1
  · -- forked before the first step: every step is rewound
    have hall : f.rewoundSeqs = f.confirmed.timelines f.timeline := by
      rw [rewoundSeqs, hstart]
      rfl
    have hbefore : ∀ e : StepEntry, (-1 : Int) < e.seq := fun e => by omega
    simp only [hall, hbefore, or_true, true_iff, hstart, true_or, and_true]
  · obtain ⟨n, hn⟩ : ∃ n : Nat, f.point = n := ⟨f.point.toNat, by omega⟩
    have hlen : n < (f.confirmed.timelines f.timeline).length := by omega
    have hdrop : f.rewoundSeqs = (f.confirmed.timelines f.timeline).drop (n + 1) := by
      rw [rewoundSeqs, hn]
      rfl
    have hnot : (f.confirmed.timelines f.timeline)[n] ∉ f.rewoundSeqs := by
      rw [hdrop, mem_drop_of_growing hgrow hlen (List.getElem_mem hlen)]
      exact Nat.lt_irrefl _
    have htoNat : f.point.toNat = n := by omega
    simp only [hstart, false_or, htoNat]
    constructor
    · intro h
      -- the step forked at is not rewound, so it stands at or below the point
      obtain ⟨e, he, hseq⟩ := f.exists_entry (List.getElem_mem hlen)
      have hout : ¬ (f.origin.isSome = true ∨ f.point < e.seq) := fun hin =>
        hnot (hseq ▸ (h e he).mp hin)
      have horigin : f.origin = none := by
        rw [← Option.not_isSome_iff_eq_none]
        exact fun hsome => hout (.inl hsome)
      have hreach : (f.confirmed.timelines f.timeline)[n] ≤ n := by
        have := fun hlt => hout (.inr hlt)
        omega
      have hplaces := getElem_eq_of_growing hgrow hlen hreach
      refine ⟨fun e he => ?_, horigin, ?_⟩
      · by_cases hlt : f.point < e.seq
        · exact hsub _ ((h e he).mp (.inr hlt))
        · have hle : e.seq ≤ n := by omega
          rw [← hplaces e.seq hle]
          exact List.getElem_mem _
      · rw [List.getElem?_eq_getElem hlen, hplaces n le_rfl]
    · rintro ⟨hmine, horigin, hreach⟩ e he
      rw [List.getElem?_eq_getElem hlen, Option.some.injEq] at hreach
      rw [hdrop, mem_drop_of_growing hgrow hlen (hmine e he), hreach, horigin, hn]
      simp

end Divergence

/-! ## Decisions -/

/-- A decision is written under the identity of a step. -/
def Under (component : String) (i : Nat) (d : Decision) : Prop :=
  d.component = component ∧ d.stepIndex = i

instance (component : String) (i : Nat) (d : Decision) : Decidable (Under component i d) :=
  inferInstanceAs (Decidable (_ ∧ _))

/-- The last decision of a log that is written under the identity of a step. -/
def LastUnder (log : List Line) (component : String) (i : Nat) (d : Decision) : Prop :=
  ∃ pre post, decisionLines log = pre ++ d :: post ∧ Under component i d ∧
    ∀ d' ∈ post, ¬ Under component i d'

/-- The index of the decisions finds the last one of each identity. -/
theorem get?_foldl_set (l : List Decision) (component : String) (i : Nat) (d : Decision) :
    (l.foldl (fun out d => out.set (d.component, d.stepIndex) d)
        (Dict.empty : Dict (String × Nat) Decision)).get? (component, i) = some d ↔
      ∃ pre post, l = pre ++ d :: post ∧ Under component i d ∧
        ∀ d' ∈ post, ¬ Under component i d' := by
  induction l using List.reverseRecOn with
  | nil => simp
  | append_singleton l last ih =>
    rw [List.foldl_append, List.foldl_cons, List.foldl_nil, Dict.get?_set]
    have hkey : (component, i) = (last.component, last.stepIndex) ↔ Under component i last := by
      rw [Prod.mk.injEq, Under, eq_comm, @eq_comm _ i]
    by_cases hunder : Under component i last
    · rw [if_pos (hkey.mpr hunder), Option.some.injEq]
      constructor
      · rintro rfl
        exact ⟨l, [], rfl, hunder, by rintro d' ⟨⟩⟩
      · rintro ⟨pre, post, heq, -, hpost⟩
        rcases List.eq_nil_or_concat post with rfl | ⟨post', d', rfl⟩
        · exact List.singleton_inj.mp (List.append_inj' heq rfl).2
        · -- nothing under the identity comes later, but the last one is
          have heq' : l ++ [last] = (pre ++ d :: post') ++ [d'] := by simpa using heq
          have hlast := List.singleton_inj.mp (List.append_inj' heq' rfl).2
          exact absurd hunder (hpost last (by simp [hlast]))
    · rw [if_neg (mt hkey.mp hunder), ih]
      constructor
      · rintro ⟨pre, post, rfl, hd, hpost⟩
        refine ⟨pre, post ++ [last], by simp, hd, fun d' hd' => ?_⟩
        rcases List.mem_append.mp hd' with hd' | hd'
        · exact hpost d' hd'
        · rw [List.mem_singleton.mp hd']
          exact hunder
      · rintro ⟨pre, post, heq, hd, hpost⟩
        rcases List.eq_nil_or_concat post with rfl | ⟨post', d', rfl⟩
        · have hlast := List.singleton_inj.mp (List.append_inj' heq rfl).2
          exact absurd (hlast ▸ hd) hunder
        · have heq' : l ++ [last] = (pre ++ d :: post') ++ [d'] := by simpa using heq
          exact ⟨pre, post', (List.append_inj' heq' rfl).1, hd, fun x hx => hpost x (by simp [hx])⟩

theorem modelDecisions_get? (log : List Line) (component : String) (i : Nat) (d : Decision) :
    (modelDecisions log).get? (component, i) = some d ↔ LastUnder log component i d :=
  get?_foldl_set _ component i d

/-- Where a decision is written under an identity, there is a last one. -/
theorem exists_lastUnder {log : List Line} {component : String} {i : Nat} {d : Decision}
    (hd : d ∈ decisionLines log) (hunder : Under component i d) :
    ∃ d', LastUnder log component i d' := by
  unfold LastUnder
  generalize decisionLines log = l at hd
  induction l using List.reverseRecOn with
  | nil => cases hd
  | append_singleton l last ih =>
    by_cases hlast : Under component i last
    · exact ⟨last, l, [], rfl, hlast, fun d' hd' => nomatch hd'⟩
    · rcases List.mem_append.mp hd with hd | hd
      · obtain ⟨d', pre, post, rfl, hd', hpost⟩ := ih hd
        refine ⟨d', pre, post ++ [last], by simp, hd', fun x hx => ?_⟩
        rcases List.mem_append.mp hx with hx | hx
        · exact hpost x hx
        · rw [List.mem_singleton.mp hx]
          exact hlast
      · exact absurd (List.mem_singleton.mp hd ▸ hunder) hlast

/-- Each decision of the log is joined to the crossing it was written for, if that is in the tail,
and to no other. -/
structure Joined (log : List Line) (tail : List StepEntry) (entries : List DecisionEntry) :
    Prop where
  own : ∀ x ∈ entries, x.decision ∈ decisionLines log ∧ x.decision.crossing = x.seq
  all : ∀ d ∈ decisionLines log, ∀ e ∈ tail, e.seq = d.crossing → ⟨e.seq, e.label, d⟩ ∈ entries

/-- The last decision under the identity of a step of the tail is that step's own. -/
def OwnLast (log : List Line) (tail : List StepEntry) : Prop :=
  ∀ e ∈ tail, ∀ i, e.stepIndex = some i → ∀ d, LastUnder log e.component i d → d.crossing = e.seq

theorem mem_decisions {log : List Line} {tail : List StepEntry} {x : DecisionEntry} :
    x ∈ decisions log tail ↔ ∃ e ∈ tail, ∃ i, e.stepIndex = some i ∧
      LastUnder log e.component i x.decision ∧ x.seq = e.seq ∧ x.label = e.label := by
  simp only [decisions, List.mem_filterMap, Option.map_eq_some_iff, Option.bind_eq_some_iff]
  constructor
  · rintro ⟨e, he, d, ⟨i, hi, hd⟩, rfl⟩
    exact ⟨e, he, i, hi, (modelDecisions_get? _ _ _ _).mp hd, rfl, rfl⟩
  · rintro ⟨e, he, i, hi, hd, hseq, hlabel⟩
    refine ⟨e, he, x.decision, ⟨i, hi, (modelDecisions_get? _ _ _ _).mpr hd⟩, ?_⟩
    rw [← hseq, ← hlabel]

/-- **Decisions are joined to their crossings** exactly where no other step's decision is the last
one under an identity of the tail. -/
theorem Recorded.joined_iff {s : Session} (h : Recorded s) {tail : List StepEntry}
    (htail : ∀ e ∈ tail, e ∈ steps s.log) :
    Joined s.log tail (decisions s.log tail) ↔ OwnLast s.log tail := by
  constructor
  · intro hjoined e he i hi d hd
    exact (hjoined.own ⟨e.seq, e.label, d⟩ (mem_decisions.mpr ⟨e, he, i, hi, hd, rfl, rfl⟩)).2
  · refine fun hown => ⟨fun x hx => ?_, fun d hd e he hseq => ?_⟩
    · obtain ⟨e, he, i, hi, hlast, hseq, -⟩ := mem_decisions.mp hx
      refine ⟨?_, by rw [hseq]; exact hown e he i hi _ hlast⟩
      obtain ⟨pre, post, heq, -⟩ := hlast
      rw [heq]
      exact List.mem_append_right _ List.mem_cons_self
    · -- the crossing that the decision names is the step of the tail
      obtain ⟨e', he', hseq', hcomponent, hindex⟩ := h.decided d hd
      obtain rfl : e' = e := h.eq_of_seq he' (htail e he) (hseq'.trans hseq.symm)
      obtain ⟨d', hlast⟩ := exists_lastUnder hd ⟨hcomponent.symm, rfl⟩
      have hcrossing := hown e' he d.stepIndex hindex d' hlast
      obtain rfl : d' = d := by
        obtain ⟨pre, post, heq, -⟩ := id hlast
        refine h.eq_of_crossing ?_ hd (hcrossing.trans hseq)
        rw [heq]
        exact List.mem_append_right _ List.mem_cons_self
      exact mem_decisions.mpr ⟨e', he, _, hindex, hlast, rfl, rfl⟩

/-! ## The comparison -/

/-- The comparison shows as the parent's tail what the fork rewound, and joins the decisions of both
sides to their crossings. -/
structure Faithful (f : Divergence) : Prop where
  tail : (compare f.parentLog f.branchLog).left.steps = f.rewoundSteps
  parent : Joined f.parentLog (compare f.parentLog f.branchLog).left.steps
    (compare f.parentLog f.branchLog).left.modelDecisions
  branch : Joined f.branchLog (compare f.parentLog f.branchLog).right.steps
    (compare f.parentLog f.branchLog).right.modelDecisions

/-- A comparison of a fork at a step of its timeline is faithful exactly for a plain parent, where
on either side no other step's decision is the last one under the identity of a step compared. -/
theorem compare_exact (f : Divergence)
    (hpoint : -1 ≤ f.point ∧ f.point < (f.confirmed.timelines f.timeline).length) :
    Faithful f ↔ f.Plain ∧ OwnLast f.parentLog f.rewoundSteps ∧
      OwnLast f.branchLog (steps f.branchLog) := by
  obtain ⟨-, hleft, hright, hright'⟩ := f.compare_logs
  have htail := f.tail_eq_iff hpoint
  have hparent : Joined f.parentLog f.rewoundSteps (decisions f.parentLog f.rewoundSteps) ↔
      OwnLast f.parentLog f.rewoundSteps :=
    f.recorded_parent.joined_iff fun e he => (List.mem_filter.mp he).1
  have hbranch : Joined f.branchLog (steps f.branchLog)
      (decisions f.branchLog (steps f.branchLog)) ↔ OwnLast f.branchLog (steps f.branchLog) :=
    f.recorded_branch.joined_iff fun e he => he
  constructor
  · rintro ⟨hfaith, hp, hb⟩
    rw [hleft, hfaith] at hp
    rw [hright, hright'] at hb
    exact ⟨htail.mp hfaith, hparent.mp hp, hbranch.mp hb⟩
  · rintro ⟨hplain, hp, hb⟩
    have hfaith := htail.mpr hplain
    refine ⟨hfaith, ?_, ?_⟩
    · rw [hleft, hfaith]
      exact hparent.mpr hp
    · rw [hright, hright']
      exact hbranch.mpr hb

/-- A session of two components whose steps interleave, forked at a step of the first. -/
def interleaved : Divergence where
  parent := "s-1"
  branch := "s-2"
  components t := if t = 0 then "Agent" else "Store"
  origin := none
  before := [.step 1 .provision "provide store" none, .step 0 .effect "open" none,
    .step 0 .emission "mail.send" none]
  during := []
  timeline := 0
  point := 0
  branchComponents _ := "Agent"
  after := []

/-- The exact condition at a fork of an interleaved session. -/
theorem compare_exact_interleaved : Faithful interleaved ↔ interleaved.Plain ∧
    OwnLast interleaved.parentLog interleaved.rewoundSteps ∧
      OwnLast interleaved.branchLog (steps interleaved.branchLog) :=
  compare_exact interleaved (by decide)

/-- The step the fork went back to is shown as rewound. -/
theorem fork_point_in_tail : ¬ Faithful interleaved := by
  intro h
  exact absurd h.tail (by decide)

end Revl.Fork.Compare
