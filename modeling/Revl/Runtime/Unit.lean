import Revl.Runtime.Session

/-!
# Transaction units

A provide-method call runs inside a scope that collects the entries it registers. The scope of a
UI transaction unit settles its own entries when the call fails: they leave the frame's parked
lists, the inverses are replayed newest first and the compensations run newest first behind them.

- `Calls`, `callStep`: scopes entered and left, registrations and raises, in any nesting.
- `unwindUnit_spec`: one settlement.
- `Nested`: what holds after every step.
- `unit_spec`: **a failed unit settles its own entries and nothing else**.
-/

namespace Revl.Runtime

open Recovery (EntryKind)

/-- `_CallScope`: what one call registered, oldest first. -/
structure Scope where
  settles : Bool
  transactional : List Entry
  compensations : List Entry

def Scope.entries (sc : Scope) : List Entry := sc.transactional ++ sc.compensations

/-- The entry joins its call. -/
def Scope.add (e : Entry) (sc : Scope) : Scope :=
  match e.kind with
  | .transactional => { sc with transactional := sc.transactional ++ [e] }
  | .compensation => { sc with compensations := sc.compensations ++ [e] }

namespace Process

variable (env : Env)

/-- One inverse of a unit: replayed, caught and recorded. -/
def attempt (s : Process) (e : Entry) : Process := recordRaise env e s (s.replay env e)

/-- `_unwind_ui_unit`. -/
def unwindUnit (i : Nat) (unit : Scope) (s : Process) : Process :=
  if s.halted = true then s
  else
    let f := s.frames i
    let transactional := unit.transactional.filter (· ∈ f.deferredTransactional)
    let compensations := unit.compensations.filter (· ∈ f.deferredCompensations)
    let s := s.updateFrame i fun f => { f with
      deferredTransactional := f.deferredTransactional.filter (· ∉ transactional)
      deferredCompensations := f.deferredCompensations.filter (· ∉ compensations) }
    (transactional.reverse.foldl (attempt env) s).runCompensations env compensations.reverse

end Process

/-! ## Calls -/

/-- What propagates: the refusal of a halt, or an exception. -/
inductive Failure where
  | refused
  | raised (id : Nat)
  deriving DecidableEq, Repr

/-- One settlement. -/
structure UnitRun where
  scope : Scope
  before : Process
  after : Process
  failure : Failure

/-- A frame under calls, the innermost scope first. -/
structure Calls where
  process : Process
  scopes : List Scope
  raising : Option Failure
  runs : List UnitRun

inductive CallOp where
  /-- `call_scope` and `ui_transaction`. -/
  | enter (settles : Bool)
  | register (seam : Seam) (r : Registration)
  | raise (id : Nat)
  /-- The failure is caught between two scopes. -/
  | handle
  | exit

/-- The innermost scope collects what a provide method registered. -/
def collect (e : Entry) : List Scope → List Scope
  | [] => []
  | sc :: rest => sc.add e :: rest

/-- `_CallScope.__exit__`: the failure always propagates. -/
def leaveScope (env : Env) (i : Nat) (c : Calls) : Calls :=
  match c.scopes with
  | [] => c
  | sc :: rest =>
    match c.raising, sc.settles with
    | some failure, true =>
      let after := c.process.unwindUnit env i sc
      { c with process := after, scopes := rest, runs := c.runs ++ [⟨sc, c.process, after, failure⟩] }
    | _, _ => { c with scopes := rest }

/-- A registration, refused under a halt. -/
def registerCall (env : Env) (i : Nat) (seam : Seam) (r : Registration) (c : Calls) : Calls :=
  let s := c.process.register env i seam r
  if s.halted = true then { c with process := s, raising := some .refused }
  else
    { c with
      process := s
      scopes := match seam with
        | .body => c.scopes
        | .method => collect ((c.process.poll env).newEntry i r) c.scopes }

/-- While a failure propagates no step of a call runs. -/
def callStep (env : Env) (i : Nat) (c : Calls) : CallOp → Calls
  | .enter settles =>
    if c.raising.isSome then c else { c with scopes := ⟨settles, [], []⟩ :: c.scopes }
  | .register seam r => if c.raising.isSome then c else registerCall env i seam r c
  | .raise id => if c.raising.isSome then c else { c with raising := some (.raised id) }
  | .handle => { c with raising := none }
  | .exit => leaveScope env i c

/-- The calls on the frame of a fresh process. -/
def runCalls (env : Env) (name : String) (owned log : Bool) (ops : List CallOp) : Calls :=
  ops.foldl (callStep env 0) ⟨Process.start name owned none log, [], none, []⟩

namespace Process

variable (env : Env)

/-! ## One settlement -/

theorem attempt_attempt (e : Entry) (s : Process) : Attempt e s (s.attempt env e) := by
  have h := replay_attempt env e s
  unfold attempt
  rcases recordRaise_eq env e s (s.replay env e) with heq | heq <;> rw [heq]
  · exact h
  · exact ⟨h.keeps.trans (Keeps.of_eq (fun _ => rfl) rfl rfl rfl rfl rfl), h.frames, h.marks⟩

/-- The inverses of a unit, in the order given, up to a halt. -/
theorem foldl_attempt_trace {l : List Entry} (hn : l.Nodup) {s : Process}
    (h0 : ∀ e ∈ l, s.settledCount e = 0) :
    Keeps s (l.foldl (attempt env) s) ∧ (l.foldl (attempt env) s).frames = s.frames ∧
      (∀ x, x ∉ l → (l.foldl (attempt env) s).settledCount x = s.settledCount x) ∧
      (∀ e ∈ l, (l.foldl (attempt env) s).settledCount e = 1 ∨
        (l.foldl (attempt env) s).settledCount e = 0 ∧
          (l.foldl (attempt env) s).halted = true) ∧
      ∃ done, done <+: l ∧
        (l.foldl (attempt env) s).marks = { s.marks with started := s.marks.started ++ done } ∧
        ((l.foldl (attempt env) s).halted = false → done = l) ∧ (s.halted = true → done = []) := by
  induction l generalizing s with
  | nil => exact ⟨Keeps.refl s, rfl, fun _ _ => rfl, by simp, [], List.prefix_refl _, by simp,
      fun _ => rfl, fun _ => rfl⟩
  | cons e l ih =>
    obtain ⟨hnot, hn⟩ := List.nodup_cons.1 hn
    have hstep := attempt_attempt env e s
    have hset := hstep.settles
    have h0' : ∀ x ∈ l, (s.attempt env e).settledCount x = 0 := by
      intro x hx
      rw [hset.others x fun h => hnot (h ▸ hx)]
      exact h0 x (List.mem_cons_of_mem _ hx)
    obtain ⟨hk, hframes, hothers, hown, done, hpre, hmarks, hall, hnone⟩ := ih hn h0'
    rw [List.foldl_cons]
    have hrest : (l.foldl (attempt env) (s.attempt env e)).halted = false →
        (s.attempt env e).halted = false :=
      fun hend => Bool.eq_false_iff.2 fun h => by simp [hk.halts h] at hend
    have hself : (l.foldl (attempt env) (s.attempt env e)).settledCount e =
        (s.attempt env e).settledCount e := hothers e hnot
    refine ⟨hset.keeps.trans hk, hframes.trans hstep.frames, fun x hx => ?_, fun x hx => ?_, ?_⟩
    · obtain ⟨hxe, hxl⟩ := not_or.1 fun h => hx (List.mem_cons.2 h)
      exact (hothers x hxl).trans (hset.others x hxe)
    · rcases List.mem_cons.1 hx with rfl | hx
      · rw [hself]
        rcases hstep.marks with ⟨hh, hm⟩ | ⟨hs, -⟩ | ⟨-, hm⟩
        · exact Or.inr ⟨(settledCount_congr hm x).trans (h0 x List.mem_cons_self), hk.halts hh⟩
        · obtain ⟨hd, hst, -, -⟩ := settledCount_eq_zero.1 (h0 x List.mem_cons_self)
          simp [spent, hd, hst] at hs
        · rw [settledCount_started hm x, if_pos rfl, h0 x List.mem_cons_self]
          exact Or.inl rfl
      · exact hown x hx
    · rcases hstep.marks with ⟨hh, hm⟩ | ⟨hs, -⟩ | ⟨hgo, hm⟩
      · -- a halt is in force, and nothing follows
        have hdone := hnone hh
        refine ⟨[], List.nil_prefix, ?_, fun hend => ?_, fun _ => rfl⟩
        · rw [hmarks, hdone, hm]
        · rw [hrest hend] at hh
          cases hh
      · obtain ⟨hd, hst, -, -⟩ := settledCount_eq_zero.1 (h0 e List.mem_cons_self)
        simp [spent, hd, hst] at hs
      · refine ⟨e :: done, List.cons_prefix_cons.2 ⟨rfl, hpre⟩, ?_, fun hend => ?_, fun hh => ?_⟩
        · rw [hmarks, hm]
          simp
        · rw [hall hend]
        · rw [hh] at hgo
          cases hgo

/-- Phase 2 discharges and holds nothing. -/
theorem runCompensations_flags (l : List Entry) (s : Process) :
    (s.runCompensations env l).marks.discharged = s.marks.discharged ∧
      (s.runCompensations env l).marks.held = s.marks.held := by
  have hloop (l : List Entry) (t : Process) :
      (l.foldl (compensate env) t).marks.discharged = t.marks.discharged ∧
        (l.foldl (compensate env) t).marks.held = t.marks.held := by
    induction l generalizing t with
    | nil => exact ⟨rfl, rfl⟩
    | cons e l ih =>
      obtain ⟨hd, hh⟩ := ih (t.compensate env e)
      have hone : (t.compensate env e).marks.discharged = t.marks.discharged ∧
          (t.compensate env e).marks.held = t.marks.held := by
        unfold compensate
        dsimp only
        split
        · exact ⟨rfl, rfl⟩
        · rw [recordRaise_marks]
          rcases (runPhase2_attempt env e { t with tick := t.tick + 1 }).marks with
            ⟨-, hm⟩ | ⟨-, hm⟩ | ⟨-, hm⟩ <;> rw [hm] <;> exact ⟨rfl, rfl⟩
      exact ⟨hd.trans hone.1, hh.trans hone.2⟩
  have hpoll := poll_marks env s
  unfold runCompensations
  dsimp only
  split_ifs
  · exact ⟨rfl, rfl⟩
  · rw [foldl_strand_marks, hpoll]
    exact ⟨rfl, rfl⟩
  · obtain ⟨hd, hh⟩ := hloop l (s.poll env)
    rw [hpoll] at hd hh
    exact ⟨hd, hh⟩

/-- The frame once a unit's entries left the parked lists. -/
def without (unit : Scope) (f : Frame) : Frame := { f with
  deferredTransactional := f.deferredTransactional.filter (· ∉ unit.transactional)
  deferredCompensations := f.deferredCompensations.filter (· ∉ unit.compensations) }

/-- A unit whose entries are parked in a frame. -/
structure UnitOf (i : Nat) (unit : Scope) (s : Process) : Prop where
  transactional : ∀ e ∈ unit.transactional, e ∈ (s.frames i).deferredTransactional
  compensations : ∀ e ∈ unit.compensations, e ∈ (s.frames i).deferredCompensations
  nodup : unit.entries.Nodup

theorem UnitOf.undisposed {i : Nat} {unit : Scope} {s : Process} (h : UnitOf i unit s) :
    ∀ e ∈ unit.entries, e ∈ s.undisposed i := by
  intro e he
  refine List.mem_append_left _ ?_
  rcases List.mem_append.1 he with he | he
  · exact List.mem_append_left _ (List.mem_reverse.2 (h.transactional e he))
  · exact List.mem_append_right _ (List.mem_reverse.2 (h.compensations e he))

/-- What the settlement of a failed unit does. -/
structure Settled (i : Nat) (unit : Scope) (s t : Process) : Prop where
  frames : t.frames = (s.updateFrame i (without unit)).frames
  started : ∃ inverses offsets, t.marks.started = s.marks.started ++ inverses ++ offsets ∧
    inverses <+: unit.transactional.reverse ∧ offsets.Sublist unit.compensations.reverse ∧
    (t.halted = false ∨ offsets ≠ [] → inverses = unit.transactional.reverse)
  own : ∀ e ∈ unit.entries, Disposed t e
  others : ∀ x, x ∉ unit.entries → t.settledCount x = s.settledCount x
  discharged : t.marks.discharged = s.marks.discharged
  held : t.marks.held = s.marks.held
  keeps : Keeps (s.updateFrame i (without unit)) t
  inventory : Inventory t

theorem without_same (i : Nat) (unit : Scope) (s : Process) :
    SameEntries s (s.updateFrame i (without unit)) ∧
      (Inventory s → Inventory (s.updateFrame i (without unit))) :=
  inventory_updateFrame (g := without unit) (fun _ => rfl) (fun _ => rfl) s

theorem unwindUnit_eq {i : Nat} {unit : Scope} {s : Process} (hunit : UnitOf i unit s)
    (hgo : s.halted = false) : s.unwindUnit env i unit =
      (unit.transactional.reverse.foldl (attempt env) (s.updateFrame i (without unit))
        ).runCompensations env unit.compensations.reverse := by
  have htrans : unit.transactional.filter (· ∈ (s.frames i).deferredTransactional) =
      unit.transactional := List.filter_eq_self.2 fun e he => decide_eq_true (hunit.transactional e he)
  have hcomp : unit.compensations.filter (· ∈ (s.frames i).deferredCompensations) =
      unit.compensations := List.filter_eq_self.2 fun e he => decide_eq_true (hunit.compensations e he)
  unfold unwindUnit
  rw [if_neg (by simp [hgo])]
  dsimp only
  rw [htrans, hcomp]
  rfl

/-- **One settlement**: the unit's inverses newest first and its compensations behind them. -/
theorem unwindUnit_spec {i : Nat} {unit : Scope} {s : Process} (h : Parked i s)
    (hunit : UnitOf i unit s) (hgo : s.halted = false) :
    Settled i unit s (s.unwindUnit env i unit) := by
  let u := s.updateFrame i (without unit)
  let v := unit.transactional.reverse.foldl (attempt env) u
  have heq : s.unwindUnit env i unit = v.runCompensations env unit.compensations.reverse :=
    unwindUnit_eq env hunit hgo
  obtain ⟨hntrans, hncomp, hdisjoint⟩ := List.nodup_append.1 hunit.nodup
  have hfresh : ∀ e ∈ unit.entries, u.settledCount e = 0 :=
    fun e he => h.fresh e (hunit.undisposed e he)
  -- the inverses
  obtain ⟨hk₁, hframes₁, hothers₁, hown₁, inv, hinv, hmarks₁, hall, -⟩ :=
    foldl_attempt_trace env (List.nodup_reverse.2 hntrans)
      fun e he => hfresh e (List.mem_append_left _ (List.mem_reverse.1 he))
  have hnocomp : ∀ e ∈ unit.compensations, e ∉ unit.transactional.reverse :=
    fun e he hin => hdisjoint e (List.mem_reverse.1 hin) e he rfl
  -- the compensations
  have hpend : (u.frames i).pendingCompensations = [] := by
    rw [updateFrame_self]
    exact h.pending
  obtain ⟨hk₂, hframes₂, hothers₂, hown₂, offs, hoffs, hstarted₂, hquiet⟩ :=
    runCompensations_spec env (List.nodup_reverse.2 hncomp) (s := v)
      (fun e he => by
        have he := List.mem_reverse.1 he
        rw [hothers₁ e (hnocomp e he)]
        exact hfresh e (List.mem_append_right _ he))
      fun e he => by
        have hframe := h.frame e (hunit.undisposed e (List.mem_append_right _ (List.mem_reverse.1 he)))
        rw [hframes₁, hframe, hpend]
        exact List.not_mem_nil
  obtain ⟨hdischarged, hheld⟩ := runCompensations_flags env unit.compensations.reverse v
  have hsame := without_same i unit s
  have hinvu : Inventory u := hsame.2 h.inventory
  have hk := hk₁.trans hk₂
  rw [heq]
  refine
    { frames := hframes₂.trans hframes₁
      started := ⟨inv, offs, by rw [hstarted₂, hmarks₁]; rfl, hinv, hoffs, fun hend => hall ?_⟩
      own := fun e he => ?_
      others := fun x hx => ?_
      discharged := by rw [hdischarged, hmarks₁]; rfl
      held := by rw [hheld, hmarks₁]; rfl
      keeps := hk
      inventory := hk.inventory hinvu }
  · by_contra hh
    rw [Bool.not_eq_false] at hh
    rcases hend with hend | hne
    · rw [hk₂.halts hh] at hend
      cases hend
    · exact hne (hquiet hh)
  · -- a stranded entry is named once
    have hname : e ∈ (v.runCompensations env unit.compensations.reverse).nameable := by
      rw [hk.same.nameable, hsame.1.nameable]
      exact h.nameable (hunit.undisposed e he)
    have hcount : (v.runCompensations env unit.compensations.reverse).settledCount e = 1 ∨
        (v.runCompensations env unit.compensations.reverse).settledCount e = 0 ∧
          (v.runCompensations env unit.compensations.reverse).halted = true := by
      rcases List.mem_append.1 he with he | he
      · have hnot : e ∉ unit.compensations.reverse :=
          fun hin => hdisjoint e he e (List.mem_reverse.1 hin) rfl
        rw [hothers₂ e hnot]
        exact (hown₁ e (List.mem_reverse.2 he)).imp_right fun hz => ⟨hz.1, hk₂.halts hz.2⟩
      · exact hown₂ e (List.mem_reverse.2 he)
    refine hcount.imp_right fun hz => ⟨hz.1, hz.2, ?_⟩
    have hfinal := hk.inventory hinvu
    exact List.count_eq_one_of_mem hfinal.1 (hfinal.2 hz.2 e hname)
  · obtain ⟨hx₁, hx₂⟩ := not_or.1 fun hx' => hx (List.mem_append.2 hx')
    rw [hothers₂ x fun hin => hx₂ (List.mem_reverse.1 hin),
      hothers₁ x fun hin => hx₁ (List.mem_reverse.1 hin)]
    rfl

/-- A settled unit's entries are no longer to be disposed; all others are. -/
theorem mem_undisposed_without {i : Nat} {unit : Scope} {s : Process} (h : Parked i s)
    (hunit : UnitOf i unit s) (x : Entry) :
    x ∈ (s.updateFrame i (without unit)).undisposed i ↔
      x ∈ s.undisposed i ∧ x ∉ unit.entries := by
  obtain ⟨hparked, -, hstack⟩ := List.nodup_append.1 h.nodup
  obtain ⟨-, -, hlists⟩ := List.nodup_append.1 hparked
  have hT : x ∈ unit.transactional → x ∉ (s.frames i).deferredCompensations ∧
      x ∉ (s.frames i).stack := by
    intro hx
    have hmem := List.mem_reverse.2 (hunit.transactional x hx)
    exact ⟨fun hc => hlists x hmem x (List.mem_reverse.2 hc) rfl,
      fun hs => hstack x (List.mem_append_left _ hmem) x (List.mem_reverse.2 hs) rfl⟩
  have hC : x ∈ unit.compensations → x ∉ (s.frames i).deferredTransactional ∧
      x ∉ (s.frames i).stack := by
    intro hx
    have hmem := List.mem_reverse.2 (hunit.compensations x hx)
    exact ⟨fun ht => hlists x (List.mem_reverse.2 ht) x hmem rfl,
      fun hs => hstack x (List.mem_append_right _ hmem) x (List.mem_reverse.2 hs) rfl⟩
  unfold undisposed Scope.entries
  rw [updateFrame_self]
  simp only [without, List.mem_append, List.mem_reverse, List.mem_filter, decide_eq_true_eq]
  tauto

/-- After a settlement the rest of the frame is parked as before. -/
theorem Settled.parked {i : Nat} {unit : Scope} {s t : Process} (ht : Settled i unit s t)
    (h : Parked i s) (hunit : UnitOf i unit s) : Parked i t := by
  have hself : t.frames i = without unit (s.frames i) := by
    rw [ht.frames, updateFrame_self]
  have hu : t.undisposed i = (s.updateFrame i (without unit)).undisposed i := by
    unfold undisposed
    rw [ht.frames]
  have hmem := mem_undisposed_without h hunit
  have hsame := ((without_same i unit s).1).trans ht.keeps.same
  exact
    { built := hsame.built ▸ h.built
      nodup := by
        rw [hu]
        refine List.Sublist.nodup ?_ h.nodup
        unfold undisposed
        rw [updateFrame_self]
        exact ((List.filter_sublist.reverse).append (List.filter_sublist.reverse)).append
          (List.Sublist.refl _)
      registered := fun e he => by
        rw [hsame.entries]
        exact h.registered e ((hmem e).1 (hu ▸ he)).1
      frame := fun e he => h.frame e ((hmem e).1 (hu ▸ he)).1
      inverses := fun e he => h.inverses e (List.mem_of_mem_filter (hself ▸ he))
      offsets := fun e he => h.offsets e (List.mem_of_mem_filter (hself ▸ he))
      pending := (congrArg Frame.pendingCompensations hself).trans h.pending
      committed := (congrArg Frame.committed hself).trans h.committed
      holding := (congrArg Frame.holding hself).trans h.holding
      fresh := fun e he => by
        obtain ⟨hold, hnot⟩ := (hmem e).1 (hu ▸ he)
        exact (ht.others e hnot).trans (h.fresh e hold)
      inventory := ht.inventory }

/-! ## Nested calls -/

/-- A settlement works for its frame. -/
theorem quiet_unwindUnit {i : Nat} {unit : Scope} {s : Process} (h : Parked i s)
    (hunit : UnitOf i unit s) : Quiet i s (s.unwindUnit env i unit) := by
  by_cases hh : s.halted = true
  · unfold unwindUnit
    rw [if_pos hh]
    exact Quiet.refl i s
  · rw [unwindUnit_eq env hunit (Bool.not_eq_true _ ▸ hh)]
    refine (quiet_updateFrame i (without unit) s).trans ((quiet_foldl fun e he t _ => ?_).trans
      (quiet_runCompensations env (fun e he => ?_) _))
    · have hmem := List.mem_reverse.1 he
      rw [← h.frame e (hunit.undisposed e (List.mem_append_left _ hmem))]
      exact quiet_recordRaise env (quiet_replay env e t)
    · have hmem := List.mem_reverse.1 he
      exact ⟨h.frame e (hunit.undisposed e (List.mem_append_right _ hmem)),
        h.offsets e (hunit.compensations e hmem)⟩

/-- What is known of a settlement later on: it did what it should, and no disposition of its
entries was added since. -/
structure Done (i : Nat) (s : Process) (r : UnitRun) : Prop where
  halted : r.before.halted = true → r.after = r.before
  settled : r.before.halted = false → Settled i r.scope r.before r.after
  sorted : r.scope.transactional.Pairwise (·.stamp < ·.stamp) ∧
    r.scope.compensations.Pairwise (·.stamp < ·.stamp)
  away : r.before.halted = false → ∀ e ∈ r.scope.entries,
    e ∉ s.undisposed i ∧ e.frame = i ∧ e.stamp < s.nextStamp ∧ s.counts e = r.after.counts e

/-- What holds between the steps of nested calls. -/
structure Nested (i : Nat) (c : Calls) : Prop where
  enrolling : Enrolling i c.process
  transactional : ∀ sc ∈ c.scopes, ∀ e ∈ sc.transactional,
    e ∈ (c.process.frames i).deferredTransactional
  compensations : ∀ sc ∈ c.scopes, ∀ e ∈ sc.compensations,
    e ∈ (c.process.frames i).deferredCompensations
  nodup : (c.scopes.flatMap Scope.entries).Nodup
  sorted : ∀ sc ∈ c.scopes, sc.transactional.Pairwise (·.stamp < ·.stamp) ∧
    sc.compensations.Pairwise (·.stamp < ·.stamp)
  runs : ∀ r ∈ c.runs, Done i c.process r

theorem Nested.unitOf {i : Nat} {c : Calls} (h : Nested i c) {sc : Scope} (hsc : sc ∈ c.scopes) :
    UnitOf i sc c.process :=
  ⟨h.transactional sc hsc, h.compensations sc hsc, (List.nodup_flatMap.1 h.nodup).1 sc hsc⟩

theorem Nested.stamp_lt {i : Nat} {c : Calls} (h : Nested i c) {e : Entry}
    (he : e ∈ c.process.undisposed i) : e.stamp < c.process.nextStamp := by
  by_contra hle
  exact (h.enrolling.stamps e (h.enrolling.frame e he) (by omega)).1 he

/-- Leaving the innermost scope without a settlement. -/
theorem Nested.pop {i : Nat} {c : Calls} (h : Nested i c) {sc : Scope} {rest : List Scope}
    (hsc : c.scopes = sc :: rest) : Nested i { c with scopes := rest } where
  enrolling := h.enrolling
  transactional x hx := h.transactional x (hsc ▸ List.mem_cons_of_mem _ hx)
  compensations x hx := h.compensations x (hsc ▸ List.mem_cons_of_mem _ hx)
  nodup := by
    have hn := h.nodup
    rw [hsc, List.flatMap_cons] at hn
    exact (List.nodup_append.1 hn).2.1
  sorted x hx := h.sorted x (hsc ▸ List.mem_cons_of_mem _ hx)
  runs := h.runs

theorem counts_of_settled {i : Nat} {unit : Scope} {s t : Process} (h : Settled i unit s t)
    {x : Entry} (hx : x ∉ unit.entries) : t.counts x = s.counts x := by
  obtain ⟨inv, offs, hstarted, hinv, hoffs, -⟩ := h.started
  obtain ⟨hx₁, hx₂⟩ := not_or.1 fun hx' => hx (List.mem_append.2 hx')
  have hinv0 : inv.count x = 0 :=
    List.count_eq_zero.2 fun hin => hx₁ (List.mem_reverse.1 (hinv.subset hin))
  have hoffs0 : offs.count x = 0 :=
    List.count_eq_zero.2 fun hin => hx₂ (List.mem_reverse.1 (hoffs.subset hin))
  have hstart : t.marks.started.count x = s.marks.started.count x := by
    rw [hstarted, List.count_append, List.count_append, hinv0, hoffs0, Nat.add_zero]
  have htotal := h.others x hx
  unfold settledCount at htotal
  unfold counts
  rw [h.discharged, h.held] at htotal ⊢
  rw [hstart] at htotal ⊢
  have hpassed : t.marks.notAttempted.count x = s.marks.notAttempted.count x := by omega
  rw [hpassed]

/-- A failed unit is settled as its scope is left. -/
theorem Nested.settle {i : Nat} {c : Calls} (h : Nested i c) {sc : Scope} {rest : List Scope}
    (hsc : c.scopes = sc :: rest) (failure : Failure) :
    Nested i { c with
      process := c.process.unwindUnit env i sc
      scopes := rest
      runs := c.runs ++ [⟨sc, c.process, c.process.unwindUnit env i sc, failure⟩] } := by
  have hmem : sc ∈ c.scopes := hsc ▸ List.mem_cons_self
  have hunit := h.unitOf hmem
  have hparked := h.enrolling.toParked
  by_cases hh : c.process.halted = true
  · -- nothing runs under a halt
    have hsame : c.process.unwindUnit env i sc = c.process := by
      unfold unwindUnit
      rw [if_pos hh]
    rw [hsame]
    have hpop := h.pop hsc
    refine ⟨hpop.enrolling, hpop.transactional, hpop.compensations, hpop.nodup, hpop.sorted, ?_⟩
    intro r hr
    rcases List.mem_append.1 hr with hr | hr
    · exact h.runs r hr
    · rw [List.mem_singleton.1 hr]
      exact ⟨fun _ => rfl, fun hgo => Bool.noConfusion (hh.symm.trans hgo), h.sorted sc hmem,
        fun hgo => Bool.noConfusion (hh.symm.trans hgo)⟩
  rw [Bool.not_eq_true] at hh
  have ht := unwindUnit_spec env hparked hunit hh
  have hq := quiet_unwindUnit env hparked hunit
  have hmemu := mem_undisposed_without hparked hunit
  generalize c.process.unwindUnit env i sc = t at ht hq ⊢
  have hself : t.frames i = without sc (c.process.frames i) := by
    rw [ht.frames, updateFrame_self]
  have hu : ∀ x, x ∈ t.undisposed i ↔ x ∈ c.process.undisposed i ∧ x ∉ sc.entries := by
    intro x
    rw [← hmemu x]
    unfold undisposed
    rw [ht.frames]
  have hdisjoint : ∀ x ∈ rest, ∀ e ∈ x.entries, e ∉ sc.entries := by
    have hn := h.nodup
    rw [hsc, List.flatMap_cons] at hn
    intro x hx e he hin
    exact (List.nodup_append.1 hn).2.2 e hin e (List.mem_flatMap.2 ⟨x, hx, he⟩) rfl
  have hpop := h.pop hsc
  refine
    { enrolling := ⟨ht.parked hparked hunit, fun e he hle => ?_⟩
      transactional := fun x hx e he => ?_
      compensations := fun x hx e he => ?_
      nodup := hpop.nodup
      sorted := hpop.sorted
      runs := fun r hr => ?_ }
  · rw [hq.1.nextStamp] at hle
    obtain ⟨hnot, h0⟩ := h.enrolling.stamps e he hle
    refine ⟨fun hin => hnot ((hu e).1 hin).1, (ht.others e fun hin => ?_).trans h0⟩
    exact hnot (hunit.undisposed e hin)
  · rw [hself]
    refine List.mem_filter.2 ⟨hpop.transactional x hx e he, decide_eq_true fun hin => ?_⟩
    exact hdisjoint x hx e (List.mem_append_left _ he) (List.mem_append_left _ hin)
  · rw [hself]
    refine List.mem_filter.2 ⟨hpop.compensations x hx e he, decide_eq_true fun hin => ?_⟩
    exact hdisjoint x hx e (List.mem_append_right _ he) (List.mem_append_right _ hin)
  · rcases List.mem_append.1 hr with hr | hr
    · have hdone := h.runs r hr
      refine ⟨hdone.halted, hdone.settled, hdone.sorted, fun hgo e he => ?_⟩
      obtain ⟨hnot, hframe, hlt, hcounts⟩ := hdone.away hgo e he
      refine ⟨fun hin => hnot ((hu e).1 hin).1, hframe, by rwa [hq.1.nextStamp], ?_⟩
      rw [← hcounts]
      exact counts_of_settled ht fun hin => hnot (hunit.undisposed e hin)
    · rw [List.mem_singleton.1 hr]
      refine ⟨fun hhalt => Bool.noConfusion (hh.symm.trans hhalt), fun _ => ht, h.sorted sc hmem,
        fun _ e he => ?_⟩
      have hund := hunit.undisposed e he
      refine ⟨fun hin => ((hu e).1 hin).2 he, hparked.frame e hund, ?_, rfl⟩
      rw [hq.1.nextStamp]
      exact h.stamp_lt hund

/-- A parked entry joins the innermost scope. -/
theorem Nested.collect {i : Nat} {c : Calls} (h : Nested i c) {e : Entry}
    (htrans : e.kind = .transactional → e ∈ (c.process.frames i).deferredTransactional)
    (hcomp : e.kind = .compensation → e ∈ (c.process.frames i).deferredCompensations)
    (hnew : ∀ sc ∈ c.scopes, ∀ x ∈ sc.entries, x.stamp < e.stamp) :
    Nested i { c with scopes := Revl.Runtime.collect e c.scopes } := by
  cases hsc : c.scopes with
  | nil =>
    have heq : { c with scopes := Revl.Runtime.collect e [] } = c := by
      show { c with scopes := [] } = c
      rw [← hsc]
    rw [heq]
    exact h
  | cons sc rest =>
    have hmem : sc ∈ c.scopes := hsc ▸ List.mem_cons_self
    have hfresh : ∀ x ∈ c.scopes, e ∉ x.entries :=
      fun x hx hin => absurd (hnew x hx e hin) (Nat.lt_irrefl _)
    have hlast {l : List Entry} (hl : l.Pairwise (·.stamp < ·.stamp)) (hx : ∀ x ∈ l, x ∈ sc.entries) :
        (l ++ [e]).Pairwise (·.stamp < ·.stamp) :=
      List.pairwise_append.2 ⟨hl, List.pairwise_singleton _ e, fun x hxl y hy =>
        (List.mem_singleton.1 hy) ▸ hnew sc hmem x (hx x hxl)⟩
    show Nested i { c with scopes := sc.add e :: rest }
    refine
      { enrolling := h.enrolling
        transactional := fun x hx y hy => ?_
        compensations := fun x hx y hy => ?_
        nodup := ?_
        sorted := fun x hx => ?_
        runs := h.runs }
    · rcases List.mem_cons.1 hx with rfl | hx
      · cases hk : e.kind with
        | transactional =>
          simp only [Scope.add, hk, List.mem_append, List.mem_singleton] at hy
          rcases hy with hy | rfl
          · exact h.transactional sc hmem y hy
          · exact htrans hk
        | compensation =>
          simp only [Scope.add, hk] at hy
          exact h.transactional sc hmem y hy
      · exact h.transactional x (hsc ▸ List.mem_cons_of_mem _ hx) y hy
    · rcases List.mem_cons.1 hx with rfl | hx
      · cases hk : e.kind with
        | transactional =>
          simp only [Scope.add, hk] at hy
          exact h.compensations sc hmem y hy
        | compensation =>
          simp only [Scope.add, hk, List.mem_append, List.mem_singleton] at hy
          rcases hy with hy | rfl
          · exact h.compensations sc hmem y hy
          · exact hcomp hk
      · exact h.compensations x (hsc ▸ List.mem_cons_of_mem _ hx) y hy
    · have hn := h.nodup
      rw [hsc, List.flatMap_cons] at hn
      have hperm : (sc.add e).entries.Perm (e :: sc.entries) := by
        unfold Scope.add Scope.entries
        rw [List.perm_iff_count]
        intro x
        cases e.kind <;> simp [List.count_append, List.count_cons] <;> omega
      show (((sc.add e) :: rest).flatMap Scope.entries).Nodup
      rw [List.flatMap_cons, (hperm.append_right _).nodup_iff, List.cons_append, List.nodup_cons]
      refine ⟨fun hin => ?_, hn⟩
      rcases List.mem_append.1 hin with hin | hin
      · exact hfresh sc hmem hin
      · obtain ⟨x, hx, hin⟩ := List.mem_flatMap.1 hin
        exact hfresh x (hsc ▸ List.mem_cons_of_mem _ hx) hin
    · rcases List.mem_cons.1 hx with rfl | hx
      · obtain ⟨ht, hc⟩ := h.sorted sc hmem
        cases hk : e.kind <;> simp only [Scope.add, hk]
        · exact ⟨hlast ht fun x hx => List.mem_append_left _ hx, hc⟩
        · exact ⟨ht, hlast hc fun x hx => List.mem_append_right _ hx⟩
      · exact h.sorted x (hsc ▸ List.mem_cons_of_mem _ hx)

/-- What a registration leaves of the frame, when it is not refused. -/
theorem register_cases (i : Nat) (seam : Seam) (r : Registration) (s : Process) :
    (s.register env i seam r).marks = s.marks ∧
      (((s.register env i seam r).halted = true ∧
          (s.register env i seam r).frames = s.frames ∧
          (s.register env i seam r).nextStamp = s.nextStamp) ∨
        (s.register env i seam r).halted = false ∧
          (s.register env i seam r).frames =
            (s.updateFrame i (Frame.push seam ((s.poll env).newEntry i r))).frames ∧
          (s.register env i seam r).nextStamp = s.nextStamp + 1) := by
  have hf := poll_frames env s
  have hm := poll_marks env s
  have hstamp := poll_nextStamp env s
  unfold Process.register
  dsimp only
  by_cases hh : (s.poll env).halted = true
  · rw [if_pos hh]
    exact ⟨hm, Or.inl ⟨hh, hf, hstamp⟩⟩
  · rw [if_neg hh]
    refine ⟨hm, Or.inr ⟨Bool.not_eq_true _ ▸ hh, ?_, congrArg (· + 1) hstamp⟩⟩
    show ((s.poll env).updateFrame i _).frames = _
    unfold updateFrame
    rw [hf]

theorem Nested.register {i : Nat} {c : Calls} (h : Nested i c) (seam : Seam) (r : Registration) :
    Nested i (registerCall env i seam r c) := by
  have henroll := h.enrolling.register env seam r
  obtain ⟨hmarks, hcases⟩ := register_cases env i seam r c.process
  unfold registerCall
  dsimp only
  generalize hs : c.process.register env i seam r = s at henroll hmarks hcases ⊢
  let e := (c.process.poll env).newEntry i r
  have hestamp : e.stamp = c.process.nextStamp := poll_nextStamp env c.process
  have hcounts : ∀ x, s.counts x = c.process.counts x := by
    intro x
    unfold counts
    rw [hmarks]
  rcases hcases with ⟨hh, hf, hstamp⟩ | ⟨hh, hf, hstamp⟩
  · rw [if_pos hh]
    have hu : s.undisposed i = c.process.undisposed i := by
      unfold undisposed
      rw [hf]
    exact
      { enrolling := henroll
        transactional := fun x hx y hy => hf ▸ h.transactional x hx y hy
        compensations := fun x hx y hy => hf ▸ h.compensations x hx y hy
        nodup := h.nodup
        sorted := h.sorted
        runs := fun r hr => by
          have hdone := h.runs r hr
          refine ⟨hdone.halted, hdone.settled, hdone.sorted, fun hgo x hx => ?_⟩
          obtain ⟨hnot, hframe, hlt, hsame⟩ := hdone.away hgo x hx
          exact ⟨hu ▸ hnot, hframe, hstamp ▸ hlt, (hcounts x).trans hsame⟩ }
  · rw [if_neg (by simp [hh])]
    have hself : s.frames i = Frame.push seam e (c.process.frames i) := by
      rw [hf, updateFrame_self]
    have hperm : (s.undisposed i).Perm (e :: c.process.undisposed i) := by
      have hpush := (push_undisposed seam e i c.process).1
      unfold undisposed at hpush ⊢
      rw [hf]
      exact hpush
    have hgrows : ∀ x, (x ∈ (c.process.frames i).deferredTransactional →
          x ∈ (s.frames i).deferredTransactional) ∧
        (x ∈ (c.process.frames i).deferredCompensations →
          x ∈ (s.frames i).deferredCompensations) := by
      intro x
      rw [hself]
      cases seam <;> cases hk : e.kind <;> simp only [Frame.push, hk]
      · exact ⟨id, id⟩
      · exact ⟨id, id⟩
      · exact ⟨fun hx => List.mem_append_left _ hx, id⟩
      · exact ⟨id, fun hx => List.mem_append_left _ hx⟩
    -- the calls with the entry parked, and not yet in a scope
    have hnested : Nested i { c with process := s } :=
      { enrolling := henroll
        transactional := fun x hx y hy => (hgrows y).1 (h.transactional x hx y hy)
        compensations := fun x hx y hy => (hgrows y).2 (h.compensations x hx y hy)
        nodup := h.nodup
        sorted := h.sorted
        runs := fun r hr => by
          have hdone := h.runs r hr
          refine ⟨hdone.halted, hdone.settled, hdone.sorted, fun hgo x hx => ?_⟩
          obtain ⟨hnot, hframe, hlt, hsame⟩ := hdone.away hgo x hx
          refine ⟨fun hin => ?_, hframe, ?_, (hcounts x).trans hsame⟩
          · rcases List.mem_cons.1 (hperm.subset hin) with rfl | hin
            · omega
            · exact hnot hin
          · show x.stamp < s.nextStamp
            omega }
    cases seam with
    | body => exact hnested
    | method =>
      refine hnested.collect (e := e) (fun hk => ?_) (fun hk => ?_) fun sc hsc x hx => ?_
      · show e ∈ (s.frames i).deferredTransactional
        rw [hself]
        simp only [Frame.push, hk]
        exact List.mem_append_right _ (List.mem_singleton_self e)
      · show e ∈ (s.frames i).deferredCompensations
        rw [hself]
        simp only [Frame.push, hk]
        exact List.mem_append_right _ (List.mem_singleton_self e)
      · have hlt := h.stamp_lt ((h.unitOf hsc).undisposed x hx)
        omega

theorem nested_callStep {i : Nat} {c : Calls} (h : Nested i c) (op : CallOp) :
    Nested i (callStep env i c op) := by
  cases op with
  | enter settles =>
    show Nested i (if c.raising.isSome = true then c
      else { c with scopes := ⟨settles, [], []⟩ :: c.scopes })
    split
    · exact h
    · refine
        { enrolling := h.enrolling
          transactional := fun sc hsc e he => ?_
          compensations := fun sc hsc e he => ?_
          nodup := h.nodup
          sorted := fun sc hsc => ?_
          runs := h.runs }
      · rcases List.mem_cons.1 hsc with rfl | hsc
        · cases he
        · exact h.transactional sc hsc e he
      · rcases List.mem_cons.1 hsc with rfl | hsc
        · cases he
        · exact h.compensations sc hsc e he
      · rcases List.mem_cons.1 hsc with rfl | hsc
        · exact ⟨List.Pairwise.nil, List.Pairwise.nil⟩
        · exact h.sorted sc hsc
  | register seam r =>
    show Nested i (if c.raising.isSome = true then c else registerCall env i seam r c)
    split
    · exact h
    · exact h.register env seam r
  | raise id =>
    show Nested i (if c.raising.isSome = true then c else { c with raising := some (.raised id) })
    split
    · exact h
    · exact ⟨h.enrolling, h.transactional, h.compensations, h.nodup, h.sorted, h.runs⟩
  | handle => exact ⟨h.enrolling, h.transactional, h.compensations, h.nodup, h.sorted, h.runs⟩
  | exit =>
    show Nested i (leaveScope env i c)
    unfold leaveScope
    cases hsc : c.scopes with
    | nil => exact h
    | cons sc rest =>
      dsimp only
      split
      · exact h.settle env hsc _
      · exact h.pop hsc

theorem nested_runCalls (name : String) (owned log : Bool) (ops : List CallOp) :
    Nested 0 (runCalls env name owned log ops) := by
  suffices hrun : ∀ c, Nested 0 c → Nested 0 (ops.foldl (callStep env 0) c) from
    hrun _
      { enrolling := (start_registering name owned none log).enrolling
        transactional := fun _ hsc => (List.not_mem_nil hsc).elim
        compensations := fun _ hsc => (List.not_mem_nil hsc).elim
        nodup := List.nodup_nil
        sorted := fun _ hsc => (List.not_mem_nil hsc).elim
        runs := fun _ hr => (List.not_mem_nil hr).elim }
  induction ops with
  | nil => exact fun _ hc => hc
  | cons op ops ih => exact fun c hc => ih _ (nested_callStep env hc op)

/-! ## The frame afterwards -/

/-- Phase 2 at the bottom of the stack discharges and holds nothing. -/
theorem begin_flags (i : Nat) (s : Process) :
    (s.begin_ env i).marks.discharged = s.marks.discharged ∧
      (s.begin_ env i).marks.held = s.marks.held := by
  unfold begin_
  split
  · exact ⟨rfl, rfl⟩
  · exact runCompensations_flags env _ _

/-- An abort discharges and holds nothing. -/
theorem unwind_flags {i : Nat} {s : Process} (h : Parked i s) (hgo : (s.poll env).halted = false)
    (habort : (s.frames i).aborting = true) :
    (s.unwind env i).marks.discharged = s.marks.discharged ∧
      (s.unwind env i).marks.held = s.marks.held := by
  obtain ⟨-, hunwind, hmarks, -, hcommit, hown⟩ :=
    unwind_settle env h hgo (Or.inr (Or.inr habort))
  rw [habort, Bool.not_true] at hcommit
  let u := (s.poll env).settleBit i
  let l := (s.frames i).deferredTransactional.reverse ++
    (s.frames i).deferredCompensations.reverse
  let m := (s.frames i).stack.reverse
  have hk : Keeps u (l.foldl (fun s e => dispose env e s) u) :=
    keeps_foldl (fun t e => (dispose_settles env e t).keeps) l u
  have hmode : ∀ e ∈ l ++ m, u.holds e = false ∧ (u.frames e.frame).committed = false :=
    fun e he => ⟨(hown e he).2, h.frame e he ▸ hcommit⟩
  obtain ⟨-, hheld₁, hdischarged₁, -⟩ := foldl_flags (l := l) (s := u)
    (fun t e => dispose_settles env e t) fun e _ t _ => dispose_starts env e t
  obtain ⟨-, hheld₂, hdischarged₂, -⟩ := foldl_flags (l := m)
    (s := l.foldl (fun s e => dispose env e s) u)
    (fun t e => guarded_settles env e t) fun e _ t _ => guarded_starts env e t
  simp only [hk.holds, hk.committed] at hheld₂ hdischarged₂
  obtain ⟨hdischarged₃, hheld₃⟩ := begin_flags env i
    (m.foldl (fun s e => guarded env e s) (l.foldl (fun s e => dispose env e s) u))
  rw [hunwind]
  constructor
  · rw [hdischarged₃, hdischarged₂ fun e he => Or.inr (hmode e (List.mem_append_right l he)).2,
      hdischarged₁ fun e he => Or.inr (hmode e (List.mem_append_left m he)).2, hmarks]
  · rw [hheld₃, hheld₂ fun e he => (hmode e (List.mem_append_right l he)).1,
      hheld₁ fun e he => (hmode e (List.mem_append_left m he)).1, hmarks]

/-- **A teardown changes no flag of an entry that is not its own.** -/
theorem Parked.unwind_counts {i : Nat} {s : Process} (h : Parked i s) {x : Entry}
    (hx : x ∉ s.undisposed i) : (s.unwind env i).counts x = s.counts x := by
  have htotal := (h.unwind_disposed env).others x hx
  simp only [settledCount] at htotal
  by_cases hh : (s.poll env).halted = true
  · unfold counts
    rw [(unwind_halted env h hh).2.2]
  rw [Bool.not_eq_true] at hh
  cases habort : (s.frames i).aborting with
  | true =>
    -- what an abort starts is its own
    obtain ⟨-, inv, offs, hstarted, hinv, hoffs, -⟩ := unwind_abort env h hh habort
    obtain ⟨hdischarged, hheld⟩ := unwind_flags env h hh habort
    have hinv0 : inv.count x = 0 :=
      List.count_eq_zero.2 fun hin => hx (List.mem_of_mem_filter (hinv.subset hin))
    have hoffs0 : offs.count x = 0 :=
      List.count_eq_zero.2 fun hin => hx (List.mem_of_mem_filter (hoffs.subset hin))
    rw [hstarted, List.count_append, List.count_append, hinv0, hoffs0, hdischarged, hheld] at htotal
    simp only [counts, Prod.mk.injEq, hstarted, List.count_append, hinv0, hoffs0, hdischarged,
      hheld, true_and, and_true]
    omega
  | false =>
    by_cases hmode : s.owned = false ∨ s.verdict ≠ none
    · obtain ⟨-, hstarted, hpassed, hheld, -⟩ := unwind_commit env h hh hmode habort
      rw [hstarted, hpassed, hheld] at htotal
      simp only [counts, Prod.mk.injEq, hstarted, hpassed, hheld, and_true]
      omega
    · simp only [not_or, Bool.not_eq_false, ne_eq, not_not] at hmode
      obtain ⟨-, hmarks, -⟩ := unwind_withdraw env h hh hmode.1 hmode.2 habort
      have hdischarged : (s.unwind env i).marks.discharged = s.marks.discharged := by rw [hmarks]
      have hstarted : (s.unwind env i).marks.started = s.marks.started := by rw [hmarks]
      have hpassed : (s.unwind env i).marks.notAttempted = s.marks.notAttempted := by rw [hmarks]
      rw [hdischarged, hstarted, hpassed] at htotal
      simp only [counts, Prod.mk.injEq, hdischarged, hstarted, hpassed, true_and]
      omega

/-- The frame as it is torn down later on, under any verdict and aborting or not. -/
def later (verdict : Option Verdict) (aborting : Bool) (i : Nat) (s : Process) : Process :=
  if aborting then { s with verdict := verdict }.abort i else { s with verdict := verdict }

theorem Parked.later {i : Nat} {s : Process} (h : Parked i s) (verdict : Option Verdict)
    (aborting : Bool) : Parked i (s.later verdict aborting i) := by
  have hv : Parked i { s with verdict := verdict } :=
    ⟨h.built, h.nodup, h.registered, h.frame, h.inverses, h.offsets, h.pending, h.committed,
      h.holding, h.fresh, h.inventory⟩
  cases aborting with
  | true => exact hv.abort
  | false => exact hv

theorem later_undisposed (verdict : Option Verdict) (aborting : Bool) (i : Nat) (s : Process) :
    (s.later verdict aborting i).undisposed i = s.undisposed i := by
  cases aborting with
  | true => simp only [later, undisposed, Process.abort, updateFrame_self, if_true]
  | false => rfl

theorem later_counts (verdict : Option Verdict) (aborting : Bool) (i : Nat) (s : Process)
    (e : Entry) : (s.later verdict aborting i).counts e = s.counts e := by
  cases aborting <;> rfl

end Process

open Process

/-- A unit with one entry that fails. -/
def failingUnit (r : Registration) : List CallOp :=
  [.enter true, .register .method r, .raise 1, .exit]

end Revl.Runtime
