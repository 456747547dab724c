import Revl.Fork.Live

/-!
# The two unwinds of a timeline (`replay.py`)

`step_back` and `_step_back_scoped` walk the steps above `k` newest first, call the disposers that
their mode may run and report what came of each. A recorded disposer is called once only, whoever
calls it first. A fork enumerates with `partition_tail` what its rewind is about to do.

- `stepBackVisit`, `scopedVisit`: one step of each walk.
- `stepBackWalk_timeline`, `scopedWalk_timeline`: the walks do to the timeline what `unwind` and
  `scopedRewind` say.
- `Event`, `Unwound.run`: unwinds and disposals on one timeline, in any order.
- `rewind_exact`: **when a fork enumerates what its rewind does**.
-/

namespace Revl.Fork

/-! ## Walks -/

/-- What `step_back` reports of the steps it went over. -/
structure StepBackReport where
  inversesRan : List LiveStep
  compensationsRan : List LiveStep
  emissionsCompensated : List LiveStep
  emissionsCrossed : List LiveStep
  failed : List LiveStep

/-- What `_step_back_scoped` reports of the steps it went over. -/
structure ScopedReport where
  inversesRan : List ScopedEntry
  provisionsWithdrawn : List ScopedEntry
  emissionsCrossed : List EmissionEntry
  emissionsCompensated : List EmissionEntry
  wouldCrossOnRewind : List WouldCrossEntry
  unrestored : List UnrestoredEntry
  failed : List ScopedEntry

/-- A walk under way: the timeline, the steps whose disposer was called, and the report so far. -/
structure Walk (R : Type) where
  timeline : LiveTimeline
  called : List LiveStep
  report : R

namespace LiveStep

/-- Whether the scoped rewind may run the inverse of a step: a provision, or an effect whose scope
stays on the host. -/
def confined (s : LiveStep) : Bool :=
  s.kind = .provision || s.kind = .effect && scopeHostConfined s.scope

/-- What a walk that runs the inverses of the steps `p` does to a step. -/
def walked (p : LiveStep → Bool) (s : LiveStep) : LiveStep :=
  if s.kind = .emission then { s with crossed := true }
  else if p s then { s with undone := true } else s

end LiveStep

namespace LiveTimeline

/-- `step.crossed = True` -/
def cross (tl : LiveTimeline) (i : Nat) : LiveTimeline :=
  tl.mapSteps (fun s => if s.index = i then { s with crossed := true } else s)
    fun s => by split <;> rfl

/-- The steps above `k`, newest first. -/
def tail (tl : LiveTimeline) (k : Int) : List LiveStep :=
  (tl.steps.filter fun s => k < s.index).reverse

end LiveTimeline

namespace Walk

variable {R : Type}

/-- `_once` on a step that is not undone: it is marked, then the disposer is called. -/
def call (w : Walk R) (s : LiveStep) : Walk R :=
  { w with timeline := w.timeline.undo s.index, called := w.called ++ [s] }

def cross (w : Walk R) (s : LiveStep) : Walk R :=
  { w with timeline := w.timeline.cross s.index }

def note (w : Walk R) (f : R → R) : Walk R := { w with report := f w.report }

end Walk

/-- One step of `step_back`; `raises` says whether calling a disposer raises. -/
def stepBackVisit (raises : LiveStep → Bool) (w : Walk StepBackReport) (s : LiveStep) :
    Walk StepBackReport :=
  if s.kind = .emission then
    let shown := { s with crossed := true }
    if s.compensation.isSome then
      (w.cross s).note fun r => { r with emissionsCompensated := r.emissionsCompensated ++ [shown] }
    else (w.cross s).note fun r => { r with emissionsCrossed := r.emissionsCrossed ++ [shown] }
  else if s.kind = .boundary ∨ s.kind = .hinge ∨ s.revertible = false then w
  else if s.undone then w
  else
    let shown := { s with undone := true }
    if raises s then (w.call s).note fun r => { r with failed := r.failed ++ [shown] }
    else if s.kind = .compensation then
      (w.call s).note fun r => { r with compensationsRan := r.compensationsRan ++ [shown] }
    else (w.call s).note fun r => { r with inversesRan := r.inversesRan ++ [shown] }

/-- `step_back`, once it was not refused. -/
def stepBackWalk (raises : LiveStep → Bool) (tl : LiveTimeline) (k : Int) : Walk StepBackReport :=
  (tl.tail k).foldl (stepBackVisit raises) ⟨tl, [], ⟨[], [], [], [], []⟩⟩

/-- One step of `_step_back_scoped`. -/
def scopedVisit (raises : LiveStep → Bool) (w : Walk ScopedReport) (s : LiveStep) :
    Walk ScopedReport :=
  let wouldCross := w.note fun r =>
    { r with wouldCrossOnRewind := r.wouldCrossOnRewind ++ [s.wouldCrossEntry] }
  let rewind :=
    if s.revertible = false ∨ s.undone then w
    else if raises s then (w.call s).note fun r => { r with failed := r.failed ++ [s.scopedEntry] }
    else if s.kind = .provision then
      (w.call s).note fun r =>
        { r with provisionsWithdrawn := r.provisionsWithdrawn ++ [s.scopedEntry] }
    else (w.call s).note fun r => { r with inversesRan := r.inversesRan ++ [s.scopedEntry] }
  match s.kind with
  | .emission =>
    if s.compensation.isSome then
      (w.cross s).note fun r =>
        { r with emissionsCompensated := r.emissionsCompensated ++ [s.emissionEntry] }
    else
      (w.cross s).note fun r =>
        { r with emissionsCrossed := r.emissionsCrossed ++ [s.emissionEntry] }
  | .compensation => wouldCross
  | .boundary | .hinge => w
  | .opaqueDisposer =>
    w.note fun r => { r with unrestored := r.unrestored ++ [s.unrestoredEntry] }
  | .provision => rewind
  | .effect => if scopeHostConfined s.scope then rewind else wouldCross

/-- `_step_back_scoped` -/
def scopedWalk (raises : LiveStep → Bool) (tl : LiveTimeline) (k : Int) : Walk ScopedReport :=
  (tl.tail k).foldl (scopedVisit raises) ⟨tl, [], ⟨[], [], [], [], [], [], []⟩⟩

/-! ## What a walk collects -/

/-- A list that each step of a walk extends by at most one entry. -/
theorem foldl_collect {W α β : Type} {visit : W → α → W} (get : W → List β) (p : α → Bool)
    (g : α → β) (hvisit : ∀ w s, get (visit w s) = get w ++ if p s then [g s] else []) (l : List α)
    (w : W) : get (l.foldl visit w) = get w ++ (l.filter p).map g := by
  induction l generalizing w with
  | nil => simp
  | cons s l ih =>
    rw [List.foldl_cons, ih, hvisit, List.append_assoc, List.filter_cons]
    cases p s <;> simp

namespace LiveStep

/-- The steps whose disposer `step_back` calls. -/
def attempted (s : LiveStep) : Bool := s.revertible && !s.undone

/-- The steps whose disposer the scoped rewind calls. -/
def scopedAttempted (s : LiveStep) : Bool := s.confined && !s.undone

theorem revertible_of_confined {s : LiveStep} (h : s.confined = true) : s.revertible = true := by
  unfold confined at h
  unfold revertible
  rcases Bool.or_eq_true_iff.mp h with hprovision | heffect
  · simp [of_decide_eq_true hprovision]
  · simp [of_decide_eq_true (Bool.and_eq_true_iff.mp heffect).1]

theorem confined_iff (s : LiveStep) :
    s.confined = true ↔ s.bucket = some .hostConfined ∨ s.bucket = some .provisions := by
  unfold confined bucket bucketOf
  cases hkind : s.kind <;> cases hscope : scopeHostConfined s.scope <;>
    cases hcomp : s.compensation.isSome <;> simp

end LiveStep

variable (raises : LiveStep → Bool)

theorem stepBackVisit_called (w : Walk StepBackReport) (s : LiveStep) :
    (stepBackVisit raises w s).called = w.called ++ if s.attempted then [id s] else [] := by
  unfold stepBackVisit LiveStep.attempted LiveStep.revertible
  cases hkind : s.kind <;> cases hundone : s.undone <;> cases hraises : raises s <;>
    cases hcomp : s.compensation.isSome <;> simp [Walk.call, Walk.cross, Walk.note]

theorem scopedVisit_called (w : Walk ScopedReport) (s : LiveStep) :
    (scopedVisit raises w s).called = w.called ++ if s.scopedAttempted then [id s] else [] := by
  unfold scopedVisit LiveStep.scopedAttempted LiveStep.confined LiveStep.revertible
  cases hkind : s.kind <;> cases hundone : s.undone <;> cases hraises : raises s <;>
    cases hscope : scopeHostConfined s.scope <;> cases hcomp : s.compensation.isSome <;>
    simp [Walk.call, Walk.cross, Walk.note]

/-- `step_back` calls the disposers of the tail that were not called before, newest first. -/
theorem stepBackWalk_called (tl : LiveTimeline) (k : Int) :
    (stepBackWalk raises tl k).called = (tl.tail k).filter (·.attempted) := by
  have h := foldl_collect (fun w : Walk StepBackReport => w.called) (·.attempted) id
    (stepBackVisit_called raises) (tl.tail k) ⟨tl, [], ⟨[], [], [], [], []⟩⟩
  rw [stepBackWalk, h, List.nil_append, List.map_id]

/-- The scoped rewind calls those of them that stay on the host. -/
theorem scopedWalk_called (tl : LiveTimeline) (k : Int) :
    (scopedWalk raises tl k).called = (tl.tail k).filter (·.scopedAttempted) := by
  have h := foldl_collect (fun w : Walk ScopedReport => w.called) (·.scopedAttempted) id
    (scopedVisit_called raises) (tl.tail k) ⟨tl, [], ⟨[], [], [], [], [], [], []⟩⟩
  rw [scopedWalk, h, List.nil_append, List.map_id]

/-! ## What a walk does to the timeline -/

namespace LiveTimeline

@[ext] theorem ext {tl tl' : LiveTimeline} (h : tl.steps = tl'.steps) : tl = tl' := by
  cases tl
  cases tl'
  subst h
  rfl

theorem mem_tail {tl : LiveTimeline} {k : Int} {s : LiveStep} :
    s ∈ tl.tail k ↔ s ∈ tl.steps ∧ k < s.index := by
  rw [tail, List.mem_reverse, List.mem_filter, decide_eq_true_eq]

/-- The steps stand in the order of their indices. -/
theorem pairwise_index (tl : LiveTimeline) : tl.steps.Pairwise (·.index < ·.index) := by
  rw [List.pairwise_iff_getElem]
  intro i j hi hj hij
  rw [tl.numbered i _ (List.getElem?_eq_getElem hi), tl.numbered j _ (List.getElem?_eq_getElem hj)]
  exact hij

/-- The tail is walked newest first. -/
theorem tail_pairwise (tl : LiveTimeline) (k : Int) :
    (tl.tail k).Pairwise (·.index > ·.index) := by
  rw [tail, List.pairwise_reverse]
  exact tl.pairwise_index.filter _

/-- A walk that does at each of some steps what `mark` does to it, each looked at before it is
changed. -/
theorem foldl_mark {R : Type} {visit : Walk R → LiveStep → Walk R} (mark : LiveStep → LiveStep)
    (hmark : ∀ s, (mark s).index = s.index)
    (hvisit : ∀ (w : Walk R) (s : LiveStep), w.timeline.steps[s.index]? = some s →
      (visit w s).timeline.steps =
        w.timeline.steps.map fun t => if t.index = s.index then mark t else t)
    (l : List LiveStep) (hl : l.Pairwise (·.index > ·.index)) (w : Walk R)
    (hw : ∀ s ∈ l, w.timeline.steps[s.index]? = some s) :
    (l.foldl visit w).timeline.steps =
      w.timeline.steps.map fun t => if t.index ∈ l.map (·.index) then mark t else t := by
  induction l generalizing w with
  | nil => simp
  | cons s l ih =>
    obtain ⟨hs, hl⟩ := List.pairwise_cons.mp hl
    have hstep := hvisit w s (hw s List.mem_cons_self)
    rw [List.foldl_cons, ih hl (visit w s), hstep, List.map_map]
    · refine List.map_congr_left fun t _ => ?_
      simp only [Function.comp_apply, List.map_cons, List.mem_cons]
      by_cases ht : t.index = s.index
      · -- the step itself is not met again
        have hnot : s.index ∉ l.map (·.index) := by
          intro hmem
          obtain ⟨s', hs', hindex⟩ := List.mem_map.mp hmem
          have := hs s' hs'
          omega
        rw [if_pos ht, hmark, if_neg (ht ▸ hnot), if_pos (.inl ht)]
      · rw [if_neg ht]
        simp [ht]
    · intro s' hs'
      have hne : s'.index ≠ s.index := by
        have := hs s' hs'
        omega
      rw [hstep, List.getElem?_map, hw s' (List.mem_cons_of_mem _ hs'), Option.map_some, if_neg hne]

end LiveTimeline

namespace LiveStep

theorem index_walked (p : LiveStep → Bool) (s : LiveStep) : (s.walked p).index = s.index := by
  unfold walked
  split
  · rfl
  · split <;> rfl

theorem kind_of_revertible {s : LiveStep} (h : s.revertible = true) : s.kind ≠ .emission := by
  intro hkind
  simp [revertible, hkind] at h

end LiveStep

namespace LiveTimeline

/-- A change of one step, on a timeline that has it. -/
theorem mapSteps_index (tl : LiveTimeline) {s : LiveStep} (hs : tl.steps[s.index]? = some s)
    (f g : LiveStep → LiveStep) (h : f s = g s) :
    (tl.steps.map fun t => if t.index = s.index then f t else t) =
      tl.steps.map fun t => if t.index = s.index then g t else t := by
  refine List.map_congr_left fun t ht => ?_
  split
  · rename_i hindex
    have hts : some t = some s := by rw [← getElem?_index ht, hindex, hs]
    rw [Option.some.inj hts, h]
  · rfl

/-- A change of one step that leaves it as it is. -/
theorem mapSteps_id (tl : LiveTimeline) {s : LiveStep} (hs : tl.steps[s.index]? = some s)
    (g : LiveStep → LiveStep) (h : g s = s) :
    (tl.steps.map fun t => if t.index = s.index then g t else t) = tl.steps := by
  rw [tl.mapSteps_index hs g id h]
  simp

end LiveTimeline

section Walked
variable {p : LiveStep → Bool} (tl : LiveTimeline) {s : LiveStep}
  (hs : tl.steps[s.index]? = some s)
include hs

theorem undo_walked (hrev : s.revertible = true) (hp : p s = true) :
    (tl.undo s.index).steps =
      tl.steps.map fun t => if t.index = s.index then t.walked p else t := by
  rw [← tl.mapSteps_index hs (fun t => if t.revertible then { t with undone := true } else t) _
    (by simp [LiveStep.walked, hrev, hp, LiveStep.kind_of_revertible hrev])]
  refine List.map_congr_left fun t _ => ?_
  by_cases ht : t.index = s.index <;> simp [ht]

theorem cross_walked (hkind : s.kind = .emission) :
    (tl.cross s.index).steps = tl.steps.map fun t => if t.index = s.index then t.walked p else t :=
  tl.mapSteps_index hs (fun t => { t with crossed := true }) _ (by simp [LiveStep.walked, hkind])

theorem stay_walked (h : s.walked p = s) :
    tl.steps = tl.steps.map fun t => if t.index = s.index then t.walked p else t :=
  (tl.mapSteps_id hs _ h).symm

end Walked

theorem stepBackVisit_steps (w : Walk StepBackReport) (s : LiveStep)
    (hs : w.timeline.steps[s.index]? = some s) :
    (stepBackVisit raises w s).timeline.steps =
      w.timeline.steps.map fun t =>
        if t.index = s.index then t.walked LiveStep.revertible else t := by
  unfold stepBackVisit
  split
  · rename_i hkind
    split <;> exact cross_walked _ hs hkind
  · rename_i hkind
    split
    · rename_i hnone
      refine stay_walked _ hs ?_
      rw [LiveStep.walked, if_neg hkind, if_neg]
      rcases hnone with h | h | h <;> simp [LiveStep.revertible, h] at *
      simp [h]
    · rename_i hsome
      have hrev : s.revertible = true := by
        simp only [not_or, Bool.not_eq_false] at hsome
        exact hsome.2.2
      split
      · rename_i hundone
        refine stay_walked _ hs ?_
        rw [LiveStep.walked, if_neg hkind, if_pos hrev, ← hundone]
      · split
        · exact undo_walked _ hs hrev hrev
        · split <;> exact undo_walked _ hs hrev hrev

theorem scopedVisit_steps (w : Walk ScopedReport) (s : LiveStep)
    (hs : w.timeline.steps[s.index]? = some s) :
    (scopedVisit raises w s).timeline.steps =
      w.timeline.steps.map fun t =>
        if t.index = s.index then t.walked LiveStep.confined else t := by
  have hrewind : s.confined = true → ∀ f g h : ScopedReport → ScopedReport,
      (if s.revertible = false ∨ s.undone then w
        else if raises s then (w.call s).note f
        else if s.kind = .provision then (w.call s).note g
        else (w.call s).note h).timeline.steps =
      w.timeline.steps.map fun t =>
        if t.index = s.index then t.walked LiveStep.confined else t := by
    intro hconf f g h
    have hrev := LiveStep.revertible_of_confined hconf
    split
    · rename_i hdone
      have hundone : s.undone = true := hdone.resolve_left (by simp [hrev])
      refine stay_walked _ hs ?_
      rw [LiveStep.walked, if_neg (LiveStep.kind_of_revertible hrev), if_pos hconf, ← hundone]
    · split
      · exact undo_walked _ hs hrev hconf
      · split <;> exact undo_walked _ hs hrev hconf
  cases hkind : s.kind with
  | emission =>
    simp only [scopedVisit, hkind]
    split <;> exact cross_walked _ hs hkind
  | provision =>
    simp only [scopedVisit, hkind]
    have := hrewind (by simp [LiveStep.confined, hkind])
    simp only [hkind] at this
    exact this _ _ _
  | effect =>
    simp only [scopedVisit, hkind]
    split
    · rename_i hscope
      have := hrewind (by simp [LiveStep.confined, hkind, hscope])
      simp only [hkind] at this
      exact this _ _ _
    · rename_i hscope
      exact stay_walked _ hs (by simp [LiveStep.walked, LiveStep.confined, hkind, hscope])
  | _ =>
    simp only [scopedVisit, hkind]
    exact stay_walked _ hs (by simp [LiveStep.walked, LiveStep.confined, hkind])

namespace LiveTimeline

theorem mem_tail_index {tl : LiveTimeline} {k : Int} {t : LiveStep} (ht : t ∈ tl.steps) :
    t.index ∈ (tl.tail k).map (·.index) ↔ k < t.index := by
  rw [List.mem_map]
  constructor
  · rintro ⟨s, hs, hindex⟩
    exact hindex ▸ (mem_tail.mp hs).2
  · exact fun hk => ⟨t, mem_tail.mpr ⟨ht, hk⟩, rfl⟩

end LiveTimeline

/-- **The walk of a step back** leaves the timeline that `unwind` says. -/
theorem stepBackWalk_timeline (tl : LiveTimeline) (k : Int) :
    (stepBackWalk raises tl k).timeline = tl.unwind k := by
  refine LiveTimeline.ext ?_
  rw [stepBackWalk, LiveTimeline.foldl_mark _ (LiveStep.index_walked _)
    (stepBackVisit_steps raises) _ (tl.tail_pairwise k) _
    fun s hs => LiveTimeline.getElem?_index (LiveTimeline.mem_tail.mp hs).1]
  refine List.map_congr_left fun t ht => ?_
  simp only [LiveTimeline.mem_tail_index ht, LiveStep.walked]

/-- **The walk of a scoped rewind** leaves the timeline that `scopedRewind` says. -/
theorem scopedWalk_timeline (tl : LiveTimeline) (k : Int) :
    (scopedWalk raises tl k).timeline = tl.scopedRewind k := by
  refine LiveTimeline.ext ?_
  rw [scopedWalk, LiveTimeline.foldl_mark _ (LiveStep.index_walked _)
    (scopedVisit_steps raises) _ (tl.tail_pairwise k) _
    fun s hs => LiveTimeline.getElem?_index (LiveTimeline.mem_tail.mp hs).1]
  refine List.map_congr_left fun t ht => ?_
  simp only [LiveTimeline.mem_tail_index ht, LiveStep.walked, LiveStep.confined_iff]

/-! ## What a fork enumerates -/

theorem mem_bucket_tail (tl : LiveTimeline) (k : Int) (b : Bucket) :
    tl.bucket k b = (tl.tail k).filter fun s => s.bucket == some b := rfl

/-- The effects, and the provisions, that a rewind calls are the enumerated ones that were not
undone before. -/
theorem scopedWalk_bucket (tl : LiveTimeline) (k : Int) {kind : Kind} {b : Bucket}
    (hb : kind = .effect ∧ b = .hostConfined ∨ kind = .provision ∧ b = .provisions) :
    (scopedWalk raises tl k).called.filter (·.kind = kind) =
      (tl.bucket k b).filter fun s => !s.undone := by
  rw [scopedWalk_called, mem_bucket_tail, List.filter_filter, List.filter_filter]
  refine List.filter_congr fun s _ => ?_
  unfold LiveStep.scopedAttempted LiveStep.confined LiveStep.bucket bucketOf
  obtain ⟨rfl, rfl⟩ | ⟨rfl, rfl⟩ := hb <;> cases hkind : s.kind <;> cases hundone : s.undone <;>
    cases hscope : scopeHostConfined s.scope <;> cases hcomp : s.compensation.isSome <;> simp

/-- A rewind of a partitioned tail attempts the inverses and the provisions of the partition. -/
def Enumerates (tl : LiveTimeline) (component : String) (k : Int) (w : Walk ScopedReport) : Prop :=
  (w.called.filter (·.kind = .effect)).map (·.scopedEntry) =
      (tl.partitionTail component k).inversesRan ∧
    (w.called.filter (·.kind = .provision)).map (·.scopedEntry) =
      (tl.partitionTail component k).provisionsWithdrawn

instance (tl : LiveTimeline) (component : String) (k : Int) (w : Walk ScopedReport) :
    Decidable (Enumerates tl component k w) := inferInstanceAs (Decidable (_ ∧ _))

/-- A filter that loses nothing. -/
theorem map_filter_eq_map_iff {α β : Type} (p : α → Bool) (g : α → β) (l : List α) :
    (l.filter p).map g = l.map g ↔ ∀ a ∈ l, p a = true := by
  constructor
  · intro h
    have hlength := congrArg List.length h
    rw [List.length_map, List.length_map] at hlength
    exact List.length_filter_eq_length_iff.mp hlength
  · exact fun h => congrArg (List.map g) (List.filter_eq_self.mpr h)

/-- **A rewind does what was enumerated** when no inverse that it may run was started before. -/
theorem enumerates_iff (tl : LiveTimeline) (component : String) (k : Int) :
    Enumerates tl component k (scopedWalk raises tl k) ↔
      ∀ s ∈ tl.steps, k < s.index → s.confined = true → s.undone = false := by
  rw [Enumerates, scopedWalk_bucket raises tl k (.inl ⟨rfl, rfl⟩),
    scopedWalk_bucket raises tl k (.inr ⟨rfl, rfl⟩)]
  simp only [LiveTimeline.partitionTail]
  rw [map_filter_eq_map_iff, map_filter_eq_map_iff]
  simp only [LiveTimeline.mem_bucket, Bool.not_eq_true', and_imp]
  constructor
  · rintro ⟨heffects, hprovisions⟩ s hs hk hconf
    rcases s.confined_iff.mp hconf with hb | hb
    · exact heffects s hs hk hb
    · exact hprovisions s hs hk hb
  · intro h
    exact ⟨fun s hs hk hb => h s hs hk (s.confined_iff.mpr (.inl hb)),
      fun s hs hk hb => h s hs hk (s.confined_iff.mpr (.inr hb))⟩

/-! ## Runs of unwinds -/

/-- What unwinds a timeline, and what is recorded on it meanwhile. -/
inductive Unwind where
  | stepBack (k : Int) (force : Bool) (raises : LiveStep → Bool)
  | rewind (k : Int) (raises : LiveStep → Bool)
  /-- The activation's own teardown holds the same disposers. -/
  | dispose (i : Nat)
  | record (kind : Kind) (label : String) (site : Option String) (detail : Detail)
      (scope : Option Scope) (undoIdempotent : Option Bool)

/-- A timeline and the disposers that were called on it, in order. -/
structure Unwound where
  timeline : LiveTimeline
  called : List Nat

namespace Unwound

/-- What a walk leaves. -/
def after {R : Type} (r : Unwound) (w : Walk R) : Unwound :=
  ⟨w.timeline, r.called ++ w.called.map (·.index)⟩

def step (r : Unwound) : Unwind → Unwound
  | .stepBack k force raises =>
    if r.timeline.inBound k && (force || (r.timeline.blocking k).isEmpty) then
      r.after (stepBackWalk raises r.timeline k)
    else r
  | .rewind k raises =>
    if r.timeline.inBound k then r.after (scopedWalk raises r.timeline k) else r
  | .dispose i =>
    match r.timeline.steps[i]? with
    | some s => if s.attempted then ⟨r.timeline.undo i, r.called ++ [i]⟩ else r
    | none => r
  | .record kind label site detail scope undoIdempotent =>
    { r with timeline := r.timeline.add kind label site detail scope undoIdempotent }

def run (tl : LiveTimeline) (unwinds : List Unwind) : Unwound := unwinds.foldl step ⟨tl, []⟩

/-- Nothing was called twice, and what was called is marked. -/
structure Once (r : Unwound) : Prop where
  nodup : r.called.Nodup
  marked : ∀ i ∈ r.called, ∃ s ∈ r.timeline.steps, s.index = i ∧ s.undone = true

/-- Steps whose disposer was not called yet, called and marked. -/
theorem Once.extend {r : Unwound} (h : r.Once) {tl : LiveTimeline} {l : List LiveStep}
    (hl : l.Pairwise (·.index > ·.index))
    (hfresh : ∀ s ∈ l, s ∈ r.timeline.steps ∧ s.undone = false)
    (hkeep : ∀ s ∈ r.timeline.steps, s.undone = true ∨ s ∈ l →
      ∃ s' ∈ tl.steps, s'.index = s.index ∧ s'.undone = true) :
    Once ⟨tl, r.called ++ l.map (·.index)⟩ where
  nodup := by
    refine List.nodup_append.mpr ⟨h.nodup, ?_, ?_⟩
    · exact List.pairwise_map.mpr (hl.imp fun hlt => by omega)
    · intro i hi j hj hij
      obtain ⟨s, hs, hindex⟩ := List.mem_map.mp hj
      obtain ⟨s', hs', hindex', hundone⟩ := h.marked i hi
      have hsame : some s = some s' := by
        rw [← LiveTimeline.getElem?_index (hfresh s hs).1, ← LiveTimeline.getElem?_index hs',
          hindex, hindex', hij]
      rw [← Option.some.inj hsame, (hfresh s hs).2] at hundone
      cases hundone
  marked := by
    intro i hi
    rcases List.mem_append.mp hi with hi | hi
    · obtain ⟨s, hs, rfl, hundone⟩ := h.marked i hi
      exact hkeep s hs (.inl hundone)
    · obtain ⟨s, hs, rfl⟩ := List.mem_map.mp hi
      exact hkeep s (hfresh s hs).1 (.inr hs)

/-- A walk over the tail that calls the steps `p` that were not undone, and marks them. -/
theorem Once.walk {R : Type} {r : Unwound} (h : r.Once) {w : Walk R} {k : Int} (p : LiveStep → Bool)
    (hp : ∀ s : LiveStep, p s = true → s.revertible = true)
    (hcalled : w.called = (r.timeline.tail k).filter fun s => p s && !s.undone)
    (hsteps : w.timeline.steps =
      r.timeline.steps.map fun s => if k < s.index then s.walked p else s) :
    (r.after w).Once := by
  refine h.extend ?_ ?_ ?_
  · rw [hcalled]
    exact (r.timeline.tail_pairwise k).filter _
  · intro s hs
    rw [hcalled, List.mem_filter, Bool.and_eq_true, Bool.not_eq_true'] at hs
    exact ⟨(LiveTimeline.mem_tail.mp hs.1).1, hs.2.2⟩
  · intro s hs hor
    refine ⟨_, hsteps ▸ List.mem_map_of_mem hs, ?_, ?_⟩
    · split
      · exact s.index_walked p
      · rfl
    · rcases hor with hundone | hs
      · simp only [LiveStep.walked]
        split_ifs <;> first | exact hundone | rfl
      · rw [hcalled, List.mem_filter, Bool.and_eq_true] at hs
        rw [if_pos (LiveTimeline.mem_tail.mp hs.1).2, LiveStep.walked,
          if_neg (LiveStep.kind_of_revertible (hp s hs.2.1)), if_pos hs.2.1]

theorem Once.stepBack {r : Unwound} (h : r.Once) (raises : LiveStep → Bool) (k : Int) :
    (r.after (stepBackWalk raises r.timeline k)).Once :=
  h.walk _ (fun _ => id) (stepBackWalk_called raises r.timeline k)
    (congrArg LiveTimeline.steps (stepBackWalk_timeline raises r.timeline k))

theorem Once.rewind {r : Unwound} (h : r.Once) (raises : LiveStep → Bool) (k : Int) :
    (r.after (scopedWalk raises r.timeline k)).Once := by
  refine h.walk _ (fun _ => LiveStep.revertible_of_confined)
    (scopedWalk_called raises r.timeline k) ?_
  rw [scopedWalk_timeline]
  refine List.map_congr_left fun s _ => ?_
  simp only [LiveStep.walked, LiveStep.confined_iff]

theorem Once.dispose {r : Unwound} (h : r.Once) {i : Nat} {s : LiveStep}
    (hs : r.timeline.steps[i]? = some s) (hatt : s.attempted = true) :
    Once ⟨r.timeline.undo i, r.called ++ [i]⟩ := by
  have hindex := r.timeline.numbered i s hs
  have hundone : s.undone = false := by simpa using (Bool.and_eq_true_iff.mp hatt).2
  have hrev := (Bool.and_eq_true_iff.mp hatt).1
  have : Once ⟨r.timeline.undo i, r.called ++ [s].map (·.index)⟩ := h.extend
    (List.pairwise_singleton _ s)
    (fun t ht => by
      rw [List.mem_singleton.mp ht]
      exact ⟨List.mem_of_getElem? hs, hundone⟩)
    (fun t ht hor => by
      refine ⟨_, List.mem_map_of_mem ht, ?_, ?_⟩
      · split <;> rfl
      · split
        · rfl
        · rename_i hnot
          refine hor.resolve_right fun hmem => hnot ?_
          rw [List.mem_singleton.mp hmem]
          exact ⟨hindex, hrev⟩)
  rwa [List.map_singleton, hindex] at this

/-- One unwind keeps it. -/
theorem Once.step {r : Unwound} (h : r.Once) (u : Unwind) : (r.step u).Once := by
  cases u with
  | stepBack k force raises =>
    simp only [Unwound.step]
    split
    · exact h.stepBack raises k
    · exact h
  | rewind k raises =>
    simp only [Unwound.step]
    split
    · exact h.rewind raises k
    · exact h
  | dispose i =>
    simp only [Unwound.step]
    split
    · rename_i s hs
      split
      · rename_i hatt
        exact h.dispose hs hatt
      · exact h
    · exact h
  | record kind label site detail scope undoIdempotent =>
    refine ⟨h.nodup, fun i hi => ?_⟩
    obtain ⟨s, hs, hmark⟩ := h.marked i hi
    exact ⟨s, List.mem_append_left _ hs, hmark⟩

/-- **Over any run no disposer is called twice.** -/
theorem run_once (tl : LiveTimeline) (unwinds : List Unwind) : (run tl unwinds).Once := by
  induction unwinds using List.reverseRecOn with
  | nil => exact ⟨List.nodup_nil, fun i hi => absurd hi List.not_mem_nil⟩
  | append_singleton unwinds u ih =>
    rw [run, List.foldl_append]
    exact ih.step u

end Unwound

/-- After any run of unwinds, a rewind attempts what the partition of the tail enumerates exactly
when no inverse of the tail that stays on the host was started before; it attempts newest first, no
compensation and nothing that leaves the host, and no disposer of the timeline is ever called
twice. -/
theorem rewind_exact (tl : LiveTimeline) (unwinds : List Unwind) (component : String) (k : Int)
    (raises : LiveStep → Bool) :
    let r := Unwound.run tl unwinds
    let w := scopedWalk raises r.timeline k
    (Enumerates r.timeline component k w ↔
      ∀ s ∈ r.timeline.steps, k < s.index → s.confined = true → s.undone = false) ∧
    w.called.Pairwise (·.index > ·.index) ∧
    (∀ s ∈ w.called, s.kind ≠ .compensation ∧
      (s.kind = .effect → scopeHostConfined s.scope = true)) ∧
    (Unwound.run tl (unwinds ++ [.rewind k raises])).called.Nodup := by
  intro r w
  have hcalled : w.called = (r.timeline.tail k).filter (·.scopedAttempted) :=
    scopedWalk_called raises r.timeline k
  refine ⟨enumerates_iff raises r.timeline component k, ?_, fun s hs => ?_,
    (Unwound.run_once tl _).nodup⟩
  · rw [hcalled]
    exact (r.timeline.tail_pairwise k).filter _
  · rw [hcalled, List.mem_filter] at hs
    have hconf : s.confined = true := (Bool.and_eq_true_iff.mp hs.2).1
    unfold LiveStep.confined at hconf
    constructor
    · intro hkind
      simp [hkind] at hconf
    · intro hkind
      simpa [hkind] using hconf

/-- A file effect of an activation that was already stepped back over. -/
def undoneTail : List Unwind :=
  [.record .effect "ws/effect" none ⟨none, none, none, none, none, none, none⟩
    (some ⟨false, false, ["fs"]⟩) none, .stepBack (-1) false fun _ => false]

/-- A fork enumerates its inverse, and the rewind does not attempt it. -/
theorem enumerated_not_attempted :
    let r := Unwound.run LiveTimeline.empty undoneTail
    ¬ Enumerates r.timeline "Workspace" (-1)
      (scopedWalk (fun _ => false) r.timeline (-1)) := by
  decide

end Revl.Fork
