import Revl.Fork.Partition

/-!
# The live tail of a timeline (`replay.py`)

What a session fork reads of a timeline and what it does to it: the entries of the tail's partition,
the hazards that refuse a fork, and the rewind, which runs the inverses that stay on the host.

- `LiveStep`, `LiveTimeline`: a recorded step with what later events change in it.
- `stepBack`, `scopedRewind`, `started`: the two unwinds.
- `SameCore`, `Since`: what a timeline keeps of an earlier state of itself.
- `Since.eq_of_indices`: **a tail that keeps its indices in every bucket keeps its partition**.
-/

namespace Revl.Fork

/-! ## Steps and timelines -/

/-- `Step.detail` -/
structure Detail where
  key : Option String
  method : Option String
  service : Option String
  args : Option (List String)
  repr : Option String
  offsets : Option Nat
  producedBy : Option Nat
  deriving DecidableEq, Repr

/-- A step of a live timeline. `undone` says that its inverse was started, `crossed` that an unwind
stepped over it. -/
structure LiveStep where
  index : Nat
  kind : Kind
  label : String
  site : Option String
  detail : Detail
  scope : Option Scope
  undoIdempotent : Option Bool
  compensation : Option Nat
  undone : Bool
  crossed : Bool
  deriving DecidableEq, Repr

namespace LiveStep

/-- The recorder gives an inverse to a provision, an effect and a compensation. -/
def revertible (s : LiveStep) : Bool :=
  s.kind = .provision ∨ s.kind = .effect ∨ s.kind = .compensation

/-- The bucket of a step. -/
def bucket (s : LiveStep) : Option Bucket := bucketOf s.kind s.scope s.compensation.isSome

/-- The step as the partitions read it, its record at a position. -/
def toStep (seq : Nat) (s : LiveStep) : Step := ⟨s.index, s.kind, s.scope, s.compensation, seq⟩

end LiveStep

/-- The steps of a timeline, numbered by place. -/
structure LiveTimeline where
  steps : List LiveStep
  numbered : ∀ (i : Nat) (s : LiveStep), steps[i]? = some s → s.index = i

/-- The entry of an inverse that the rewind runs. -/
structure ScopedEntry where
  index : Nat
  kind : Kind
  label : String
  site : Option String
  scope : Option Scope
  deriving DecidableEq, Repr

/-- The entry of an emission. -/
structure EmissionEntry where
  index : Nat
  key : Option String
  method : Option String
  service : Option String
  args : Option (List String)
  site : Option String
  producedBy : Option Nat
  compensation : Option Nat
  deriving DecidableEq, Repr

/-- The entry of an inverse that would cross the boundary. -/
structure WouldCrossEntry where
  index : Nat
  kind : Kind
  label : String
  scope : Option Scope
  site : Option String
  offsets : Option Nat
  deriving DecidableEq, Repr

/-- The entry of a step that cannot be restored. -/
structure UnrestoredEntry where
  index : Nat
  kind : Kind
  label : String
  repr : Option String
  deriving DecidableEq, Repr

namespace LiveStep

/-- `_scoped_entry` -/
def scopedEntry (s : LiveStep) : ScopedEntry := ⟨s.index, s.kind, s.label, s.site, s.scope⟩

/-- `_emission_entry` -/
def emissionEntry (s : LiveStep) : EmissionEntry :=
  ⟨s.index, s.detail.key, s.detail.method, s.detail.service, s.detail.args, s.site,
    s.detail.producedBy, s.compensation⟩

/-- `_would_cross_entry`: only a compensation says what it offsets. -/
def wouldCrossEntry (s : LiveStep) : WouldCrossEntry :=
  ⟨s.index, s.kind, s.label, s.scope, s.site,
    if s.kind = .compensation then s.detail.offsets else none⟩

/-- `_unrestored_entry` -/
def unrestoredEntry (s : LiveStep) : UnrestoredEntry := ⟨s.index, s.kind, s.label, s.detail.repr⟩

end LiveStep

/-- What `partition_tail` returns. -/
structure TailPartition where
  component : String
  upTo : Int
  upToLabel : String
  inversesRan : List ScopedEntry
  provisionsWithdrawn : List ScopedEntry
  emissionsCrossed : List EmissionEntry
  emissionsCompensated : List EmissionEntry
  wouldCrossOnRewind : List WouldCrossEntry
  unrestored : List UnrestoredEntry
  deriving DecidableEq, Repr

namespace LiveTimeline

def empty : LiveTimeline := ⟨[], fun i s h => by simp at h⟩

/-- `_bound`: a step of the timeline, or `-1` for before every step. -/
def inBound (tl : LiveTimeline) (k : Int) : Bool := -1 ≤ k ∧ k < tl.steps.length

/-- `_classify_tail(k)`: the steps above `k` that fall in a bucket, newest first. -/
def bucket (tl : LiveTimeline) (k : Int) (b : Bucket) : List LiveStep :=
  (tl.steps.filter fun s => k < s.index).reverse.filter fun s => s.bucket == some b

/-- The label of a step, or what stands for before every step. -/
def labelAt (tl : LiveTimeline) (k : Int) : String :=
  if 0 ≤ k then (tl.steps[k.toNat]?.map (·.label)).getD "" else "(before activation)"

/-- `partition_tail` on a step in bound. -/
def partitionTail (tl : LiveTimeline) (component : String) (k : Int) : TailPartition where
  component := component
  upTo := k
  upToLabel := tl.labelAt k
  inversesRan := (tl.bucket k .hostConfined).map (·.scopedEntry)
  provisionsWithdrawn := (tl.bucket k .provisions).map (·.scopedEntry)
  emissionsCrossed := (tl.bucket k .crossed).map (·.emissionEntry)
  emissionsCompensated := (tl.bucket k .compensated).map (·.emissionEntry)
  wouldCrossOnRewind := (tl.bucket k .wouldCross).map (·.wouldCrossEntry)
  unrestored := (tl.bucket k .unrestored).map (·.unrestoredEntry)

/-- `fork_hazards`, `opaque`: the steps that no rewind restores. -/
def opaqueSteps (tl : LiveTimeline) (k : Int) : List UnrestoredEntry :=
  ((tl.bucket k .unrestored).filter (·.kind = .opaqueDisposer)).map (·.unrestoredEntry)

/-- `fork_hazards`, `nonIdempotent`: the inverses the rewind would run that are declared not to be
idempotent. -/
def nonIdempotent (tl : LiveTimeline) (k : Int) : List ScopedEntry :=
  ((tl.bucket k .hostConfined).filter (·.undoIdempotent = some false)).map (·.scopedEntry)

/-- Every step changed where it stands, none renumbered. -/
def mapSteps (tl : LiveTimeline) (f : LiveStep → LiveStep)
    (hf : ∀ s, (f s).index = s.index) : LiveTimeline where
  steps := tl.steps.map f
  numbered i s hs := by
    rw [List.getElem?_map, Option.map_eq_some_iff] at hs
    obtain ⟨s', hs', rfl⟩ := hs
    rw [hf, tl.numbered i s' hs']

/-- `_add`: a step at the end. -/
def add (tl : LiveTimeline) (kind : Kind) (label : String) (site : Option String) (detail : Detail)
    (scope : Option Scope) (undoIdempotent : Option Bool) : LiveTimeline where
  steps := tl.steps ++
    [⟨tl.steps.length, kind, label, site, detail, scope, undoIdempotent, none, false, false⟩]
  numbered i s hs := by
    rcases Nat.lt_trichotomy i tl.steps.length with h | rfl | h
    · rw [List.getElem?_append_left h] at hs
      exact tl.numbered i s hs
    · rw [List.getElem?_concat_length, Option.some.injEq] at hs
      subst hs
      rfl
    · rw [List.getElem?_eq_none (by simp; omega)] at hs
      cases hs

/-- `emission.compensation = step.index` -/
def offset (tl : LiveTimeline) (i index : Nat) : LiveTimeline :=
  tl.mapSteps (fun s => if s.index = i then { s with compensation := some index } else s)
    fun s => by split <;> rfl

/-- A once-only inverse is started. -/
def undo (tl : LiveTimeline) (i : Nat) : LiveTimeline :=
  tl.mapSteps (fun s => if s.index = i ∧ s.revertible then { s with undone := true } else s)
    fun s => by split <;> rfl

/-- The emissions that a step back refuses to cross. -/
def blocking (tl : LiveTimeline) (k : Int) : List LiveStep :=
  tl.steps.filter fun s =>
    k < s.index ∧ s.kind = .emission ∧ s.compensation = none ∧ s.crossed = false

/-- What `step_back` does to the steps above `k`: the emissions are crossed and every inverse is
started, whatever its scope. -/
def unwind (tl : LiveTimeline) (k : Int) : LiveTimeline :=
  tl.mapSteps
    (fun s =>
      if k < s.index then
        if s.kind = .emission then { s with crossed := true }
        else if s.revertible then { s with undone := true } else s
      else s)
    fun s => by
      split
      · split
        · rfl
        · split <;> rfl
      · rfl

/-- `step_back`: refused out of bound, and where an emission would be crossed without force. -/
def stepBack (tl : LiveTimeline) (k : Int) (force : Bool) : Option LiveTimeline :=
  if tl.inBound k && (force || (tl.blocking k).isEmpty) then some (tl.unwind k) else none

/-- What tearing an activation down does to its steps: every inverse is started. -/
def teardown (tl : LiveTimeline) : LiveTimeline :=
  tl.mapSteps (fun s => if s.revertible then { s with undone := true } else s)
    fun s => by split <;> rfl

/-- The inverses of a bucket that `_step_back_scoped` starts, newest first: those that were not
started before. -/
def started (tl : LiveTimeline) (k : Int) (b : Bucket) : List ScopedEntry :=
  ((tl.bucket k b).filter fun s => !s.undone).map (·.scopedEntry)

/-- What `_step_back_scoped` does to the steps above `k`. -/
def scopedRewind (tl : LiveTimeline) (k : Int) : LiveTimeline :=
  tl.mapSteps
    (fun s =>
      if k < s.index then
        if s.kind = .emission then { s with crossed := true }
        else if s.bucket = some .hostConfined ∨ s.bucket = some .provisions then
          { s with undone := true }
        else s
      else s)
    fun s => by
      split
      · split
        · rfl
        · split <;> rfl
      · rfl

/-! ## Buckets -/

theorem mem_bucket {tl : LiveTimeline} {k : Int} {b : Bucket} {s : LiveStep} :
    s ∈ tl.bucket k b ↔ s ∈ tl.steps ∧ k < s.index ∧ s.bucket = some b := by
  rw [bucket, List.mem_filter, List.mem_reverse, List.mem_filter, decide_eq_true_eq, beq_iff_eq,
    and_assoc]

/-- The live buckets are those the offline partition is compared with. -/
theorem bucket_classifyTail (tl : LiveTimeline) (k seq : Nat) (b : Bucket) :
    (tl.bucket k b).map (·.toStep seq) = classifyTail (tl.steps.map (·.toStep seq)) k b := by
  rw [bucket, classifyTail, List.filter_map, ← List.map_reverse, List.filter_map]
  simp [Function.comp_def, LiveStep.toStep, LiveStep.bucket]

theorem getElem?_index {tl : LiveTimeline} {s : LiveStep} (h : s ∈ tl.steps) :
    tl.steps[s.index]? = some s := by
  obtain ⟨i, hi⟩ := List.mem_iff_getElem?.mp h
  rw [tl.numbered i s hi, hi]

theorem index_lt {tl : LiveTimeline} {s : LiveStep} (h : s ∈ tl.steps) :
    s.index < tl.steps.length :=
  (List.getElem?_eq_some_iff.mp (getElem?_index h)).1

end LiveTimeline

/-! ## What a timeline keeps -/

/-- Nothing but what later events change. -/
def LiveStep.SameCore (s s₀ : LiveStep) : Prop :=
  s = { s₀ with compensation := s.compensation, undone := s.undone, crossed := s.crossed }

theorem LiveStep.SameCore.refl (s : LiveStep) : s.SameCore s := rfl

theorem LiveStep.SameCore.trans {s s' s'' : LiveStep} (h : s.SameCore s') (h' : s'.SameCore s'') :
    s.SameCore s'' := by
  unfold SameCore at *
  rw [h]
  rw [h']

/-- How the offset of a step may have changed: not at all, from none to some, or by a compensation
recorded on the timeline since. -/
def OffsetSince (size : Nat) (tl : LiveTimeline) (s s₀ : LiveStep) : Prop :=
  s.compensation = s₀.compensation ∨
    (s₀.compensation = none ∧ s.compensation.isSome = true) ∨
    ∃ c ∈ tl.steps, size ≤ c.index ∧ c.kind = .compensation

/-- A later state of a timeline: its steps are there in place, and above `k` no inverse was started
and no offset replaced from elsewhere. -/
def Since (tl₀ : LiveTimeline) (k : Int) (tl : LiveTimeline) : Prop :=
  ∀ (i : Nat) (s₀ : LiveStep), tl₀.steps[i]? = some s₀ →
    ∃ s, tl.steps[i]? = some s ∧ s.SameCore s₀ ∧ (k < i →
      s.undone = s₀.undone ∧ OffsetSince tl₀.steps.length tl s s₀)

namespace Since

theorem refl (tl : LiveTimeline) (k : Int) : Since tl k tl := fun _ s₀ hs₀ =>
  ⟨s₀, hs₀, .refl _, fun _ => ⟨rfl, .inl rfl⟩⟩

variable {tl₀ tl : LiveTimeline} {k : Int}

theorem add (h : Since tl₀ k tl) (kind : Kind) (label : String) (site : Option String)
    (detail : Detail) (scope : Option Scope) (undoIdempotent : Option Bool) :
    Since tl₀ k (tl.add kind label site detail scope undoIdempotent) := by
  intro i s₀ hs₀
  obtain ⟨s, hs, hcore, hrest⟩ := h i s₀ hs₀
  refine ⟨s, ?_, hcore, fun hk => ⟨(hrest hk).1, ?_⟩⟩
  · rw [LiveTimeline.add, List.getElem?_append_left (List.getElem?_eq_some_iff.mp hs).1, hs]
  · rcases (hrest hk).2 with hsame | hfirst | ⟨c, hc, hcs⟩
    · exact .inl hsame
    · exact .inr (.inl hfirst)
    · exact .inr (.inr ⟨c, List.mem_append_left _ hc, hcs⟩)

/-- Steps changed in place: what each change has to keep. -/
theorem mapSteps (h : Since tl₀ k tl) {f : LiveStep → LiveStep} (hf : ∀ s, (f s).index = s.index)
    (hcore : ∀ s, (f s).SameCore s)
    (hundone : ∀ s ∈ tl.steps, k < s.index → (f s).undone = s.undone)
    (hoffset : ∀ s ∈ tl.steps, k < s.index →
      OffsetSince tl₀.steps.length (tl.mapSteps f hf) (f s) s) :
    Since tl₀ k (tl.mapSteps f hf) := by
  intro i s₀ hs₀
  obtain ⟨s, hs, hsame, hrest⟩ := h i s₀ hs₀
  have hmem : s ∈ tl.steps := List.mem_of_getElem? hs
  have hindex : s.index = i := tl.numbered i s hs
  refine ⟨f s, ?_, (hcore s).trans hsame, fun hk => ?_⟩
  · rw [LiveTimeline.mapSteps, List.getElem?_map, hs, Option.map_some]
  obtain ⟨hun, hoff⟩ := hrest hk
  have hk' : k < s.index := hindex ▸ hk
  refine ⟨(hundone s hmem hk').trans hun, ?_⟩
  rcases hoffset s hmem hk' with hnow | ⟨hnone, hnow⟩ | hnew
  · rcases hoff with hthen | ⟨hnone, hthen⟩ | ⟨c, hc, hsize, hkind⟩
    · exact .inl (hnow.trans hthen)
    · exact .inr (.inl ⟨hnone, hnow ▸ hthen⟩)
    · -- the compensation recorded since is still there
      refine .inr (.inr ⟨f c, List.mem_map_of_mem hc, (hf c).symm ▸ hsize, ?_⟩)
      rw [hcore c]
      exact hkind
  · rcases hoff with hthen | ⟨-, hthen⟩ | ⟨c, hc, hsize, hkind⟩
    · exact .inr (.inl ⟨hthen ▸ hnone, hnow⟩)
    · rw [hnone] at hthen
      cases hthen
    · refine .inr (.inr ⟨f c, List.mem_map_of_mem hc, (hf c).symm ▸ hsize, ?_⟩)
      rw [hcore c]
      exact hkind
  · exact .inr (.inr hnew)

/-- A compensation recorded on the timeline itself, with the step it offsets. -/
theorem add_offset (h : Since tl₀ k tl) (label : String) (site : Option String) (detail : Detail)
    (scope : Option Scope) (undoIdempotent : Option Bool) (i : Nat)
    (hsize : tl₀.steps.length ≤ tl.steps.length) :
    Since tl₀ k
      ((tl.add .compensation label site detail scope undoIdempotent).offset i tl.steps.length) := by
  refine (h.add _ _ _ _ _ _).mapSteps _ ?_ ?_ ?_
  · intro s
    split <;> rfl
  · intro s _ _
    split <;> rfl
  · -- whatever it did to an offset, the compensation is there
    intro s _ _
    refine .inr (.inr ⟨_, List.mem_map_of_mem (List.mem_append_right _ List.mem_cons_self), ?_, ?_⟩)
    · split <;> exact hsize
    · split <;> rfl

/-- An offset from elsewhere of a step that had none. -/
theorem offset (h : Since tl₀ k tl) {i : Nat} (index : Nat)
    (hfirst : k < i → ∀ s, tl.steps[i]? = some s → s.compensation = none) :
    Since tl₀ k (tl.offset i index) := by
  refine h.mapSteps _ ?_ ?_ ?_
  · intro s
    split <;> rfl
  · intro s _ _
    split <;> rfl
  · intro s hs hk
    by_cases hi : s.index = i
    · rw [if_pos hi]
      exact .inr (.inl ⟨hfirst (hi ▸ hk) s (hi ▸ LiveTimeline.getElem?_index hs), rfl⟩)
    · rw [if_neg hi]
      exact .inl rfl

/-- An inverse that was started before, or below. -/
theorem undo (h : Since tl₀ k tl) {i : Nat}
    (hquiet : k < i → ∀ s, tl.steps[i]? = some s → s.revertible = true → s.undone = true) :
    Since tl₀ k (tl.undo i) := by
  refine h.mapSteps _ ?_ ?_ ?_
  · intro s
    split <;> rfl
  · intro s hs hk
    split
    · rename_i hi
      exact (hquiet (hi.1 ▸ hk) s (hi.1 ▸ LiveTimeline.getElem?_index hs) hi.2).symm
    · rfl
  · intro s _ _
    split <;> exact .inl rfl

/-- A step back that starts no inverse above `k`. -/
theorem unwind (h : Since tl₀ k tl) {to' : Int}
    (hquiet : ∀ s ∈ tl.steps, k < s.index → to' < s.index → s.revertible = true → s.undone = true) :
    Since tl₀ k (tl.unwind to') := by
  refine h.mapSteps _ ?_ ?_ ?_
  · intro s
    split
    · split
      · rfl
      · split <;> rfl
    · rfl
  · intro s hs hk
    split
    · rename_i hto
      split
      · rfl
      · split
        · rename_i hrev
          exact (hquiet s hs hk hto hrev).symm
        · rfl
    · rfl
  · intro s _ _
    refine .inl ?_
    split
    · split
      · rfl
      · split <;> rfl
    · rfl

theorem length_le (h : Since tl₀ k tl) : tl₀.steps.length ≤ tl.steps.length := by
  by_contra hlt
  obtain ⟨s₀, hs₀⟩ : ∃ s₀, tl₀.steps[tl.steps.length]? = some s₀ :=
    ⟨_, List.getElem?_eq_getElem (by omega)⟩
  obtain ⟨s, hs, -⟩ := h _ _ hs₀
  simp at hs

end Since

/-! ## What the indices determine -/

namespace LiveStep

/-- What a report shows of a step, with whether its inverse was started. Only an emission shows what
offsets it. -/
def shown (s : LiveStep) : LiveStep :=
  { s with crossed := false, compensation := if s.kind = .emission then s.compensation else none }

theorem scopedEntry_shown (s : LiveStep) : s.shown.scopedEntry = s.scopedEntry := rfl

theorem wouldCrossEntry_shown (s : LiveStep) : s.shown.wouldCrossEntry = s.wouldCrossEntry := rfl

theorem unrestoredEntry_shown (s : LiveStep) : s.shown.unrestoredEntry = s.unrestoredEntry := rfl

theorem emissionEntry_shown {s : LiveStep} (h : s.kind = .emission) :
    s.shown.emissionEntry = s.emissionEntry := by
  simp only [emissionEntry, shown, if_pos h]

/-- A step with the same core shows the same, if its inverse and its offset are as they were. -/
theorem SameCore.shown_eq {s s₀ : LiveStep} (h : s.SameCore s₀) (hundone : s.undone = s₀.undone)
    (hcomp : s.kind = .emission → s.compensation = s₀.compensation) : s₀.shown = s.shown := by
  cases s
  cases s₀
  simp only [SameCore, mk.injEq] at h
  obtain ⟨rfl, rfl, rfl, rfl, rfl, rfl, rfl, -, -, -⟩ := h
  simp only [shown, mk.injEq, true_and, and_true]
  refine ⟨?_, hundone.symm⟩
  split
  · rename_i hemission
    exact (hcomp hemission).symm
  · rfl

/-- Only emissions fall in the buckets of emissions. -/
theorem kind_of_bucket {s : LiveStep}
    (h : s.bucket = some .crossed ∨ s.bucket = some .compensated) : s.kind = .emission := by
  obtain ⟨index, kind, label, site, detail, scope, undoIdempotent, compensation, undone,
    crossed⟩ := s
  cases kind with
  | emission => rfl
  | effect =>
    simp only [bucket, bucketOf] at h
    split at h <;> simp at h
  | _ => simp [bucket, bucketOf] at h

end LiveStep

/-- The indices of a bucket. -/
def LiveTimeline.indices (tl : LiveTimeline) (k : Int) (b : Bucket) : List Nat :=
  (tl.bucket k b).map (·.index)

namespace Since

variable {tl₀ tl : LiveTimeline} {k : Int}

/-- No step that falls in a bucket was recorded since. -/
theorem index_lt (hindices : ∀ b, tl.indices k b = tl₀.indices k b) {b : Bucket} {s : LiveStep}
    (hs : s ∈ tl.bucket k b) : ∃ s₀ ∈ tl₀.bucket k b, s₀.index = s.index := by
  have hmem : s.index ∈ tl.indices k b := List.mem_map_of_mem hs
  rw [hindices b] at hmem
  exact List.mem_map.mp hmem

/-- No compensation was recorded since. -/
theorem no_compensation (hk : k < tl₀.steps.length)
    (hindices : ∀ b, tl.indices k b = tl₀.indices k b) {c : LiveStep} (hc : c ∈ tl.steps)
    (hsize : tl₀.steps.length ≤ c.index) : c.kind ≠ .compensation := by
  intro hkind
  have hbucket : c ∈ tl.bucket k .wouldCross := by
    refine LiveTimeline.mem_bucket.mpr ⟨hc, by omega, ?_⟩
    rw [LiveStep.bucket, hkind, bucketOf]
  obtain ⟨s₀, hs₀, hindex⟩ := index_lt hindices hbucket
  have := LiveTimeline.index_lt (LiveTimeline.mem_bucket.mp hs₀).1
  omega

/-- **A step in a bucket** shows what it showed. -/
theorem shown_eq (h : Since tl₀ k tl) (hk : k < tl₀.steps.length)
    (hindices : ∀ b, tl.indices k b = tl₀.indices k b) {b : Bucket} {s : LiveStep}
    (hs : s ∈ tl.bucket k b) : tl₀.steps[s.index]?.map (·.shown) = some s.shown := by
  obtain ⟨s₀, hs₀, hindex⟩ := index_lt hindices hs
  obtain ⟨hmem₀, hk₀, hbucket₀⟩ := LiveTimeline.mem_bucket.mp hs₀
  obtain ⟨hmem, hks, hbucket⟩ := LiveTimeline.mem_bucket.mp hs
  have hget₀ : tl₀.steps[s.index]? = some s₀ := hindex ▸ LiveTimeline.getElem?_index hmem₀
  obtain ⟨s', hs', hcore, hrest⟩ := h s.index s₀ hget₀
  obtain rfl : s = s' :=
    Option.some.inj ((LiveTimeline.getElem?_index hmem).symm.trans hs')
  obtain ⟨hundone, hoffset⟩ := hrest hks
  have hkind : s.kind = s₀.kind := by rw [hcore]
  have hcomp : s.kind = .emission → s.compensation = s₀.compensation := by
    intro hemission
    rcases hoffset with hsame | ⟨hnone, hsome⟩ | ⟨c, hc, hsize, hcomp⟩
    · exact hsame
    · -- an emission that was offset since is in the other bucket
      rw [LiveStep.bucket, hemission, hsome, bucketOf] at hbucket
      rw [LiveStep.bucket, ← hkind, hemission, hnone, bucketOf] at hbucket₀
      simp only [if_true, Option.isSome_none, Bool.false_eq_true, if_false] at hbucket hbucket₀
      rw [← hbucket] at hbucket₀
      simp at hbucket₀
    · exact absurd hcomp (no_compensation hk hindices hc hsize)
  rw [hget₀, Option.map_some, Option.some.injEq]
  exact hcore.shown_eq hundone hcomp

/-- The buckets show the same steps, each with the same mark of its inverse. -/
theorem bucket_shown (h : Since tl₀ k tl) (hk : k < tl₀.steps.length)
    (hindices : ∀ b, tl.indices k b = tl₀.indices k b) (b : Bucket) :
    (tl.bucket k b).map (·.shown) = (tl₀.bucket k b).map (·.shown) := by
  refine List.map_injective_iff.mpr (Option.some_injective _) ?_
  rw [List.map_map, List.map_map]
  -- a step is the one the earlier timeline has at its index
  have hnow : (tl.bucket k b).map (some ∘ (·.shown)) =
      (tl.indices k b).map fun i : Nat => tl₀.steps[i]?.map (·.shown) := by
    rw [LiveTimeline.indices, List.map_map]
    exact List.map_congr_left fun s hs => (h.shown_eq hk hindices hs).symm
  have hthen : (tl₀.bucket k b).map (some ∘ (·.shown)) =
      (tl₀.indices k b).map fun i : Nat => tl₀.steps[i]?.map (·.shown) := by
    rw [LiveTimeline.indices, List.map_map]
    refine List.map_congr_left fun s hs => ?_
    simp only [Function.comp_apply]
    rw [LiveTimeline.getElem?_index (LiveTimeline.mem_bucket.mp hs).1, Option.map_some]
  rw [hnow, hthen, hindices b]

/-- What is read off the steps of a bucket as they show is read the same. -/
theorem map_bucket {β : Type} (h : Since tl₀ k tl) (hk : k < tl₀.steps.length)
    (hindices : ∀ b, tl.indices k b = tl₀.indices k b) (b : Bucket) (g : LiveStep → β)
    (hg : ∀ s, s.bucket = some b → g s.shown = g s) :
    (tl.bucket k b).map g = (tl₀.bucket k b).map g := by
  have hread : ∀ tl' : LiveTimeline,
      (tl'.bucket k b).map g = ((tl'.bucket k b).map (·.shown)).map g := by
    intro tl'
    rw [List.map_map]
    exact List.map_congr_left fun s hs => (hg s (LiveTimeline.mem_bucket.mp hs).2.2).symm
  rw [hread tl, hread tl₀, h.bucket_shown hk hindices b]

/-- What is read off some of the steps of a bucket, as they show. -/
theorem map_filter_bucket {β : Type} (h : Since tl₀ k tl) (hk : k < tl₀.steps.length)
    (hindices : ∀ b, tl.indices k b = tl₀.indices k b) (b : Bucket) (keep : LiveStep → Bool)
    (hkeep : ∀ s, keep s.shown = keep s) (g : LiveStep → β) (hg : ∀ s, g s.shown = g s) :
    ((tl.bucket k b).filter keep).map g = ((tl₀.bucket k b).filter keep).map g := by
  have hread : ∀ tl' : LiveTimeline, ((tl'.bucket k b).filter keep).map g =
      (((tl'.bucket k b).map (·.shown)).filter keep).map g := by
    intro tl'
    rw [List.filter_map, List.map_map]
    have hcomp : keep ∘ (·.shown) = keep := funext hkeep
    rw [hcomp]
    exact List.map_congr_left fun s _ => (hg s).symm
  rw [hread tl, hread tl₀, h.bucket_shown hk hindices b]

/-- **A tail that keeps its indices in every bucket keeps its partition.** -/
theorem partitionTail_eq (h : Since tl₀ k tl) (hk : k < tl₀.steps.length)
    (hindices : ∀ b, tl.indices k b = tl₀.indices k b) (component : String) :
    tl.partitionTail component k = tl₀.partitionTail component k := by
  have hlabel : tl.labelAt k = tl₀.labelAt k := by
    unfold LiveTimeline.labelAt
    by_cases hpos : 0 ≤ k
    · obtain ⟨s₀, hs₀⟩ : ∃ s₀, tl₀.steps[k.toNat]? = some s₀ :=
        ⟨_, List.getElem?_eq_getElem (by omega)⟩
      obtain ⟨s, hs, hcore, -⟩ := h _ _ hs₀
      rw [if_pos hpos, if_pos hpos, hs, hs₀, Option.map_some, Option.map_some, hcore]
    · rw [if_neg hpos, if_neg hpos]
  have hemission : ∀ b, b = .crossed ∨ b = .compensated → ∀ s : LiveStep, s.bucket = some b →
      s.shown.emissionEntry = s.emissionEntry := by
    rintro b (rfl | rfl) s hs
    · exact LiveStep.emissionEntry_shown (LiveStep.kind_of_bucket (.inl hs))
    · exact LiveStep.emissionEntry_shown (LiveStep.kind_of_bucket (.inr hs))
  simp only [LiveTimeline.partitionTail, hlabel, TailPartition.mk.injEq, true_and]
  refine ⟨?_, ?_, ?_, ?_, ?_, ?_⟩
  · exact h.map_bucket hk hindices _ _ fun s _ => s.scopedEntry_shown
  · exact h.map_bucket hk hindices _ _ fun s _ => s.scopedEntry_shown
  · exact h.map_bucket hk hindices _ _ (hemission _ (.inl rfl))
  · exact h.map_bucket hk hindices _ _ (hemission _ (.inr rfl))
  · exact h.map_bucket hk hindices _ _ fun s _ => s.wouldCrossEntry_shown
  · exact h.map_bucket hk hindices _ _ fun s _ => s.unrestoredEntry_shown

end Since

end Revl.Fork
