import Revl.Lib.Dict

/-!
# The fork partition, live and from the log (`replay.py`, `branch.py`)

A timeline records the steps of one activation and appends a record of each to the write-ahead
log. The live partition reads the steps, which later steps change; the offline one reads the
records, frozen when each step was appended.

- `recordEmission`, `recordYield`: the two ways a step is recorded.
- `classifyTail`, `partition`: the two partitions.
- `Reached.invariant`: what holds of a step and its record after any run.
- `partition_agrees_iff`: **the exact condition under which the partitions agree**.
-/

namespace Revl.Fork

/-! ## Steps and records -/

/-- The kinds of a step. -/
inductive Kind where
  | emission | compensation | provision | effect | opaqueDisposer | boundary | hinge
  deriving DecidableEq, Repr

/-- A declared capability scope. -/
structure Scope where
  sandbox : Bool
  confined : Bool
  caps : List String
  deriving DecidableEq, Repr

/-- `HOST_CONFINED_CAPS` -/
def hostConfinedCaps : List String := ["fs"]

/-- `NO_DECLARED_CAPABILITIES` -/
def noDeclaredCapabilities : Scope := ⟨false, false, []⟩

/-- `scope_host_confined`: an absent scope is unproven. -/
def scopeHostConfined : Option Scope → Bool
  | none => false
  | some scope => scope.sandbox || scope.confined || scope.caps.all (· ∈ hostConfinedCaps)

/-- A step of a timeline: its place, its kind, the scope it stated, the step that offsets it, and the
position of its record. -/
structure Step where
  index : Nat
  kind : Kind
  scope : Option Scope
  compensation : Option Nat
  walSeq : Nat
  deriving DecidableEq, Repr

/-- A step of some timeline. -/
structure StepRef where
  timeline : Nat
  index : Nat
  deriving DecidableEq, Repr

/-- The recorded activation of one component. -/
structure Timeline where
  component : String
  steps : List Step
  provisions : Dict Nat String
  emissionSites : Dict (String × Nat) Nat

/-- A record of the log. Only `effect` records are steps. -/
structure Record where
  record : String
  seq : Nat
  component : String
  stepIndex : Nat
  kind : Kind
  scope : Option Scope
  compensated : Bool
  deriving DecidableEq, Repr

/-- The timelines that write to one log, and the log. -/
structure World where
  timelines : Nat → Timeline
  wal : List Record
  nextSeq : Nat

/-- A disposer a generator yielded: its identity, whether it can be called, the emission it says it
offsets, its code site and the scope declared for it. -/
structure Entry where
  id : Nat
  callable : Bool
  emissionStep : Option StepRef
  site : Option (String × Nat)
  scope : Option Scope

/-- What a recorded generator yields. -/
inductive Yielded where
  | nothing
  | begin
  | drain
  | disposer (entry : Entry)

/-! ## Recording -/

namespace World

/-- A timeline replaced. -/
def setTimeline (w : World) (t : Nat) (tl : Timeline) : World :=
  { w with timelines := Function.update w.timelines t tl }

/-- `_add` and `_wal_append`: the step joins its timeline, and its record the log. -/
def append (w : World) (t : Nat) (kind : Kind) (scope : Option Scope) : World :=
  let tl := w.timelines t
  let step : Step := ⟨tl.steps.length, kind, scope, none, w.nextSeq⟩
  { timelines := Function.update w.timelines t { tl with steps := tl.steps ++ [step] }
    wal := w.wal ++
      [⟨"effect", w.nextSeq, tl.component, step.index, kind, scope, step.compensation.isSome⟩]
    nextSeq := w.nextSeq + 1 }

/-- A record that is no step: an approval, a deferral, a commit. -/
def appendOther (w : World) (record : String) : World :=
  { w with
    wal := w.wal ++ [⟨record, w.nextSeq, "", 0, .boundary, none, false⟩]
    nextSeq := w.nextSeq + 1 }

/-- `emission.compensation = step.index` -/
def offset (w : World) (ref : StepRef) (index : Nat) : World :=
  let tl := w.timelines ref.timeline
  w.setTimeline ref.timeline
    { tl with steps := tl.steps.modify ref.index fun s => { s with compensation := some index } }

/-- `record_emission`: the site is remembered where there is one. -/
def recordEmission (w : World) (t : Nat) (file : Option String) (lineno : Nat) : World :=
  let index := (w.timelines t).steps.length
  let w' := w.append t .emission none
  match file with
  | none => w'
  | some file =>
    let tl := w'.timelines t
    w'.setTimeline t { tl with emissionSites := tl.emissionSites.set (file, lineno) index }

/-- The emission a disposer offsets: the one it is given, the one it names, or the one recorded for
the line above. -/
def pairedEmission (w : World) (t : Nat) (entry : Entry) (emission : Option StepRef) :
    Option StepRef :=
  (emission.or entry.emissionStep).or <|
    match entry.site with
    | none => none
    | some (file, lineno) =>
      if lineno = 0 then none
      else ((w.timelines t).emissionSites.get? (file, lineno - 1)).map fun i => ⟨t, i⟩

/-- `_declared_scope` -/
def declaredScope (entry : Entry) : Scope := entry.scope.getD noDeclaredCapabilities

/-- `record_yield` -/
def recordYield (w : World) (t : Nat) (value : Yielded) (emission : Option StepRef) : World :=
  match value with
  | .nothing => w.append t .boundary none
  | .begin => w
  | .drain => w.append t .hinge none
  | .disposer entry =>
    let tl := w.timelines t
    let w' := w.setTimeline t { tl with provisions := tl.provisions.erase entry.id }
    match tl.provisions.get? entry.id with
    | some _ => w'.append t .provision none
    | none =>
      if entry.callable then
        match w.pairedEmission t entry emission with
        | some ref => (w'.offset ref tl.steps.length).append t .compensation none
        | none => w'.append t .effect (some (declaredScope entry))
      else w'.append t .opaqueDisposer none

end World

/-- What happens to a world while it is recorded. -/
inductive Event where
  | emission (t : Nat) (file : Option String) (lineno : Nat)
  | yielded (t : Nat) (value : Yielded) (emission : Option StepRef)
  | provision (t : Nat) (key : String) (disposer : Nat)
  | other (record : String)

namespace World

/-- One event of a run. -/
def step (w : World) : Event → World
  | .emission t file lineno => w.recordEmission t file lineno
  | .yielded t value emission => w.recordYield t value emission
  | .provision t key disposer =>
    let tl := w.timelines t
    w.setTimeline t { tl with provisions := tl.provisions.set disposer key }
  | .other record => if record = "effect" then w else w.appendOther record

/-- A whole run. -/
def run (w : World) (events : List Event) : World := events.foldl step w

/-- Nothing recorded yet, for the components of the timelines. -/
def start (components : Nat → String) (seq : Nat) : World where
  timelines t := ⟨components t, [], Dict.empty, Dict.empty⟩
  wal := []
  nextSeq := seq

end World

/-! ## The two partitions -/

/-- The buckets. `hostConfined` is the live `effects`. -/
inductive Bucket where
  | hostConfined | provisions | crossed | compensated | wouldCross | unrestored
  deriving DecidableEq, Repr

/-- The bucket of a step kind, given its scope and whether it was offset. -/
def bucketOf (kind : Kind) (scope : Option Scope) (compensated : Bool) : Option Bucket :=
  match kind with
  | .emission => some (if compensated then .compensated else .crossed)
  | .compensation => some .wouldCross
  | .provision => some .provisions
  | .effect => some (if scopeHostConfined scope then .hostConfined else .wouldCross)
  | .opaqueDisposer => some .unrestored
  | .boundary | .hinge => none

/-- `Timeline._classify_tail(k)`: newest first. -/
def classifyTail (steps : List Step) (k : Nat) (b : Bucket) : List Step :=
  (steps.filter fun s => k < s.index).reverse.filter fun s =>
    bucketOf s.kind s.scope s.compensation.isSome == some b

/-- `branch.partition` above a position: newest first. -/
def partition (wal : List Record) (pos : Nat) (b : Bucket) : List Record :=
  ((wal.filter fun r => r.record == "effect").filter fun r => pos < r.seq).reverse.filter fun r =>
    bucketOf r.kind r.scope r.compensated == some b

/-- Each later step of a timeline is in a live bucket exactly when its record is in the bucket of
that name offline. -/
def Agrees (w : World) (t k : Nat) : Prop :=
  ∀ sk ∈ (w.timelines t).steps, sk.index = k →
    ∀ s ∈ (w.timelines t).steps, k < s.index → ∀ b,
      (s ∈ classifyTail (w.timelines t).steps k b ↔
        ∃ r ∈ partition w.wal sk.walSeq b, r.seq = s.walSeq)

/-- The emission that an event pairs with the compensation it records. -/
def Event.paired (w : World) : Event → Option StepRef
  | .yielded t (.disposer entry) ref =>
    match (w.timelines t).provisions.get? entry.id with
    | some _ => none
    | none => if entry.callable then w.pairedEmission t entry ref else none
  | _ => none

/-- A later compensation of the run was paired with the step. -/
def Offset (w : World) (events : List Event) (ref : StepRef) : Prop :=
  ∃ pre e post, events = pre ++ e :: post ∧ e.paired (w.run pre) = some ref ∧
    ref.index < (((w.run pre).timelines ref.timeline).steps).length

/-! ## What an event does -/

namespace World

/-- The steps, the components and the log are the same. -/
structure SameLog (w w' : World) : Prop where
  steps : ∀ t, (w.timelines t).steps = (w'.timelines t).steps
  component : ∀ t, (w.timelines t).component = (w'.timelines t).component
  wal : w.wal = w'.wal
  nextSeq : w.nextSeq = w'.nextSeq

theorem SameLog.refl (w : World) : SameLog w w := ⟨fun _ => rfl, fun _ => rfl, rfl, rfl⟩

/-- What a timeline remembers beside its steps is not in the log. -/
theorem sameLog_setTimeline {w : World} {t : Nat} {tl : Timeline}
    (hsteps : tl.steps = (w.timelines t).steps)
    (hcomponent : tl.component = (w.timelines t).component) :
    SameLog (w.setTimeline t tl) w where
  steps t' := by
    by_cases h : t' = t
    · subst h
      simp only [setTimeline, Function.update_self, hsteps]
    · simp only [setTimeline, Function.update_of_ne h]
  component t' := by
    by_cases h : t' = t
    · subst h
      simp only [setTimeline, Function.update_self, hcomponent]
    · simp only [setTimeline, Function.update_of_ne h]
  wal := rfl
  nextSeq := rfl

theorem steps_append (w : World) (t : Nat) (kind : Kind) (scope : Option Scope) (t' : Nat) :
    ((w.append t kind scope).timelines t').steps =
      if t' = t then
        (w.timelines t).steps ++ [⟨(w.timelines t).steps.length, kind, scope, none, w.nextSeq⟩]
      else (w.timelines t').steps := by
  unfold append
  by_cases h : t' = t
  · subst h
    simp only [Function.update_self, if_true]
  · simp only [Function.update_of_ne h, if_neg h]

theorem component_append (w : World) (t : Nat) (kind : Kind) (scope : Option Scope) (t' : Nat) :
    ((w.append t kind scope).timelines t').component = (w.timelines t').component := by
  unfold append
  by_cases h : t' = t
  · subst h
    simp only [Function.update_self]
  · simp only [Function.update_of_ne h]

theorem SameLog.append {w w' : World} (h : SameLog w w') (t : Nat) (kind : Kind)
    (scope : Option Scope) : SameLog (w.append t kind scope) (w'.append t kind scope) where
  steps t' := by rw [steps_append, steps_append, h.steps, h.steps, h.nextSeq]
  component t' := by rw [component_append, component_append, h.component]
  wal := by simp only [World.append, h.wal, h.nextSeq, h.component, h.steps]
  nextSeq := by simp only [World.append, h.nextSeq]

theorem steps_offset (w : World) (ref : StepRef) (index t : Nat) :
    ((w.offset ref index).timelines t).steps =
      if t = ref.timeline then
        (w.timelines t).steps.modify ref.index fun s => { s with compensation := some index }
      else (w.timelines t).steps := by
  unfold offset setTimeline
  by_cases h : t = ref.timeline
  · subst h
    simp only [Function.update_self, if_true]
  · simp only [Function.update_of_ne h, if_neg h]

theorem component_offset (w : World) (ref : StepRef) (index t : Nat) :
    ((w.offset ref index).timelines t).component = (w.timelines t).component := by
  unfold offset setTimeline
  by_cases h : t = ref.timeline
  · subst h
    simp only [Function.update_self]
  · simp only [Function.update_of_ne h]

theorem SameLog.offset {w w' : World} (h : SameLog w w') (ref : StepRef) (index : Nat) :
    SameLog (w.offset ref index) (w'.offset ref index) where
  steps t := by rw [steps_offset, steps_offset, h.steps]
  component t := by rw [component_offset, component_offset, h.component]
  wal := h.wal
  nextSeq := h.nextSeq

/-- What one event does to the steps and the log. -/
theorem step_spec (w : World) (e : Event) :
    (SameLog (w.step e) w ∧ e.paired w = none) ∨
      (∃ record, record ≠ "effect" ∧ w.step e = w.appendOther record ∧ e.paired w = none) ∨
      (∃ t kind scope, SameLog (w.step e) (w.append t kind scope) ∧ e.paired w = none) ∨
      ∃ ref t index, e.paired w = some ref ∧
        SameLog (w.step e) ((w.offset ref index).append t .compensation none) := by
  cases e with
  | emission t file lineno =>
    refine .inr (.inr (.inl ⟨t, .emission, none, ?_, rfl⟩))
    cases file with
    | none => exact SameLog.refl _
    | some file => exact sameLog_setTimeline rfl rfl
  | provision t key disposer => exact .inl ⟨sameLog_setTimeline rfl rfl, rfl⟩
  | other record =>
    by_cases h : record = "effect"
    · exact .inl ⟨by rw [step, if_pos h]; exact SameLog.refl w, rfl⟩
    · exact .inr (.inl ⟨record, h, by rw [step, if_neg h], rfl⟩)
  | yielded t value ref =>
    cases value with
    | nothing => exact .inr (.inr (.inl ⟨t, .boundary, none, SameLog.refl _, rfl⟩))
    | begin => exact .inl ⟨SameLog.refl w, rfl⟩
    | drain => exact .inr (.inr (.inl ⟨t, .hinge, none, SameLog.refl _, rfl⟩))
    | disposer entry =>
      have hpop : SameLog (w.setTimeline t
          { w.timelines t with provisions := (w.timelines t).provisions.erase entry.id }) w :=
        sameLog_setTimeline rfl rfl
      simp only [step, recordYield, Event.paired]
      cases hprov : (w.timelines t).provisions.get? entry.id with
      | some key => exact .inr (.inr (.inl ⟨t, .provision, none, hpop.append _ _ _, rfl⟩))
      | none =>
        cases hcall : entry.callable with
        | false => exact .inr (.inr (.inl ⟨t, .opaqueDisposer, none, hpop.append _ _ _, rfl⟩))
        | true =>
          cases hpair : w.pairedEmission t entry ref with
          | none => exact .inr (.inr (.inl ⟨t, .effect, _, hpop.append _ _ _, rfl⟩))
          | some paired =>
            exact .inr (.inr (.inr ⟨paired, t, (w.timelines t).steps.length, rfl,
              (hpop.offset paired _).append _ _ _⟩))

end World

/-! ## What holds of a step and its record -/

/-- Steps are numbered by place; each has the record frozen when it was appended, which carries no
offset; and the positions of the records grow, over the log and along each timeline. -/
structure Invariant (w : World) : Prop where
  index : ∀ t i : Nat, ∀ s, (w.timelines t).steps[i]? = some s → s.index = i
  logged : ∀ t, ∀ s ∈ (w.timelines t).steps, ∃ r ∈ w.wal, r.record = "effect" ∧
    r.seq = s.walSeq ∧ r.kind = s.kind ∧ r.scope = s.scope ∧ r.compensated = false
  seqs : w.wal.Pairwise fun a b => a.seq < b.seq
  below : ∀ r ∈ w.wal, r.seq < w.nextSeq
  order : ∀ t, (w.timelines t).steps.Pairwise fun a b => a.walSeq < b.walSeq

namespace Invariant

open World

variable {w w' : World}

theorem congr (h : Invariant w) (hsame : SameLog w' w) : Invariant w' where
  index t i s hs := h.index t i s (hsame.steps t ▸ hs)
  logged t s hs := hsame.wal ▸ h.logged t s (hsame.steps t ▸ hs)
  seqs := hsame.wal ▸ h.seqs
  below r hr := hsame.nextSeq ▸ h.below r (hsame.wal ▸ hr)
  order t := hsame.steps t ▸ h.order t

/-- A record at the next position keeps the positions growing. -/
theorem pairwise_append (h : Invariant w) {r : Record} (hr : r.seq = w.nextSeq) :
    (w.wal ++ [r]).Pairwise fun a b => a.seq < b.seq := by
  refine List.pairwise_append.mpr ⟨h.seqs, List.pairwise_singleton _ _, fun a ha b hb => ?_⟩
  obtain rfl := List.mem_singleton.mp hb
  rw [hr]
  exact h.below a ha

theorem lt_succ_of_mem (h : Invariant w) {r : Record} (hr : r.seq = w.nextSeq) :
    ∀ a ∈ w.wal ++ [r], a.seq < w.nextSeq + 1 := by
  intro a ha
  rcases List.mem_append.mp ha with ha | ha
  · exact (h.below a ha).trans (Nat.lt_succ_self _)
  · obtain rfl := List.mem_singleton.mp ha
    omega

theorem appendOther (h : Invariant w) (record : String) : Invariant (w.appendOther record) where
  index := h.index
  logged t s hs := by
    obtain ⟨r, hr, hrest⟩ := h.logged t s hs
    exact ⟨r, List.mem_append_left _ hr, hrest⟩
  seqs := h.pairwise_append rfl
  below := h.lt_succ_of_mem rfl
  order := h.order

theorem append (h : Invariant w) (t : Nat) (kind : Kind) (scope : Option Scope) :
    Invariant (w.append t kind scope) where
  index t' i s hs := by
    rw [steps_append] at hs
    by_cases ht : t' = t
    · rw [if_pos ht, List.getElem?_append] at hs
      by_cases hi : i < (w.timelines t).steps.length
      · rw [if_pos hi] at hs
        exact h.index t i s hs
      · rw [if_neg hi, List.getElem?_singleton] at hs
        by_cases hzero : i - (w.timelines t).steps.length = 0
        · rw [if_pos hzero, Option.some.injEq] at hs
          subst hs
          show (w.timelines t).steps.length = i
          omega
        · simp [hzero] at hs
    · rw [if_neg ht] at hs
      exact h.index t' i s hs
  logged t' s hs := by
    have hold : ∀ t, ∀ s ∈ (w.timelines t).steps, ∃ r ∈ (w.append t kind scope).wal,
        r.record = "effect" ∧ r.seq = s.walSeq ∧ r.kind = s.kind ∧ r.scope = s.scope ∧
          r.compensated = false := by
      intro t s hs
      obtain ⟨r, hr, hrest⟩ := h.logged t s hs
      exact ⟨r, List.mem_append_left _ hr, hrest⟩
    rw [steps_append] at hs
    by_cases ht : t' = t
    · rw [if_pos ht] at hs
      rcases List.mem_append.mp hs with hs | hs
      · obtain ⟨r, hr, hrest⟩ := h.logged t s hs
        exact ⟨r, List.mem_append_left _ hr, hrest⟩
      · -- the record of the new step is written from it, before anything can offset it
        obtain rfl := List.mem_singleton.mp hs
        exact ⟨_, List.mem_append_right _ List.mem_cons_self, rfl, rfl, rfl, rfl, rfl⟩
    · rw [if_neg ht] at hs
      obtain ⟨r, hr, hrest⟩ := h.logged t' s hs
      exact ⟨r, List.mem_append_left _ hr, hrest⟩
  seqs := h.pairwise_append rfl
  below := h.lt_succ_of_mem rfl
  order t' := by
    rw [steps_append]
    by_cases ht : t' = t
    · rw [if_pos ht]
      refine List.pairwise_append.mpr ⟨h.order t, List.pairwise_singleton _ _, fun a ha b hb => ?_⟩
      obtain rfl := List.mem_singleton.mp hb
      obtain ⟨r, hr, -, hseq, -⟩ := h.logged t a ha
      rw [← hseq]
      exact h.below r hr
    · rw [if_neg ht]
      exact h.order t'

/-- An offset changes only whether a step is offset. -/
theorem mem_modify {l : List Step} {i j : Nat} {s : Step}
    (hs : s ∈ l.modify i fun s => { s with compensation := some j }) :
    ∃ s' ∈ l, s.index = s'.index ∧ s.walSeq = s'.walSeq ∧ s.kind = s'.kind ∧ s.scope = s'.scope := by
  obtain ⟨n, hn⟩ := List.mem_iff_getElem?.mp hs
  rw [List.getElem?_modify, Option.map_eq_map, Option.map_eq_some_iff] at hn
  obtain ⟨s', hs', rfl⟩ := hn
  refine ⟨s', List.mem_of_getElem? hs', ?_⟩
  by_cases h : i = n
  · simp [h]
  · simp [h]

theorem offset (h : Invariant w) (ref : StepRef) (index : Nat) : Invariant (w.offset ref index) where
  index t i s hs := by
    rw [steps_offset] at hs
    by_cases ht : t = ref.timeline
    · rw [if_pos ht, List.getElem?_modify, Option.map_eq_map, Option.map_eq_some_iff] at hs
      obtain ⟨s', hs', rfl⟩ := hs
      have hindex := h.index t i s' hs'
      by_cases hi : ref.index = i
      · simp [hi, hindex]
      · simp [hi, hindex]
    · rw [if_neg ht] at hs
      exact h.index t i s hs
  logged t s hs := by
    rw [steps_offset] at hs
    by_cases ht : t = ref.timeline
    · rw [if_pos ht] at hs
      obtain ⟨s', hs', -, hseq, hkind, hscope⟩ := mem_modify hs
      rw [hseq, hkind, hscope]
      exact h.logged t s' hs'
    · rw [if_neg ht] at hs
      exact h.logged t s hs
  seqs := h.seqs
  below := h.below
  order t := by
    rw [steps_offset]
    by_cases ht : t = ref.timeline
    · rw [if_pos ht]
      have hmap : ((w.timelines t).steps.modify ref.index fun s =>
          { s with compensation := some index }).map (·.walSeq) =
            (w.timelines t).steps.map (·.walSeq) := by
        refine List.ext_getElem? fun n => ?_
        rw [List.getElem?_map, List.getElem?_map, List.getElem?_modify, Option.map_eq_map,
          Option.map_map]
        congr 1
        funext s
        by_cases hn : ref.index = n <;> simp [hn]
      have horder : ((w.timelines t).steps.map (·.walSeq)).Pairwise (· < ·) :=
        List.pairwise_map.mpr (h.order t)
      rw [← hmap] at horder
      exact List.pairwise_map.mp horder
    · rw [if_neg ht]
      exact h.order t

/-- **The step lemma.** -/
theorem step (h : Invariant w) (e : Event) : Invariant (w.step e) := by
  rcases w.step_spec e with ⟨hsame, -⟩ | ⟨record, -, heq, -⟩ | ⟨t, kind, scope, hsame, -⟩ |
    ⟨ref, t, index, -, hsame⟩
  · exact h.congr hsame
  · exact heq ▸ h.appendOther record
  · exact (h.append t kind scope).congr hsame
  · exact ((h.offset ref index).append t .compensation none).congr hsame

/-- **The run lemma.** -/
theorem run (h : Invariant w) (events : List Event) : Invariant (w.run events) := by
  induction events generalizing w with
  | nil => exact h
  | cons e events ih => exact ih (h.step e)

theorem start (components : Nat → String) (seq : Nat) :
    Invariant (World.start components seq) where
  index t i s hs := by simp [World.start] at hs
  logged t s hs := by simp [World.start] at hs
  seqs := List.Pairwise.nil
  below r hr := absurd hr List.not_mem_nil
  order t := List.Pairwise.nil

end Invariant

/-! ## Which steps are offset -/

/-- The step is there and carries an offset. -/
def IsOffset (w : World) (ref : StepRef) : Prop :=
  ∃ s, (w.timelines ref.timeline).steps[ref.index]? = some s ∧ s.compensation.isSome

namespace IsOffset

open World

variable {w w' : World}

theorem congr (hsame : SameLog w' w) (ref : StepRef) : IsOffset w' ref ↔ IsOffset w ref := by
  unfold IsOffset
  rw [hsame.steps]

/-- A step is appended without an offset. -/
theorem append (t : Nat) (kind : Kind) (scope : Option Scope) (ref : StepRef) :
    IsOffset (w.append t kind scope) ref ↔ IsOffset w ref := by
  unfold IsOffset
  rw [steps_append]
  by_cases ht : ref.timeline = t
  · subst ht
    rw [if_pos rfl]
    constructor
    · rintro ⟨s, hs, hoff⟩
      rw [List.getElem?_append] at hs
      by_cases hi : ref.index < (w.timelines ref.timeline).steps.length
      · rw [if_pos hi] at hs
        exact ⟨s, hs, hoff⟩
      · rw [if_neg hi] at hs
        obtain rfl := List.mem_singleton.mp (List.mem_of_getElem? hs)
        simp at hoff
    · rintro ⟨s, hs, hoff⟩
      have hi := (List.getElem?_eq_some_iff.mp hs).1
      exact ⟨s, by rw [List.getElem?_append_left hi, hs], hoff⟩
  · rw [if_neg ht]

theorem offset (ref : StepRef) (index : Nat) (ref' : StepRef) :
    IsOffset (w.offset ref index) ref' ↔
      IsOffset w ref' ∨ ref = ref' ∧ ref'.index < (w.timelines ref'.timeline).steps.length := by
  unfold IsOffset
  rw [steps_offset]
  by_cases ht : ref'.timeline = ref.timeline
  · rw [if_pos ht]
    simp only [List.getElem?_modify, Option.map_eq_map, Option.map_eq_some_iff]
    by_cases hi : ref.index = ref'.index
    · have href : ref = ref' := by
        cases ref
        cases ref'
        simp_all
      subst href
      simp only [if_true, true_and]
      constructor
      · rintro ⟨s, ⟨s', hs', -⟩, -⟩
        exact .inr (List.getElem?_eq_some_iff.mp hs').1
      · rintro (⟨s, hs, -⟩ | hlt)
        · exact ⟨_, ⟨s, hs, rfl⟩, rfl⟩
        · exact ⟨_, ⟨_, List.getElem?_eq_getElem hlt, rfl⟩, rfl⟩
    · have hne : ref ≠ ref' := fun h => hi (h ▸ rfl)
      simp only [if_neg hi, hne, false_and, or_false]
      constructor
      · rintro ⟨s, ⟨s', hs', rfl⟩, hoff⟩
        exact ⟨s', hs', hoff⟩
      · rintro ⟨s, hs, hoff⟩
        exact ⟨s, ⟨s, hs, rfl⟩, hoff⟩
  · have hne : ref ≠ ref' := fun h => ht (h ▸ rfl)
    rw [if_neg ht]
    simp only [hne, false_and, or_false]

/-- An event offsets the step it pairs its compensation with, and no other. -/
theorem step_iff (e : Event) (ref : StepRef) :
    IsOffset (w.step e) ref ↔ IsOffset w ref ∨
      e.paired w = some ref ∧ ref.index < (w.timelines ref.timeline).steps.length := by
  rcases w.step_spec e with ⟨hsame, hnone⟩ | ⟨record, -, heq, hnone⟩ |
    ⟨t, kind, scope, hsame, hnone⟩ | ⟨paired, t, index, hpaired, hsame⟩
  · rw [congr hsame, hnone]
    simp
  · rw [heq, hnone]
    simp only [reduceCtorEq, false_and, or_false]
    exact Iff.rfl
  · rw [congr hsame, append, hnone]
    simp
  · rw [congr hsame, append, offset, hpaired, Option.some.injEq]

/-- **A step is offset exactly when a compensation of the run was paired with it.** -/
theorem run_iff (components : Nat → String) (seq : Nat) (events : List Event) (ref : StepRef) :
    IsOffset ((World.start components seq).run events) ref ↔
      Offset (World.start components seq) events ref := by
  induction events using List.reverseRecOn with
  | nil =>
    constructor
    · rintro ⟨s, hs, -⟩
      simp [World.run, World.start] at hs
    · rintro ⟨pre, e, post, heq, -⟩
      simp at heq
  | append_singleton events e ih =>
    have hrun : (World.start components seq).run (events ++ [e]) =
        ((World.start components seq).run events).step e := by
      simp [World.run]
    rw [hrun, step_iff, ih]
    constructor
    · rintro (⟨pre, d, post, rfl, hd⟩ | he)
      · exact ⟨pre, d, post ++ [e], by simp, hd⟩
      · exact ⟨events, e, [], rfl, he⟩
    · rintro ⟨pre, d, post, heq, hd⟩
      rcases List.eq_nil_or_concat post with rfl | ⟨post, last, rfl⟩
      · obtain ⟨rfl, hlast⟩ := List.append_inj' heq rfl
        obtain rfl := (List.cons.inj hlast).1
        exact .inr hd
      · refine .inl ⟨pre, d, post, ?_, hd⟩
        have : events ++ [e] = (pre ++ d :: post) ++ [last] := by simpa using heq
        exact (List.append_inj' this rfl).1

end IsOffset

/-! ## Live and offline -/

theorem mem_classifyTail {steps : List Step} {k : Nat} {b : Bucket} {s : Step} :
    s ∈ classifyTail steps k b ↔
      s ∈ steps ∧ k < s.index ∧ bucketOf s.kind s.scope s.compensation.isSome = some b := by
  rw [classifyTail, List.mem_filter, List.mem_reverse, List.mem_filter, decide_eq_true_eq,
    beq_iff_eq, and_assoc]

theorem mem_partition {wal : List Record} {pos : Nat} {b : Bucket} {r : Record} :
    r ∈ partition wal pos b ↔
      r ∈ wal ∧ r.record = "effect" ∧ pos < r.seq ∧
        bucketOf r.kind r.scope r.compensated = some b := by
  rw [partition, List.mem_filter, List.mem_reverse, List.mem_filter, List.mem_filter,
    decide_eq_true_eq, beq_iff_eq, beq_iff_eq, and_assoc, and_assoc]

/-- A position of the log is one record's. -/
theorem Invariant.eq_of_seq {w : World} (h : Invariant w) {r r' : Record} (hr : r ∈ w.wal)
    (hr' : r' ∈ w.wal) (hseq : r.seq = r'.seq) : r = r' := by
  have hinj : (w.wal.map (·.seq)).Pairwise (· < ·) := List.pairwise_map.mpr h.seqs
  exact List.inj_on_of_nodup_map hinj.nodup hr hr' hseq

/-- Later steps have later positions. -/
theorem Invariant.walSeq_lt {w : World} (h : Invariant w) {t : Nat} {s s' : Step}
    (hs : s ∈ (w.timelines t).steps) (hs' : s' ∈ (w.timelines t).steps)
    (hlt : s.index < s'.index) : s.walSeq < s'.walSeq := by
  obtain ⟨i, hi⟩ := List.mem_iff_getElem?.mp hs
  obtain ⟨j, hj⟩ := List.mem_iff_getElem?.mp hs'
  rw [h.index t i s hi, h.index t j s' hj] at hlt
  obtain ⟨hi', rfl⟩ := List.getElem?_eq_some_iff.mp hi
  obtain ⟨hj', rfl⟩ := List.getElem?_eq_some_iff.mp hj
  exact List.pairwise_iff_getElem.mp (h.order t) i j hi' hj' hlt

/-- A step is offline in the bucket of what it was when it was appended. -/
theorem Invariant.exists_record_iff {w : World} (h : Invariant w) {t : Nat} {sk s : Step}
    (hsk : sk ∈ (w.timelines t).steps) (hs : s ∈ (w.timelines t).steps)
    (hlt : sk.index < s.index) (b : Bucket) :
    (∃ r ∈ partition w.wal sk.walSeq b, r.seq = s.walSeq) ↔
      bucketOf s.kind s.scope false = some b := by
  obtain ⟨r, hr, heffect, hseq, hkind, hscope, hcomp⟩ := h.logged t s hs
  constructor
  · rintro ⟨r', hr', hseq'⟩
    obtain ⟨hmem, -, -, hbucket⟩ := mem_partition.mp hr'
    rw [h.eq_of_seq hmem hr (hseq'.trans hseq.symm), hkind, hscope, hcomp] at hbucket
    exact hbucket
  · intro hbucket
    refine ⟨r, mem_partition.mpr ⟨hr, heffect, ?_, ?_⟩, hseq⟩
    · rw [hseq]
      exact h.walSeq_lt hsk hs hlt
    · rw [hkind, hscope, hcomp]
      exact hbucket

/-- The offset of a step matters to its bucket only if it is an emission. -/
theorem bucketOf_agrees_iff (kind : Kind) (scope : Option Scope) (compensated : Bool) :
    (∀ b, bucketOf kind scope compensated = some b ↔ bucketOf kind scope false = some b) ↔
      ¬ (kind = .emission ∧ compensated = true) := by
  constructor
  · rintro h ⟨rfl, rfl⟩
    have := (h .compensated).mp rfl
    simp [bucketOf] at this
  · intro h b
    cases compensated with
    | false => exact Iff.rfl
    | true =>
      cases kind with
      | emission => exact absurd ⟨rfl, rfl⟩ h
      | _ => exact Iff.rfl

/-- **The exact condition.** In every run of any number of timelines that write to one log, at
every step of a timeline: the offline partition above the step's position puts each later step of
the timeline in the bucket the live one puts it in, exactly when no compensation of the run was
paired with an emission after that step. -/
theorem partition_agrees_iff (components : Nat → String) (seq : Nat) (events : List Event)
    (t k : Nat) :
    let w := (World.start components seq).run events
    k < (w.timelines t).steps.length →
      (Agrees w t k ↔
        ∀ s ∈ (w.timelines t).steps, k < s.index → s.kind = .emission →
          ¬ Offset (World.start components seq) events ⟨t, s.index⟩) := by
  intro w hk
  have hinv : Invariant w := (Invariant.start components seq).run events
  have hindexed : ∀ s ∈ (w.timelines t).steps, (w.timelines t).steps[s.index]? = some s := by
    intro s hs
    obtain ⟨i, hi⟩ := List.mem_iff_getElem?.mp hs
    rw [hinv.index t i s hi]
    exact hi
  have hoffset : ∀ s ∈ (w.timelines t).steps,
      (Offset (World.start components seq) events ⟨t, s.index⟩ ↔ s.compensation.isSome = true) := by
    intro s hs
    rw [← IsOffset.run_iff]
    constructor
    · rintro ⟨s', hs', hoff⟩
      obtain rfl : s' = s := Option.some.inj (hs'.symm.trans (hindexed s hs))
      exact hoff
    · exact fun hoff => ⟨s, hindexed s hs, hoff⟩
  -- at a later step the two partitions agree as the two buckets do
  have hbucket : ∀ sk ∈ (w.timelines t).steps, sk.index = k → ∀ s ∈ (w.timelines t).steps,
      k < s.index → ((∀ b, (s ∈ classifyTail (w.timelines t).steps k b ↔
        ∃ r ∈ partition w.wal sk.walSeq b, r.seq = s.walSeq)) ↔
          ¬ (s.kind = .emission ∧ s.compensation.isSome = true)) := by
    intro sk hsk hskk s hs hlt
    rw [← bucketOf_agrees_iff s.kind s.scope]
    refine forall_congr' fun b => ?_
    rw [hinv.exists_record_iff hsk hs (hskk ▸ hlt), mem_classifyTail]
    simp only [hs, hlt, true_and]
  obtain ⟨sk, hsk⟩ : ∃ sk, (w.timelines t).steps[k]? = some sk := ⟨_, List.getElem?_eq_getElem hk⟩
  have hskmem := List.mem_of_getElem? hsk
  have hskk := hinv.index t k sk hsk
  constructor
  · intro hagree s hs hlt hkind hoff
    exact (hbucket sk hskmem hskk s hs hlt).mp (hagree sk hskmem hskk s hs hlt)
      ⟨hkind, (hoffset s hs).mp hoff⟩
  · intro hnone sk' hsk' hskk' s hs hlt
    refine (hbucket sk' hsk' hskk' s hs hlt).mpr fun ⟨hkind, hoff⟩ => ?_
    exact hnone s hs hlt hkind ((hoffset s hs).mpr hoff)

/-- A run whose emission is not offset satisfies the condition. -/
theorem partition_agrees_iff_plain :
    let w := (World.start (fun _ => "shop") 0).run
      [.yielded 0 .nothing none, .emission 0 none 0]
    0 < (w.timelines 0).steps.length ∧ Agrees w 0 0 := by
  refine ⟨by decide, (partition_agrees_iff (fun _ => "shop") 0 _ 0 0 (by decide)).mpr ?_⟩
  rintro s - - - ⟨pre, e, post, heq, hpaired, -⟩
  have hmem : e ∈ [Event.yielded 0 .nothing none, .emission 0 none 0] := by
    rw [heq]
    exact List.mem_append_right pre List.mem_cons_self
  rcases List.mem_cons.mp hmem with rfl | hmem
  · exact absurd hpaired (by simp [Event.paired])
  · obtain rfl := List.mem_singleton.mp hmem
    exact absurd hpaired (by simp [Event.paired])

/-- An emission and the compensation registered on the next line: live it is compensated, and
offline it crossed, since its record was written first. -/
theorem compensated_emission_differs :
    let w := (World.start (fun _ => "shop") 0).run
      [.yielded 0 .nothing none, .emission 0 (some "shop.revl") 4,
        .yielded 0 (.disposer ⟨1, true, none, some ("shop.revl", 5), none⟩) none]
    ¬ Agrees w 0 0 := by
  intro w h
  have hiff := h ⟨0, .boundary, none, none, 0⟩ (by decide) rfl
    ⟨1, .emission, none, some 2, 1⟩ (by decide) (by decide) .crossed
  revert hiff
  decide

end Revl.Fork
