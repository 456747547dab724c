import Revl.Lib.Fence
import Revl.Recovery.Redaction

/-!
# Shared grants over many runs

A shared grant that a crash left counted is reclaimed by its inverse, fenced by its handle. The
calls are made by recovery itself or, under a composition binding, by the runtime.

- `Runtime`, `Runtime.reclaimShared`: the reclaim of the runtime, behind a binding.
- `Outstanding`: what a log says is still counted, read by position.
- `Pass`: what a pass does, grant by grant.
- `shared_reclaimed`: **where no completed handle is outstanding again, a pass attempts what is
  outstanding and no attempt is repeated, and it is clean only when all of it was reclaimed.**
-/

namespace Revl.Recovery

open Fence

/-! ## The runtime -/

/-- What is done about a grant, in order. -/
inductive SharedAct where
  | fence (handle : String)
  | attempt (handle : String)
  | complete (handle : String)
  deriving DecidableEq, Repr

def SharedAct.handle : SharedAct → String
  | .fence handle => handle
  | .attempt handle => handle
  | .complete handle => handle

/-- The record it leaves in the log. -/
def SharedAct.record? : SharedAct → Option WalRecord
  | .fence handle => some (.sharedReclaimFence handle)
  | .complete handle => some (.sharedComplete handle)
  | .attempt _ => none

def written (acts : List SharedAct) : List WalRecord := acts.filterMap SharedAct.record?

/-- What calling an inverse comes to. `refused` is a halt seen before the call. -/
inductive Fired where
  | refused
  | halted
  | raised
  | returned
  deriving DecidableEq, Repr

/-- The runtime behind a composition binding. -/
structure Runtime where
  /-- The grant was written by another composition. -/
  otherGeneration : String → Bool
  /-- Reaching the receiver would activate its provider again. -/
  wouldReactivate : Option String → Bool
  /-- `_resolve_call` finds a host body. -/
  resolves : Call → Bool
  /-- `_halted_now`. -/
  halted : List Event → Bool
  fire : List Event → Grant → Fired

/-- `declined`, and `reclaim_shared` of one grant over the log as it stands. -/
def Runtime.reclaimShared (rt : Runtime) (events : List Event) (log : List WalRecord)
    (g : Grant) : BindingOutcome × List SharedAct :=
  if rt.otherGeneration g.handle then (.otherGeneration, [])
  else if rt.wouldReactivate g.inverse.receiver then (.wouldReactivate, [])
  else if g.handle ∈ sharedCompletedOf log ∨
      (g.holders = [] ∧ g.handle ∉ sharedFencesOf log) then (.settled, [])
  else if g.handle ∈ sharedFencesOf log then (.fenced, [])
  else if !(rt.resolves g.inverse && g.inverse.args.isSome) then (.unresolved, [])
  else if rt.halted events then (.stranded, [])
  else
    match rt.fire events g with
    | .refused => (.stranded, [.fence g.handle])
    | .halted => (.stranded, [.fence g.handle, .attempt g.handle])
    | .raised => (.failed, [.fence g.handle, .attempt g.handle])
    | .returned => (.ran, [.fence g.handle, .attempt g.handle, .complete g.handle])

/-! ## A pass -/

/-- The events of a pass, and what they come to. -/
structure Ledger where
  events : List Event
  acts : List SharedAct

def Ledger.add (rt : Option Runtime) (records : List WalRecord) (l : Ledger) (event : Event) :
    Ledger where
  events := l.events ++ [event]
  acts := l.acts ++
    match event with
    | .sharedReclaimFence handle => [.fence handle]
    | .applyInverse (.shared handle) _ => [.attempt handle]
    | .reclaimShared g =>
      match rt with
      | none => []
      | some rt => (rt.reclaimShared l.events (records ++ written l.acts) g).2
    | _ => []

def ledger (rt : Option Runtime) (records : List WalRecord) (events : List Event) : Ledger :=
  events.foldl (Ledger.add rt records) ⟨[], []⟩

/-- A pass over the grants of a log: the world, the runtime it is bound to if it is, and how many
acts it came to. -/
structure SharedRun where
  world : World
  runtime : Option Runtime
  basis : Basis
  cut : Nat

namespace SharedRun

/-- The world a pass runs on. A binding answers from the log as the pass has left it. -/
def worldOver (run : SharedRun) (records : List WalRecord) : World :=
  match run.runtime with
  | none => { run.world with reclaimsShared := false }
  | some rt =>
    { run.world with
        reIssuesCalls := false
        reclaimsShared := true
        reclaimShared := fun events g =>
          (rt.reclaimShared events
            (records ++ written (ledger (some rt) records events).acts) g).1 }

/-- An attempt of the run reaches the outside world, and is fenced. -/
def fenced (run : SharedRun) : Bool := run.runtime.isSome || run.world.spendsFences

/-- Recovery makes the calls itself. -/
def attempts (run : SharedRun) : Bool := run.runtime.isNone && run.world.reIssuesCalls

/-- The pass, as far as it goes when it is not cut. -/
def result (run : SharedRun) (records : List WalRecord) : Shared :=
  recoverSharedGrants (run.worldOver records) true run.basis records []

def acts (run : SharedRun) (records : List WalRecord) : List SharedAct :=
  (ledger run.runtime records (run.result records).trace).acts

/-- `clean`. -/
def clean (run : SharedRun) (records : List WalRecord) : Bool :=
  (run.result records).reclaims.all Reclaim.ok

/-- The log a run leaves. -/
def after (run : SharedRun) (records : List WalRecord) : List WalRecord :=
  records ++ written ((run.acts records).take run.cut)

end SharedRun

/-- The log a sequence of runs leaves. -/
def logAfter (records : List WalRecord) : List SharedRun → List WalRecord
  | [] => records
  | run :: runs => logAfter (run.after records) runs

/-- How often the inverse of a handle is attempted against the outside world. -/
def attemptsOf (handle : String) (records : List WalRecord) : List SharedRun → Nat
  | [] => 0
  | run :: runs =>
    (if run.fenced then ((run.acts records).take run.cut).count (.attempt handle) else 0) +
      attemptsOf handle (run.after records) runs

/-! ## What is outstanding -/

/-- The records after the last completion of a handle. -/
def sinceComplete (handle : String) : List WalRecord → List WalRecord
  | [] => []
  | r :: rs => if .sharedComplete handle ∈ r :: rs then sinceComplete handle rs else r :: rs

/-- The grant is counted by the last record of its handle, or an attempt on it is fenced, and no
completion came after. -/
structure Outstanding (records : List WalRecord) (g : Grant) : Prop where
  current : latestGrant (sinceComplete g.handle records) g.handle = some g
  counted : g.holders ≠ [] ∨ g.handle ∈ sharedFencesOf (sinceComplete g.handle records)

/-- No attempt on it is fenced since the last completion. -/
def Unfenced (records : List WalRecord) (g : Grant) : Prop :=
  g.handle ∉ sharedFencesOf (sinceComplete g.handle records)

instance (records : List WalRecord) (g : Grant) : Decidable (Unfenced records g) :=
  inferInstanceAs (Decidable (_ ∉ _))

/-- No handle is outstanding again after a completion. -/
def NoRegrant (records : List WalRecord) : Prop :=
  ∀ g, Outstanding records g → g.handle ∉ sharedCompletedOf records

variable {records : List WalRecord}

theorem mem_sharedCompletedOf {handle : String} :
    handle ∈ sharedCompletedOf records ↔ .sharedComplete handle ∈ records := by
  constructor
  · intro h
    obtain ⟨r, hr, hh⟩ := List.mem_filterMap.1 h
    cases r with
    | sharedComplete k =>
      obtain rfl : k = handle := Option.some.inj hh
      exact hr
    | _ => exact nomatch hh
  · exact fun h => List.mem_filterMap.2 ⟨_, h, rfl⟩

theorem mem_sharedFencesOf {handle : String} :
    handle ∈ sharedFencesOf records ↔ .sharedReclaimFence handle ∈ records := by
  constructor
  · intro h
    obtain ⟨r, hr, hh⟩ := List.mem_filterMap.1 h
    cases r with
    | sharedReclaimFence k =>
      obtain rfl : k = handle := Option.some.inj hh
      exact hr
    | _ => exact nomatch hh
  · exact fun h => List.mem_filterMap.2 ⟨_, h, rfl⟩

theorem sinceComplete_of_not_mem {handle : String} (h : handle ∉ sharedCompletedOf records) :
    sinceComplete handle records = records := by
  rw [mem_sharedCompletedOf] at h
  cases records with
  | nil => rfl
  | cons r rs => rw [sinceComplete, if_neg h]

theorem sinceComplete_append {handle : String} (records extra : List WalRecord) :
    sinceComplete handle (records ++ extra) =
      if .sharedComplete handle ∈ extra then sinceComplete handle extra
      else sinceComplete handle records ++ extra := by
  induction records with
  | nil =>
    split
    · rfl
    · rename_i h
      exact sinceComplete_of_not_mem (by rwa [mem_sharedCompletedOf])
  | cons r rs ih =>
    rw [List.cons_append, sinceComplete, ih]
    by_cases hextra : .sharedComplete handle ∈ extra
    · rw [if_pos (List.mem_cons_of_mem _ (List.mem_append_right rs hextra)), if_pos hextra,
        if_pos hextra]
    · rw [if_neg hextra, if_neg hextra, sinceComplete]
      by_cases hmem : .sharedComplete handle ∈ r :: rs
      · rw [if_pos hmem, if_pos (by rw [← List.cons_append]; exact List.mem_append_left extra hmem)]
      · rw [if_neg hmem, if_neg (by
          rw [← List.cons_append, List.mem_append, not_or]
          exact ⟨hmem, hextra⟩), List.cons_append]

theorem latestGrant_append (records extra : List WalRecord) (handle : String) :
    latestGrant (records ++ extra) handle =
      (latestGrant extra handle).or (latestGrant records handle) := by
  rw [latestGrant, grantsOf, List.filterMap_append, List.map_append, Assoc.get?_append]
  rfl

theorem handle_latestGrant {handle : String} {g : Grant}
    (h : latestGrant records handle = some g) : g.handle = handle := by
  obtain ⟨g', -, hg'⟩ := List.mem_map.1 (Assoc.mem_of_get? h)
  obtain ⟨rfl, rfl⟩ := Prod.mk.inj hg'
  rfl

theorem mem_latestGrants {g : Grant} :
    g ∈ latestGrants records ↔ latestGrant records g.handle = some g := by
  rw [latestGrants, List.mem_filterMap]
  constructor
  · rintro ⟨handle, -, h⟩
    rwa [handle_latestGrant h]
  · intro h
    refine ⟨g.handle, ?_, h⟩
    rw [List.mem_insertionSort, List.mem_dedup]
    obtain ⟨g', hg', heq⟩ := List.mem_map.1 (Assoc.mem_of_get? h)
    obtain ⟨-, rfl⟩ := Prod.mk.inj heq
    exact List.mem_map_of_mem hg'

/-- Each handle is met once. -/
theorem nodup_latestGrants : ((latestGrants records).map Grant.handle).Nodup := by
  have hsub : ∀ handles : List String, handles.Nodup →
      ((handles.filterMap (latestGrant records)).map Grant.handle).Nodup := by
    intro handles hnodup
    refine (List.Nodup.sublist ?_ hnodup)
    induction handles with
    | nil => exact List.Sublist.slnil
    | cons handle handles ih =>
      cases hg : latestGrant records handle with
      | none =>
        rw [List.filterMap_cons_none hg]
        exact (ih hnodup.of_cons).cons handle
      | some g =>
        rw [List.filterMap_cons_some hg, List.map_cons, handle_latestGrant hg]
        exact (ih hnodup.of_cons).cons_cons handle
  refine hsub _ ?_
  exact (List.perm_insertionSort _ _).nodup_iff.2 (List.nodup_dedup _)

/-! ## One grant -/

/-- The grant is counted, and no attempt on it is fenced. -/
structure Due (records : List WalRecord) (g : Grant) : Prop where
  incomplete : g.handle ∉ sharedCompletedOf records
  unfenced : g.handle ∉ sharedFencesOf records
  counted : g.holders ≠ []

/-- The record of a grant: done, or not. -/
def Filed (g : Grant) (basis : Basis) (r : Reclaim) : Prop :=
  r = .done g basis ∨ r.handle = g.handle ∧ r.ok = false

/-- What a pass does about one grant, and what it reports. -/
inductive Reclaims (fenced attempts : Bool) (basis : Basis) (records : List WalRecord)
    (g : Grant) : List SharedAct → List Reclaim → Prop where
  | passed (over_ : g.handle ∈ sharedCompletedOf records ∨
      g.handle ∉ sharedFencesOf records ∧ g.holders = []) :
      Reclaims fenced attempts basis records g [] []
  | unknown (incomplete : g.handle ∉ sharedCompletedOf records)
      (spent : g.handle ∈ sharedFencesOf records) {r : Reclaim} (handle : r.handle = g.handle)
      (failed : r.ok = false) : Reclaims fenced attempts basis records g [] [r]
  | declined (due : Due records g) (idle : attempts = false) {r : Reclaim}
      (handle : r.handle = g.handle) (failed : r.ok = false) {acts : List SharedAct}
      (stopped : acts = [] ∨ fenced = true ∧ acts = [.fence g.handle]) :
      Reclaims fenced attempts basis records g acts [r]
  | fired (due : Due records g) (guarded : fenced = true) {r : Reclaim} (filed : Filed g basis r)
      {landed : List SharedAct} (closing : landed = [] ∨ landed = [.complete g.handle]) :
      Reclaims fenced attempts basis records g (.fence g.handle :: .attempt g.handle :: landed) [r]
  | modelled (due : Due records g) (unguarded : fenced = false) {r : Reclaim}
      (filed : Filed g basis r) :
      Reclaims fenced attempts basis records g [.attempt g.handle] [r]

theorem ledger_append (rt : Option Runtime) (records : List WalRecord) (events more : List Event) :
    ledger rt records (events ++ more) = more.foldl (Ledger.add rt records) (ledger rt records events) :=
  List.foldl_append

theorem events_ledger (rt : Option Runtime) (records : List WalRecord) (events : List Event) :
    (ledger rt records events).events = events := by
  induction events using List.reverseRecOn with
  | nil => rfl
  | append_singleton events event ih =>
    rw [ledger_append, List.foldl_cons, List.foldl_nil]
    exact congrArg (· ++ [event]) ih

/-- What was done about other handles leaves a handle's records alone. -/
theorem records_of_others {acts : List SharedAct} {handle : String}
    (h : ∀ a ∈ acts, a.handle ≠ handle) :
    (handle ∈ sharedCompletedOf (records ++ written acts) ↔ handle ∈ sharedCompletedOf records) ∧
      (handle ∈ sharedFencesOf (records ++ written acts) ↔ handle ∈ sharedFencesOf records) := by
  have hnot : ∀ r ∈ written acts, r ≠ .sharedComplete handle ∧ r ≠ .sharedReclaimFence handle := by
    intro r hr
    obtain ⟨a, ha, hrec⟩ := List.mem_filterMap.1 hr
    have hne := h a ha
    cases a with
    | fence k =>
      obtain rfl := Option.some.inj hrec
      exact ⟨nofun, fun heq => hne (WalRecord.sharedReclaimFence.inj heq)⟩
    | attempt k => exact nomatch hrec
    | complete k =>
      obtain rfl := Option.some.inj hrec
      exact ⟨fun heq => hne (WalRecord.sharedComplete.inj heq), nofun⟩
  rw [mem_sharedCompletedOf, mem_sharedCompletedOf, mem_sharedFencesOf, mem_sharedFencesOf,
    List.mem_append, List.mem_append]
  exact ⟨or_iff_left fun hr => (hnot _ hr).1 rfl, or_iff_left fun hr => (hnot _ hr).2 rfl⟩

/-- The runtime's reclaim of a grant that is due. -/
theorem reclaims_runtime {rt : Runtime} {basis : Basis} {events : List Event}
    {log : List WalRecord} {g : Grant} (due : Due records g)
    (hlog : (g.handle ∈ sharedCompletedOf log ↔ g.handle ∈ sharedCompletedOf records) ∧
      (g.handle ∈ sharedFencesOf log ↔ g.handle ∈ sharedFencesOf records))
    {o : BindingOutcome} {acts : List SharedAct} (h : rt.reclaimShared events log g = (o, acts))
    {message : String} {unknown : Bool} :
    Reclaims true false basis records g acts
      [if o = .ran ∨ o = .settled then .done g basis
        else .failed g basis ⟨o.name, message⟩ unknown] := by
  have hcomplete : g.handle ∉ sharedCompletedOf log := fun hc => due.incomplete (hlog.1.1 hc)
  have hfence : g.handle ∉ sharedFencesOf log := fun hf => due.unfenced (hlog.2.1 hf)
  have hsettled : ¬(g.handle ∈ sharedCompletedOf log ∨
      (g.holders = [] ∧ g.handle ∉ sharedFencesOf log)) := by
    rintro (hc | ⟨hh, -⟩)
    · exact hcomplete hc
    · exact due.counted hh
  rw [Runtime.reclaimShared, if_neg hsettled, if_neg hfence] at h
  split at h
  · obtain ⟨rfl, rfl⟩ := Prod.mk.inj h
    exact .declined due rfl rfl rfl (.inl rfl)
  split at h
  · obtain ⟨rfl, rfl⟩ := Prod.mk.inj h
    exact .declined due rfl rfl rfl (.inl rfl)
  split at h
  · obtain ⟨rfl, rfl⟩ := Prod.mk.inj h
    exact .declined due rfl rfl rfl (.inl rfl)
  split at h
  · obtain ⟨rfl, rfl⟩ := Prod.mk.inj h
    exact .declined due rfl rfl rfl (.inl rfl)
  cases hfire : rt.fire events g with
  | refused =>
    rw [hfire] at h
    obtain ⟨rfl, rfl⟩ := Prod.mk.inj h
    exact .declined due rfl rfl rfl (.inr ⟨rfl, rfl⟩)
  | halted =>
    rw [hfire] at h
    obtain ⟨rfl, rfl⟩ := Prod.mk.inj h
    exact .fired due rfl (.inr ⟨rfl, rfl⟩) (.inl rfl)
  | raised =>
    rw [hfire] at h
    obtain ⟨rfl, rfl⟩ := Prod.mk.inj h
    exact .fired due rfl (.inr ⟨rfl, rfl⟩) (.inl rfl)
  | returned =>
    rw [hfire] at h
    obtain ⟨rfl, rfl⟩ := Prod.mk.inj h
    exact .fired due rfl (.inl rfl) (.inr rfl)

/-- A grant that is due, under a binding. -/
theorem sharedStep_bound {w : World} (hbound : w.reclaimsShared = true) {durable : Bool}
    {basis : Basis} {g : Grant} (due : Due records g) (s : Shared) :
    sharedStep w durable basis records s g =
      ⟨s.trace ++ [.reclaimShared g],
        s.reclaims ++ [if w.reclaimShared s.trace g = .ran ∨ w.reclaimShared s.trace g = .settled
          then .done g basis
          else .failed g basis ⟨(w.reclaimShared s.trace g).name,
            reclaimMessage w g (w.reclaimShared s.trace g)⟩
            (w.reclaimShared s.trace g == .fenced)]⟩ := by
  rw [sharedStep, if_neg due.incomplete, if_neg due.unfenced, if_neg due.counted, if_pos hbound]
  by_cases hdone : w.reclaimShared s.trace g = .ran ∨ w.reclaimShared s.trace g = .settled
  · simp only [if_pos hdone, Shared.add, Shared.emit]
  · simp only [if_neg hdone, Shared.add, Shared.emit]

/-- A grant that is due, where recovery makes the call. -/
theorem sharedStep_calls {w : World} (hfree : w.reclaimsShared = false)
    (hcalls : w.reIssuesCalls = true) {basis : Basis} {g : Grant} (due : Due records g)
    (s : Shared) :
    ∃ r, Filed g basis r ∧ sharedStep w true basis records s g =
      ⟨s.trace ++ ((if w.spendsFences then [.sharedReclaimFence g.handle] else []) ++
        [.applyInverse (.shared g.handle) g.inverse]), s.reclaims ++ [r]⟩ := by
  rw [sharedStep, if_neg due.incomplete, if_neg due.unfenced, if_neg due.counted,
    if_neg (by simp [hfree]), if_neg (by simp [hcalls])]
  simp only [Bool.true_and]
  by_cases hspends : w.spendsFences = true
  · simp only [if_pos hspends, Shared.emit, Shared.add]
    split
    · rename_i error _
      exact ⟨.failed g basis error false, .inr ⟨rfl, rfl⟩, by simp⟩
    · exact ⟨.done g basis, .inl rfl, by simp⟩
  · simp only [if_neg hspends, Shared.emit, Shared.add]
    split
    · rename_i error _
      exact ⟨.failed g basis error false, .inr ⟨rfl, rfl⟩, by simp⟩
    · exact ⟨.done g basis, .inl rfl, by simp⟩

/-- **One grant of a pass.** -/
theorem reclaims_step (run : SharedRun) (records : List WalRecord) (s : Shared) (g : Grant)
    (hothers : ∀ a ∈ (ledger run.runtime records s.trace).acts, a.handle ≠ g.handle) :
    ∃ acts reclaims, Reclaims run.fenced run.attempts run.basis records g acts reclaims ∧
      (ledger run.runtime records
        (sharedStep (run.worldOver records) true run.basis records s g).trace).acts =
          (ledger run.runtime records s.trace).acts ++ acts ∧
      (sharedStep (run.worldOver records) true run.basis records s g).reclaims =
        s.reclaims ++ reclaims := by
  by_cases hcomplete : g.handle ∈ sharedCompletedOf records
  · rw [sharedStep, if_pos hcomplete]
    exact ⟨[], [], .passed (.inl hcomplete), (List.append_nil _).symm, (List.append_nil _).symm⟩
  by_cases hfence : g.handle ∈ sharedFencesOf records
  · rw [sharedStep, if_neg hcomplete, if_pos hfence]
    exact ⟨[], _, .unknown hcomplete hfence rfl rfl, (List.append_nil _).symm, rfl⟩
  by_cases hholders : g.holders = []
  · rw [sharedStep, if_neg hcomplete, if_neg hfence, if_pos hholders]
    exact ⟨[], [], .passed (.inr ⟨hfence, hholders⟩), (List.append_nil _).symm,
      (List.append_nil _).symm⟩
  have due : Due records g := ⟨hcomplete, hfence, hholders⟩
  obtain ⟨world, runtime, basis, cut⟩ := run
  cases runtime with
  | some rt =>
    -- the binding: the runtime writes the records
    rw [sharedStep_bound rfl due]
    refine ⟨_, _, reclaims_runtime due (records_of_others hothers) (Prod.mk.eta).symm, ?_, rfl⟩
    rw [ledger_append, List.foldl_cons, List.foldl_nil, Ledger.add, events_ledger]
  | none =>
    by_cases hcalls : world.reIssuesCalls = true
    · obtain ⟨r, hfiled, hstep⟩ : ∃ r, Filed g basis r ∧ _ := sharedStep_calls
        (w := SharedRun.worldOver ⟨world, none, basis, cut⟩ records) rfl hcalls due s
      rw [hstep, ledger_append]
      by_cases hspends : world.spendsFences = true
      · refine ⟨_, _, .fired due hspends hfiled (.inl rfl), ?_, rfl⟩
        rw [if_pos (show World.spendsFences (SharedRun.worldOver ⟨world, none, basis, cut⟩ records)
          = true from hspends), List.cons_append, List.nil_append, List.foldl_cons, List.foldl_cons,
          List.foldl_nil]
        simp only [Ledger.add, List.append_assoc, List.cons_append, List.nil_append]
      · have hunspent : world.spendsFences = false := Bool.eq_false_iff.2 hspends
        refine ⟨_, _, .modelled due hunspent hfiled, ?_, rfl⟩
        rw [if_neg (show ¬World.spendsFences (SharedRun.worldOver ⟨world, none, basis, cut⟩ records)
          = true from hspends), List.nil_append, List.foldl_cons, List.foldl_nil]
        simp only [Ledger.add]
    · have hidle : SharedRun.attempts ⟨world, none, basis, cut⟩ = false :=
        Bool.eq_false_iff.2 hcalls
      rw [sharedStep, if_neg hcomplete, if_neg hfence, if_neg hholders, if_neg (by nofun),
        if_pos (by simpa [SharedRun.worldOver] using hcalls)]
      exact ⟨[], _, .declined due hidle rfl rfl (.inl rfl), (List.append_nil _).symm, rfl⟩

/-! ## A whole pass -/

/-- What a pass does about the grants of a log, one after the other. -/
inductive Pass (fenced attempts : Bool) (basis : Basis) (records : List WalRecord) :
    List Grant → List SharedAct → List Reclaim → Prop where
  | nil : Pass fenced attempts basis records [] [] []
  | cons {g : Grant} {grants : List Grant} {acts acts' : List SharedAct}
      {reclaims reclaims' : List Reclaim}
      (first : Reclaims fenced attempts basis records g acts reclaims)
      (rest : Pass fenced attempts basis records grants acts' reclaims') :
      Pass fenced attempts basis records (g :: grants) (acts ++ acts') (reclaims ++ reclaims')

section Pass

variable {fenced attempts : Bool} {basis : Basis} {g : Grant} {grants : List Grant}
  {acts : List SharedAct} {reclaims : List Reclaim}

/-- A grant is only acted on when it is due, and under its own handle. -/
theorem Reclaims.due (h : Reclaims fenced attempts basis records g acts reclaims) {a : SharedAct}
    (ha : a ∈ acts) : a.handle = g.handle ∧ Due records g := by
  cases h with
  | passed _ => exact nomatch ha
  | unknown _ _ _ _ => exact nomatch ha
  | declined due _ _ _ stopped =>
    rcases stopped with rfl | ⟨-, rfl⟩
    · exact nomatch ha
    · rw [List.mem_singleton.1 ha]
      exact ⟨rfl, due⟩
  | fired due _ _ closing =>
    refine ⟨?_, due⟩
    rcases closing with rfl | rfl
    · simp only [List.mem_cons, List.not_mem_nil, or_false] at ha
      rcases ha with rfl | rfl <;> rfl
    · simp only [List.mem_cons, List.not_mem_nil, or_false] at ha
      rcases ha with rfl | rfl | rfl <;> rfl
  | modelled due _ _ =>
    rw [List.mem_singleton.1 ha]
    exact ⟨rfl, due⟩

/-- The grant was attempted and reported, or reported as not attempted. -/
def Answered (attempts : Bool) (basis : Basis) (g : Grant) (acts : List SharedAct)
    (reclaims : List Reclaim) : Prop :=
  .attempt g.handle ∈ acts ∧ (∃ r ∈ reclaims, Filed g basis r) ∨
    attempts = false ∧ ∃ r ∈ reclaims, r.handle = g.handle ∧ r.ok = false

theorem Answered.mono {acts' : List SharedAct} {reclaims' : List Reclaim}
    (h : Answered attempts basis g acts reclaims) (hacts : acts ⊆ acts')
    (hreclaims : reclaims ⊆ reclaims') : Answered attempts basis g acts' reclaims' := by
  rcases h with ⟨ha, r, hr, hfiled⟩ | ⟨hidle, r, hr, hfailed⟩
  · exact .inl ⟨hacts ha, r, hreclaims hr, hfiled⟩
  · exact .inr ⟨hidle, r, hreclaims hr, hfailed⟩

/-- A grant that is due is attempted, or the report says that it was not. -/
theorem Reclaims.answered (h : Reclaims fenced attempts basis records g acts reclaims)
    (due : Due records g) : Answered attempts basis g acts reclaims := by
  cases h with
  | passed over_ =>
    rcases over_ with hc | ⟨-, hh⟩
    · exact absurd hc due.incomplete
    · exact absurd hh due.counted
  | unknown _ spent _ _ => exact absurd spent due.unfenced
  | declined _ idle handle failed _ =>
    exact .inr ⟨idle, _, List.mem_singleton_self _, handle, failed⟩
  | fired _ _ filed _ =>
    exact .inl ⟨List.mem_cons_of_mem _ List.mem_cons_self, _, List.mem_singleton_self _, filed⟩
  | modelled _ _ filed =>
    exact .inl ⟨List.mem_singleton_self _, _, List.mem_singleton_self _, filed⟩

/-- The discipline of the fences, one grant after the other. -/
def sharedFenceAct (fenced : Bool) : SharedAct → Act String
  | .fence handle => .fence handle
  | .attempt handle => if fenced then .attempt handle else .other
  | .complete _ => .other

theorem Reclaims.guarded (h : Reclaims fenced attempts basis records g acts reclaims)
    {spent : Set String} (hspent : g.handle ∈ spent → g.handle ∈ sharedFencesOf records)
    (armed : Option String) : Guarded spent armed (acts.map (sharedFenceAct fenced)) := by
  cases h with
  | passed _ => exact trivial
  | unknown _ _ _ _ => exact trivial
  | declined due _ _ _ stopped =>
    rcases stopped with rfl | ⟨-, rfl⟩
    · exact trivial
    · exact ⟨fun hmem => due.unfenced (hspent hmem), trivial⟩
  | fired due guarded _ closing =>
    subst guarded
    have hnew : g.handle ∉ spent := fun hmem => due.unfenced (hspent hmem)
    rcases closing with rfl | rfl
    · exact ⟨hnew, rfl, trivial⟩
    · exact ⟨hnew, rfl, trivial⟩
  | modelled due unguarded _ =>
    subst unguarded
    exact trivial

theorem Pass.due (h : Pass fenced attempts basis records grants acts reclaims) {a : SharedAct}
    (ha : a ∈ acts) : ∃ g ∈ grants, a.handle = g.handle ∧ Due records g := by
  induction h with
  | nil => exact nomatch ha
  | cons first _ ih =>
    rcases List.mem_append.1 ha with ha | ha
    · exact ⟨_, List.mem_cons_self, first.due ha⟩
    · obtain ⟨g, hg, hdue⟩ := ih ha
      exact ⟨g, List.mem_cons_of_mem _ hg, hdue⟩

theorem Pass.answered (h : Pass fenced attempts basis records grants acts reclaims)
    (hg : g ∈ grants) (due : Due records g) : Answered attempts basis g acts reclaims := by
  induction h with
  | nil => exact nomatch hg
  | cons first _ ih =>
    rcases List.mem_cons.1 hg with rfl | hg
    · exact (first.answered due).mono (List.subset_append_left _ _) (List.subset_append_left _ _)
    · exact (ih hg).mono (List.subset_append_right _ _) (List.subset_append_right _ _)

/-- A grant with a fence and no completion is reported. -/
theorem Pass.unknown (h : Pass fenced attempts basis records grants acts reclaims)
    (hg : g ∈ grants) (incomplete : g.handle ∉ sharedCompletedOf records)
    (spent : g.handle ∈ sharedFencesOf records) :
    ∃ r ∈ reclaims, r.handle = g.handle ∧ r.ok = false := by
  induction h with
  | nil => exact nomatch hg
  | cons first _ ih =>
    rcases List.mem_cons.1 hg with rfl | hg
    · cases first with
      | passed over_ =>
        rcases over_ with hc | ⟨hf, -⟩
        · exact absurd hc incomplete
        · exact absurd spent hf
      | unknown _ _ handle failed =>
        exact ⟨_, List.mem_append_left _ (List.mem_singleton_self _), handle, failed⟩
      | declined due _ _ _ _ => exact absurd spent due.unfenced
      | fired due _ _ _ => exact absurd spent due.unfenced
      | modelled due _ _ => exact absurd spent due.unfenced
    · obtain ⟨r, hr, hfailed⟩ := ih hg
      exact ⟨r, List.mem_append_right _ hr, hfailed⟩

theorem Pass.guarded (h : Pass fenced attempts basis records grants acts reclaims)
    (hnodup : (grants.map Grant.handle).Nodup) {spent : Set String}
    (hspent : ∀ g ∈ grants, g.handle ∈ spent → g.handle ∈ sharedFencesOf records)
    (armed : Option String) : Guarded spent armed (acts.map (sharedFenceAct fenced)) := by
  induction h generalizing spent armed with
  | nil => exact trivial
  | @cons g grants acts acts' _ _ first _ ih =>
    rw [List.map_append, guarded_append]
    rw [List.map_cons, List.nodup_cons] at hnodup
    refine ⟨first.guarded (hspent g List.mem_cons_self) armed, ih hnodup.2 (fun k hk hmem => ?_) _⟩
    rcases mem_spentAfter.1 hmem with hmem | hmem
    · exact hspent k (List.mem_cons_of_mem _ hk) hmem
    · -- the fence is of the grant before, whose handle is another one
      obtain ⟨a, ha, hact⟩ := List.mem_map.1 hmem
      have hhandle : a.handle = k.handle := by
        cases a with
        | fence _ => exact Act.fence.inj hact
        | attempt _ => cases fenced <;> exact nomatch hact
        | complete _ => exact nomatch hact
      have hother := (first.due ha).1.symm.trans hhandle
      exact absurd (hother ▸ List.mem_map_of_mem hk) hnodup.1

end Pass

/-- A pass takes the grants one after the other. -/
theorem pass_foldl (run : SharedRun) (records : List WalRecord) (grants : List Grant)
    (hnodup : (grants.map Grant.handle).Nodup) (s : Shared)
    (hothers : ∀ a ∈ (ledger run.runtime records s.trace).acts, ∀ g ∈ grants,
      a.handle ≠ g.handle) :
    ∃ acts reclaims, Pass run.fenced run.attempts run.basis records grants acts reclaims ∧
      (ledger run.runtime records
        (grants.foldl (sharedStep (run.worldOver records) true run.basis records) s).trace).acts =
          (ledger run.runtime records s.trace).acts ++ acts ∧
      (grants.foldl (sharedStep (run.worldOver records) true run.basis records) s).reclaims =
        s.reclaims ++ reclaims := by
  induction grants generalizing s with
  | nil => exact ⟨[], [], .nil, (List.append_nil _).symm, (List.append_nil _).symm⟩
  | cons g grants ih =>
    rw [List.map_cons, List.nodup_cons] at hnodup
    obtain ⟨acts, reclaims, hfirst, hacts, hreclaims⟩ := reclaims_step run records s g
      fun a ha => hothers a ha g List.mem_cons_self
    obtain ⟨acts', reclaims', hrest, hacts', hreclaims'⟩ := ih hnodup.2
      (sharedStep (run.worldOver records) true run.basis records s g) (by
        intro a ha k hk
        rw [hacts] at ha
        rcases List.mem_append.1 ha with ha | ha
        · exact hothers a ha k (List.mem_cons_of_mem _ hk)
        · rw [(hfirst.due ha).1]
          exact fun heq => hnodup.1 (heq ▸ List.mem_map_of_mem hk))
    refine ⟨acts ++ acts', reclaims ++ reclaims', .cons hfirst hrest, ?_, ?_⟩
    · rw [List.foldl_cons, hacts', hacts, List.append_assoc]
    · rw [List.foldl_cons, hreclaims', hreclaims, List.append_assoc]

theorem pass_run (run : SharedRun) (records : List WalRecord) :
    Pass run.fenced run.attempts run.basis records (latestGrants records) (run.acts records)
      (run.result records).reclaims := by
  obtain ⟨acts, reclaims, hpass, hacts, hreclaims⟩ := pass_foldl run records (latestGrants records)
    nodup_latestGrants ⟨[], []⟩ fun a ha => nomatch ha
  have h : run.acts records = acts := hacts
  have h' : (run.result records).reclaims = reclaims := hreclaims
  rw [h, h']
  exact hpass

/-! ## Runs -/

/-- An outstanding grant of a log without a regrant is the last one of its handle. -/
theorem Outstanding.latest {g : Grant} (h : Outstanding records g) (hlog : NoRegrant records) :
    g ∈ latestGrants records ∧ g.handle ∉ sharedCompletedOf records ∧
      (g.holders ≠ [] ∨ g.handle ∈ sharedFencesOf records) ∧
      (Unfenced records g ↔ g.handle ∉ sharedFencesOf records) := by
  have hincomplete := hlog g h
  have hsince := sinceComplete_of_not_mem hincomplete
  obtain ⟨current, counted⟩ := h
  rw [hsince] at current counted
  refine ⟨mem_latestGrants.2 current, hincomplete, counted, ?_⟩
  rw [Unfenced, hsince]

/-- A grant that is due is outstanding, and nothing is fenced. -/
theorem Due.outstanding {g : Grant} (h : Due records g) (hg : g ∈ latestGrants records) :
    Outstanding records g ∧ Unfenced records g := by
  have hsince := sinceComplete_of_not_mem h.incomplete
  refine ⟨⟨?_, .inl h.counted⟩, ?_⟩
  · rw [hsince]
    exact mem_latestGrants.1 hg
  · rw [Unfenced, hsince]
    exact h.unfenced

/-- A run writes no grant. -/
theorem grantsOf_written {acts : List SharedAct} {t : List WalRecord} (ht : t ⊆ written acts) :
    grantsOf t = [] := by
  refine List.filterMap_eq_nil_iff.2 fun r hr => ?_
  obtain ⟨a, -, hrec⟩ := List.mem_filterMap.1 (ht hr)
  cases a with
  | fence _ =>
    obtain rfl := Option.some.inj hrec
    rfl
  | attempt _ => exact nomatch hrec
  | complete _ =>
    obtain rfl := Option.some.inj hrec
    rfl

theorem mem_written_fence {acts : List SharedAct} {handle : String} :
    .sharedReclaimFence handle ∈ written acts ↔ .fence handle ∈ acts := by
  rw [written, List.mem_filterMap]
  constructor
  · rintro ⟨a, ha, hrec⟩
    cases a with
    | fence k =>
      obtain rfl := WalRecord.sharedReclaimFence.inj (Option.some.inj hrec)
      exact ha
    | attempt _ => exact nomatch hrec
    | complete _ => exact nomatch hrec
  · exact fun h => ⟨_, h, rfl⟩

theorem latestGrant_suffix {handle : String} (l : List WalRecord) (acts : List SharedAct)
    {t : List WalRecord} (ht : t <:+ written acts) :
    latestGrant (l ++ t) handle = latestGrant l handle := by
  have hnone : latestGrant t handle = none := by
    rw [latestGrant, grantsOf_written ht.subset]
    rfl
  rw [latestGrant_append, hnone, Option.none_or]

theorem sinceComplete_suffix (handle : String) (l : List WalRecord) :
    sinceComplete handle l <:+ l := by
  induction l with
  | nil => exact List.suffix_refl _
  | cons r rs ih =>
    rw [sinceComplete]
    split
    · exact ih.trans (List.suffix_cons r rs)
    · exact List.suffix_refl _

/-- A run grants nothing again. -/
theorem NoRegrant.after (h : NoRegrant records) (run : SharedRun) :
    NoRegrant (run.after records) := by
  intro g hg hcomplete
  obtain ⟨current, counted⟩ := hg
  rw [SharedRun.after, sinceComplete_append] at current counted
  rw [SharedRun.after, mem_sharedCompletedOf, List.mem_append] at hcomplete
  generalize hcut : (run.acts records).take run.cut = cut at current counted hcomplete
  by_cases hnew : .sharedComplete g.handle ∈ written cut
  · -- completed by the run: nothing was granted since
    rw [if_pos hnew, ← List.nil_append (sinceComplete _ _),
      latestGrant_suffix [] cut (sinceComplete_suffix _ _)] at current
    exact nomatch current
  · rw [if_neg hnew] at current counted
    rw [latestGrant_suffix _ cut (List.suffix_refl _)] at current
    have hold := mem_sharedCompletedOf.2 (hcomplete.resolve_right hnew)
    rw [mem_sharedFencesOf, List.mem_append, mem_written_fence, ← mem_sharedFencesOf] at counted
    have hfence : .fence g.handle ∉ cut := by
      -- a fence is only written for a grant that is not completed
      intro hmem
      rw [← hcut] at hmem
      obtain ⟨k, -, hhandle, hdue⟩ := (pass_run run records).due (List.mem_of_mem_take hmem)
      exact hdue.incomplete (hhandle ▸ hold)
    refine h g ⟨current, ?_⟩ hold
    exact counted.imp_right fun hc => hc.resolve_right hfence

theorem NoRegrant.logAfter (h : NoRegrant records) (runs : List SharedRun) :
    NoRegrant (logAfter records runs) := by
  induction runs generalizing records with
  | nil => exact h
  | cons run runs ih => exact ih (h.after run)

/-- What a sequence of runs does, as the fence discipline sees it. -/
def guardedActs (records : List WalRecord) : List SharedRun → List (List (Act String))
  | [] => []
  | run :: runs =>
    ((run.acts records).take run.cut).map (sharedFenceAct run.fenced) ::
      guardedActs (run.after records) runs

theorem guardedRuns_guardedActs (records : List WalRecord) (runs : List SharedRun) :
    GuardedRuns { k | k ∈ sharedFencesOf records } (guardedActs records runs) := by
  induction runs generalizing records with
  | nil => exact trivial
  | cons run runs ih =>
    rw [guardedActs, guardedRuns_cons]
    refine ⟨?_, ?_⟩
    · have hfull : Guarded { k | k ∈ sharedFencesOf records } none
          ((run.acts records).map (sharedFenceAct run.fenced)) :=
        (pass_run run records).guarded nodup_latestGrants (fun _ _ hk => hk) none
      exact hfull.cut ((List.take_prefix _ _).map _)
    · have hspent : spentAfter { k | k ∈ sharedFencesOf records }
          (((run.acts records).take run.cut).map (sharedFenceAct run.fenced)) =
          { k | k ∈ sharedFencesOf (run.after records) } := by
        ext k
        rw [mem_spentAfter, Set.mem_ofPred_eq, Set.mem_ofPred_eq, SharedRun.after,
          mem_sharedFencesOf, mem_sharedFencesOf, List.mem_append, mem_written_fence]
        refine or_congr_right ⟨fun hmem => ?_, fun hmem => List.mem_map.2 ⟨_, hmem, rfl⟩⟩
        obtain ⟨a, ha, hact⟩ := List.mem_map.1 hmem
        cases a with
        | fence _ => exact Act.fence.inj hact ▸ ha
        | attempt _ => cases hf : run.fenced <;> rw [hf] at hact <;> exact nomatch hact
        | complete _ => exact nomatch hact
      rw [hspent]
      exact ih _

theorem attemptsOf_eq_count (handle : String) (records : List WalRecord) (runs : List SharedRun) :
    attemptsOf handle records runs = (guardedActs records runs).flatten.count (.attempt handle) := by
  induction runs generalizing records with
  | nil => rfl
  | cons run runs ih =>
    rw [attemptsOf, guardedActs, List.flatten_cons, List.count_append, ih]
    refine congrArg (· + _) ?_
    generalize (run.acts records).take run.cut = acts
    induction acts with
    | nil => simp
    | cons a acts ih =>
      rw [List.map_cons, List.count_cons, List.count_cons, ← ih]
      cases hf : run.fenced with
      | true => cases a <;> simp [sharedFenceAct]
      | false => cases a <;> simp [sharedFenceAct]

/-- **Shared grants are reclaimed exactly when they are outstanding.** Take a log in which no
completed handle is outstanding again, and any sequence of runs over it, each cut anywhere. In
each run, over the log the runs before it left: an attempt is made only for a grant that is
outstanding with no attempt fenced, and for each such grant it is made, or reported as not made
where recovery does not make the calls itself; and the run is clean only when every outstanding
grant was attempted and done. Over all the runs an inverse is attempted against the outside world
at most once, and never when its fence is in the log. -/
theorem shared_reclaimed {records : List WalRecord} (hlog : NoRegrant records)
    (runs : List SharedRun) :
    (∀ before run later, runs = before ++ run :: later →
      (∀ handle, .attempt handle ∈ run.acts (logAfter records before) →
        ∃ g, g.handle = handle ∧ Outstanding (logAfter records before) g ∧
          Unfenced (logAfter records before) g) ∧
      (∀ g, Outstanding (logAfter records before) g → Unfenced (logAfter records before) g →
        .attempt g.handle ∈ run.acts (logAfter records before) ∨
          run.attempts = false ∧ ∃ r ∈ (run.result (logAfter records before)).reclaims,
            r.handle = g.handle ∧ r.ok = false) ∧
      (run.clean (logAfter records before) = true →
        ∀ g, Outstanding (logAfter records before) g →
          .attempt g.handle ∈ run.acts (logAfter records before) ∧
            .done g run.basis ∈ (run.result (logAfter records before)).reclaims)) ∧
    ∀ handle, attemptsOf handle records runs ≤ 1 ∧
      (handle ∈ sharedFencesOf records → attemptsOf handle records runs = 0) := by
  refine ⟨fun before run later _ => ?_, fun handle => ?_⟩
  · have hbefore := hlog.logAfter before
    generalize logAfter records before = log at hbefore
    have hpass := pass_run run log
    refine ⟨fun handle hmem => ?_, fun g hg hunfenced => ?_, fun hclean g hg => ?_⟩
    · obtain ⟨g, hg, hhandle, hdue⟩ := hpass.due hmem
      exact ⟨g, hhandle.symm, hdue.outstanding hg⟩
    · obtain ⟨hlatest, hincomplete, hcounted, hiff⟩ := hg.latest hbefore
      have hspent := hiff.1 hunfenced
      rcases hpass.answered hlatest ⟨hincomplete, hspent, hcounted.resolve_right hspent⟩ with
        ⟨hattempt, -⟩ | hidle
      · exact .inl hattempt
      · exact .inr hidle
    · obtain ⟨hlatest, hincomplete, hcounted, -⟩ := hg.latest hbefore
      have hok : ∀ r ∈ (run.result log).reclaims, r.ok = true := List.all_eq_true.1 hclean
      by_cases hspent : g.handle ∈ sharedFencesOf log
      · obtain ⟨r, hr, -, hfailed⟩ := hpass.unknown hlatest hincomplete hspent
        exact absurd ((hok r hr).symm.trans hfailed) nofun
      · rcases hpass.answered hlatest ⟨hincomplete, hspent, hcounted.resolve_right hspent⟩ with
          ⟨hattempt, r, hr, hdone | ⟨-, hfailed⟩⟩ | ⟨-, r, hr, -, hfailed⟩
        · exact ⟨hattempt, hdone ▸ hr⟩
        · exact absurd ((hok r hr).symm.trans hfailed) nofun
        · exact absurd ((hok r hr).symm.trans hfailed) nofun
  · rw [attemptsOf_eq_count]
    exact runs_at_most_once handle (guardedRuns_guardedActs records runs)

/-- The in-memory world, declared real and cut nowhere near. -/
def SharedRun.direct : SharedRun := ⟨{ dictWorld with kind := .real }, none, .wholeProcess, 8⟩

theorem shared_reclaimed_crash :
    NoRegrant [.sharedGrant ⟨"db", .empty, ["a"]⟩] ∧
      attemptsOf "db" [.sharedGrant ⟨"db", .empty, ["a"]⟩] [.direct, .direct] ≤ 1 ∧
      .attempt "db" ∈ SharedRun.direct.acts [.sharedGrant ⟨"db", .empty, ["a"]⟩] := by
  have hlog : NoRegrant [.sharedGrant ⟨"db", .empty, ["a"]⟩] := fun _ _ h => nomatch h
  refine ⟨hlog, ((shared_reclaimed hlog [.direct, .direct]).2 "db").1, ?_⟩
  rcases ((shared_reclaimed hlog [.direct, .direct]).1 [] .direct [.direct] rfl).2.1
    ⟨"db", .empty, ["a"]⟩ ⟨by decide, .inl (by decide)⟩ (by decide) with h | ⟨h, -⟩
  · exact h
  · exact nomatch h

/-- **A handle that is granted again after a completion is never reclaimed**, and the run is
clean. -/
theorem regrant_unreclaimed :
    let records := [.sharedGrant ⟨"db", .empty, ["a"]⟩, .sharedReclaimFence "db",
      .sharedGrant ⟨"db", .empty, []⟩, .sharedComplete "db", .sharedGrant ⟨"db", .empty, ["b"]⟩]
    Outstanding records ⟨"db", .empty, ["b"]⟩ ∧ Unfenced records ⟨"db", .empty, ["b"]⟩ ∧
      SharedRun.direct.acts records = [] ∧ SharedRun.direct.clean records = true := by
  refine ⟨⟨by decide, .inl (by decide)⟩, by decide, by decide, by decide⟩

end Revl.Recovery
