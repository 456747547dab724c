import Revl.Lib.Dict
import Revl.Lib.Fallible
import Revl.Lib.Steps

/-!
# Declared ceilings (`runtime.py`)

A component may hold ceilings on what it crosses: a number of calls, a number of payload bytes and
a deadline, each declared with a capability. Every crossing declares some of them, and the frame
meters it against all of them before any counter moves.

- `Metered`: the crossings of an activation, admitted and refused.
- `refused_unchanged`: a refused crossing leaves every counter as it was.
- `Metered.counted`: the counters are what the admitted crossings add up to.
- `ceilings_hold`: **all or nothing, and no ceiling is ever exceeded.**
-/

namespace Revl.Meter

/-- What a ceiling counts. -/
inductive Kind where
  | calls
  | size
  | time
  deriving DecidableEq, Repr

/-- The limits of one declaration, in the order they are spelled. -/
abbrev Limits := List (Kind × Nat)

/-- The monotonic clock, whose readings are floating point numbers. -/
structure Clock (T : Type) where
  /-- `(now - started) * 1000.0 > limit` -/
  past : T → T → Nat → Bool
  /-- `int((now - started) * 1000.0)` -/
  millis : T → T → Int

/-- `_declared_ceilings`: the declarations of a crossing that carry a limit, each once. The
spelling of a capability fixes its limits. -/
def declaredCeilings (limits : String → Limits) (capabilities : List String) :
    List (String × Limits) :=
  (capabilities.filter fun spelling => !(limits spelling).isEmpty).dedup.map fun spelling =>
    (spelling, limits spelling)

/-- The fault of a crossing past a ceiling. -/
structure CeilingExceeded where
  capability : String
  kind : Kind
  limit : Nat
  observed : Int
  component : String
  deriving DecidableEq, Repr

/-- What a metered crossing was observed to have spent. -/
structure Observed where
  calls : Nat
  size : Nat
  time : Int
  deriving DecidableEq, Repr

/-- A line of the trace. -/
inductive Line where
  | spent (token : String) (limits : Limits) (observed : Observed)
  | refused (token : String) (kind : Kind) (observed : Int) (limit : Nat)
  deriving DecidableEq, Repr

/-- The meters of an activation frame, and the trace it writes. -/
structure Frame (T : Type) where
  name : String
  calls : Dict String Nat
  bytes : Dict String Nat
  started : Dict String T
  trace : List Line

variable {T : Type}

/-- A new frame. -/
def Frame.start (name : String) : Frame T := ⟨name, .empty, .empty, .empty, []⟩

/-- What a declaration would be charged. -/
structure Planned (T : Type) where
  token : String
  limits : Limits
  observed : Observed
  started : T

/-- The count is past the limit, where one is declared. -/
def overLimit (limit : Option Nat) (observed : Nat) : Bool := limit.any fun l => decide (l < observed)

variable (clock : Clock T)

/-- One declaration checked against its ceilings, nothing charged. -/
def check (frame : Frame T) (now : T) (payload : Option Nat) (declaration : String × Limits) :
    Except CeilingExceeded (Planned T) :=
  let (token, limits) := declaration
  let calls := (frame.calls.get? token).getD 0 + 1
  let size := (frame.bytes.get? token).getD 0 + payload.getD 0
  let started := (frame.started.get? token).getD now
  let exceeded := fun kind observed =>
    CeilingExceeded.mk token kind ((Assoc.get? limits kind).getD 0) observed frame.name
  if overLimit (Assoc.get? limits .calls) calls then .error (exceeded .calls calls)
  else if overLimit (Assoc.get? limits .size) size then .error (exceeded .size size)
  else if (Assoc.get? limits .time).any (clock.past now started) then
    .error (exceeded .time (clock.millis now started))
  else .ok ⟨token, limits, ⟨calls, size, clock.millis now started⟩, started⟩

/-- A planned charge. -/
def charge (frame : Frame T) (p : Planned T) : Frame T :=
  { frame with
    calls := frame.calls.set p.token p.observed.calls
    bytes := frame.bytes.set p.token p.observed.size
    started := if (frame.started.get? p.token).isSome then frame.started
      else frame.started.set p.token p.started
    trace := frame.trace ++ [.spent p.token p.limits p.observed] }

/-- The trace line of a refusal. -/
def refuse (frame : Frame T) (fault : CeilingExceeded) : Frame T :=
  { frame with
    trace := frame.trace ++ [.refused fault.capability fault.kind fault.observed fault.limit] }

/-- `_meter_ceilings`: every declaration is checked before one is charged. -/
def meterCeilings (frame : Frame T) (now : T) (declarations : List (String × Limits))
    (payload : Option Nat) : Outcome CeilingExceeded (Frame T) :=
  match declarations.mapM (check clock frame now payload) with
  | .error fault => .raised fault (refuse frame fault)
  | .ok planned => .ok (planned.foldl charge frame)

/-! ## A crossing -/

/-- The counters of two frames are the same. -/
structure SameMeters (frame frame' : Frame T) : Prop where
  calls : frame'.calls = frame.calls
  bytes : frame'.bytes = frame.bytes
  started : frame'.started = frame.started

variable {clock} {frame frame' : Frame T} {now : T} {declarations : List (String × Limits)}
  {payload : Option Nat}

/-- **A refused crossing leaves every counter as it was.** -/
theorem refused_unchanged {fault : CeilingExceeded}
    (h : meterCeilings clock frame now declarations payload = .raised fault frame') :
    SameMeters frame frame' := by
  unfold meterCeilings at h
  cases hplan : declarations.mapM (check clock frame now payload) with
  | error fault' =>
    rw [hplan] at h
    cases h
    exact ⟨rfl, rfl, rfl⟩
  | ok planned =>
    rw [hplan] at h
    cases h

/-- What a declaration is charged, where it passes its check. -/
structure Passes (clock : Clock T) (frame : Frame T) (now : T) (payload : Option Nat)
    (declaration : String × Limits) (p : Planned T) : Prop where
  token : p.token = declaration.1
  calls : p.observed.calls = (frame.calls.get? declaration.1).getD 0 + 1
  size : p.observed.size = (frame.bytes.get? declaration.1).getD 0 + payload.getD 0
  started : p.started = (frame.started.get? declaration.1).getD now
  calls_le : ∀ l, Assoc.get? declaration.2 .calls = some l → p.observed.calls ≤ l
  size_le : ∀ l, Assoc.get? declaration.2 .size = some l → p.observed.size ≤ l
  in_time : ∀ l, Assoc.get? declaration.2 .time = some l → clock.past now p.started l = false

theorem le_of_not_overLimit {limit : Option Nat} {n : Nat} (h : overLimit limit n = false) :
    ∀ l, limit = some l → n ≤ l := by
  rintro l rfl
  have hnot := of_decide_eq_false (show decide (l < n) = false from h)
  omega

theorem check_passes {declaration : String × Limits} {p : Planned T}
    (h : check clock frame now payload declaration = .ok p) :
    Passes clock frame now payload declaration p := by
  obtain ⟨token, limits⟩ := declaration
  unfold check at h
  simp only at h
  split at h
  · cases h
  next hcalls =>
  split at h
  · cases h
  next hsize =>
  split at h
  · cases h
  next htime =>
  cases h
  refine ⟨rfl, rfl, rfl, rfl, le_of_not_overLimit (Bool.not_eq_true _ ▸ hcalls),
    le_of_not_overLimit (Bool.not_eq_true _ ▸ hsize), fun l hl => ?_⟩
  simp only at hl
  rw [hl, Option.any_some, Bool.not_eq_true] at htime
  exact htime

/-! ### What the charges add up to -/

/-- A counter after the charges, where every charge of a token is the same. -/
theorem charge_all_get {f g : String → Nat} {planned : List (Planned T)}
    (hf : ∀ p ∈ planned, p.observed.calls = f p.token)
    (hg : ∀ p ∈ planned, p.observed.size = g p.token) (frame : Frame T) (token : String) :
    (planned.foldl charge frame).calls.get? token =
        (if token ∈ planned.map Planned.token then some (f token) else frame.calls.get? token) ∧
      (planned.foldl charge frame).bytes.get? token =
        (if token ∈ planned.map Planned.token then some (g token)
          else frame.bytes.get? token) := by
  induction planned generalizing frame with
  | nil => exact ⟨(if_neg List.not_mem_nil).symm, (if_neg List.not_mem_nil).symm⟩
  | cons p planned ih =>
    obtain ⟨hcalls, hbytes⟩ := ih (fun q hq => hf q (List.mem_cons_of_mem _ hq))
      (fun q hq => hg q (List.mem_cons_of_mem _ hq)) (charge frame p)
    rw [List.foldl_cons, hcalls, hbytes, List.map_cons]
    by_cases hrest : token ∈ planned.map Planned.token
    · have hin : token ∈ p.token :: planned.map Planned.token := List.mem_cons_of_mem _ hrest
      rw [if_pos hrest, if_pos hrest, if_pos hin, if_pos hin]
      exact ⟨rfl, rfl⟩
    rw [if_neg hrest, if_neg hrest]
    simp only [charge, Dict.get?_set]
    by_cases heq : token = p.token
    · subst heq
      rw [if_pos rfl, if_pos rfl, if_pos List.mem_cons_self, if_pos List.mem_cons_self,
        hf p List.mem_cons_self, hg p List.mem_cons_self]
      exact ⟨rfl, rfl⟩
    · have hout : token ∉ p.token :: planned.map Planned.token := by
        rw [List.mem_cons, not_or]
        exact ⟨heq, hrest⟩
      rw [if_neg heq, if_neg heq, if_neg hout, if_neg hout]
      exact ⟨rfl, rfl⟩

/-- The deadline of a capability is anchored at its first crossing. -/
theorem charge_all_started {now : T} {planned : List (Planned T)} {frame : Frame T}
    (h : ∀ p ∈ planned, p.started = (frame.started.get? p.token).getD now) (token : String) :
    (planned.foldl charge frame).started.get? token =
      (frame.started.get? token).or
        (if token ∈ planned.map Planned.token then some now else none) := by
  induction planned generalizing frame with
  | nil => simp
  | cons p planned ih =>
    have hget : ∀ t, (charge frame p).started.get? t =
        (frame.started.get? t).or (if t = p.token then some now else none) := by
      intro t
      unfold charge
      simp only
      by_cases hsome : (frame.started.get? p.token).isSome = true
      · rw [if_pos hsome]
        by_cases ht : t = p.token
        · subst ht
          obtain ⟨v, hv⟩ := Option.isSome_iff_exists.mp hsome
          rw [hv, Option.some_or]
        · rw [if_neg ht, Option.or_none]
      · have hnone : frame.started.get? p.token = none := Option.not_isSome_iff_eq_none.mp hsome
        rw [if_neg hsome, Dict.get?_set, h p List.mem_cons_self, hnone, Option.getD_none]
        by_cases ht : t = p.token
        · subst ht
          rw [if_pos rfl, if_pos rfl, hnone, Option.none_or]
        · rw [if_neg ht, if_neg ht, Option.or_none]
    rw [List.foldl_cons, ih, hget, Option.or_assoc, List.map_cons]
    · by_cases ht : token = p.token
      · simp [ht]
      · simp [ht]
    · intro q hq
      rw [hget, h q (List.mem_cons_of_mem _ hq)]
      cases frame.started.get? q.token with
      | some v => rfl
      | none => by_cases hqp : q.token = p.token <;> simp [hqp]

/-! ## The crossings of an activation -/

/-- A crossing: the capabilities it declares, when it is made and the size of its payload. -/
structure Crossing (T : Type) where
  capabilities : List String
  now : T
  payload : Option Nat

/-- Meter a crossing of a component that holds the given limits. -/
def meter (clock : Clock T) (limits : String → Limits) (frame : Frame T) (c : Crossing T) :
    Outcome CeilingExceeded (Frame T) :=
  meterCeilings clock frame c.now (declaredCeilings limits c.capabilities) c.payload

/-- An activation: its frame, the crossings admitted so far with the frame each was metered in.
A refused crossing leaves the activation to go on. -/
inductive Metered (clock : Clock T) (limits : String → Limits) (name : String) :
    List (Crossing T) → Frame T → Prop where
  | start : Metered clock limits name [] (.start name)
  | admitted {done : List (Crossing T)} {frame frame' : Frame T} (c : Crossing T) :
      Metered clock limits name done frame → meter clock limits frame c = .ok frame' →
        Metered clock limits name (done ++ [c]) frame'
  | refused {done : List (Crossing T)} {frame frame' : Frame T} (c : Crossing T)
      (fault : CeilingExceeded) : Metered clock limits name done frame →
        meter clock limits frame c = .raised fault frame' → Metered clock limits name done frame'

/-- The crossing is metered against the ceilings of the capability. -/
def Declares (limits : String → Limits) (token : String) (c : Crossing T) : Prop :=
  token ∈ c.capabilities ∧ limits token ≠ []

instance (limits : String → Limits) (token : String) (c : Crossing T) :
    Decidable (Declares limits token c) := inferInstanceAs (Decidable (_ ∧ _))

/-- The crossings charged to a capability. -/
def charged (limits : String → Limits) (token : String) (done : List (Crossing T)) :
    List (Crossing T) :=
  done.filter fun c => decide (Declares limits token c)

theorem mem_declaredCeilings {limits : String → Limits} {capabilities : List String}
    {d : String × Limits} : d ∈ declaredCeilings limits capabilities ↔
      d.1 ∈ capabilities ∧ limits d.1 ≠ [] ∧ d.2 = limits d.1 := by
  obtain ⟨token, l⟩ := d
  simp only [declaredCeilings, List.mem_map, List.mem_dedup, List.mem_filter, Prod.mk.injEq,
    Bool.not_eq_true', List.isEmpty_eq_false_iff]
  constructor
  · rintro ⟨t, ⟨hmem, hne⟩, rfl, rfl⟩
    exact ⟨hmem, hne, rfl⟩
  · rintro ⟨hmem, hne, rfl⟩
    exact ⟨token, ⟨hmem, hne⟩, rfl, rfl⟩

section Step

variable {limits : String → Limits} {c : Crossing T}

/-- **What an admitted crossing does**: each capability it declares is charged one call and the
payload, within its limits and before its deadline; no other counter moves. -/
structure Admitted (clock : Clock T) (limits : String → Limits) (frame : Frame T) (c : Crossing T)
    (frame' : Frame T) : Prop where
  calls : ∀ token, (frame'.calls.get? token).getD 0 = (frame.calls.get? token).getD 0 +
    if Declares limits token c then 1 else 0
  bytes : ∀ token, (frame'.bytes.get? token).getD 0 = (frame.bytes.get? token).getD 0 +
    if Declares limits token c then c.payload.getD 0 else 0
  started : ∀ token, frame'.started.get? token =
    (frame.started.get? token).or (if Declares limits token c then some c.now else none)
  calls_le : ∀ token, Declares limits token c → ∀ l, Assoc.get? (limits token) .calls = some l →
    (frame'.calls.get? token).getD 0 ≤ l
  size_le : ∀ token, Declares limits token c → ∀ l, Assoc.get? (limits token) .size = some l →
    (frame'.bytes.get? token).getD 0 ≤ l
  in_time : ∀ token, Declares limits token c → ∀ l, Assoc.get? (limits token) .time = some l →
    ∀ s, frame'.started.get? token = some s → clock.past c.now s l = false

theorem admitted_of_ok (h : meter clock limits frame c = .ok frame') :
    Admitted clock limits frame c frame' := by
  unfold meter meterCeilings at h
  cases hplan : (declaredCeilings limits c.capabilities).mapM
      (check clock frame c.now c.payload) with
  | error fault =>
    rw [hplan] at h
    cases h
  | ok planned =>
    rw [hplan] at h
    obtain rfl := Outcome.ok.inj h
    have hpasses : ∀ p ∈ planned, Passes clock frame c.now c.payload
        (p.token, limits p.token) p := by
      intro p hp
      obtain ⟨d, hd, hcheck⟩ := Fallible.mapM_ok_mem hplan hp
      have hpass := check_passes hcheck
      obtain ⟨-, -, hlimits⟩ := mem_declaredCeilings.mp hd
      have hdecl : d = (p.token, limits p.token) := by
        rw [hpass.token]
        exact Prod.ext rfl hlimits
      exact hdecl ▸ hpass
    have hmem : ∀ token, token ∈ planned.map Planned.token ↔ Declares limits token c := by
      intro token
      constructor
      · intro hin
        obtain ⟨p, hp, rfl⟩ := List.mem_map.mp hin
        obtain ⟨d, hd, hcheck⟩ := Fallible.mapM_ok_mem hplan hp
        rw [(check_passes hcheck).token]
        obtain ⟨hcap, hne, -⟩ := mem_declaredCeilings.mp hd
        exact ⟨hcap, hne⟩
      · rintro ⟨hcap, hne⟩
        have hd : (token, limits token) ∈ declaredCeilings limits c.capabilities :=
          mem_declaredCeilings.mpr ⟨hcap, hne, rfl⟩
        obtain ⟨p, hp, hcheck⟩ := Fallible.mapM_ok_of_mem hplan hd
        exact List.mem_map.mpr ⟨p, hp, (check_passes hcheck).token⟩
    have hcounts := charge_all_get (f := fun t => (frame.calls.get? t).getD 0 + 1)
      (g := fun t => (frame.bytes.get? t).getD 0 + c.payload.getD 0)
      (fun p hp => (hpasses p hp).calls) (fun p hp => (hpasses p hp).size) frame
    have hstarted := charge_all_started fun p hp => (hpasses p hp).started
    have hplanned : ∀ token, Declares limits token c →
        ∃ p ∈ planned, p.token = token := fun token hdecl =>
      List.mem_map.mp ((hmem token).mpr hdecl)
    refine ⟨fun token => ?_, fun token => ?_, fun token => ?_, fun token hdecl l hl => ?_,
      fun token hdecl l hl => ?_, fun token hdecl l hl s hs => ?_⟩
    · rw [(hcounts token).1]
      by_cases hdecl : Declares limits token c
      · rw [if_pos ((hmem token).mpr hdecl), if_pos hdecl, Option.getD_some]
      · rw [if_neg (fun hin => hdecl ((hmem token).mp hin)), if_neg hdecl, Nat.add_zero]
    · rw [(hcounts token).2]
      by_cases hdecl : Declares limits token c
      · rw [if_pos ((hmem token).mpr hdecl), if_pos hdecl, Option.getD_some]
      · rw [if_neg (fun hin => hdecl ((hmem token).mp hin)), if_neg hdecl, Nat.add_zero]
    · rw [hstarted]
      simp only [hmem]
    · obtain ⟨p, hp, rfl⟩ := hplanned token hdecl
      rw [(hcounts p.token).1, if_pos ((hmem p.token).mpr hdecl), Option.getD_some,
        ← (hpasses p hp).calls]
      exact (hpasses p hp).calls_le l hl
    · obtain ⟨p, hp, rfl⟩ := hplanned token hdecl
      rw [(hcounts p.token).2, if_pos ((hmem p.token).mpr hdecl), Option.getD_some,
        ← (hpasses p hp).size]
      exact (hpasses p hp).size_le l hl
    · obtain ⟨p, hp, rfl⟩ := hplanned token hdecl
      have hstart := (hpasses p hp).started
      have hin := (hpasses p hp).in_time l hl
      rw [hstarted, if_pos ((hmem p.token).mpr hdecl)] at hs
      cases hget : frame.started.get? p.token with
      | some v =>
        rw [hget] at hs hstart
        obtain rfl := Option.some.inj hs
        rw [hstart] at hin
        exact hin
      | none =>
        rw [hget] at hs hstart
        obtain rfl := Option.some.inj hs
        rw [hstart] at hin
        exact hin

end Step

/-- The counters are what the admitted crossings add up to, and within the ceilings. -/
structure Counted (clock : Clock T) (limits : String → Limits) (done : List (Crossing T))
    (frame : Frame T) (token : String) : Prop where
  calls : (frame.calls.get? token).getD 0 = (charged limits token done).length
  bytes : (frame.bytes.get? token).getD 0 =
    ((charged limits token done).map fun c => c.payload.getD 0).sum
  started : frame.started.get? token = (charged limits token done).head?.map Crossing.now
  calls_le : ∀ l, Assoc.get? (limits token) .calls = some l →
    (frame.calls.get? token).getD 0 ≤ l
  size_le : ∀ l, Assoc.get? (limits token) .size = some l →
    (frame.bytes.get? token).getD 0 ≤ l
  in_time : ∀ l, Assoc.get? (limits token) .time = some l → ∀ c ∈ charged limits token done,
    ∀ first ∈ (charged limits token done).head?, clock.past c.now first.now l = false

theorem Counted.start (limits : String → Limits) (name token : String) :
    Counted clock limits [] (.start name) token where
  calls := rfl
  bytes := rfl
  started := rfl
  calls_le := fun l _ => Nat.zero_le l
  size_le := fun l _ => Nat.zero_le l
  in_time := fun _ _ _ hc => absurd hc List.not_mem_nil

theorem Counted.admitted {limits : String → Limits} {done : List (Crossing T)} {c : Crossing T}
    {token : String} (h : Counted clock limits done frame token)
    (hstep : Admitted clock limits frame c frame') :
    Counted clock limits (done ++ [c]) frame' token := by
  by_cases hdecl : Declares limits token c
  · have hcharged : charged limits token (done ++ [c]) = charged limits token done ++ [c] := by
      rw [charged, List.filter_append, List.filter_singleton, decide_eq_true hdecl]
      rfl
    have hstarted : frame'.started.get? token =
        (charged limits token (done ++ [c])).head?.map Crossing.now := by
      rw [hstep.started, if_pos hdecl, h.started, hcharged]
      cases charged limits token done <;> rfl
    refine ⟨?_, ?_, hstarted, hstep.calls_le token hdecl, hstep.size_le token hdecl, ?_⟩
    · rw [hstep.calls, if_pos hdecl, h.calls, hcharged, List.length_append]
      rfl
    · rw [hstep.bytes, if_pos hdecl, h.bytes, hcharged, List.map_append, List.sum_append]
      simp
    · intro l hl x hx first hfirst
      have hnow : frame'.started.get? token = some first.now := by
        rw [hstarted, Option.mem_def.mp hfirst, Option.map_some]
      rw [hcharged, List.mem_append, List.mem_singleton] at hx
      rcases hx with hx | rfl
      · refine h.in_time l hl x hx first ?_
        rw [hcharged] at hfirst
        cases hdone : charged limits token done with
        | nil =>
          rw [hdone] at hx
          cases hx
        | cons y ys =>
          rw [hdone] at hfirst
          exact hfirst
      · exact hstep.in_time token hdecl l hl _ hnow
  · have hcharged : charged limits token (done ++ [c]) = charged limits token done := by
      rw [charged, List.filter_append, List.filter_singleton, decide_eq_false hdecl]
      exact List.append_nil _
    have hcalls : (frame'.calls.get? token).getD 0 = (frame.calls.get? token).getD 0 := by
      rw [hstep.calls, if_neg hdecl, Nat.add_zero]
    have hbytes : (frame'.bytes.get? token).getD 0 = (frame.bytes.get? token).getD 0 := by
      rw [hstep.bytes, if_neg hdecl, Nat.add_zero]
    refine ⟨?_, ?_, ?_, ?_, ?_, ?_⟩
    · rw [hcalls, hcharged, h.calls]
    · rw [hbytes, hcharged, h.bytes]
    · rw [hstep.started, if_neg hdecl, Option.or_none, hcharged, h.started]
    · rw [hcalls]
      exact h.calls_le
    · rw [hbytes]
      exact h.size_le
    · rw [hcharged]
      exact h.in_time

theorem Counted.refused {limits : String → Limits} {done : List (Crossing T)} {token : String}
    (h : Counted clock limits done frame token) (hsame : SameMeters frame frame') :
    Counted clock limits done frame' token := by
  obtain ⟨hcalls, hbytes, hstarted⟩ := hsame
  refine ⟨?_, ?_, ?_, ?_, ?_, h.in_time⟩
  · rw [hcalls]
    exact h.calls
  · rw [hbytes]
    exact h.bytes
  · rw [hstarted]
    exact h.started
  · rw [hcalls]
    exact h.calls_le
  · rw [hbytes]
    exact h.size_le

/-- **The counters are what was admitted**, over every sequence of crossings. -/
theorem Metered.counted {limits : String → Limits} {name : String} {done : List (Crossing T)}
    (h : Metered clock limits name done frame) (token : String) :
    Counted clock limits done frame token := by
  induction h with
  | start => exact .start limits name token
  | admitted c _ hok ih => exact ih.admitted (admitted_of_ok hok)
  | refused c fault _ hraised ih => exact ih.refused (refused_unchanged hraised)

/-- **All or nothing.** For every component and every set of ceilings, a crossing that is refused
leaves every counter as it was, and over every sequence of crossings what was spent of each ceiling
(the crossings admitted, their payloads, the time since the first of them) is within it. -/
theorem ceilings_hold (clock : Clock T) (limits : String → Limits) (name : String) :
    (∀ (frame frame' : Frame T) (c : Crossing T) (fault : CeilingExceeded),
      meter clock limits frame c = .raised fault frame' → SameMeters frame frame') ∧
      ∀ (done : List (Crossing T)) (frame : Frame T), Metered clock limits name done frame →
        ∀ token, Counted clock limits done frame token :=
  ⟨fun _ _ _ _ h => refused_unchanged h, fun _ _ h token => h.counted token⟩

end Revl.Meter
