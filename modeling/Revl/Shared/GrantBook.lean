import Revl.Shared.Liveness

/-!
# Counted grants (`liveness_confirm.py`)

A shared handle has one inverse and any number of holders. The last orderly release is handed
the inverse to run; where the last holder is confirmed gone, the sweep runs it.

- `SharedGrant`, `SharedGrantBook`: the grants by handle, over a liveness registry.
- `acquire`, `beat`, `release`, `reclaimCrashed`: the operations, with the book each leaves also
  where it refuses.
- `Session`: a book with who acquired and still holds what, and the inverses that were fired.
- `closed_once`: **in every run where no reclaimed holder acquires, a refused operation changes
  nothing, an open grant has a tracked holder, and each inverse is fired once, when the last
  holder released or was confirmed gone.**
-/

namespace Revl.Shared

open LivenessRegistry

/-! ## The book -/

/-- One handle's grant: the inverse its first acquirer bound, and who is counted. -/
structure SharedGrant (ι : Type) where
  inverse : ι
  holders : List String
  fired : Bool
  deriving DecidableEq

structure SharedGrantBook (ι : Type) where
  grants : Dict String (SharedGrant ι)
  liveness : LivenessRegistry

variable {ι : Type}

/-- What a sweep comes to: the book, the report, and the inverses it called. -/
structure Sweep (ι : Type) where
  book : SharedGrantBook ι
  report : ReclaimReport
  calls : List (String × ι)

namespace SharedGrantBook

/-- `SharedGrantBook(ttl=ttl)`. -/
def new (ttl : ℚ) (h : 0 < ttl) : SharedGrantBook ι := ⟨.empty, .new ttl h⟩

/-- `grant`. -/
def grant (b : SharedGrantBook ι) (handle : String) : Option (SharedGrant ι) :=
  b.grants.get? handle

def put (b : SharedGrantBook ι) (handle : String) (g : SharedGrant ι) : SharedGrantBook ι :=
  { b with grants := b.grants.set handle g }

/-- `acquire`. The holder is counted before it is registered. -/
def acquire (b : SharedGrantBook ι) (handle : String) (inverse : ι) (holder : String) (now : ℚ) :
    SharedGrantBook ι × Except LivenessError (SharedGrant ι) :=
  let grant := (b.grant handle).getD ⟨inverse, [], false⟩
  let b := if (b.grant handle).isSome then b else b.put handle grant
  if grant.fired then (b, .error (.tornDown handle))
  else
    let grant := { grant with holders := grant.holders.insert holder }
    let b := b.put handle grant
    match b.liveness.register holder none now with
    | .error e => (b, .error e)
    | .ok liveness => ({ b with liveness := liveness }, .ok grant)

/-- `beat`. -/
def beat (b : SharedGrantBook ι) (holder : String) (now : ℚ) :
    SharedGrantBook ι × Except LivenessError Unit :=
  match b.liveness.beat holder none now with
  | .error e => (b, .error e)
  | .ok liveness => ({ b with liveness := liveness }, .ok ())

/-- `_holds_any`. -/
def holdsAny (b : SharedGrantBook ι) (holder : String) : Bool :=
  b.grants.entries.any fun p => decide (holder ∈ p.2.holders)

/-- The end of `release`: the inverse is handed out at the zero crossing. -/
def cross (b : SharedGrantBook ι) (handle : String) (g : SharedGrant ι) :
    SharedGrantBook ι × Except LivenessError (Option ι) :=
  if !g.holders.isEmpty || g.fired then (b, .ok none)
  else (b.put handle { g with fired := true }, .ok (some g.inverse))

/-- `release`. The holder is uncounted before the registry lets it go. -/
def release (b : SharedGrantBook ι) (handle holder : String) (now : ℚ) :
    SharedGrantBook ι × Except LivenessError (Option ι) :=
  match b.grant handle with
  | none => (b, .error (.noGrant handle))
  | some g =>
    if holder ∉ g.holders then (b, .error (.notHeld holder handle))
    else
      let g := { g with holders := g.holders.filter fun h => h ≠ holder }
      let b := b.put handle g
      if b.holdsAny holder then b.cross handle g
      else
        match b.liveness.release holder now with
        | .error e => (b, .error e)
        | .ok liveness => { b with liveness := liveness }.cross handle g

/-- The holders of an open grant that a sweep finds gone. -/
def dead (gone : String → Bool) (g : SharedGrant ι) : List String :=
  if g.fired then [] else (g.holders.filter gone).insertionSort fun a b => a ≤ b

/-- The sweep closes the grant: someone is gone and nobody else is left. -/
def crosses (gone : String → Bool) (g : SharedGrant ι) : Bool :=
  !(dead gone g).isEmpty && g.holders.all fun h => decide (h ∈ dead gone g)

/-- `reclaim_crashed`. `raises` says which inverses raise. -/
def reclaimCrashed (b : SharedGrantBook ι) (probe : LivenessProbe) (raises : ι → Bool) (now : ℚ) :
    Sweep ι :=
  let gone := b.liveness.confirmedGone probe now
  let live := b.liveness.armExpired now
  let reclaimed := b.grants.entries.flatMap fun p => dead gone p.2
  let crossing := b.grants.entries.filter fun p => crosses gone p.2
  let handleFaults := (crossing.filter fun p => raises p.2.inverse).map fun p =>
    (⟨(dead gone p.2).headD "", some p.1, .reclaimFault⟩ : Fault)
  -- the closes have run, so the registry is given one that does nothing
  let noop := fun h => if h ∈ reclaimed then some false else none
  let (live, report) := live.reclaim noop probe now
  let report :=
    { report with
      fired := report.fired.filter fun h => decide (h ∉ handleFaults.map Fault.holder)
      faults := report.faults ++ handleFaults }
  let settled := b.grants.map fun _ g =>
    { g with
      fired := g.fired || crosses gone g
      holders := g.holders.filter fun h => decide (live.state h ≠ some .reclaimed) }
  ⟨⟨settled, live⟩, report, crossing.map fun p => (p.1, p.2.inverse)⟩

end SharedGrantBook

/-! ## Runs -/

/-- An operation on the book. -/
inductive Op (ι : Type) where
  | acquire (handle : String) (inverse : ι) (holder : String)
  | beat (holder : String)
  | release (handle holder : String)
  | reclaim (probe : LivenessProbe) (raises : ι → Bool)

/-- A book, with who acquired which handle and has neither released it nor been confirmed gone
since, the handles that were acquired, and the inverses that were called or handed out. -/
structure Session (ι : Type) where
  book : SharedGrantBook ι
  held : List (String × String)
  minted : List String
  fired : List (String × ι)

namespace Session

/-- An empty book. -/
def start (ttl : ℚ) (h : 0 < ttl) : Session ι := ⟨.new ttl h, [], [], []⟩

def afterAcquire (s : Session ι) (handle holder : String) :
    SharedGrantBook ι × Except LivenessError (SharedGrant ι) → Session ι
  | (b, .ok _) =>
    { s with book := b, held := (handle, holder) :: s.held, minted := handle :: s.minted }
  | (b, .error _) => { s with book := b }

def afterRelease (s : Session ι) (handle holder : String) :
    SharedGrantBook ι × Except LivenessError (Option ι) → Session ι
  | (b, .ok inverse) =>
    { s with
      book := b
      held := s.held.filter fun p => p ≠ (handle, holder)
      fired := s.fired ++ inverse.toList.map fun i => (handle, i) }
  | (b, .error _) => { s with book := b }

def afterReclaim (s : Session ι) (gone : String → Bool) (sweep : Sweep ι) : Session ι :=
  { s with
    book := sweep.book
    held := s.held.filter fun p => !gone p.2
    fired := s.fired ++ sweep.calls }

/-- One operation at a time. -/
def step (s : Session ι) (now : ℚ) : Op ι → Session ι
  | .acquire handle inverse holder =>
    s.afterAcquire handle holder (s.book.acquire handle inverse holder now)
  | .beat holder => { s with book := (s.book.beat holder now).1 }
  | .release handle holder => s.afterRelease handle holder (s.book.release handle holder now)
  | .reclaim probe raises =>
    s.afterReclaim (s.book.liveness.confirmedGone probe now)
      (s.book.reclaimCrashed probe raises now)

/-- The book refuses the operation. -/
def Refuses (s : Session ι) (now : ℚ) : Op ι → Prop
  | .acquire handle inverse holder => ∃ e, (s.book.acquire handle inverse holder now).2 = .error e
  | .beat holder => ∃ e, (s.book.beat holder now).2 = .error e
  | .release handle holder => ∃ e, (s.book.release handle holder now).2 = .error e
  | .reclaim _ _ => False

end Session

/-- The sessions the operations reach, each operation allowed. -/
inductive Reached (allowed : Session ι → Op ι → Prop) : Session ι → Prop where
  | start (ttl : ℚ) (h : 0 < ttl) : Reached allowed (.start ttl h)
  | step {s : Session ι} {op : Op ι} (now : ℚ) : Reached allowed s → allowed s op →
      Reached allowed (s.step now op)

/-- The condition: a holder that was reclaimed acquires no handle that is not torn down. -/
def AcquiresLive (s : Session ι) : Op ι → Prop
  | .acquire handle _ holder => s.book.liveness.state holder = some .reclaimed →
      ∃ g, s.book.grant handle = some g ∧ g.fired = true
  | _ => True

/-- What counted grants promise of a session. -/
structure Sound (s : Session ι) : Prop where
  /-- An open grant has a holder the registry still tracks. -/
  tracked : ∀ handle g, s.book.grant handle = some g → g.fired = false →
    ∃ h ∈ g.holders, s.book.liveness.Tracked h
  /-- No inverse is fired twice. -/
  once : (s.fired.map Prod.fst).Nodup
  /-- It is fired where the handle was acquired and nobody holds it any more. -/
  closed : ∀ handle, handle ∈ s.fired.map Prod.fst ↔
    handle ∈ s.minted ∧ ∀ h, (handle, h) ∉ s.held
  /-- It is the inverse the grant was bound to. -/
  bound : ∀ handle i, (handle, i) ∈ s.fired →
    ∃ g, s.book.grant handle = some g ∧ g.inverse = i

/-- What is claimed of the runs whose operations are allowed. -/
def ClosesOnce (ι : Type) (allowed : Session ι → Op ι → Prop) : Prop :=
  ∀ s : Session ι, Reached allowed s →
    Sound s ∧ ∀ now op, allowed s op → s.Refuses now op → s.step now op = s

/-! ## What each operation leaves -/

namespace SharedGrantBook

variable {b b' : SharedGrantBook ι} {handle holder : String} {now : ℚ}

theorem grant_put (handle : String) (g : SharedGrant ι) (name : String) :
    (b.put handle g).grant name = if name = handle then some g else b.grant name :=
  Dict.get?_set ..

@[simp] theorem liveness_put (handle : String) (g : SharedGrant ι) :
    (b.put handle g).liveness = b.liveness := rfl

theorem grant_eq_some_iff {g : SharedGrant ι} :
    b.grant handle = some g ↔ (handle, g) ∈ b.grants.entries :=
  Dict.get?_eq_some_iff

/-- A holder counted on an open grant, alive from now on. -/
structure Counted (b b' : SharedGrantBook ι) (handle : String) (inverse : ι) (holder : String)
    (g : SharedGrant ι) : Prop where
  was : b.grant handle = some g ∨ (b.grant handle = none ∧ g = ⟨inverse, [], false⟩)
  still_open : g.fired = false
  grant_eq : ∀ name, b'.grant name =
    if name = handle then some { g with holders := g.holders.insert holder } else b.grant name
  state_eq : ∀ id, b'.liveness.state id =
    if id = holder then some .alive else b.liveness.state id

/-- **What an acquire does**, of a holder that was not reclaimed: it is refused a closed grant
and changes nothing, or it counts the holder. -/
theorem acquire_cases (inverse : ι) (now : ℚ)
    (hlive : b.liveness.state holder = some .reclaimed →
      ∃ g, b.grant handle = some g ∧ g.fired = true) :
    (∃ e, b.acquire handle inverse holder now = (b, .error e)) ∨
      ∃ b' g g', b.acquire handle inverse holder now = (b', .ok g') ∧
        Counted b b' handle inverse holder g := by
  unfold acquire
  cases hgrant : b.grant handle with
  | some g =>
    dsimp only [Option.getD_some, Option.isSome_some]
    rw [if_pos rfl]
    by_cases hfired : g.fired = true
    · rw [if_pos hfired]
      exact Or.inl ⟨_, rfl⟩
    rw [if_neg hfired]
    have hopen : g.fired = false := Bool.not_eq_true _ ▸ hfired
    rcases b.liveness.register_cases holder now with ⟨hrec, -⟩ | ⟨-, r', hok, hstate⟩
    · obtain ⟨g', hg', hfired'⟩ := hlive hrec
      rw [hgrant, Option.some.injEq] at hg'
      exact absurd (hg' ▸ hfired') hfired
    · simp only [liveness_put, hok]
      refine Or.inr ⟨_, g, _, rfl, Or.inl hgrant, hopen, ?_, hstate⟩
      exact fun name => grant_put _ _ name
  | none =>
    dsimp only [Option.getD_none, Option.isSome_none]
    rw [if_neg Bool.false_ne_true, if_neg Bool.false_ne_true]
    rcases b.liveness.register_cases holder now with ⟨hrec, -⟩ | ⟨-, r', hok, hstate⟩
    · obtain ⟨g', hg', -⟩ := hlive hrec
      rw [hgrant] at hg'
      cases hg'
    · simp only [liveness_put, hok]
      refine Or.inr ⟨_, _, _, rfl, Or.inr ⟨hgrant, rfl⟩, rfl, ?_, hstate⟩
      intro name
      refine (grant_put _ _ name).trans ?_
      rw [grant_put]
      split
      · rfl
      · rfl

/-- A holder uncounted, and the grant closed where it was the last. -/
structure Uncounted (b b' : SharedGrantBook ι) (handle holder : String) (g : SharedGrant ι) :
    Prop where
  was : b.grant handle = some g
  held : holder ∈ g.holders
  grant_eq : ∀ name, b'.grant name =
    if name = handle then
      some ⟨g.inverse, g.holders.filter fun h => h ≠ holder,
        (g.holders.filter fun h => h ≠ holder).isEmpty⟩
    else b.grant name
  tracked : ∀ name g' h, b'.grant name = some g' → h ∈ g'.holders → b.liveness.Tracked h →
    b'.liveness.Tracked h

/-- The zero crossing, of a grant that is open. -/
theorem cross_eq (b : SharedGrantBook ι) {g : SharedGrant ι} (hput : b.grant handle = some g)
    (hopen : g.fired = false) :
    ∃ b', b.cross handle g = (b', .ok (if g.holders = [] then some g.inverse else none)) ∧
      b'.liveness = b.liveness ∧
      ∀ name, b'.grant name =
        if name = handle then some { g with fired := g.holders.isEmpty } else b.grant name := by
  unfold cross
  rw [hopen, Bool.or_false]
  cases hholders : g.holders with
  | nil =>
    refine ⟨_, rfl, rfl, fun name => ?_⟩
    rw [grant_put]
    rfl
  | cons h t =>
    refine ⟨b, rfl, rfl, fun name => ?_⟩
    split
    · rename_i hname
      rw [hname, hput, List.isEmpty_cons, ← hopen, ← hholders]
    · rfl

theorem holdsAny_eq_true {h : String} :
    b.holdsAny h = true ↔ ∃ name g, b.grant name = some g ∧ h ∈ g.holders := by
  unfold holdsAny
  rw [List.any_eq_true]
  constructor
  · rintro ⟨⟨name, g⟩, hmem, hh⟩
    exact ⟨name, g, grant_eq_some_iff.mpr hmem, of_decide_eq_true hh⟩
  · rintro ⟨name, g, hg, hh⟩
    exact ⟨(name, g), grant_eq_some_iff.mp hg, decide_eq_true hh⟩

/-- **What a release does**, where a counted holder is tracked and its grant is open: it is
refused whoever is not counted and changes nothing, or it uncounts the holder. -/
theorem release_cases (now : ℚ)
    (hopen : ∀ g, b.grant handle = some g → holder ∈ g.holders →
      g.fired = false ∧ b.liveness.Tracked holder) :
    (∃ e, b.release handle holder now = (b, .error e)) ∨
      ∃ b' g, Uncounted b b' handle holder g ∧
        b.release handle holder now =
          (b', .ok (if (g.holders.filter fun h => h ≠ holder) = [] then some g.inverse
            else none)) := by
  unfold release
  cases hgrant : b.grant handle with
  | none => exact Or.inl ⟨_, rfl⟩
  | some g =>
    dsimp only
    by_cases hheld : holder ∈ g.holders
    swap
    · rw [if_pos hheld]
      exact Or.inl ⟨_, rfl⟩
    rw [if_neg (not_not.mpr hheld)]
    obtain ⟨hfired, htracked⟩ := hopen g hgrant hheld
    refine Or.inr ?_
    by_cases hany : (b.put handle
        { g with holders := g.holders.filter fun h => h ≠ holder }).holdsAny holder = true
    · -- the holder owns another handle, so the registry keeps it
      rw [if_pos hany]
      obtain ⟨b', hcross, hlive, hget⟩ := (b.put handle
        { g with holders := g.holders.filter fun h => h ≠ holder }).cross_eq
          ((grant_put _ _ handle).trans (if_pos rfl)) hfired
      refine ⟨b', g, ⟨hgrant, hheld, ?_, ?_⟩, hcross⟩
      · intro name
        rw [hget, grant_put]
        split
        · rfl
        · rfl
      · intro name g' h _ _ hh
        rw [hlive]
        exact hh
    · rw [if_neg hany]
      obtain ⟨r', hok, hstate⟩ := release_tracked htracked now
      rw [liveness_put, hok]
      obtain ⟨b', hcross, hlive, hget⟩ := cross_eq
        { b.put handle { g with holders := g.holders.filter fun h => h ≠ holder } with
          liveness := r' } ((grant_put _ _ handle).trans (if_pos rfl)) hfired
      refine ⟨b', g, ⟨hgrant, hheld, ?_, ?_⟩, hcross⟩
      · intro name
        rw [hget]
        split
        · rfl
        · rename_i hname
          exact (grant_put _ _ name).trans (if_neg hname)
      · -- nobody counts the holder any more
        intro name g' h hg' hh htr
        rw [hlive]
        have hne : h ≠ holder := by
          rintro rfl
          rw [hget] at hg'
          refine hany (holdsAny_eq_true.mpr ?_)
          by_cases hname : name = handle
          · rw [if_pos hname, Option.some.injEq] at hg'
            subst hg'
            exact absurd hh (by simp)
          · rw [if_neg hname] at hg'
            exact ⟨name, g', hg', hh⟩
        unfold Tracked
        rw [hstate, if_neg hne]
        exact htr

/-! ### The sweep -/

theorem mem_dead {gone : String → Bool} {g : SharedGrant ι} {h : String} :
    h ∈ dead gone g ↔ g.fired = false ∧ h ∈ g.holders ∧ gone h = true := by
  unfold dead
  cases g.fired with
  | true => simp
  | false => simp

theorem crosses_iff {gone : String → Bool} {g : SharedGrant ι} :
    crosses gone g = true ↔
      g.fired = false ∧ g.holders ≠ [] ∧ ∀ h ∈ g.holders, gone h = true := by
  unfold crosses
  rw [Bool.and_eq_true, Bool.not_eq_true', List.isEmpty_eq_false_iff_exists_mem, List.all_eq_true]
  constructor
  · rintro ⟨⟨h, hdead⟩, hall⟩
    obtain ⟨hfired, hheld, -⟩ := mem_dead.mp hdead
    exact ⟨hfired, List.ne_nil_of_mem hheld,
      fun k hk => (mem_dead.mp (of_decide_eq_true (hall k hk))).2.2⟩
  · rintro ⟨hfired, hne, hall⟩
    obtain ⟨h, hheld⟩ := List.exists_mem_of_ne_nil _ hne
    exact ⟨⟨h, mem_dead.mpr ⟨hfired, hheld, hall h hheld⟩⟩,
      fun k hk => decide_eq_true (mem_dead.mpr ⟨hfired, hk, hall k hk⟩)⟩

/-- The sweep reclaims a counted holder where it is confirmed gone. -/
theorem state_swept {probe : LivenessProbe} {raises : ι → Bool} {g : SharedGrant ι} {h : String}
    (hgrant : b.grant handle = some g) (hopen : g.fired = false) (hheld : h ∈ g.holders) :
    (b.reclaimCrashed probe raises now).book.liveness.state h =
      if b.liveness.confirmedGone probe now h = true then some .reclaimed
      else (b.liveness.armExpired now).state h := by
  unfold reclaimCrashed
  dsimp only
  rw [state_reclaim]
  unfold confirmedGone
  rw [state_armExpired_idem]
  by_cases hgone : b.liveness.confirmedGone probe now h = true
  · have hmem : h ∈ b.grants.entries.flatMap fun p =>
        dead (b.liveness.confirmedGone probe now) p.2 :=
      List.mem_flatMap.mpr ⟨(handle, g), grant_eq_some_iff.mp hgrant,
        mem_dead.mpr ⟨hopen, hheld, hgone⟩⟩
    unfold confirmedGone at hgone hmem
    rw [if_pos ⟨hgone, by rw [if_pos hmem]; rfl⟩, if_pos hgone]
  · unfold confirmedGone at hgone
    rw [if_neg (fun hand => hgone hand.1), if_neg hgone]

/-- **What a sweep does to a grant**: the holders confirmed gone are uncounted, and the grant is
closed where they were all it had. -/
theorem grant_swept {probe : LivenessProbe} {raises : ι → Bool} {g : SharedGrant ι}
    (hgrant : b.grant handle = some g) (hempty : g.fired = true → g.holders = [])
    (htracked : ∀ h ∈ g.holders, b.liveness.Tracked h) :
    (b.reclaimCrashed probe raises now).book.grant handle =
      some ⟨g.inverse, g.holders.filter fun h => !b.liveness.confirmedGone probe now h,
        g.fired || crosses (b.liveness.confirmedGone probe now) g⟩ := by
  have hmap : (b.reclaimCrashed probe raises now).book.grant handle =
      some { g with
        fired := g.fired || crosses (b.liveness.confirmedGone probe now) g
        holders := g.holders.filter fun h => decide
          ((b.reclaimCrashed probe raises now).book.liveness.state h ≠ some .reclaimed) } := by
    refine (Dict.get?_map ..).trans ?_
    rw [show b.grants.get? handle = some g from hgrant]
    rfl
  rw [hmap]
  congr 2
  refine List.filter_congr fun h hh => ?_
  have hopen : g.fired = false := by
    rw [← Bool.not_eq_true]
    intro hfired
    rw [hempty hfired] at hh
    cases hh
  rw [state_swept hgrant hopen hh]
  by_cases hgone : b.liveness.confirmedGone probe now h = true
  · rw [if_pos hgone, hgone]
    rfl
  · rw [if_neg hgone, Bool.eq_false_iff.mpr hgone]
    exact decide_eq_true
      ((tracked_armExpired b.liveness now h).mpr (htracked h hh)).not_reclaimed

theorem mem_calls {probe : LivenessProbe} {raises : ι → Bool} {i : ι} :
    (handle, i) ∈ (b.reclaimCrashed probe raises now).calls ↔
      ∃ g, b.grant handle = some g ∧ crosses (b.liveness.confirmedGone probe now) g = true ∧
        g.inverse = i := by
  unfold reclaimCrashed
  dsimp only
  rw [List.mem_map]
  constructor
  · rintro ⟨⟨name, g⟩, hmem, heq⟩
    obtain ⟨rfl, rfl⟩ := Prod.mk.inj heq
    obtain ⟨hentry, hcross⟩ := List.mem_filter.mp hmem
    exact ⟨g, grant_eq_some_iff.mpr hentry, hcross, rfl⟩
  · rintro ⟨g, hgrant, hcross, rfl⟩
    exact ⟨(handle, g), List.mem_filter.mpr ⟨grant_eq_some_iff.mp hgrant, hcross⟩, rfl⟩

theorem nodup_calls (probe : LivenessProbe) (raises : ι → Bool) :
    ((b.reclaimCrashed probe raises now).calls.map Prod.fst).Nodup := by
  unfold reclaimCrashed
  dsimp only
  rw [List.map_map]
  exact b.grants.nodup.sublist (List.filter_sublist.map Prod.fst)

end SharedGrantBook

/-! ## One step -/

open SharedGrantBook

variable {s : Session ι}

/-- What an operation keeps of a session. -/
structure Kept (s : Session ι) : Prop where
  closed_empty : ∀ handle g, s.book.grant handle = some g → g.fired = true → g.holders = []
  open_held : ∀ handle g, s.book.grant handle = some g → g.fired = false → g.holders ≠ []
  tracked : ∀ handle g h, s.book.grant handle = some g → h ∈ g.holders →
    s.book.liveness.Tracked h
  held_iff : ∀ handle h, (handle, h) ∈ s.held ↔
    ∃ g, s.book.grant handle = some g ∧ h ∈ g.holders
  minted_iff : ∀ handle, handle ∈ s.minted ↔ ∃ g, s.book.grant handle = some g
  fired_iff : ∀ handle i, (handle, i) ∈ s.fired ↔
    ∃ g, s.book.grant handle = some g ∧ g.fired = true ∧ g.inverse = i
  once : (s.fired.map Prod.fst).Nodup

/-- What an operation keeps of one handle. -/
structure KeptFor (s : Session ι) (handle : String) : Prop where
  closed_empty : ∀ g, s.book.grant handle = some g → g.fired = true → g.holders = []
  open_held : ∀ g, s.book.grant handle = some g → g.fired = false → g.holders ≠ []
  tracked : ∀ g h, s.book.grant handle = some g → h ∈ g.holders → s.book.liveness.Tracked h
  held_iff : ∀ h, (handle, h) ∈ s.held ↔ ∃ g, s.book.grant handle = some g ∧ h ∈ g.holders
  minted_iff : handle ∈ s.minted ↔ ∃ g, s.book.grant handle = some g
  fired_iff : ∀ i, (handle, i) ∈ s.fired ↔
    ∃ g, s.book.grant handle = some g ∧ g.fired = true ∧ g.inverse = i

theorem Kept.each (hs : Kept s) (handle : String) : KeptFor s handle :=
  ⟨hs.closed_empty handle, hs.open_held handle, hs.tracked handle, hs.held_iff handle,
    hs.minted_iff handle, hs.fired_iff handle⟩

theorem Kept.of_each (h : ∀ handle, KeptFor s handle) (once : (s.fired.map Prod.fst).Nodup) :
    Kept s :=
  ⟨fun handle => (h handle).closed_empty, fun handle => (h handle).open_held,
    fun handle => (h handle).tracked, fun handle => (h handle).held_iff,
    fun handle => (h handle).minted_iff, fun handle => (h handle).fired_iff, once⟩

/-- An operation on another handle, whose holders stay tracked. -/
theorem KeptFor.elsewhere {s' : Session ι} {handle : String} (hs : KeptFor s handle)
    (hgrant : s'.book.grant handle = s.book.grant handle)
    (htracked : ∀ g h, s.book.grant handle = some g → h ∈ g.holders →
      s'.book.liveness.Tracked h)
    (hheld : ∀ h, (handle, h) ∈ s'.held ↔ (handle, h) ∈ s.held)
    (hminted : handle ∈ s'.minted ↔ handle ∈ s.minted)
    (hfired : ∀ i, (handle, i) ∈ s'.fired ↔ (handle, i) ∈ s.fired) : KeptFor s' handle where
  closed_empty g hg := hs.closed_empty g (hgrant ▸ hg)
  open_held g hg := hs.open_held g (hgrant ▸ hg)
  tracked g h hg := htracked g h (hgrant ▸ hg)
  held_iff h := by
    rw [hheld, hgrant]
    exact hs.held_iff h
  minted_iff := by
    rw [hminted, hgrant]
    exact hs.minted_iff
  fired_iff i := by
    rw [hfired, hgrant]
    exact hs.fired_iff i

/-- A counted holder's grant is open, and the holder is tracked. -/
theorem Kept.counted (hs : Kept s) {handle h : String} {g : SharedGrant ι}
    (hgrant : s.book.grant handle = some g) (hheld : h ∈ g.holders) :
    g.fired = false ∧ s.book.liveness.Tracked h := by
  refine ⟨?_, hs.tracked handle g h hgrant hheld⟩
  rw [← Bool.not_eq_true]
  intro hfired
  -- nobody is counted on a closed grant
  rw [hs.closed_empty handle g hgrant hfired] at hheld
  cases hheld

/-- A handle whose grant is open was not fired. -/
theorem Kept.not_fired (hs : Kept s) {handle : String}
    (hopen : ∀ g, s.book.grant handle = some g → g.fired = false) :
    handle ∉ s.fired.map Prod.fst := by
  intro hmem
  obtain ⟨⟨name, i⟩, hfired, rfl⟩ := List.mem_map.mp hmem
  obtain ⟨g, hgrant, htrue, -⟩ := (hs.fired_iff name i).mp hfired
  rw [hopen g hgrant] at htrue
  cases htrue

/-- Counting a holder. -/
theorem Kept.counts (hs : Kept s) {b' : SharedGrantBook ι} {handle holder : String} {inverse : ι}
    {g : SharedGrant ι} (h : Counted s.book b' handle inverse holder g) :
    Kept { s with
      book := b', held := (handle, holder) :: s.held, minted := handle :: s.minted } := by
  have halive : ∀ id, s.book.liveness.Tracked id → b'.liveness.Tracked id := by
    intro id hid
    unfold Tracked
    rw [h.state_eq]
    split
    · exact Or.inl rfl
    · exact hid
  -- whoever the grant counted before was counted by the book
  have hbefore : ∀ k ∈ g.holders, s.book.grant handle = some g := by
    intro k hk
    rcases h.was with hwas | ⟨-, rfl⟩
    · exact hwas
    · cases hk
  have hopen : ∀ g', s.book.grant handle = some g' → g' = g := by
    intro g' hg'
    rcases h.was with hwas | ⟨hnone, -⟩
    · exact Option.some.inj (hg'.symm.trans hwas)
    · cases hnone.symm.trans hg'
  refine .of_each (fun name => ?_) hs.once
  by_cases hname : name = handle
  swap
  · exact (hs.each name).elsewhere ((h.grant_eq name).trans (if_neg hname))
      (fun g' k hg' hk => halive k (hs.tracked name g' k hg' hk)) (fun k => by simp [hname])
      (by simp [hname]) (fun _ => Iff.rfl)
  subst hname
  have hgrant : b'.grant name = some { g with holders := g.holders.insert holder } :=
    (h.grant_eq name).trans (if_pos rfl)
  have hthere : ∀ g', b'.grant name = some g' →
      g' = { g with holders := g.holders.insert holder } := by
    intro g' hg'
    exact Option.some.inj (hg'.symm.trans hgrant)
  constructor
  · intro g' hg' hfired
    obtain rfl := hthere g' hg'
    rw [h.still_open] at hfired
    cases hfired
  · intro g' hg' _
    obtain rfl := hthere g' hg'
    exact List.ne_nil_of_mem List.mem_insert_self
  · intro g' k hg' hk
    obtain rfl := hthere g' hg'
    rcases List.mem_insert_iff.mp hk with rfl | hk
    · exact Or.inl ((h.state_eq k).trans (if_pos rfl))
    · exact halive k (hs.tracked name g k (hbefore k hk) hk)
  · intro k
    dsimp only
    rw [List.mem_cons, Prod.mk.injEq, hs.held_iff]
    constructor
    · rintro (⟨-, rfl⟩ | ⟨g', hg', hk⟩)
      · exact ⟨_, hgrant, List.mem_insert_self⟩
      · obtain rfl := hopen g' hg'
        exact ⟨_, hgrant, List.mem_insert_of_mem hk⟩
    · rintro ⟨g', hg', hk⟩
      obtain rfl := hthere g' hg'
      rcases List.mem_insert_iff.mp hk with rfl | hk
      · exact Or.inl ⟨rfl, rfl⟩
      · exact Or.inr ⟨g, hbefore k hk, hk⟩
  · dsimp only
    rw [hgrant]
    simp
  · intro i
    dsimp only
    rw [hs.fired_iff]
    -- the grant is open before and after, so its inverse was not called
    constructor
    · rintro ⟨g', hg', hfired, -⟩
      obtain rfl := hopen g' hg'
      rw [h.still_open] at hfired
      cases hfired
    · rintro ⟨g', hg', hfired, -⟩
      obtain rfl := hthere g' hg'
      rw [h.still_open] at hfired
      cases hfired

/-- Uncounting a holder, and firing the inverse where it was the last. -/
theorem Kept.uncounts (hs : Kept s) {b' : SharedGrantBook ι} {handle holder : String}
    {g : SharedGrant ι} (h : Uncounted s.book b' handle holder g) :
    Kept { s with
      book := b'
      held := s.held.filter fun p => p ≠ (handle, holder)
      fired := s.fired ++ (if (g.holders.filter fun k => k ≠ holder) = [] then some g.inverse
        else none).toList.map fun i => (handle, i) } := by
  have hopen := (hs.counted h.was h.held).1
  refine .of_each (fun name => ?_) ?_
  · by_cases hname : name = handle
    swap
    · have helse : b'.grant name = s.book.grant name := (h.grant_eq name).trans (if_neg hname)
      refine (hs.each name).elsewhere helse (fun g' k hg' hk => ?_) (fun k => by simp [hname])
        Iff.rfl (fun i => ?_)
      · exact h.tracked name g' k (helse.trans hg') hk (hs.tracked name g' k hg' hk)
      · dsimp only
        split
        · simp [hname]
        · simp
    subst hname
    have hgrant : b'.grant name = some ⟨g.inverse, g.holders.filter fun k => k ≠ holder,
        (g.holders.filter fun k => k ≠ holder).isEmpty⟩ := (h.grant_eq name).trans (if_pos rfl)
    have hthere : ∀ g', b'.grant name = some g' →
        g' = ⟨g.inverse, g.holders.filter fun k => k ≠ holder,
          (g.holders.filter fun k => k ≠ holder).isEmpty⟩ := by
      intro g' hg'
      exact Option.some.inj (hg'.symm.trans hgrant)
    constructor
    · intro g' hg' hfired
      obtain rfl := hthere g' hg'
      exact List.isEmpty_iff.mp hfired
    · intro g' hg' hfired hnil
      obtain rfl := hthere g' hg'
      exact Bool.noConfusion (hfired.symm.trans (List.isEmpty_iff.mpr hnil))
    · intro g' k hg' hk
      refine h.tracked name g' k hg' hk ?_
      obtain rfl := hthere g' hg'
      exact hs.tracked name g k h.was (List.mem_filter.mp hk).1
    · intro k
      dsimp only
      rw [List.mem_filter, hs.held_iff, hgrant, h.was]
      simp
    · dsimp only
      rw [hs.minted_iff, hgrant, h.was]
      simp
    · intro i
      dsimp only
      rw [List.mem_append, hs.fired_iff, hgrant, h.was]
      by_cases hlast : (g.holders.filter fun k => k ≠ holder) = []
      · rw [if_pos hlast, hlast]
        simp [hopen, @eq_comm _ g.inverse i]
      · rw [if_neg hlast, List.isEmpty_eq_false_iff.mpr hlast]
        simp [hopen]
  · dsimp only
    split
    · rw [List.map_append]
      refine List.nodup_append'.mpr ⟨hs.once, List.nodup_singleton _, ?_⟩
      intro name hmem hname
      obtain rfl : name = handle := by simpa using hname
      refine hs.not_fired (fun g' hg' => ?_) hmem
      rw [h.was, Option.some.injEq] at hg'
      exact hg' ▸ hopen
    · simpa using hs.once

/-- What a sweep makes of a grant. -/
def sweptGrant (gone : String → Bool) (g : SharedGrant ι) : SharedGrant ι :=
  ⟨g.inverse, g.holders.filter fun h => !gone h, g.fired || crosses gone g⟩

/-- **What a sweep makes of the grants.** -/
theorem Kept.grant_swept (hs : Kept s) (probe : LivenessProbe) (raises : ι → Bool) (now : ℚ)
    (name : String) : (s.book.reclaimCrashed probe raises now).book.grant name =
      (s.book.grant name).map (sweptGrant (s.book.liveness.confirmedGone probe now)) := by
  cases hg : s.book.grant name with
  | none =>
    refine (Dict.get?_map ..).trans ?_
    rw [show s.book.grants.get? name = none from hg]
    rfl
  | some g =>
    exact SharedGrantBook.grant_swept hg (hs.closed_empty _ _ hg) (hs.tracked _ _ · hg)

/-- A sweep. -/
theorem Kept.sweeps (hs : Kept s) (probe : LivenessProbe) (raises : ι → Bool) (now : ℚ) :
    Kept (s.afterReclaim (s.book.liveness.confirmedGone probe now)
      (s.book.reclaimCrashed probe raises now)) := by
  have hswept : ∀ {name g}, s.book.grant name = some g →
      (s.book.reclaimCrashed probe raises now).book.grant name =
        some (sweptGrant (s.book.liveness.confirmedGone probe now) g) := by
    intro name g hg
    rw [hs.grant_swept, hg]
    rfl
  have hback : ∀ {name g'},
      (s.book.reclaimCrashed probe raises now).book.grant name = some g' →
        ∃ g, s.book.grant name = some g ∧
          g' = sweptGrant (s.book.liveness.confirmedGone probe now) g := by
    intro name g' hg'
    rw [hs.grant_swept, Option.map_eq_some_iff] at hg'
    obtain ⟨g, hg, rfl⟩ := hg'
    exact ⟨g, hg, rfl⟩
  unfold Session.afterReclaim
  constructor
  · intro name g' hg' hfired
    obtain ⟨g, hg, rfl⟩ := hback hg'
    rcases Bool.or_eq_true _ _ ▸ hfired with hfired | hcross
    · show g.holders.filter _ = []
      rw [hs.closed_empty name g hg hfired]
      rfl
    · refine List.filter_eq_nil_iff.mpr fun h hh => ?_
      rw [(crosses_iff.mp hcross).2.2 h hh]
      decide
  · intro name g' hg' hopen
    obtain ⟨g, hg, rfl⟩ := hback hg'
    obtain ⟨hfired, hcross⟩ := Bool.or_eq_false_iff.mp hopen
    intro hnil
    -- a grant with nobody left is closed
    refine Bool.eq_false_iff.mp hcross (crosses_iff.mpr ⟨hfired, hs.open_held name g hg hfired, ?_⟩)
    intro h hh
    simpa using List.filter_eq_nil_iff.mp hnil h hh
  · intro name g' h hg' hh
    obtain ⟨g, hg, rfl⟩ := hback hg'
    obtain ⟨hheld, hhere⟩ := List.mem_filter.mp hh
    obtain ⟨hopen, htracked⟩ := hs.counted hg hheld
    unfold Tracked
    dsimp only
    rw [state_swept hg hopen hheld, if_neg (by simpa using hhere)]
    exact (tracked_armExpired s.book.liveness now h).mpr htracked
  · intro name h
    dsimp only
    rw [List.mem_filter, hs.held_iff]
    constructor
    · rintro ⟨⟨g, hg, hh⟩, hhere⟩
      exact ⟨_, hswept hg, List.mem_filter.mpr ⟨hh, hhere⟩⟩
    · rintro ⟨g', hg', hh⟩
      obtain ⟨g, hg, rfl⟩ := hback hg'
      obtain ⟨hheld, hhere⟩ := List.mem_filter.mp hh
      exact ⟨⟨g, hg, hheld⟩, hhere⟩
  · intro name
    dsimp only
    rw [hs.minted_iff]
    constructor
    · rintro ⟨g, hg⟩
      exact ⟨_, hswept hg⟩
    · rintro ⟨g', hg'⟩
      obtain ⟨g, hg, -⟩ := hback hg'
      exact ⟨g, hg⟩
  · intro name i
    dsimp only
    rw [List.mem_append, hs.fired_iff, mem_calls]
    constructor
    · rintro (⟨g, hg, hfired, rfl⟩ | ⟨g, hg, hcross, rfl⟩)
      · exact ⟨_, hswept hg, Bool.or_eq_true_iff.mpr (Or.inl hfired), rfl⟩
      · exact ⟨_, hswept hg, Bool.or_eq_true_iff.mpr (Or.inr hcross), rfl⟩
    · rintro ⟨g', hg', hfired, rfl⟩
      obtain ⟨g, hg, rfl⟩ := hback hg'
      rcases Bool.or_eq_true _ _ ▸ hfired with hfired | hcross
      · exact Or.inl ⟨g, hg, hfired, rfl⟩
      · exact Or.inr ⟨g, hg, hcross, rfl⟩
  · dsimp only
    rw [List.map_append]
    refine List.nodup_append'.mpr ⟨hs.once, nodup_calls probe raises, ?_⟩
    intro name hmem hcall
    obtain ⟨⟨name, i⟩, hcalled, rfl⟩ := List.mem_map.mp hcall
    obtain ⟨g, hg, hcross, -⟩ := mem_calls.mp hcalled
    refine hs.not_fired (fun g' hg' => ?_) hmem
    rw [hg, Option.some.injEq] at hg'
    exact hg' ▸ (crosses_iff.mp hcross).1

/-- A beat, which leaves the grants alone. -/
theorem Kept.beats (hs : Kept s) {r' : LivenessRegistry} {holder : String} {now : ℚ}
    (h : s.book.liveness.beat holder none now = .ok r') :
    Kept { s with book := { s.book with liveness := r' } } where
  closed_empty := hs.closed_empty
  open_held := hs.open_held
  tracked handle g k hg hk := tracked_beat h (hs.tracked handle g k hg hk)
  held_iff := hs.held_iff
  minted_iff := hs.minted_iff
  fired_iff := hs.fired_iff
  once := hs.once

/-- **One operation keeps what the books promise**, and where it is refused it does nothing. -/
theorem Kept.step (hs : Kept s) {op : Op ι} (hallowed : AcquiresLive s op) (now : ℚ) :
    Kept (s.step now op) ∧ (s.Refuses now op → s.step now op = s) := by
  cases op with
  | acquire handle inverse holder =>
    rcases acquire_cases inverse now hallowed with ⟨e, herr⟩ | ⟨b', g, g', hok, hcounted⟩
    · simp only [Session.step, Session.Refuses, herr]
      exact ⟨hs, fun _ => rfl⟩
    · simp only [Session.step, Session.Refuses, hok]
      exact ⟨hs.counts hcounted, fun ⟨e, h⟩ => nomatch h⟩
  | beat holder =>
    cases hbeat : s.book.liveness.beat holder none now with
    | error e =>
      simp only [Session.step, SharedGrantBook.beat, hbeat]
      exact ⟨hs, fun _ => trivial⟩
    | ok r' =>
      simp only [Session.step, Session.Refuses, SharedGrantBook.beat, hbeat]
      exact ⟨hs.beats hbeat, fun ⟨e, h⟩ => nomatch h⟩
  | release handle holder =>
    have hcounted : ∀ g, s.book.grant handle = some g → holder ∈ g.holders →
        g.fired = false ∧ s.book.liveness.Tracked holder := fun _ hg hh => hs.counted hg hh
    rcases release_cases now hcounted with ⟨e, herr⟩ | ⟨b', g, hun, hok⟩
    · simp only [Session.step, Session.Refuses, herr]
      exact ⟨hs, fun _ => rfl⟩
    · simp only [Session.step, Session.Refuses, hok]
      exact ⟨hs.uncounts hun, fun ⟨e, h⟩ => nomatch h⟩
  | reclaim probe raises => exact ⟨hs.sweeps probe raises now, fun h => h.elim⟩

/-! ## The result -/

theorem Kept.start (ttl : ℚ) (h : 0 < ttl) : Kept (Session.start ttl h : Session ι) := by
  constructor
  · exact fun _ _ h => nomatch h
  · exact fun _ _ h => nomatch h
  · exact fun _ _ _ h => nomatch h
  · exact fun _ _ => ⟨fun h => (nomatch h), fun ⟨_, h, _⟩ => nomatch h⟩
  · exact fun _ => ⟨fun h => (nomatch h), fun ⟨_, h⟩ => nomatch h⟩
  · exact fun _ _ => ⟨fun h => (nomatch h), fun ⟨_, h, _⟩ => nomatch h⟩
  · exact List.nodup_nil

theorem Reached.kept (h : Reached AcquiresLive s) : Kept s := by
  induction h with
  | start ttl h => exact .start ttl h
  | step now _ hallowed ih => exact (ih.step hallowed now).1

theorem Kept.sound (hs : Kept s) : Sound s := by
  constructor
  · intro handle g hg hopen
    obtain ⟨h, hh⟩ := List.exists_mem_of_ne_nil _ (hs.open_held handle g hg hopen)
    exact ⟨h, hh, hs.tracked handle g h hg hh⟩
  · exact hs.once
  · intro handle
    rw [hs.minted_iff]
    constructor
    · intro hmem
      obtain ⟨⟨name, i⟩, hfired, rfl⟩ := List.mem_map.mp hmem
      obtain ⟨g, hg, hclosed, -⟩ := (hs.fired_iff name i).mp hfired
      refine ⟨⟨g, hg⟩, fun h hheld => ?_⟩
      obtain ⟨g', hg', hh⟩ := (hs.held_iff name h).mp hheld
      rw [hg, Option.some.injEq] at hg'
      subst hg'
      rw [(hs.counted hg hh).1] at hclosed
      cases hclosed
    · rintro ⟨⟨g, hg⟩, hnobody⟩
      refine List.mem_map.mpr
        ⟨(handle, g.inverse), (hs.fired_iff handle _).mpr ⟨g, hg, ?_, rfl⟩, rfl⟩
      rw [← Bool.not_eq_false]
      intro hopen
      obtain ⟨h, hh⟩ := List.exists_mem_of_ne_nil _ (hs.open_held handle g hg hopen)
      exact hnobody h ((hs.held_iff handle h).mpr ⟨g, hg, hh⟩)
  · intro handle i hfired
    obtain ⟨g, hg, -, hi⟩ := (hs.fired_iff handle i).mp hfired
    exact ⟨g, hg, hi⟩

/-- **Counted grants close exactly once**, in every run where a reclaimed holder acquires no
handle that is not torn down: what is refused changes nothing, an open grant has a tracked holder,
and each inverse is fired once, exactly where its last holder released or was confirmed gone. -/
theorem closed_once (ι : Type) : ClosesOnce ι AcquiresLive := by
  intro s hs
  exact ⟨hs.kept.sound, fun now op hallowed => (hs.kept.step hallowed now).2⟩

/-- Two holders: one releases, the other is swept once it is gone. -/
def sharedRun : Session String :=
  ((((Session.start 30 (by decide)).step 0 (.acquire "cache" "close cache" "alice")).step 1
    (.acquire "cache" "close cache" "bob")).step 2 (.release "cache" "alice")).step 40
      (.reclaim (fun h => h != "bob") fun _ => false)

theorem closed_once_shared : Sound sharedRun ∧ sharedRun.fired = [("cache", "close cache")] := by
  refine ⟨(closed_once String sharedRun ?_).1, by decide +kernel⟩
  refine .step 40 (.step 2 (.step 1 (.step 0 (.start 30 (by decide)) ?_) ?_) trivial) trivial
  · intro h
    exact absurd h (by decide +kernel)
  · intro h
    exact absurd h (by decide +kernel)

/-- The holder `bob` crashes and is swept, and then joins the handle `alice` holds: he is refused,
and counted. -/
def rejoined : Session String :=
  ((((Session.start 30 (by decide)).step 0 (.acquire "cache" "close cache" "bob")).step 40
    (.reclaim (fun h => h != "bob") fun _ => false)).step 41
      (.acquire "lock" "unlock" "alice")).step 42 (.acquire "lock" "unlock" "bob")

/-- **A refused holder is counted**, and the handle is never closed: once `alice` releases it
nobody the registry tracks is left, and `bob` cannot release it. -/
theorem refused_holder_counted : ¬ ClosesOnce String fun _ _ => True := by
  intro hclaim
  have hreached : Reached (fun _ _ => True) rejoined :=
    .step 42 (.step 41 (.step 40 (.step 0 (.start 30 (by decide)) trivial) trivial) trivial) trivial
  obtain ⟨g, hg, hopen, hholders⟩ : ∃ g, (rejoined.step 43 (.release "lock" "alice")).book.grant
      "lock" = some g ∧ g.fired = false ∧ g.holders = ["bob"] :=
    ⟨⟨"unlock", ["bob"], false⟩, by decide +kernel, rfl, rfl⟩
  obtain ⟨h, hh, htracked⟩ := (hclaim _ (.step 43 hreached trivial)).1.tracked "lock" g hg hopen
  rw [hholders, List.mem_singleton] at hh
  subst hh
  refine htracked.not_reclaimed ?_
  decide +kernel

end Revl.Shared
