import Revl.Recovery.SharedGrants
import Revl.Shared.GrantBook

/-!
# The durable ledger of shared grants (`shared_runtime.py`)

A book of counted grants that writes every change of a count to the log, a fence before an
inverse is called and a completion after it returned. After a crash, recovery decides from the
records that were written.

- `JournaledBook`: the book, with what it wrote and called so far.
- `mint`, `consume`, `release`, `reclaim`: the operations.
- `Safe`: what is true of the ledger wherever it is cut.
- `journal_one_close`: **in every run where no reclaimed holder acquires, cut anywhere and
  followed by any runs of recovery, each inverse is applied at most once, and a handle is reported
  clean only where it was applied and returned or its completion is on the log.**
-/

namespace Revl.Shared

open Revl.Recovery LivenessRegistry SharedGrantBook

/-! ## The ledger -/

/-- What the book does outside itself. -/
inductive JournalAct where
  | append (r : WalRecord)
  /-- `world.apply_inverse`. -/
  | call (handle : String) (op : Call)
  | returned (handle : String)
  deriving DecidableEq

def JournalAct.record? : JournalAct → Option WalRecord
  | .append r => some r
  | _ => none

def JournalAct.isCall (handle : String) : JournalAct → Bool
  | .call h _ => h == handle
  | _ => false

/-- The log some acts leave. -/
def recordsOf (acts : List JournalAct) : List WalRecord := acts.filterMap JournalAct.record?

/-- How often the inverse of a handle was called. -/
def callsOf (handle : String) (acts : List JournalAct) : Nat :=
  acts.countP (JournalAct.isCall handle)

/-- `_inverse_callable`: the serialized close of a handle. -/
structure Close where
  handle : String
  op : Call
  deriving DecidableEq

/-- The book, with the acts so far. -/
structure JournaledBook where
  book : SharedGrantBook Close
  inverseOp : Dict String Call
  settled : List String
  fenced : List String
  acts : List JournalAct

/-- Why an orderly release does not return. -/
inductive ReleaseError where
  | refused (e : LivenessError)
  | raised
  deriving DecidableEq, Repr

namespace JournaledBook

/-- `JournaledSharedGrantBook(wal_path, ttl=ttl)`. -/
def new (ttl : ℚ) (h : 0 < ttl) : JournaledBook := ⟨.new ttl h, .empty, [], [], []⟩

def act (j : JournaledBook) (a : JournalAct) : JournaledBook := { j with acts := j.acts ++ [a] }

/-- The counted holders, sorted. -/
def holdersOf (j : JournaledBook) (handle : String) : List String :=
  ((j.book.grant handle).map fun g => g.holders.insertionSort fun a b => a ≤ b).getD []

/-- `_journal_grant`. -/
def journalGrant (j : JournaledBook) (handle : String) : JournaledBook :=
  j.act (.append (.sharedGrant
    ⟨handle, (j.inverseOp.get? handle).getD .empty, j.holdersOf handle⟩))

/-- `_journal_fence`: once for each handle. -/
def journalFence (j : JournaledBook) (handle : String) : JournaledBook :=
  if handle ∈ j.fenced then j
  else
    { j.act (.append (.sharedReclaimFence handle)) with fenced := handle :: j.fenced }

/-- The closure of `_inverse_callable`. -/
def fire (j : JournaledBook) (close : Close) (raises : Bool) : JournaledBook :=
  let j := (j.journalFence close.handle).act (.call close.handle close.op)
  if raises then j else j.act (.returned close.handle)

/-- The acquire of `mint` and `consume`, and its record. -/
def join (j : JournaledBook) (handle holder : String) (now : ℚ) :
    JournaledBook × Except LivenessError Unit :=
  match j.book.acquire handle ⟨handle, (j.inverseOp.get? handle).getD .empty⟩ holder now with
  | (b, .error e) => ({ j with book := b }, .error e)
  | (b, .ok _) => ({ j with book := b }.journalGrant handle, .ok ())

/-- `mint`. -/
def mint (j : JournaledBook) (handle : String) (op : Call) (holder : String) (now : ℚ) :
    JournaledBook × Except LivenessError Unit :=
  let ops := if (j.inverseOp.get? handle).isSome then j.inverseOp else j.inverseOp.set handle op
  { j with inverseOp := ops }.join handle holder now

/-- `consume`. -/
def consume (j : JournaledBook) (handle holder : String) (now : ℚ) :
    JournaledBook × Except LivenessError Unit :=
  if (j.inverseOp.get? handle).isNone then (j, .error (.noGrant handle))
  else j.join handle holder now

/-- `beat`. -/
def beat (j : JournaledBook) (holder : String) (now : ℚ) :
    JournaledBook × Except LivenessError Unit :=
  ({ j with book := (j.book.beat holder now).1 }, (j.book.beat holder now).2)

/-- `release`. -/
def release (j : JournaledBook) (handle holder : String) (raises : Bool) (now : ℚ) :
    JournaledBook × Except ReleaseError Bool :=
  match j.book.release handle holder now with
  | (b, .error e) => ({ j with book := b }, .error (.refused e))
  | (b, .ok none) => ({ j with book := b }.journalGrant handle, .ok false)
  | (b, .ok (some close)) =>
    -- the fence comes before the zero count and before the call
    let j := { j with book := b }.journalFence handle
    let j := { j with settled := handle :: j.settled }.journalGrant handle
    let j := j.fire close raises
    if raises then (j, .error .raised) else (j.act (.append (.sharedComplete handle)), .ok true)

/-- The calls of a sweep, in order. -/
def fireAll (raises : Close → Bool) : List Close → JournaledBook → JournaledBook
  | [], j => j
  | close :: rest, j => fireAll raises rest (j.fire close (raises close))

/-- The body of the loop that finalizes a sweep. -/
def finish (faulted : List String) (j : JournaledBook) (handle : String) : JournaledBook :=
  match j.book.grant handle with
  | none => j
  | some g =>
    if !g.fired then j.journalGrant handle
    else if handle ∈ j.settled then j
    else
      let j :=
        if handle ∈ faulted then j.journalFence handle
        else (j.journalGrant handle).act (.append (.sharedComplete handle))
      { j with settled := handle :: j.settled }

/-- `reclaim_crashed`. -/
def reclaim (j : JournaledBook) (probe : LivenessProbe) (raises : Close → Bool) (now : ℚ) :
    JournaledBook × ReclaimReport :=
  let sweep := j.book.reclaimCrashed probe raises now
  let j := { fireAll raises (sweep.calls.map Prod.snd) j with book := sweep.book }
  let faulted := sweep.report.faults.filterMap Fault.handle
  ((j.inverseOp.entries.map Prod.fst).foldl (finish faulted) j, sweep.report)

end JournaledBook

/-! ## Runs -/

inductive JournalOp where
  | mint (handle : String) (op : Call) (holder : String)
  | consume (handle holder : String)
  | beat (holder : String)
  | release (handle holder : String) (raises : Bool)
  | reclaim (probe : LivenessProbe) (raises : Close → Bool)

def JournaledBook.step (j : JournaledBook) (now : ℚ) : JournalOp → JournaledBook
  | .mint handle op holder => (j.mint handle op holder now).1
  | .consume handle holder => (j.consume handle holder now).1
  | .beat holder => (j.beat holder now).1
  | .release handle holder raises => (j.release handle holder raises now).1
  | .reclaim probe raises => (j.reclaim probe raises now).1

/-- The books the operations reach, each operation allowed. -/
inductive Journaled (allowed : JournaledBook → JournalOp → Prop) : JournaledBook → Prop where
  | new (ttl : ℚ) (h : 0 < ttl) : Journaled allowed (.new ttl h)
  | step {j : JournaledBook} {op : JournalOp} (now : ℚ) : Journaled allowed j → allowed j op →
      Journaled allowed (j.step now op)

/-- The holder was not reclaimed, or the handle is torn down. -/
def MayJoin (j : JournaledBook) (handle holder : String) : Prop :=
  j.book.liveness.state holder = some .reclaimed →
    ∃ g, j.book.grant handle = some g ∧ g.fired = true

/-- The condition: a holder that was reclaimed mints or consumes no handle that is not torn
down. -/
def JoinsLive (j : JournaledBook) : JournalOp → Prop
  | .mint handle _ holder => MayJoin j handle holder
  | .consume handle holder => MayJoin j handle holder
  | _ => True

/-- The handle was minted: its grant is on the log. -/
def Minted (records : List WalRecord) (handle : String) : Prop :=
  (latestGrant records handle).isSome = true

/-- The inverse was applied by the run of recovery, and returned. -/
def AppliedBy (run : SharedRun) (records : List WalRecord) (handle : String) : Prop :=
  .attempt handle ∈ run.acts records ∧
    ∃ g, g.handle = handle ∧ .done g run.basis ∈ (run.result records).reclaims

/-- What is claimed of a run of the book, cut by a crash after any of its acts. -/
structure OneClose (acts : List JournalAct) : Prop where
  /-- The inverse is applied at most once in total. -/
  once : ∀ handle runs, callsOf handle acts + attemptsOf handle (recordsOf acts) runs ≤ 1
  /-- A run of recovery that reports nothing owed of a minted handle has applied its inverse, or
  the book had it returned, or its completion is on the log. -/
  clean : ∀ before run handle, Minted (recordsOf acts) handle →
    (∀ r ∈ (run.result (logAfter (recordsOf acts) before)).reclaims,
      r.handle = handle → r.ok = true) →
    .returned handle ∈ acts ∨ AppliedBy run (logAfter (recordsOf acts) before) handle ∨
      handle ∈ sharedCompletedOf (logAfter (recordsOf acts) before)

/-! ## The ledger, act by act -/

section Acts

variable {acts more : List JournalAct} {handle : String} {a : JournalAct} {r : WalRecord}

theorem recordsOf_append (acts more : List JournalAct) :
    recordsOf (acts ++ more) = recordsOf acts ++ recordsOf more := List.filterMap_append

theorem mem_recordsOf : r ∈ recordsOf acts ↔ .append r ∈ acts := by
  unfold recordsOf
  rw [List.mem_filterMap]
  constructor
  · rintro ⟨a, ha, hr⟩
    cases a with
    | append r' =>
      obtain rfl := Option.some.inj hr
      exact ha
    | call _ _ => cases hr
    | returned _ => cases hr
  · exact fun h => ⟨_, h, rfl⟩

theorem callsOf_append (handle : String) (acts more : List JournalAct) :
    callsOf handle (acts ++ more) = callsOf handle acts + callsOf handle more :=
  List.countP_append

/-- What is true of the ledger wherever it is cut: an inverse is called once and under its fence,
and a handle whose last count is zero is fenced. -/
structure Safe (acts : List JournalAct) : Prop where
  once : ∀ handle, callsOf handle acts ≤ 1
  fenced : ∀ handle, 0 < callsOf handle acts → .sharedReclaimFence handle ∈ recordsOf acts
  counted : ∀ handle g, latestGrant (recordsOf acts) handle = some g → g.holders = [] →
    .sharedReclaimFence handle ∈ recordsOf acts

/-- Every cut is safe. -/
def AllSafe (acts : List JournalAct) : Prop := ∀ n, Safe (acts.take n)

theorem AllSafe.whole (h : AllSafe acts) : Safe acts := by
  have := h acts.length
  rwa [List.take_length] at this

theorem AllSafe.snoc (h : AllSafe acts) (ha : Safe (acts ++ [a])) : AllSafe (acts ++ [a]) := by
  intro n
  by_cases hn : n ≤ acts.length
  · rw [List.take_append_of_le_length hn]
    exact h n
  · rw [List.take_of_length_le]
    · exact ha
    · rw [List.length_append, List.length_singleton]
      omega

theorem allSafe_nil : AllSafe [] := by
  intro n
  rw [List.take_nil]
  exact ⟨fun _ => Nat.zero_le _, fun _ h => absurd h (Nat.lt_irrefl 0), fun _ _ h => nomatch h⟩

/-- A record that is no count of zero keeps the ledger safe. -/
theorem AllSafe.append (h : AllSafe acts)
    (hcount : ∀ g, r = .sharedGrant g → g.holders = [] →
      .sharedReclaimFence g.handle ∈ recordsOf acts) :
    AllSafe (acts ++ [.append r]) := by
  have hsafe := h.whole
  have hrecords : recordsOf (acts ++ [.append r]) = recordsOf acts ++ [r] := recordsOf_append ..
  have hcalls : ∀ handle, callsOf handle (acts ++ [.append r]) = callsOf handle acts :=
    fun handle => callsOf_append handle acts _
  refine h.snoc ⟨fun handle => ?_, fun handle hpos => ?_, fun handle g hlatest hzero => ?_⟩
  · rw [hcalls]
    exact hsafe.once handle
  · rw [hcalls] at hpos
    rw [hrecords]
    exact List.mem_append_left _ (hsafe.fenced handle hpos)
  · rw [hrecords] at hlatest ⊢
    refine List.mem_append_left _ ?_
    rw [latestGrant_append] at hlatest
    cases hnew : latestGrant [r] handle with
    | none =>
      rw [hnew, Option.none_or] at hlatest
      exact hsafe.counted handle g hlatest hzero
    | some g' =>
      -- the record is the grant itself
      rw [hnew, Option.some_or, Option.some.injEq] at hlatest
      subst hlatest
      obtain ⟨k, hk, -⟩ := List.mem_map.mp (Assoc.mem_of_get? hnew)
      have hgrant := handle_latestGrant hnew
      cases r with
      | sharedGrant g₀ =>
        have hg₀ : latestGrant [.sharedGrant g₀] handle =
            if g₀.handle = handle then some g₀ else none := by
          show Assoc.get? [(g₀.handle, g₀)] handle = _
          rw [Assoc.get?_cons, Assoc.get?_nil, Option.none_or]
        rw [hg₀] at hnew
        split at hnew
        · rename_i hhandle
          obtain rfl := Option.some.inj hnew
          exact hhandle ▸ hcount g₀ rfl hzero
        · cases hnew
      | _ => cases hk

theorem AllSafe.returned (h : AllSafe acts) (handle : String) :
    AllSafe (acts ++ [.returned handle]) := by
  have hsafe := h.whole
  have hrecords : recordsOf (acts ++ [.returned handle]) = recordsOf acts := by
    rw [recordsOf_append]
    exact List.append_nil _
  have hcalls : ∀ name, callsOf name (acts ++ [.returned handle]) = callsOf name acts :=
    fun name => callsOf_append name acts _
  refine h.snoc ⟨fun name => ?_, fun name hpos => ?_, fun name g hlatest hzero => ?_⟩
  · rw [hcalls]
    exact hsafe.once name
  · rw [hcalls] at hpos
    rw [hrecords]
    exact hsafe.fenced name hpos
  · rw [hrecords] at hlatest ⊢
    exact hsafe.counted name g hlatest hzero

theorem callsOf_call (name handle : String) (op : Call) (acts : List JournalAct) :
    callsOf name (acts ++ [.call handle op]) =
      callsOf name acts + if handle = name then 1 else 0 := by
  rw [callsOf_append]
  congr 1
  unfold callsOf
  rw [List.countP_singleton]
  unfold JournalAct.isCall
  simp only [beq_iff_eq]

/-- The first call of a fenced handle keeps the ledger safe. -/
theorem AllSafe.call (h : AllSafe acts) {op : Call} (hnone : callsOf handle acts = 0)
    (hfence : .sharedReclaimFence handle ∈ recordsOf acts) :
    AllSafe (acts ++ [.call handle op]) := by
  have hsafe := h.whole
  have hrecords : recordsOf (acts ++ [.call handle op]) = recordsOf acts := by
    rw [recordsOf_append]
    exact List.append_nil _
  refine h.snoc ⟨fun name => ?_, fun name hpos => ?_, fun name g hlatest hzero => ?_⟩
  · rw [callsOf_call]
    by_cases hname : handle = name
    · rw [if_pos hname, ← hname, hnone]
    · rw [if_neg hname]
      exact hsafe.once name
  · rw [hrecords]
    rw [callsOf_call] at hpos
    by_cases hname : handle = name
    · exact hname ▸ hfence
    · rw [if_neg hname] at hpos
      exact hsafe.fenced name hpos
  · rw [hrecords] at hlatest ⊢
    exact hsafe.counted name g hlatest hzero

end Acts

/-! ## One operation -/

/-- What the acts of a book keep. While a sweep goes on, `firing` are the handles it calls. -/
structure Ledgered (b : SharedGrantBook Close) (acts : List JournalAct) (fenced : List String)
    (firing : List String) : Prop where
  session : ∃ s : Session Close, s.book = b ∧ Kept s
  named : ∀ handle g, b.grant handle = some g → g.inverse.handle = handle
  closed : ∀ handle g, b.grant handle = some g → g.fired = true →
    .sharedReclaimFence handle ∈ recordsOf acts
  called : ∀ handle, 0 < callsOf handle acts →
    handle ∈ firing ∨ ∃ g, b.grant handle = some g ∧ g.fired = true
  noted : ∀ handle ∈ fenced, .sharedReclaimFence handle ∈ recordsOf acts
  safe : AllSafe acts

namespace Ledgered

variable {b b' : SharedGrantBook Close} {acts : List JournalAct} {fenced firing : List String}
  {handle holder : String} {j : JournaledBook}

/-- An act that is no call of an inverse. -/
theorem noCall (h : Ledgered b acts fenced firing) {a : JournalAct}
    (hcalls : ∀ name, callsOf name [a] = 0) (hsafe : AllSafe (acts ++ [a])) :
    Ledgered b (acts ++ [a]) fenced firing where
  session := h.session
  named := h.named
  closed name g hg hfired := by
    rw [recordsOf_append]
    exact List.mem_append_left _ (h.closed name g hg hfired)
  called name hpos := h.called name (by rwa [callsOf_append, hcalls] at hpos)
  noted name hname := by
    rw [recordsOf_append]
    exact List.mem_append_left _ (h.noted name hname)
  safe := hsafe

theorem append (h : Ledgered b acts fenced firing) {r : WalRecord}
    (hcount : ∀ g, r = .sharedGrant g → g.holders = [] →
      .sharedReclaimFence g.handle ∈ recordsOf acts) :
    Ledgered b (acts ++ [.append r]) fenced firing :=
  h.noCall (fun _ => rfl) (h.safe.append hcount)

theorem returned (h : Ledgered b acts fenced firing) (handle : String) :
    Ledgered b (acts ++ [.returned handle]) fenced firing :=
  h.noCall (fun _ => rfl) (h.safe.returned handle)

/-- The count of a grant of the book: where it is zero the grant is closed, and fenced. -/
theorem journalGrant (h : Ledgered j.book j.acts j.fenced firing) {g : SharedGrant Close}
    (hg : j.book.grant handle = some g) :
    Ledgered (j.journalGrant handle).book (j.journalGrant handle).acts
      (j.journalGrant handle).fenced firing := by
  refine h.append fun g' hg' hzero => ?_
  obtain rfl := WalRecord.sharedGrant.inj hg'
  have hholders : g.holders = [] := by
    have hsorted : (g.holders.insertionSort fun a b => a ≤ b) = [] := by
      have := hzero
      unfold JournaledBook.holdersOf at this
      rwa [hg] at this
    exact List.eq_nil_of_length_eq_zero
      (by rw [← (List.perm_insertionSort (fun a b : String => a ≤ b) g.holders).length_eq, hsorted]
          rfl)
  obtain ⟨s, hbook, hs⟩ := h.session
  refine h.closed handle g hg ?_
  rw [← Bool.not_eq_false]
  exact fun hopen => hs.open_held handle g (hbook ▸ hg) hopen hholders

/-- A fence leaves the book. -/
theorem book_journalFence (j : JournaledBook) (handle : String) :
    (j.journalFence handle).book = j.book := by
  unfold JournaledBook.journalFence
  split
  · rfl
  · rfl

theorem journalFence (h : Ledgered j.book j.acts j.fenced firing) (handle : String) :
    Ledgered (j.journalFence handle).book (j.journalFence handle).acts
        (j.journalFence handle).fenced firing ∧
      .sharedReclaimFence handle ∈ recordsOf (j.journalFence handle).acts ∧
      ∀ name, callsOf name (j.journalFence handle).acts = callsOf name j.acts := by
  unfold JournaledBook.journalFence
  by_cases hmem : handle ∈ j.fenced
  · rw [if_pos hmem]
    exact ⟨h, h.noted handle hmem, fun _ => rfl⟩
  · rw [if_neg hmem]
    have hnew : .sharedReclaimFence handle ∈
        recordsOf (j.acts ++ [.append (.sharedReclaimFence handle)]) :=
      mem_recordsOf.mpr (List.mem_append_right _ (List.mem_singleton.mpr rfl))
    have happend := h.append (r := .sharedReclaimFence handle) fun _ hg => nomatch hg
    refine ⟨⟨happend.session, happend.named, happend.closed, happend.called, ?_, happend.safe⟩,
      hnew, fun name => callsOf_append name j.acts _⟩
    intro name hname
    rcases List.mem_cons.mp hname with rfl | hname
    · exact hnew
    · exact happend.noted name hname

/-- The closure of a handle that was not called yet. -/
theorem fire (h : Ledgered j.book j.acts j.fenced firing) (close : Close) (raises : Bool)
    (hnone : callsOf close.handle j.acts = 0)
    (hfiring : close.handle ∈ firing ∨ ∃ g, j.book.grant close.handle = some g ∧ g.fired = true) :
    Ledgered (j.fire close raises).book (j.fire close raises).acts (j.fire close raises).fenced
        firing ∧
      .sharedReclaimFence close.handle ∈ recordsOf (j.fire close raises).acts ∧
      (∀ name, name ≠ close.handle →
        callsOf name (j.fire close raises).acts = callsOf name j.acts) ∧
      (j.fire close raises).book = j.book := by
  obtain ⟨hfenced, hfence, hcalls⟩ := h.journalFence close.handle
  have hbook := book_journalFence j close.handle
  generalize hk : j.journalFence close.handle = k at *
  have hcalled : Ledgered k.book (k.acts ++ [.call close.handle close.op]) k.fenced firing := by
    refine ⟨hfenced.session, hfenced.named, fun name g hg hfired => ?_, fun name hpos => ?_,
      fun name hname => ?_, hfenced.safe.call (by rw [hcalls, hnone]) hfence⟩
    · rw [recordsOf_append]
      exact List.mem_append_left _ (hfenced.closed name g hg hfired)
    · by_cases hname : close.handle = name
      · subst hname
        rw [hbook]
        exact hfiring
      · rw [callsOf_call, if_neg hname] at hpos
        exact hfenced.called name hpos
    · rw [recordsOf_append]
      exact List.mem_append_left _ (hfenced.noted name hname)
  have hothers : ∀ name, name ≠ close.handle →
      callsOf name (k.acts ++ [.call close.handle close.op]) = callsOf name j.acts := by
    intro name hname
    rw [callsOf_call, if_neg (Ne.symm hname), hcalls, Nat.add_zero]
  have hfire : j.fire close raises = (if raises then k.act (.call close.handle close.op)
      else (k.act (.call close.handle close.op)).act (.returned close.handle)) := by
    rw [← hk]
    rfl
  rw [hfire]
  cases raises with
  | true =>
    rw [if_pos rfl]
    refine ⟨hcalled, ?_, hothers, hbook⟩
    show _ ∈ recordsOf (k.acts ++ _)
    rw [recordsOf_append]
    exact List.mem_append_left _ hfence
  | false =>
    rw [if_neg Bool.false_ne_true]
    refine ⟨hcalled.returned close.handle, ?_, fun name hname => ?_, hbook⟩
    · show _ ∈ recordsOf ((k.acts ++ _) ++ _)
      rw [recordsOf_append, recordsOf_append]
      exact List.mem_append_left _ (List.mem_append_left _ hfence)
    · show callsOf name ((k.acts ++ _) ++ _) = _
      rw [callsOf_append]
      exact hothers name hname

/-- The book changes, with what it closed fenced already. -/
theorem moves (h : Ledgered b acts fenced firing) (hsession : ∃ s, s.book = b' ∧ Kept s)
    (hnamed : ∀ name g, b'.grant name = some g → g.inverse.handle = name)
    (hclosed : ∀ name g, b'.grant name = some g → g.fired = true →
      .sharedReclaimFence name ∈ recordsOf acts)
    (hkeeps : ∀ name, (name ∈ firing ∨ ∃ g, b.grant name = some g ∧ g.fired = true) →
      ∃ g, b'.grant name = some g ∧ g.fired = true) : Ledgered b' acts fenced [] where
  session := hsession
  named := hnamed
  closed := hclosed
  called name hpos := Or.inr (hkeeps name (h.called name hpos))
  noted := h.noted
  safe := h.safe

/-- One open grant of the book changes, and is fenced where it closes. -/
theorem regrants (h : Ledgered b acts fenced []) (hsession : ∃ s, s.book = b' ∧ Kept s)
    {g' : SharedGrant Close}
    (hgrant : ∀ name, b'.grant name = if name = handle then some g' else b.grant name)
    (hname : g'.inverse.handle = handle)
    (hopen : ∀ g, b.grant handle = some g → g.fired = false)
    (hclosed : g'.fired = true → .sharedReclaimFence handle ∈ recordsOf acts) :
    Ledgered b' acts fenced [] := by
  have hthere : b'.grant handle = some g' := (hgrant handle).trans (if_pos rfl)
  have helsewhere : ∀ name, name ≠ handle → b'.grant name = b.grant name :=
    fun name hne => (hgrant name).trans (if_neg hne)
  refine h.moves hsession (fun name g hg => ?_) (fun name g hg hfired => ?_)
    (fun name hcalled => ?_)
  · by_cases hne : name = handle
    · rw [hne, hthere, Option.some.injEq] at hg
      rw [← hg, hname, hne]
    · exact h.named name g (helsewhere name hne ▸ hg)
  · by_cases hne : name = handle
    · rw [hne, hthere, Option.some.injEq] at hg
      exact hne ▸ hclosed (hg ▸ hfired)
    · exact h.closed name g (helsewhere name hne ▸ hg) hfired
  · obtain ⟨g, hg, hfired⟩ := hcalled.resolve_left (fun hnil => nomatch hnil)
    refine ⟨g, ?_, hfired⟩
    rw [helsewhere name]
    · exact hg
    · -- what was called is closed, the grant that changes was not
      rintro rfl
      rw [hopen g hg] at hfired
      cases hfired

/-- Nothing was called of a handle whose grant is open. -/
theorem not_called (h : Ledgered b acts fenced []) {g : SharedGrant Close}
    (hg : b.grant handle = some g) (hopen : g.fired = false) : callsOf handle acts = 0 := by
  refine Nat.eq_zero_of_not_pos fun hpos => ?_
  rcases h.called handle hpos with hnil | ⟨g', hg', hfired⟩
  · cases hnil
  · rw [hg, Option.some.injEq] at hg'
    rw [hg', hfired] at hopen
    cases hopen

theorem join (h : Ledgered j.book j.acts j.fenced []) (hlive : MayJoin j handle holder)
    (now : ℚ) : Ledgered (j.join handle holder now).1.book (j.join handle holder now).1.acts
      (j.join handle holder now).1.fenced [] := by
  obtain ⟨s, hbook, hs⟩ := h.session
  unfold JournaledBook.join
  rcases acquire_cases ⟨handle, (j.inverseOp.get? handle).getD .empty⟩ now hlive with
    ⟨e, herr⟩ | ⟨b', g, g', hok, hcounted⟩
  · rw [herr]
    exact h
  · rw [hok]
    have hgrant : b'.grant handle = some { g with holders := g.holders.insert holder } :=
      (hcounted.grant_eq handle).trans (if_pos rfl)
    have hsession : ∃ s, s.book = b' ∧ Kept s := by
      rw [← hbook] at hcounted
      exact ⟨_, rfl, hs.counts hcounted⟩
    have hmoved : Ledgered b' j.acts j.fenced [] := by
      refine h.regrants hsession hcounted.grant_eq ?_ (fun g₀ hg₀ => ?_) (fun hfired => ?_)
      · rcases hcounted.was with hwas | ⟨-, rfl⟩
        · exact h.named handle g hwas
        · rfl
      · rcases hcounted.was with hwas | ⟨hnone, -⟩
        · rw [hwas, Option.some.injEq] at hg₀
          exact hg₀ ▸ hcounted.still_open
        · cases hnone.symm.trans hg₀
      · rw [hcounted.still_open] at hfired
        cases hfired
    exact hmoved.journalGrant (j := { j with book := b' }) hgrant

theorem journalFence_book (j : JournaledBook) (b : SharedGrantBook Close) (handle : String) :
    { j with book := b }.journalFence handle = { j.journalFence handle with book := b } := by
  unfold JournaledBook.journalFence
  dsimp only
  split
  · rfl
  · rfl

theorem release (h : Ledgered j.book j.acts j.fenced []) (handle holder : String)
    (raises : Bool) (now : ℚ) : Ledgered (j.release handle holder raises now).1.book
      (j.release handle holder raises now).1.acts (j.release handle holder raises now).1.fenced
        [] := by
  obtain ⟨s, hbook, hs⟩ := h.session
  have hcounted : ∀ g, j.book.grant handle = some g → holder ∈ g.holders →
      g.fired = false ∧ j.book.liveness.Tracked holder := by
    rw [← hbook]
    exact fun _ hg hh => hs.counted hg hh
  unfold JournaledBook.release
  rcases release_cases now hcounted with ⟨e, herr⟩ | ⟨b', g, hun, hok⟩
  · rw [herr]
    exact h
  rw [hok]
  have hopen := (hcounted g hun.was hun.held).1
  have hgrant := (hun.grant_eq handle).trans (if_pos rfl)
  have hsession : ∃ s, s.book = b' ∧ Kept s := by
    rw [← hbook] at hun
    exact ⟨_, rfl, hs.uncounts hun⟩
  have hname : g.inverse.handle = handle := h.named handle g hun.was
  have hwas : ∀ g₀, j.book.grant handle = some g₀ → g₀.fired = false := by
    intro g₀ hg₀
    rw [hun.was, Option.some.injEq] at hg₀
    exact hg₀ ▸ hopen
  by_cases hlast : (g.holders.filter fun k => k ≠ holder) = []
  · -- the zero crossing: fence, count, call, completion
    rw [if_pos hlast]
    dsimp only
    rw [journalFence_book]
    obtain ⟨hfenced, hfence, hcalls⟩ := h.journalFence handle
    have hbook' := book_journalFence j handle
    generalize j.journalFence handle = k at *
    rw [hbook'] at hfenced
    have hmoved : Ledgered b' k.acts k.fenced [] :=
      hfenced.regrants hsession hun.grant_eq hname hwas fun _ => hfence
    -- the zero count stands under the fence, and so may the call
    have hcount := hmoved.journalGrant (j := { k with book := b', settled := handle :: k.settled })
      hgrant
    have hnone : callsOf g.inverse.handle
        ({ k with book := b', settled := handle :: k.settled }.journalGrant handle).acts = 0 := by
      show callsOf _ (k.acts ++ [_]) = 0
      rw [callsOf_append, hname, hcalls, h.not_called hun.was hopen]
      rfl
    have hfired := hcount.fire g.inverse raises hnone
      (Or.inr ⟨_, by rw [hname]; exact hgrant, List.isEmpty_iff.mpr hlast⟩)
    cases raises with
    | true => exact hfired.1
    | false => exact hfired.1.append fun _ hg => nomatch hg
  · rw [if_neg hlast]
    have hmoved : Ledgered b' j.acts j.fenced [] :=
      h.regrants hsession hun.grant_eq hname hwas fun hfired =>
        absurd (List.isEmpty_iff.mp hfired) hlast
    exact hmoved.journalGrant (j := { j with book := b' }) hgrant

/-! ### The sweep -/

/-- A call leaves every record in the log. -/
theorem records_fire (j : JournaledBook) (close : Close) (raises : Bool) :
    recordsOf j.acts ⊆ recordsOf (j.fire close raises).acts := by
  have hact : ∀ (k : JournaledBook) (a : JournalAct),
      recordsOf k.acts ⊆ recordsOf (k.act a).acts := by
    intro k a r hr
    show r ∈ recordsOf (k.acts ++ [a])
    rw [recordsOf_append]
    exact List.mem_append_left _ hr
  have hfence : recordsOf j.acts ⊆ recordsOf (j.journalFence close.handle).acts := by
    unfold JournaledBook.journalFence
    split
    · exact fun _ hr => hr
    · exact hact j _
  unfold JournaledBook.fire
  cases raises with
  | true => exact fun _ hr => hact _ _ (hfence hr)
  | false => exact fun _ hr => hact _ _ (hact _ _ (hfence hr))

/-- The calls of a sweep, each of a handle that was not called yet. -/
theorem fireAll (raises : Close → Bool) : ∀ {closes : List Close} {j : JournaledBook},
    Ledgered j.book j.acts j.fenced firing → (closes.map Close.handle).Nodup →
    (∀ close ∈ closes, callsOf close.handle j.acts = 0 ∧ close.handle ∈ firing) →
      Ledgered (JournaledBook.fireAll raises closes j).book
          (JournaledBook.fireAll raises closes j).acts
          (JournaledBook.fireAll raises closes j).fenced firing ∧
        (∀ close ∈ closes, .sharedReclaimFence close.handle ∈
          recordsOf (JournaledBook.fireAll raises closes j).acts) ∧
        (recordsOf j.acts ⊆ recordsOf (JournaledBook.fireAll raises closes j).acts) ∧
        (JournaledBook.fireAll raises closes j).book = j.book
  | [], j, h, _, _ => ⟨h, nofun, fun _ hr => hr, rfl⟩
  | close :: rest, j, h, hnodup, hready => by
    rw [List.map_cons, List.nodup_cons] at hnodup
    obtain ⟨hnone, hfiring⟩ := hready close List.mem_cons_self
    obtain ⟨hfired, hfence, hothers, hbook⟩ :=
      h.fire close (raises close) hnone (Or.inl hfiring)
    have hgrows := records_fire j close (raises close)
    obtain ⟨hall, hfences, hmore, hbook'⟩ := fireAll raises hfired hnodup.2 fun other hother => by
      obtain ⟨hzero, hmem⟩ := hready other (List.mem_cons_of_mem _ hother)
      refine ⟨(hothers _ fun heq => hnodup.1 ?_).trans hzero, hmem⟩
      exact heq ▸ List.mem_map_of_mem hother
    refine ⟨hall, fun other hother => ?_, fun r hr => hmore (hgrows hr), hbook'.trans hbook⟩
    rcases List.mem_cons.mp hother with rfl | hother
    · exact hmore hfence
    · exact hfences other hother

/-- One handle of the loop that finalizes a sweep. -/
theorem finish (h : Ledgered j.book j.acts j.fenced []) (faulted : List String)
    (handle : String) : Ledgered (JournaledBook.finish faulted j handle).book
      (JournaledBook.finish faulted j handle).acts
      (JournaledBook.finish faulted j handle).fenced [] := by
  unfold JournaledBook.finish
  cases hg : j.book.grant handle with
  | none => exact h
  | some g =>
    dsimp only
    split
    · exact h.journalGrant hg
    split
    · exact h
    split
    · exact (h.journalFence handle).1
    · exact (h.journalGrant hg).append fun _ hr => nomatch hr

theorem finishAll (faulted : List String) : ∀ {handles : List String} {j : JournaledBook},
    Ledgered j.book j.acts j.fenced [] →
      Ledgered (handles.foldl (JournaledBook.finish faulted) j).book
        (handles.foldl (JournaledBook.finish faulted) j).acts
        (handles.foldl (JournaledBook.finish faulted) j).fenced []
  | [], _, h => h
  | handle :: _, _, h => by
    rw [List.foldl_cons]
    exact finishAll faulted (h.finish faulted handle)

theorem reclaim (h : Ledgered j.book j.acts j.fenced []) (probe : LivenessProbe)
    (raises : Close → Bool) (now : ℚ) :
    Ledgered (j.reclaim probe raises now).1.book (j.reclaim probe raises now).1.acts
      (j.reclaim probe raises now).1.fenced [] := by
  obtain ⟨s, hbook, hs⟩ := h.session
  have hswept : ∀ name, (j.book.reclaimCrashed probe raises now).book.grant name =
      (j.book.grant name).map (sweptGrant (j.book.liveness.confirmedGone probe now)) := by
    rw [← hbook]
    exact hs.grant_swept probe raises now
  have hsession : ∃ s, s.book = (j.book.reclaimCrashed probe raises now).book ∧ Kept s := by
    rw [← hbook]
    exact ⟨_, rfl, hs.sweeps probe raises now⟩
  -- the closures a sweep calls are those of the grants that cross, under their own handles
  have hcalls : ∀ close, close ∈ (j.book.reclaimCrashed probe raises now).calls.map Prod.snd →
      ∃ g, j.book.grant close.handle = some g ∧ g.fired = false ∧
        crosses (j.book.liveness.confirmedGone probe now) g = true ∧
        close.handle ∈ (j.book.reclaimCrashed probe raises now).calls.map Prod.fst := by
    intro close hclose
    obtain ⟨⟨name, close⟩, hcall, rfl⟩ := List.mem_map.mp hclose
    obtain ⟨g, hg, hcross, hinverse⟩ := mem_calls.mp hcall
    have hname : close.handle = name := by
      rw [← hinverse]
      exact h.named name g hg
    exact ⟨g, by rw [hname]; exact hg, (crosses_iff.mp hcross).1, hcross,
      by rw [hname]; exact List.mem_map_of_mem hcall⟩
  have hhandles : ((j.book.reclaimCrashed probe raises now).calls.map Prod.snd).map Close.handle =
      (j.book.reclaimCrashed probe raises now).calls.map Prod.fst := by
    rw [List.map_map]
    refine List.map_congr_left fun ⟨name, close⟩ hcall => ?_
    obtain ⟨g, hg, -, hinverse⟩ := mem_calls.mp hcall
    show close.handle = name
    rw [← hinverse]
    exact h.named name g hg
  -- from here to the end of the calls, the handles of the sweep may be called on an open grant
  have hready : Ledgered j.book j.acts j.fenced
      ((j.book.reclaimCrashed probe raises now).calls.map Prod.fst) :=
    ⟨h.session, h.named, h.closed,
      fun name hpos => Or.inr ((h.called name hpos).resolve_left (fun hnil => nomatch hnil)),
      h.noted, h.safe⟩
  -- no handle is called twice in one sweep
  obtain ⟨hfired, hfences, hgrows, hsame⟩ := hready.fireAll raises
    (by rw [hhandles]; exact nodup_calls probe raises) fun close hclose => by
      obtain ⟨g, hg, hopen, -, hmem⟩ := hcalls close hclose
      exact ⟨h.not_called hg hopen, hmem⟩
  unfold JournaledBook.reclaim
  refine finishAll _ (hfired.moves hsession (fun name g' hg' => ?_) (fun name g' hg' hclosed => ?_)
    (fun name hname => ?_))
  · rw [hswept, Option.map_eq_some_iff] at hg'
    obtain ⟨g, hg, rfl⟩ := hg'
    exact h.named name g hg
  · rw [hswept, Option.map_eq_some_iff] at hg'
    obtain ⟨g, hg, rfl⟩ := hg'
    rcases Bool.or_eq_true_iff.mp hclosed with hclosed | hcross
    · exact hgrows (h.closed name g hg hclosed)
    · have hcall : (name, g.inverse) ∈ (j.book.reclaimCrashed probe raises now).calls :=
        mem_calls.mpr ⟨g, hg, hcross, rfl⟩
      have hfence := hfences g.inverse (List.mem_map_of_mem hcall)
      rwa [h.named name g hg] at hfence
  · rcases hname with hcall | ⟨g, hg, hclosed⟩
    · obtain ⟨⟨name, close⟩, hcalled, rfl⟩ := List.mem_map.mp hcall
      obtain ⟨g, hg, hcross, -⟩ := mem_calls.mp hcalled
      refine ⟨sweptGrant (j.book.liveness.confirmedGone probe now) g, ?_,
        Bool.or_eq_true_iff.mpr (Or.inr hcross)⟩
      rw [hswept, hg]
      rfl
    · rw [hsame] at hg
      refine ⟨sweptGrant (j.book.liveness.confirmedGone probe now) g, ?_,
        Bool.or_eq_true_iff.mpr (Or.inl hclosed)⟩
      rw [hswept, hg]
      rfl

theorem beat (h : Ledgered j.book j.acts j.fenced []) (holder : String) (now : ℚ) :
    Ledgered (j.beat holder now).1.book j.acts j.fenced [] := by
  obtain ⟨s, hbook, hs⟩ := h.session
  unfold JournaledBook.beat SharedGrantBook.beat
  cases hbeat : j.book.liveness.beat holder none now with
  | error e => exact h
  | ok r' =>
    have hsession : ∃ s, s.book = { j.book with liveness := r' } ∧ Kept s := by
      rw [← hbook] at hbeat ⊢
      exact ⟨_, rfl, hs.beats hbeat⟩
    exact ⟨hsession, h.named, h.closed, h.called, h.noted, h.safe⟩

/-- **One operation keeps the ledger**, where no reclaimed holder acquires. -/
theorem step (h : Ledgered j.book j.acts j.fenced []) {op : JournalOp}
    (hallowed : JoinsLive j op) (now : ℚ) :
    Ledgered (j.step now op).book (j.step now op).acts (j.step now op).fenced [] := by
  cases op with
  | mint handle op holder =>
    exact join (j := { j with
      inverseOp := if (j.inverseOp.get? handle).isSome then j.inverseOp
        else j.inverseOp.set handle op }) h hallowed now
  | consume handle holder =>
    show Ledgered (j.consume handle holder now).1.book (j.consume handle holder now).1.acts
      (j.consume handle holder now).1.fenced []
    unfold JournaledBook.consume
    split
    · exact h
    · exact h.join hallowed now
  | beat holder => exact h.beat holder now
  | release handle holder raises => exact h.release handle holder raises now
  | reclaim probe raises => exact h.reclaim probe raises now

end Ledgered

theorem Journaled.ledgered {j : JournaledBook} (h : Journaled JoinsLive j) :
    Ledgered j.book j.acts j.fenced [] := by
  induction h with
  | new ttl h =>
    exact ⟨⟨.start ttl h, rfl, .start ttl h⟩, nofun, nofun,
      fun _ hpos => absurd hpos (Nat.lt_irrefl 0), nofun, allSafe_nil⟩
  | step now _ hallowed ih => exact ih.step hallowed now

/-! ## The result -/

theorem latestGrant_logAfter (handle : String) : ∀ (runs : List SharedRun)
    (records : List WalRecord),
    latestGrant (logAfter records runs) handle = latestGrant records handle
  | [], _ => rfl
  | run :: runs, records => by
    rw [logAfter, latestGrant_logAfter handle runs, SharedRun.after]
    exact latestGrant_suffix records _ (List.suffix_refl _)

theorem subset_logAfter : ∀ (runs : List SharedRun) (records : List WalRecord),
    records ⊆ logAfter records runs
  | [], _ => fun _ hr => hr
  | run :: runs, records => fun _ hr =>
    subset_logAfter runs (run.after records) (List.mem_append_left _ hr)

/-- Where the ledger is safe, recovery agrees with it on one close. -/
theorem Safe.oneClose {acts : List JournalAct} (hsafe : Safe acts) : OneClose acts := by
  constructor
  · intro handle runs
    have hruns := Fence.runs_at_most_once handle
      (guardedRuns_guardedActs (recordsOf acts) runs)
    rw [← attemptsOf_eq_count] at hruns
    by_cases hcalled : 0 < callsOf handle acts
    · -- the call was fenced, so recovery attempts nothing
      rw [hruns.2 (mem_sharedFencesOf.mpr (hsafe.fenced handle hcalled)), Nat.add_zero]
      exact hsafe.once handle
    · rw [Nat.eq_zero_of_not_pos hcalled, Nat.zero_add]
      exact hruns.1
  · intro before run handle hminted hok
    obtain ⟨g, hg⟩ := Option.isSome_iff_exists.mp hminted
    have hhandle := handle_latestGrant hg
    have hpass := pass_run run (logAfter (recordsOf acts) before)
    have hlatest : g ∈ latestGrants (logAfter (recordsOf acts) before) := by
      rw [mem_latestGrants, hhandle, latestGrant_logAfter, hg]
    by_cases hcompleted : handle ∈ sharedCompletedOf (logAfter (recordsOf acts) before)
    · exact Or.inr (Or.inr hcompleted)
    refine Or.inr (Or.inl ?_)
    by_cases hfenced : handle ∈ sharedFencesOf (logAfter (recordsOf acts) before)
    · obtain ⟨r, hr, hname, hfailed⟩ :=
        hpass.unknown hlatest (hhandle ▸ hcompleted) (hhandle ▸ hfenced)
      exact absurd (hok r hr (hname.trans hhandle)) (by rw [hfailed]; decide)
    -- the last count is not zero, or the handle were fenced
    have hcounted : g.holders ≠ [] := by
      intro hzero
      have hfence := subset_logAfter before _ (hsafe.counted handle g hg hzero)
      exact hfenced (mem_sharedFencesOf.mpr hfence)
    rcases hpass.answered hlatest ⟨hhandle ▸ hcompleted, hhandle ▸ hfenced, hcounted⟩ with
      ⟨hattempt, r, hr, rfl | ⟨hname, hfailed⟩⟩ | ⟨-, r, hr, hname, hfailed⟩
    · exact ⟨hhandle ▸ hattempt, g, hhandle, hr⟩
    · exact absurd (hok r hr (hname.trans hhandle)) (by rw [hfailed]; decide)
    · exact absurd (hok r hr (hname.trans hhandle)) (by rw [hfailed]; decide)

/-- **The durable ledger and recovery agree on one close**, in every run of the book in which a
reclaimed holder mints or consumes no handle that is not torn down, cut by a crash after any of
its acts: over the run and any runs of recovery after it each inverse is applied at most once, and
a run of recovery reports a minted handle clean only where its inverse was applied and returned or
its completion is on the log. -/
theorem journal_one_close {j : JournaledBook} (h : Journaled JoinsLive j) (n : Nat) :
    OneClose (j.acts.take n) :=
  (h.ledgered.safe n).oneClose

theorem lease_pos : (0 : ℚ) < 30 := by decide

/-- A handle of two holders: one releases, the other does, and the close runs. -/
def handedOver : JournaledBook :=
  ((((JournaledBook.new 30 lease_pos).step 0 (.mint "db" .empty "a")).step 1
    (.consume "db" "b")).step 2 (.release "db" "a" false)).step 3 (.release "db" "b" false)

/-- The crash comes right after the call of the inverse, before its completion. -/
theorem journal_one_close_crash : OneClose (handedOver.acts.take 6) ∧
    callsOf "db" (handedOver.acts.take 6) = 1 := by
  refine ⟨journal_one_close ?_ 6, by decide +kernel⟩
  refine .step 3 (.step 2 (.step 1 (.step 0 (.new 30 lease_pos) ?_) ?_) trivial) trivial
  · intro h
    exact absurd h (by decide +kernel)
  · intro h
    exact absurd h (by decide +kernel)

/-- The holder `b` was swept, and then joins the handle of `a`: it is refused, and counted. A
release and a sweep later the log counts nobody. -/
def refusedJoin : JournaledBook :=
  ((((((JournaledBook.new 30 lease_pos).step 0 (.mint "cache" .empty "b")).step 40
    (.reclaim (fun h => h != "b") fun _ => false)).step 41 (.mint "db" .empty "a")).step 42
      (.consume "db" "b")).step 43 (.release "db" "a" false)).step 44
        (.reclaim (fun _ => true) fun _ => false)

/-- **A handle that was never closed is reported clean.** -/
theorem refused_join_reported_clean :
    ¬ ∀ j, Journaled (fun _ _ => True) j → ∀ n, OneClose (j.acts.take n) := by
  intro hclaim
  have hreached : Journaled (fun _ _ => True) refusedJoin :=
    .step 44 (.step 43 (.step 42 (.step 41 (.step 40 (.step 0 (.new 30 lease_pos) trivial)
      trivial) trivial) trivial) trivial) trivial
  have hacts : refusedJoin.acts.take 9 =
      [.append (.sharedGrant ⟨"cache", .empty, ["b"]⟩),
        .append (.sharedReclaimFence "cache"), .call "cache" .empty, .returned "cache",
        .append (.sharedGrant ⟨"cache", .empty, []⟩), .append (.sharedComplete "cache"),
        .append (.sharedGrant ⟨"db", .empty, ["a"]⟩),
        .append (.sharedGrant ⟨"db", .empty, ["b"]⟩),
        .append (.sharedGrant ⟨"db", .empty, []⟩)] := by
    decide +kernel
  have hclose := hclaim refusedJoin hreached 9
  rw [hacts] at hclose
  rcases hclose.clean [] .direct "db" (by unfold Minted; decide +kernel) (by decide +kernel) with
    h | ⟨h, -⟩ | h
  · exact absurd h (by decide)
  · exact absurd h (by decide +kernel)
  · exact absurd h (by decide +kernel)

end Revl.Shared
