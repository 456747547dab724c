import Revl.Runtime.Unit

/-!
# The commit of a session

A commit takes two steps: the manifest is enumerated, and then approved against the hash of what
was enumerated. The hash is over a target: the descriptors on the deferral queue, how many entries
are outstanding, and the names of the live frames.

- `Owner`, `CommitEnv`: the process with its deferral queue, and its surroundings.
- `target`, `approve`, `finalizeCommit`: the two steps and the discharge record.
- `Tallied`: what every run of it keeps.
- `approve_exact`: **when an approval binds what was enumerated**.
-/

namespace Revl.Runtime

open Recovery (ErrorInfo WalRecord Register)

/-- `_Deferred`: an emission on the deferral queue. -/
structure Deferral where
  receiver : String
  method : String
  args : List Json
  seq : Option Int
  deriving DecidableEq

/-- What `_Deferred.descriptor` says. -/
structure Descriptor where
  receiver : String
  method : String
  args : List Json
  deriving DecidableEq

def Deferral.descriptor (d : Deferral) : Descriptor := ⟨d.receiver, d.method, d.args⟩

/-- What an enqueue hands over; the log keeps the arguments as the recorder redacts them. -/
structure Emission where
  receiver : String
  method : String
  args : List Json
  redacted : List Json
  register : Option Register
  idempotency : Option String

/-- A host body that is not an entry's. -/
inductive Flight where
  | emission (d : Deferral)
  | crossing (label : String)
  deriving DecidableEq

/-- A process and the session owner's queue. -/
structure Owner where
  process : Process
  queue : List Deferral
  /-- The emissions whose host body was invoked, in order. -/
  fired : List Deferral
  /-- The crossings whose host body was invoked, in order. -/
  crossed : List String
  flushResidue : List (Option Int × ErrorInfo)
  /-- What was in flight when a halt landed, beside the entries. -/
  unknown : List Flight

/-- The surroundings of a commit. -/
structure CommitEnv extends Env where
  /-- How the host body of an emission fails, by the clock reading it starts at. -/
  fails : Nat → Option ErrorInfo
  /-- What an emission reports that a halt refused. -/
  refusal : Deferral → ErrorInfo

/-- `_target`: what the hash binds. -/
structure Target where
  queue : List Descriptor
  witnessed : Nat
  registry : List String
  deriving DecidableEq

/-- `SessionCommitError`. -/
inductive CommitError where
  | stale
  deriving DecidableEq, Repr

namespace Process

/-- `_live_entries`: those of the live frames, then the escrow. -/
def liveEntries (s : Process) : List Entry := s.registry.flatMap s.entries ++ s.escrow

/-- The live entries that are neither discharged, replayed nor run. -/
def outstanding (s : Process) : List Entry := s.liveEntries.filter fun e => !s.spent e

/-- `_witnessed_seqs`. -/
def witnessedSeqs (s : Process) : List Int :=
  (s.liveEntries.filterMap (·.seq)).dedup.insertionSort (· ≤ ·)

def frameName (s : Process) (i : Nat) : String := (s.frames i).name

end Process

namespace Owner

/-! ## The gate -/

def target (o : Owner) : Target where
  queue := o.queue.map (·.descriptor)
  witnessed := o.process.outstanding.length
  registry := (o.process.registry.map o.process.frameName).insertionSort (· ≤ ·)

/-- The hash of the manifest. -/
def enumerate (hash : Target → String) (o : Owner) : String := hash o.target

variable (env : CommitEnv)

/-- A record about an emission, when the log gave it a seq. -/
def record (d : Deferral) (r : WalRecord) (o : Owner) : Owner :=
  if d.seq.isSome then { o with process := o.process.append r } else o

/-- An emission that did not go out is residue. -/
def residue (d : Deferral) (error : ErrorInfo) (o : Owner) : Owner :=
  { o with flushResidue := o.flushResidue ++ [(d.seq, error)] }.record d (.flushResidue d.seq (some error))

/-- A host body runs, in flight if it is marked so; a halt may land meanwhile. -/
def dispatch (f : Option Flight) (o : Owner) : Owner :=
  let s := if env.during o.process.tick then o.process.engage else o.process
  { o with
    process := { s with tick := s.tick + 1 }
    unknown := if s.halted && !o.process.halted then o.unknown ++ f.toList else o.unknown }

/-- One emission of `_flush`. -/
def fire (o : Owner) (d : Deferral) : Owner :=
  let s := o.process.poll env.toEnv
  let o := { o with process := s }
  if s.halted = true then o.residue d (env.refusal d)
  else
    let o := { o with fired := o.fired ++ [d] }.dispatch env (some (.emission d))
    match env.fails s.tick with
    | some error => o.residue d error
    | none => o.record d (.flushed d.seq)

/-- `approve` up to the flush: the log first, then the verdict, and the queue is taken. -/
def confirm (hash : String) (o : Owner) : Owner :=
  { o with
    process := { o.process.append (.commitApproved (some hash)) with verdict := some .commit }
    queue := [] }

/-- `approve`: the confirmed hash must be that of the present target. -/
def approve (hash : Target → String) (confirmed : String) (o : Owner) : Except CommitError Owner :=
  if confirmed ≠ hash o.target then .error .stale
  else .ok (o.queue.foldl (fire env) (o.confirm confirmed))

/-- `finalize_commit`: one discharge record. -/
def finalizeCommit (o : Owner) : Owner :=
  if o.process.witnessedSeqs = [] then o
  else { o with process := o.process.append (.discharge o.process.witnessedSeqs) }

/-! ## Until the verdict -/

/-- The record of an enqueued emission. -/
def emissionRecord (m : Emission) (seq : Int) : WalRecord :=
  .deferred ⟨some seq, ⟨some m.receiver, some m.method, some m.redacted⟩,
    ⟨some m.receiver, none, some m.method, [], none⟩, m.register, m.idempotency⟩

/-- `enqueue_deferred`: refused under a halt. -/
def enqueue (m : Emission) (o : Owner) : Owner :=
  let s := o.process.poll env.toEnv
  if s.halted = true then { o with process := s }
  else
    { o with
      process := { s.append (emissionRecord m s.nextSeq) with
        nextSeq := if s.wal.isSome then s.nextSeq + 1 else s.nextSeq }
      queue := o.queue ++ [⟨m.receiver, m.method, m.args, s.wal.map fun _ => s.nextSeq⟩] }

/-- The entries of a frame's unit that are still parked. -/
def unitAt (i : Nat) (stamps : List Nat) (s : Process) : Scope where
  settles := true
  transactional := (s.frames i).deferredTransactional.filter (·.stamp ∈ stamps)
  compensations := (s.frames i).deferredCompensations.filter (·.stamp ∈ stamps)

inductive DriftOp where
  | session (op : Process.SessionOp)
  | enqueue (m : Emission)
  /-- A unit of a live frame fails. -/
  | settle (i : Nat) (stamps : List Nat)

def driftStep (o : Owner) : DriftOp → Owner
  | .session op => { o with process := Process.sessionStep env.toEnv o.process op }
  | .enqueue m => o.enqueue env m
  | .settle i stamps =>
    if i ∈ o.process.registry then
      { o with process := o.process.unwindUnit env.toEnv i (unitAt i stamps o.process) }
    else o

def new (log : Bool) : Owner := ⟨Process.newSession log, [], [], [], [], []⟩

def drift (ops : List DriftOp) (o : Owner) : Owner := ops.foldl (driftStep env) o

def runDrift (log : Bool) (ops : List DriftOp) : Owner := (new log).drift env ops

end Owner

/-! ## What a teardown does to the escrow -/

namespace Process

/-- What no step before the verdict changes of a frame. -/
def kept (f : Frame) := (f.name, f.transactional, f.compensations, f.stack, f.aborting)

/-- A step that may escrow entries of a kind, and touches no other list the gate reads. -/
structure Escrows (P : Entry → Prop) (s t : Process) : Prop where
  kept : ∀ i, kept (t.frames i) = kept (s.frames i)
  built : t.built = s.built
  owned : t.owned = s.owned
  verdict : t.verdict = s.verdict
  registry : t.registry = s.registry
  nextStamp : t.nextStamp = s.nextStamp
  parked : ∀ j, ∀ e ∈ t.undisposed j, e ∈ s.undisposed j
  escrow : s.escrow.Nodup → t.escrow.Nodup
  sources : ∀ e ∈ t.escrow, e ∈ s.escrow ∨ P e

theorem Escrows.refl (P : Entry → Prop) (s : Process) : Escrows P s s :=
  ⟨fun _ => rfl, rfl, rfl, rfl, rfl, rfl, fun _ _ he => he, id, fun _ he => Or.inl he⟩

theorem Escrows.trans {P : Entry → Prop} {s t u : Process} (h₁ : Escrows P s t) (h₂ : Escrows P t u) :
    Escrows P s u where
  kept i := (h₂.kept i).trans (h₁.kept i)
  built := h₂.built.trans h₁.built
  owned := h₂.owned.trans h₁.owned
  verdict := h₂.verdict.trans h₁.verdict
  registry := h₂.registry.trans h₁.registry
  nextStamp := h₂.nextStamp.trans h₁.nextStamp
  parked j e he := h₁.parked j e (h₂.parked j e he)
  escrow h := h₂.escrow (h₁.escrow h)
  sources e he := by
    rcases h₂.sources e he with he | he
    · exact h₁.sources e he
    · exact Or.inr he

/-- A step that leaves the escrow and the frames alone. -/
theorem Escrows.of_quiet {s t : Process} (P : Entry → Prop) (hk : Keeps s t) (hf : t.frames = s.frames)
    (hr : t.registry = s.registry) (he : t.escrow = s.escrow) (hn : t.nextStamp = s.nextStamp) :
    Escrows P s t where
  kept i := by
    show Process.kept (bare (t.frames i)) = Process.kept (bare (s.frames i))
    rw [hk.bare i]
  built := hk.built
  owned := hk.owned
  verdict := hk.verdict
  registry := hr
  nextStamp := hn
  parked j e hmem := by
    unfold undisposed at hmem ⊢
    rwa [hf] at hmem
  escrow h := he ▸ h
  sources e hmem := Or.inl (he ▸ hmem)

theorem escrows_foldl {P : Entry → Prop} {α : Type} {f : Process → α → Process} {l : List α}
    (hf : ∀ a ∈ l, ∀ t, Escrows P t (f t a)) (s : Process) : Escrows P s (l.foldl f s) := by
  induction l generalizing s with
  | nil => exact Escrows.refl P s
  | cons a l ih =>
    exact (hf a List.mem_cons_self s).trans (ih (fun x hx => hf x (List.mem_cons_of_mem _ hx)) _)

theorem escrows_strand (P : Entry → Prop) (s : Process) (e : Entry) : Escrows P s (s.strand e) :=
  .of_quiet P (keeps_strand s e) rfl rfl rfl rfl

variable (env : Env)

theorem escrows_poll (P : Entry → Prop) (s : Process) : Escrows P s (s.poll env) := by
  have hk := keeps_poll env s
  obtain ⟨_, _, _, _, h⟩ := poll_eq env s
  rw [h] at hk ⊢
  exact .of_quiet P hk rfl rfl rfl rfl

theorem escrows_engage (P : Entry → Prop) (s : Process) : Escrows P s s.engage := by
  have hk := keeps_engage s
  obtain ⟨_, _, _, h⟩ := engage_eq s
  rw [h] at hk ⊢
  exact .of_quiet P hk rfl rfl rfl rfl

theorem escrows_host (P : Entry → Prop) (e : Entry) (s : Process) : Escrows P s (s.host env e) := by
  have hbody (u : Process) (m : Marks) (n : Nat) :
      Escrows P u { u with marks := m, tick := n } :=
    .of_quiet P (Keeps.of_eq (fun _ => rfl) rfl rfl rfl rfl rfl) rfl rfl rfl rfl
  let u : Process := { s with marks := { s.marks with started := s.marks.started ++ [e] } }
  unfold host
  dsimp only
  split
  · exact (hbody s u.marks s.tick).trans ((escrows_engage P u).trans
      (hbody u.engage u.engage.marks (u.engage.tick + 1)))
  · exact hbody s u.marks (s.tick + 1)

theorem escrows_append (P : Entry → Prop) (r : WalRecord) (s : Process) : Escrows P s (s.append r) :=
  .of_quiet P (keeps_append r s) rfl rfl rfl rfl

theorem escrows_fence (P : Entry → Prop) (e : Entry) (s : Process) : Escrows P s (s.fence e) := by
  rcases fence_eq e s with h | ⟨r, h⟩ <;> rw [h]
  · exact Escrows.refl P s
  · exact escrows_append P r s

theorem escrows_replay (P : Entry → Prop) (e : Entry) (s : Process) : Escrows P s (s.replay env e) := by
  unfold replay
  dsimp only
  split_ifs
  · exact (escrows_poll env P s).trans (escrows_strand P _ e)
  · exact escrows_poll env P s
  · exact (escrows_poll env P s).trans ((escrows_fence P e _).trans (escrows_host env P e _))

theorem escrows_runPhase2 (P : Entry → Prop) (e : Entry) (s : Process) :
    Escrows P s (s.runPhase2 env e) := by
  unfold runPhase2
  dsimp only
  split_ifs
  · exact (escrows_poll env P s).trans (escrows_strand P _ e)
  · exact escrows_poll env P s
  · exact (escrows_poll env P s).trans (escrows_host env P e _)

theorem escrows_hold {P : Entry → Prop} {e : Entry} (he : P e) (s : Process) :
    Escrows P s (s.hold e) where
  kept _ := rfl
  built := rfl
  owned := rfl
  verdict := rfl
  registry := rfl
  nextStamp := rfl
  parked _ _ hmem := hmem
  escrow := nodup_mark
  sources x hx := by
    rcases mem_mark.1 hx with rfl | hx
    · exact Or.inr he
    · exact Or.inl hx

/-- A change of what Phase 2 is to run, or of flags the gate does not read. -/
theorem escrows_updateFrame {P : Entry → Prop} {j : Nat} (g : Frame → Frame) (hb : ∀ f, kept (g f) = kept f)
    (hg : ∀ f, ∀ e, (e ∈ (g f).deferredTransactional → e ∈ f.deferredTransactional) ∧
      (e ∈ (g f).deferredCompensations → e ∈ f.deferredCompensations)) (s : Process) :
    Escrows P s (s.updateFrame j g) where
  kept k := by
    by_cases hk : k = j
    · subst hk
      rw [updateFrame_self, hb]
    · simp [updateFrame, hk]
  built := rfl
  owned := rfl
  verdict := rfl
  registry := rfl
  nextStamp := rfl
  parked k e he := by
    by_cases hk : k = j
    · subst hk
      unfold undisposed at he ⊢
      rw [updateFrame_self] at he
      have hstack : (g (s.frames k)).stack = (s.frames k).stack :=
        congrArg (fun f => f.2.2.2.1) (hb (s.frames k))
      rw [hstack] at he
      simp only [List.mem_append, List.mem_reverse] at he ⊢
      exact he.imp_left (Or.imp (hg _ e).1 (hg _ e).2)
    · unfold undisposed at he ⊢
      simpa [updateFrame, hk] using he
  escrow := id
  sources _ he := Or.inl he

theorem escrows_call {P : Entry → Prop} {e : Entry} (he : P e) (s : Process) :
    Escrows P s (s.call env e) := by
  unfold call
  split_ifs
  · exact escrows_hold he s
  · exact .of_quiet P (Keeps.of_eq (fun _ => rfl) rfl rfl rfl rfl rfl) rfl rfl rfl rfl
  · cases e.kind with
    | transactional => exact escrows_replay env P e s
    | compensation =>
      exact escrows_updateFrame (fun f => { f with
        pendingCompensations := f.pendingCompensations ++ [e] }) (fun _ => rfl)
        (fun _ _ => ⟨id, id⟩) s

theorem escrows_recordRaise {P : Entry → Prop} {e : Entry} {s t : Process} (h : Escrows P s t) :
    Escrows P s (recordRaise env e s t) := by
  rcases recordRaise_eq env e s t with heq | heq <;> rw [heq]
  · exact h
  · exact h.trans (.of_quiet P (Keeps.of_eq (fun _ => rfl) rfl rfl rfl rfl rfl) rfl rfl rfl rfl)

theorem escrows_guarded {P : Entry → Prop} {e : Entry} (he : P e) (s : Process) :
    Escrows P s (s.guarded env e) := by
  have hflight (u : Process) (l : List Entry) : Escrows P u { u with inFlight := l } :=
    .of_quiet P (Keeps.of_eq (fun _ => rfl) rfl rfl rfl rfl rfl) rfl rfl rfl rfl
  unfold guarded
  dsimp only
  split_ifs
  · exact (escrows_poll env P s).trans (escrows_strand P _ e)
  · have hcall := escrows_recordRaise env (escrows_call env he ((s.poll env).enter e)) (e := e)
    exact (escrows_poll env P s).trans ((hflight _ _).trans (hcall.trans (hflight _ _)))

theorem escrows_compensate (P : Entry → Prop) (s : Process) (e : Entry) :
    Escrows P s (s.compensate env e) := by
  have hstep (m : Marks) (n : Nat) : Escrows P s { s with marks := m, tick := n } :=
    .of_quiet P (Keeps.of_eq (fun _ => rfl) rfl rfl rfl rfl rfl) rfl rfl rfl rfl
  unfold compensate
  dsimp only
  split_ifs
  · exact hstep _ _
  · exact (hstep s.marks (s.tick + 1)).trans
      (escrows_recordRaise env (escrows_runPhase2 env P e _))

theorem escrows_runCompensations (P : Entry → Prop) (l : List Entry) (s : Process) :
    Escrows P s (s.runCompensations env l) := by
  unfold runCompensations
  dsimp only
  split_ifs
  · exact Escrows.refl P s
  · exact (escrows_poll env P s).trans (escrows_foldl (fun e _ t => escrows_strand P t e) _)
  · exact (escrows_poll env P s).trans (escrows_foldl (fun e _ t => escrows_compensate env P t e) _)

theorem escrows_begin (P : Entry → Prop) (i : Nat) (s : Process) : Escrows P s (s.begin_ env i) := by
  unfold begin_ drainPhase2
  split
  · exact Escrows.refl P s
  · exact (escrows_updateFrame (fun f => { f with pendingCompensations := [] }) (fun _ => rfl)
      (fun _ _ => ⟨id, id⟩) s).trans (escrows_runCompensations env P _ _)

theorem escrows_unwindUnit (P : Entry → Prop) (i : Nat) (unit : Scope) (s : Process) :
    Escrows P s (s.unwindUnit env i unit) := by
  unfold unwindUnit
  dsimp only
  split
  · exact Escrows.refl P s
  · have hleave (a b : List Entry) : Escrows P s (s.updateFrame i fun f => { f with
        deferredTransactional := f.deferredTransactional.filter (· ∉ a)
        deferredCompensations := f.deferredCompensations.filter (· ∉ b) }) :=
      escrows_updateFrame (fun f => { f with
          deferredTransactional := f.deferredTransactional.filter (· ∉ a)
          deferredCompensations := f.deferredCompensations.filter (· ∉ b) }) (fun _ => rfl)
        (fun _ _ => ⟨List.mem_of_mem_filter, List.mem_of_mem_filter⟩) s
    refine (hleave _ _).trans ((escrows_foldl (fun e _ t => ?_) _).trans
      (escrows_runCompensations env P _ _))
    exact escrows_recordRaise env (escrows_replay env P e t)

theorem Escrows.withRegistry {P : Entry → Prop} {s t : Process} (h : Escrows P s t) (r : List Nat) :
    Escrows P { s with registry := r } { t with registry := r } where
  kept := h.kept
  built := h.built
  owned := h.owned
  verdict := h.verdict
  registry := rfl
  nextStamp := h.nextStamp
  parked := h.parked
  escrow := h.escrow
  sources := h.sources

/-- Under a halt a teardown escrows nothing and keeps the registry. -/
theorem escrows_unwind_halted (P : Entry → Prop) {i : Nat} {s : Process}
    (hh : (s.poll env).halted = true) : Escrows P s (s.unwind env i) := by
  have hclear (u : Process) : Escrows P u (u.updateFrame i fun f => { f with
      deferredTransactional := []
      deferredCompensations := []
      pendingCompensations := [] }) :=
    escrows_updateFrame (fun f => { f with
      deferredTransactional := []
      deferredCompensations := []
      pendingCompensations := [] }) (fun _ => rfl)
      (fun _ _ => ⟨fun he => (List.not_mem_nil he).elim, fun he => (List.not_mem_nil he).elim⟩) u
  have hdrain : Escrows P (s.poll env) ((s.poll env).drainHalted i) :=
    (escrows_foldl (fun e _ t => escrows_strand P t e) _).trans (hclear _)
  rw [unwind_eq_halted env hh]
  exact (escrows_poll env P s).trans (hdrain.trans
    ((escrows_foldl (fun e _ t => escrows_strand P t e) _).trans (escrows_begin env P i _)))

/-- A withdrawal takes the frame out of the registry and escrows entries of its own. -/
theorem escrows_unwind_withdraw {i : Nat} {s : Process} (hgo : (s.poll env).halted = false)
    (howned : s.owned = true) (hverdict : s.verdict = none)
    (habort : (s.frames i).aborting = false) (hmine : ∀ e ∈ s.undisposed i, e.frame = i) :
    Escrows (·.frame = i) { s with registry := s.registry.erase i } (s.unwind env i) := by
  have hpoll := escrows_poll env (·.frame = i) s
  have hbit : Escrows (·.frame = i) { s with registry := s.registry.erase i }
      ((s.poll env).withdrawBit i) := by
    unfold withdrawBit
    rw [hpoll.registry]
    exact (hpoll.withRegistry _).trans (escrows_updateFrame (fun f => { f with
      holding := true
      deferredTransactional := []
      deferredCompensations := [] }) (fun _ => rfl)
      (fun _ _ => ⟨fun he => (List.not_mem_nil he).elim, fun he => (List.not_mem_nil he).elim⟩) _)
  rw [unwind_eq_withdraw env hgo howned hverdict habort]
  refine hbit.trans ((escrows_foldl (fun e he t => escrows_hold ?_ t) _).trans
    ((escrows_foldl (fun e he t => escrows_guarded env ?_ t) _).trans (escrows_begin env _ i _)))
  · refine hmine e (List.mem_append_left _ ?_)
    rcases List.mem_append.1 he with he | he
    · exact List.mem_append_left _ (List.mem_reverse.2 he)
    · exact List.mem_append_right _ (List.mem_reverse.2 he)
  · exact hmine e (List.mem_append_right _ he)

/-! ## Until the verdict -/

/-- What the gate relies on before the verdict. -/
structure Tallied (s : Process) : Prop where
  owned : s.owned = true
  verdict : s.verdict = none
  built : s.built = List.range s.built.length
  registry : s.registry.Nodup
  live : ∀ i ∈ s.registry, i ∈ s.built
  calm : ∀ i, (s.frames i).aborting = false
  entries : ∀ i, (s.entries i).Nodup
  own : ∀ i, ∀ e ∈ s.entries i, e.frame = i ∧ e.stamp < s.nextStamp
  parked : ∀ i, ∀ e ∈ s.undisposed i, e.frame = i
  escrow : s.escrow.Nodup
  escrowed : ∀ e ∈ s.escrow, e.frame ∈ s.built ∧ e.frame ∉ s.registry

theorem Escrows.entries {P : Entry → Prop} {s t : Process} (h : Escrows P s t) (i : Nat) :
    t.entries i = s.entries i := by
  have hk := h.kept i
  simp only [Process.kept, Prod.mk.injEq] at hk
  unfold Process.entries
  rw [hk.2.1, hk.2.2.1]

/-- A step keeps the tally when what it escrows is of no live frame. -/
theorem Tallied.escrows {P : Entry → Prop} {s t : Process} (h : Tallied s) (hs : Escrows P s t)
    (hP : ∀ e, P e → e.frame ∈ s.built ∧ e.frame ∉ s.registry) : Tallied t where
  owned := hs.owned.trans h.owned
  verdict := hs.verdict.trans h.verdict
  built := hs.built ▸ h.built
  registry := hs.registry ▸ h.registry
  live := hs.registry ▸ hs.built ▸ h.live
  calm i := (congrArg (fun f => f.2.2.2.2) (hs.kept i)).trans (h.calm i)
  entries i := hs.entries i ▸ h.entries i
  own i e he := by
    rw [hs.nextStamp]
    exact h.own i e (hs.entries i ▸ he)
  parked i e he := h.parked i e (hs.parked i e he)
  escrow := hs.escrow h.escrow
  escrowed e he := by
    rw [hs.built, hs.registry]
    rcases hs.sources e he with he | he
    · exact h.escrowed e he
    · exact hP e he

theorem Tallied.unwind {s : Process} (h : Tallied s) {i : Nat} (hi : i ∈ s.registry) :
    Tallied (s.unwind env i) := by
  by_cases hh : (s.poll env).halted = true
  · exact h.escrows (escrows_unwind_halted env (fun _ => False) hh) fun _ he => he.elim
  · have hstep := escrows_unwind_withdraw env (Bool.not_eq_true _ ▸ hh) h.owned h.verdict
      (h.calm i) (h.parked i)
    have herase : Tallied { s with registry := s.registry.erase i } :=
      { owned := h.owned
        verdict := h.verdict
        built := h.built
        registry := h.registry.erase i
        live := fun j hj => h.live j (List.mem_of_mem_erase hj)
        calm := h.calm
        entries := h.entries
        own := h.own
        parked := h.parked
        escrow := h.escrow
        escrowed := fun e he => by
          obtain ⟨hb, hr⟩ := h.escrowed e he
          exact ⟨hb, fun hin => hr (List.mem_of_mem_erase hin)⟩ }
    refine herase.escrows hstep fun e he => ?_
    rw [he]
    exact ⟨h.live i hi, h.registry.not_mem_erase⟩

theorem Tallied.newFrame {s : Process} (h : Tallied s) (name : String) :
    Tallied (s.newFrame name) := by
  have hfresh : s.built.length ∉ s.built := by
    rw [h.built]
    simp
  have hself : (s.newFrame name).frames s.built.length = Frame.new name :=
    Function.update_self ..
  have helse : ∀ j, j ≠ s.built.length → (s.newFrame name).frames j = s.frames j :=
    fun j hj => Function.update_of_ne hj ..
  have hcases : ∀ i, (s.newFrame name).frames i = s.frames i ∨
      (s.newFrame name).frames i = Frame.new name := by
    intro i
    by_cases hi : i = s.built.length
    · exact Or.inr (hi ▸ hself)
    · exact Or.inl (helse i hi)
  have hnew : (s.newFrame name).registry = s.registry ++ [s.built.length] := rfl
  exact
    { owned := h.owned
      verdict := h.verdict
      built := by
        show s.built ++ [s.built.length] = _
        rw [show (s.newFrame name).built.length = s.built.length + 1 from List.length_append,
          List.range_succ, ← h.built]
      registry := by
        rw [hnew]
        refine List.nodup_append.2 ⟨h.registry, List.nodup_singleton _, fun a ha b hb hab => ?_⟩
        exact hfresh (List.mem_singleton.1 hb ▸ hab ▸ h.live a ha)
      live := fun i hi => by
        rcases List.mem_append.1 hi with hi | hi
        · exact List.mem_append_left _ (h.live i hi)
        · exact List.mem_append_right _ hi
      calm := fun i => by
        rcases hcases i with heq | heq <;> rw [heq]
        · exact h.calm i
        · rfl
      entries := fun i => by
        unfold Process.entries
        rcases hcases i with heq | heq <;> rw [heq]
        · exact h.entries i
        · exact List.nodup_nil
      own := fun i e he => by
        unfold Process.entries at he
        rcases hcases i with heq | heq <;> rw [heq] at he
        · exact h.own i e he
        · cases he
      parked := fun i e he => by
        unfold undisposed at he
        rcases hcases i with heq | heq <;> rw [heq] at he
        · exact h.parked i e he
        · cases he
      escrow := h.escrow
      escrowed := fun e he => by
        obtain ⟨hb, hr⟩ := h.escrowed e he
        refine ⟨List.mem_append_left _ hb, fun hin => ?_⟩
        rcases List.mem_append.1 hin with hin | hin
        · exact hr hin
        · exact hfresh (List.mem_singleton.1 hin ▸ hb) }

theorem Tallied.register {s : Process} (h : Tallied s) {i : Nat} (hi : i ∈ s.registry)
    (seam : Seam) (r : Registration) : Tallied (s.register env i seam r) := by
  have hpoll := escrows_poll env (fun _ => False) s
  have hp : Tallied (s.poll env) := h.escrows hpoll fun _ he => he.elim
  have hip : i ∈ (s.poll env).registry := hpoll.registry ▸ hi
  unfold Process.register
  dsimp only
  split
  · exact hp
  generalize s.poll env = p at hp hip
  let e := p.newEntry i r
  let t : Process := { (p.updateFrame i (Frame.push seam e)).append
    (descriptor (p.frames i) r p.nextSeq) with
      nextStamp := p.nextStamp + 1
      nextSeq := if p.wal.isSome then p.nextSeq + 1 else p.nextSeq }
  have hself : t.frames i = Frame.push seam e (p.frames i) := updateFrame_self i _ p
  have helse : ∀ j, j ≠ i → t.frames j = p.frames j := fun j hj => Function.update_of_ne hj ..
  obtain ⟨hpush, hpushed⟩ := push_undisposed seam e i p
  have hfresh : ∀ j, e ∉ p.entries j := fun j hin => absurd (hp.own j e hin).2 (Nat.lt_irrefl _)
  have hentries : ∀ j, j ≠ i → t.entries j = p.entries j := by
    intro j hj
    unfold Process.entries
    rw [helse j hj]
  exact
    { owned := hp.owned
      verdict := hp.verdict
      built := hp.built
      registry := hp.registry
      live := hp.live
      calm := fun j => by
        show (t.frames j).aborting = false
        by_cases hj : j = i
        · subst hj
          rw [hself]
          exact (push_flags seam e (p.frames j)).2.2.2.trans (hp.calm j)
        · rw [helse j hj]
          exact hp.calm j
      entries := fun j => by
        show (t.entries j).Nodup
        by_cases hj : j = i
        · subst hj
          exact hpushed.nodup_iff.2 (List.nodup_cons.2 ⟨hfresh j, hp.entries j⟩)
        · rw [hentries j hj]
          exact hp.entries j
      own := fun j x hx => by
        change x ∈ t.entries j at hx
        have hold : x ∈ p.entries j → x.frame = j ∧ x.stamp < p.nextStamp + 1 :=
          fun hx => ⟨(hp.own j x hx).1, Nat.lt_succ_of_lt (hp.own j x hx).2⟩
        by_cases hj : j = i
        · subst hj
          rcases List.mem_cons.1 (hpushed.subset hx) with rfl | hx
          · exact ⟨rfl, Nat.lt_succ_self _⟩
          · exact hold hx
        · exact hold (hentries j hj ▸ hx)
      parked := fun j x hx => by
        change x ∈ t.undisposed j at hx
        by_cases hj : j = i
        · subst hj
          rcases List.mem_cons.1 (hpush.subset hx) with rfl | hx
          · rfl
          · exact hp.parked j x hx
        · unfold undisposed at hx
          rw [helse j hj] at hx
          exact hp.parked j x hx
      escrow := hp.escrow
      escrowed := hp.escrowed }

/-- Frames stay built, under their names. -/
def Named (s t : Process) : Prop := ∀ i ∈ s.built, i ∈ t.built ∧ t.frameName i = s.frameName i

theorem Escrows.named {P : Entry → Prop} {s t : Process} (h : Escrows P s t) : Named s t :=
  fun i hi => ⟨h.built ▸ hi, congrArg Prod.fst (h.kept i)⟩

theorem Tallied.named_unwind {s : Process} (h : Tallied s) (i : Nat) :
    Named s (s.unwind env i) := by
  by_cases hh : (s.poll env).halted = true
  · exact (escrows_unwind_halted env (fun _ => False) hh).named
  · exact (escrows_unwind_withdraw env (Bool.not_eq_true _ ▸ hh) h.owned h.verdict
      (h.calm i) (h.parked i)).named

theorem Tallied.named_newFrame {s : Process} (h : Tallied s) (name : String) :
    Named s (s.newFrame name) := by
  intro i hi
  refine ⟨List.mem_append_left _ hi, ?_⟩
  have hne : i ≠ s.built.length := by
    rintro rfl
    rw [h.built] at hi
    simp at hi
  exact congrArg Frame.name (Function.update_of_ne hne ..)

theorem named_register (i : Nat) (seam : Seam) (r : Registration) (s : Process) :
    Named s (s.register env i seam r) := by
  have hpoll := (escrows_poll env (fun _ => False) s).named
  intro j hj
  obtain ⟨hb, hn⟩ := hpoll j hj
  unfold Process.register
  dsimp only
  split
  · exact ⟨hb, hn⟩
  · have hname : ((s.poll env).updateFrame i (Frame.push seam ((s.poll env).newEntry i r))).frameName j
        = (s.poll env).frameName j := by
      unfold frameName
      by_cases hji : j = i
      · subst hji
        rw [updateFrame_self]
        unfold Frame.push
        cases seam <;> cases ((s.poll env).newEntry j r).kind <;> rfl
      · simp [updateFrame, hji]
    exact ⟨hb, hname.trans hn⟩

theorem tallied_newSession (log : Bool) : Tallied (newSession log) where
  owned := rfl
  verdict := rfl
  built := rfl
  registry := List.nodup_nil
  live _ hi := (List.not_mem_nil hi).elim
  calm _ := rfl
  entries _ := List.nodup_nil
  own _ _ he := (List.not_mem_nil he).elim
  parked _ _ he := (List.not_mem_nil he).elim
  escrow := List.nodup_nil
  escrowed _ he := (List.not_mem_nil he).elim

theorem Tallied.sessionStep {s : Process} (h : Tallied s) (op : SessionOp) :
    Tallied (sessionStep env s op) ∧ Named s (sessionStep env s op) := by
  have hsame : Tallied s ∧ Named s s := ⟨h, fun _ hi => ⟨hi, rfl⟩⟩
  cases op with
  | newFrame name => exact ⟨h.newFrame name, h.named_newFrame name⟩
  | register i seam r =>
    rw [Process.sessionStep]
    split
    · exact ⟨h.register env ‹_› seam r, named_register env i seam r s⟩
    · exact hsame
  | withdraw i =>
    rw [Process.sessionStep]
    split
    · exact ⟨h.unwind env ‹_›, h.named_unwind env i⟩
    · exact hsame

/-- No entry is tallied twice. -/
theorem Tallied.outstanding {s : Process} (h : Tallied s) : s.outstanding.Nodup := by
  refine List.Nodup.filter _ (List.nodup_append.2 ⟨?_, h.escrow, fun e he x hx hex => ?_⟩)
  · refine List.nodup_flatMap.2 ⟨fun i _ => h.entries i, ?_⟩
    refine h.registry.imp fun {i j} hij e hi hj => hij ?_
    rw [← (h.own i e hi).1, (h.own j e hj).1]
  · obtain ⟨i, hi, he⟩ := List.mem_flatMap.1 he
    refine (h.escrowed x hx).2 ?_
    rw [← hex, (h.own i e he).1]
    exact hi

end Process

/-! ## What an approval binds -/

/-- What a list has that another lacks. -/
def lost {α : Type} [DecidableEq α] (l m : List α) : List α := l.filter (· ∉ m)

/-- What two lists have in common. -/
def common {α : Type} [DecidableEq α] (l m : List α) : List α := l.filter (· ∈ m)

section Lists

variable {α : Type} [DecidableEq α] {l m : List α}

theorem common_append_lost (l m : List α) : (common l m ++ lost l m).Perm l := by
  have h := List.filter_append_perm (fun x => decide (x ∈ m)) l
  simpa [common, lost] using h

theorem common_comm (hl : l.Nodup) (hm : m.Nodup) : (common l m).Perm (common m l) := by
  refine (List.perm_ext_iff_of_nodup (hl.filter _) (hm.filter _)).2 fun x => ?_
  simp only [List.mem_filter, decide_eq_true_eq]
  exact and_comm

/-- Lists that agree on what they have in common are permutations when the rest is. -/
theorem map_perm_iff_lost {β : Type} {f g : α → β} (hl : l.Nodup) (hm : m.Nodup)
    (hfg : ∀ x ∈ l, g x = f x) :
    (m.map g).Perm (l.map f) ↔ ((lost m l).map g).Perm ((lost l m).map f) := by
  have hcommon : ((common m l).map g).Perm ((common l m).map f) := by
    have hf : (common m l).map g = (common m l).map f :=
      List.map_congr_left fun x hx => hfg x (by simpa using (List.mem_filter.1 hx).2)
    rw [hf]
    exact (common_comm hm hl).map f
  have hleft := (common_append_lost l m).map f
  have hright := (common_append_lost m l).map g
  rw [List.map_append] at hleft hright
  constructor
  · intro h
    have hall := (hright.trans h).trans hleft.symm
    exact (List.perm_append_left_iff _).1 ((hcommon.symm.append_right _).trans hall)
  · intro h
    exact hright.symm.trans ((hcommon.append h).trans hleft)

theorem length_eq_iff_lost (hl : l.Nodup) (hm : m.Nodup) :
    m.length = l.length ↔ (lost m l).length = (lost l m).length := by
  have hcommon := (common_comm hl hm).length_eq
  have hleft := (common_append_lost l m).length_eq
  have hright := (common_append_lost m l).length_eq
  rw [List.length_append] at hleft hright
  omega

theorem lost_eq_nil : lost l m = [] ↔ ∀ x ∈ l, x ∈ m := by
  unfold lost
  simp [List.filter_eq_nil_iff]

end Lists

namespace Owner

variable (env : CommitEnv)

/-- What an approval promises of the session since its manifest was enumerated. -/
structure Unchanged (o p : Owner) : Prop where
  queue : p.queue = o.queue
  outstanding : ∀ e, e ∈ p.process.outstanding ↔ e ∈ o.process.outstanding
  registry : ∀ i, i ∈ p.process.registry ↔ i ∈ o.process.registry

/-- Something went and as much came: as many entries, and frames of the same names. -/
structure Balanced (o p : Owner) : Prop where
  queue : p.queue.length = o.queue.length
  outstanding : (lost p.process.outstanding o.process.outstanding).length =
    (lost o.process.outstanding p.process.outstanding).length
  names : ((lost p.process.registry o.process.registry).map p.process.frameName).Perm
    ((lost o.process.registry p.process.registry).map o.process.frameName)
  drift : lost o.process.outstanding p.process.outstanding ≠ [] ∨
    lost o.process.registry p.process.registry ≠ []

/-- A run until the verdict only appends to the queue. -/
structure Since (o p : Owner) : Prop where
  tallied : Process.Tallied p.process
  named : Process.Named o.process p.process
  queue : o.queue <+: p.queue

theorem since_driftStep {o : Owner} (h : Process.Tallied o.process) (op : DriftOp) :
    Since o (driftStep env o op) := by
  cases op with
  | session op =>
    obtain ⟨ht, hn⟩ := h.sessionStep env.toEnv op
    exact ⟨ht, hn, List.prefix_refl _⟩
  | enqueue m =>
    have hpoll := Process.escrows_poll env.toEnv (fun _ => False) o.process
    have hp : Process.Tallied (o.process.poll env.toEnv) := h.escrows hpoll fun _ he => he.elim
    show Since o (o.enqueue env m)
    unfold enqueue
    dsimp only
    split
    · exact ⟨hp, hpoll.named, List.prefix_refl _⟩
    · refine ⟨?_, hpoll.named, List.prefix_append _ _⟩
      exact ⟨hp.owned, hp.verdict, hp.built, hp.registry, hp.live, hp.calm, hp.entries, hp.own,
        hp.parked, hp.escrow, hp.escrowed⟩
  | settle i stamps =>
    rw [driftStep]
    split
    · have hstep := Process.escrows_unwindUnit env.toEnv (fun _ => False) i
        (unitAt i stamps o.process) o.process
      exact ⟨h.escrows hstep fun _ he => he.elim, hstep.named, List.prefix_refl _⟩
    · exact ⟨h, fun _ hi => ⟨hi, rfl⟩, List.prefix_refl _⟩

theorem Since.trans {o p q : Owner} (h₁ : Since o p) (h₂ : Since p q) : Since o q where
  tallied := h₂.tallied
  named i hi := by
    obtain ⟨hb, hn⟩ := h₁.named i hi
    obtain ⟨hb', hn'⟩ := h₂.named i hb
    exact ⟨hb', hn'.trans hn⟩
  queue := h₁.queue.trans h₂.queue

theorem since_drift {o : Owner} (h : Process.Tallied o.process) (ops : List DriftOp) :
    Since o (o.drift env ops) := by
  induction ops generalizing o with
  | nil => exact ⟨h, fun _ hi => ⟨hi, rfl⟩, List.prefix_refl _⟩
  | cons op ops ih =>
    have hstep := since_driftStep env h op
    exact hstep.trans (ih hstep.tallied)

theorem sort_eq_iff {l m : List String} :
    l.insertionSort (· ≤ ·) = m.insertionSort (· ≤ ·) ↔ l.Perm m := by
  constructor
  · intro h
    exact (List.perm_insertionSort _ l).symm.trans (h ▸ List.perm_insertionSort _ m)
  · intro h
    refine List.Perm.eq_of_pairwise (fun a b _ _ => le_antisymm) (List.pairwise_insertionSort _ l)
      (List.pairwise_insertionSort _ m) ?_
    exact (List.perm_insertionSort _ l).trans (h.trans (List.perm_insertionSort _ m).symm)

/-- When two targets of a run are the same. -/
theorem Since.target_eq {o p : Owner} (ho : Process.Tallied o.process) (h : Since o p) :
    p.target = o.target ↔ p.queue.length = o.queue.length ∧
      (lost p.process.outstanding o.process.outstanding).length =
        (lost o.process.outstanding p.process.outstanding).length ∧
      ((lost p.process.registry o.process.registry).map p.process.frameName).Perm
        ((lost o.process.registry p.process.registry).map o.process.frameName) := by
  have hnames : ∀ i ∈ o.process.registry, p.process.frameName i = o.process.frameName i :=
    fun i hi => (h.named i (ho.live i hi)).2
  have hqueue : p.queue.map (·.descriptor) = o.queue.map (·.descriptor) ↔
      p.queue.length = o.queue.length := by
    constructor
    · intro heq
      simpa using congrArg List.length heq
    · intro heq
      rw [h.queue.eq_of_length heq.symm]
  rw [← map_perm_iff_lost ho.registry h.tallied.registry hnames,
    ← length_eq_iff_lost ho.outstanding h.tallied.outstanding, ← hqueue, ← sort_eq_iff]
  unfold target
  simp only [Target.mk.injEq]

theorem approve_ok_iff (hash : Target → String) (confirmed : String) (o : Owner) :
    (∃ p, o.approve env hash confirmed = .ok p) ↔ confirmed = hash o.target := by
  unfold approve
  by_cases h : confirmed = hash o.target
  · simp [h]
  · simp [h]

/-- **An approval binds what was enumerated, short of a balanced drift.** In every session, whatever
happens between the two steps, a hash that does not collide on the two targets lets a commit through
only on the queue, the outstanding entries and the live frames that were enumerated, unless nothing
was enqueued, something went, and as many entries and frames of the same names came. -/
theorem approve_exact (hash : Target → String) (log : Bool) (before after : List DriftOp)
    (hfree : hash ((runDrift env log before).drift env after).target =
        hash (runDrift env log before).target →
      ((runDrift env log before).drift env after).target = (runDrift env log before).target) :
    ((∃ q, ((runDrift env log before).drift env after).approve env hash
        ((runDrift env log before).enumerate hash) = .ok q) →
      Unchanged (runDrift env log before) ((runDrift env log before).drift env after)) ↔
    ¬Balanced (runDrift env log before) ((runDrift env log before).drift env after) := by
  have ho : Process.Tallied (runDrift env log before).process :=
    (since_drift env (Process.tallied_newSession log) before).tallied
  have hsince := since_drift env ho after
  generalize runDrift env log before = o at *
  generalize o.drift env after = p at *
  have hok : (∃ q, p.approve env hash (o.enumerate hash) = .ok q) ↔ p.target = o.target := by
    rw [approve_ok_iff]
    exact ⟨fun h => hfree h.symm, fun h => (congrArg hash h).symm⟩
  rw [hok, hsince.target_eq ho]
  constructor
  · rintro h ⟨hqueue, hcount, hnames, hdrift⟩
    obtain ⟨-, hout, hreg⟩ := h ⟨hqueue, hcount, hnames⟩
    rcases hdrift with hlost | hlost
    · exact hlost (lost_eq_nil.2 fun e he => (hout e).2 he)
    · exact hlost (lost_eq_nil.2 fun i hi => (hreg i).2 hi)
  · rintro h ⟨hqueue, hcount, hnames⟩
    have hnone : lost o.process.outstanding p.process.outstanding = [] ∧
        lost o.process.registry p.process.registry = [] := by
      by_contra hsome
      exact h ⟨hqueue, hcount, hnames, not_and_or.1 hsome⟩
    -- nothing went, so nothing came
    have hcame : lost p.process.outstanding o.process.outstanding = [] := by
      rw [hnone.1] at hcount
      exact List.length_eq_zero_iff.1 hcount
    have hcame' : lost p.process.registry o.process.registry = [] := by
      rw [hnone.2] at hnames
      simpa using hnames.eq_nil
    exact ⟨(hsince.queue.eq_of_length hqueue.symm).symm,
      fun e => ⟨lost_eq_nil.1 hcame e, lost_eq_nil.1 hnone.1 e⟩,
      fun i => ⟨lost_eq_nil.1 hcame' i, lost_eq_nil.1 hnone.2 i⟩⟩

/-- A component is activated with one witnessed effect. -/
def loaded (seam : Seam) : List DriftOp :=
  [.session (.newFrame "Vault"), .session (.register 0 seam someInverse)]

/-- It is swapped for another one of its name. -/
def swapped : List DriftOp := [.session (.withdraw 0), .session (.newFrame "Vault")]

/-- The effect of a failed unit is settled and another one is registered. -/
def exchanged : List DriftOp := [.settle 0 [0], .session (.register 0 .method someInverse)]

/-- No halt, and nothing fails. -/
def quietCommit : CommitEnv := ⟨quietEnv false, fun _ => none, fun _ => ⟨"EstopHalted", ""⟩⟩

/-- An emission queued in between is refused. -/
theorem approve_exact_enqueued :
    let hash : Target → String := fun t => if t.queue = [] then "empty" else "queued"
    let o := runDrift quietCommit false (loaded .body)
    let p := o.drift quietCommit [.enqueue ⟨"mail", "send", [], [], none, none⟩]
    ((∃ q, p.approve quietCommit hash (o.enumerate hash) = .ok q) → Unchanged o p) ↔ ¬Balanced o p :=
  approve_exact quietCommit _ false (loaded .body) _ (by decide)

/-- A swap for a component of the same name goes through under every hash, and so does a settled
entry exchanged for another one. -/
theorem approve_swapped :
    let o := runDrift quietCommit true (loaded .body)
    let p := o.drift quietCommit swapped
    let o' := runDrift quietCommit true (loaded .method)
    let p' := o'.drift quietCommit exchanged
    ((∀ hash, ∃ q, p.approve quietCommit hash (o.enumerate hash) = .ok q) ∧
      o.process.registry = [0] ∧ p.process.registry = [1]) ∧
    (∀ hash, ∃ q, p'.approve quietCommit hash (o'.enumerate hash) = .ok q) ∧
      o'.process.outstanding.map (·.stamp) = [0] ∧ p'.process.outstanding.map (·.stamp) = [1] := by
  have hsame {o p : Owner} (h : o.target = p.target) :
      ∀ hash, ∃ q, p.approve quietCommit hash (o.enumerate hash) = .ok q :=
    fun hash => (approve_ok_iff quietCommit hash _ p).2 (congrArg hash h)
  exact ⟨⟨hsame (by decide), by decide, by decide⟩, hsame (by decide), by decide, by decide⟩

end Owner

end Revl.Runtime
