import Revl.Runtime.SessionAbort
import Revl.Recovery.Spared

/-!
# After an abort

A later recovery reads the log an abort left. Without a composition binding it hands inverses to
the world itself; with one, the batch goes to `replay_descriptors`, which rebuilds the entries and
runs them through a frame's own abort path.

- `replayDescriptors`: the batch, in a fresh process.
- `finalizeAbort_names`: the record of an abort names every inverse that ran to its end.
- `abort_final`: **an inverse that returned normally is not run again**, unless it was declared
  idempotent or is a read.
-/

namespace Revl.Runtime

open Recovery (Call Descriptor Event WalRecord World Strength Basis abortedOf descriptorsOf
  dischargedOf replayFencesOf settledDescriptorSeqs replayTier)

namespace Process

/-! ## A batch in a fresh process -/

local instance lawfulReplaySeq : LawfulBEq (Option Int) := inferInstance

/-- Whether `replay_descriptors` rebuilds a descriptor: not settled, its attempt not spent, and
the call names a host body with captured arguments. -/
def rebuilt (records : List WalRecord) (resolves : Call → Bool) (d : Descriptor) : Bool :=
  d.seq ∉ settledDescriptorSeqs records &&
    !(d.entry = .transactional && some d.seq ∈ replayFencesOf records && !d.undoIdempotent) &&
    resolves d.call && d.call.args.isSome

/-- The entries of the batch, oldest first, under their original seqs. -/
def replayEntries (records : List WalRecord) (resolves : Call → Bool) (batch : List Descriptor) :
    List Entry :=
  ((batch.insertionSort fun a b => a.seq ≤ b.seq).filter (rebuilt records resolves)).zipIdx.map
    fun p => ⟨p.2, 0, p.1.entry, p.1.call, p.1.undoIdempotent, some p.1.seq⟩

/-- The frame they run in: it belongs to no session, and its drain is an abort. -/
def replayFrame (engaged : Bool) (records : List WalRecord) (entries : List Entry) : Process where
  frames := fun _ => { Frame.new "replay" with
    transactional := inverses entries
    deferredTransactional := inverses entries
    compensations := offsets entries
    deferredCompensations := offsets entries
    aborting := true }
  built := [0]
  owned := false
  verdict := none
  registry := []
  escrow := []
  marks := ⟨[], [], [], []⟩
  raised := []
  halted := engaged
  stranded := []
  inFlight := []
  ambiguous := []
  nextStamp := entries.length
  wal := some records
  nextSeq := 0
  tick := 0

variable (env : Env)

/-- `replay_descriptors`, up to the record it appends. -/
def replayDescriptors (engaged : Bool) (records : List WalRecord) (resolves : Call → Bool)
    (batch : List Descriptor) : Process :=
  ((replayFrame engaged records (replayEntries records resolves batch)).drain env 0).drainPhase2
    env 0

/-- A loop starts and queues nothing but its own entries. -/
theorem foldl_others {f : Process → Entry → Process} (hf : ∀ s e, Settles e s (f s e))
    {l : List Entry} {x : Entry} (hx : x ∉ l) (s : Process) (i : Nat) :
    (l.foldl f s).settledCount x = s.settledCount x ∧
      (x ∈ ((l.foldl f s).frames i).pendingCompensations →
        x ∈ (s.frames i).pendingCompensations) := by
  induction l generalizing s with
  | nil => exact ⟨rfl, id⟩
  | cons e l ih =>
    obtain ⟨hxe, hxl⟩ := not_or.1 fun h => hx (List.mem_cons.2 h)
    obtain ⟨hcount, hpend⟩ := ih hxl (f s e)
    refine ⟨hcount.trans ((hf s e).others x hxe), fun hmem => ?_⟩
    have hmem := hpend hmem
    rcases (hf s e).pending i with hsame | ⟨-, -, -, -, -, hadd⟩
    · exact hsame ▸ hmem
    · rw [hadd] at hmem
      rcases List.mem_append.1 hmem with hmem | hmem
      · exact hmem
      · exact absurd (List.mem_singleton.1 hmem) hxe

/-- The batch starts no body but those of the entries it rebuilt. -/
theorem replayDescriptors_started (engaged : Bool) (records : List WalRecord)
    (resolves : Call → Bool) (batch : List Descriptor) {x : Entry}
    (hx : x ∈ (replayDescriptors env engaged records resolves batch).marks.started) :
    x ∈ replayEntries records resolves batch := by
  by_contra hnot
  let l := replayEntries records resolves batch
  let s := replayFrame engaged records l
  have hlists : x ∉ (inverses l).reverse ++ (offsets l).reverse := by
    intro h
    rcases List.mem_append.1 h with h | h
    · exact hnot (mem_inverses.1 (List.mem_reverse.1 h)).1
    · exact hnot (mem_offsets.1 (List.mem_reverse.1 h)).1
  -- the drain leaves it alone, and does not queue it
  have hdrain : (s.drain env 0).settledCount x = 0 ∧
      x ∉ ((s.drain env 0).frames 0).pendingCompensations := by
    have hmarks : (s.poll env).marks = s.marks := poll_marks env s
    have hframes : (s.poll env).frames = s.frames := poll_frames env s
    have hpoll : (s.poll env).owned = false := (keeps_poll env s).owned
    unfold drain
    by_cases hh : (s.poll env).halted = true
    · rw [if_pos hh]
      refine ⟨?_, ?_⟩
      · exact settledCount_congr ((foldl_strand_marks _ _).trans hmarks) x
      · simp only [drainHalted, updateFrame_self]
        exact List.not_mem_nil
    · rw [if_neg hh, if_neg (by simp [hpoll])]
      unfold drainSettle
      rw [hframes]
      obtain ⟨hcount, hpend⟩ := foldl_others (fun t e => dispose_settles env e t) hlists
        ((s.poll env).settleBit 0) 0
      have hbit : ((s.poll env).settleBit 0).marks = s.marks ∧
          (((s.poll env).settleBit 0).frames 0).pendingCompensations = [] := by
        unfold settleBit
        dsimp only
        split
        · refine ⟨hmarks, ?_⟩
          simp only [append, updateFrame_self, hframes]
          rfl
        · refine ⟨hmarks, ?_⟩
          rw [updateFrame_self, hframes]
          rfl
      refine ⟨hcount.trans (settledCount_congr hbit.1 x), fun hmem => ?_⟩
      have hmem := hpend hmem
      rw [hbit.2] at hmem
      cases hmem
  have hphase2 : (replayDescriptors env engaged records resolves batch).settledCount x = 0 := by
    show ((s.drain env 0).drainPhase2 env 0).settledCount x = 0
    unfold drainPhase2 runCompensations
    dsimp only
    generalize s.drain env 0 = t at hdrain ⊢
    have hclear (u : Process) (hu : u.marks = t.marks) : u.settledCount x = 0 :=
      (settledCount_congr hu x).trans hdrain.1
    split_ifs
    · exact hclear _ rfl
    · exact hclear _ ((foldl_strand_marks _ _).trans (poll_marks env _))
    · exact ((foldl_others (fun t e => compensate_settles env e t) hdrain.2 _ 0).1).trans
        (hclear _ (poll_marks env _))
  exact (settledCount_eq_zero.1 hphase2).2.1 hx

/-- What the batch starts, it rebuilt from one of its descriptors. -/
theorem rebuilt_of_started (engaged : Bool) (records : List WalRecord) (resolves : Call → Bool)
    (batch : List Descriptor) {x : Entry}
    (hx : x ∈ (replayDescriptors env engaged records resolves batch).marks.started) :
    ∃ d ∈ batch, rebuilt records resolves d = true ∧ x.kind = d.entry ∧
      x.undoIdempotent = d.undoIdempotent ∧ x.seq = some d.seq := by
  have hmem := replayDescriptors_started env engaged records resolves batch hx
  obtain ⟨p, hp, rfl⟩ := List.mem_map.1 hmem
  have hd : p.1 ∈
      (batch.insertionSort fun a b => a.seq ≤ b.seq).filter (rebuilt records resolves) :=
    List.fst_mem_of_mem_zipIdx hp
  obtain ⟨hbatch, hrebuilt⟩ := List.mem_filter.1 hd
  exact ⟨p.1, (List.perm_insertionSort _ batch).mem_iff.1 hbatch, hrebuilt, rfl, rfl, rfl⟩

/-- **The batch runs nothing the log has settled.** -/
theorem replayDescriptors_settled (engaged : Bool) (records : List WalRecord)
    (resolves : Call → Bool) (batch : List Descriptor) {n : Int}
    (hn : n ∈ settledDescriptorSeqs records) :
    ∀ x ∈ (replayDescriptors env engaged records resolves batch).marks.started,
      x.seq ≠ some n := by
  intro x hx hseq
  obtain ⟨d, -, hrebuilt, -, -, hdseq⟩ := rebuilt_of_started env engaged records resolves batch hx
  simp only [rebuilt, Bool.and_eq_true, decide_eq_true_eq] at hrebuilt
  obtain rfl : d.seq = n := Option.some.inj (hdseq.symm.trans hseq)
  exact hrebuilt.1.1.1 hn

/-- **Nor an undeclared inverse whose fence is in the log.** -/
theorem replayDescriptors_fenced (engaged : Bool) (records : List WalRecord)
    (resolves : Call → Bool) (batch : List Descriptor) {n : Int}
    (hn : some n ∈ replayFencesOf records) :
    ∀ x ∈ (replayDescriptors env engaged records resolves batch).marks.started,
      x.kind = .transactional → x.undoIdempotent = false → x.seq ≠ some n := by
  intro x hx hkind hundeclared hseq
  obtain ⟨d, -, hrebuilt, hdkind, hdundeclared, hdseq⟩ :=
    rebuilt_of_started env engaged records resolves batch hx
  obtain rfl : d.seq = n := Option.some.inj (hdseq.symm.trans hseq)
  simp [rebuilt, ← hdkind, hkind, ← hdundeclared, hundeclared, hn] at hrebuilt

/-! ## The record of an abort -/

/-- A loop over entries of several frames keeps the registry and the entries. -/
theorem foldl_aside {f : Process → Entry → Process} {l : List Entry}
    (hf : ∀ e ∈ l, ∀ t, Quiet e.frame t (f t e) ∧ Keeps t (f t e)) (s : Process) :
    (l.foldl f s).registry = s.registry ∧ (l.foldl f s).wal.isSome = s.wal.isSome ∧
      Traced s (l.foldl f s) ∧ Keeps s (l.foldl f s) := by
  induction l generalizing s with
  | nil => exact ⟨rfl, rfl, Traced.of_same rfl rfl, Keeps.refl s⟩
  | cons e l ih =>
    obtain ⟨hq, hk⟩ := hf e List.mem_cons_self s
    obtain ⟨hreg, hlog, htrace, hkeeps⟩ := ih (fun x hx => hf x (List.mem_cons_of_mem _ hx)) (f s e)
    exact ⟨hreg.trans hq.2, hlog.trans hq.1.log.1, hq.1.trace.trans htrace hq.1.log.1,
      hk.trans hkeeps⟩

/-- An inverse that ran to its end is named, whichever way it ran. -/
theorem mem_replayedSeqs {escrowed : List Entry} {s : Process} {e : Entry} {n : Int}
    (hmem : e ∈ escrowed ∨ ∃ i ∈ s.registry, e ∈ (s.frames i).transactional)
    (hstarted : e ∈ s.marks.started) (hraised : e ∉ s.raised) (hn : e.seq = some n) :
    n ∈ replayedSeqs escrowed s := by
  refine List.mem_filterMap.2 ⟨e, List.mem_filter.2 ⟨?_, by simp [hstarted, hraised]⟩, hn⟩
  rcases hmem with hmem | ⟨i, hi, hmem⟩
  · exact List.mem_append_left _ hmem
  · exact List.mem_append_right _ (List.mem_flatMap.2 ⟨i, hi, hmem⟩)

theorem finalizeAbort_names {s : Process} (hwal : s.wal.isSome = true) :
    Traced s (s.finalizeAbort env) ∧
      ∀ e, e.kind = .transactional →
        (e ∈ s.escrow ∨ ∃ i ∈ s.registry, e ∈ (s.frames i).transactional) →
        e ∈ (s.finalizeAbort env).marks.started → e ∉ (s.finalizeAbort env).raised →
        ∀ n, e.seq = some n → n ∈ abortedOf (s.finalizeAbort env).records := by
  let escrow := Process.newestFirst s.escrow
  obtain ⟨hreg₁, hlog₁, htrace₁, hk₁⟩ := foldl_aside (f := fun s e => dispose env e s)
    (l := inverses escrow)
    (fun e _ t => ⟨quiet_dispose env e t, (dispose_settles env e t).keeps⟩) s
  let u := (inverses escrow).foldl (fun s e => dispose env e s) s
  obtain ⟨hreg₂, hlog₂, htrace₂, hk₂⟩ := foldl_aside (f := offset env) (l := offsets escrow)
    (fun e he t => ⟨quiet_recordRaise env (quiet_runPhase2 env (mem_offsets.1 he).2 t),
      (offset_attempt env e t).keeps⟩) u
  let v : Process := { (offsets escrow).foldl (offset env) u with escrow := [] }
  let named := (replayedSeqs (inverses escrow) v).dedup.insertionSort (· ≤ ·)
  have hfinal : s.finalizeAbort env = v.append (.aborted named) := rfl
  have hv : v.wal.isSome = true := hlog₂.trans (hlog₁.trans hwal)
  have htrace : Traced s v := htrace₁.trans ⟨htrace₂.records, htrace₂.fenced⟩ hlog₁
  have hrecords := records_append (.aborted named) hv
  rw [hfinal]
  refine ⟨htrace.trans (quiet_append 0 rfl v).1.trace (hv.trans hwal.symm), ?_⟩
  intro e hkind hmem hstarted hraised n hn
  rw [hrecords, abortedOf, List.flatMap_append]
  refine List.mem_append_right _ ?_
  have hnamed : n ∈ replayedSeqs (inverses escrow) v := by
    refine mem_replayedSeqs (hmem.imp (fun he => ?_) ?_) hstarted hraised hn
    · exact mem_inverses.2 ⟨(newestFirst_perm _).symm.subset he, hkind⟩
    · rintro ⟨i, hi, he⟩
      have hregistry : v.registry = s.registry := hreg₂.trans hreg₁
      have hentries : (v.frames i).transactional = (s.frames i).transactional :=
        (hk₁.trans hk₂).transactional i
      exact ⟨i, hregistry ▸ hi, hentries ▸ he⟩
  have hsorted : n ∈ named := (List.mem_insertionSort (· ≤ ·)).2 (List.mem_dedup.2 hnamed)
  exact List.mem_flatMap.2 ⟨_, List.mem_singleton_self _, hsorted⟩

/-- What an abort leaves in the log for an inverse it started. -/
theorem Open.abort_logged {s : Process} (h : Open s) (hwal : s.wal.isSome = true)
    {order : List Nat} (horder : order.Perm s.registry) :
    descriptorsOf (s.abortSession env order).records = descriptorsOf s.records ∧
      ∀ e ∈ s.nameable, e.kind = .transactional →
        e ∈ (s.abortSession env order).marks.started →
        Fenced (s.abortSession env order) e ∧
          (e ∉ (s.abortSession env order).raised → ∀ n, e.seq = some n →
            n ∈ abortedOf (s.abortSession env order).records) := by
  have hbegun := h.begun
  have hcas := h.cascaded env horder
  let u := s.beginAbort.cascade env order
  have hlog : u.wal.isSome = true := hcas.log.trans ((congrArg Option.isSome hbegun.wal).trans hwal)
  have hfin := finalizeAbort_names env (s := u) hlog
  have hbegin : Traced s s.beginAbort :=
    Traced.of_same (congrArg Marks.started hbegun.marks) hbegun.wal
  have hbeginlog : s.beginAbort.wal.isSome = s.wal.isSome := congrArg Option.isSome hbegun.wal
  have htrace : Traced s (s.abortSession env order) :=
    (hbegin.trans hcas.trace hbeginlog).trans hfin.1 (hcas.log.trans hbeginlog)
  refine ⟨htrace.descriptors, fun e he hkind hstarted => ⟨?_, fun hraised n hn => ?_⟩⟩
  · refine htrace.fenced hwal e hstarted ?_
    rw [h.marks]
    exact List.not_mem_nil
  · refine hfin.2 e hkind ?_ hstarted hraised n hn
    by_cases hr : e.frame ∈ s.registry
    · refine Or.inr ⟨e.frame, ?_, ?_⟩
      · rw [hcas.registry, hbegun.registry]
        exact hr
      · have hmem := (h.ready hr).complete e |>.2 (h.live_entry he hr)
        rw [hcas.same.transactional, hbegun.same.transactional]
        refine (List.mem_append.1 hmem).resolve_right fun hcomp => ?_
        have hoffset := h.kinds e.frame hr e hcomp
        rw [hkind] at hoffset
        cases hoffset
    · refine Or.inl ?_
      rw [hcas.escrow, hbegun.escrow]
      exact h.mem_escrow.2 ⟨he, hr⟩

theorem abortSession_nameable {s : Process} (h : Open s) {order : List Nat}
    (horder : order.Perm s.registry) : (s.abortSession env order).nameable = s.nameable := by
  let u := s.beginAbort.cascade env order
  have hfirst := keeps_foldl (fun t e => (dispose_settles env e t).keeps)
    (inverses (Process.newestFirst u.escrow)) u
  have hsecond := keeps_foldl (fun t e => (offset_attempt env e t).keeps)
    (offsets (Process.newestFirst u.escrow))
    ((inverses (Process.newestFirst u.escrow)).foldl (fun s e => dispose env e s) u)
  have hsame := (h.begun.same.trans (h.cascaded env horder).same).trans (hfirst.trans hsecond).same
  exact hsame.nameable

/-- A log that carries the records of a process, among others: the other descriptors have seqs of
their own. -/
structure Carried (s : Process) (records : List WalRecord) : Prop where
  kept : ∀ r ∈ s.records, r ∈ records
  others : ∀ d ∈ descriptorsOf records, d ∈ descriptorsOf s.records ∨
    ∀ e ∈ s.nameable, e.seq ≠ some d.seq

theorem mem_abortedOf {records : List WalRecord} {n : Int} :
    n ∈ abortedOf records ↔ ∃ seqs, WalRecord.aborted seqs ∈ records ∧ n ∈ seqs := by
  unfold abortedOf
  rw [List.mem_flatMap]
  constructor
  · rintro ⟨r, hr, hn⟩
    cases r with
    | aborted seqs => exact ⟨seqs, hr, hn⟩
    | _ => cases hn
  · rintro ⟨seqs, hr, hn⟩
    exact ⟨_, hr, hn⟩

end Process

open Process

/-- **What a completed abort undid stays undone.** An inverse whose body returned normally is
named by the abort's record. Recovery without a composition binding is not handed it again unless
it was declared idempotent or is a read; with one, `replay_descriptors` runs no body under its
seq, whatever batch it is given. -/
theorem abort_final (env : Env) (ops : List SessionOp) (order : List Nat)
    (horder : order.Perm (runSession env true ops).registry)
    (hgo : (runSession env true ops).halted = false) (wal : Recovery.Wal)
    (hwal : Carried ((runSession env true ops).abortSession env order) wal.records) {e : Entry}
    (he : e ∈ (runSession env true ops).nameable) (hkind : e.kind = .transactional)
    (hstarted : e ∈ ((runSession env true ops).abortSession env order).marks.started)
    (hraised : e ∉ ((runSession env true ops).abortSession env order).raised) {n : Int}
    (hn : e.seq = some n) :
    n ∈ abortedOf wal.records ∧
      (∀ w : World, w.replaysDescriptors = false → ∀ strength basis,
        ∀ event ∈ (Recovery.recover w strength basis wal).trace,
          Recovery.appliesUndeclared n event = false) ∧
      ∀ env' engaged resolves batch,
        ∀ x ∈ (replayDescriptors env' engaged wal.records resolves batch).marks.started,
          x.seq ≠ some n := by
  obtain ⟨hopen, hlog⟩ := open_runSession env true ops hgo
  generalize runSession env true ops = s at *
  obtain ⟨hdescriptors, hall⟩ := hopen.abort_logged env hlog horder
  obtain ⟨hfenced, hnamed⟩ := hall e he hkind hstarted
  have haborted : n ∈ abortedOf wal.records := by
    obtain ⟨seqs, hmem, hin⟩ := mem_abortedOf.1 (hnamed hraised n hn)
    exact mem_abortedOf.2 ⟨seqs, hwal.kept _ hmem, hin⟩
  refine ⟨haborted, fun w hbinding strength basis => ?_, fun env' engaged resolves batch => ?_⟩
  · refine Recovery.recover_spares hbinding strength basis wal fun d hd hseq htier => ?_
    have hdmem : d ∈ descriptorsOf wal.records := (List.mem_filter.1 hd).1
    have hundeclared : e.undoIdempotent = false := by
      rcases hwal.others d hdmem with hmine | hother
      · -- the log describes the entry as it was registered
        rw [hdescriptors] at hmine
        have hsame := (hopen.logged.described d hmine).2 e he (hseq ▸ hn)
        rw [← hsame.2.2]
        by_contra hdeclared
        rw [Bool.not_eq_false] at hdeclared
        unfold replayTier at htier
        rw [hdeclared] at htier
        split at htier
        · cases htier
        · cases htier
      · refine absurd hn (hseq ▸ hother e ?_)
        rw [abortSession_nameable env hopen horder]
        exact he
    exact Recovery.mem_replayFencesOf.2 (hwal.kept _ (hfenced hkind hundeclared n hn))
  · exact replayDescriptors_settled env' engaged wal.records resolves batch
      (List.mem_append_right _ haborted)

/-! ## What is run again -/

/-- One activation with one entry, and an abort. -/
def undone (r : Registration) : Process :=
  (runSession (quietEnv false) true [.newFrame "Vault", .register 0 .body r]).abortSession
    (quietEnv false) [0]

/-- The log it left. -/
def undoneWal (r : Registration) : Recovery.Wal := ⟨(undone r).records, false, fun _ => []⟩

/-- The entry it undid. -/
def undoneEntry (r : Registration) : Entry := ⟨0, 0, r.kind, r.call, r.undoIdempotent, some 0⟩

def undeclaredInverse : Registration := { someInverse with undoIdempotent := false }

theorem abort_final_undeclared :
    (0 : Int) ∈ abortedOf (undoneWal undeclaredInverse).records ∧
      (∀ w : World, w.replaysDescriptors = false → ∀ strength basis,
        ∀ event ∈ (Recovery.recover w strength basis (undoneWal undeclaredInverse)).trace,
          Recovery.appliesUndeclared 0 event = false) ∧
      ∀ env' engaged resolves batch,
        ∀ x ∈ (replayDescriptors env' engaged (undoneWal undeclaredInverse).records resolves
            batch).marks.started,
          x.seq ≠ some 0 :=
  abort_final (quietEnv false) [.newFrame "Vault", .register 0 .body undeclaredInverse] [0]
    (by decide) (by decide) (undoneWal undeclaredInverse) ⟨fun _ hr => hr, fun _ hd => Or.inl hd⟩
    (e := undoneEntry undeclaredInverse) (by decide) (by decide) (by decide) (by decide) rfl

/-- The entry's body returned normally in an abort that completed. -/
def ReturnedNormally (r : Registration) : Prop :=
  undoneEntry r ∈ (undone r).marks.started ∧ undoneEntry r ∉ (undone r).raised ∧
    (undone r).halted = false

/-- A declared inverse that returned normally in a completed abort is applied again by recovery,
and a compensation is issued again. -/
theorem not_abort_final_declared :
    (ReturnedNormally someInverse ∧
      .applyInverse (.transactional 0 .free) someInverse.call ∈
        (Recovery.recover Recovery.dictWorld none .wholeProcess (undoneWal someInverse)).trace) ∧
    ReturnedNormally someOffset ∧
      .applyCompensation someOffset.call ∈
        (Recovery.recover Recovery.dictWorld none .wholeProcess (undoneWal someOffset)).trace := by
  unfold ReturnedNormally
  decide

end Revl.Runtime
