import Revl.Runtime.Session

/-!
# The abort of a session

- `Standing`: a live frame with every entry still to be disposed; `Open` says what holds of a
  session before its verdict.
- `open_runSession`: every run of registrations and withdrawals stays open.
- `cascade_spec`, `finalizeAbort_spec`: the two halves of an abort.
- `abort_spec`: **which inverses an abort starts, and in which order**.
-/

namespace Revl.Runtime

open Recovery (EntryKind WalRecord descriptorsOf)

namespace Process

variable (env : Env)

/-! ## An open session -/

/-- What a frame alone says of an activation none of whose entries was disposed. -/
structure Standing (i : Nat) (s : Process) : Prop where
  nodup : (s.undisposed i).Nodup
  complete : ∀ e, e ∈ s.entries i ↔ e ∈ s.undisposed i
  frame : ∀ e ∈ s.undisposed i, e.frame = i
  inverses : ∀ e ∈ (s.frames i).deferredTransactional, e.kind = .transactional
  offsets : ∀ e ∈ (s.frames i).deferredCompensations, e.kind = .compensation
  pending : (s.frames i).pendingCompensations = []
  holding : (s.frames i).holding = false

theorem Ready.standing {i : Nat} {s : Process} (h : Ready i s) : Standing i s :=
  ⟨h.nodup, h.complete, h.frame, h.inverses, h.offsets, h.pending, h.holding⟩

/-- A frame standing elsewhere still stands, whichever way its `aborting` bit is. -/
theorem Standing.transfer {i : Nat} {s t : Process} (h : Standing i s) {b : Bool}
    (hf : t.frames i = { s.frames i with aborting := b }) : Standing i t := by
  have hu : t.undisposed i = s.undisposed i := by
    unfold undisposed
    rw [hf]
  have he : t.entries i = s.entries i := by
    unfold entries
    rw [hf]
  exact
    { nodup := hu ▸ h.nodup
      complete := he ▸ hu ▸ h.complete
      frame := hu ▸ h.frame
      inverses := hf ▸ h.inverses
      offsets := hf ▸ h.offsets
      pending := hf ▸ h.pending
      holding := hf ▸ h.holding }

theorem Standing.transfer_same {i : Nat} {s t : Process} (h : Standing i s)
    (hf : t.frames i = s.frames i) : Standing i t :=
  h.transfer (b := (s.frames i).aborting) hf

/-- A standing frame whose entries are fresh can be torn down. -/
theorem Standing.ready {i : Nat} {s : Process} (h : Standing i s) (hbuilt : i ∈ s.built)
    (hcommitted : (s.frames i).committed = false)
    (hfresh : ∀ e ∈ s.undisposed i, s.settledCount e = 0) (hinv : Inventory s) : Ready i s :=
  { built := hbuilt
    nodup := h.nodup
    registered := fun e he => (h.complete e).2 he
    complete := h.complete
    frame := h.frame
    inverses := h.inverses
    offsets := h.offsets
    pending := h.pending
    committed := hcommitted
    holding := h.holding
    fresh := hfresh
    inventory := hinv }

/-- The stamps and the keys of the entries in the process. -/
structure Stamped (s : Process) : Prop where
  below : ∀ e ∈ s.nameable, e.stamp < s.nextStamp
  distinct : ∀ e ∈ s.nameable, ∀ x ∈ s.nameable, e.stamp = x.stamp → e = x
  bound : ∀ e ∈ s.nameable, seqKey e ≤ if s.wal.isSome then s.nextSeq else 0
  monotone : ∀ e ∈ s.nameable, ∀ x ∈ s.nameable, e.stamp < x.stamp → seqKey e ≤ seqKey x

/-- The seqs in the process, and what the log says of them. -/
structure Logged (s : Process) : Prop where
  given : ∀ e ∈ s.nameable, ∀ n, e.seq = some n → n < s.nextSeq
  described : ∀ d ∈ descriptorsOf s.records, d.seq < s.nextSeq ∧
    ∀ e ∈ s.nameable, e.seq = some d.seq →
      d.entry = e.kind ∧ d.call = e.call ∧ d.undoIdempotent = e.undoIdempotent

/-- Each of the two lists of inverses stands in the order of registration. -/
def Sorted (f : Frame) : Prop :=
  f.stack.Pairwise (·.stamp < ·.stamp) ∧ f.deferredTransactional.Pairwise (·.stamp < ·.stamp)

/-- A session before its verdict. -/
structure Open (s : Process) : Prop where
  built : s.built = List.range s.built.length
  registry : s.registry.Nodup
  owned : s.owned = true
  verdict : s.verdict = none
  committed : ∀ i, (s.frames i).committed = false
  live : ∀ i ∈ s.registry, i ∈ s.built ∧ Standing i s ∧ (s.frames i).aborting = false
  sorted : ∀ i ∈ s.registry, Sorted (s.frames i)
  kinds : ∀ i ∈ s.registry, ∀ e ∈ (s.frames i).compensations, e.kind = .compensation
  withdrawn : ∀ i ∈ s.built, i ∉ s.registry → ∀ e ∈ s.entries i, e ∈ s.escrow
  marks : s.marks = ⟨[], [], [], s.escrow⟩
  escrowed : ∀ e ∈ s.escrow, e.frame ∈ s.built ∧ e.frame ∉ s.registry ∧ e ∈ s.entries e.frame
  escrow : s.escrow.Nodup
  stamped : Stamped s
  logged : Logged s
  inventory : Inventory s

theorem mem_nameable {s : Process} {e : Entry} :
    e ∈ s.nameable ↔ ∃ i ∈ s.built, e ∈ s.entries i :=
  List.mem_flatMap

namespace Open

variable {s : Process} (h : Open s)

include h

/-- An entry that is not in the escrow has no disposition yet. -/
theorem settledCount {e : Entry} (he : e ∉ s.escrow) : s.settledCount e = 0 := by
  rw [settledCount_eq_zero, h.marks]
  exact ⟨List.not_mem_nil, List.not_mem_nil, List.not_mem_nil, he⟩

theorem not_escrowed {i : Nat} (hi : i ∈ s.registry) {e : Entry} (he : e.frame = i) :
    e ∉ s.escrow :=
  fun hmem => (h.escrowed e hmem).2.1 (he ▸ hi)

theorem ready {i : Nat} (hi : i ∈ s.registry) : Ready i s :=
  have ⟨hbuilt, hstand, _⟩ := h.live i hi
  hstand.ready hbuilt (h.committed i)
    (fun e he => h.settledCount (h.not_escrowed hi (hstand.frame e he))) h.inventory

theorem registering {i : Nat} (hi : i ∈ s.registry) : Registering i s where
  toReady := h.ready hi
  stamps e he hle := by
    refine ⟨fun hmem => ?_, h.settledCount (h.not_escrowed hi he)⟩
    have hname := (h.ready hi).nameable hmem
    have := h.stamped.below e hname
    omega

end Open

theorem open_newSession (log : Bool) : Open (newSession log) where
  built := rfl
  registry := List.nodup_nil
  owned := rfl
  verdict := rfl
  committed _ := rfl
  live _ hi := by cases hi
  sorted _ hi := by cases hi
  kinds _ hi := by cases hi
  withdrawn _ hi := by cases hi
  marks := rfl
  escrowed _ he := by cases he
  escrow := List.nodup_nil
  stamped :=
    ⟨fun _ he => (List.not_mem_nil he).elim, fun _ he => (List.not_mem_nil he).elim,
      fun _ he => (List.not_mem_nil he).elim, fun _ he => (List.not_mem_nil he).elim⟩
  logged := ⟨fun _ he => (List.not_mem_nil he).elim, fun _ hd => by cases log <;> cases hd⟩
  inventory := ⟨List.nodup_nil, fun hh => by cases hh⟩

theorem open_poll {s : Process} (h : Open s) : Open (s.poll env) := by
  have hinv := (keeps_poll env s).inventory h.inventory
  obtain ⟨_, _, _, _, heq⟩ := poll_eq env s
  rw [heq] at hinv ⊢
  exact
    { built := h.built
      registry := h.registry
      owned := h.owned
      verdict := h.verdict
      committed := h.committed
      live := fun i hi =>
        have ⟨hb, hs, ha⟩ := h.live i hi
        ⟨hb, hs.transfer_same rfl, ha⟩
      sorted := h.sorted
      kinds := h.kinds
      withdrawn := h.withdrawn
      marks := h.marks
      escrowed := h.escrowed
      escrow := h.escrow
      stamped := ⟨h.stamped.below, h.stamped.distinct, h.stamped.bound, h.stamped.monotone⟩
      logged := ⟨h.logged.given, h.logged.described⟩
      inventory := hinv }

/-- The stamps depend on the entries, the counters and the log. -/
theorem Stamped.transfer {s t : Process} (h : Stamped s) (hname : ∀ e, e ∈ t.nameable ↔ e ∈ s.nameable)
    (hstamp : t.nextStamp = s.nextStamp) (hlog : t.wal.isSome = s.wal.isSome ∧ t.nextSeq = s.nextSeq) :
    Stamped t where
  below e he := hstamp ▸ h.below e ((hname e).1 he)
  distinct e he x hx := h.distinct e ((hname e).1 he) x ((hname x).1 hx)
  bound e he := by
    rw [hlog.1, hlog.2]
    exact h.bound e ((hname e).1 he)
  monotone e he x hx := h.monotone e ((hname e).1 he) x ((hname x).1 hx)

theorem Logged.transfer {s t : Process} (h : Logged s) (hname : ∀ e, e ∈ t.nameable ↔ e ∈ s.nameable)
    (hseq : t.nextSeq = s.nextSeq) (hlog : descriptorsOf t.records = descriptorsOf s.records) :
    Logged t where
  given e he := hseq ▸ h.given e ((hname e).1 he)
  described d hd := by
    rw [hlog] at hd
    obtain ⟨hlt, hall⟩ := h.described d hd
    exact ⟨hseq ▸ hlt, fun e he => hall e ((hname e).1 he)⟩

theorem Traced.descriptors {s t : Process} (h : Traced s t) :
    descriptorsOf t.records = descriptorsOf s.records := by
  obtain ⟨m, hm, hd⟩ := h.records
  rw [hm, descriptorsOf, List.filterMap_append]
  exact (congrArg _ hd).trans (List.append_nil _)

theorem open_newFrame {s : Process} (h : Open s) (name : String) : Open (s.newFrame name) := by
  let n := s.built.length
  let t := s.newFrame name
  have hnew : ∀ i ∈ s.built, i ≠ n := by
    intro i hi
    rw [h.built, List.mem_range] at hi
    exact Nat.ne_of_lt hi
  have hreg : ∀ i ∈ s.registry, i ≠ n := fun i hi => hnew i (h.live i hi).1
  have hself : t.frames n = Frame.new name := Function.update_self ..
  have helse : ∀ i, i ≠ n → t.frames i = s.frames i := fun i hi => Function.update_of_ne hi ..
  have hempty : t.entries n = [] := by
    unfold entries
    rw [hself]
    rfl
  have hentries : ∀ i, i ≠ n → t.entries i = s.entries i := by
    intro i hi
    unfold entries
    rw [helse i hi]
  have hname : ∀ e, e ∈ t.nameable ↔ e ∈ s.nameable := by
    intro e
    rw [mem_nameable, mem_nameable]
    constructor
    · rintro ⟨i, hi, he⟩
      rcases List.mem_append.1 hi with hi | hi
      · exact ⟨i, hi, hentries i (hnew i hi) ▸ he⟩
      · rw [List.mem_singleton.1 hi, hempty] at he
        cases he
    · rintro ⟨i, hi, he⟩
      exact ⟨i, List.mem_append_left _ hi, (hentries i (hnew i hi)).symm ▸ he⟩
  exact
    { built := by
        show s.built ++ [n] = List.range (s.built ++ [n]).length
        rw [List.length_append, List.length_singleton, List.range_succ, ← h.built]
      registry := List.nodup_append.2 ⟨h.registry, List.nodup_singleton n, fun i hi j hj hij =>
        hreg i hi (hij.trans (List.mem_singleton.1 hj))⟩
      owned := h.owned
      verdict := h.verdict
      committed := fun i => by
        by_cases hi : i = n
        · subst hi
          exact (congrArg Frame.committed hself)
        · exact (congrArg Frame.committed (helse i hi)).trans (h.committed i)
      live := fun i hi => by
        rcases List.mem_append.1 hi with hi | hi
        · obtain ⟨hb, hs, ha⟩ := h.live i hi
          have hsame := helse i (hreg i hi)
          exact ⟨List.mem_append_left _ hb, hs.transfer_same hsame,
            (congrArg Frame.aborting hsame).trans ha⟩
        · rw [List.mem_singleton.1 hi]
          have hnone : t.undisposed n = [] := by
            unfold undisposed
            rw [hself]
            rfl
          refine ⟨List.mem_append_right _ (List.mem_singleton_self n), ?_, congrArg Frame.aborting hself⟩
          exact
            { nodup := hnone ▸ List.nodup_nil
              complete := fun e => by
                show e ∈ t.entries n ↔ e ∈ t.undisposed n
                rw [hempty, hnone]
              frame := fun e he => (List.not_mem_nil (hnone ▸ he)).elim
              inverses := fun e he => (List.not_mem_nil (hself ▸ he)).elim
              offsets := fun e he => (List.not_mem_nil (hself ▸ he)).elim
              pending := congrArg Frame.pendingCompensations hself
              holding := congrArg Frame.holding hself }
      sorted := fun i hi => by
        show Sorted (t.frames i)
        rcases List.mem_append.1 hi with hi | hi
        · rw [helse i (hreg i hi)]
          exact h.sorted i hi
        · rw [List.mem_singleton.1 hi, hself]
          exact ⟨List.Pairwise.nil, List.Pairwise.nil⟩
      kinds := fun i hi => by
        show ∀ e ∈ (t.frames i).compensations, e.kind = .compensation
        rcases List.mem_append.1 hi with hi | hi
        · rw [helse i (hreg i hi)]
          exact h.kinds i hi
        · rw [List.mem_singleton.1 hi, hself]
          exact fun _ he => (List.not_mem_nil he).elim
      withdrawn := fun i hi hout e he => by
        have hin : i ≠ n := fun hin => hout (hin ▸ List.mem_append_right _ (List.mem_singleton_self n))
        rcases List.mem_append.1 hi with hi | hi
        · exact h.withdrawn i hi (fun hr => hout (List.mem_append_left _ hr)) e (hentries i hin ▸ he)
        · exact absurd (List.mem_singleton.1 hi) hin
      marks := h.marks
      escrowed := fun e he => by
        obtain ⟨hb, hr, hmem⟩ := h.escrowed e he
        have hne := hnew e.frame hb
        refine ⟨List.mem_append_left _ hb, fun hreg => ?_, (hentries _ hne).symm ▸ hmem⟩
        rcases List.mem_append.1 hreg with hreg | hreg
        · exact hr hreg
        · exact hne (List.mem_singleton.1 hreg)
      escrow := h.escrow
      stamped := h.stamped.transfer hname rfl ⟨rfl, rfl⟩
      logged := h.logged.transfer hname rfl rfl
      inventory := ⟨h.inventory.1, fun hh e he => h.inventory.2 hh e ((hname e).1 he)⟩ }

theorem seqKey_newEntry (i : Nat) (r : Registration) (s : Process) :
    seqKey (s.newEntry i r) = if s.wal.isSome then s.nextSeq else 0 := by
  unfold seqKey newEntry
  cases s.wal <;> rfl

/-- A registration takes the next stamp and the next seq. -/
theorem Stamped.register {s t : Process} (h : Stamped s) {i : Nat} {r : Registration}
    (hname : ∀ e, e ∈ t.nameable ↔ e = s.newEntry i r ∨ e ∈ s.nameable)
    (hstamp : t.nextStamp = s.nextStamp + 1) (hwal : t.wal.isSome = s.wal.isSome)
    (hseq : t.nextSeq = if s.wal.isSome then s.nextSeq + 1 else s.nextSeq) : Stamped t := by
  have hkey := seqKey_newEntry i r s
  have hnew : (s.newEntry i r).stamp = s.nextStamp := rfl
  refine ⟨fun e he => ?_, fun e he x hx heq => ?_, fun e he => ?_, fun e he x hx hlt => ?_⟩
  · rcases (hname e).1 he with rfl | he
    · omega
    · have := h.below e he
      omega
  · rcases (hname e).1 he with rfl | he <;> rcases (hname x).1 hx with rfl | hx
    · rfl
    · have := h.below x hx
      omega
    · have := h.below e he
      omega
    · exact h.distinct e he x hx heq
  · rw [hwal, hseq]
    rcases (hname e).1 he with rfl | he
    · rw [hkey]
      split <;> omega
    · have := h.bound e he
      split at this
      · rw [if_pos ‹_›, if_pos ‹_›]
        omega
      · rwa [if_neg ‹_›]
  · rcases (hname e).1 he with rfl | he <;> rcases (hname x).1 hx with rfl | hx
    · omega
    · have := h.below x hx
      omega
    · rw [hkey]
      exact h.bound e he
    · exact h.monotone e he x hx hlt

/-- A registration writes the descriptor of its entry. -/
theorem Logged.register {s t : Process} (h : Logged s) {i : Nat} {r : Registration}
    (hname : ∀ e, e ∈ t.nameable ↔ e = s.newEntry i r ∨ e ∈ s.nameable)
    (hwal : t.wal = s.wal.map (· ++ [descriptor (s.frames i) r s.nextSeq]))
    (hseq : t.nextSeq = if s.wal.isSome then s.nextSeq + 1 else s.nextSeq) : Logged t := by
  cases hw : s.wal with
  | none =>
    rw [hw] at hwal hseq
    have hnew : (s.newEntry i r).seq = none := by simp [newEntry, hw]
    have hrec : t.records = s.records := by simp [records, hwal, hw]
    have hseq : t.nextSeq = s.nextSeq := hseq
    refine ⟨fun e he n hn => ?_, fun d hd => ?_⟩
    · rcases (hname e).1 he with rfl | he
      · rw [hnew] at hn
        cases hn
      · exact hseq ▸ h.given e he n hn
    · rw [hrec] at hd
      obtain ⟨hlt, hall⟩ := h.described d hd
      refine ⟨hseq ▸ hlt, fun e he hn => ?_⟩
      rcases (hname e).1 he with rfl | he
      · rw [hnew] at hn
        cases hn
      · exact hall e he hn
  | some l =>
    rw [hw] at hwal hseq
    have hnew : (s.newEntry i r).seq = some s.nextSeq := by simp [newEntry, hw]
    have hrec : t.records = s.records ++ [descriptor (s.frames i) r s.nextSeq] := by
      simp [records, hwal, hw]
    have hseq : t.nextSeq = s.nextSeq + 1 := hseq
    refine ⟨fun e he n hn => ?_, fun d hd => ?_⟩
    · rcases (hname e).1 he with rfl | he
      · rw [hnew] at hn
        obtain rfl := Option.some.inj hn
        omega
      · have := h.given e he n hn
        omega
    · rw [hrec, descriptorsOf, List.filterMap_append, List.mem_append] at hd
      rcases hd with hd | hd
      · obtain ⟨hlt, hall⟩ := h.described d hd
        refine ⟨by omega, fun e he hn => ?_⟩
        rcases (hname e).1 he with rfl | he
        · rw [hnew] at hn
          have := Option.some.inj hn
          omega
        · exact hall e he hn
      · -- the descriptor this registration wrote
        obtain rfl := List.mem_singleton.1 hd
        refine ⟨by show s.nextSeq < _; omega, fun e he hn => ?_⟩
        rcases (hname e).1 he with rfl | he
        · exact ⟨rfl, rfl, rfl⟩
        · have hlt := h.given e he _ hn
          exact absurd hlt (Int.lt_irrefl _)

/-- What joins the lists last is the newest. -/
theorem Sorted.push {f : Frame} (h : Sorted f) (seam : Seam) {e : Entry}
    (hstack : ∀ x ∈ f.stack, x.stamp < e.stamp)
    (hparked : ∀ x ∈ f.deferredTransactional, x.stamp < e.stamp) : Sorted (Frame.push seam e f) := by
  have hlast {l : List Entry} (hl : l.Pairwise (·.stamp < ·.stamp))
      (hx : ∀ x ∈ l, x.stamp < e.stamp) : (l ++ [e]).Pairwise (·.stamp < ·.stamp) :=
    List.pairwise_append.2 ⟨hl, List.pairwise_singleton _ e, fun x hxl y hy =>
      (List.mem_singleton.1 hy) ▸ hx x hxl⟩
  cases seam <;> cases hk : e.kind <;> simp only [Frame.push, hk, Sorted]
  · exact ⟨hlast h.1 hstack, h.2⟩
  · exact ⟨hlast h.1 hstack, h.2⟩
  · exact ⟨h.1, hlast h.2 hparked⟩
  · exact h

theorem push_kinds (seam : Seam) (e : Entry) {f : Frame}
    (h : ∀ x ∈ f.compensations, x.kind = .compensation) :
    ∀ x ∈ (Frame.push seam e f).compensations, x.kind = .compensation := by
  cases seam <;> cases hk : e.kind <;> simp only [Frame.push, hk]
  · exact h
  · exact List.forall_mem_append.2 ⟨h, fun x hx => (List.mem_singleton.1 hx) ▸ hk⟩
  · exact h
  · exact List.forall_mem_append.2 ⟨h, fun x hx => (List.mem_singleton.1 hx) ▸ hk⟩

theorem open_register {s : Process} (h : Open s) {i : Nat} (hi : i ∈ s.registry) (seam : Seam)
    (r : Registration) : Open (s.register env i seam r) := by
  have hp := open_poll env h
  have hreg := (h.registering hi).register env seam r
  have hipoll : i ∈ (s.poll env).registry := by rwa [(quiet_poll env i s).2]
  clear hi h
  unfold Process.register at hreg ⊢
  dsimp only at hreg ⊢
  by_cases hh : (s.poll env).halted = true
  · rw [if_pos hh]
    exact hp
  rw [if_neg hh] at hreg ⊢
  generalize s.poll env = p at hp hh hreg hipoll ⊢
  let e := p.newEntry i r
  let t : Process := { (p.updateFrame i (Frame.push seam e)).append
    (descriptor (p.frames i) r p.nextSeq) with
      nextStamp := p.nextStamp + 1
      nextSeq := if p.wal.isSome then p.nextSeq + 1 else p.nextSeq }
  have hself : t.frames i = Frame.push seam e (p.frames i) := updateFrame_self i _ p
  have helse : ∀ j, j ≠ i → t.frames j = p.frames j := fun j hj => Function.update_of_ne hj ..
  have hentries : ∀ j, j ≠ i → t.entries j = p.entries j := by
    intro j hj
    unfold entries
    rw [helse j hj]
  have hpush : (t.entries i).Perm (e :: p.entries i) := (push_undisposed seam e i p).2
  obtain ⟨-, hcommit, -, habort⟩ := push_flags seam e (p.frames i)
  obtain ⟨hbuilt, -, hnoabort⟩ := hp.live i hipoll
  have hname : ∀ x, x ∈ t.nameable ↔ x = e ∨ x ∈ p.nameable := by
    intro x
    rw [mem_nameable, mem_nameable]
    constructor
    · rintro ⟨j, hj, hx⟩
      by_cases hji : j = i
      · subst hji
        exact (List.mem_cons.1 (hpush.subset hx)).imp_right fun hx => ⟨j, hj, hx⟩
      · exact Or.inr ⟨j, hj, hentries j hji ▸ hx⟩
    · rintro (rfl | ⟨j, hj, hx⟩)
      · exact ⟨i, hbuilt, hpush.symm.subset List.mem_cons_self⟩
      · by_cases hji : j = i
        · subst hji
          exact ⟨j, hj, hpush.symm.subset (List.mem_cons_of_mem _ hx)⟩
        · exact ⟨j, hj, (hentries j hji).symm ▸ hx⟩
  exact
    { built := hp.built
      registry := hp.registry
      owned := hp.owned
      verdict := hp.verdict
      committed := fun j => by
        by_cases hji : j = i
        · subst hji
          exact (congrArg Frame.committed hself).trans (hcommit.trans (hp.committed j))
        · exact (congrArg Frame.committed (helse j hji)).trans (hp.committed j)
      live := fun j hj => by
        obtain ⟨hb, hs, ha⟩ := hp.live j hj
        by_cases hji : j = i
        · subst hji
          exact ⟨hb, hreg.toReady.standing, (congrArg Frame.aborting hself).trans (habort.trans ha)⟩
        · exact ⟨hb, hs.transfer_same (helse j hji), (congrArg Frame.aborting (helse j hji)).trans ha⟩
      sorted := fun j hj => by
        show Sorted (t.frames j)
        by_cases hji : j = i
        · subst hji
          have hbelow : ∀ x ∈ p.undisposed j, x.stamp < e.stamp :=
            fun x hx => hp.stamped.below x ((hp.ready hipoll).nameable hx)
          rw [hself]
          refine (hp.sorted j hj).push seam (fun x hx => hbelow x ?_) fun x hx => hbelow x ?_
          · exact List.mem_append_right _ (List.mem_reverse.2 hx)
          · exact List.mem_append_left _ (List.mem_append_left _ (List.mem_reverse.2 hx))
        · rw [helse j hji]
          exact hp.sorted j hj
      kinds := fun j hj => by
        show ∀ e ∈ (t.frames j).compensations, e.kind = .compensation
        by_cases hji : j = i
        · subst hji
          rw [hself]
          exact push_kinds seam e (hp.kinds j hj)
        · rw [helse j hji]
          exact hp.kinds j hj
      withdrawn := fun j hj hout x hx => by
        have hji : j ≠ i := fun hji => hout (hji ▸ hipoll)
        exact hp.withdrawn j hj hout x (hentries j hji ▸ hx)
      marks := hp.marks
      escrowed := fun x hx => by
        obtain ⟨hb, hr, hmem⟩ := hp.escrowed x hx
        have hne : x.frame ≠ i := fun hxi => hr (hxi ▸ hipoll)
        exact ⟨hb, hr, (hentries _ hne).symm ▸ hmem⟩
      escrow := hp.escrow
      stamped := by
        refine hp.stamped.register hname rfl ?_ rfl
        show (p.wal.map _).isSome = p.wal.isSome
        rw [Option.isSome_map]
      logged := hp.logged.register hname rfl rfl
      inventory := hreg.inventory }

theorem mem_held_congr {s t : Process} {e : Entry} (h : t.counts e = s.counts e) :
    e ∈ t.marks.held ↔ e ∈ s.marks.held := by
  simp only [counts, Prod.mk.injEq] at h
  rw [← List.count_pos_iff, ← List.count_pos_iff, h.2.2.2]

theorem held_count_le (s : Process) (e : Entry) : s.marks.held.count e ≤ s.settledCount e := by
  unfold settledCount
  omega

/-- A withdrawal moves the frame's entries into the escrow. -/
theorem open_unwind {s : Process} (h : Open s) {i : Nat} (hi : i ∈ s.registry)
    (hend : (s.unwind env i).halted = false) :
    Open (s.unwind env i) ∧ (s.unwind env i).wal.isSome = s.wal.isSome := by
  have hready := h.ready hi
  have hgo : (s.poll env).halted = false := by
    by_contra hh
    rw [Bool.not_eq_false] at hh
    have hhalt := (unwind_halted env hready.toParked hh).2.1
    rw [hend] at hhalt
    cases hhalt
  obtain ⟨hbuilt, hstand, habort⟩ := h.live i hi
  obtain ⟨htorn, hmarks, hcommit, hheld⟩ := unwind_withdraw env hready.toParked hgo h.owned h.verdict habort
  obtain ⟨hloc, hreg⟩ := unwind_local env hready.toParked hgo h.owned h.verdict habort
  generalize s.unwind env i = t at *
  have hlink : t.escrow = t.marks.held := hloc.linked (by rw [h.marks])
  have hout : i ∉ t.registry := by
    rw [hreg]
    exact h.registry.not_mem_erase
  have hsub : ∀ j ∈ t.registry, j ∈ s.registry := by
    rw [hreg]
    exact fun j hj => List.mem_of_mem_erase hj
  have hrest : ∀ j, j ≠ i → j ∉ t.registry → j ∉ s.registry := by
    intro j hj hjt hjs
    rw [hreg] at hjt
    exact hjt ((List.mem_erase_of_ne hj).2 hjs)
  have helsewhere : ∀ e : Entry, e.frame ≠ i → (e ∈ t.escrow ↔ e ∈ s.escrow) := by
    intro e he
    rw [hlink, mem_held_congr (hloc.counts e he), h.marks]
  -- an entry of this frame is held because it was to be disposed
  have hmine : ∀ e ∈ t.escrow, e.frame = i → e ∈ s.undisposed i := by
    intro e he hframe
    by_contra hnot
    have h0 := (htorn.others e hnot).trans (h.settledCount (h.not_escrowed hi hframe))
    exact (settledCount_eq_zero.1 h0).2.2.2 (hlink ▸ he)
  refine ⟨?_, hloc.log.1⟩
  exact
    { built := by
        rw [hloc.built]
        exact h.built
      registry := hreg ▸ h.registry.erase i
      owned := hloc.owned.trans h.owned
      verdict := hloc.verdict.trans h.verdict
      committed := fun j => by
        by_cases hji : j = i
        · exact hji ▸ hcommit
        · exact (congrArg Frame.committed (hloc.elsewhere j hji)).trans (h.committed j)
      live := fun j hj => by
        have hji : j ≠ i := fun hji => hout (hji ▸ hj)
        obtain ⟨hb, hs, ha⟩ := h.live j (hsub j hj)
        have hsame := hloc.elsewhere j hji
        exact ⟨hloc.built ▸ hb, hs.transfer_same hsame, (congrArg Frame.aborting hsame).trans ha⟩
      sorted := fun j hj => by
        rw [hloc.elsewhere j fun hji => hout (hji ▸ hj)]
        exact h.sorted j (hsub j hj)
      kinds := fun j hj => by
        rw [hloc.elsewhere j fun hji => hout (hji ▸ hj)]
        exact h.kinds j (hsub j hj)
      withdrawn := fun j hj hjt e he => by
        rw [htorn.same.entries] at he
        by_cases hji : j = i
        · subst hji
          exact hlink ▸ hheld e ((hready.complete e).1 he) hend
        · have hin := h.withdrawn j (hloc.built ▸ hj) (hrest j hji hjt) e he
          exact (helsewhere e fun hei => h.not_escrowed hi hei hin).2 hin
      marks := by
        rw [hmarks, h.marks, ← hlink]
      escrowed := fun e he => by
        rw [htorn.same.entries, hloc.built]
        by_cases hei : e.frame = i
        · have hmem := (hready.complete e).2 (hmine e he hei)
          rw [hei]
          exact ⟨hbuilt, hout, hmem⟩
        · obtain ⟨hb, hr, hmem⟩ := h.escrowed e ((helsewhere e hei).1 he)
          exact ⟨hb, fun hin => hr (hsub _ hin), hmem⟩
      escrow := by
        rw [hlink, List.nodup_iff_count_le_one]
        intro e
        have hle := held_count_le t e
        by_cases he : e ∈ s.undisposed i
        · rcases htorn.own e he with h1 | ⟨h0, -⟩ <;> omega
        · have hsettled : s.settledCount e = s.escrow.count e := by
            simp [Process.settledCount, h.marks]
          have hone := List.nodup_iff_count_le_one.1 h.escrow e
          have := htorn.others e he
          omega
      stamped := h.stamped.transfer (fun e => by rw [htorn.same.nameable]) hloc.nextStamp hloc.log
      logged := h.logged.transfer (fun e => by rw [htorn.same.nameable]) hloc.log.2
        hloc.trace.descriptors
      inventory := htorn.inventory }

theorem keeps_runCompensations (l : List Entry) (s : Process) :
    Keeps s (s.runCompensations env l) := by
  unfold runCompensations
  dsimp only
  split_ifs
  · exact Keeps.refl s
  · exact (keeps_poll env s).trans (keeps_foldl keeps_strand _ _)
  · exact (keeps_poll env s).trans (keeps_foldl (fun t e => (compensate_settles env e t).keeps) _ _)

theorem unwind_halts {s : Process} (i : Nat) (h : s.halted = true) :
    (s.unwind env i).halted = true := by
  have hdrain : (s.drain env i).halted = true := by
    unfold drain
    rw [poll_of_halted env h, if_pos h]
    show (List.foldl strand s _).halted = true
    rw [foldl_strand_halted, h]
  have hstack : ((s.drain env i).disposeStack env i).halted = true :=
    (keeps_foldl (fun t e => (guarded_settles env e t).keeps) _ _).halts hdrain
  unfold unwind begin_
  split
  · exact hstack
  · exact (keeps_runCompensations env _ _).halts hstack

/-- A halt stays. -/
theorem sessionStep_halts {s : Process} (op : SessionOp) (h : s.halted = true) :
    (sessionStep env s op).halted = true := by
  have hpoll : s.poll env = s := poll_of_halted env h
  cases op with
  | newFrame name => exact h
  | register i seam r =>
    rw [sessionStep]
    split
    · unfold Process.register
      dsimp only
      rw [hpoll, if_pos h]
      exact h
    · exact h
  | withdraw i =>
    rw [sessionStep]
    split
    · exact unwind_halts env i h
    · exact h

theorem open_sessionStep {s : Process} (h : Open s) (op : SessionOp)
    (hend : (sessionStep env s op).halted = false) :
    Open (sessionStep env s op) ∧ (sessionStep env s op).wal.isSome = s.wal.isSome := by
  cases op with
  | newFrame name => exact ⟨open_newFrame h name, rfl⟩
  | register i seam r =>
    rw [sessionStep]
    split
    · refine ⟨open_register env h ‹_› seam r, ?_⟩
      have hpoll := (quiet_poll env i s).1.log.1
      unfold Process.register
      dsimp only
      split
      · exact hpoll
      · show ((s.poll env).wal.map _).isSome = _
        rw [Option.isSome_map, hpoll]
    · exact ⟨h, rfl⟩
  | withdraw i =>
    rw [sessionStep] at hend ⊢
    split
    · rw [if_pos ‹_›] at hend
      exact open_unwind env h ‹_› hend
    · exact ⟨h, rfl⟩

/-- **Until a halt, every session is open**, and its log stays as it was. -/
theorem open_runSession (log : Bool) (ops : List SessionOp)
    (hend : (runSession env log ops).halted = false) :
    Open (runSession env log ops) ∧ (runSession env log ops).wal.isSome = log := by
  have hlog : (newSession log).wal.isSome = log := by cases log <;> rfl
  suffices hrun : ∀ s, Open s → s.wal.isSome = log →
      (ops.foldl (sessionStep env) s).halted = false →
        Open (ops.foldl (sessionStep env) s) ∧ (ops.foldl (sessionStep env) s).wal.isSome = log from
    hrun _ (open_newSession log) hlog hend
  clear hend hlog
  induction ops with
  | nil => exact fun _ hs hlog _ => ⟨hs, hlog⟩
  | cons op ops ih =>
    intro s hs hlog hend
    have hgo : (sessionStep env s op).halted = false := by
      by_contra hh
      rw [Bool.not_eq_false] at hh
      have hstay : ∀ l t, t.halted = true → (List.foldl (sessionStep env) t l).halted = true := by
        intro l
        induction l with
        | nil => exact fun _ ht => ht
        | cons o l ihl => exact fun t ht => ihl _ (sessionStep_halts env o ht)
      have hhalt := hstay ops _ hh
      rw [List.foldl_cons] at hend
      rw [hend] at hhalt
      cases hhalt
    obtain ⟨hopen, hsame⟩ := open_sessionStep env hs op hgo
    exact ih _ hopen (hsame.trans hlog) hend

/-! ## The abort -/

/-- The verdict, the host's cascade over the live frames, then the escrow. -/
def abortSession (order : List Nat) (s : Process) : Process :=
  (s.beginAbort.cascade env order).finalizeAbort env

def inverses (l : List Entry) : List Entry := l.filter (·.kind = .transactional)

def offsets (l : List Entry) : List Entry := l.filter (·.kind = .compensation)

theorem mem_inverses {l : List Entry} {e : Entry} :
    e ∈ inverses l ↔ e ∈ l ∧ e.kind = .transactional := by
  simp [inverses]

theorem mem_offsets {l : List Entry} {e : Entry} :
    e ∈ offsets l ↔ e ∈ l ∧ e.kind = .compensation := by
  simp [offsets]

theorem foldl_abort (l : List Nat) (s : Process) :
    l.foldl (fun s i => s.abort i) s = { s with
      frames := fun j => if j ∈ l then { s.frames j with aborting := true } else s.frames j } := by
  induction l generalizing s with
  | nil => simp
  | cons i l ih =>
    rw [List.foldl_cons, ih]
    have hframes : (fun j => if j ∈ l then { (s.abort i).frames j with aborting := true }
        else (s.abort i).frames j) = fun j =>
          if j ∈ i :: l then { s.frames j with aborting := true } else s.frames j := by
      funext j
      by_cases hji : j = i
      · subst hji
        simp [Process.abort, updateFrame_self]
      · simp [Process.abort, updateFrame, hji]
    rw [hframes]
    rfl

theorem beginAbort_eq (s : Process) : s.beginAbort = { s with
    verdict := some .abort
    frames := fun j => if j ∈ s.registry ++ s.escrow.map (·.frame) then
      { s.frames j with aborting := true } else s.frames j } :=
  foldl_abort _ _

theorem beginAbort_frames (s : Process) (i : Nat) :
    ∃ b, s.beginAbort.frames i = { s.frames i with aborting := b } ∧
      (i ∈ s.registry → b = true) := by
  rw [beginAbort_eq]
  dsimp only
  split
  · exact ⟨true, rfl, fun _ => rfl⟩
  · exact ⟨(s.frames i).aborting, rfl, fun hi => absurd (List.mem_append_left _ hi) ‹_›⟩

/-- A marked frame that can be torn down. -/
def Doomed (i : Nat) (s : Process) : Prop := Ready i s ∧ (s.frames i).aborting = true

/-- Tearing one frame down leaves the others as they were. -/
theorem Doomed.transfer {i j : Nat} {s t : Process} (h : Doomed j s) (hj : j ≠ i)
    (hq : Quiet i s t) (hinv : Inventory t) : Doomed j t := by
  have hf := hq.1.elsewhere j hj
  have hstand := h.1.standing.transfer_same hf
  have hu : t.undisposed j = s.undisposed j := by
    unfold undisposed
    rw [hf]
  refine ⟨hstand.ready (hq.1.built ▸ h.1.built) (hf ▸ h.1.committed) (fun e he => ?_) hinv,
    (congrArg Frame.aborting hf).trans h.2⟩
  have hcounts := hq.1.counts e fun hei => hj ((hstand.frame e he).symm.trans hei)
  simp only [counts, Prod.mk.injEq] at hcounts
  have h0 := h.1.fresh e (hu ▸ he)
  unfold settledCount at h0 ⊢
  omega

theorem cascade_halts {s : Process} (order : List Nat) (h : s.halted = true) :
    (s.cascade env order).halted = true := by
  unfold cascade
  induction order generalizing s with
  | nil => exact h
  | cons i order ih => exact ih (unwind_halts env i h)

/-- What the cascade of an abort did. -/
structure Cascaded (order : List Nat) (s t : Process) : Prop where
  started : t.halted = false → ∃ ran : Nat → List Entry,
    (∀ i ∈ order, (ran i).Sublist (offsets (s.undisposed i))) ∧
      t.marks.started = s.marks.started ++
        order.flatMap fun i => inverses (s.undisposed i) ++ ran i
  elsewhere : ∀ j, j ∉ order → t.frames j = s.frames j
  counts : ∀ e : Entry, e.frame ∉ order → t.counts e = s.counts e
  escrow : t.escrow = s.escrow
  registry : t.registry = s.registry
  verdict : t.verdict = s.verdict
  same : SameEntries s t
  trace : Traced s t
  log : t.wal.isSome = s.wal.isSome

/-- One frame of the cascade. -/
theorem Doomed.unwind {i : Nat} {s : Process} (h : Doomed i s) :
    Quiet i s (s.unwind env i) ∧ Torn i (s.undisposed i) s (s.unwind env i) ∧
      ((s.unwind env i).halted = false → ∃ ran, ran.Sublist (offsets (s.undisposed i)) ∧
        (s.unwind env i).marks.started =
          s.marks.started ++ (inverses (s.undisposed i) ++ ran)) := by
  obtain ⟨hready, habort⟩ := h
  by_cases hh : (s.poll env).halted = true
  · obtain ⟨htorn, hhalt, -⟩ := unwind_halted env hready.toParked hh
    refine ⟨unwind_quiet_halted env hh, htorn, fun hend => ?_⟩
    rw [hend] at hhalt
    cases hhalt
  · rw [Bool.not_eq_true] at hh
    obtain ⟨htorn, inv, offs, hstarted, -, hoffs, hall⟩ := unwind_abort env hready.toParked hh habort
    refine ⟨unwind_quiet env hready.toParked hh (Or.inr (Or.inr habort)), htorn, fun hend => ?_⟩
    have hinv : inv = inverses (s.undisposed i) := hall (Or.inl hend)
    exact ⟨offs, hoffs, by rw [hstarted, hinv, List.append_assoc]⟩

theorem cascade_spec {order : List Nat} (hn : order.Nodup) {s : Process}
    (hdoomed : ∀ i ∈ order, Doomed i s) (hverdict : s.verdict ≠ none) :
    Cascaded order s (s.cascade env order) := by
  induction order generalizing s with
  | nil =>
    exact
      { started := fun _ => ⟨fun _ => [], fun _ hi => (List.not_mem_nil hi).elim, by simp [cascade]⟩
        elsewhere := fun _ _ => rfl
        counts := fun _ _ => rfl
        escrow := rfl
        registry := rfl
        verdict := rfl
        same := ⟨fun _ => rfl, fun _ => rfl, rfl⟩
        trace := Traced.of_same rfl rfl
        log := rfl }
  | cons i order ih =>
    obtain ⟨hnot, hn⟩ := List.nodup_cons.1 hn
    obtain ⟨hq, htorn, hrun⟩ := (hdoomed i List.mem_cons_self).unwind env
    have hdoomed' : ∀ j ∈ order, Doomed j (s.unwind env i) := by
      intro j hj
      have hji : j ≠ i := fun hji => hnot (hji ▸ hj)
      exact (hdoomed j (List.mem_cons_of_mem _ hj)).transfer hji hq htorn.inventory
    have hrest := ih hn hdoomed' (by rwa [hq.1.verdict])
    have hsame : ∀ j ∈ order, (s.unwind env i).undisposed j = s.undisposed j := by
      intro j hj
      unfold undisposed
      rw [hq.1.elsewhere j fun hji => hnot (hji ▸ hj)]
    show Cascaded (i :: order) s ((s.unwind env i).cascade env order)
    exact
      { started := fun hend => by
          have hmid : (s.unwind env i).halted = false := by
            by_contra hh
            rw [Bool.not_eq_false] at hh
            rw [cascade_halts env order hh] at hend
            cases hend
          obtain ⟨offs, hoffs, hstarted⟩ := hrun hmid
          obtain ⟨ran, hran, htrace⟩ := hrest.started hend
          refine ⟨Function.update ran i offs, fun j hj => ?_, ?_⟩
          · by_cases hji : j = i
            · subst hji
              rw [Function.update_self]
              exact hoffs
            · have hj := (List.mem_cons.1 hj).resolve_left hji
              rw [Function.update_of_ne hji, ← hsame j hj]
              exact hran j hj
          · have htail : (order.flatMap fun j => inverses ((s.unwind env i).undisposed j) ++ ran j) =
                order.flatMap fun j =>
                  inverses (s.undisposed j) ++ Function.update ran i offs j := by
              refine List.flatMap_congr fun j hj => ?_
              rw [hsame j hj, Function.update_of_ne fun hji : j = i => hnot (hji ▸ hj)]
            rw [htrace, htail, hstarted, List.flatMap_cons, Function.update_self]
            simp only [List.append_assoc]
        elsewhere := fun j hj => by
          obtain ⟨hji, hj⟩ := not_or.1 fun h => hj (List.mem_cons.2 h)
          exact (hrest.elsewhere j hj).trans (hq.1.elsewhere j hji)
        counts := fun e he => by
          obtain ⟨hei, he⟩ := not_or.1 fun h => he (List.mem_cons.2 h)
          exact (hrest.counts e he).trans (hq.1.counts e hei)
        escrow := hrest.escrow.trans (hq.1.settled hverdict)
        registry := hrest.registry.trans hq.2
        verdict := hrest.verdict.trans hq.1.verdict
        same := htorn.same.trans hrest.same
        trace := hq.1.trace.trans hrest.trace hq.1.log.1
        log := hrest.log.trans hq.1.log.1 }

/-! ## The escrow -/

instance : Std.Total Newer where
  total a b := by
    unfold Newer
    omega

instance : IsTrans Entry Newer where
  trans a b c := by
    unfold Newer
    omega

theorem newestFirst_perm (l : List Entry) : (newestFirst l).Perm l :=
  List.perm_insertionSort Newer l

/-- The key and the stamp sort the escrow by the order of registration. -/
theorem newestFirst_pairwise {s : Process} (h : Stamped s) {l : List Entry} (hn : l.Nodup)
    (hl : ∀ e ∈ l, e ∈ s.nameable) : (newestFirst l).Pairwise fun a b => b.stamp < a.stamp := by
  have hsorted : (newestFirst l).Pairwise Newer := List.pairwise_insertionSort Newer l
  have hnodup : (newestFirst l).Pairwise (· ≠ ·) := (newestFirst_perm l).nodup_iff.2 hn
  refine (hsorted.and hnodup).imp_of_mem fun {a b} ha hb hab => ?_
  have ha := hl a ((newestFirst_perm l).subset ha)
  have hb := hl b ((newestFirst_perm l).subset hb)
  obtain ⟨hle, hne⟩ := hab
  have hstamp : a.stamp ≠ b.stamp := fun heq => hne (h.distinct a ha b hb heq)
  unfold Newer at hle
  by_contra hlt
  have hkey := h.monotone a ha b hb (by omega)
  omega

theorem dispose_attempt {e : Entry} {s : Process} (hhold : s.holds e = false)
    (hcommit : (s.frames e.frame).committed = false) (hkind : e.kind = .transactional) :
    Attempt e s (s.dispose env e) := by
  have hcall : s.call env e = s.replay env e := by
    unfold call
    rw [if_neg (by simp [hhold]), if_neg (by simp [hcommit]), hkind]
  have h := replay_attempt env e s
  unfold dispose
  rw [hcall]
  rcases recordRaise_eq env e s (s.replay env e) with heq | heq <;> rw [heq]
  · exact h
  · exact ⟨h.keeps.trans (Keeps.of_eq (fun _ => rfl) rfl rfl rfl rfl rfl), h.frames, h.marks⟩

theorem offset_attempt (e : Entry) (s : Process) : Attempt e s (s.offset env e) := by
  have h := runPhase2_attempt env e s
  unfold offset
  rcases recordRaise_eq env e s (s.runPhase2 env e) with heq | heq <;> rw [heq]
  · exact h
  · exact ⟨h.keeps.trans (Keeps.of_eq (fun _ => rfl) rfl rfl rfl rfl rfl), h.frames, h.marks⟩

/-- Without a halt, a loop of attempts starts every body once. -/
theorem foldl_attempt {f : Process → Entry → Process} {l : List Entry} (hn : l.Nodup) {s : Process}
    (hf : ∀ e ∈ l, ∀ t, Keeps s t → Attempt e t (f t e)) (h0 : ∀ e ∈ l, s.spent e = false) :
    Keeps s (l.foldl f s) ∧ ((l.foldl f s).halted = false →
      (l.foldl f s).marks = { s.marks with started := s.marks.started ++ l }) := by
  induction l generalizing s with
  | nil => exact ⟨Keeps.refl s, fun _ => by simp⟩
  | cons e l ih =>
    obtain ⟨hnot, hn⟩ := List.nodup_cons.1 hn
    have hstep := hf e List.mem_cons_self s (Keeps.refl s)
    have h0e := h0 e List.mem_cons_self
    have hspent : ∀ x ∈ l, (f s e).spent x = false := by
      intro x hx
      have hxe : x ≠ e := fun h => hnot (h ▸ hx)
      have h0x := h0 x (List.mem_cons_of_mem _ hx)
      rcases hstep.marks with ⟨-, hm⟩ | ⟨-, hm⟩ | ⟨-, hm⟩
      · rw [spent_congr hm, h0x]
      · rw [spent_congr hm, h0x]
      · simp only [spent, Bool.or_eq_false_iff, decide_eq_false_iff_not] at h0x ⊢
        simp [hm, h0x.1, h0x.2, hxe]
    obtain ⟨hk, hrest⟩ := ih hn
      (fun x hx t ht => hf x (List.mem_cons_of_mem _ hx) t (hstep.keeps.trans ht)) hspent
    refine ⟨hstep.keeps.trans hk, fun hend => ?_⟩
    rw [List.foldl_cons] at hend ⊢
    rw [hrest hend]
    rcases hstep.marks with ⟨hh, -⟩ | ⟨hs, -⟩ | ⟨-, hm⟩
    · rw [hk.halts hh] at hend
      cases hend
    · rw [h0e] at hs
      cases hs
    · simp [hm]

theorem finalizeAbort_halts {s : Process} (h : s.halted = true) :
    (s.finalizeAbort env).halted = true := by
  let escrow := newestFirst s.escrow
  have hfirst := keeps_foldl (fun t e => (dispose_settles env e t).keeps)
    (escrow.filter (·.kind = .transactional)) s
  have hsecond := keeps_foldl (fun t e => (offset_attempt env e t).keeps)
    (escrow.filter (·.kind = .compensation)) (List.foldl (fun s e => dispose env e s) s
      (escrow.filter (·.kind = .transactional)))
  exact hsecond.halts (hfirst.halts h)

theorem finalizeAbort_spec {s : Process} (hverdict : s.verdict ≠ none) (hn : s.escrow.Nodup)
    (hcommit : ∀ e ∈ s.escrow, (s.frames e.frame).committed = false)
    (h0 : ∀ e ∈ s.escrow, s.spent e = false) (hend : (s.finalizeAbort env).halted = false) :
    (s.finalizeAbort env).marks.started = s.marks.started ++
      (inverses (newestFirst s.escrow) ++ offsets (newestFirst s.escrow)) := by
  have hmem : ∀ e ∈ newestFirst s.escrow, e ∈ s.escrow :=
    fun e he => (newestFirst_perm s.escrow).subset he
  have hnodup : (newestFirst s.escrow).Nodup := (newestFirst_perm s.escrow).nodup_iff.2 hn
  have hholds : ∀ e, s.holds e = false := by
    intro e
    cases hv : s.verdict with
    | none => exact absurd hv hverdict
    | some v => simp [holds, hv]
  obtain ⟨hk₁, hfirst⟩ := foldl_attempt (f := fun s e => dispose env e s)
    (hnodup.filter (·.kind = .transactional)) (s := s)
    (fun e he t ht => by
      obtain ⟨he, hkind⟩ := mem_inverses.1 he
      refine dispose_attempt env ?_ ?_ hkind
      · rw [ht.holds, hholds]
      · rw [ht.committed, hcommit e (hmem e he)])
    fun e he => h0 e (hmem e (mem_inverses.1 he).1)
  let u := (inverses (newestFirst s.escrow)).foldl (fun s e => dispose env e s) s
  have hk₂ : Keeps u ((offsets (newestFirst s.escrow)).foldl (offset env) u) :=
    keeps_foldl (fun t e => (offset_attempt env e t).keeps) _ _
  have hmid : u.halted = false := by
    by_contra hh
    rw [Bool.not_eq_false] at hh
    have hhalt : (s.finalizeAbort env).halted = true := hk₂.halts hh
    rw [hend] at hhalt
    cases hhalt
  have hmarks : u.marks = { s.marks with
      started := s.marks.started ++ inverses (newestFirst s.escrow) } := hfirst hmid
  obtain ⟨-, hsecond⟩ := foldl_attempt (f := offset env) (l := offsets (newestFirst s.escrow))
    (hnodup.filter _) (s := u) (fun e _ t _ => offset_attempt env e t) fun e he => by
      obtain ⟨he, hkind⟩ := mem_offsets.1 he
      have h := h0 e (hmem e he)
      have hnot : e ∉ inverses (newestFirst s.escrow) := fun hin => by
        have := (mem_inverses.1 hin).2
        rw [hkind] at this
        cases this
      simp only [spent, Bool.or_eq_false_iff, decide_eq_false_iff_not] at h ⊢
      simp [hmarks, h.1, h.2, hnot]
  have hfinal := congrArg Marks.started (hsecond hend)
  show Marks.started (Process.marks ((offsets (newestFirst s.escrow)).foldl (offset env) u)) = _
  rw [hfinal, hmarks, List.append_assoc]

/-- Entries of an open session are in the escrow or their frame is live. -/
theorem Open.mem_escrow {s : Process} (h : Open s) {e : Entry} :
    e ∈ s.escrow ↔ e ∈ s.nameable ∧ e.frame ∉ s.registry := by
  constructor
  · intro he
    obtain ⟨hb, hr, hmem⟩ := h.escrowed e he
    exact ⟨mem_nameable.2 ⟨e.frame, hb, hmem⟩, hr⟩
  · rintro ⟨hname, hr⟩
    obtain ⟨i, hi, he⟩ := mem_nameable.1 hname
    refine h.withdrawn i hi (fun hin => hr ?_) e he
    have hready := h.ready hin
    rwa [hready.frame e ((hready.complete e).1 he)]

theorem Open.live_entry {s : Process} (h : Open s) {e : Entry} (hname : e ∈ s.nameable)
    (hr : e.frame ∈ s.registry) : e ∈ s.undisposed e.frame := by
  obtain ⟨i, hi, he⟩ := mem_nameable.1 hname
  have hin : i ∈ s.registry := by
    by_contra hout
    exact (h.escrowed e (h.withdrawn i hi hout e he)).2.1 hr
  have hready := h.ready hin
  have hmem := (hready.complete e).1 he
  rwa [hready.frame e hmem]

/-- The verdict of an abort marks the live frames and moves nothing else. -/
structure Begun (s u : Process) : Prop where
  marks : u.marks = s.marks
  verdict : u.verdict ≠ none
  escrow : u.escrow = s.escrow
  registry : u.registry = s.registry
  wal : u.wal = s.wal
  committed : ∀ i, (u.frames i).committed = (s.frames i).committed
  undisposed : ∀ i, u.undisposed i = s.undisposed i
  same : SameEntries s u
  doomed : ∀ i ∈ s.registry, Doomed i u

theorem Open.begun {s : Process} (h : Open s) : Begun s s.beginAbort := by
  let u := s.beginAbort
  have hu := beginAbort_eq s
  change u = _ at hu
  have hmarks : u.marks = s.marks := by rw [hu]
  have hundisposed : ∀ i, u.undisposed i = s.undisposed i := by
    intro i
    obtain ⟨b, hf, -⟩ := beginAbort_frames s i
    unfold Process.undisposed
    rw [hf]
  have hsame : SameEntries s u := by
    refine ⟨fun i => ?_, fun i => ?_, by rw [hu]⟩
    · obtain ⟨b, hf, -⟩ := beginAbort_frames s i
      rw [hf]
    · obtain ⟨b, hf, -⟩ := beginAbort_frames s i
      rw [hf]
  have hinv : Inventory u := by
    have hstranded : u.stranded = s.stranded ∧ u.halted = s.halted := by
      rw [hu]
      exact ⟨rfl, rfl⟩
    refine ⟨hstranded.1 ▸ h.inventory.1, fun hh e he => ?_⟩
    rw [hstranded.1]
    exact h.inventory.2 (hstranded.2 ▸ hh) e (hsame.nameable ▸ he)
  refine
    { marks := hmarks
      verdict := by
        rw [beginAbort_eq]
        exact Option.some_ne_none _
      escrow := by rw [beginAbort_eq]
      registry := by rw [beginAbort_eq]
      wal := by rw [beginAbort_eq]
      committed := fun i => by
        obtain ⟨b, hf, -⟩ := beginAbort_frames s i
        rw [hf]
      undisposed := hundisposed
      same := hsame
      doomed := fun i hi => ?_ }
  have hready := h.ready hi
  obtain ⟨b, hf, hb⟩ := beginAbort_frames s i
  have hstand := hready.standing.transfer hf
  refine ⟨hstand.ready (hsame.built ▸ hready.built) ?_ (fun e he => ?_) hinv,
    by rw [hf]; exact hb hi⟩
  · rw [hf]
    exact hready.committed
  · exact (settledCount_congr hmarks e).trans (hready.fresh e (hundisposed i ▸ he))

/-- The cascade of an abort of an open session. -/
theorem Open.cascaded {s : Process} (h : Open s) {order : List Nat}
    (horder : order.Perm s.registry) :
    Cascaded order s.beginAbort (s.beginAbort.cascade env order) :=
  cascade_spec env (horder.nodup_iff.2 h.registry)
    (fun i hi => h.begun.doomed i (horder.subset hi)) h.begun.verdict

/-- An abort of an open session. -/
theorem Open.abort_started {s : Process} (h : Open s) {order : List Nat}
    (horder : order.Perm s.registry) (hend : (s.abortSession env order).halted = false) :
    ∃ ran : Nat → List Entry, (∀ i ∈ order, (ran i).Sublist (offsets (s.undisposed i))) ∧
      (s.abortSession env order).marks.started =
        (order.flatMap fun i => inverses (s.undisposed i) ++ ran i) ++
          (inverses (newestFirst s.escrow) ++ offsets (newestFirst s.escrow)) := by
  have hbegun := h.begun
  have hcas := h.cascaded env horder
  -- the cascade does not reach the escrow
  have hmid : (s.beginAbort.cascade env order).halted = false := by
    by_contra hh
    rw [Bool.not_eq_false] at hh
    have hhalt : (s.abortSession env order).halted = true := finalizeAbort_halts env hh
    rw [hend] at hhalt
    cases hhalt
  obtain ⟨ran, hran, htrace⟩ := hcas.started hmid
  have hescrow := hcas.escrow.trans hbegun.escrow
  have haway : ∀ e ∈ s.escrow, e.frame ∉ order :=
    fun e he hin => (h.escrowed e he).2.1 (horder.subset hin)
  have hfin := finalizeAbort_spec env (s := s.beginAbort.cascade env order)
    (by rw [hcas.verdict]; exact hbegun.verdict) (hescrow ▸ h.escrow)
    (fun e he => by
      rw [hcas.elsewhere e.frame (haway e (hescrow ▸ he)), hbegun.committed]
      exact h.committed e.frame)
    (fun e he => by
      have hcounts := hcas.counts e (haway e (hescrow ▸ he))
      simp only [Process.counts, Prod.mk.injEq, hbegun.marks, h.marks, List.count_nil,
        List.count_eq_zero] at hcounts
      simp [spent, hcounts.1, hcounts.2.1])
    hend
  have hstart : s.beginAbort.marks.started = [] := by rw [hbegun.marks, h.marks]
  refine ⟨ran, fun i hi => hbegun.undisposed i ▸ hran i hi, ?_⟩
  show Marks.started (Process.marks ((s.beginAbort.cascade env order).finalizeAbort env)) = _
  rw [hfin, hescrow, htrace, hstart, List.nil_append]
  simp only [hbegun.undisposed]

/-- The trace of an abort names no entry twice. -/
theorem Open.trace_nodup {s : Process} (h : Open s) {order : List Nat}
    (horder : order.Perm s.registry) {ran : Nat → List Entry}
    (hran : ∀ i ∈ order, (ran i).Sublist (offsets (s.undisposed i))) :
    ((order.flatMap fun i => inverses (s.undisposed i) ++ ran i) ++
      (inverses (newestFirst s.escrow) ++ offsets (newestFirst s.escrow))).Nodup := by
  have hkinds {l m : List Entry} (x : Entry) (hx : x ∈ inverses l) (y : Entry)
      (hy : y ∈ offsets m) : x ≠ y := by
    rintro rfl
    have := (mem_inverses.1 hx).2.symm.trans (mem_offsets.1 hy).2
    cases this
  have hframe : ∀ i ∈ order, ∀ e ∈ inverses (s.undisposed i) ++ ran i, e.frame = i := by
    intro i hi e he
    have hready := h.ready (horder.subset hi)
    rcases List.mem_append.1 he with he | he
    · exact hready.frame e (mem_inverses.1 he).1
    · exact hready.frame e (mem_offsets.1 ((hran i hi).subset he)).1
  have hescrow : (newestFirst s.escrow).Nodup := (newestFirst_perm s.escrow).nodup_iff.2 h.escrow
  have hlive : (order.flatMap fun i => inverses (s.undisposed i) ++ ran i).Nodup := by
    refine List.nodup_flatMap.2 ⟨fun i hi => ?_, ?_⟩
    · have hready := h.ready (horder.subset hi)
      exact List.nodup_append.2 ⟨hready.nodup.filter _, (hran i hi).nodup (hready.nodup.filter _),
        fun x hx y hy => hkinds x hx y ((hran i hi).subset hy)⟩
    · refine (horder.nodup_iff.2 h.registry).imp_of_mem fun {i j} hi hj hij x hxi hxj => hij ?_
      exact (hframe i hi x hxi).symm.trans (hframe j hj x hxj)
  refine List.nodup_append.2 ⟨hlive, List.nodup_append.2 ⟨hescrow.filter _, hescrow.filter _,
    fun x hx y hy => hkinds x hx y hy⟩, ?_⟩
  rintro x hx y hy rfl
  obtain ⟨i, hi, hxi⟩ := List.mem_flatMap.1 hx
  have hin : x ∈ s.escrow := by
    rcases List.mem_append.1 hy with hy | hy
    · exact (newestFirst_perm _).subset (mem_inverses.1 hy).1
    · exact (newestFirst_perm _).subset (mem_offsets.1 hy).1
  exact h.not_escrowed (horder.subset hi) (hframe i hi x hxi) hin

theorem abortSession_halts {s : Process} (order : List Nat) (h : s.halted = true) :
    (s.abortSession env order).halted = true := by
  refine finalizeAbort_halts env (cascade_halts env order ?_)
  rw [beginAbort_eq]
  exact h

end Process

open Process

/-- **Which inverses an abort starts, and in which order.** The live frames come first, in the
order the host tears them down: the inverses of each, the parked ones newest first and then those
its body yielded newest first, and behind them that frame's compensations. Then the escrow: the
inverses in the reverse of the order of registration, and behind them the compensations. No body
is started twice, and every inverse is started. -/
theorem abortSession_spec (env : Env) (log : Bool) (ops : List SessionOp) (order : List Nat)
    (horder : order.Perm (runSession env log ops).registry) :
    let s := runSession env log ops
    let t := s.abortSession env order
    t.halted = false →
      (∃ ran : Nat → List Entry, (∀ i ∈ order, (ran i).Sublist (offsets (s.undisposed i))) ∧
        t.marks.started = (order.flatMap fun i => inverses (s.undisposed i) ++ ran i) ++
          (inverses (newestFirst s.escrow) ++ offsets (newestFirst s.escrow))) ∧
      (∀ i ∈ order, inverses (s.undisposed i) =
          (s.frames i).deferredTransactional.reverse ++ inverses (s.frames i).stack.reverse ∧
        Sorted (s.frames i)) ∧
      ((newestFirst s.escrow).Pairwise fun a b => b.stamp < a.stamp) ∧
      (∀ e, e ∈ s.escrow ↔ e ∈ s.nameable ∧ e.frame ∉ s.registry) ∧
      t.marks.started.Nodup ∧
      ∀ e ∈ s.nameable, e.kind = .transactional → e ∈ t.marks.started := by
  intro s t hend
  have hopen : Open s := by
    refine (open_runSession env log ops ?_).1
    by_contra hh
    rw [Bool.not_eq_false] at hh
    rw [abortSession_halts env order hh] at hend
    cases hend
  obtain ⟨ran, hran, htrace⟩ := hopen.abort_started env horder hend
  refine ⟨⟨ran, hran, htrace⟩, fun i hi => ⟨?_, hopen.sorted i (horder.subset hi)⟩, ?_,
    fun e => hopen.mem_escrow, htrace ▸ hopen.trace_nodup horder hran, fun e he hkind => ?_⟩
  · have hready := hopen.ready (horder.subset hi)
    show (s.undisposed i).filter _ = _
    rw [hready.undisposed_inverses, List.reverse_append, inverses, List.filter_reverse]
  · exact newestFirst_pairwise hopen.stamped hopen.escrow fun e he => (hopen.mem_escrow.1 he).1
  · show e ∈ t.marks.started
    rw [htrace]
    by_cases hr : e.frame ∈ s.registry
    · refine List.mem_append_left _ (List.mem_flatMap.2 ⟨e.frame, horder.symm.subset hr, ?_⟩)
      exact List.mem_append_left _ (mem_inverses.2 ⟨hopen.live_entry he hr, hkind⟩)
    · have hin := hopen.mem_escrow.2 ⟨he, hr⟩
      refine List.mem_append_right _ (List.mem_append_left _ (mem_inverses.2 ⟨?_, hkind⟩))
      exact (newestFirst_perm _).symm.subset hin

/-! ## No order across the session -/

/-- Two live activations: an inverse of the first is registered after one of the second, and a
compensation of the second last. -/
def interleaved : List SessionOp :=
  [.newFrame "A", .newFrame "B", .register 0 .body someInverse, .register 1 .body someInverse,
    .register 0 .method someInverse, .register 1 .body someOffset]

theorem abortSession_spec_interleaved :
    let s := runSession (quietEnv false) true interleaved
    (s.abortSession (quietEnv false) [1, 0]).marks.started.Nodup :=
  (abortSession_spec (quietEnv false) true interleaved [1, 0] (by decide)
    (by decide)).2.2.2.2.1

/-- Whichever frame the host tears down first, the inverses are not started in the reverse of the
order of registration, and one order runs the compensation before two of them. -/
theorem abortSession_not_reversed :
    let s := runSession (quietEnv false) true interleaved
    let newestFirst := fun l : List Entry => (inverses l).Pairwise fun a b => b.stamp < a.stamp
    s.registry = [0, 1] ∧
      (s.abortSession (quietEnv false) [1, 0]).marks.started.map (·.stamp) = [1, 3, 2, 0] ∧
      ¬newestFirst (s.abortSession (quietEnv false) [1, 0]).marks.started ∧
      (s.abortSession (quietEnv false) [0, 1]).marks.started.map (·.stamp) = [2, 0, 1, 3] ∧
      ¬newestFirst (s.abortSession (quietEnv false) [0, 1]).marks.started := by
  decide

end Revl.Runtime
