import Revl.Fs.Undone

/-!
# Aborted runs

An aborted run leaves the workspace as it was, where its steps stay away from what it captured.

- `Gentle`: the condition on a step, given what the steps before it captured and vacated.
- `Fine`: an answer `Ok` can be undone, and any other changed nothing.
- `abort_restores`: every inverse goes through, and every name shows what it showed.
-/

namespace Revl.Fs

variable {proc : Process} {c : Call} {s t : FS} {R : List Nat} {V : List Path}

/-! ## Steps -/

/-- The inodes a witness identifies. -/
def captured : Witness → List Nat
  | .write w => w.capture.toList.map Capture.ino
  | .rm w => [w.capture.ino]
  | _ => []

/-- The names vacated of something else than a directory. -/
def vacated (s : FS) (V : List Path) : Witness → List Path
  | .rm w => vacate s w.path V
  | .move w => vacate s w.src V
  | _ => V

/-- A step that gets as far as changing the tree touches no captured inode, makes no sidecar
directory where something else was vacated, and overwrites only what it can read back and with a
text that has an encoding. -/
def Gentle (proc : Process) (R : List Nat) (V : List Path) (c : Call) (s : FS) : Op → Prop
  | .write p contents => resolveWithin c s p = .ok p → walkParent c s p = none →
    match s.get p with
    | none => Apart R s [p.dropLast]
    | some i =>
      match (s.inode i).kind with
      | .file _ => (s.inode i).links ≤ 1 → SidecarReady c s preimageName →
        Apart R s [p, p.dropLast, [preimageName], []] ∧
          (s.get [preimageName] = none → [preimageName] ∉ V) ∧
          proc.readable (s.inode i).mode = true ∧ utf8 contents ≠ none
      | _ => True
  | .rm p => resolveWithin c s p = .ok p → s.get p ≠ none → SidecarReady c s garbageName →
    Apart R s [p, p.dropLast, [garbageName], []] ∧ (s.get [garbageName] = none → [garbageName] ∉ V)
  | .move src dst => resolveWithin c s src = .ok src → resolveWithin c s dst = .ok dst →
    ∀ i, s.Moves src dst i → Apart R s [src, src.dropLast, dst.dropLast]
  | .mkdir p => resolveWithin c s p = .ok p → walkParent c s p = none → s.get p = none →
    Apart R s [p.dropLast]

/-- An answer `Ok` can be undone, and any other left the tree as it was. -/
def Fine (proc : Process) (R : List Nat) (V : List Path) (s : FS) (r : Answer Witness × FS) :
    Prop :=
  match r.1 with
  | .ok w => Undone proc w R V s (captured w ++ R) (vacated s V w) r.2 ∧
      ∀ k ∈ captured w, k < r.2.next
  | _ => r.2.Linked ∧ s.next ≤ r.2.next ∧ Like R V s r.2

theorem Undone.before {w : Witness} {s' : FS} {R' : List Nat} {V' : List Path}
    (h : Undone proc w R V s' R' V' t) (hl : Like R V s s') (hnext : s.next ≤ s'.next) :
    Undone proc w R V s R' V' t where
  linked := h.linked
  next := hnext.trans h.next
  undo c hc u hu hlone := by
    obtain ⟨u', hundo, hlike, hlone'⟩ := h.undo c hc u hu hlone
    exact ⟨u', hundo, hl.trans hlike, hlone'⟩

theorem fine_refused (hs : s.Linked) (e : FsOpError) :
    Fine proc R V s ((.err e : Answer Witness), s) :=
  ⟨hs, le_rfl, Like.refl R V s⟩

theorem move_refused (hc : Quiet c) {src dst : Path} {a : Answer MoveWitness}
    (h : move c s src dst = (a, t)) (ha : ∀ w, a ≠ .ok w) : t = s := by
  unfold move at h
  split at h
  · exact (Prod.mk.inj h).2.symm
  · exact (Prod.mk.inj h).2.symm
  · split_ifs at h with h1 h2
    · exact (Prod.mk.inj h).2.symm
    · exact (Prod.mk.inj h).2.symm
    · rename_i p q _ _
      rcases replaceConfined_cases c s p q with ⟨-, e, heq⟩ | ⟨u, -, heq⟩
      · rw [heq] at h
        exact (Prod.mk.inj h).2.symm
      · rw [heq, if_neg (by simp [hc .closeAfterRename])] at h
        exact absurd (Prod.mk.inj h).1.symm (ha _)

theorem mkdirConfined_refused (hc : Quiet c) {p : Path} {e : FsOpError}
    (h : mkdirConfined proc c s p = (.error e, t)) : t = s := by
  unfold mkdirConfined fail at h
  cases hwalk : walkParent c s p with
  | some e => exact (Prod.mk.inj (hwalk ▸ h)).2.symm
  | none =>
    simp only [hwalk, hc .mkdirLeaf, hc .closeParent, Bool.false_eq_true, if_false] at h
    split_ifs at h
    · exact (Prod.mk.inj h).2.symm
    · cases (Prod.mk.inj h).1

theorem mkdir_refused (hc : Quiet c) {p : Path} {a : Answer MkdirWitness}
    (h : mkdir proc c s p = (a, t)) (ha : ∀ w, a ≠ .ok w) : t = s := by
  unfold mkdir at h
  split at h
  · exact (Prod.mk.inj h).2.symm
  · rename_i q _
    split_ifs at h with h1
    · exact (Prod.mk.inj h).2.symm
    · rcases hmk : mkdirConfined proc c s q with ⟨e | v, u⟩
      · rw [hmk] at h
        obtain ⟨-, rfl⟩ := Prod.mk.inj h
        exact mkdirConfined_refused hc hmk
      · rw [hmk] at h
        exact absurd (Prod.mk.inj h).1.symm (ha _)

theorem fine_move (hs : s.Linked) (hc : Quiet c) {src dst : Path}
    (hg : Gentle proc R V c s (.move src dst)) :
    Fine proc R V s (perform proc c s (.move src dst)) := by
  show Fine proc R V s ((move c s src dst).map (Answer.map .move) id)
  rcases hrun : move c s src dst with ⟨a, t⟩
  cases a with
  | ok w => exact ⟨undone_move hs hc hrun hg, fun k hk => by cases hk⟩
  | err e | raised e =>
    obtain rfl := move_refused hc hrun nofun
    exact ⟨hs, le_rfl, Like.refl R V t⟩

theorem fine_mkdir (hs : s.Linked) (hc : Quiet c) (hfresh : ∀ k ∈ R, k < s.next) {p : Path}
    (hg : Gentle proc R V c s (.mkdir p)) : Fine proc R V s (perform proc c s (.mkdir p)) := by
  show Fine proc R V s ((mkdir proc c s p).map (Answer.map .mkdir) id)
  rcases hrun : mkdir proc c s p with ⟨a, t⟩
  cases a with
  | ok w => exact ⟨undone_mkdir hs hc hrun hfresh hg, fun k hk => by cases hk⟩
  | err e | raised e =>
    obtain rfl := mkdir_refused hc hrun nofun
    exact ⟨hs, le_rfl, Like.refl R V t⟩

theorem Apart.like {s' : FS} {ps : List Path} (h : Apart R s ps) (hl : Like R V s s') :
    Apart R s' ps := fun p hp k hk => by
  rw [Ne, hl.get k hk]
  exact h p hp k hk

theorem Apart.subset {ps qs : List Path} (h : Apart R s ps) (hsub : qs ⊆ ps) : Apart R s qs :=
  fun p hp => h p (hsub hp)

theorem park_refused (hc : Quiet c) {p : Path} {e : FsOpError} (hno : NoLink s p)
    (hfree : s.get (parkedPath c) = none)
    (h : parkCapturedSidecar proc c s p (parkedPath c) = (.error e, t)) : t = s := by
  rcases replaceConfined_cases c s p (parkedPath c) with ⟨-, e', heq⟩ | ⟨u, hren, heq⟩
  · unfold parkCapturedSidecar at h
    rw [heq] at h
    exact (Prod.mk.inj h).2.symm
  · obtain ⟨i, hi, -⟩ := rename_ok hren.2.2.2
    obtain ⟨⟨kind, mode⟩, hview⟩ := Option.ne_none_iff_exists'.mp fun hnone => by
      rw [FS.view_eq_none, hi] at hnone
      cases hnone
    have hlink : kind ≠ .link := by
      rintro rfl
      exact hno p (List.prefix_refl p) mode hview
    obtain ⟨r, hpark, hr⟩ := park_after_rename proc ((view_parked hren hfree).trans hview) hlink heq
    rw [h] at hpark
    have hfails := hr.mp ⟨e, (Prod.mk.inj hpark).1.symm⟩
    simp [hc .closeAfterRename, hc .parkedStat, hc .parkedDigest] at hfails

theorem fine_rm (hs : s.Linked) (hc : Quiet c) (hfresh : ∀ k ∈ R, k < s.next) {p : Path}
    (hfree : s.get (parkedPath c) = none) (hg : Gentle proc R V c s (.rm p)) :
    Fine proc R V s (perform proc c s (.rm p)) := by
  show Fine proc R V s ((rm proc c s p).map (Answer.map .rm) id)
  unfold rm
  cases hres : resolveWithin c s p with
  | error e => exact fine_refused hs e
  | ok q =>
    obtain rfl := resolveWithin_ok hres
    dsimp only
    by_cases hmissing : c.fails .lexists = true ∨ s.get q = none
    · rw [if_pos hmissing]
      exact fine_refused hs _
    · rw [if_neg hmissing]
      rw [not_or] at hmissing
      by_cases hready : SidecarReady c s garbageName
      · obtain ⟨hR, hV⟩ := hg hres hmissing.2 hready
        obtain ⟨s', hdir, hside, hs', hnext, hl⟩ := sidecar_like hc hs (by simp [sidecarNames])
          hready hfresh (hR [] (by simp)) hV
        rw [hdir]
        dsimp only
        have hpath : [garbageName] ++ ["rm-" ++ c.uuid] = parkedPath c := rfl
        rw [if_neg (by simp [hc .freshSidecar]), hpath]
        have hfree' : s'.get (parkedPath c) = none :=
          (hside.get_eq_none_iff (by simp [parkedPath])).mpr hfree
        rcases hpark : parkCapturedSidecar proc c s' q (parkedPath c) with ⟨e | capture, t⟩
        · dsimp only
          have hsame : t = s' := park_refused hc (((resolveWithin_quiet hc s q).mp hres).like hl)
            hfree' hpark
          subst hsame
          exact ⟨hs', hnext, hl⟩
        · obtain ⟨i, hm, rfl, rfl, hlink⟩ := parked_of_replace proc hc hfree' hpark
          have hno := ((resolveWithin_quiet hc s q).mp hres).like hl
          have hundone := undone_park proc V hs' hno hm
            (Apart.subset (hR.like hl) (by simp : [q, q.dropLast, [garbageName]] ⊆ _)) hlink
          have hq : q ≠ [garbageName] := by
            rintro rfl
            exact hm.under ⟨["rm-" ++ c.uuid], rfl⟩
          have hvacate : vacate s' q V = vacate s q V := by
            unfold vacate
            rw [FS.isDir_congr (hside.view q hq)]
          rw [hvacate] at hundone
          refine ⟨hundone.before hl hnext, fun k hk => ?_⟩
          rw [List.mem_singleton.mp hk]
          show i < (s'.moved q (parkedPath c) i c.now).next
          rw [FS.next_moved]
          exact hs'.fresh q i hm.bound
      · obtain ⟨e, he⟩ := sidecarDir_of_not hready
        rw [he]
        exact fine_refused hs e

/-- A text without an encoding: the file it was written to goes again. -/
theorem writeTarget_create_none (proc : Process) (hs : s.Linked) (hc : Quiet c) {p : Path}
    {contents : List Nat} (hwalk : walkParent c s p = none) (hfree : s.get p = none)
    (hfresh : ∀ k ∈ R, k < s.next) (hR : Apart R s [p.dropLast]) (hdata : utf8 contents = none) :
    ∃ e u, writeTarget proc c s p contents = (.err e, u) ∧ u.Linked ∧ s.next ≤ u.next ∧
      Like R V s u := by
  obtain ⟨hne, -, hparent⟩ := walkParent_eq_none.mp hwalk
  have hadds : Adds R s p (createdFile c s p []) := adds_createdFile hs [] hne hfree hfresh hR
  have hlinked := linked_createdFile (c := c) hs [] hne hfree hparent
  obtain ⟨mode, hview⟩ := view_createdFile c s p []
  have hget : (createdFile c s p []).get p = some s.next := get_createdFile
  have hfile : (createdFile c s p []).isDir p = false := by
    rw [FS.isDir_eq, hview]
    rfl
  have hparents : ∀ k ∈ R, k ≠ s.next ∧ (createdFile c s p []).get p.dropLast ≠ some k :=
    fun k hk => ⟨(hfresh k hk).ne, get_parent_like hadds hne (Like.refl R V _) hR k hk⟩
  obtain ⟨u, hunlink, hnext, hdrops⟩ := drops_unlink c.now hget hfile hne hparents
  refine ⟨⟨"EINVAL", p⟩, u, ?_, hlinked.unlink hget hfile hne hunlink, ?_,
    hadds.undone (Like.refl R V _) hdrops⟩
  · have hname : (s.create p [] 0o600 c.now).get p = some s.next := by
      rw [FS.create, FS.get_add, if_pos rfl]
    have hland : landContents c (s.create p [] 0o600 c.now) ⟨p, s.next, true, none, none⟩ contents =
        (.error ⟨"EINVAL", p⟩, ⟨p, s.next, true, none, none⟩, createdFile c s p []) := by
      unfold landContents writeThrough
      simp only [hc .truncate, hc .seek, Bool.false_eq_true, if_false, hdata]
      rfl
    have hdiscard : discardWrite c (createdFile c s p []) ⟨p, s.next, true, none, none⟩ =
        (.ok (), u) := by
      unfold discardWrite removeConfined
      simp [hc .discardStat, hc .discardLeaf, hget, hunlink]
    unfold writeTarget openConfinedWrite
    simp only [hwalk, hfree, hc .createLeaf, hc .closeParent, hc .fstat]
    unfold writeSteps
    simp only [Bool.false_eq_true, if_false, if_true, hland]
    unfold finishWrite
    simp only [hdiscard, hc .closeHandle, Bool.false_eq_true, if_false]
  · rw [hnext, createdFile, setBytes_next, FS.create, FS.next_add]
    exact Nat.le_succ _

theorem fine_write (hs : s.Linked) (hc : Quiet c) (hfresh : ∀ k ∈ R, k < s.next) {p : Path}
    {contents : List Nat} (hfree : s.get (preimagePath c) = none)
    (hg : Gentle proc R V c s (.write p contents)) :
    Fine proc R V s (perform proc c s (.write p contents)) := by
  show Fine proc R V s ((write proc c s p contents).map (Answer.map .write) id)
  unfold write
  unfold Gentle at hg
  cases hres : resolveWithin c s p with
  | error e => exact fine_refused hs e
  | ok q =>
    obtain rfl := resolveWithin_ok hres
    have hno := (resolveWithin_quiet hc s q).mp hres
    dsimp only
    cases hwalk : walkParent c s q with
    | some e =>
      unfold writeTarget openConfinedWrite
      rw [hwalk]
      exact fine_refused hs e
    | none =>
      replace hg := hg hres hwalk
      cases hget : s.get q with
      | none =>
        simp only [hget] at hg
        cases hdata : utf8 contents with
        | some data =>
          rw [writeTarget_create proc hc hwalk hget hdata]
          exact ⟨undone_create hs data hno hwalk hget hfresh hg, fun k hk => by cases hk⟩
        | none =>
          obtain ⟨e, u, heq, hlinked, hnext, hl⟩ :=
            writeTarget_create_none proc hs hc hwalk hget hfresh hg hdata (V := V)
          rw [heq]
          exact ⟨hlinked, hnext, hl⟩
      | some i =>
        simp only [hget] at hg
        cases hkind : (s.inode i).kind with
        | dir | link | special =>
          unfold writeTarget openConfinedWrite
          simp only [hwalk, hget, hc .openLeaf, hkind]
          exact fine_refused hs _
        | file bytes =>
          simp only [hkind] at hg
          by_cases hlinks : (s.inode i).links ≤ 1
          · by_cases hready : SidecarReady c s preimageName
            · obtain ⟨hR, hV, hread, hdata⟩ := hg hlinks hready
              obtain ⟨data, hdata⟩ := Option.ne_none_iff_exists'.mp hdata
              -- the sidecar directory may have to be made, which touches the root only
              have hroot : s.get [] ≠ some i := by
                intro h
                have hdir := hs.root
                unfold FS.isDir at hdir
                simp [h, hkind, Kind.isDir] at hdir
              obtain ⟨s', hdir, hside, hs', hnext, hl'⟩ := sidecar_like hc hs
                (by simp [sidecarNames]) hready
                (List.forall_mem_cons.mpr ⟨hs.fresh q i hget, hfresh⟩)
                (List.forall_mem_cons.mpr ⟨hroot, hR [] (by simp)⟩) hV
              have hl : Like R V s s' :=
                hl'.mono (fun k hk => List.mem_cons_of_mem i hk) fun _ h => h
              have hq : q ≠ [preimageName] := by
                rintro rfl
                rcases hready.2 with hnone | hisdir
                · rw [hget] at hnone
                  cases hnone
                · unfold FS.isDir at hisdir
                  simp [hget, hkind, Kind.isDir] at hisdir
              have hget' : s'.get q = some i := (hside.get q hq).trans hget
              have hview := hside.view q hq
              rw [FS.view_eq, FS.view_eq, hget, hget'] at hview
              have hface : s'.face i = s.face i := Option.some.inj hview
              have hkind' : (s'.inode i).kind = .file bytes :=
                (congrArg Prod.fst hface).trans hkind
              have hmode : (s'.inode i).mode = (s.inode i).mode := congrArg Prod.snd hface
              have hfree' : s'.get (preimagePath c) = none :=
                (hside.get_eq_none_iff (by simp [preimagePath])).mpr hfree
              have hlinks' : (s'.inode i).links ≤ 1 := by
                rw [hl'.inode i List.mem_cons_self]
                exact hlinks
              rw [writeTarget_over proc hc hwalk hget hkind hlinks hdir hget' hkind' hfree' hdata]
              have ho : Overwrites c s' q i bytes :=
                ⟨hs', hget', hkind', hlinks', hfree', hside.isDir⟩
              refine ⟨(undone_overwrite ho (hno.like hl) (hmode ▸ hread)
                (fun k hk => (hfresh k hk).trans_le hnext)
                ((hR.like hl).subset (by simp))).before hl hnext, fun k hk => ?_⟩
              rw [List.mem_singleton.mp hk]
              show s'.next < (overwritten c s' i bytes data).next
              rw [overwritten, setBytes_next]
              show s'.next < (s'.create (preimagePath c) bytes (s'.inode i).mode c.now).next
              rw [FS.create, FS.next_add]
              exact Nat.lt_succ_self _
            · -- refused before the truncation
              obtain ⟨e, he⟩ := sidecarDir_of_not hready
              unfold writeTarget openConfinedWrite
              simp only [hwalk, hget, hc .openLeaf, hkind, hc .closeParent, hc .fstat,
                Bool.false_eq_true, if_false, if_neg (Nat.not_lt.mpr hlinks)]
              unfold writeSteps snapshotPreimage
              simp only [Bool.false_eq_true, if_false, he]
              unfold finishWrite
              dsimp only
              rw [discardWrite_none rfl rfl]
              simp only [hc .closeHandle, Bool.false_eq_true, if_false]
              exact fine_refused hs _
          · unfold writeTarget openConfinedWrite
            simp only [hwalk, hget, hc .openLeaf, hkind, hc .closeParent, hc .fstat,
              Bool.false_eq_true, if_false, if_pos (Nat.not_le.mp hlinks)]
            exact fine_refused hs _

/-! ## Runs -/

theorem fine_step (hs : s.Linked) (hc : Quiet c) (hfresh : ∀ k ∈ R, k < s.next)
    (hpreimage : s.get (preimagePath c) = none) (hparked : s.get (parkedPath c) = none) {op : Op}
    (hg : Gentle proc R V c s op) : Fine proc R V s (perform proc c s op) := by
  cases op with
  | write p contents => exact fine_write hs hc hfresh hpreimage hg
  | rm p => exact fine_rm hs hc hfresh hparked hg
  | move src dst => exact fine_move hs hc hg
  | mkdir p => exact fine_mkdir hs hc hfresh hg

/-- No system call of the run fails, and the names its uuids give are free, as `uuid4` promises. -/
def Served (proc : Process) : FS → List (Call × Op) → Prop
  | _, [] => True
  | s, (c, op) :: rest => Quiet c ∧ s.get (preimagePath c) = none ∧ s.get (parkedPath c) = none ∧
      Served proc (perform proc c s op).2 rest

/-- Every step of the run is gentle with what the steps before it captured and vacated. -/
def Heeds (proc : Process) : List Nat → List Path → FS → List (Call × Op) → Prop
  | _, _, _, [] => True
  | R, V, s, (c, op) :: rest => Gentle proc R V c s op ∧
      match perform proc c s op with
      | (.ok w, t) => Heeds proc (captured w ++ R) (vacated s V w) t rest
      | (_, t) => Heeds proc R V t rest

theorem abort_concat (call : Nat → Call) (w : Witness) (ws : List Witness) :
    abort proc call s (ws ++ [w]) =
      match abort proc (fun n => call (n + 1)) s ws with
      | .ok t =>
        match undo proc (call 0) t w with
        | (.ok (), u) => .ok u
        | (.error e, _) => .error e
      | .error e => .error e := by
  induction ws generalizing s with
  | nil =>
    rcases hw : undo proc (call 0) s w with ⟨e | v, t⟩ <;>
      simp only [List.nil_append, abort, List.length_nil, hw]
  | cons x ws ih =>
    rcases hx : undo proc (call (ws.length + 1)) s x with ⟨e | v, t⟩ <;>
      simp only [List.cons_append, abort, List.length_append, List.length_singleton, hx, ih]

/-- The inverses take the tree a run left back to one like the tree it started on. -/
theorem run_undone (proc : Process) (steps : List (Call × Op)) :
    ∀ R V s, s.Linked → (∀ k ∈ R, k < s.next) → Served proc s steps → Heeds proc R V s steps →
      ∀ call, (∀ n, Quiet (call n)) →
        ∃ t, abort proc call (forward proc s steps).2 (forward proc s steps).1 = .ok t ∧
          Like R V s t ∧ Lone t := by
  induction steps with
  | nil =>
    intro R V s hs _ _ _ call _
    exact ⟨s, rfl, Like.refl R V s, lone_of_linked hs⟩
  | cons step rest ih =>
    obtain ⟨c, op⟩ := step
    intro R V s hs hfresh ⟨hc, hpreimage, hparked, hserved⟩ ⟨hg, hheeds⟩ call hcall
    have hfine := fine_step hs hc hfresh hpreimage hparked hg
    unfold forward
    rcases hrun : perform proc c s op with ⟨a, t⟩
    rw [hrun] at hfine hserved hheeds
    cases a with
    | ok w =>
      obtain ⟨hundone, hnew⟩ := hfine
      have hfresh' : ∀ k ∈ captured w ++ R, k < t.next := by
        intro k hk
        rcases List.mem_append.mp hk with hk | hk
        · exact hnew k hk
        · exact (hfresh k hk).trans_le hundone.next
      -- the inverses of the later operations run first, and this operation's last
      obtain ⟨u, habort, hl, hlone⟩ := ih _ _ t hundone.linked hfresh' hserved hheeds
        (fun n => call (n + 1)) fun n => hcall (n + 1)
      obtain ⟨u', hundo, hl', hlone'⟩ := hundone.undo (call 0) (hcall 0) u hl hlone
      refine ⟨u', ?_, hl', hlone'⟩
      dsimp only
      rw [abort_concat, habort]
      dsimp only
      rw [hundo]
    | err e | raised e =>
      obtain ⟨hlinked, hnext, hl⟩ := hfine
      obtain ⟨u, habort, hl', hlone⟩ := ih R V t hlinked
        (fun k hk => (hfresh k hk).trans_le hnext) hserved hheeds call hcall
      exact ⟨u, habort, hl.trans hl', hlone⟩

/-- On a run that heeds what it captured the abort goes through and leaves every name as it was, a
sidecar directory apart. -/
theorem abort_restores (proc : Process) (hs : s.Linked) {steps : List (Call × Op)}
    (hserved : Served proc s steps) (hheeds : Heeds proc [] [] s steps) {call : Nat → Call}
    (hcall : ∀ n, Quiet (call n)) :
    ∃ t, abort proc call (forward proc s steps).2 (forward proc s steps).1 = .ok t ∧
      Unchanged s t := by
  obtain ⟨t, habort, hl, -⟩ := run_undone proc steps [] [] s hs nofun hserved hheeds call hcall
  exact ⟨t, habort, hl.unchanged⟩

theorem oneFile_linked : oneFile.Linked where
  toWellFormed := oneFile_wellFormed
  count i l hl h := by
    have hall : ∀ p ∈ l, ∀ q ∈ l, p = q := by
      intro p hp q hq
      rcases oneFile_get (h p hp) with ⟨rfl, rfl⟩ | ⟨rfl, rfl⟩ <;>
        rcases oneFile_get (h q hq) with ⟨rfl, hi⟩ | ⟨rfl, hi⟩ <;> first | rfl | cases hi
    have hone : oneFile.bound i = 1 := by
      unfold FS.bound oneFile
      dsimp only
      split_ifs <;> simp_all [Kind.isDir]
    rw [hone]
    cases l with
    | nil => exact Nat.zero_le 1
    | cons p l =>
      have hsub : p :: l ⊆ [p] := fun q hq => by
        simp [hall q hq p List.mem_cons_self]
      exact (hl.subperm hsub).length_le

def oneWrite : List (Call × Op) := [(quietCall, .write ["f"] [0x41])]

theorem abort_restores_one_file : ∃ t, abort host (fun _ => quietCall)
      (forward host oneFile oneWrite).2 (forward host oneFile oneWrite).1 = .ok t ∧
    Unchanged oneFile t := by
  have hserved : Served host oneFile oneWrite := ⟨fun _ => rfl, rfl, rfl, trivial⟩
  have hapart : Apart [] oneFile [["f"], [], [preimageName], []] := fun _ _ _ hk => by cases hk
  have hheeds : Heeds host [] [] oneFile oneWrite :=
    ⟨fun _ _ _ _ => ⟨hapart, fun _ => List.not_mem_nil, rfl, by decide⟩, trivial⟩
  exact abort_restores host oneFile_linked hserved hheeds fun _ _ => rfl

/-- One file under two names. -/
def twoNames : FS where
  names := {
    get := fun p => if p = [] then some 0 else if p = ["f"] ∨ p = ["g"] then some 1 else none
    support := [[], ["f"], ["g"]]
    covers := fun p hp => by
      by_contra hmem
      simp only [List.mem_cons, List.not_mem_nil, or_false, not_or] at hmem
      simp [hmem.1, hmem.2.1, hmem.2.2] at hp }
  inode i := if i = 1 then ⟨.file [1], 0o644, 2, 0, 0⟩ else ⟨.dir, 0o755, 1, 0, 0⟩
  next := 2

theorem twoNames_get {p : Path} {i : Nat} (h : twoNames.get p = some i) :
    (p = [] ∧ i = 0) ∨ ((p = ["f"] ∨ p = ["g"]) ∧ i = 1) := by
  have h' : (if p = [] then some 0 else if p = ["f"] ∨ p = ["g"] then some 1 else none) =
      some i := h
  split_ifs at h' with h1 h2
  · exact .inl ⟨h1, (Option.some.inj h').symm⟩
  · exact .inr ⟨h2, (Option.some.inj h').symm⟩

theorem twoNames_linked : twoNames.Linked where
  root := rfl
  parent p x h := by
    obtain ⟨i, hi⟩ := Option.ne_none_iff_exists'.mp h
    rcases twoNames_get hi with ⟨hp, -⟩ | ⟨hp | hp, -⟩
    · simp at hp
    · obtain ⟨rfl, -⟩ := List.append_inj' (show p ++ [x] = [] ++ ["f"] from hp) rfl
      rfl
    · obtain ⟨rfl, -⟩ := List.append_inj' (show p ++ [x] = [] ++ ["g"] from hp) rfl
      rfl
  fresh p i h := by
    rcases twoNames_get h with ⟨-, rfl⟩ | ⟨-, rfl⟩ <;> decide
  count i l hl h := by
    by_cases hi : i = 1
    · subst hi
      have hsub : l ⊆ [["f"], ["g"]] := fun p hp => by
        rcases twoNames_get (h p hp) with ⟨-, h01⟩ | ⟨hp, -⟩
        · cases h01
        · simpa using hp
      exact (hl.subperm hsub).length_le
    · have hsub : l ⊆ [[]] := fun p hp => by
        rcases twoNames_get (h p hp) with ⟨hp, -⟩ | ⟨-, hi'⟩
        · simpa using hp
        · exact absurd hi' hi
      have hbound : twoNames.bound i = 1 := by
        unfold FS.bound twoNames
        simp [hi, Kind.isDir]
      rw [hbound]
      exact (hl.subperm hsub).length_le

def twoRemovals : List (Call × Op) :=
  [(⟨fun _ => false, 0, "u", 1⟩, .rm ["f"]), (⟨fun _ => false, 0, "v", 2⟩, .rm ["g"])]

/-- The second removal stamps the inode the first one parked, and the inverse of the first refuses
it. -/
theorem removed_twice_not_restored : twoNames.Linked ∧ Served host twoNames twoRemovals ∧
    ∃ e, abort host (fun _ => ⟨fun _ => false, 0, "w", 3⟩) (forward host twoNames twoRemovals).2
      (forward host twoNames twoRemovals).1 = .error e := by
  refine ⟨twoNames_linked, ⟨fun _ => rfl, rfl, rfl, fun _ => rfl, rfl, rfl, trivial⟩,
    ⟨"EIDENTITY", ?_⟩, ?_⟩
  · exact [garbageName, "rm-u"]
  · rfl

end Revl.Fs
