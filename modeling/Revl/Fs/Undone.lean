import Revl.Fs.Like

/-!
# Operations undone

Each operation that answered `Ok` is undone by the inverse its witness registered, on any tree that
is like the one it left.

- `Undone`: the inverse goes through, and leaves a tree like the one before the operation.
- `undone_move`, `undone_mkdir`, `undone_create`, `undone_park`, `undone_overwrite`: the operations.
-/

namespace Revl.Fs

/-! ## Single operations -/

/-- An operation that went from `s` to `t`, with what its witness captured in `R'` and the name it
vacated in `V'`, can be undone on any tree like `t`. -/
structure Undone (proc : Process) (w : Witness) (R : List Nat) (V : List Path) (s : FS)
    (R' : List Nat) (V' : List Path) (t : FS) : Prop where
  linked : t.Linked
  next : s.next ≤ t.next
  undo : ∀ c, Quiet c → ∀ u, Like R' V' t u → Lone u →
    ∃ u', undo proc c u w = (.ok (), u') ∧ Like R V s u' ∧ Lone u'

/-- Where a name that is not a directory went away no sidecar directory may be made. -/
def vacate (s : FS) (p : Path) (V : List Path) : List Path := if s.isDir p then V else p :: V

theorem subset_vacate (s : FS) (p : Path) (V : List Path) : ∀ q ∈ V, q ∈ vacate s p V := by
  intro q hq
  unfold vacate
  split_ifs
  · exact hq
  · exact List.mem_cons_of_mem _ hq

theorem isDir_of_not_vacated {s : FS} {p : Path} {V : List Path} (h : p ∉ vacate s p V) :
    s.isDir p = true := by
  unfold vacate at h
  split_ifs at h with hdir
  · exact hdir
  · exact absurd List.mem_cons_self h

/-- None of the names is one of a captured inode. -/
def Apart (R : List Nat) (s : FS) (ps : List Path) : Prop :=
  ∀ p ∈ ps, ∀ k ∈ R, s.get p ≠ some k

theorem noLink_moved_src {s : FS} {src dst : Path} {i now : Nat} (hapart : ¬ dst <+: src)
    (h : NoLink s src) : NoLink (s.moved src dst i now) src := by
  intro q hq mode hview
  have hd : ¬ dst <+: q := fun hd => hapart (hd.trans hq)
  rw [FS.view_moved, if_neg hd] at hview
  split_ifs at hview
  exact h q hq mode hview

theorem noLink_moved_dst {s : FS} {src dst : Path} {i now : Nat}
    (hsrc : NoLink s src) (hdst : NoLink s dst) : NoLink (s.moved src dst i now) dst := by
  intro q hq mode hview
  rw [FS.view_moved] at hview
  split_ifs at hview with hd hs
  · have heq : q = dst := hq.eq_of_length_le hd.length_le
    rw [heq, NameTree.rebase_self] at hview
    exact hsrc src (List.prefix_refl src) mode hview
  · exact hdst q hq mode hview

variable {proc : Process} {c : Call} {s t : FS} {R : List Nat} {V : List Path}

theorem moves_of_replace {src dst : Path} (hfree : s.get dst = none)
    (h : replaceConfined c s src dst = (.ok (), t)) :
    ∃ i, s.Moves src dst i ∧ t = s.moved src dst i c.now := by
  rcases replaceConfined_cases c s src dst with ⟨-, e, heq⟩ | ⟨t', ⟨hsrc, hdst, -, hren⟩, heq⟩
  · rw [heq] at h
    cases h
  · rw [heq] at h
    obtain ⟨-, rfl⟩ := Prod.mk.inj h
    obtain ⟨i, hi, ⟨hj, -⟩ | ⟨-, rfl, hunder, -⟩⟩ := rename_ok hren
    · rw [hfree] at hj
      cases hj
    · obtain ⟨hne, -, -⟩ := walkParent_eq_none.mp hsrc
      obtain ⟨hne', -, hparent⟩ := walkParent_eq_none.mp hdst
      exact ⟨i, ⟨hi, hfree, hparent, hne, hne', hunder⟩, rfl⟩

theorem undone_move (hs : s.Linked) {src dst : Path} {w : MoveWitness} (hc : Quiet c)
    (h : move c s src dst = (.ok w, t)) (hgentle : resolveWithin c s src = .ok src →
      resolveWithin c s dst = .ok dst → ∀ i, s.Moves src dst i →
        Apart R s [src, src.dropLast, dst.dropLast]) :
    Undone proc (.move w) R V s R (vacate s w.src V) t := by
  unfold move at h
  cases hsrc : resolveWithin c s src with
  | error e => simp [hsrc] at h
  | ok p =>
    obtain rfl := resolveWithin_ok hsrc
    cases hdst : resolveWithin c s dst with
    | error e => simp [hsrc, hdst] at h
    | ok q =>
      obtain rfl := resolveWithin_ok hdst
      simp only [hsrc, hdst] at h
      split_ifs at h with hmissing hexists
      · simp at h
      · simp at h
      · rcases hrep : replaceConfined c s p q with ⟨e | u, t'⟩
        · simp [hrep] at h
        · rw [hrep] at h
          obtain ⟨hw, rfl⟩ := Prod.mk.inj h
          obtain rfl := Answer.ok.inj hw
          have hfree : s.get q = none := by
            simpa [hc .lexistsDst] using hexists
          obtain ⟨i, hm, rfl⟩ := moves_of_replace hfree hrep
          have hR := hgentle hsrc hdst i hm
          have hapart := hm.apart hs.toWellFormed
          have hnoSrc := (resolveWithin_quiet hc s p).mp hsrc
          have hnoDst := (resolveWithin_quiet hc s q).mp hdst
          refine ⟨hs.moved c.now hm, FS.next_moved.ge, fun c' hc' u hl hlone => ?_⟩
          have hbound := back_bound hm hl []
          rw [List.append_nil, List.append_nil] at hbound
          -- what stands at `q` is what was moved there
          obtain ⟨j, hj⟩ : ∃ j, u.get q = some j := Option.ne_none_iff_exists'.mp fun hnone => by
            rw [FS.view_eq_none.mpr hnone, eq_comm, FS.view_eq_none, hm.bound] at hbound
            cases hbound
          refine ⟨u.moved q p j c'.now, ?_, ?_, lone_moved hlone⟩
          · unfold undo unmove
            dsimp only
            rw [(resolveWithin_quiet hc' u p).mpr ((noLink_moved_src hapart hnoSrc).like hl),
              (resolveWithin_quiet hc' u q).mpr
                ((noLink_moved_dst hnoSrc hnoDst).like hl)]
            dsimp only
            rw [hj, Option.isSome_some, if_pos rfl]
            exact back_rename hs hm hl hlone (fun _ => isDir_of_not_vacated) hc' hj
          · refine back_like hs hm hl (fun k hk => ⟨hk, ?_, ?_, ?_⟩) (subset_vacate s p V) hj _
            · rintro rfl
              exact hR p (by simp) k hk hm.bound
            · exact hR p.dropLast (by simp) k hk
            · exact hR q.dropLast (by simp) k hk

/-! ## Names made and taken away -/

/-- The name `p` came new. -/
structure Adds (R : List Nat) (s : FS) (p : Path) (t : FS) : Prop where
  free : s.get p = none
  view : ∀ q, q ≠ p → t.view q = s.view q
  get : ∀ q, q ≠ p → t.get q = s.get q
  inode : ∀ k ∈ R, t.inode k = s.inode k ∧ t.get p ≠ some k

/-- The name `p` went, and what it named changed in its links at most. -/
structure Drops (R : List Nat) (s : FS) (p : Path) (t : FS) : Prop where
  view : ∀ q, t.view q = if q = p then none else s.view q
  get : ∀ q, t.get q = if q = p then none else s.get q
  kind : ∀ k, (t.inode k).kind = (s.inode k).kind
  inode : ∀ k ∈ R, t.inode k = s.inode k

theorem Drops.lone {u u' : FS} {p : Path} (h : Drops R u p u') (hlone : Lone u) : Lone u' := by
  intro k q q' hdir hq hq'
  rw [h.get] at hq hq'
  split_ifs at hq hq'
  rw [h.kind] at hdir
  exact hlone k q q' hdir hq hq'

theorem Adds.undone {u u' : FS} {p : Path} (h : Adds R s p t) (hl : Like R V t u)
    (hd : Drops R u p u') : Like R V s u' := by
  refine ⟨fun q => ?_, fun k hk => ?_, fun k hk q => ?_⟩
  · rw [hd.view]
    by_cases hq : q = p
    · rw [if_pos hq, hq, FS.view_eq_none.mpr h.free]
      exact .inl rfl
    · rw [if_neg hq]
      rcases hl.view q with heq | ⟨hmem, hV, hfree, hdir⟩
      · exact .inl (heq.trans (h.view q hq))
      · rw [h.get q hq] at hfree
        refine .inr ⟨hmem, hV, hfree, ?_⟩
        rw [FS.isDir_congr (s := u) (p := q), hdir]
        rw [hd.view, if_neg hq]
  · rw [hd.inode k hk, hl.inode k hk, (h.inode k hk).1]
  · rw [hd.get]
    by_cases hq : q = p
    · rw [if_pos hq, hq, h.free]
    · rw [if_neg hq, hl.get k hk, h.get q hq]

theorem drops_rmdir {u : FS} {p : Path} (now : Nat) (hdir : u.isDir p = true)
    (hempty : u.names.isEmptyBelow p = true) (hne : p ≠ [])
    (hR : ∀ k ∈ R, u.get p.dropLast ≠ some k) : Drops R u p (u.rmdir p now) := by
  have heq : u.rmdir p now = { u with names := u.names.erase p }.touchAt p.dropLast now := by
    unfold FS.rmdir
    rw [if_pos (by simp [hdir, hempty])]
  have hget : ∀ q, (u.rmdir p now).get q = if q = p then none else u.get q := by
    intro q
    rw [heq, FS.get_touchAt]
    exact NameTree.get_erase
  refine ⟨fun q => ?_, hget, fun k => ?_, fun k hk => ?_⟩
  · split_ifs with hq
    · rw [FS.view_eq_none, hget, if_pos hq]
    · refine FS.view_congr (by rw [hget, if_neg hq]) fun i _ => ?_
      rw [heq, FS.face_touchAt]
      rfl
  · rw [heq, (FS.stamp_touchAt _ _ _ k).1]
  · rw [heq, FS.inode_touchAt]
    intro h
    refine hR k hk (Eq.trans ?_ h)
    exact (if_neg (FS.ne_dropLast hne)).symm

theorem drops_unlink {u : FS} {p : Path} {i : Nat} (now : Nat) (hi : u.get p = some i)
    (hfile : u.isDir p = false) (hne : p ≠ [])
    (hR : ∀ k ∈ R, k ≠ i ∧ u.get p.dropLast ≠ some k) :
    ∃ u', u.unlink p now = .ok u' ∧ u'.next = u.next ∧ Drops R u p u' := by
  have hkind : (u.inode i).kind.isDir = false := by
    unfold FS.isDir at hfile
    rwa [hi] at hfile
  refine ⟨{ (u.dropLink i now) with names := u.names.erase p }.touchAt p.dropLast now, ?_, ?_, ?_⟩
  · unfold FS.unlink
    simp [hi, hkind]
  · rw [FS.next_touchAt]
    rfl
  · have hunlink : u.unlink p now =
        .ok ({ (u.dropLink i now) with names := u.names.erase p }.touchAt p.dropLast now) := by
      unfold FS.unlink
      simp [hi, hkind]
    refine ⟨FS.unlink_ok hunlink, fun q => ?_, fun k => ?_, fun k hk => ?_⟩
    · rw [FS.get_touchAt]
      exact NameTree.get_erase
    · rw [(FS.stamp_touchAt _ _ _ k).1]
      show ((u.dropLink i now).inode k).kind = _
      unfold FS.dropLink FS.setInode
      dsimp only
      split_ifs with hk <;> simp [hk]
    · rw [FS.inode_touchAt]
      · exact FS.inode_setInode u i _ (hR k hk).1
      · intro h
        refine (hR k hk).2 (Eq.trans ?_ h)
        exact (if_neg (FS.ne_dropLast hne)).symm

theorem adds_add {p : Path} {n : Inode} (now : Nat) (hs : s.Linked) (hne : p ≠ [])
    (hfree : s.get p = none) (hfresh : ∀ k ∈ R, k < s.next) (hR : Apart R s [p.dropLast]) :
    Adds R s p (s.add p n now) := by
  refine ⟨hfree, fun q hq => ?_, fun q hq => ?_, fun k hk => ⟨?_, ?_⟩⟩
  · rw [FS.view_add hs.fresh, if_neg hq]
  · rw [FS.get_add, if_neg hq]
  · exact FS.inode_add n now hne (hfresh k hk).ne (hR _ (by simp) k hk)
  · rw [FS.get_add, if_pos rfl]
    intro h
    exact (hfresh k hk).ne (Option.some.inj h).symm

/-- On the way to a name that came new there is no link, nor under it. -/
theorem noLink_adds {p : Path} {kind : Kind} {mode : Nat} (h : Adds R s p t) (hno : NoLink s p)
    (hview : t.view p = some (kind, mode)) (hkind : kind ≠ .link) : NoLink t p := by
  intro q hq mode' hlink
  by_cases hqp : q = p
  · rw [hqp, hview] at hlink
    exact hkind (congrArg Prod.fst (Option.some.inj hlink))
  · rw [h.view q hqp] at hlink
    exact hno q hq mode' hlink

theorem get_parent_like {p : Path} {u : FS} (h : Adds R s p t) (hne : p ≠ []) (hl : Like R V t u)
    (hR : Apart R s [p.dropLast]) : ∀ k ∈ R, u.get p.dropLast ≠ some k := by
  intro k hk
  rw [Ne, hl.get k hk, h.get _ (FS.ne_dropLast hne)]
  exact hR _ (by simp) k hk

theorem undone_mkdir (hs : s.Linked) {p : Path} {w : MkdirWitness} (hc : Quiet c)
    (h : mkdir proc c s p = (.ok w, t)) (hfresh : ∀ k ∈ R, k < s.next)
    (hgentle : resolveWithin c s p = .ok p → walkParent c s p = none → s.get p = none →
      Apart R s [p.dropLast]) : Undone proc (.mkdir w) R V s R V t := by
  unfold mkdir at h
  cases hres : resolveWithin c s p with
  | error e => simp [hres] at h
  | ok q =>
    obtain rfl := resolveWithin_ok hres
    have hno := (resolveWithin_quiet hc s q).mp hres
    simp only [hres] at h
    split_ifs at h with hexists
    · simp at h
    unfold mkdirConfined fail at h
    cases hwalk : walkParent c s q with
    | some e => simp [hwalk] at h
    | none =>
      obtain ⟨hne, -, hparent⟩ := walkParent_eq_none.mp hwalk
      have hfree : s.get q = none := by
        simpa [hc .lexists] using hexists
      simp only [hwalk, hc .mkdirLeaf, hc .closeParent, hfree] at h
      obtain ⟨hw, rfl⟩ := Prod.mk.inj h
      obtain rfl := Answer.ok.inj hw
      have hR := hgentle hres hwalk hfree
      have hadds : Adds R s q (s.mkdir q proc.dirMode c.now) :=
        adds_add c.now hs hne hfree hfresh hR
      have hview : (s.mkdir q proc.dirMode c.now).view q = some (.dir, proc.dirMode) := by
        rw [FS.mkdir, FS.view_add hs.fresh, if_pos rfl]
      refine ⟨hs.add c.now hne hfree hparent le_rfl, ?_, fun c' hc' u hl hlone => ?_⟩
      · rw [FS.mkdir, FS.next_add]
        exact Nat.le_succ _
      · have hbound : u.view q = some (.dir, proc.dirMode) := by
          rw [hl.view_of (.inr ?_), hview]
          rw [Ne, ← FS.view_eq_none, hview]
          exact fun h => by cases h
        have hdir : u.isDir q = true := by
          rw [FS.isDir_eq, hbound]
          rfl
        -- nothing lay below the free name, and sidecar directories lie below the root
        have hempty : u.names.isEmptyBelow q = true := by
          refine NameTree.isEmptyBelow_iff.mpr fun r hr hrq => FS.view_eq_none.mp ?_
          obtain ⟨x, rfl⟩ := hr
          have hx : x ≠ [] := by
            rintro rfl
            exact hrq (List.append_nil q)
          rw [hl.view_of (.inl ?_), hadds.view _ hrq, FS.view_eq_none, hs.get_below hfree x]
          intro hmem
          have hlen := mem_sidecarNames hmem
          have hpos := List.length_pos_of_ne_nil hne
          have hpos' := List.length_pos_of_ne_nil hx
          rw [List.length_append] at hlen
          omega
        have hdrops := drops_rmdir c'.now hdir hempty hne (get_parent_like hadds hne hl hR)
        refine ⟨u.rmdir q c'.now, ?_, hadds.undone hl hdrops, hdrops.lone hlone⟩
        unfold undo rmdirIfEmpty
        dsimp only
        have hquiet := noLink_adds hadds hno hview (fun h => by cases h)
        rw [(resolveWithin_quiet hc' u q).mpr (hquiet.like hl)]

/-! ## Created files -/

theorem setBytes_next {i : Nat} {bytes : List UInt8} {now : Nat} :
    (s.setBytes i bytes now).next = s.next := rfl

theorem linked_setBytes (hs : s.Linked) {i : Nat} (bytes : List UInt8) (now : Nat)
    (hfile : (s.inode i).kind.isDir = false) : (s.setBytes i bytes now).Linked :=
  hs.setInode (by rw [hfile]; rfl) rfl

theorem landContents_ok (hc : Quiet c) {h : WriteHandle} {contents : List Nat} {data : List UInt8}
    (hname : s.get h.real = some h.ino) (hdata : utf8 contents = some data) :
    landContents c s h contents = (.ok (), h, s.setBytes h.ino data c.now) := by
  have hname' : (s.setBytes h.ino data c.now).get h.real = some h.ino := hname
  unfold landContents writeThrough confirmLanded
  simp [hc .truncate, hc .seek, hc .writeBytes, hc .confirm, hdata, hname']

theorem finishWrite_quiet (hc : Quiet c) {target : Path} {h : WriteHandle} :
    finishWrite c target (.ok (), h, t) =
      (.ok ⟨h.real, h.preimage, h.created, h.capture⟩, t) := by
  unfold finishWrite
  simp [hc .closeHandle]

/-- A file made and written. -/
def createdFile (c : Call) (s : FS) (p : Path) (data : List UInt8) : FS :=
  (s.create p [] 0o600 c.now).setBytes s.next data c.now

theorem adds_createdFile (hs : s.Linked) {p : Path} (data : List UInt8) (hne : p ≠ [])
    (hfree : s.get p = none) (hfresh : ∀ k ∈ R, k < s.next) (hR : Apart R s [p.dropLast]) :
    Adds R s p (createdFile c s p data) := by
  have hadds : Adds R s p (s.create p [] 0o600 c.now) := adds_add c.now hs hne hfree hfresh hR
  refine ⟨hfree, fun q hq => ?_, hadds.get, fun k hk => ⟨?_, (hadds.inode k hk).2⟩⟩
  · rw [createdFile, FS.view_setBytes, if_neg, hadds.view q hq]
    rw [hadds.get q hq]
    exact fun h => (hs.fresh q _ h).ne rfl
  · exact (FS.inode_setInode _ _ _ (hfresh k hk).ne).trans (hadds.inode k hk).1

theorem get_createdFile {p : Path} {data : List UInt8} :
    (createdFile c s p data).get p = some s.next := by
  rw [createdFile, FS.setBytes, FS.get_setInode, FS.create, FS.get_add, if_pos rfl]

theorem view_createdFile (c : Call) (s : FS) (p : Path) (data : List UInt8) :
    ∃ mode, (createdFile c s p data).view p = some (.file data, mode) := by
  refine ⟨_, (FS.view_setBytes _ _ _ _ _).trans (if_pos ?_)⟩
  rw [FS.create, FS.get_add, if_pos rfl]

theorem linked_createdFile (hs : s.Linked) {p : Path} (data : List UInt8) (hne : p ≠ [])
    (hfree : s.get p = none) (hparent : s.isDir p.dropLast = true) :
    (createdFile c s p data).Linked := by
  refine linked_setBytes (hs.add c.now hne hfree hparent le_rfl) data c.now ?_
  have hface := FS.face_add s p ⟨.file [], 0o600, 1, c.now, c.now⟩ c.now s.next
  rw [if_pos rfl] at hface
  exact congrArg (fun f => f.1.isDir) hface

theorem writeTarget_create (proc : Process) (hc : Quiet c) {p : Path} {contents : List Nat}
    {data : List UInt8} (hwalk : walkParent c s p = none) (hfree : s.get p = none)
    (hdata : utf8 contents = some data) : writeTarget proc c s p contents =
      (.ok ⟨p, none, true, none⟩, createdFile c s p data) := by
  unfold writeTarget openConfinedWrite
  simp only [hwalk, hfree, hc .createLeaf, hc .closeParent, hc .fstat]
  unfold writeSteps
  have hname : (s.create p [] 0o600 c.now).get p = some s.next := by
    rw [FS.create, FS.get_add, if_pos rfl]
  have hland := landContents_ok hc (h := ⟨p, s.next, true, none, none⟩) hname hdata
  simp only [Bool.false_eq_true, if_false, if_true, hland]
  exact finishWrite_quiet hc

theorem undone_create (hs : s.Linked) {p : Path} (data : List UInt8)
    (hno : NoLink s p) (hwalk : walkParent c s p = none) (hfree : s.get p = none)
    (hfresh : ∀ k ∈ R, k < s.next) (hR : Apart R s [p.dropLast]) :
    Undone proc (.write ⟨p, none, true, none⟩) R V s R V (createdFile c s p data) := by
  obtain ⟨hne, -, hparent⟩ := walkParent_eq_none.mp hwalk
  have hadds : Adds R s p (createdFile c s p data) := adds_createdFile hs data hne hfree hfresh hR
  obtain ⟨mode, hview⟩ := view_createdFile c s p data
  refine ⟨linked_createdFile hs data hne hfree hparent, ?_, fun c' hc' u hl hlone => ?_⟩
  · rw [createdFile, setBytes_next, FS.create, FS.next_add]
    exact Nat.le_succ _
  · have hbound : u.view p = some (.file data, mode) := by
      rw [hl.view_of (.inr ?_), hview]
      rw [get_createdFile]
      exact fun h => by cases h
    have hfile : u.isDir p = false := by
      rw [FS.isDir_eq, hbound]
      rfl
    obtain ⟨i, hi⟩ : ∃ i, u.get p = some i := Option.ne_none_iff_exists'.mp fun hnone => by
      rw [FS.view_eq_none.mpr hnone] at hbound
      cases hbound
    have hdir : u.isDir p.dropLast = true := by
      refine hl.isDir ?_
      rw [FS.isDir_congr (hadds.view _ (FS.ne_dropLast hne)), hparent]
    have hother : ∀ k ∈ R, k ≠ i := by
      rintro k hk rfl
      exact (hadds.inode k hk).2 ((hl.get k hk p).mp hi)
    obtain ⟨u', hunlink, -, hdrops⟩ := drops_unlink (R := R) c'.now hi hfile hne fun k hk =>
      ⟨hother k hk, get_parent_like hadds hne hl hR k hk⟩
    refine ⟨u', ?_, hadds.undone hl hdrops, hdrops.lone hlone⟩
    unfold undo restore removeConfined
    dsimp only
    have hquiet := noLink_adds hadds hno hview (fun h => by cases h)
    rw [(resolveWithin_quiet hc' u p).mpr (hquiet.like hl)]
    simp [hdir, hunlink]

/-! ## Sidecar directories -/

theorem sidecar_like (hc : Quiet c) (hs : s.Linked) {name : String}
    (hname : [name] ∈ sidecarNames) (hready : SidecarReady c s name)
    (hfresh : ∀ k ∈ R, k < s.next) (hroot : ∀ k ∈ R, s.get [] ≠ some k)
    (hV : s.get [name] = none → [name] ∉ V) :
    ∃ t, sidecarDir c s name = (.ok [name], t) ∧ WithSidecar s name t ∧ t.Linked ∧
      s.next ≤ t.next ∧ Like R V s t := by
  obtain ⟨t, hdir, hside⟩ := sidecarDir_of_ready hs.toWellFormed hready
  refine ⟨t, hdir, hside, ?_⟩
  unfold sidecarDir at hdir
  rw [if_neg (by simp [hc .sidecarDir])] at hdir
  cases hget : s.get [name] with
  | none =>
    simp only [hget] at hdir
    obtain ⟨-, rfl⟩ := Prod.mk.inj hdir
    have hadds : Adds R s [name] (s.mkdir [name] 0o700 c.now) :=
      adds_add c.now hs (by simp) hget hfresh (by simpa [Apart] using hroot)
    refine ⟨hs.add c.now (by simp) hget hs.root le_rfl, ?_, ⟨fun q => ?_, fun k hk => ?_,
      fun k hk q => ?_⟩⟩
    · rw [FS.mkdir, FS.next_add]
      exact Nat.le_succ _
    · by_cases hq : q = [name]
      · rw [hq]
        exact .inr ⟨hname, hV hget, hget, hside.isDir⟩
      · exact .inl (hside.view q hq)
    · exact (hadds.inode k hk).1
    · by_cases hq : q = [name]
      · rw [hq, hget]
        simp [(hadds.inode k hk).2]
      · rw [hside.get q hq]
  | some i =>
    have hsame : t = s := by
      simp only [hget] at hdir
      split at hdir
      · exact (Prod.mk.inj hdir).2.symm
      · cases (Prod.mk.inj hdir).1
      · cases (Prod.mk.inj hdir).1
    subst hsame
    exact ⟨hs, le_rfl, Like.refl R V t⟩

/-! ## Removals -/

/-- What `parkCapturedSidecar` records of the slot it filled. -/
def parkedCapture (proc : Process) (s : FS) (i : Nat) : Capture :=
  captureOf s i (parkedDigest proc (s.inode i))

/-- A captured inode that only changed its stamp passes the check. -/
theorem parkedCheck_same (stamped : Bool) (ctime : Nat) {u : FS} {real : Path} {i : Nat}
    (hget : u.get real = some i) (hinode : u.inode i = { s.inode i with ctime := ctime })
    (hlink : (s.inode i).kind ≠ .link) (hstamp : stamped = true → ctime = (s.inode i).ctime) :
    parkedCheck proc u real (parkedCapture proc s i) stamped = .ok () := by
  have hkind : ¬ ((u.inode i).kind = .link ∨
      (u.inode i).kind.tag ≠ (parkedCapture proc s i).tag) := by
    rw [hinode]
    simp [hlink, parkedCapture, captureOf]
  have hlinks : ¬ (u.inode i).links > (parkedCapture proc s i).links := by
    rw [hinode]
    exact lt_irrefl _
  have hsame : ¬ sameIdentity (captureOf u i none) (parkedCapture proc s i) stamped = false := by
    unfold sameIdentity captureOf parkedCapture captureOf
    rw [hinode]
    cases stamped with
    | false => simp
    | true => simp [hstamp rfl]
  have hdigest : ¬ ((parkedCapture proc s i).sha256.isSome = true ∧
      (parkedCapture proc s i).sha256 ≠ parkedDigest proc (u.inode i)) := by
    rw [hinode]
    exact fun h => h.2 rfl
  unfold parkedCheck
  simp only [hget]
  rw [if_neg hkind, if_neg hlinks, if_neg hsame, if_neg hdigest]

theorem parked_of_replace (proc : Process) (hc : Quiet c) {p : Path} {capture : Capture}
    (hfree : s.get (parkedPath c) = none)
    (h : parkCapturedSidecar proc c s p (parkedPath c) = (.ok capture, t)) :
    ∃ i, s.Moves p (parkedPath c) i ∧ t = s.moved p (parkedPath c) i c.now ∧
      capture = parkedCapture proc t i ∧ (t.inode i).kind ≠ .link := by
  unfold parkCapturedSidecar at h
  rcases hrep : replaceConfined c s p (parkedPath c) with ⟨e | v, t'⟩
  · simp [hrep] at h
  · obtain ⟨i, hm, rfl⟩ := moves_of_replace hfree hrep
    have hget : (s.moved p (parkedPath c) i c.now).get (parkedPath c) = some i := by
      rw [FS.get_moved, NameTree.get_graft, if_pos (List.prefix_refl _), NameTree.rebase_self]
      exact hm.bound
    simp only [hrep, hc .parkedStat, hget, hc .parkedDigest] at h
    refine ⟨i, hm, ?_⟩
    cases hkind : ((s.moved p (parkedPath c) i c.now).inode i).kind with
    | link => simp [hkind, fail] at h
    | file bytes =>
      simp only [hkind, Bool.false_eq_true, if_false, Prod.mk.injEq, Except.ok.injEq] at h
      obtain ⟨rfl, rfl⟩ := h
      exact ⟨rfl, rfl, by rw [hkind]; nofun⟩
    | dir | special =>
      simp only [hkind, Bool.false_eq_true, if_false, Prod.mk.injEq, Except.ok.injEq] at h
      obtain ⟨rfl, rfl⟩ := h
      refine ⟨rfl, ?_, by rw [hkind]; nofun⟩
      rw [parkedCapture, parkedDigest, hkind]

theorem noLink_parked {name x : String} (hroot : s.isDir [] = true)
    (hdir : s.isDir [name] = true) (hx : ∀ mode, s.view [name, x] ≠ some (.link, mode)) :
    NoLink s [name, x] := by
  intro q hq mode hview
  have hmem := (List.mem_inits q [name, x]).mpr hq
  simp only [List.inits, List.map_cons, List.map_nil, List.mem_cons, List.not_mem_nil,
    or_false] at hmem
  rcases hmem with rfl | rfl | rfl
  · rw [FS.isDir_eq, hview] at hroot
    cases hroot
  · rw [FS.isDir_eq, hview] at hdir
    cases hdir
  · exact hx mode hview

theorem resolveSidecar_quiet (hc : Quiet c) {name x : String} (hno : NoLink s [name, x])
    (hdir : s.isDir [name] = true) : resolveSidecar c s [name, x] name = .ok [name, x] := by
  unfold FS.isDir at hdir
  unfold resolveSidecar
  rw [(resolveWithin_quiet hc s _).mpr hno]
  cases hget : s.get [name] with
  | none => simp [hget] at hdir
  | some i =>
    simp only [hget] at hdir
    cases hkind : (s.inode i).kind <;> simp [hkind, Kind.isDir] at hdir
    simp [bind, Except.bind, pure, Except.pure, hkind]

theorem undone_park (proc : Process) (V : List Path) (hs : s.Linked) {p : Path} {i : Nat} (hno : NoLink s p)
    (hm : s.Moves p (parkedPath c) i) (hR : Apart R s [p, p.dropLast, [garbageName]])
    (hlink : ((s.moved p (parkedPath c) i c.now).inode i).kind ≠ .link) :
    Undone proc (.rm ⟨p, parkedPath c, parkedCapture proc (s.moved p (parkedPath c) i c.now) i⟩)
      R V s (i :: R) (vacate s p V) (s.moved p (parkedPath c) i c.now) := by
  have hapart := hm.apart hs.toWellFormed
  have hgarbage : s.isDir [garbageName] = true := hm.parent
  refine ⟨hs.moved c.now hm, FS.next_moved.ge, fun c' hc' u hl hlone => ?_⟩
  have hi : u.get (parkedPath c) = some i := by
    rw [hl.get i List.mem_cons_self, FS.get_moved, NameTree.get_graft,
      if_pos (List.prefix_refl _)]
    rw [NameTree.rebase_self]
    exact hm.bound
  have hdirU : ∀ q, s.isDir q = true → ¬ p <+: q → ¬ parkedPath c <+: q → u.isDir q = true := by
    intro q hq hp hpark
    refine hl.isDir ?_
    rw [FS.isDir_congr (view_aside hpark hp), hq]
  have hnotGarbage : ¬ p <+: [garbageName] := fun h => hm.under (h.trans ⟨["rm-" ++ c.uuid], rfl⟩)
  have hgarbageU : u.isDir [garbageName] = true :=
    hdirU _ hgarbage hnotGarbage (by simp [parkedPath, List.cons_prefix_cons])
  have hrootU : u.isDir [] = true :=
    hdirU _ hs.root (by simpa using hm.src_ne) (by simp [parkedPath])
  -- the captured inode is as the removal left it, its stamp included
  have hinode : u.inode i = { (s.moved p (parkedPath c) i c.now).inode i with
      ctime := ((s.moved p (parkedPath c) i c.now).inode i).ctime } :=
    hl.inode i List.mem_cons_self
  have hnoPark : NoLink u (parkedPath c) := by
    refine noLink_parked hrootU hgarbageU fun mode hview => hlink ?_
    have hface : u.view (parkedPath c) = some (u.face i) := by
      rw [FS.view_eq, hi]
      rfl
    have hkind : (u.face i).1 = .link :=
      congrArg Prod.fst (Option.some.inj (hface.symm.trans hview))
    rw [FS.face, hinode] at hkind
    exact hkind
  have hback := back_rename hs hm hl hlone (fun _ => isDir_of_not_vacated) hc' hi
  -- the name and the directories are not those of the parked inode
  have hnotDir : ∀ q, q ≠ p → ¬ p <+: q → ¬ parkedPath c <+: q → s.isDir q = true →
      u.get q ≠ some i := by
    intro q hqp hp hpark hdir
    rw [Ne, hl.get i List.mem_cons_self, get_aside hpark hp]
    exact fun h => hqp (hs.alone_dir h hm.bound hdir)
  have hfreeU : u.get p ≠ some i := by
    rw [Ne, hl.get i List.mem_cons_self, FS.get_moved, NameTree.get_graft, if_neg hapart,
      if_pos (List.prefix_refl p)]
    exact fun h => by cases h
  -- the rename back stamps it, which the check on the way out leaves aside
  have hself : (u.moved (parkedPath c) p i c'.now).inode i =
      { u.inode i with ctime := c'.now } := by
    refine FS.inode_moved_self c'.now hfreeU ?_ ?_
    · rw [FS.get_graft_src hm.dst_ne hm.under]
      refine hnotDir _ ?_ hnotGarbage (not_prefix_dropLast hm.dst_ne) hgarbage
      intro h
      exact hnotGarbage (h ▸ List.prefix_refl _)
    · rw [FS.get_graft_dst hm.src_ne hapart]
      exact hnotDir _ (FS.ne_dropLast hm.src_ne) (not_prefix_dropLast hm.src_ne)
        (fun h => hapart (h.trans ( List.dropLast_prefix p)))
        (hs.isDir_dropLast hm.src_ne (by simp [hm.bound]))
  have hselfGet : (u.moved (parkedPath c) p i c'.now).get p = some i := by
    rw [FS.get_moved, NameTree.get_graft, if_pos (List.prefix_refl p), NameTree.rebase_self]
    exact hi
  refine ⟨u.moved (parkedPath c) p i c'.now, ?_, ?_, lone_moved hlone⟩
  · unfold undo unrm installParkedSidecar
    dsimp only
    rw [(resolveWithin_quiet hc' u p).mpr ((noLink_moved_src hapart hno).like hl),
      show resolveSidecar c' u (parkedPath c) garbageName = .ok (parkedPath c) from
        resolveSidecar_quiet hc' hnoPark hgarbageU]
    dsimp only
    rw [hi, Option.isSome_some, if_pos rfl,
      parkedCheck_same true _ hi hinode hlink (fun _ => rfl)]
    dsimp only
    rw [hback]
    dsimp only
    rw [parkedCheck_same false c'.now hselfGet (by rw [hself, hinode]) hlink (fun h => by cases h)]
  · refine back_like hs hm hl (fun k hk => ⟨List.mem_cons_of_mem _ hk, ?_, ?_, ?_⟩)
      (subset_vacate s p V) hi _
    · rintro rfl
      exact hR p (by simp) k hk hm.bound
    · exact hR p.dropLast (by simp) k hk
    · exact hR [garbageName] (by simp) k hk

/-! ## Overwritten files -/

/-- The tree with the sidecar of a file that has the bytes and the inode. -/
def snapshot (c : Call) (s : FS) (bytes : List UInt8) (n : Inode) : FS :=
  (s.create (preimagePath c) bytes n.mode c.now).setInode s.next
    ⟨.file bytes, n.mode, 1, n.mtime, c.now⟩

def snapshotCapture (proc : Process) (c : Call) (s : FS) (bytes : List UInt8) (n : Inode) :
    Capture :=
  captureOf (snapshot c s bytes n) s.next (some (proc.sha256 bytes))

def overwritten (c : Call) (s : FS) (i : Nat) (bytes data : List UInt8) : FS :=
  (snapshot c s bytes (s.inode i)).setBytes i data c.now

theorem get_snapshot {bytes : List UInt8} {n : Inode} (q : Path) :
    (snapshot c s bytes n).get q = if q = preimagePath c then some s.next else s.get q := by
  rw [snapshot, FS.get_setInode, FS.create, FS.get_add]

theorem writeTarget_over (proc : Process) (hc : Quiet c) {p : Path} {i : Nat}
    {bytes data : List UInt8} {contents : List Nat} (hwalk : walkParent c s p = none)
    (hget : s.get p = some i) (hkind : (s.inode i).kind = .file bytes)
    (hlinks : (s.inode i).links ≤ 1) (hdir : sidecarDir c s preimageName = (.ok [preimageName], t))
    (hget' : t.get p = some i) (hkind' : (t.inode i).kind = .file bytes)
    (hfree : t.get (preimagePath c) = none) (hdata : utf8 contents = some data) :
    writeTarget proc c s p contents =
      (.ok ⟨p, some (preimagePath c), false, some (snapshotCapture proc c t bytes (t.inode i))⟩,
        overwritten c t i bytes data) := by
  have hpath : [preimageName] ++ ["pre-" ++ c.uuid] = preimagePath c := rfl
  have hne : p ≠ preimagePath c := by
    rintro rfl
    rw [hget'] at hfree
    cases hfree
  have hsnap : snapshotPreimage proc c s ⟨p, i, false, none, none⟩ =
      (.ok (), ⟨p, i, false, some (preimagePath c),
        some (snapshotCapture proc c t bytes (t.inode i))⟩, snapshot c t bytes (t.inode i)) := by
    unfold snapshotPreimage
    simp only [hdir, hc .freshSidecar, Bool.false_eq_true, if_false, hpath, hc .sidecarOpen, hfree,
      Option.isSome_none, or_self, hkind', hc .sidecarCopy]
    rfl
  have hname : (snapshot c t bytes (t.inode i)).get p = some i := by
    rw [get_snapshot, if_neg hne, hget']
  have hland := landContents_ok hc (h := ⟨p, i, false, some (preimagePath c),
    some (snapshotCapture proc c t bytes (t.inode i))⟩) hname hdata
  unfold writeTarget openConfinedWrite
  simp only [hwalk, hget, hc .openLeaf, hkind, hc .closeParent, hc .fstat, Bool.false_eq_true,
    if_false, if_neg (Nat.not_lt.mpr hlinks)]
  unfold writeSteps
  simp only [Bool.false_eq_true, if_false, hsnap, hland]
  exact finishWrite_quiet hc

theorem linked_snapshot (hs : s.Linked) {bytes : List UInt8} {n : Inode}
    (hfree : s.get (preimagePath c) = none) (hdir : s.isDir [preimageName] = true) :
    (snapshot c s bytes n).Linked := by
  have hface := FS.face_add s (preimagePath c) ⟨.file bytes, n.mode, 1, c.now, c.now⟩ c.now s.next
  rw [if_pos rfl] at hface
  have hlinks : ((s.create (preimagePath c) bytes n.mode c.now).inode s.next).links = 1 := by
    rw [FS.create, FS.add, (FS.stamp_touchAt _ _ _ _).2]
    simp [FS.setInode]
  refine FS.Linked.setInode (hs.add c.now (by simp [preimagePath]) hfree hdir le_rfl) ?_ ?_
  · exact (congrArg (fun f => f.1.isDir) hface).symm
  · exact hlinks.symm

/-- A captured sidecar that only changed its stamp passes the check. -/
theorem checkedStat_same (stamped : Bool) (ctime : Nat) {u : FS} {real : Path} {bytes : List UInt8}
    {n : Inode} (hread : proc.readable n.mode = true) (hget : u.get real = some s.next)
    (hinode : u.inode s.next = ⟨.file bytes, n.mode, 1, n.mtime, ctime⟩)
    (hstamp : stamped = true → ctime = c.now) :
    checkedStat proc u real (some (snapshotCapture proc c s bytes n)) stamped = .ok () := by
  have hself : (snapshot c s bytes n).inode s.next = ⟨.file bytes, n.mode, 1, n.mtime, c.now⟩ :=
    if_pos rfl
  have hsame : ¬ sameIdentity (captureOf u s.next (some (proc.sha256 bytes)))
      (snapshotCapture proc c s bytes n) stamped = false := by
    unfold sameIdentity snapshotCapture captureOf
    rw [hinode, hself]
    cases stamped with
    | false => simp
    | true => simp [hstamp rfl]
  unfold checkedStat
  simp only [hget]
  rw [hinode]
  dsimp only
  rw [if_neg (by simp [hread]), if_neg (by simp), if_neg hsame, if_neg]
  exact fun h => h.2 rfl

section Overwritten

variable {p : Path} {i : Nat} {bytes data : List UInt8}

/-- A file of one link, with the sidecar directory in place and the sidecar's name free. -/
structure Overwrites (c : Call) (s : FS) (p : Path) (i : Nat) (bytes : List UInt8) : Prop where
  linked : s.Linked
  bound : s.get p = some i
  kind : (s.inode i).kind = .file bytes
  links : (s.inode i).links ≤ 1
  free : s.get (preimagePath c) = none
  dir : s.isDir [preimageName] = true

theorem get_overwritten (q : Path) :
    (overwritten c s i bytes data).get q = if q = preimagePath c then some s.next else s.get q := by
  rw [overwritten, FS.setBytes, FS.get_setInode, get_snapshot]

theorem inode_overwritten {k : Nat} (hki : k ≠ i) (hknext : k ≠ s.next)
    (hdir : s.get [preimageName] ≠ some k) :
    (overwritten c s i bytes data).inode k = s.inode k :=
  (FS.inode_setInode _ i _ hki).trans ((FS.inode_setInode _ s.next _ hknext).trans
    (FS.inode_add _ c.now (by simp [preimagePath]) hknext hdir))

variable (ho : Overwrites c s p i bytes)

include ho

theorem over_fresh : i ≠ s.next := (ho.linked.fresh p i ho.bound).ne

theorem over_file : s.isDir p = false := by
  rw [FS.isDir, ho.bound]
  simp [ho.kind, Kind.isDir]

theorem over_ne : p ≠ preimagePath c := by
  rintro rfl
  have hfree := ho.free
  rw [ho.bound] at hfree
  cases hfree

theorem over_ne_nil : p ≠ [] := by
  rintro rfl
  have hroot := ho.linked.root
  rw [over_file ho] at hroot
  cases hroot

theorem over_not_above : ¬ p <+: preimagePath c := by
  intro h
  have hmem := (List.mem_inits p (preimagePath c)).mpr h
  simp only [preimagePath, List.inits, List.map_cons, List.map_nil, List.mem_cons,
    List.not_mem_nil, or_false] at hmem
  rcases hmem with h | h | h
  · exact over_ne_nil ho h
  · have hdir := ho.dir
    rw [← h, over_file ho] at hdir
    cases hdir
  · exact over_ne ho h

theorem over_not_below : ¬ preimagePath c <+: p := by
  rintro ⟨r, rfl⟩
  have hnone := ho.linked.get_below ho.free r
  rw [ho.bound] at hnone
  cases hnone

theorem view_snapshot (q : Path) : (snapshot c s bytes (s.inode i)).view q =
    if q = preimagePath c then some (.file bytes, (s.inode i).mode) else s.view q := by
  rw [← FS.view_add ho.linked.fresh (preimagePath c)
    ⟨.file bytes, (s.inode i).mode, 1, c.now, c.now⟩ c.now]
  refine FS.view_congr rfl fun k _ => FS.face_restamp _ _ ?_ k
  rw [FS.create, FS.face_add, if_pos rfl]

theorem view_overwritten (q : Path) : (overwritten c s i bytes data).view q =
    if q = p then some (.file data, ((snapshot c s bytes (s.inode i)).inode i).mode)
    else if q = preimagePath c then some (.file bytes, (s.inode i).mode) else s.view q := by
  rw [overwritten, FS.view_setBytes, view_snapshot ho, get_snapshot]
  by_cases hq : q = p
  · rw [if_pos hq, hq, if_neg (over_ne ho), if_pos ho.bound]
  · rw [if_neg hq]
    by_cases hpre : q = preimagePath c
    · rw [if_pos hpre, if_neg fun h => over_fresh ho (Option.some.inj h).symm, if_pos hpre]
    · rw [if_neg hpre, if_neg, if_neg hpre]
      intro hqi
      refine hq (ho.linked.alone hqi ho.bound ?_)
      rw [FS.bound, ho.kind]
      exact ho.links

theorem inode_sidecar : (overwritten c s i bytes data).inode s.next =
    ⟨.file bytes, (s.inode i).mode, 1, (s.inode i).mtime, c.now⟩ :=
  (FS.inode_setInode _ i _ (over_fresh ho).symm).trans (if_pos rfl)

theorem linked_overwritten : (overwritten c s i bytes data).Linked := by
  refine linked_setBytes (linked_snapshot ho.linked ho.free ho.dir) data c.now ?_
  have hview := view_snapshot ho p
  rw [if_neg (over_ne ho), FS.view_eq, FS.view_eq, get_snapshot, if_neg (over_ne ho), ho.bound]
    at hview
  have hkind := congrArg Prod.fst (Option.some.inj hview)
  show ((snapshot c s bytes (s.inode i)).face i).1.isDir = false
  rw [hkind, FS.face, ho.kind]
  rfl

theorem isDir_overwritten {q : Path} (hq : s.isDir q = true) :
    (overwritten c s i bytes data).isDir q = true := by
  have hqp : q ≠ p := by
    rintro rfl
    rw [over_file ho] at hq
    cases hq
  have hpre : q ≠ preimagePath c := by
    rintro rfl
    rw [FS.isDir, ho.free] at hq
    cases hq
  rw [FS.isDir_congr (p := q) (s := s), hq]
  rw [view_overwritten ho, if_neg hqp, if_neg hpre]

/-- The sidecar put back leaves the tree before the snapshot. -/
theorem over_like {u : FS} (hl : Like (s.next :: R) V (overwritten c s i bytes data) u)
    (hfresh : ∀ k ∈ R, k < s.next) (hR : Apart R s [p, p.dropLast, [preimageName]]) (now : Nat) :
    Like R V s (u.moved (preimagePath c) p s.next now) := by
  have hget : ∀ q, (overwritten c s i bytes data).get q =
      if q = preimagePath c then some s.next else s.get q := get_overwritten
  have hview : ∀ q, (overwritten c s i bytes data).view q = _ := view_overwritten ho
  -- the sidecar shows what the file showed, and below neither name lies anything
  have hside : ∀ r, u.view (preimagePath c ++ r) = s.view (p ++ r) := by
    intro r
    rw [hl.view_of (.inl ?_), hview]
    · by_cases hr : r = []
      · rw [hr, List.append_nil, List.append_nil, if_neg (over_ne ho).symm, if_pos rfl, FS.view_eq,
          ho.bound, Option.map_some, FS.face, ho.kind]
      · have hpre : preimagePath c ++ r ≠ preimagePath c := by simpa using hr
        have hne : preimagePath c ++ r ≠ p := fun h => over_not_below ho ⟨r, h⟩
        rw [if_neg hne, if_neg hpre, FS.view_eq_none.mpr (ho.linked.get_below ho.free r), eq_comm,
          FS.view_eq_none]
        by_contra hbelow
        have hdir := ho.linked.isDir_of_below hr hbelow
        rw [over_file ho] at hdir
        cases hdir
    · intro hmem
      have hlen := mem_sidecarNames hmem
      simp [preimagePath] at hlen
  refine ⟨fun q => ?_, fun k hk => ?_, fun k hk q => ?_⟩
  · rw [FS.view_moved]
    split_ifs with hp hpre
    · obtain ⟨r, rfl⟩ := hp
      rw [NameTree.rebase_append, hside]
      exact .inl rfl
    · obtain ⟨r, rfl⟩ := hpre
      rw [FS.view_eq_none.mpr (ho.linked.get_below ho.free r)]
      exact .inl rfl
    · have hqp : q ≠ p := fun h => hp (h ▸ List.prefix_refl q)
      have hqpre : q ≠ preimagePath c := fun h => hpre (h ▸ List.prefix_refl q)
      have hsame := hview q
      rw [if_neg hqp, if_neg hqpre] at hsame
      rcases hl.view q with heq | ⟨hmem, hV, hfree, hdir⟩
      · exact .inl (heq.trans hsame)
      · rw [hget, if_neg hqpre] at hfree
        refine .inr ⟨hmem, hV, hfree, ?_⟩
        rw [FS.isDir_congr (s := u) (p := q), hdir]
        rw [FS.view_moved, if_neg hp, if_neg hpre]
  · have hkget := hl.get k (List.mem_cons_of_mem _ hk)
    have hki : k ≠ i := by
      rintro rfl
      exact hR p (by simp) k hk ho.bound
    have hkdir := hR [preimageName] (by simp) k hk
    rw [FS.inode_moved now (hfresh k hk).ne, hl.inode k (List.mem_cons_of_mem _ hk),
      inode_overwritten hki (hfresh k hk).ne hkdir]
    · rw [Ne, hkget, hget, if_neg (over_ne ho), ho.bound]
      exact fun h => hki (Option.some.inj h).symm
    · rw [FS.get_graft_src (by simp [preimagePath]) (over_not_above ho), Ne, hkget, hget, if_neg]
      · exact hkdir
      · exact FS.ne_dropLast (by simp [preimagePath])
    · rw [FS.get_graft_dst (over_ne_nil ho) (over_not_below ho), Ne, hkget, hget, if_neg]
      · exact hR p.dropLast (by simp) k hk
      · intro h
        exact over_not_below ho (h ▸ List.dropLast_prefix p)
  · have hkget := hl.get k (List.mem_cons_of_mem _ hk)
    rw [FS.get_moved, NameTree.get_graft]
    split_ifs with hp hpre
    · obtain ⟨r, rfl⟩ := hp
      rw [NameTree.rebase_append]
      refine (hkget _).trans ?_
      rw [hget]
      by_cases hr : r = []
      · rw [hr, List.append_nil, List.append_nil, if_pos rfl, ho.bound]
        constructor
        · intro h
          exact absurd (Option.some.inj h).symm (hfresh k hk).ne
        · rintro h
          exact absurd (ho.bound.trans h) (hR p (by simp) k hk)
      · have hbelow : s.get (p ++ r) = none := by
          by_contra hbelow
          have hdir := ho.linked.isDir_of_below hr hbelow
          rw [over_file ho] at hdir
          cases hdir
        rw [if_neg (by simpa using hr), ho.linked.get_below ho.free r, hbelow]
    · obtain ⟨r, rfl⟩ := hpre
      simp [ho.linked.get_below ho.free r]
    · refine (hkget q).trans ?_
      rw [hget, if_neg]
      exact fun h => hpre (h ▸ List.prefix_refl q)

theorem undone_overwrite (hno : NoLink s p) (hread : proc.readable (s.inode i).mode = true)
    (hfresh : ∀ k ∈ R, k < s.next) (hR : Apart R s [p, p.dropLast, [preimageName]]) :
    Undone proc (.write ⟨p, some (preimagePath c), false,
      some (snapshotCapture proc c s bytes (s.inode i))⟩) R V s (s.next :: R) V
      (overwritten c s i bytes data) := by
  have hlinked : (overwritten c s i bytes data).Linked := linked_overwritten ho
  refine ⟨hlinked, ?_, fun c' hc' u hl hlone => ?_⟩
  · rw [overwritten, setBytes_next]
    show s.next ≤ (s.create (preimagePath c) bytes (s.inode i).mode c.now).next
    rw [FS.create, FS.next_add]
    exact Nat.le_succ _
  have hmem : s.next ∈ s.next :: R := List.mem_cons_self
  -- the sidecar's inode has the one name, and is as the write left it
  have hnames : ∀ q, u.get q = some s.next ↔ q = preimagePath c := by
    intro q
    rw [hl.get _ hmem, get_overwritten]
    split_ifs with hq
    · exact iff_of_true rfl hq
    · exact iff_of_false (fun h => (ho.linked.fresh q _ h).ne rfl) hq
  have hj : u.get (preimagePath c) = some s.next := (hnames _).mpr rfl
  have hinode : u.inode s.next = ⟨.file bytes, (s.inode i).mode, 1, (s.inode i).mtime, c.now⟩ :=
    (hl.inode _ hmem).trans (inode_sidecar ho)
  have hfile : u.isDir (preimagePath c) = false := by
    rw [FS.isDir, hj]
    simp [hinode, Kind.isDir]
  have hviewP : u.view p = (overwritten c s i bytes data).view p := by
    refine hl.view_of (.inr ?_)
    rw [get_overwritten, if_neg (over_ne ho), ho.bound]
    exact fun h => by cases h
  have hfileP : u.isDir p = false := by
    rw [FS.isDir_eq, hviewP, view_overwritten ho, if_pos rfl]
    rfl
  have hdirU : ∀ q, s.isDir q = true → u.isDir q = true :=
    fun q hq => hl.isDir (isDir_overwritten ho hq)
  have hnoT : NoLink (overwritten c s i bytes data) p := by
    intro q hq mode hview
    rw [view_overwritten ho] at hview
    split_ifs at hview with h1 h2
    · cases hview
    · cases hview
    · exact hno q hq mode hview
  have hnoSide : NoLink u (preimagePath c) := by
    refine noLink_parked (hdirU _ ho.linked.root) (hdirU _ ho.dir) fun mode hview => ?_
    have hshown : u.view (preimagePath c) = some (u.face s.next) := by
      rw [FS.view_eq, hj]
      rfl
    have hkind : (u.face s.next).1 = .link :=
      congrArg Prod.fst (Option.some.inj (hshown.symm.trans hview))
    rw [FS.face, hinode] at hkind
    cases hkind
  have hparent : s.isDir p.dropLast = true :=
    ho.linked.isDir_dropLast (over_ne_nil ho) (by simp [ho.bound])
  have hother : ∀ q, q ≠ preimagePath c → u.get q ≠ some s.next := fun q hq h =>
    hq ((hnames q).mp h)
  have hreplace : replaceConfined c' u (preimagePath c) p =
      (.ok (), u.moved (preimagePath c) p s.next c'.now) :=
    replaceConfined_quiet hc'
      (walkParent_quiet hc' (by simp [preimagePath]) (hdirU [preimageName] ho.dir))
      (walkParent_quiet hc' (over_ne_nil ho) (hdirU _ hparent))
      (rename_moved hj (over_not_below ho) (.inr ⟨hother p (over_ne ho),
        hfile.trans hfileP.symm, fun h => absurd h (by simp [hfileP])⟩))
  have hself : (u.moved (preimagePath c) p s.next c'.now).inode s.next =
      { u.inode s.next with ctime := c'.now } := by
    refine FS.inode_moved_self c'.now (hother p (over_ne ho)) ?_ ?_
    · rw [FS.get_graft_src (by simp [preimagePath]) (over_not_above ho)]
      exact hother _ (FS.ne_dropLast (by simp [preimagePath]))
    · rw [FS.get_graft_dst (over_ne_nil ho) (over_not_below ho)]
      exact hother _ fun h => over_not_below ho (h ▸ List.dropLast_prefix p)
  have hselfGet : (u.moved (preimagePath c) p s.next c'.now).get p = some s.next := by
    rw [FS.get_moved, NameTree.get_graft, if_pos (List.prefix_refl p), NameTree.rebase_self]
    exact hj
  refine ⟨u.moved (preimagePath c) p s.next c'.now, ?_, over_like ho hl hfresh hR c'.now,
    lone_moved hlone⟩
  unfold undo restore installCapturedSidecar
  dsimp only
  rw [(resolveWithin_quiet hc' u p).mpr (hnoT.like hl)]
  dsimp only
  rw [if_neg (by simp), Option.getD_some,
    show resolveSidecar c' u (preimagePath c) preimageName = .ok (preimagePath c) from
      resolveSidecar_quiet hc' hnoSide (hdirU _ ho.dir)]
  dsimp only
  rw [hj, Option.isSome_some, if_pos rfl, checkedStat_same true c.now hread hj hinode fun _ => rfl]
  dsimp only
  rw [hreplace]
  dsimp only
  rw [checkedStat_same false c'.now hread hselfGet (by rw [hself, hinode]) (fun h => by cases h)]

end Overwritten

end Revl.Fs
