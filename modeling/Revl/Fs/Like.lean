import Revl.Fs.Linked

/-!
# Like trees

The tree that the inverses of the later operations have left is not the one an operation left: its
stamps and inodes are others, and sidecar directories stay. It is like it.

- `Like`: the same names show the same, and the captured inodes are where and as they were.
- `resolveWithin_quiet`, `replaceConfined_quiet`: the guards where no system call fails.
- `back_rename`, `back_like`: a rename taken back on a tree like the one it left.
-/

namespace Revl.Fs

/-- No system call of the call fails. -/
def Quiet (c : Call) : Prop := ∀ x, c.fails x = false

/-- The same names show the same, but for sidecar directories outside `V`, and the inodes of `R` are
where and as they were. -/
structure Like (R : List Nat) (V : List Path) (s t : FS) : Prop where
  view : ∀ p, t.view p = s.view p ∨
    (p ∈ sidecarNames ∧ p ∉ V ∧ s.get p = none ∧ t.isDir p = true)
  inode : ∀ i ∈ R, t.inode i = s.inode i
  get : ∀ i ∈ R, ∀ p, t.get p = some i ↔ s.get p = some i

/-- A directory has one name. -/
def Lone (s : FS) : Prop :=
  ∀ i p q, (s.inode i).kind.isDir = true → s.get p = some i → s.get q = some i → p = q

theorem lone_of_linked {s : FS} (hs : s.Linked) : Lone s := by
  intro i p q hdir hp hq
  refine hs.alone_dir hp hq ?_
  rw [FS.isDir, hp]
  exact hdir

namespace Like

variable {R R' : List Nat} {V V' : List Path} {s t u : FS}

theorem refl (R : List Nat) (V : List Path) (s : FS) : Like R V s s where
  view _ := .inl rfl
  inode _ _ := rfl
  get _ _ _ := Iff.rfl

theorem trans (h : Like R V s t) (h' : Like R V t u) : Like R V s u where
  view p := by
    rcases h.view p with hp | ⟨hmem, hV, hfree, hdir⟩
    · rcases h'.view p with hp' | ⟨hmem, hV, hfree, hdir⟩
      · exact .inl (hp'.trans hp)
      · refine .inr ⟨hmem, hV, ?_, hdir⟩
        rwa [← FS.view_eq_none, ← hp, FS.view_eq_none]
    · rcases h'.view p with hp' | ⟨-, -, hfree', -⟩
      · exact .inr ⟨hmem, hV, hfree, (FS.isDir_congr hp').trans hdir⟩
      · unfold FS.isDir at hdir
        rw [hfree'] at hdir
        cases hdir
  inode i hi := (h'.inode i hi).trans (h.inode i hi)
  get i hi p := (h'.get i hi p).trans (h.get i hi p)

theorem mono (hR : ∀ i ∈ R, i ∈ R') (hV : ∀ p ∈ V, p ∈ V') (h : Like R' V' s t) : Like R V s t where
  view p := (h.view p).imp_right fun h => ⟨h.1, fun hp => h.2.1 (hV p hp), h.2.2⟩
  inode i hi := h.inode i (hR i hi)
  get i hi := h.get i (hR i hi)

theorem isDir (h : Like R V s t) {p : Path} (hp : s.isDir p = true) : t.isDir p = true := by
  rcases h.view p with heq | ⟨-, -, -, hdir⟩
  · rw [FS.isDir_congr heq, hp]
  · exact hdir

/-- A name of two components or more, or a bound one, shows the same. -/
theorem view_of (h : Like R V s t) {p : Path} (hp : p ∉ sidecarNames ∨ s.get p ≠ none) :
    t.view p = s.view p := by
  rcases h.view p with heq | ⟨hmem, -, hfree, -⟩
  · exact heq
  · rcases hp with hp | hp
    · exact absurd hmem hp
    · exact absurd hfree hp

theorem unchanged (h : Like R V s t) : Unchanged s t :=
  fun p => (h.view p).imp_right fun h => ⟨h.1, h.2.2⟩

end Like

theorem mem_sidecarNames {p : Path} (h : p ∈ sidecarNames) : p.length = 1 := by
  simp only [sidecarNames, List.mem_cons, List.not_mem_nil, or_false] at h
  rcases h with rfl | rfl <;> rfl

/-! ## Guards without failures -/

/-- No link on the way to a name, nor under it. -/
def NoLink (s : FS) (p : Path) : Prop := ∀ q, q <+: p → ∀ mode, s.view q ≠ some (.link, mode)

theorem resolveWithin_quiet {c : Call} (hc : Quiet c) (s : FS) (p : Path) :
    resolveWithin c s p = .ok p ↔ NoLink s p := by
  unfold resolveWithin NoLink
  rw [if_neg (by simp [hc .resolve])]
  constructor
  · intro h q hq mode hview
    split_ifs at h with hany
    refine hany (List.any_eq_true.mpr ⟨q, (List.mem_inits q p).mpr hq, ?_⟩)
    obtain ⟨i, hi, hface⟩ := Option.map_eq_some_iff.mp hview
    rw [Prod.mk.injEq] at hface
    simp [hi, hface.1]
  · intro h
    rw [if_neg]
    intro hany
    obtain ⟨q, hq, hlink⟩ := List.any_eq_true.mp hany
    cases hget : s.get q with
    | none => simp [hget] at hlink
    | some i =>
      simp only [hget, beq_iff_eq] at hlink
      refine h q ((List.mem_inits q p).mp hq) (s.inode i).mode ?_
      rw [FS.view, hget, Option.map_some, hlink]

theorem NoLink.like {R : List Nat} {V : List Path} {s t : FS} {p : Path} (h : NoLink s p)
    (hl : Like R V s t) : NoLink t p := by
  intro q hq mode hview
  rcases hl.view q with heq | ⟨-, -, -, hdir⟩
  · exact h q hq mode (heq ▸ hview)
  · rw [FS.isDir_eq, hview] at hdir
    cases hdir

theorem walkParent_quiet {c : Call} (hc : Quiet c) {s : FS} {p : Path} (hne : p ≠ [])
    (hdir : s.isDir p.dropLast = true) : walkParent c s p = none :=
  walkParent_eq_none.mpr ⟨hne, hc .walk, hdir⟩

theorem replaceConfined_quiet {c : Call} (hc : Quiet c) {s t : FS} {src dst : Path}
    (hsrc : walkParent c s src = none) (hdst : walkParent c s dst = none)
    (hren : s.rename src dst c.now = .ok t) : replaceConfined c s src dst = (.ok (), t) := by
  unfold replaceConfined
  simp only [hsrc, hdst, hc .rename, hc .closeAfterRename, hren]
  rfl

/-- A rename over nothing, or over an empty directory by another. -/
theorem rename_moved {s : FS} {src dst : Path} {i : Nat} {now : Nat} (hsrc : s.get src = some i)
    (hunder : ¬ src <+: dst) (hdst : s.get dst = none ∨ (s.get dst ≠ some i ∧
      s.isDir src = s.isDir dst ∧ (s.isDir dst = true → s.names.isEmptyBelow dst = true))) :
    s.rename src dst now = .ok (s.moved src dst i now) := by
  unfold FS.rename
  simp only [hsrc]
  rw [if_neg fun h => hunder h.1]
  cases hget : s.get dst with
  | none => rfl
  | some j =>
    obtain ⟨hne, hdir, hempty⟩ := hdst.resolve_left (by simp [hget])
    have hij : i ≠ j := by
      rintro rfl
      exact hne hget
    have hi : s.isDir src = (s.inode i).kind.isDir := by rw [FS.isDir, hsrc]
    have hj : s.isDir dst = (s.inode j).kind.isDir := by rw [FS.isDir, hget]
    dsimp only
    rw [if_neg hij, ← hi, ← hj, hdir]
    cases hd : s.isDir dst with
    | true => simp [hempty hd]
    | false => simp

/-! ## Moving back -/

theorem lone_moved {s : FS} {src dst : Path} {i now : Nat} (h : Lone s) :
    Lone (s.moved src dst i now) := by
  intro k p q hdir hp hq
  by_contra hne
  rw [FS.get_moved] at hp hq
  have hnames : ∀ x ∈ [p, q], (s.names.graft src dst).get x = some k := by simp [hp, hq]
  obtain ⟨l, hl, hlen, hmem⟩ := FS.Linked.graft_names (by simp [hne]) hnames
  have hkind : (s.inode k).kind = ((s.moved src dst i now).inode k).kind :=
    (congrArg Prod.fst (FS.face_moved s src dst i now k)).symm
  match l, hlen with
  | [a, b], _ =>
    have hab := h k a b (by rw [hkind, hdir]) (hmem a (by simp)) (hmem b (by simp))
    simp [hab] at hl

section Back

variable {R R' : List Nat} {V V' : List Path} {s u : FS} {src dst : Path} {i now : Nat}

/-- What was moved is under its new name still. -/
theorem back_bound (hm : s.Moves src dst i) (hl : Like R' V' (s.moved src dst i now) u) (r : Path) :
    u.view (dst ++ r) = s.view (src ++ r) := by
  have hview := FS.view_moved s src dst i now (dst ++ r)
  rw [if_pos (List.prefix_append dst r), NameTree.rebase_append] at hview
  rw [← hview]
  -- `dst` is bound, and a name below it is too long for a sidecar directory's
  refine hl.view_of ?_
  by_cases hr : r = []
  · right
    rw [Ne, ← FS.view_eq_none, hview, hr, List.append_nil, FS.view_eq_none, hm.bound]
    nofun
  · left
    intro hmem
    have hlen := mem_sidecarNames hmem
    have hdst := List.length_pos_of_ne_nil hm.dst_ne
    have hpos := List.length_pos_of_ne_nil hr
    rw [List.length_append] at hlen
    omega

/-- A name neither moved nor filled. -/
theorem view_aside {p : Path} (hd : ¬ dst <+: p) (hsrc : ¬ src <+: p) :
    (s.moved src dst i now).view p = s.view p := by
  rw [FS.view_moved, if_neg hd, if_neg hsrc]

theorem get_aside {p : Path} (hd : ¬ dst <+: p) (hsrc : ¬ src <+: p) :
    (s.moved src dst i now).get p = s.get p := by
  rw [FS.get_moved, NameTree.get_graft, if_neg hd, if_neg hsrc]
  rfl

theorem not_prefix_dropLast {p : Path} (hne : p ≠ []) : ¬ p <+: p.dropLast := by
  intro h
  have hlen := h.length_le
  have hpos := List.length_pos_of_ne_nil hne
  rw [List.length_dropLast] at hlen
  omega

variable (hs : s.Linked) (hm : s.Moves src dst i) (hl : Like R' V' (s.moved src dst i now) u)

include hs hm hl

/-- The tree after the rename back. -/
theorem back_like (hR : ∀ k ∈ R, k ∈ R' ∧ k ≠ i ∧ s.get src.dropLast ≠ some k ∧
      s.get dst.dropLast ≠ some k) (hV : ∀ p ∈ V, p ∈ V') {j : Nat} (hj : u.get dst = some j)
    (now' : Nat) : Like R V s (u.moved dst src j now') := by
  have hapart := hm.apart hs.toWellFormed
  have hsrcFree : (s.moved src dst i now).get src = none := by
    rw [FS.get_moved, NameTree.get_graft, if_neg hapart, if_pos (List.prefix_refl src)]
  have hdstBound : (s.moved src dst i now).get dst = some i := by
    rw [FS.get_moved, NameTree.get_graft, if_pos (List.prefix_refl dst), NameTree.rebase_self]
    exact hm.bound
  -- in turn what a name shows, the kept inodes and their names
  refine ⟨fun p => ?_, fun k hk => ?_, fun k hk p => ?_⟩
  · rw [FS.view_moved]
    split_ifs with hsrc hd
    · obtain ⟨r, rfl⟩ := hsrc
      left
      rw [NameTree.rebase_append]
      exact back_bound hm hl r
    · obtain ⟨r, rfl⟩ := hd
      left
      rw [FS.view_eq_none.mpr (hs.get_below hm.free r)]
    · rcases hl.view p with heq | ⟨hmem, hnot, hfree, hdir⟩
      · left
        rw [heq, view_aside hd hsrc]
      · right
        rw [get_aside hd hsrc] at hfree
        refine ⟨hmem, fun hp => hnot (hV p hp), hfree, ?_⟩
        rw [FS.isDir_congr (s := u) (p := p), hdir]
        rw [FS.view_moved, if_neg hsrc, if_neg hd]
  · obtain ⟨hk', hne, hsp, hdp⟩ := hR k hk
    have hget := hl.get k hk'
    rw [FS.inode_moved now', hl.inode k hk', FS.inode_moved now hne]
    · rw [hm.free]
      nofun
    · rw [FS.get_graft_src hm.src_ne hapart]
      exact hsp
    · rw [FS.get_graft_dst hm.dst_ne hm.under]
      exact hdp
    · rintro rfl
      have hsome := (hget dst).mp hj
      rw [hdstBound] at hsome
      exact hne (Option.some.inj hsome).symm
    · rw [Ne, hget, hsrcFree]
      nofun
    · rw [FS.get_graft_src hm.dst_ne hm.under, Ne, hget,
        get_aside (not_prefix_dropLast hm.dst_ne)
          fun h => hm.under (h.trans ( List.dropLast_prefix _))]
      exact hdp
    · rw [FS.get_graft_dst hm.src_ne hapart, Ne, hget,
        get_aside (fun h => hapart (h.trans ( List.dropLast_prefix _)))
          (not_prefix_dropLast hm.src_ne)]
      exact hsp
  · obtain ⟨hk', -⟩ := hR k hk
    have hget := hl.get k hk'
    rw [FS.get_moved, NameTree.get_graft]
    split_ifs with hsrc hd
    · obtain ⟨r, rfl⟩ := hsrc
      rw [NameTree.rebase_append]
      refine (hget (dst ++ r)).trans ?_
      rw [FS.get_moved, NameTree.get_graft, if_pos (List.prefix_append dst r),
        NameTree.rebase_append]
      rfl
    · obtain ⟨r, rfl⟩ := hd
      simp [hs.get_below hm.free r]
    · refine (hget p).trans ?_
      rw [get_aside hd hsrc]

variable (hlone : Lone u) (hextra : src ∈ sidecarNames → src ∉ V' → s.isDir src = true)

include hlone hextra

/-- The rename back goes through. -/
theorem back_rename {c : Call} (hc : Quiet c) {j : Nat} (hj : u.get dst = some j) :
    replaceConfined c u dst src = (.ok (), u.moved dst src j c.now) := by
  have hapart := hm.apart hs.toWellFormed
  have hsrcFree : (s.moved src dst i now).get src = none := by
    rw [FS.get_moved, NameTree.get_graft, if_neg hapart, if_pos (List.prefix_refl src)]
  have hparent : ∀ p, p ≠ [] → (p = src ∨ p = dst) → s.isDir p.dropLast = true →
      u.isDir p.dropLast = true := by
    intro p hne hp hdir
    refine hl.isDir ?_
    rw [FS.isDir_congr (view_aside ?_ ?_), hdir]
    all_goals
      rcases hp with rfl | rfl
    · exact fun h => hapart (h.trans ( List.dropLast_prefix _))
    · exact not_prefix_dropLast hne
    · exact not_prefix_dropLast hne
    · exact fun h => hm.under (h.trans ( List.dropLast_prefix _))
  refine replaceConfined_quiet hc (walkParent_quiet hc hm.dst_ne (hparent dst hm.dst_ne (.inr rfl)
    hm.parent)) (walkParent_quiet hc hm.src_ne (hparent src hm.src_ne (.inl rfl)
    (hs.isDir_dropLast hm.src_ne (by simp [hm.bound])))) (rename_moved hj hapart ?_)
  rcases hl.view src with heq | ⟨hmem, hV, -, hdir⟩
  · left
    rw [← FS.view_eq_none, heq, FS.view_eq_none, hsrcFree]
  · -- a sidecar directory stands where the moved directory was
    right
    have hmoved : u.isDir dst = true := by
      rw [FS.isDir_congr (p := src) (s := s), hextra hmem hV]
      simpa using back_bound hm hl []
    refine ⟨fun hsame => ?_, by rw [hmoved, hdir], fun _ => NameTree.isEmptyBelow_iff.mpr ?_⟩
    · have hkind : (u.inode j).kind.isDir = true := by
        unfold FS.isDir at hmoved
        rwa [hj] at hmoved
      have heq := hlone j src dst hkind hsame hj
      exact hm.under (heq ▸ List.prefix_refl src)
    · intro q hq hne
      have hnot : ¬ dst <+: q := by
        intro hd
        rcases List.prefix_or_prefix_of_prefix hd hq with h | h
        · exact hapart h
        · exact hm.under h
      have hview : u.view q = none := by
        rw [hl.view_of, FS.view_moved, if_neg hnot, if_pos hq]
        left
        intro hmem'
        refine hne (hq.eq_of_length ?_).symm
        rw [mem_sidecarNames hmem, mem_sidecarNames hmem']
      exact FS.view_eq_none.mp hview

end Back

end Revl.Fs
