import Revl.Fs.Undo

/-!
# Links and stamps

What the mutating calls leave alone: the inodes they do not touch, and the count of links.

- `FS.Linked`: a directory has one name, and any other inode at most as many as links.
- `inode_add`, `inode_moved`: the inodes a call does not touch.
- `Linked.add`, `Linked.moved`, `Linked.unlink`: the calls keep the links counted.
-/

namespace Revl.Fs

namespace FS

/-- How many names an inode may have. -/
def bound (s : FS) (i : Nat) : Nat := if (s.inode i).kind.isDir then 1 else (s.inode i).links

structure Linked (s : FS) : Prop extends s.WellFormed where
  count : ∀ i (l : List Path), l.Nodup → (∀ p ∈ l, s.get p = some i) → l.length ≤ s.bound i

/-- Two names of one inode, where it may have one only. -/
theorem Linked.alone {s : FS} (hs : s.Linked) {p q : Path} {i : Nat} (hp : s.get p = some i)
    (hq : s.get q = some i) (hone : s.bound i ≤ 1) : p = q := by
  by_contra hne
  have hcount := hs.count i [p, q] (by simp [hne]) (by simp [hp, hq])
  simp only [List.length_cons, List.length_nil] at hcount
  omega

theorem Linked.alone_dir {s : FS} (hs : s.Linked) {p q : Path} {i : Nat} (hp : s.get p = some i)
    (hq : s.get q = some i) (hdir : s.isDir p = true) : p = q := by
  refine hs.alone hp hq ?_
  unfold isDir at hdir
  rw [hp] at hdir
  simp only at hdir
  rw [bound, if_pos hdir]

/-! ## Inodes that are not touched -/

theorem inode_setInode (s : FS) (i : Nat) (n : Inode) {j : Nat} (h : j ≠ i) :
    (s.setInode i n).inode j = s.inode j := if_neg h

theorem inode_touchAt {s : FS} {p : Path} (now : Nat) {j : Nat} (h : s.get p ≠ some j) :
    (s.touchAt p now).inode j = s.inode j := by
  unfold touchAt touch
  split
  · rename_i i hi
    refine inode_setInode s i _ ?_
    rintro rfl
    exact h hi
  · rfl

/-- A stamp on a directory leaves the kind and the links of every inode. -/
theorem stamp_touchAt (s : FS) (p : Path) (now i : Nat) :
    ((s.touchAt p now).inode i).kind = (s.inode i).kind ∧
      ((s.touchAt p now).inode i).links = (s.inode i).links := by
  unfold touchAt touch setInode
  split
  · dsimp only
    split_ifs with h <;> simp [h]
  · exact ⟨rfl, rfl⟩

theorem bound_congr {s t : FS} {i : Nat} (hkind : (t.inode i).kind.isDir = (s.inode i).kind.isDir)
    (hlinks : (t.inode i).links = (s.inode i).links) : t.bound i = s.bound i := by
  rw [bound, bound, hkind, hlinks]

@[simp] theorem bound_touchAt (s : FS) (p : Path) (now i : Nat) :
    (s.touchAt p now).bound i = s.bound i :=
  bound_congr (by rw [(stamp_touchAt s p now i).1]) (stamp_touchAt s p now i).2

@[simp] theorem next_touchAt (s : FS) (p : Path) (now : Nat) : (s.touchAt p now).next = s.next := by
  unfold touchAt
  split <;> rfl

theorem next_moved {s : FS} {src dst : Path} {i now : Nat} :
    (s.moved src dst i now).next = s.next := by
  unfold moved
  rw [next_touchAt, next_touchAt]
  cases s.get dst <;> rfl

theorem ne_dropLast {p : Path} (hne : p ≠ []) : p.dropLast ≠ p := by
  intro h
  have hlen := congrArg List.length h
  have hpos := List.length_pos_of_ne_nil hne
  rw [List.length_dropLast] at hlen
  omega

theorem inode_add {s : FS} {p : Path} (n : Inode) (now : Nat) {j : Nat} (hne : p ≠ [])
    (hfresh : j ≠ s.next) (hparent : s.get p.dropLast ≠ some j) :
    (s.add p n now).inode j = s.inode j := by
  unfold add
  rw [inode_touchAt]
  · exact inode_setInode s s.next n hfresh
  · intro h
    refine hparent (Eq.trans ?_ h)
    exact (if_neg (ne_dropLast hne)).symm

/-- The conditions on a rename to a free name. -/
structure Moves (s : FS) (src dst : Path) (i : Nat) : Prop where
  bound : s.get src = some i
  free : s.get dst = none
  parent : s.isDir dst.dropLast = true
  src_ne : src ≠ []
  dst_ne : dst ≠ []
  under : ¬ src <+: dst

namespace Moves

variable {s : FS} {src dst : Path} {i : Nat}

theorem apart (h : Moves s src dst i) (hs : s.WellFormed) : ¬ dst <+: src := by
  rintro ⟨r, rfl⟩
  have hnone := hs.get_below h.free r
  rw [h.bound] at hnone
  cases hnone

end Moves

/-- The directories of both names keep their names. -/
theorem get_graft_src {s : FS} {src dst : Path} (hne : src ≠ []) (hapart : ¬ dst <+: src) :
    (s.names.graft src dst).get src.dropLast = s.get src.dropLast := by
  rw [NameTree.get_graft, if_neg, if_neg]
  · rfl
  · intro hp
    have hlen := hp.length_le
    have hpos := List.length_pos_of_ne_nil hne
    rw [List.length_dropLast] at hlen
    omega
  · exact fun hp => hapart (hp.trans ( List.dropLast_prefix src))

theorem get_graft_dst {s : FS} {src dst : Path} (hne : dst ≠ []) (hunder : ¬ src <+: dst) :
    (s.names.graft src dst).get dst.dropLast = s.get dst.dropLast := by
  rw [NameTree.get_graft, if_neg, if_neg]
  · rfl
  · exact fun hp => hunder (hp.trans ( List.dropLast_prefix dst))
  · intro hp
    have hlen := hp.length_le
    have hpos := List.length_pos_of_ne_nil hne
    rw [List.length_dropLast] at hlen
    omega

/-- A rename stamps the inode it moves and the directories of both names. -/
theorem inode_moved {s : FS} {src dst : Path} {i : Nat} (now : Nat) {j : Nat} (hi : j ≠ i)
    (hdst : s.get dst ≠ some j) (hsrcParent : (s.names.graft src dst).get src.dropLast ≠ some j)
    (hdstParent : (s.names.graft src dst).get dst.dropLast ≠ some j) :
    (s.moved src dst i now).inode j = s.inode j := by
  unfold moved
  rw [inode_touchAt, inode_touchAt]
  · cases hget : s.get dst with
    | none => exact inode_setInode s i _ hi
    | some k =>
      dsimp only
      refine (inode_setInode (s.dropLink k now) i _ hi).trans (inode_setInode s k _ ?_)
      rintro rfl
      exact hdst hget
  · exact hsrcParent
  · rw [get_touchAt]
    exact hdstParent

/-- The inode a rename to a free name moves keeps all but its stamp. -/
theorem inode_moved_self {s : FS} {src dst : Path} {i : Nat} (now : Nat) (hdst : s.get dst ≠ some i)
    (hsrcParent : (s.names.graft src dst).get src.dropLast ≠ some i)
    (hdstParent : (s.names.graft src dst).get dst.dropLast ≠ some i) :
    (s.moved src dst i now).inode i = { s.inode i with ctime := now } := by
  unfold moved
  rw [inode_touchAt, inode_touchAt]
  · cases hget : s.get dst with
    | none => exact if_pos rfl
    | some k =>
      have hk : i ≠ k := by
        rintro rfl
        exact hdst hget
      dsimp only
      refine (if_pos rfl).trans ?_
      rw [dropLink, inode_setInode s k _ hk]
  · exact hsrcParent
  · rw [get_touchAt]
    exact hdstParent

/-! ## Links stay counted -/

namespace Linked

variable {s : FS}

/-- A change that leaves the names, and the kinds and links of the inodes. -/
theorem congr {t : FS} (hs : s.Linked) (hget : ∀ p, t.get p = s.get p) (hnext : s.next ≤ t.next)
    (hkind : ∀ i, (t.inode i).kind.isDir = (s.inode i).kind.isDir)
    (hlinks : ∀ i, (t.inode i).links = (s.inode i).links) : t.Linked := by
  have hdir : ∀ p, t.isDir p = s.isDir p := by
    intro p
    unfold isDir
    rw [hget]
    cases s.get p with
    | none => rfl
    | some i => exact hkind i
  refine { root := ?_, parent := ?_, fresh := ?_, count := ?_ }
  · rw [hdir]
    exact hs.root
  · intro p x h
    rw [hget] at h
    rw [hdir]
    exact hs.parent p x h
  · intro p i h
    rw [hget] at h
    exact (hs.fresh p i h).trans_le hnext
  · intro i l hl h
    rw [bound_congr (hkind i) (hlinks i)]
    exact hs.count i l hl fun p hp => by rw [← hget, h p hp]

theorem setInode (hs : s.Linked) {i : Nat} {n : Inode}
    (hkind : n.kind.isDir = (s.inode i).kind.isDir) (hlinks : n.links = (s.inode i).links) :
    (s.setInode i n).Linked := by
  refine hs.congr (fun _ => rfl) le_rfl (fun j => ?_) fun j => ?_
  all_goals
    unfold FS.setInode
    dsimp only
    split_ifs with h
  · rw [h, hkind]
  · rfl
  · rw [h, hlinks]
  · rfl

/-- The new inode has the one name. -/
theorem add (hs : s.Linked) {p : Path} {n : Inode} (now : Nat) (hne : p ≠ [])
    (hfree : s.get p = none) (hparent : s.isDir p.dropLast = true)
    (hlinks : 1 ≤ if n.kind.isDir then 1 else n.links) : (s.add p n now).Linked := by
  have hview := view_add hs.fresh p n now
  have hdir : ∀ q, q ≠ p → (s.add p n now).isDir q = s.isDir q := fun q hq => by
    rw [isDir_congr (q := q) (p := q)]
    rw [hview, if_neg hq]
  have hbound : ∀ i, i ≠ s.next → (s.add p n now).bound i = s.bound i := by
    intro i hi
    rw [FS.add, bound_touchAt]
    exact bound_congr (by rw [show _ = s.inode i from inode_setInode s s.next n hi])
      (by rw [show _ = s.inode i from inode_setInode s s.next n hi])
  refine { root := ?_, parent := ?_, fresh := ?_, count := ?_ }
  · rw [hdir [] (Ne.symm hne)]
    exact hs.root
  · intro q x h
    rw [get_add] at h
    by_cases hq : q ++ [x] = p
    · subst hq
      rw [List.dropLast_concat] at hparent
      rw [hdir q (by simp)]
      exact hparent
    · rw [if_neg hq] at h
      have hbelow := hs.parent q x h
      by_cases hqp : q = p
      · subst hqp
        unfold isDir at hbelow
        rw [hfree] at hbelow
        cases hbelow
      · rw [hdir q hqp]
        exact hbelow
  · intro q i h
    rw [get_add] at h
    rw [next_add]
    split_ifs at h
    · cases h
      exact Nat.lt_succ_self _
    · exact (hs.fresh q i h).trans (Nat.lt_succ_self _)
  · intro i l hl h
    by_cases hi : i = s.next
    · subst hi
      have hall : ∀ q ∈ l, q = p := by
        intro q hq
        have hget := h q hq
        rw [get_add] at hget
        by_contra hqp
        rw [if_neg hqp] at hget
        exact (hs.fresh q _ hget).ne rfl
      have hlen : l.length ≤ 1 := by
        have hsub : l ⊆ [p] := fun q hq => by simp [hall q hq]
        exact (hl.subperm hsub).length_le
      refine hlen.trans (hlinks.trans_eq ?_)
      rw [FS.add, bound_touchAt]
      unfold bound FS.setInode
      simp
    · rw [hbound i hi]
      refine hs.count i l hl fun q hq => ?_
      have hget := h q hq
      rw [get_add] at hget
      split_ifs at hget
      · cases hget
        exact absurd rfl hi
      · exact hget

/-- The names of an inode after a rename, each under its old name. -/
theorem graft_names {src dst : Path} {i : Nat} {l : List Path}
    (hl : l.Nodup) (h : ∀ p ∈ l, (s.names.graft src dst).get p = some i) :
    ∃ l' : List Path, l'.Nodup ∧ l'.length = l.length ∧ ∀ p ∈ l', s.get p = some i := by
  let old : Path → Path := fun p => if dst <+: p then NameTree.rebase dst src p else p
  have hold : ∀ p ∈ l, s.get (old p) = some i ∧ (¬ dst <+: p → ¬ src <+: p) := by
    intro p hp
    have hget := h p hp
    rw [NameTree.get_graft] at hget
    by_cases hd : dst <+: p
    · rw [if_pos hd] at hget
      simp only [old, if_pos hd]
      exact ⟨hget, fun hno => absurd hd hno⟩
    · rw [if_neg hd] at hget
      simp only [old, if_neg hd]
      split_ifs at hget with hsrc
      exact ⟨hget, fun _ => hsrc⟩
  have hinj : ∀ p ∈ l, ∀ q ∈ l, old p = old q → p = q := by
    intro p hp q hq heq
    by_cases hdp : dst <+: p <;> by_cases hdq : dst <+: q
    · obtain ⟨r, rfl⟩ := hdp
      obtain ⟨r', rfl⟩ := hdq
      simp only [old, if_pos (List.prefix_append dst _), NameTree.rebase_append] at heq
      rw [List.append_cancel_left heq]
    · obtain ⟨r, rfl⟩ := hdp
      simp only [old, if_pos (List.prefix_append dst r), if_neg hdq,
        NameTree.rebase_append] at heq
      exact absurd ⟨r, heq⟩ ((hold q hq).2 hdq)
    · obtain ⟨r, rfl⟩ := hdq
      simp only [old, if_pos (List.prefix_append dst r), if_neg hdp,
        NameTree.rebase_append] at heq
      exact absurd ⟨r, heq.symm⟩ ((hold p hp).2 hdp)
    · simpa only [old, if_neg hdp, if_neg hdq] using heq
  refine ⟨l.map old, hl.map_on hinj, List.length_map _, ?_⟩
  intro p hp
  obtain ⟨q, hq, rfl⟩ := List.mem_map.mp hp
  exact (hold q hq).1

theorem moved (hs : s.Linked) {src dst : Path} {i : Nat} (now : Nat) (hm : Moves s src dst i) :
    (s.moved src dst i now).Linked := by
  have hview := view_moved s src dst i now
  have hstay : ∀ q, ¬ dst <+: q → ¬ src <+: q → (s.moved src dst i now).isDir q = s.isDir q :=
    fun q hd hsrc => isDir_congr (by rw [hview, if_neg hd, if_neg hsrc])
  refine { root := ?_, parent := ?_, fresh := ?_, count := ?_ }
  · rw [hstay []]
    · exact hs.root
    · simpa using hm.dst_ne
    · simpa using hm.src_ne
  · intro p x h
    rw [get_moved] at h
    by_cases hd : dst <+: p ++ [x]
    · -- a name under `dst` came from the one under `src`
      obtain ⟨r, hr⟩ := hd
      rw [← hr, NameTree.get_graft, if_pos (List.prefix_append dst r),
        NameTree.rebase_append] at h
      rcases List.eq_nil_or_concat r with rfl | ⟨r', y, rfl⟩
      · rw [List.append_nil] at hr
        have hp : p = dst.dropLast := by rw [hr, List.dropLast_concat]
        have hparent := hm.parent
        rw [← hp] at hparent
        rw [hstay p, hparent]
        · intro hdp
          have hlen := hdp.length_le
          rw [hr, List.length_append, List.length_singleton] at hlen
          omega
        · exact fun hsp => hm.under (hsp.trans ⟨[x], hr.symm⟩)
      · rw [List.concat_eq_append, ← List.append_assoc] at hr
        obtain ⟨rfl, -⟩ := List.append_inj' hr rfl
        rw [List.concat_eq_append, ← List.append_assoc] at h
        rw [isDir_congr (p := src ++ r')]
        · exact hs.parent _ _ h
        · rw [hview, if_pos (List.prefix_append dst r'), NameTree.rebase_append]
    · rw [NameTree.get_graft, if_neg hd] at h
      split_ifs at h with hsrc
      · exact absurd rfl h
      · rw [hstay p]
        · exact hs.parent p x h
        · exact fun hdp => hd (hdp.trans (List.prefix_append p [x]))
        · exact fun hsp => hsrc (hsp.trans (List.prefix_append p [x]))
  · intro p j h
    rw [get_moved, NameTree.get_graft] at h
    have hnext : (s.moved src dst i now).next = s.next := by
      unfold FS.moved
      rw [next_touchAt, next_touchAt, hm.free]
      rfl
    rw [hnext]
    split_ifs at h
    · exact hs.fresh _ j h
    · exact hs.fresh p j h
  · intro j l hl h
    simp only [get_moved] at h
    obtain ⟨l', hl', hlen, hl''⟩ := graft_names hl h
    rw [← hlen]
    refine (hs.count j l' hl' hl'').trans_eq ?_
    have hstamp : (s.setInode i { s.inode i with ctime := now }).bound j = s.bound j := by
      refine bound_congr ?_ ?_
      all_goals
        unfold FS.setInode
        dsimp only
        split_ifs with hj
        · rw [hj]
        · rfl
    unfold FS.moved
    rw [bound_touchAt, bound_touchAt, hm.free]
    exact hstamp.symm

theorem unlink {u' : FS} (hs : s.Linked) {p : Path} {i now : Nat} (hi : s.get p = some i)
    (hfile : s.isDir p = false) (hne : p ≠ []) (h : s.unlink p now = .ok u') : u'.Linked := by
  have hkind : (s.inode i).kind.isDir = false := by
    unfold FS.isDir at hfile
    rwa [hi] at hfile
  have heq : u' = { (s.dropLink i now) with names := s.names.erase p }.touchAt p.dropLast now := by
    unfold FS.unlink at h
    simp only [hi, hkind, Bool.false_eq_true, if_false, Except.ok.injEq] at h
    exact h.symm
  have hview := FS.unlink_ok h
  have hget : ∀ q, u'.get q = if q = p then none else s.get q := by
    intro q
    rw [heq, FS.get_touchAt]
    exact NameTree.get_erase
  have hdir : ∀ q, q ≠ p → u'.isDir q = s.isDir q := fun q hq =>
    FS.isDir_congr (by rw [hview, if_neg hq])
  have hbound : ∀ k, k ≠ i → u'.bound k = s.bound k := by
    intro k hk
    rw [heq, FS.bound_touchAt]
    have hsame : (s.dropLink i now).inode k = s.inode k := FS.inode_setInode s i _ hk
    exact FS.bound_congr (congrArg (fun n => n.kind.isDir) hsame) (congrArg Inode.links hsame)
  have hboundI : u'.bound i = (s.inode i).links - 1 := by
    rw [heq, FS.bound_touchAt]
    have hself : (s.dropLink i now).inode i =
        { s.inode i with links := (s.inode i).links - 1, ctime := now } := if_pos rfl
    unfold FS.bound
    dsimp only
    rw [hself]
    simp [hkind]
  refine { root := ?_, parent := ?_, fresh := ?_, count := ?_ }
  · rw [hdir [] (Ne.symm hne)]
    exact hs.root
  · intro q x hq
    rw [hget] at hq
    split_ifs at hq with hqp
    · exact absurd rfl hq
    have hparent := hs.parent q x hq
    rw [hdir q, hparent]
    rintro rfl
    rw [hfile] at hparent
    cases hparent
  · intro q k hq
    rw [hget] at hq
    split_ifs at hq
    have hnext : u'.next = s.next := by
      rw [heq, FS.next_touchAt]
      rfl
    rw [hnext]
    exact hs.fresh q k hq
  · intro k l hl hnames
    have hold : ∀ q ∈ l, q ≠ p ∧ s.get q = some k := by
      intro q hq
      have hqk := hnames q hq
      rw [hget] at hqk
      split_ifs at hqk with hqp
      exact ⟨hqp, hqk⟩
    by_cases hk : k = i
    · subst hk
      -- with the name that went, still no more names than links
      have hcount := hs.count k (p :: l)
        (List.nodup_cons.mpr ⟨fun hp => (hold p hp).1 rfl, hl⟩)
        (List.forall_mem_cons.mpr ⟨hi, fun q hq => (hold q hq).2⟩)
      rw [FS.bound, hkind, List.length_cons] at hcount
      rw [hboundI]
      simp only [Bool.false_eq_true, if_false] at hcount
      omega
    · rw [hbound k hk]
      exact hs.count k l hl fun q hq => (hold q hq).2

end Linked

end FS

end Revl.Fs
