import Revl.Fs.Workspace

/-!
# Operations that answer an error

What an operation that answers `Err` leaves behind, whichever of its system calls failed.

- `Unchanged`: every name shows what it showed, a sidecar directory made on the way apart.
- `Spoils`: the failures that come after an operation's own change and are not taken back.
- `failed_call_iff`: an `Err` leaves the tree unchanged exactly when nothing spoils the call.
-/

namespace Revl.Fs

def sidecarNames : List Path := [[garbageName], [preimageName]]

/-- Every name shows what it showed before; a sidecar directory may have been made. -/
def Unchanged (s t : FS) : Prop :=
  ∀ p, t.view p = s.view p ∨ (p ∈ sidecarNames ∧ s.get p = none ∧ t.isDir p = true)

theorem Unchanged.refl (s : FS) : Unchanged s s := fun _ => .inl rfl

theorem Unchanged.of_view {s t : FS} (h : ∀ p, t.view p = s.view p) : Unchanged s t :=
  fun p => .inl (h p)

theorem Unchanged.trans_view {s t u : FS} (h : Unchanged s t) (hu : ∀ p, u.view p = t.view p) :
    Unchanged s u := by
  intro p
  rcases h p with hp | ⟨hmem, hfree, hdir⟩
  · exact .inl ((hu p).trans hp)
  · exact .inr ⟨hmem, hfree, (FS.isDir_congr (hu p)).trans hdir⟩

/-- A name that shows something else, or nothing any more, or a file where nothing was. -/
theorem not_unchanged {s t : FS} {p : Path} (hne : t.view p ≠ s.view p)
    (hbound : s.get p ≠ none ∨ t.isDir p = false) : ¬ Unchanged s t := by
  intro h
  rcases h p with hp | ⟨-, hfree, hdir⟩
  · exact hne hp
  · rcases hbound with hbound | hfile
    · exact hbound hfree
    · rw [hfile] at hdir
      cases hdir

/-- The sidecar directory is there, or can be made. -/
def SidecarReady (c : Call) (s : FS) (name : String) : Prop :=
  c.fails .sidecarDir = false ∧ (s.get [name] = none ∨ s.isDir [name] = true)

theorem sidecarDir_of_not {c : Call} {s : FS} {name : String} (h : ¬ SidecarReady c s name) :
    ∃ e, sidecarDir c s name = (.error e, s) := by
  unfold sidecarDir fail
  unfold SidecarReady FS.isDir at h
  split_ifs with hfails
  · exact ⟨_, rfl⟩
  · split
    · rename_i hnone
      exact absurd ⟨by simpa using hfails, .inl hnone⟩ h
    · rename_i i hi
      simp only [hi] at h
      split
      · rename_i hdir
        exact absurd ⟨by simpa using hfails, .inr (by rw [hdir]; rfl)⟩ h
      · exact ⟨_, rfl⟩
      · exact ⟨_, rfl⟩

/-- The tree with the sidecar directory in place. -/
structure WithSidecar (s : FS) (name : String) (t : FS) : Prop where
  get : ∀ q, q ≠ [name] → t.get q = s.get q
  fresh : ∀ p i, t.get p = some i → i < t.next
  isDir : t.isDir [name] = true
  view : ∀ q, q ≠ [name] → t.view q = s.view q
  same : s.get [name] ≠ none → t.view [name] = s.view [name]

theorem sidecarDir_of_ready {c : Call} {s : FS} {name : String} (hs : s.WellFormed)
    (h : SidecarReady c s name) :
    ∃ t, sidecarDir c s name = (.ok [name], t) ∧ WithSidecar s name t := by
  unfold sidecarDir
  rw [if_neg (by simp [h.1])]
  cases hget : s.get [name] with
  | none =>
    refine ⟨_, rfl, fun q hq => ?_, fun q i hq => ?_, ?_, fun q hq => ?_,
      fun hne => absurd hget hne⟩
    · rw [FS.mkdir, FS.get_add, if_neg hq]
    · rw [FS.mkdir, FS.get_add] at hq
      rw [FS.mkdir, FS.next_add]
      split_ifs at hq
      · cases hq
        exact Nat.lt_succ_self _
      · exact (hs.fresh q i hq).trans (Nat.lt_succ_self _)
    · rw [FS.isDir_eq, FS.mkdir, FS.view_add hs.fresh, if_pos rfl]
      rfl
    · rw [FS.mkdir, FS.view_add hs.fresh, if_neg hq]
  | some i =>
    have hdir : s.isDir [name] = true := h.2.resolve_left (by simp [hget])
    have hkind : (s.inode i).kind = .dir := by
      unfold FS.isDir at hdir
      rw [hget] at hdir
      cases hk : (s.inode i).kind <;> simp_all [Kind.isDir]
    refine ⟨s, ?_, fun _ _ => rfl, hs.fresh, hdir, fun _ _ => rfl, fun _ => rfl⟩
    simp only [hkind]

namespace WithSidecar

variable {s t : FS} {name : String}

theorem get_eq_none_iff (h : WithSidecar s name t) {q : Path} (hq : q ≠ [name]) :
    t.get q = none ↔ s.get q = none := by
  rw [h.get q hq]

theorem unchanged (h : WithSidecar s name t) (hname : [name] ∈ sidecarNames) : Unchanged s t := by
  intro q
  by_cases hq : q = [name]
  · subst hq
    by_cases hfree : s.get [name] = none
    · exact .inr ⟨hname, hfree, h.isDir⟩
    · exact .inl (h.same hfree)
  · exact .inl (h.view q hq)

end WithSidecar

theorem resolveWithin_ok {c : Call} {s : FS} {p q : Path} (h : resolveWithin c s p = .ok q) :
    q = p := by
  unfold resolveWithin at h
  split_ifs at h
  exact (Except.ok.inj h).symm

theorem walkParent_eq_none {c : Call} {s : FS} {p : Path} : walkParent c s p = none ↔
    p ≠ [] ∧ c.fails .walk = false ∧ s.isDir p.dropLast = true := by
  unfold walkParent
  split_ifs with h1 h2 h3
  · simp [h1]
  · simp [h2]
  · simp [h3]
  · simp_all

def Answer.isErr {W : Type} : Answer W → Bool
  | .err _ => true
  | _ => false

/-- An operation that answers an error leaves the tree unchanged. -/
def Clean {W : Type} (s : FS) (r : Answer W × FS) : Prop := r.1.isErr = true → Unchanged s r.2

theorem clean_same {W : Type} (s : FS) (a : Answer W) : Clean s (a, s) := fun _ => Unchanged.refl s

theorem clean_ok {W : Type} (s t : FS) (w : W) : Clean s (.ok w, t) := nofun

theorem clean_raised {W : Type} (s t : FS) (e : FsOpError) : Clean s ((.raised e : Answer W), t) :=
  nofun

variable {proc : Process} {c : Call} {s : FS}

/-! ## Directories -/

/-- The parent's descriptor fails to close once the directory is made. -/
def MkdirSpoils (c : Call) (s : FS) (p : Path) : Prop :=
  resolveWithin c s p = .ok p ∧ walkParent c s p = none ∧ s.get p = none ∧ p ∉ sidecarNames ∧
    c.fails .mkdirLeaf = false ∧ c.fails .closeParent = true

theorem mkdirConfined_bound (proc : Process) (c : Call) {s : FS} {p : Path}
    (h : (s.get p).isSome = true) :
    ∃ e, mkdirConfined proc c s p = (.error e, s) := by
  unfold mkdirConfined fail
  cases walkParent c s p with
  | some e => exact ⟨e, rfl⟩
  | none =>
    dsimp only
    split_ifs <;> exact ⟨_, rfl⟩

theorem mkdir_clean_iff (hs : s.WellFormed) {p : Path} :
    Clean s (mkdir proc c s p) ↔ ¬ MkdirSpoils c s p := by
  unfold mkdir MkdirSpoils
  cases hres : resolveWithin c s p with
  | error e => simp [clean_same]
  | ok q =>
    obtain rfl := resolveWithin_ok hres
    dsimp only
    cases hget : s.get q with
    | some i =>
      refine iff_of_true ?_ (by simp)
      split_ifs with hexists
      · exact clean_same _ _
      · obtain ⟨e, he⟩ := mkdirConfined_bound proc c (p := q) (s := s) (by simp [hget])
        rw [he]
        exact clean_same _ _
    | none =>
      rw [if_neg (by simp)]
      unfold mkdirConfined fail
      cases hwalk : walkParent c s q with
      | some e => exact iff_of_true (clean_same _ _) (by simp)
      | none =>
        dsimp only
        by_cases hleaf : c.fails .mkdirLeaf = true
        · rw [if_pos hleaf]
          exact iff_of_true (clean_same _ _) (by simp [hleaf])
        · rw [if_neg hleaf, if_neg (by simp [hget])]
          by_cases hclose : c.fails .closeParent = true
          · rw [if_pos hclose]
            have hview : ∀ r, (s.mkdir q proc.dirMode c.now).view r =
                if r = q then some (.dir, proc.dirMode) else s.view r := fun r => by
              rw [FS.mkdir, FS.view_add hs.fresh]
            by_cases hside : q ∈ sidecarNames
            · refine iff_of_true (fun _ r => ?_) (by simp [hside])
              by_cases hr : r = q
              · subst hr
                refine .inr ⟨hside, hget, ?_⟩
                rw [FS.isDir_eq, hview, if_pos rfl]
                rfl
              · rw [hview, if_neg hr]
                exact .inl rfl
            · refine iff_of_false (fun hclean => ?_) (not_not.mpr ⟨rfl, rfl, rfl, hside, by
                simpa using hleaf, hclose⟩)
              rcases hclean rfl q with h | ⟨h, -⟩
              · rw [hview, if_pos rfl, FS.view_eq_none.mpr hget] at h
                cases h
              · exact hside h
          · rw [if_neg hclose]
            exact iff_of_true (clean_ok _ _ _) (by simp [hclose])

/-! ## Renames -/

theorem rename_ok {src dst : Path} {now : Nat} {t : FS} (h : s.rename src dst now = .ok t) :
    ∃ i, s.get src = some i ∧ ((s.get dst = some i ∧ t = s) ∨
      (s.get dst ≠ some i ∧ t = s.moved src dst i now ∧ ¬ src <+: dst ∧
        (s.get dst = none ∨ (s.isDir src = true ∧ s.names.isEmptyBelow dst = true) ∨
          s.isDir dst = false))) := by
  unfold FS.rename at h
  cases hi : s.get src with
  | none =>
    rw [hi] at h
    cases h
  | some i =>
    simp only [hi] at h
    refine ⟨i, rfl, ?_⟩
    by_cases hunder : src <+: dst ∧ src ≠ dst
    · rw [if_pos hunder] at h
      cases h
    · rw [if_neg hunder] at h
      have habove : s.get dst ≠ some i → ¬ src <+: dst := by
        intro hne hp
        refine hunder ⟨hp, ?_⟩
        rintro rfl
        exact hne hi
      cases hj : s.get dst with
      | none =>
        simp only [hj] at h
        exact .inr ⟨nofun, (Except.ok.inj h).symm, habove (by simp [hj]), .inl rfl⟩
      | some j =>
        simp only [hj] at h
        by_cases hij : i = j
        · rw [if_pos hij] at h
          exact .inl ⟨by rw [hij], (Except.ok.inj h).symm⟩
        · rw [if_neg hij] at h
          have hne : some j ≠ some i := fun h => hij (Option.some.inj h).symm
          have hisDir : s.isDir src = (s.inode i).kind.isDir := by rw [FS.isDir, hi]
          have hisDir' : s.isDir dst = (s.inode j).kind.isDir := by rw [FS.isDir, hj]
          rw [hisDir, hisDir']
          split_ifs at h with hdir hdir' hempty hdir'
          · exact .inr ⟨hne, (Except.ok.inj h).symm, habove (hj ▸ hne), .inr (.inl ⟨hdir, hempty⟩)⟩
          · exact .inr ⟨hne, (Except.ok.inj h).symm, habove (hj ▸ hne),
              .inr (.inr (by simpa using hdir'))⟩

/-- A rename that moves something leaves nothing under the old name. -/
theorem view_src_of_rename (hs : s.WellFormed) {src dst : Path} {now : Nat} {t : FS}
    (h : s.rename src dst now = .ok t) (hne : s.get src ≠ s.get dst) : t.view src = none := by
  obtain ⟨i, hi, ⟨hj, -⟩ | ⟨hj, rfl, hunder, hdst⟩⟩ := rename_ok h
  · exact absurd (hi.trans hj.symm) hne
  · rw [FS.view_moved, if_neg, if_pos (List.prefix_refl src)]
    rintro ⟨r, rfl⟩
    have hr : r ≠ [] := by
      rintro rfl
      rw [List.append_nil] at hi
      exact hj hi
    have hbelow := hs.isDir_of_below hr (by rw [hi]; nofun)
    rcases hdst with hfree | ⟨-, hempty⟩ | hfile
    · rw [hs.get_below hfree] at hi
      cases hi
    · have hnone := NameTree.isEmptyBelow_iff.mp hempty (dst ++ r) (List.prefix_append dst r)
        (by simpa using hr)
      exact absurd (hnone.symm.trans hi) nofun
    · rw [hbelow] at hfile
      cases hfile

/-- The rename of a call goes through. -/
def Renames (c : Call) (s : FS) (src dst : Path) (t : FS) : Prop :=
  walkParent c s src = none ∧ walkParent c s dst = none ∧ c.fails .rename = false ∧
    s.rename src dst c.now = .ok t

theorem replaceConfined_cases (c : Call) (s : FS) (src dst : Path) :
    ((∀ t, ¬ Renames c s src dst t) ∧ ∃ e, replaceConfined c s src dst = (.error e, s)) ∨
      ∃ t, Renames c s src dst t ∧ replaceConfined c s src dst =
        (if c.fails .closeAfterRename then .error ⟨"EIO", src⟩ else .ok (), t) := by
  unfold replaceConfined Renames fail
  cases hsrc : walkParent c s src with
  | some e => exact .inl ⟨by simp, e, rfl⟩
  | none =>
    cases hdst : walkParent c s dst with
    | some e => exact .inl ⟨by simp, e, rfl⟩
    | none =>
      dsimp only
      by_cases hfails : c.fails .rename = true
      · rw [if_pos hfails]
        exact .inl ⟨by simp [hfails], _, rfl⟩
      · rw [if_neg hfails]
        cases hren : s.rename src dst c.now with
        | error code => exact .inl ⟨by simp, _, rfl⟩
        | ok t =>
          refine .inr ⟨t, ⟨rfl, rfl, by simpa using hfails, rfl⟩, ?_⟩
          dsimp only
          split_ifs <;> rfl

/-- A descriptor fails to close once the rename went through and moved something. -/
def MoveSpoils (c : Call) (s : FS) (src dst : Path) : Prop :=
  resolveWithin c s src = .ok src ∧ resolveWithin c s dst = .ok dst ∧ c.fails .lexists = false ∧
    (c.fails .lexistsDst = true ∨ s.get dst = none) ∧ s.get src ≠ s.get dst ∧
    (∃ t, Renames c s src dst t) ∧ c.fails .closeAfterRename = true

theorem move_clean_iff (hs : s.WellFormed) {src dst : Path} :
    Clean s (move c s src dst) ↔ ¬ MoveSpoils c s src dst := by
  unfold move MoveSpoils
  cases hsrc : resolveWithin c s src with
  | error e => simp [clean_same]
  | ok p =>
    obtain rfl := resolveWithin_ok hsrc
    cases hdst : resolveWithin c s dst with
    | error e => simp [clean_same]
    | ok q =>
      obtain rfl := resolveWithin_ok hdst
      dsimp only
      by_cases hmissing : c.fails .lexists = true ∨ s.get p = none
      · rw [if_pos hmissing]
        refine iff_of_true (clean_same _ _) ?_
        rintro ⟨-, -, hlexists, -, -, ⟨t, -, -, -, hren⟩, -⟩
        obtain ⟨i, hi, -⟩ := rename_ok hren
        rcases hmissing with h | h
        · rw [h] at hlexists
          cases hlexists
        · rw [h] at hi
          cases hi
      · rw [if_neg hmissing]
        rw [not_or] at hmissing
        by_cases hexists : ¬ c.fails .lexistsDst = true ∧ (s.get q).isSome = true
        · rw [if_pos hexists]
          refine iff_of_true (clean_same _ _) ?_
          rintro ⟨-, -, -, hdst' | hdst', -⟩
          · exact hexists.1 hdst'
          · rw [hdst'] at hexists
            cases hexists.2
        · rw [if_neg hexists]
          have hfree : c.fails .lexistsDst = true ∨ s.get q = none := by
            by_cases hl : c.fails .lexistsDst = true
            · exact .inl hl
            · exact .inr (by simpa [hl] using hexists)
          rcases replaceConfined_cases c s p q with ⟨hno, e, heq⟩ | ⟨t, hren, heq⟩
          · rw [heq]
            exact iff_of_true (clean_same _ _) fun h => h.2.2.2.2.2.1.elim hno
          · rw [heq]
            by_cases hclose : c.fails .closeAfterRename = true
            · rw [if_pos hclose]
              dsimp only
              -- two names of one inode: the rename did nothing
              by_cases hne : s.get p = s.get q
              · refine iff_of_true ?_ fun h => h.2.2.2.2.1 hne
                obtain ⟨i, hi, ⟨-, rfl⟩ | ⟨hj, -⟩⟩ := rename_ok hren.2.2.2
                · exact clean_same _ _
                · exact absurd (hne ▸ hi) hj
              · refine iff_of_false (fun hclean => ?_) (not_not.mpr ⟨rfl, rfl, by
                  simpa using hmissing.1, hfree, hne, ⟨t, hren⟩, hclose⟩)
                refine not_unchanged ?_ (.inl hmissing.2) (hclean rfl)
                rw [view_src_of_rename hs hren.2.2.2 hne]
                exact fun h => hmissing.2 (FS.view_eq_none.mp h.symm)
            · rw [if_neg hclose]
              exact iff_of_true (clean_ok _ _ _) fun h => hclose h.2.2.2.2.2.2

/-! ## Removals -/

def parkedPath (c : Call) : Path := [garbageName, "rm-" ++ c.uuid]

def IsFile (s : FS) (p : Path) : Prop := ∃ bytes mode, s.view p = some (.file bytes, mode)

/-- Something fails once the file is parked. -/
def RmSpoils (c : Call) (s : FS) (p : Path) : Prop :=
  resolveWithin c s p = .ok p ∧ c.fails .lexists = false ∧ s.get p ≠ none ∧ p ≠ [garbageName] ∧
    p ≠ [] ∧ SidecarReady c s garbageName ∧ c.fails .freshSidecar = false ∧
    c.fails .walk = false ∧ c.fails .rename = false ∧
    (c.fails .closeAfterRename = true ∨ c.fails .parkedStat = true ∨
      (IsFile s p ∧ c.fails .parkedDigest = true))

theorem not_link_of_resolve {p : Path} (h : resolveWithin c s p = .ok p) {mode : Nat} :
    s.view p ≠ some (.link, mode) := by
  intro hview
  unfold resolveWithin at h
  split_ifs at h with h1 h2
  refine h2 (List.any_eq_true.mpr ⟨p, (List.mem_inits p p).mpr (List.prefix_refl p), ?_⟩)
  obtain ⟨i, hi, hface⟩ := Option.map_eq_some_iff.mp hview
  rw [Prod.mk.injEq] at hface
  simp [hi, hface.1]

theorem parked_renames (hs : s.WellFormed) {t : FS} (ht : WithSidecar s garbageName t) {p : Path}
    (hfresh : s.get (parkedPath c) = none) (hbound : s.get p ≠ none) :
    (∃ u, Renames c t p (parkedPath c) u) ↔
      p ≠ [] ∧ p ≠ [garbageName] ∧ c.fails .walk = false ∧ c.fails .rename = false := by
  have hfresh' : t.get (parkedPath c) = none :=
    (ht.get_eq_none_iff (by simp [parkedPath])).mpr hfresh
  constructor
  · rintro ⟨u, hsrc, -, hrename, hren⟩
    obtain ⟨hne, hwalk, -⟩ := walkParent_eq_none.mp hsrc
    refine ⟨hne, ?_, hwalk, hrename⟩
    rintro rfl
    obtain ⟨i, -, ⟨hj, -⟩ | ⟨-, -, hunder, -⟩⟩ := rename_ok hren
    · rw [hfresh'] at hj
      cases hj
    · exact hunder ⟨["rm-" ++ c.uuid], rfl⟩
  · rintro ⟨hne, hgarbage, hwalk, hrename⟩
    have hparent : t.isDir p.dropLast = true := by
      by_cases hp : p.dropLast = [garbageName]
      · rw [hp]
        exact ht.isDir
      · rw [FS.isDir_congr (ht.view _ hp)]
        exact hs.isDir_dropLast hne hbound
    obtain ⟨i, hi⟩ := Option.ne_none_iff_exists'.mp fun h =>
      hbound ((ht.get_eq_none_iff hgarbage).mp h)
    have hunder : ¬ (p <+: parkedPath c ∧ p ≠ parkedPath c) := by
      rintro ⟨habove, hne'⟩
      have hmem := (List.mem_inits p (parkedPath c)).mpr habove
      simp only [parkedPath, List.inits, List.map_cons, List.map_nil, List.mem_cons,
        List.not_mem_nil, or_false] at hmem
      rcases hmem with h | h | h
      · exact hne h
      · exact hgarbage h
      · exact hne' h
    refine ⟨t.moved p (parkedPath c) i c.now, walkParent_eq_none.mpr ⟨hne, hwalk, hparent⟩,
      walkParent_eq_none.mpr ⟨by simp [parkedPath], hwalk, ht.isDir⟩, hrename, ?_⟩
    simp only [FS.rename, hi, if_neg hunder, hfresh']

/-- The slot the rename filled holds what the name held. -/
theorem view_parked {t u : FS} {p : Path} (hren : Renames c t p (parkedPath c) u)
    (hfresh : t.get (parkedPath c) = none) : u.view (parkedPath c) = t.view p := by
  obtain ⟨i, hi, ⟨hj, -⟩ | ⟨-, rfl, -⟩⟩ := rename_ok hren.2.2.2
  · rw [hfresh] at hj
    cases hj
  · rw [FS.view_moved, if_pos (List.prefix_refl _)]
    congr 1
    simp

/-- After the rename `rm` answers an error exactly where a step after it fails. -/
theorem park_after_rename (proc : Process) {t u : FS} {p : Path} {mode : Nat} {kind : Kind}
    (hview : u.view (parkedPath c) = some (kind, mode)) (hlink : kind ≠ .link)
    (heq : replaceConfined c t p (parkedPath c) =
      (if c.fails .closeAfterRename then .error ⟨"EIO", p⟩ else .ok (), u)) :
    ∃ r, parkCapturedSidecar proc c t p (parkedPath c) = (r, u) ∧
      ((∃ e, r = .error e) ↔ c.fails .closeAfterRename = true ∨ c.fails .parkedStat = true ∨
        ((∃ bytes, kind = .file bytes) ∧ c.fails .parkedDigest = true)) := by
  obtain ⟨i, hi, hface⟩ := Option.map_eq_some_iff.mp hview
  rw [Prod.mk.injEq] at hface
  unfold parkCapturedSidecar
  rw [heq]
  by_cases hclose : c.fails .closeAfterRename = true
  · rw [if_pos hclose]
    exact ⟨_, rfl, by simp [hclose]⟩
  · rw [if_neg hclose]
    dsimp only
    by_cases hstat : c.fails .parkedStat = true
    · rw [if_pos hstat]
      exact ⟨_, rfl, by simp [hstat]⟩
    · rw [if_neg hstat]
      simp only [hi, hface.1]
      cases kind with
      | link => exact absurd rfl hlink
      | file bytes =>
        dsimp only
        by_cases hdigest : c.fails .parkedDigest = true
        · rw [if_pos hdigest]
          exact ⟨_, rfl, by simp [hdigest]⟩
        · rw [if_neg hdigest]
          exact ⟨_, rfl, by simp [hclose, hstat, hdigest]⟩
      | dir => exact ⟨_, rfl, by simp [hclose, hstat]⟩
      | special => exact ⟨_, rfl, by simp [hclose, hstat]⟩

theorem rm_clean_iff (hs : s.WellFormed) {p : Path} (hfresh : s.get (parkedPath c) = none) :
    Clean s (rm proc c s p) ↔ ¬ RmSpoils c s p := by
  unfold rm RmSpoils
  cases hres : resolveWithin c s p with
  | error e => simp [clean_same]
  | ok q =>
    obtain rfl := resolveWithin_ok hres
    dsimp only
    by_cases hmissing : c.fails .lexists = true ∨ s.get q = none
    · rw [if_pos hmissing]
      refine iff_of_true (clean_same _ _) fun h => ?_
      rcases hmissing with h' | h'
      · rw [h'] at h
        cases h.2.1
      · exact h.2.2.1 h'
    · rw [if_neg hmissing]
      rw [not_or] at hmissing
      obtain ⟨hlexists, hbound⟩ := hmissing
      by_cases hready : SidecarReady c s garbageName
      · obtain ⟨t, hdir, ht⟩ := sidecarDir_of_ready hs hready
        rw [hdir]
        dsimp only
        by_cases hfreshFails : c.fails .freshSidecar = true
        · rw [if_pos hfreshFails]
          exact iff_of_true (fun _ => ht.unchanged (by simp [sidecarNames]))
            fun h => by simp [hfreshFails] at h
        · rw [if_neg hfreshFails]
          have hpath : [garbageName] ++ ["rm-" ++ c.uuid] = parkedPath c := rfl
          rw [hpath]
          have hfresh' : t.get (parkedPath c) = none :=
            (ht.get_eq_none_iff (by simp [parkedPath])).mpr hfresh
          have hrenames := parked_renames hs ht (p := q) hfresh hbound
          rcases replaceConfined_cases c t q (parkedPath c) with ⟨hno, e, heq⟩ | ⟨u, hren, heq⟩
          · -- nothing was parked
            unfold parkCapturedSidecar
            rw [heq]
            refine iff_of_true (fun _ => ht.unchanged (by simp [sidecarNames])) fun h => ?_
            obtain ⟨-, -, -, hg, hne, -, -, hwalk, hrename, -⟩ := h
            exact (hrenames.mpr ⟨hne, hg, hwalk, hrename⟩).elim hno
          · obtain ⟨hne, hg, hwalk, hrename⟩ := hrenames.mp ⟨u, hren⟩
            obtain ⟨⟨kind, mode⟩, hview⟩ := Option.ne_none_iff_exists'.mp fun h =>
              hbound (FS.view_eq_none.mp h)
            have hparked : u.view (parkedPath c) = some (kind, mode) := by
              rw [view_parked hren hfresh', ht.view q hg, hview]
            have hlink : kind ≠ .link := by
              rintro rfl
              exact not_link_of_resolve hres hview
            obtain ⟨r, hpark, hr⟩ := park_after_rename proc hparked hlink heq
            rw [hpark]
            have hfile : (∃ bytes, kind = .file bytes) ↔ IsFile s q := by
              constructor
              · rintro ⟨bytes, rfl⟩
                exact ⟨bytes, mode, hview⟩
              · rintro ⟨bytes, mode', h⟩
                rw [hview, Option.some.injEq, Prod.mk.injEq] at h
                exact ⟨bytes, h.1⟩
            rw [hfile] at hr
            cases r with
            | ok capture =>
              refine iff_of_true (clean_ok _ _ _) fun h => ?_
              obtain ⟨e, he⟩ := hr.mpr h.2.2.2.2.2.2.2.2.2
              cases he
            | error e =>
              -- the name is gone, and the answer is an error
              refine iff_of_false (fun hclean => ?_) (not_not.mpr ⟨rfl, by simpa using hlexists,
                hbound, hg, hne, hready, by simpa using hfreshFails, hwalk, hrename,
                hr.mp ⟨e, rfl⟩⟩)
              refine not_unchanged ?_ (.inl hbound) (hclean rfl)
              have hgone : u.view q = none := by
                obtain ⟨i, hi, ⟨hj, -⟩ | ⟨-, rfl, -⟩⟩ := rename_ok hren.2.2.2
                · rw [hfresh'] at hj
                  cases hj
                · rw [FS.view_moved, if_neg, if_pos (List.prefix_refl q)]
                  rintro ⟨rest, rfl⟩
                  exact hbound (hs.get_below hfresh rest)
              rw [hgone, hview]
              nofun
      · obtain ⟨e, he⟩ := sidecarDir_of_not hready
        rw [he]
        exact iff_of_true (clean_same _ _) fun h => hready h.2.2.2.2.2.1

/-! ## Writes -/

def preimagePath (c : Call) : Path := [preimageName, "pre-" ++ c.uuid]

/-- The bytes a write leaves in a truncated file, and whether a step up to its last one fails. -/
def written (c : Call) (contents : List Nat) : List UInt8 × Bool :=
  if c.fails .seek then ([], true)
  else match utf8 contents with
    | none => ([], true)
    | some data =>
      if c.fails .writeBytes ∧ c.landed < data.length then (data.take c.landed, true)
      else (data, c.fails .confirm)

/-- A created file is not taken back. -/
def CreateSpoils (c : Call) (contents : List Nat) : Prop :=
  c.fails .createLeaf = false ∧ (c.fails .closeParent = true ∨ c.fails .fstat = true ∨
    (c.fails .closeHandle = false ∧ c.fails .discardStat = true ∧
      (c.fails .truncate = true ∨ (written c contents).2 = true)))

/-- A file is truncated, something fails, and other bytes landed than the file had. -/
def OverwriteSpoils (c : Call) (s : FS) (links : Nat) (bytes : List UInt8) (contents : List Nat) :
    Prop :=
  c.fails .openLeaf = false ∧ c.fails .closeParent = false ∧ c.fails .fstat = false ∧ links ≤ 1 ∧
    SidecarReady c s preimageName ∧ c.fails .freshSidecar = false ∧
    c.fails .sidecarOpen = false ∧ c.fails .sidecarCopy = false ∧ c.fails .truncate = false ∧
    c.fails .discardSidecar = false ∧ c.fails .closeHandle = false ∧
    (written c contents).2 = true ∧ (written c contents).1 ≠ bytes

def WriteSpoils (c : Call) (s : FS) (p : Path) (contents : List Nat) : Prop :=
  resolveWithin c s p = .ok p ∧ walkParent c s p = none ∧
    match s.get p with
    | none => CreateSpoils c contents
    | some i =>
      match (s.inode i).kind with
      | .file bytes => OverwriteSpoils c s (s.inode i).links bytes contents
      | _ => False

/-- The truncation and the steps after it, on a file that holds its name. -/
theorem landContents_eq {h : WriteHandle} (hname : s.get h.real = some h.ino)
    (contents : List Nat) :
    ∃ r, landContents c s h contents =
        (r, h, if c.fails .truncate then s else s.setBytes h.ino (written c contents).1 c.now) ∧
      ((∃ e, r = .error e) ↔ c.fails .truncate = true ∨ (written c contents).2 = true) := by
  have hset : ∀ bytes, (s.setBytes h.ino bytes c.now).get h.real = some h.ino := fun _ => hname
  unfold landContents writeThrough written fail
  by_cases htrunc : c.fails .truncate = true
  · rw [if_pos htrunc, if_pos htrunc]
    exact ⟨_, rfl, by simp [htrunc]⟩
  · rw [if_neg htrunc, if_neg htrunc]
    dsimp only
    by_cases hseek : c.fails .seek = true
    · rw [if_pos hseek, if_pos hseek]
      exact ⟨_, rfl, by simp⟩
    · rw [if_neg hseek, if_neg hseek]
      cases utf8 contents with
      | none => exact ⟨_, rfl, by simp⟩
      | some data =>
        dsimp only
        by_cases hbytes : c.fails .writeBytes = true ∧ c.landed < data.length
        · rw [if_pos hbytes, if_pos hbytes]
          exact ⟨_, rfl, by simp⟩
        · rw [if_neg hbytes, if_neg hbytes]
          refine ⟨_, rfl, ?_⟩
          unfold confirmLanded
          rw [hset]
          by_cases hconfirm : c.fails .confirm = true
          · simp [hconfirm]
          · simp [hconfirm, htrunc]

theorem finishWrite_ok {target : Path} {h : WriteHandle} {t : FS} :
    Clean s (finishWrite c target (.ok (), h, t)) := by
  unfold finishWrite
  dsimp only
  split_ifs
  · exact clean_raised _ _ _
  · exact clean_ok _ _ _

theorem finishWrite_raised {target : Path} {h : WriteHandle} {t u : FS} {e e' : FsOpError}
    (hd : discardWrite c t h = (.error e', u)) :
    Clean s (finishWrite c target (.error e, h, t)) := by
  unfold finishWrite
  dsimp only
  rw [hd]
  exact clean_raised _ _ _

theorem finishWrite_error {target : Path} {h : WriteHandle} {t u : FS} {e : FsOpError}
    (hd : discardWrite c t h = (.ok (), u)) :
    Clean s (finishWrite c target (.error e, h, t)) ↔
      (c.fails .closeHandle = false → Unchanged s u) := by
  unfold finishWrite Clean
  dsimp only
  rw [hd]
  dsimp only
  by_cases hclose : c.fails .closeHandle = true
  · simp [hclose, Answer.isErr]
  · simp [hclose, Answer.isErr]

theorem removeConfined_file {p : Path} (now : Nat) (h : s.isDir p = false) :
    ∃ t, removeConfined s p now = .ok t ∧ ∀ q, t.view q = if q = p then none else s.view q := by
  unfold removeConfined
  cases hu : s.unlink p now with
  | ok t => exact ⟨t, rfl, FS.unlink_ok hu⟩
  | error code =>
    unfold FS.unlink at hu
    unfold FS.isDir at h
    cases hget : s.get p with
    | none =>
      rw [hget] at hu
      cases hu
    | some i =>
      simp only [hget] at hu h
      rw [h] at hu
      cases hu

/-- A write without a sidecar over an existing file has nothing to discard. -/
theorem discardWrite_none {h : WriteHandle} (hc : h.created = false) (hp : h.preimage = none) :
    discardWrite c s h = (.ok (), s) := by
  unfold discardWrite
  rw [hp]
  simp [hc]

theorem discardWrite_sidecar {h : WriteHandle} {dst : Path} (hc : h.created = false)
    (hp : h.preimage = some dst) (hfile : s.isDir dst = false) :
    (c.fails .discardSidecar = true ∧ ∃ e, discardWrite c s h = (.error e, s)) ∨
      (c.fails .discardSidecar = false ∧ ∃ t, discardWrite c s h = (.ok (), t) ∧
        ∀ q, t.view q = if q = dst then none else s.view q) := by
  unfold discardWrite
  rw [hp]
  dsimp only
  by_cases hfails : c.fails .discardSidecar = true
  · rw [if_pos hfails]
    exact .inl ⟨hfails, _, rfl⟩
  · rw [if_neg hfails]
    obtain ⟨t, ht, hview⟩ := removeConfined_file c.now hfile
    rw [ht]
    exact .inr ⟨by simpa using hfails, t, by simp [hc], hview⟩

theorem discardWrite_created {h : WriteHandle} (hc : h.created = true) (hp : h.preimage = none)
    (hname : s.get h.real = some h.ino) (hfile : s.isDir h.real = false) :
    (c.fails .discardStat = true ∧ discardWrite c s h = (.ok (), s)) ∨
      (c.fails .discardStat = false ∧ ((∃ e, discardWrite c s h = (.error e, s)) ∨
        ∃ t, discardWrite c s h = (.ok (), t) ∧
          ∀ q, t.view q = if q = h.real then none else s.view q)) := by
  unfold discardWrite fail
  rw [hp]
  dsimp only
  by_cases hstat : c.fails .discardStat = true
  · exact .inl ⟨hstat, by simp [hstat]⟩
  · rw [if_pos ⟨hc, hstat, hname⟩]
    refine .inr ⟨by simpa using hstat, ?_⟩
    by_cases hleaf : c.fails .discardLeaf = true
    · rw [if_pos hleaf]
      exact .inl ⟨_, rfl⟩
    · rw [if_neg hleaf]
      obtain ⟨t, ht, hview⟩ := removeConfined_file c.now hfile
      rw [ht]
      exact .inr ⟨t, rfl, hview⟩

/-- A file where nothing was is residue. -/
theorem residue {u : FS} {p : Path} {bytes : List UInt8} {mode : Nat} (hget : s.get p = none)
    (hu : u.view p = some (.file bytes, mode)) : ¬ Unchanged s u := by
  have hne : u.view p ≠ s.view p := by
    rw [hu, FS.view_eq_none.mpr hget]
    nofun
  have hfile : u.isDir p = false := by
    rw [FS.isDir_eq, hu]
    rfl
  exact not_unchanged hne (.inr hfile)

theorem create_clean_iff (hs : s.WellFormed) {p : Path} {contents : List Nat}
    (hwalk : walkParent c s p = none) (hget : s.get p = none) :
    Clean s (writeTarget proc c s p contents) ↔
      ¬ CreateSpoils c contents := by
  have hcreated : ∀ q, (s.create p [] 0o600 c.now).view q =
      if q = p then some (.file [], 0o600) else s.view q := fun q => FS.view_add hs.fresh p _ _ q
  have hname : (s.create p [] 0o600 c.now).get p = some s.next := by
    rw [FS.create, FS.get_add, if_pos rfl]
  unfold writeTarget openConfinedWrite fail CreateSpoils
  rw [hwalk, hget]
  dsimp only
  by_cases hleaf : c.fails .createLeaf = true
  · rw [if_pos hleaf]
    exact iff_of_true (clean_same _ _) (by simp [hleaf])
  rw [if_neg hleaf]
  have hleaf' : c.fails .createLeaf = false := by simpa using hleaf
  have hleft : ∀ e, ¬ Clean s ((.err e : Answer WriteWitness), s.create p [] 0o600 c.now) :=
    fun e hclean => residue hget ((hcreated p).trans (if_pos rfl)) (hclean rfl)
  by_cases hclose : c.fails .closeParent = true
  · rw [if_pos hclose]
    exact iff_of_false (hleft _) (not_not.mpr ⟨hleaf', .inl hclose⟩)
  rw [if_neg hclose]
  by_cases hfstat : c.fails .fstat = true
  · rw [if_pos hfstat]
    exact iff_of_false (hleft _) (not_not.mpr ⟨hleaf', .inr (.inl hfstat)⟩)
  rw [if_neg hfstat]
  dsimp only
  -- the file is open from here on
  obtain ⟨r, hsteps, hr⟩ := landContents_eq (c := c) (s := s.create p [] 0o600 c.now)
    (h := ⟨p, s.next, true, none, none⟩) hname contents
  have hsteps' : writeSteps proc c (s.create p [] 0o600 c.now) ⟨p, s.next, true, none, none⟩
      contents = _ := hsteps
  rw [hsteps']
  generalize ht : (if c.fails .truncate = true then s.create p [] 0o600 c.now
    else (s.create p [] 0o600 c.now).setBytes s.next (written c contents).1 c.now) = t
  have hget_t : t.get p = some s.next := by
    rw [← ht]
    split_ifs
    · exact hname
    · exact hname
  have hview_p : ∃ bytes mode, t.view p = some (.file bytes, mode) := by
    rw [← ht]
    split_ifs
    · exact ⟨_, _, (hcreated p).trans (if_pos rfl)⟩
    · exact ⟨_, _, (FS.view_setBytes _ _ _ _ p).trans (if_pos hname)⟩
  have hview : ∀ q, q ≠ p → t.view q = s.view q := by
    intro q hq
    have hother : (s.create p [] 0o600 c.now).get q ≠ some s.next := by
      rw [FS.create, FS.get_add, if_neg hq]
      exact fun h => (hs.fresh q _ h).ne rfl
    rw [← ht]
    split_ifs
    · rw [hcreated, if_neg hq]
    · rw [FS.view_setBytes, if_neg hother, hcreated, if_neg hq]
  obtain ⟨bytes, mode, hfile⟩ := hview_p
  cases r with
  | ok u =>
    refine iff_of_true finishWrite_ok ?_
    rintro ⟨-, h | h | ⟨-, -, h⟩⟩
    · exact hclose h
    · exact hfstat h
    · obtain ⟨e, he⟩ := hr.mpr h
      cases he
  | error e =>
    have hfails := hr.mp ⟨e, rfl⟩
    have hdir : t.isDir p = false := by
      rw [FS.isDir_eq, hfile]
      rfl
    rcases discardWrite_created (c := c) (h := ⟨p, s.next, true, none, none⟩) rfl rfl hget_t hdir
      with ⟨hstat, hdiscard⟩ | ⟨hstat, ⟨e', hdiscard⟩ | ⟨u, hdiscard, hu⟩⟩
    · rw [finishWrite_error hdiscard]
      constructor
      · rintro hclean ⟨-, h | h | ⟨hhandle, -, -⟩⟩
        · exact hclose h
        · exact hfstat h
        · exact residue hget hfile (hclean hhandle)
      · intro h hhandle
        exact absurd ⟨hleaf', .inr (.inr ⟨hhandle, hstat, hfails⟩)⟩ h
    · refine iff_of_true (finishWrite_raised hdiscard) ?_
      rintro ⟨-, h | h | ⟨-, h, -⟩⟩
      · exact hclose h
      · exact hfstat h
      · rw [hstat] at h
        cases h
    · have hclean : c.fails .closeHandle = false → Unchanged s u :=
        fun _ => Unchanged.of_view fun q => by
          rw [hu]
          split_ifs with hq
          · rw [show q = p from hq, FS.view_eq_none.mpr hget]
          · exact hview q hq
      refine iff_of_true ((finishWrite_error hdiscard).mpr hclean) ?_
      rintro ⟨-, h | h | ⟨-, h, -⟩⟩
      · exact hclose h
      · exact hfstat h
      · rw [hstat] at h
        cases h

/-- Next to the sidecar, and the directory it lies in, nothing changed. -/
structure Snapshotted (c : Call) (s t : FS) : Prop where
  isDir : t.isDir (preimagePath c) = false
  view : ∃ t', WithSidecar s preimageName t' ∧ t'.get (preimagePath c) = none ∧
    ∀ q, q ≠ preimagePath c → t.view q = t'.view q

/-- The sidecar taken away again. -/
theorem Snapshotted.unchanged {t u : FS} (h : Snapshotted c s t)
    (hu : ∀ q, u.view q = if q = preimagePath c then none else t.view q) : Unchanged s u := by
  obtain ⟨t', ht', hfree, hview⟩ := h.view
  refine (ht'.unchanged (by simp [sidecarNames])).trans_view fun q => ?_
  rw [hu]
  split_ifs with hq
  · rw [hq, FS.view_eq_none.mpr hfree]
  · exact hview q hq

theorem snapshot_cases (proc : Process) (hs : s.WellFormed) {h : WriteHandle} {bytes : List UInt8}
    (hname : s.get h.real = some h.ino) (hkind : (s.inode h.ino).kind = .file bytes)
    (hfresh : s.get (preimagePath c) = none) :
    (¬ (SidecarReady c s preimageName ∧ c.fails .freshSidecar = false) ∧
      ∃ e t, snapshotPreimage proc c s h = (.error e, h, t) ∧ Unchanged s t) ∨
    (SidecarReady c s preimageName ∧ c.fails .freshSidecar = false ∧ ∃ r capture t,
      snapshotPreimage proc c s h =
        (r, ⟨h.real, h.ino, h.created, some (preimagePath c), capture⟩, t) ∧
      Snapshotted c s t ∧ t.get h.real = some h.ino ∧ t.view h.real = s.view h.real ∧
      ((∃ e, r = .error e) ↔ c.fails .sidecarOpen = true ∨ c.fails .sidecarCopy = true)) := by
  unfold snapshotPreimage
  by_cases hready : SidecarReady c s preimageName
  · obtain ⟨t, hdir, ht⟩ := sidecarDir_of_ready hs hready
    rw [hdir]
    dsimp only
    by_cases hfreshFails : c.fails .freshSidecar = true
    · rw [if_pos hfreshFails]
      exact .inl ⟨by simp [hfreshFails], _, t, rfl, ht.unchanged (by simp [sidecarNames])⟩
    rw [if_neg hfreshFails]
    have hpath : [preimageName] ++ ["pre-" ++ c.uuid] = preimagePath c := rfl
    rw [hpath]
    refine .inr ⟨hready, by simpa using hfreshFails, ?_⟩
    have hreal : h.real ≠ [preimageName] := by
      intro hreal
      rw [hreal] at hname
      rcases hready.2 with hfree | hisdir
      · rw [hname] at hfree
        cases hfree
      · unfold FS.isDir at hisdir
        simp [hname, hkind, Kind.isDir] at hisdir
    have hdst : h.real ≠ preimagePath c := by
      intro hreal
      rw [hreal, hfresh] at hname
      cases hname
    have hget : t.get h.real = some h.ino := (ht.get _ hreal).trans hname
    have hview : t.view h.real = s.view h.real := ht.view _ hreal
    have hfree : t.get (preimagePath c) = none :=
      (ht.get_eq_none_iff (by simp [preimagePath])).mpr hfresh
    have hkind' : (t.inode h.ino).kind = .file bytes := by
      rw [FS.view_eq, FS.view_eq, hget, hname] at hview
      have hface := congrArg Prod.fst (Option.some.inj hview)
      exact hface.trans hkind
    by_cases hopen : c.fails .sidecarOpen = true
    · rw [if_pos (.inl hopen)]
      refine ⟨_, _, t, rfl, ⟨?_, t, ht, hfree, fun _ _ => rfl⟩, hget, hview, by simp [hopen]⟩
      unfold FS.isDir
      rw [hfree]
    rw [if_neg (by simp [hopen, hfree])]
    simp only [hkind']
    have hadd : ∀ bytes mode q, (t.create (preimagePath c) bytes mode c.now).view q =
        if q = preimagePath c then some (.file bytes, mode) else t.view q :=
      fun bytes mode q => FS.view_add ht.fresh _ _ _ q
    have hadded : ∀ bytes mode, (t.create (preimagePath c) bytes mode c.now).get h.real =
        some h.ino := fun bytes mode => by rw [FS.create, FS.get_add, if_neg hdst, hget]
    by_cases hcopy : c.fails .sidecarCopy = true
    · rw [if_pos hcopy]
      refine ⟨_, _, _, rfl, ⟨?_, t, ht, hfree, fun q hq => ?_⟩, hadded _ _, ?_, by simp [hcopy]⟩
      · rw [FS.isDir_eq, hadd, if_pos rfl]
        rfl
      · rw [hadd, if_neg hq]
      · rw [hadd, if_neg hdst, hview]
    · rw [if_neg hcopy]
      have hstamped : ∀ q, ((t.create (preimagePath c) bytes (t.inode h.ino).mode c.now).setInode
          t.next ⟨.file bytes, (t.inode h.ino).mode, 1, (t.inode h.ino).mtime, c.now⟩).view q =
          if q = preimagePath c then some (.file bytes, (t.inode h.ino).mode) else t.view q := by
        intro q
        rw [← hadd]
        refine FS.view_congr rfl fun i _ => FS.face_restamp _ _ ?_ i
        rw [FS.create, FS.face_add, if_pos rfl]
      refine ⟨_, _, _, rfl, ⟨?_, t, ht, hfree, fun q hq => ?_⟩, hadded _ _, ?_, by
        simp [hopen, hcopy]⟩
      · rw [FS.isDir_eq, hstamped, if_pos rfl]
        rfl
      · rw [hstamped, if_neg hq]
      · rw [hstamped, if_neg hdst, hview]
  · obtain ⟨e, he⟩ := sidecarDir_of_not hready
    rw [he]
    exact .inl ⟨fun h => hready h.1, e, s, rfl, Unchanged.refl s⟩

theorem Snapshotted.congr {t u : FS} (h : Snapshotted c s t) (hu : ∀ q, u.view q = t.view q) :
    Snapshotted c s u where
  isDir := (FS.isDir_congr (hu _)).trans h.isDir
  view := by
    obtain ⟨t', ht', hfree, hview⟩ := h.view
    exact ⟨t', ht', hfree, fun q hq => (hu q).trans (hview q hq)⟩

/-- An error after the snapshot, with the file as it was. -/
theorem finishWrite_snapshotted {target p : Path} {i : Nat} {capture : Option Capture} {t : FS}
    {e : FsOpError} (hnew : Snapshotted c s t) :
    Clean s (finishWrite c target (.error e, ⟨p, i, false, some (preimagePath c), capture⟩, t)) := by
  rcases discardWrite_sidecar (c := c) (h := ⟨p, i, false, some (preimagePath c), capture⟩)
    rfl rfl hnew.isDir with ⟨-, e', hdiscard⟩ | ⟨-, u, hdiscard, hu⟩
  · exact finishWrite_raised hdiscard
  · exact (finishWrite_error hdiscard).mpr fun _ => hnew.unchanged hu

/-- The steps from the truncation on, over a file that was snapshotted. -/
theorem land_clean_iff {p : Path} {i mode : Nat} {bytes : List UInt8} {capture : Option Capture}
    {contents : List Nat} {t : FS} (hnew : Snapshotted c s t) (hpne : p ≠ preimagePath c)
    (hbound : s.get p ≠ none) (hname : t.get p = some i) (hview : t.view p = s.view p)
    (hshown : s.view p = some (.file bytes, mode)) :
    Clean s (finishWrite c p (landContents c t ⟨p, i, false, some (preimagePath c), capture⟩
      contents)) ↔ ¬ (c.fails .truncate = false ∧ c.fails .discardSidecar = false ∧
        c.fails .closeHandle = false ∧ (written c contents).2 = true ∧
        (written c contents).1 ≠ bytes) := by
  obtain ⟨r, htail, hr⟩ := landContents_eq (c := c) (s := t)
    (h := ⟨p, i, false, some (preimagePath c), capture⟩) hname contents
  rw [htail]
  cases r with
  | ok v =>
    refine iff_of_true finishWrite_ok fun h => ?_
    obtain ⟨e, he⟩ := hr.mpr (.inr h.2.2.2.1)
    cases he
  | error e =>
    by_cases htrunc : c.fails .truncate = true
    · rw [if_pos htrunc]
      exact iff_of_true (finishWrite_snapshotted hnew) fun h => by simp [htrunc] at h
    rw [if_neg htrunc]
    have hwritten : (written c contents).2 = true := (hr.mp ⟨e, rfl⟩).resolve_left htrunc
    have hset := FS.view_setBytes t i (written c contents).1 c.now
    by_cases hbytes : (written c contents).1 = bytes
    · -- the bytes that landed are the ones the file had
      refine iff_of_true (finishWrite_snapshotted (hnew.congr fun q => ?_)) fun h =>
        h.2.2.2.2 hbytes
      rw [hset]
      split_ifs with hq
      · have hface := hview.trans hshown
        rw [FS.view_eq, hname, Option.map_some] at hface
        rw [FS.view_eq, hq, Option.map_some, hface, hbytes]
        exact congrArg (fun m => some (Kind.file bytes, m))
          (congrArg Prod.snd (Option.some.inj hface))
      · rfl
    · have hfile : (t.setBytes i (written c contents).1 c.now).isDir (preimagePath c) = false := by
        rw [FS.isDir_eq, hset]
        split_ifs
        · rfl
        · rw [← FS.isDir_eq]
          exact hnew.isDir
      rcases discardWrite_sidecar (c := c) (h := ⟨p, i, false, some (preimagePath c), capture⟩)
        rfl rfl hfile with ⟨hdiscards, e', hdiscard⟩ | ⟨hdiscards, u, hdiscard, hu⟩
      · exact iff_of_true (finishWrite_raised hdiscard) fun h => by simp [hdiscards] at h
      · have hspoiled : ¬ Unchanged s u := by
          refine not_unchanged (p := p) ?_ (.inl hbound)
          rw [hu, if_neg hpne, hset, if_pos hname, hshown]
          intro h
          exact hbytes (Kind.file.inj (congrArg Prod.fst (Option.some.inj h)))
        rw [finishWrite_error hdiscard]
        have htrunc' : c.fails .truncate = false := by simpa using htrunc
        constructor
        · intro hclean h
          exact hspoiled (hclean h.2.2.1)
        · intro h hhandle
          exact absurd ⟨htrunc', hdiscards, hhandle, hwritten, hbytes⟩ h

theorem overwrite_clean_iff (hs : s.WellFormed) {p : Path} {i : Nat} {bytes : List UInt8}
    {contents : List Nat} (hwalk : walkParent c s p = none) (hget : s.get p = some i)
    (hkind : (s.inode i).kind = .file bytes) (hfresh : s.get (preimagePath c) = none) :
    Clean s (writeTarget proc c s p contents) ↔
      ¬ OverwriteSpoils c s (s.inode i).links bytes contents := by
  unfold writeTarget openConfinedWrite fail OverwriteSpoils
  rw [hwalk, hget]
  simp only [hkind]
  by_cases hopen : c.fails .openLeaf = true
  · rw [if_pos hopen]
    exact iff_of_true (clean_same _ _) (by simp [hopen])
  rw [if_neg hopen]
  by_cases hclose : c.fails .closeParent = true
  · rw [if_pos hclose]
    exact iff_of_true (clean_same _ _) (by simp [hclose])
  rw [if_neg hclose]
  by_cases hfstat : c.fails .fstat = true
  · rw [if_pos hfstat]
    exact iff_of_true (clean_same _ _) (by simp [hfstat])
  rw [if_neg hfstat]
  by_cases hlinks : (s.inode i).links > 1
  · rw [if_pos hlinks]
    exact iff_of_true (clean_same _ _) fun h => (Nat.not_le.mpr hlinks) h.2.2.2.1
  rw [if_neg hlinks]
  dsimp only
  unfold writeSteps
  rw [if_neg (by simp)]
  rcases snapshot_cases proc hs (h := ⟨p, i, false, none, none⟩) hget hkind hfresh with
    ⟨hno, e, t, hsnap, hunchanged⟩ |
    ⟨hready, hfreshSidecar, r, capture, t, hsnap, hnew, hname, hview, hr⟩
  · rw [hsnap]
    dsimp only
    refine iff_of_true ((finishWrite_error (discardWrite_none rfl rfl)).mpr fun _ => hunchanged) ?_
    exact fun h => hno ⟨h.2.2.2.2.1, h.2.2.2.2.2.1⟩
  · rw [hsnap]
    cases r with
    | error e =>
      have hfails := hr.mp ⟨e, rfl⟩
      refine iff_of_true (finishWrite_snapshotted hnew) fun h => ?_
      obtain ⟨-, -, -, -, -, -, hsidecar, hcopy, -⟩ := h
      simp [hsidecar, hcopy] at hfails
    | ok v =>
      have hnone : ¬ (c.fails .sidecarOpen = true ∨ c.fails .sidecarCopy = true) := fun h => by
        obtain ⟨e, he⟩ := hr.mpr h
        cases he
      rw [not_or] at hnone
      have hbound : s.get p ≠ none := by simp [hget]
      have hpne : p ≠ preimagePath c := by
        rintro rfl
        exact hbound hfresh
      have hshown : s.view p = some (.file bytes, (s.inode i).mode) := by
        rw [FS.view_eq, hget, Option.map_some, FS.face, hkind]
      refine (land_clean_iff hnew hpne hbound hname hview hshown).trans (not_congr ?_)
      simp only [Bool.not_eq_true] at hopen hclose hfstat hnone
      simp only [hopen, hclose, hfstat, Nat.not_lt.mp hlinks, hready, hfreshSidecar, hnone.1,
        hnone.2, true_and]

theorem write_clean_iff (hs : s.WellFormed) {p : Path} {contents : List Nat}
    (hfresh : s.get (preimagePath c) = none) :
    Clean s (write proc c s p contents) ↔ ¬ WriteSpoils c s p contents := by
  unfold write WriteSpoils
  cases hres : resolveWithin c s p with
  | error e => exact iff_of_true (clean_same _ _) fun h => by cases h.1
  | ok q =>
    obtain rfl := resolveWithin_ok hres
    dsimp only
    cases hwalk : walkParent c s q with
    | some e =>
      unfold writeTarget openConfinedWrite
      rw [hwalk]
      exact iff_of_true (clean_same _ _) fun h => by cases h.2.1
    | none =>
      cases hget : s.get q with
      | none =>
        rw [create_clean_iff hs hwalk hget]
        simp
      | some i =>
        dsimp only
        cases hkind : (s.inode i).kind with
        | file bytes =>
          rw [overwrite_clean_iff hs hwalk hget hkind hfresh]
          simp
        | dir | link | special =>
          unfold writeTarget openConfinedWrite fail
          simp only [hwalk, hget, hkind]
          refine iff_of_true ?_ (by simp)
          split_ifs <;> exact clean_same _ _

/-! ## Calls -/

/-- A step of the call fails after its own change, and the change is not taken back. -/
def Spoils (c : Call) (s : FS) : Op → Prop
  | .write path contents => WriteSpoils c s path contents
  | .rm path => RmSpoils c s path
  | .move src dst => MoveSpoils c s src dst
  | .mkdir path => MkdirSpoils c s path

theorem clean_map {W V : Type} (f : W → V) (r : Answer W × FS) :
    Clean s (r.map (Answer.map f) id) ↔ Clean s r := by
  obtain ⟨a, t⟩ := r
  cases a <;> exact Iff.rfl

/-- A call that answers an error leaves the tree as it was exactly when nothing spoils it. The two
names its uuid would give a sidecar are free, as `uuid4` promises. -/
theorem failed_call_iff (proc : Process) (hs : s.WellFormed)
    (hpreimage : s.get (preimagePath c) = none) (hparked : s.get (parkedPath c) = none) (op : Op) :
    Clean s (perform proc c s op) ↔ ¬ Spoils c s op := by
  cases op with
  | write path contents => exact (clean_map _ _).trans (write_clean_iff hs hpreimage)
  | rm path => exact (clean_map _ _).trans (rm_clean_iff hs hparked)
  | move src dst => exact (clean_map _ _).trans (move_clean_iff hs)
  | mkdir path => exact (clean_map _ _).trans (mkdir_clean_iff hs)

/-- A workspace with one file of one byte. -/
def oneFile : FS where
  names := {
    get := fun p => if p = [] then some 0 else if p = ["f"] then some 1 else none
    support := [[], ["f"]]
    covers := fun p hp => by
      by_contra hmem
      simp only [List.mem_cons, List.not_mem_nil, or_false, not_or] at hmem
      simp [hmem.1, hmem.2] at hp }
  inode i := if i = 1 then ⟨.file [1], 0o644, 1, 0, 0⟩ else ⟨.dir, 0o755, 1, 0, 0⟩
  next := 2

theorem oneFile_get {p : Path} {i : Nat} (h : oneFile.get p = some i) :
    (p = [] ∧ i = 0) ∨ (p = ["f"] ∧ i = 1) := by
  have h' : (if p = [] then some 0 else if p = ["f"] then some 1 else none) = some i := h
  split_ifs at h' with h1 h2
  · exact .inl ⟨h1, (Option.some.inj h').symm⟩
  · exact .inr ⟨h2, (Option.some.inj h').symm⟩

theorem oneFile_wellFormed : oneFile.WellFormed where
  root := rfl
  parent p x h := by
    obtain ⟨i, hi⟩ := Option.ne_none_iff_exists'.mp h
    rcases oneFile_get hi with ⟨hp, -⟩ | ⟨hp, -⟩
    · simp at hp
    · obtain ⟨rfl, -⟩ := List.append_inj' (show p ++ [x] = [] ++ ["f"] from hp) rfl
      rfl
  fresh p i h := by
    rcases oneFile_get h with ⟨-, rfl⟩ | ⟨-, rfl⟩ <;> decide

def quietCall : Call := ⟨fun _ => false, 0, "u", 1⟩

def host : Process where
  readable _ := true
  sha256 bytes :=
    if bytes = [1] then "4bf5122f344554c53bde2ebb8cd2b7e3d1600ad631c385a5d7cce23c7785459a" else ""
  dirMode := 0o755

theorem failed_call_one_file :
    Clean oneFile (perform host quietCall oneFile (.write ["f"] [0xD800])) ↔
      ¬ Spoils quietCall oneFile (.write ["f"] [0xD800]) :=
  failed_call_iff host oneFile_wellFormed rfl rfl _

/-- A text that cannot be encoded empties the file it was written over, and answers `Err`. -/
theorem surrogate_empties_file : oneFile.WellFormed ∧
    oneFile.view ["f"] = some (.file [1], 0o644) ∧
    (perform host quietCall oneFile (.write ["f"] [0xD800])).1.isErr = true ∧
    (perform host quietCall oneFile (.write ["f"] [0xD800])).2.view ["f"] =
      some (.file [], 0o644) := by
  refine ⟨oneFile_wellFormed, ?_, ?_, ?_⟩ <;> decide

end Revl.Fs
