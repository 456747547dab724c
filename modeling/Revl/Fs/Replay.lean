import Revl.Fs.Abort

/-!
# Replays

A replay of the inverses that crashed, and the whole list replayed again.

- `Idle`: an inverse finds nothing to do on a tree.
- `Anew`: every inverse of the run is idle on the trees before its operation.
- `replay_again`: then the second replay ends in the very tree of one complete replay.
-/

namespace Revl.Fs

variable {proc : Process} {c : Call} {s t u : FS} {R : List Nat} {V : List Path}

/-- The sidecar directory is fit, and the slot in it is free. -/
def SlotFree (s : FS) (name : String) (p : Path) : Prop :=
  (∃ x, p = [name, x]) ∧ (s.get [name] = none ∨ s.isDir [name] = true) ∧ s.get p = none

/-- The inverse of the witness finds nothing to do: its paths lead through no link, and what it
would remove or move back is not there. -/
def Idle (s : FS) : Witness → Prop
  | .write w => NoLink s w.path ∧
    if w.created then w.path ∉ sidecarNames ∧ s.get w.path = none
    else SlotFree s preimageName (w.preimage.getD [])
  | .rm w => NoLink s w.path ∧ SlotFree s garbageName w.garbage
  | .move w => NoLink s w.src ∧ NoLink s w.dst ∧ w.dst ∉ sidecarNames ∧ s.get w.dst = none
  | .mkdir w => NoLink s w.path ∧ w.path ∉ sidecarNames ∧
    (s.isDir w.path = true → ∃ q, w.path <+: q ∧ q ≠ w.path ∧ s.get q ≠ none)

theorem Like.free (h : Like R V s u) {p : Path} (hp : p ∉ sidecarNames) (hfree : s.get p = none) :
    u.get p = none := by
  rw [← FS.view_eq_none, h.view_of (.inl hp), FS.view_eq_none, hfree]

theorem slot_idle (hc : Quiet c) (hl : Like R V s u) (hroot : s.isDir [] = true) {name : String}
    {p : Path} (h : SlotFree s name p) :
    resolveSidecar c u p name = .ok p ∧ u.get p = none := by
  obtain ⟨⟨x, rfl⟩, hdir, hfree⟩ := h
  have hslot : u.get [name, x] = none := by
    refine hl.free (fun hmem => ?_) hfree
    have hlen := mem_sidecarNames hmem
    simp at hlen
  have hside : u.get [name] = none ∨ u.isDir [name] = true := by
    rcases hdir with hnone | hdir
    · rcases hl.view [name] with heq | ⟨-, -, -, hdir⟩
      · left
        rw [← FS.view_eq_none, heq, FS.view_eq_none, hnone]
      · exact .inr hdir
    · exact .inr (hl.isDir hdir)
  refine ⟨?_, hslot⟩
  rcases hside with hnone | hdir
  · have hno : NoLink u [name, x] := by
      intro q hq mode hview
      have hmem := (List.mem_inits q [name, x]).mpr hq
      simp only [List.inits, List.map_cons, List.map_nil, List.mem_cons, List.not_mem_nil,
        or_false] at hmem
      rcases hmem with rfl | rfl | rfl
      · have hrootU := hl.isDir hroot
        rw [FS.isDir_eq, hview] at hrootU
        cases hrootU
      · rw [FS.view_eq_none.mpr hnone] at hview
        cases hview
      · rw [FS.view_eq_none.mpr hslot] at hview
        cases hview
    unfold resolveSidecar
    rw [(resolveWithin_quiet hc u _).mpr hno]
    simp [hnone, bind, Except.bind, pure, Except.pure]
  · refine resolveSidecar_quiet hc (noLink_parked (hl.isDir hroot) hdir fun mode hview => ?_) hdir
    rw [FS.view_eq_none.mpr hslot] at hview
    cases hview

/-- An idle inverse leaves the tree. -/
theorem undo_idle (proc : Process) (hc : Quiet c) (hl : Like R V s u) (hroot : s.isDir [] = true)
    {w : Witness} (h : Idle s w) : undo proc c u w = (.ok (), u) := by
  cases w with
  | write w =>
    obtain ⟨hno, h⟩ := h
    unfold undo restore
    dsimp only
    rw [(resolveWithin_quiet hc u _).mpr (hno.like hl)]
    dsimp only
    cases hcreated : w.created with
    | true =>
      rw [hcreated, if_pos rfl] at h
      rw [if_pos rfl]
      split_ifs with hparent
      · rfl
      · unfold removeConfined FS.unlink
        rw [hl.free h.1 h.2]
    | false =>
      rw [hcreated, if_neg (by simp)] at h
      obtain ⟨hres, hslot⟩ := slot_idle hc hl hroot h
      rw [if_neg (by simp), hres]
      dsimp only
      rw [hslot, if_neg (by simp)]
  | rm w =>
    obtain ⟨hno, h⟩ := h
    obtain ⟨hres, hslot⟩ := slot_idle hc hl hroot h
    unfold undo unrm
    dsimp only
    rw [(resolveWithin_quiet hc u _).mpr (hno.like hl), hres]
    dsimp only
    rw [hslot, if_neg (by simp)]
  | move w =>
    obtain ⟨hsrc, hdst, hside, hfree⟩ := h
    unfold undo unmove
    dsimp only
    rw [(resolveWithin_quiet hc u _).mpr (hsrc.like hl),
      (resolveWithin_quiet hc u _).mpr (hdst.like hl)]
    dsimp only
    rw [hl.free hside hfree, if_neg (by simp)]
  | mkdir w =>
    obtain ⟨hno, hside, hfull⟩ := h
    unfold undo rmdirIfEmpty FS.rmdir
    dsimp only
    rw [(resolveWithin_quiet hc u _).mpr (hno.like hl)]
    dsimp only
    rw [if_neg]
    intro hempty
    rw [Bool.and_eq_true] at hempty
    have hdir : s.isDir w.path = true := by
      rw [← FS.isDir_congr (hl.view_of (.inl hside)), hempty.1]
    obtain ⟨q, hq, hne, hbound⟩ := hfull hdir
    refine hbound ?_
    rw [← FS.view_eq_none, ← hl.view_of (.inr hbound), FS.view_eq_none]
    exact NameTree.isEmptyBelow_iff.mp hempty.2 q hq hne

theorem abort_idle (proc : Process) {call : Nat → Call} (hcall : ∀ n, Quiet (call n))
    (hl : Like R V s u) (hroot : s.isDir [] = true) {ws : List Witness} (h : ∀ w ∈ ws, Idle s w) :
    abort proc call u ws = .ok u := by
  induction ws with
  | nil => rfl
  | cons w ws ih =>
    rw [abort, undo_idle proc (hcall _) hl hroot (h w List.mem_cons_self)]
    exact ih fun w' hw' => h w' (List.mem_cons_of_mem w hw')

theorem abort_append (call : Nat → Call) (ws ws' : List Witness) :
    abort proc call s (ws ++ ws') =
      match abort proc (fun n => call (n + ws'.length)) s ws with
      | .ok t => abort proc call t ws'
      | .error e => .error e := by
  induction ws generalizing s with
  | nil => rfl
  | cons w ws ih =>
    rcases hw : undo proc (call (ws.length + ws'.length)) s w with ⟨e | v, t⟩ <;>
      simp only [List.cons_append, abort, List.length_append, hw, ih]

/-- The inverses meet only the calls of their own positions. -/
theorem abort_congr {call call' : Nat → Call} {ws : List Witness}
    (h : ∀ n < ws.length, call n = call' n) : abort proc call s ws = abort proc call' s ws := by
  induction ws generalizing s with
  | nil => rfl
  | cons w ws ih =>
    have hw := h ws.length (by simp)
    have hrest : ∀ n < ws.length, call n = call' n := fun n hn => h n (Nat.lt_succ_of_lt hn)
    rcases hundo : undo proc (call' ws.length) s w with ⟨e | v, t⟩ <;>
      simp only [abort, hw, hundo, ih hrest]

/-- Every inverse of the run is idle on each tree the run went through before its operation. -/
def Anew (proc : Process) : FS → List (Call × Op) → Prop
  | _, [] => True
  | s, (c, op) :: rest => (∀ w ∈ (forward proc s ((c, op) :: rest)).1, Idle s w) ∧
      Anew proc (perform proc c s op).2 rest

/-- After the newest inverses the tree is like one the run went through, on which they are idle. -/
theorem replayed_part (proc : Process) (steps : List (Call × Op)) :
    ∀ R V s, s.Linked → (∀ k ∈ R, k < s.next) → Served proc s steps → Heeds proc R V s steps →
      Anew proc s steps → ∀ call : Nat → Call, (∀ n, Quiet (call n)) →
        ∀ ws ws', (forward proc s steps).1 = ws ++ ws' →
          ∃ u s' R' V', abort proc (fun n => call (n + ws'.length)) (forward proc s steps).2 ws =
              .ok u ∧ Like R' V' s' u ∧ s'.isDir [] = true ∧ ∀ w ∈ ws, Idle s' w := by
  induction steps with
  | nil =>
    intro R V s hs _ _ _ _ call _ ws ws' hws
    obtain ⟨rfl, -⟩ := List.append_eq_nil_iff.mp hws.symm
    exact ⟨s, s, R, V, rfl, Like.refl R V s, hs.root, nofun⟩
  | cons step rest ih =>
    obtain ⟨c, op⟩ := step
    intro R V s hs hfresh hserved hheeds hanew call hcall ws ws' hws
    rcases List.eq_nil_or_concat ws' with rfl | ⟨ws'', w', rfl⟩
    · -- the crash came after the last inverse
      rw [List.append_nil] at hws
      obtain ⟨u, habort, hl, -⟩ := run_undone proc ((c, op) :: rest) R V s hs hfresh hserved hheeds
        call hcall
      refine ⟨u, s, R, V, ?_, hl, hs.root, ?_⟩
      · rw [hws] at habort
        exact habort
      · rw [← hws]
        exact hanew.1
    · -- the inverse of the first operation was not reached
      obtain ⟨hc, hpreimage, hparked, hserved⟩ := hserved
      obtain ⟨hg, hheeds⟩ := hheeds
      have hanew := hanew.2
      have hfine := fine_step hs hc hfresh hpreimage hparked hg
      unfold forward at hws ⊢
      rcases hrun : perform proc c s op with ⟨a, t⟩
      rw [hrun] at hfine hserved hheeds hanew hws
      cases a with
      | ok w =>
        obtain ⟨hundone, hnew⟩ := hfine
        have hfresh' : ∀ k ∈ captured w ++ R, k < t.next := by
          intro k hk
          rcases List.mem_append.mp hk with hk | hk
          · exact hnew k hk
          · exact (hfresh k hk).trans_le hundone.next
        rw [List.concat_eq_append, ← List.append_assoc] at hws
        obtain ⟨hws, -⟩ := List.append_inj' hws rfl
        obtain ⟨u, s', R', V', habort, hl, hroot, hidle⟩ := ih _ _ t hundone.linked hfresh' hserved
          hheeds hanew (fun n => call (n + 1)) (fun n => hcall (n + 1)) ws ws'' hws
        refine ⟨u, s', R', V', ?_, hl, hroot, hidle⟩
        rw [List.concat_eq_append, List.length_append, List.length_singleton]
        exact habort
      | err e | raised e =>
        obtain ⟨hlinked, hnext, -⟩ := hfine
        exact ih R V t hlinked (fun k hk => (hfresh k hk).trans_le hnext) hserved hheeds hanew call
          hcall ws _ hws

/-- The replay that crashed after the inverses `ws`, and the whole list replayed again: it ends in
the tree of one complete replay, the one whose later inverses run when the second replay runs
them. -/
theorem replay_again (proc : Process) (hs : s.Linked) {steps : List (Call × Op)}
    (hserved : Served proc s steps) (hheeds : Heeds proc [] [] s steps) (hanew : Anew proc s steps)
    {call call' : Nat → Call} (hcall : ∀ n, Quiet (call n)) (hcall' : ∀ n, Quiet (call' n))
    {ws ws' : List Witness} (hws : (forward proc s steps).1 = ws ++ ws') :
    ∃ u t, abort proc (fun n => call (n + ws'.length)) (forward proc s steps).2 ws = .ok u ∧
      abort proc call' u (ws ++ ws') = .ok t ∧
      abort proc (fun n => if n < ws'.length then call' n else call n) (forward proc s steps).2
        (ws ++ ws') = .ok t := by
  have hmixed : ∀ n, Quiet (if n < ws'.length then call' n else call n) := by
    intro n
    split_ifs
    · exact hcall' n
    · exact hcall n
  obtain ⟨u, s', R', V', habort, hl, hroot, hidle⟩ := replayed_part proc steps [] [] s hs nofun
    hserved hheeds hanew call hcall ws ws' hws
  obtain ⟨t, hcomplete, -⟩ := abort_restores proc hs hserved hheeds hmixed
  rw [hws] at hcomplete
  have hfirst : abort proc
      (fun n => if n + ws'.length < ws'.length then call' (n + ws'.length)
        else call (n + ws'.length)) (forward proc s steps).2 ws = .ok u := by
    rw [← habort]
    refine abort_congr fun n _ => if_neg ?_
    omega
  have hrest : abort proc call' u ws' = .ok t := by
    rw [abort_append, hfirst] at hcomplete
    rw [← hcomplete]
    exact abort_congr fun n hn => (if_pos hn).symm
  refine ⟨u, t, habort, ?_, hcomplete⟩
  rw [abort_append, abort_idle proc (fun n => hcall' _) hl hroot hidle]
  exact hrest

theorem replay_again_one_file : ∃ u t,
    abort host (fun _ => quietCall) (forward host oneFile oneWrite).2
      (forward host oneFile oneWrite).1 = .ok u ∧
    abort host (fun _ => quietCall) u ((forward host oneFile oneWrite).1 ++ []) = .ok t ∧
    abort host (fun n => if n < 0 then quietCall else quietCall) (forward host oneFile oneWrite).2
      ((forward host oneFile oneWrite).1 ++ []) = .ok t := by
  have hserved : Served host oneFile oneWrite := ⟨fun _ => rfl, rfl, rfl, trivial⟩
  have hapart : Apart [] oneFile [["f"], [], [preimageName], []] := fun _ _ _ hk => by cases hk
  have hheeds : Heeds host [] [] oneFile oneWrite :=
    ⟨fun _ _ _ _ => ⟨hapart, fun _ => List.not_mem_nil, rfl, by decide⟩, trivial⟩
  have hquiet : Quiet quietCall := fun _ => rfl
  have hnoLink : NoLink oneFile ["f"] := (resolveWithin_quiet hquiet oneFile ["f"]).mp rfl
  have hslot : SlotFree oneFile preimageName [preimageName, "pre-u"] :=
    ⟨⟨"pre-u", rfl⟩, .inl rfl, rfl⟩
  have hanew : Anew host oneFile oneWrite := by
    refine ⟨fun w hw => ?_, trivial⟩
    have hw' : w ∈ [Witness.write ⟨["f"], some [preimageName, "pre-u"], false, _⟩] := hw
    rw [List.mem_singleton.mp hw']
    exact ⟨hnoLink, hslot⟩
  exact replay_again host oneFile_linked hserved hheeds hanew (fun _ => hquiet) (fun _ => hquiet)
    (List.append_nil _).symm

def removedThenWritten : List (Call × Op) :=
  [(⟨fun _ => false, 0, "u", 1⟩, .rm ["f"]), (⟨fun _ => false, 0, "v", 2⟩, .write ["f"] [0x41])]

/-- A complete replay restores the removed file, and the next one removes it: the inverse of the
write deletes by name. -/
theorem replay_removes_restored : oneFile.Linked ∧ Served host oneFile removedThenWritten ∧
    ∃ u t, abort host (fun _ => ⟨fun _ => false, 0, "w", 3⟩)
        (forward host oneFile removedThenWritten).2 (forward host oneFile removedThenWritten).1 =
        .ok u ∧ u.view ["f"] = some (.file [1], 0o644) ∧
      abort host (fun _ => ⟨fun _ => false, 0, "x", 4⟩) u
        (forward host oneFile removedThenWritten).1 = .ok t ∧ t.view ["f"] = none :=
  ⟨oneFile_linked, ⟨fun _ => rfl, rfl, rfl, fun _ => rfl, rfl, rfl, trivial⟩, _, _, rfl, rfl, rfl,
    rfl⟩

end Revl.Fs
