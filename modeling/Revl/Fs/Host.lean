import Revl.Lib.NameTree

/-!
# The file system of a workspace

The tree under the session workspace root, as the guards of the file library see it: names bound to
inodes, and the system calls that change either.

- `FS`: the names under the root and the inodes.
- `FS.create`, `mkdir`, `unlink`, `rename`, `setBytes`: the mutating calls.
- `FS.WellFormed`: names hang off directories.
- `FS.view`: kind, bytes and mode behind a name.
-/

namespace Revl.Fs

/-- A path below the workspace root, resolved: its components from the root on. -/
abbrev Path := List String

inductive Kind where
  | file (bytes : List UInt8)
  | dir
  | link
  | special
  deriving DecidableEq

namespace Kind

def isDir : Kind → Bool
  | dir => true
  | _ => false

def size : Kind → Nat
  | file bytes => bytes.length
  | _ => 0

/-- `stat.S_IFMT`: the kind without the contents. -/
def tag : Kind → Nat
  | file _ => 0
  | dir => 1
  | link => 2
  | special => 3

end Kind

structure Inode where
  kind : Kind
  mode : Nat
  links : Nat
  mtime : Nat
  ctime : Nat
  deriving DecidableEq

/-- The tree of a workspace; inode numbers from `next` on are free. -/
structure FS where
  names : NameTree String Nat
  inode : Nat → Inode
  next : Nat

namespace FS

def get (s : FS) (p : Path) : Option Nat := s.names.get p

def setInode (s : FS) (i : Nat) (n : Inode) : FS :=
  { s with inode := fun j => if j = i then n else s.inode j }

/-- An entry of directory `i` changed. -/
def touch (s : FS) (i : Nat) (now : Nat) : FS :=
  s.setInode i { s.inode i with mtime := now, ctime := now }

/-- An entry of the directory named `p` changed. -/
def touchAt (s : FS) (p : Path) (now : Nat) : FS :=
  match s.get p with
  | some i => s.touch i now
  | none => s

def isDir (s : FS) (p : Path) : Bool :=
  match s.get p with
  | some i => (s.inode i).kind.isDir
  | none => false

/-- A new inode under the name `p`. -/
def add (s : FS) (p : Path) (n : Inode) (now : Nat) : FS :=
  { (s.setInode s.next n) with names := s.names.set p s.next, next := s.next + 1 }.touchAt
    p.dropLast now

/-- `os.open(leaf, O_CREAT | O_EXCL, mode)`, on a name that is free. -/
def create (s : FS) (p : Path) (bytes : List UInt8) (mode now : Nat) : FS :=
  s.add p ⟨.file bytes, mode, 1, now, now⟩ now

/-- `os.mkdir`, on a name that is free. -/
def mkdir (s : FS) (p : Path) (mode now : Nat) : FS := s.add p ⟨.dir, mode, 1, now, now⟩ now

/-- The bytes of an open file, as `ftruncate` and `write` leave them. -/
def setBytes (s : FS) (i : Nat) (bytes : List UInt8) (now : Nat) : FS :=
  s.setInode i { s.inode i with kind := .file bytes, mtime := now, ctime := now }

/-- One name of `i` goes. -/
def dropLink (s : FS) (i : Nat) (now : Nat) : FS :=
  s.setInode i { s.inode i with links := (s.inode i).links - 1, ctime := now }

/-- `os.unlink`: refused on a directory, and the error the caller swallows on a missing name. -/
def unlink (s : FS) (p : Path) (now : Nat) : Except String FS :=
  match s.get p with
  | none => .ok s
  | some i =>
    if (s.inode i).kind.isDir then .error "EISDIR"
    else .ok ({ (s.dropLink i now) with names := s.names.erase p }.touchAt p.dropLast now)

/-- The rename itself: `i` goes from `src` to `dst`, and the inode `dst` named loses the name. -/
def moved (s : FS) (src dst : Path) (i now : Nat) : FS :=
  let dropped := match s.get dst with
    | some j => s.dropLink j now
    | none => s
  let stamped := dropped.setInode i { dropped.inode i with ctime := now }
  ({ stamped with names := s.names.graft src dst }.touchAt src.dropLast now).touchAt
    dst.dropLast now

/-- `os.replace`. Two names of one inode stay as they are, and a directory replaces only an empty
one. -/
def rename (s : FS) (src dst : Path) (now : Nat) : Except String FS :=
  match s.get src with
  | none => .error "ENOENT"
  | some i =>
    if src <+: dst ∧ src ≠ dst then .error "EINVAL"
    else match s.get dst with
      | none => .ok (s.moved src dst i now)
      | some j =>
        if i = j then .ok s
        else if (s.inode i).kind.isDir then
          if (s.inode j).kind.isDir = false then .error "ENOTDIR"
          else if s.names.isEmptyBelow dst then .ok (s.moved src dst i now)
          else .error "ENOTEMPTY"
        else if (s.inode j).kind.isDir then .error "EISDIR"
        else .ok (s.moved src dst i now)

/-- What a name shows: the kind of its inode, with the bytes of a file, and the mode. -/
def view (s : FS) (p : Path) : Option (Kind × Nat) :=
  (s.get p).map fun i => ((s.inode i).kind, (s.inode i).mode)

/-- Every name is an entry of a directory and bound to an inode in use. -/
structure WellFormed (s : FS) : Prop where
  root : s.isDir [] = true
  parent : ∀ p x, s.get (p ++ [x]) ≠ none → s.isDir p = true
  fresh : ∀ p i, s.get p = some i → i < s.next

/-! ## Views -/

/-- The kind and mode of an inode. -/
def face (s : FS) (i : Nat) : Kind × Nat := ((s.inode i).kind, (s.inode i).mode)

theorem view_eq (s : FS) (p : Path) : s.view p = (s.get p).map s.face := rfl

/-- A name is shown as before when it is bound as before, to an inode of the same face. -/
theorem view_congr {s t : FS} {p q : Path} (hget : t.get q = s.get p)
    (hface : ∀ i, s.get p = some i → t.face i = s.face i) : t.view q = s.view p := by
  rw [view_eq, view_eq, hget]
  cases h : s.get p with
  | none => rfl
  | some i => exact congrArg some (hface i h)

theorem view_eq_none {s : FS} {p : Path} : s.view p = none ↔ s.get p = none := by
  rw [view_eq, Option.map_eq_none_iff]

theorem isDir_eq (s : FS) (p : Path) :
    s.isDir p = ((s.view p).map fun f => f.1.isDir).getD false := by
  unfold isDir view
  cases s.get p <;> rfl

theorem isDir_congr {s t : FS} {p q : Path} (h : t.view q = s.view p) : t.isDir q = s.isDir p := by
  rw [isDir_eq, isDir_eq, h]

@[simp] theorem get_setInode (s : FS) (i : Nat) (n : Inode) (p : Path) :
    (s.setInode i n).get p = s.get p := rfl

theorem face_setInode (s : FS) (i : Nat) (n : Inode) (j : Nat) :
    (s.setInode i n).face j = if j = i then (n.kind, n.mode) else s.face j := by
  unfold face setInode
  split_ifs with h <;> simp [h]

/-- A stamp or a link count is not shown. -/
theorem face_restamp (s : FS) (i : Nat) {n : Inode} (h : (n.kind, n.mode) = s.face i) (j : Nat) :
    (s.setInode i n).face j = s.face j := by
  rw [face_setInode]
  split_ifs with hj
  · rw [hj, h]
  · rfl

@[simp] theorem get_touchAt (s : FS) (d : Path) (now : Nat) (p : Path) :
    (s.touchAt d now).get p = s.get p := by
  unfold touchAt
  split <;> rfl

@[simp] theorem face_touchAt (s : FS) (d : Path) (now : Nat) (i : Nat) :
    (s.touchAt d now).face i = s.face i := by
  unfold touchAt
  split
  · refine face_restamp s _ ?_ i
    rfl
  · rfl

theorem get_add (s : FS) (p : Path) (n : Inode) (now : Nat) (q : Path) :
    (s.add p n now).get q = if q = p then some s.next else s.get q := by
  rw [add, get_touchAt]
  rfl

theorem next_add (s : FS) (p : Path) (n : Inode) (now : Nat) :
    (s.add p n now).next = s.next + 1 := by
  unfold add touchAt
  split <;> rfl

theorem face_add (s : FS) (p : Path) (n : Inode) (now : Nat) (i : Nat) :
    (s.add p n now).face i = if i = s.next then (n.kind, n.mode) else s.face i := by
  rw [add, face_touchAt]
  exact face_setInode s s.next n i

theorem view_add {s : FS} (hs : ∀ p i, s.get p = some i → i < s.next) (p : Path) (n : Inode)
    (now : Nat) (q : Path) :
    (s.add p n now).view q = if q = p then some (n.kind, n.mode) else s.view q := by
  rw [view_eq, get_add]
  split_ifs with h
  · rw [Option.map_some, face_add, if_pos rfl]
  · rw [view_eq]
    cases hget : s.get q with
    | none => rfl
    | some i => rw [Option.map_some, Option.map_some, face_add, if_neg (hs q i hget).ne]

theorem view_setBytes (s : FS) (i : Nat) (bytes : List UInt8) (now : Nat) (q : Path) :
    (s.setBytes i bytes now).view q =
      if s.get q = some i then some (.file bytes, (s.inode i).mode) else s.view q := by
  rw [view_eq, setBytes, get_setInode]
  split_ifs with h
  · rw [h, Option.map_some, face_setInode, if_pos rfl]
  · rw [view_eq]
    cases hget : s.get q with
    | none => rfl
    | some j =>
      rw [Option.map_some, Option.map_some, face_setInode, if_neg]
      rintro rfl
      exact h hget

theorem get_moved (s : FS) (src dst : Path) (i now : Nat) (q : Path) :
    (s.moved src dst i now).get q = (s.names.graft src dst).get q := by
  rw [moved, get_touchAt, get_touchAt]
  rfl

theorem face_moved (s : FS) (src dst : Path) (i now : Nat) (j : Nat) :
    (s.moved src dst i now).face j = s.face j := by
  rw [moved, face_touchAt, face_touchAt]
  split
  · refine Eq.trans (face_restamp (s.dropLink _ now) i ?_ j) (face_restamp s _ ?_ j) <;> rfl
  · refine face_restamp s i ?_ j
    rfl

/-- After a rename a name shows what its old name showed. -/
theorem view_moved (s : FS) (src dst : Path) (i now : Nat) (q : Path) :
    (s.moved src dst i now).view q =
      if dst <+: q then s.view (NameTree.rebase dst src q)
      else if src <+: q then none else s.view q := by
  rw [view_eq, get_moved, NameTree.get_graft, funext (face_moved s src dst i now)]
  split_ifs <;> rfl

theorem unlink_ok {s t : FS} {p : Path} {now : Nat} (h : s.unlink p now = .ok t) (q : Path) :
    t.view q = if q = p then none else s.view q := by
  unfold unlink at h
  split at h
  · rename_i hnone
    cases h
    split_ifs with hq
    · rw [hq, view_eq_none]
      exact hnone
    · rfl
  · rename_i i _
    split_ifs at h
    cases h
    rw [view_eq, get_touchAt]
    show ((s.names.erase p).get q).map _ = _
    rw [NameTree.get_erase]
    split_ifs with hq
    · rfl
    · refine congrArg (fun f => (s.get q).map f) (funext fun j => ?_)
      rw [face_touchAt]
      refine face_restamp s i ?_ j
      rfl

namespace WellFormed

variable {s : FS}

/-- A name below another hangs off a directory of that name. -/
theorem isDir_of_below (hs : s.WellFormed) {p r : Path} (hr : r ≠ []) (h : s.get (p ++ r) ≠ none) :
    s.isDir p = true := by
  induction r using List.reverseRecOn with
  | nil => exact absurd rfl hr
  | append_singleton r x ih =>
    rw [← List.append_assoc] at h
    have hdir := hs.parent _ x h
    by_cases hr' : r = []
    · rwa [hr', List.append_nil] at hdir
    · refine ih hr' fun hnone => ?_
      unfold FS.isDir at hdir
      rw [hnone] at hdir
      cases hdir

/-- Nothing lies below a free name. -/
theorem get_below (hs : s.WellFormed) {p : Path} (hp : s.get p = none) (r : Path) :
    s.get (p ++ r) = none := by
  by_contra h
  by_cases hr : r = []
  · rw [hr, List.append_nil] at h
    exact h hp
  · have hdir := hs.isDir_of_below hr h
    unfold FS.isDir at hdir
    rw [hp] at hdir
    cases hdir

theorem isDir_dropLast (hs : s.WellFormed) {p : Path} (hne : p ≠ []) (h : s.get p ≠ none) :
    s.isDir p.dropLast = true := by
  refine hs.parent p.dropLast (p.getLast hne) ?_
  rwa [List.dropLast_concat_getLast hne]

end WellFormed

end FS

end Revl.Fs
