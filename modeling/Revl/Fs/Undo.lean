import Revl.Fs.Failed

/-!
# The inverses of the file operations

What the undo registered with each witness does, and an aborted run: the operations of the run, then
the inverses of those that answered `Ok`, newest first.

- `restore`, `unrm`, `unmove`, `rmdirIfEmpty`: the inverses, over the guards they install through.
- `forward`, `abort`: a run and its undoing.
-/

namespace Revl.Fs

/-- `os.rmdir`, whose every error the caller swallows: an empty directory goes. -/
def FS.rmdir (s : FS) (p : Path) (now : Nat) : FS :=
  if s.isDir p && s.names.isEmptyBelow p then
    { s with names := s.names.erase p }.touchAt p.dropLast now
  else s

/-- `resolve_sidecar`: a path directly inside the sidecar directory of the kind. -/
def resolveSidecar (c : Call) (s : FS) (p : Path) (name : String) : Except FsOpError Path := do
  let real ← resolveWithin c s p
  match s.get [name] with
  | none => pure ()
  | some i =>
    match (s.inode i).kind with
    | .dir => pure ()
    | .link => throw ⟨"EOUTSIDE", p⟩
    | _ => throw ⟨"EWORKSPACE", p⟩
  if real.dropLast = [name] ∧ real ≠ [name] then pure real else throw ⟨"EOUTSIDE", p⟩

/-- `_refuse_drifted_identity` over the captured stat fields, the last of them only before an
install. -/
def sameIdentity (observed recorded : Capture) (stamped : Bool) : Bool :=
  observed.ino == recorded.ino && observed.tag == recorded.tag && observed.mode == recorded.mode &&
    observed.links == recorded.links && observed.size == recorded.size &&
    observed.mtime == recorded.mtime && (!stamped || observed.ctime == recorded.ctime)

/-- `_checked_stat`: a readable regular file of one link, and the captured one where the witness
carries a capture. -/
def checkedStat (proc : Process) (s : FS) (real : Path) (capture : Option Capture)
    (stamped : Bool) : Except FsOpError Unit :=
  match s.get real with
  | none => .error ⟨"ERACE", real⟩
  | some i =>
    let n := s.inode i
    match n.kind with
    | .file bytes =>
      if proc.readable n.mode = false then .error ⟨"EIDENTITY", real⟩
      else if n.links ≠ 1 then .error ⟨"EMULTILINK", real⟩
      else match capture with
        | none => .ok ()
        | some recorded =>
          let digest := some (proc.sha256 bytes)
          if sameIdentity (captureOf s i digest) recorded stamped = false then
            .error ⟨"EIDENTITY", real⟩
          else if recorded.sha256.isSome ∧ recorded.sha256 ≠ digest then .error ⟨"EIDENTITY", real⟩
          else .ok ()
    | _ => .error ⟨"EOUTSIDE", real⟩

/-- `install_captured_sidecar`: checked, renamed over the target and checked there again. -/
def installCapturedSidecar (proc : Process) (c : Call) (s : FS) (src dst : Path)
    (capture : Option Capture) : Except FsOpError Unit × FS :=
  match checkedStat proc s src capture true with
  | .error e => (.error e, s)
  | .ok () =>
    match replaceConfined c s src dst with
    | (.error e, s) => (.error e, s)
    | (.ok (), s) => (checkedStat proc s dst capture false, s)

/-- The checks of `install_parked_sidecar` on one side of its rename. -/
def parkedCheck (proc : Process) (s : FS) (real : Path) (recorded : Capture) (stamped : Bool) :
    Except FsOpError Unit :=
  match s.get real with
  | none => .error ⟨"ERACE", real⟩
  | some i =>
    let n := s.inode i
    if n.kind = .link ∨ n.kind.tag ≠ recorded.tag then .error ⟨"EOUTSIDE", real⟩
    else if n.links > recorded.links then .error ⟨"EMULTILINK", real⟩
    else if sameIdentity (captureOf s i none) recorded stamped = false then
      .error ⟨"EIDENTITY", real⟩
    else if recorded.sha256.isSome ∧ recorded.sha256 ≠ parkedDigest proc n then
      .error ⟨"EIDENTITY", real⟩
    else .ok ()

def installParkedSidecar (proc : Process) (c : Call) (s : FS) (src dst : Path)
    (capture : Capture) : Except FsOpError Unit × FS :=
  match parkedCheck proc s src capture true with
  | .error e => (.error e, s)
  | .ok () =>
    match replaceConfined c s src dst with
    | (.error e, s) => (.error e, s)
    | (.ok (), s) => (parkedCheck proc s dst capture false, s)

def restore (proc : Process) (c : Call) (s : FS) (w : WriteWitness) :
    Except FsOpError Unit × FS :=
  match resolveWithin c s w.path with
  | .error e => (.error e, s)
  | .ok target =>
    if w.created then
      -- a missing parent is a missing target, which is nothing to remove
      if s.isDir target.dropLast = false then (.ok (), s)
      else match removeConfined s target c.now with
        | .ok s => (.ok (), s)
        | .error e => (.error e, s)
    else match resolveSidecar c s (w.preimage.getD []) preimageName with
      | .error e => (.error e, s)
      | .ok preimage =>
        if (s.get preimage).isSome then installCapturedSidecar proc c s preimage target w.capture
        else (.ok (), s)

def unrm (proc : Process) (c : Call) (s : FS) (w : RmWitness) : Except FsOpError Unit × FS :=
  match resolveWithin c s w.path, resolveSidecar c s w.garbage garbageName with
  | .error e, _ => (.error e, s)
  | .ok _, .error e => (.error e, s)
  | .ok target, .ok parked =>
    if (s.get parked).isSome then installParkedSidecar proc c s parked target w.capture
    else (.ok (), s)

def unmove (c : Call) (s : FS) (w : MoveWitness) : Except FsOpError Unit × FS :=
  match resolveWithin c s w.src, resolveWithin c s w.dst with
  | .error e, _ => (.error e, s)
  | .ok _, .error e => (.error e, s)
  | .ok src, .ok dst =>
    if (s.get dst).isSome then replaceConfined c s dst src else (.ok (), s)

def rmdirIfEmpty (c : Call) (s : FS) (w : MkdirWitness) : Except FsOpError Unit × FS :=
  match resolveWithin c s w.path with
  | .error e => (.error e, s)
  | .ok target => (.ok (), s.rmdir target c.now)

/-- The inverse a witness registered. -/
def undo (proc : Process) (c : Call) (s : FS) : Witness → Except FsOpError Unit × FS
  | .write w => restore proc c s w
  | .rm w => unrm proc c s w
  | .move w => unmove c s w
  | .mkdir w => rmdirIfEmpty c s w

/-- The operations of a run, each with what it meets; the witnesses of those that answered `Ok`, the
newest first, and the tree they leave. -/
def forward (proc : Process) : FS → List (Call × Op) → List Witness × FS
  | s, [] => ([], s)
  | s, (c, op) :: rest =>
    match perform proc c s op with
    | (.ok w, s) => ((forward proc s rest).1 ++ [w], (forward proc s rest).2)
    | (_, s) => forward proc s rest

/-- The inverses of the witnesses, the newest first, each with what it meets. -/
def abort (proc : Process) (call : Nat → Call) : FS → List Witness → Except FsOpError FS
  | s, [] => .ok s
  | s, w :: ws =>
    match undo proc (call ws.length) s w with
    | (.ok (), s) => abort proc call s ws
    | (.error e, _) => .error e

end Revl.Fs
