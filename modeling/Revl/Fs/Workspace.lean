import Revl.Fs.Host

/-!
# The witnessed file operations

`write`, `rm`, `move` and `mkdir` of the file library over the guards of the workspace host module.
A call is given the system calls that fail in it.

- `Call`, `Step`: what a call meets from the host, and the steps that can fail.
- `write`, `rm`, `move`, `mkdir`: the operations, with the tree each leaves.
- `perform`: one of them.
-/

namespace Revl.Fs

structure FsOpError where
  code : String
  path : Path
  deriving DecidableEq

/-- The host the operations run in: the modes its process may open for reading, the digest of
`hashlib`, and the mode a new directory gets. -/
structure Process where
  readable : Nat → Bool
  sha256 : List UInt8 → String
  dirMode : Nat

/-- The steps of an operation at which a system call can fail, under the function that makes the
call. A step that only walks or reads fails without an effect of its own. -/
inductive Step where
  | resolve | lexists | lexistsDst | walk
  | openLeaf | createLeaf | closeParent | fstat
  | sidecarDir | freshSidecar | sidecarOpen | sidecarCopy
  | truncate | seek | writeBytes | confirm | closeHandle
  | discardSidecar | discardStat | discardLeaf
  | rename | closeAfterRename | parkedStat | parkedDigest
  | mkdirLeaf
  deriving DecidableEq

/-- What one call meets: the steps that fail in it, how many bytes a failing write had landed, the
uuid it draws and the time its changes are stamped with. -/
structure Call where
  fails : Step → Bool
  landed : Nat
  uuid : String
  now : Nat

/-- The answer of an operation: a witness, an error value, or an exception that escapes the body. -/
inductive Answer (W : Type) where
  | ok (witness : W)
  | err (error : FsOpError)
  | raised (error : FsOpError)

/-! ## Guards -/

def garbageName : String := ".revl-fs-garbage"

def preimageName : String := ".revl-fs-preimage"

def fail {α : Type} (code : String) (p : Path) (s : FS) : Except FsOpError α × FS :=
  (.error ⟨code, p⟩, s)

/-- `resolve_within` on a path that is already resolved: a component that is a link would lead
elsewhere. -/
def resolveWithin (c : Call) (s : FS) (p : Path) : Except FsOpError Path :=
  if c.fails .resolve then .error ⟨"EINVAL", p⟩
  else if p.inits.any fun q => match s.get q with
    | some i => (s.inode i).kind == .link
    | none => false
  then .error ⟨"EOUTSIDE", p⟩
  else .ok p

/-- `_sidecar_dir_real(kind, create=True)`: the sidecar directory, made where it is missing. -/
def sidecarDir (c : Call) (s : FS) (name : String) : Except FsOpError Path × FS :=
  if c.fails .sidecarDir then fail "EIO" [name] s
  else match s.get [name] with
    | none => (.ok [name], s.mkdir [name] 0o700 c.now)
    | some i =>
      match (s.inode i).kind with
      | .dir => (.ok [name], s)
      | .link => fail "EOUTSIDE" [name] s
      | _ => fail "EWORKSPACE" [name] s

/-! ## Captures -/

/-- `_capture_of`, with the digest where the bytes were read. -/
structure Capture where
  ino : Nat
  tag : Nat
  mode : Nat
  links : Nat
  size : Nat
  mtime : Nat
  ctime : Nat
  sha256 : Option String
  deriving DecidableEq

def captureOf (s : FS) (i : Nat) (sha256 : Option String) : Capture :=
  let n := s.inode i
  ⟨i, n.kind.tag, n.mode, n.links, n.kind.size, n.mtime, n.ctime, sha256⟩

/-- `_parked_digest`: a regular file the process can open. -/
def parkedDigest (proc : Process) (n : Inode) : Option String :=
  match n.kind with
  | .file bytes => if proc.readable n.mode then some (proc.sha256 bytes) else none
  | _ => none

/-! ## Writing -/

structure WriteHandle where
  real : Path
  ino : Nat
  created : Bool
  preimage : Option Path := none
  capture : Option Capture := none

structure WriteWitness where
  path : Path
  preimage : Option Path
  created : Bool
  capture : Option Capture

structure RmWitness where
  path : Path
  garbage : Path
  capture : Capture

structure MoveWitness where
  src : Path
  dst : Path

structure MkdirWitness where
  path : Path

/-- The parent of a leaf that is not the root, walked to. -/
def walkParent (c : Call) (s : FS) (p : Path) : Option FsOpError :=
  if p = [] then some ⟨"EWORKSPACE", p⟩
  else if c.fails .walk then some ⟨"EOUTSIDE", p⟩
  else if s.isDir p.dropLast = false then some ⟨"ENOENT", p⟩
  else none

def openConfinedWrite (c : Call) (s : FS) (real : Path) : Except FsOpError WriteHandle × FS :=
  match walkParent c s real with
  | some e => (.error e, s)
  | none =>
    match s.get real with
    | some i =>
      if c.fails .openLeaf then fail "EOUTSIDE" real s
      else match (s.inode i).kind with
        | .dir => fail "ENOTFILE" real s
        | .link => fail "EOUTSIDE" real s
        | .special => fail "ENOTFILE" real s
        | .file _ =>
          if c.fails .closeParent then fail "EIO" real s
          else if c.fails .fstat then fail "EIO" real s
          else if (s.inode i).links > 1 then fail "EMULTILINK" real s
          else (.ok ⟨real, i, false, none, none⟩, s)
    | none =>
      if c.fails .createLeaf then fail "EACCES" real s
      else
        let created := s.create real [] 0o600 c.now
        -- the file is there from here on, and no error below takes it back
        if c.fails .closeParent then fail "EIO" real created
        else if c.fails .fstat then fail "EIO" real created
        else (.ok ⟨real, s.next, true, none, none⟩, created)

/-- `snapshot_preimage`: the handle records the sidecar's name before the sidecar is made. -/
def snapshotPreimage (proc : Process) (c : Call) (s : FS) (h : WriteHandle) :
    Except FsOpError Unit × WriteHandle × FS :=
  match sidecarDir c s preimageName with
  | (.error e, s) => (.error e, h, s)
  | (.ok dir, s) =>
    if c.fails .freshSidecar then (.error ⟨"EIO", dir⟩, h, s)
    else
      let dst := dir ++ ["pre-" ++ c.uuid]
      -- the name is recorded before the file exists, and a refusal below discards it
      let h := { h with preimage := some dst }
      let n := s.inode h.ino
      if c.fails .sidecarOpen ∨ (s.get dst).isSome then (.error ⟨"ESNAPSHOT", h.real⟩, h, s)
      else match n.kind with
        | .file bytes =>
          if c.fails .sidecarCopy then
            (.error ⟨"ESNAPSHOT", h.real⟩, h, s.create dst (bytes.take c.landed) 0o600 c.now)
          else
            let copied := (s.create dst bytes n.mode c.now).setInode s.next
              ⟨.file bytes, n.mode, 1, n.mtime, c.now⟩
            let capture := captureOf copied s.next (some (proc.sha256 bytes))
            (.ok (), { h with capture := some capture }, copied)
        | _ => (.error ⟨"ESNAPSHOT", h.real⟩, h, s)

/-- The UTF-8 encoding of a text, refused at a surrogate. -/
def utf8 (contents : List Nat) : Option (List UInt8) :=
  (contents.mapM fun n =>
    if n < 0xD800 ∨ (0xDFFF < n ∧ n < 0x110000) then some (String.utf8EncodeChar (Char.ofNat n))
    else none).map List.flatten

/-- `write_through`: the truncation comes before the encoding and the write. -/
def writeThrough (c : Call) (s : FS) (h : WriteHandle) (contents : List Nat) :
    Except FsOpError Unit × FS :=
  if c.fails .truncate then fail "EIO" h.real s
  else
    let truncated := s.setBytes h.ino [] c.now
    if c.fails .seek then fail "EIO" h.real truncated
    else match utf8 contents with
      -- the text is found to have no encoding once the old bytes are gone
      | none => fail "EINVAL" h.real truncated
      | some data =>
        if c.fails .writeBytes ∧ c.landed < data.length then
          fail "ENOSPC" h.real (s.setBytes h.ino (data.take c.landed) c.now)
        else (.ok (), s.setBytes h.ino data c.now)

/-- `confirm_landed`: the name still holds the inode that was written. -/
def confirmLanded (c : Call) (s : FS) (h : WriteHandle) : Except FsOpError Unit :=
  if c.fails .confirm ∨ s.get h.real ≠ some h.ino then .error ⟨"ERACE", h.real⟩ else .ok ()

def removeConfined (s : FS) (p : Path) (now : Nat) : Except FsOpError FS :=
  match s.unlink p now with
  | .ok s => .ok s
  | .error code => .error ⟨code, p⟩

/-- `discard_write`: the sidecar goes, and the file the call created if the name still holds it. -/
def discardWrite (c : Call) (s : FS) (h : WriteHandle) : Except FsOpError Unit × FS :=
  let cleared : Except FsOpError FS := match h.preimage with
    | none => .ok s
    | some p => if c.fails .discardSidecar then .error ⟨"EIO", p⟩ else removeConfined s p c.now
  match cleared with
  | .error e => (.error e, s)
  | .ok s =>
    -- an existing target is left alone, whatever was written to it
    if h.created ∧ ¬ c.fails .discardStat ∧ s.get h.real = some h.ino then
      if c.fails .discardLeaf then fail "EIO" h.real s
      else match removeConfined s h.real c.now with
        | .ok s => (.ok (), s)
        | .error e => (.error e, s)
    else (.ok (), s)

/-- `write_through` and `confirm_landed`. -/
def landContents (c : Call) (s : FS) (h : WriteHandle) (contents : List Nat) :
    Except FsOpError Unit × WriteHandle × FS :=
  match writeThrough c s h contents with
  | (.error e, s) => (.error e, h, s)
  | (.ok (), s) => (confirmLanded c s h, h, s)

/-- The steps of `write` under its second `try`. -/
def writeSteps (proc : Process) (c : Call) (s : FS) (h : WriteHandle) (contents : List Nat) :
    Except FsOpError Unit × WriteHandle × FS :=
  match (if h.created then (.ok (), h, s) else snapshotPreimage proc c s h) with
  | (.error e, h, s) => (.error e, h, s)
  | (.ok (), h, s) => landContents c s h contents

/-- The `except` and the `finally` of `write`, on what its steps came to. -/
def finishWrite (c : Call) (target : Path) :
    Except FsOpError Unit × WriteHandle × FS → Answer WriteWitness × FS
  | (.ok (), h, s) =>
    if c.fails .closeHandle then (.raised ⟨"EIO", target⟩, s)
    else (.ok ⟨h.real, h.preimage, h.created, h.capture⟩, s)
  | (.error e, h, s) =>
    match discardWrite c s h with
    | (.error e', s) => (.raised e', s)
    | (.ok (), s) =>
      if c.fails .closeHandle then (.raised ⟨"EIO", target⟩, s) else (.err e, s)

/-- `write` once its target is resolved. -/
def writeTarget (proc : Process) (c : Call) (s : FS) (target : Path) (contents : List Nat) :
    Answer WriteWitness × FS :=
  match openConfinedWrite c s target with
  | (.error e, s) => (.err e, s)
  | (.ok h, s) => finishWrite c target (writeSteps proc c s h contents)

def write (proc : Process) (c : Call) (s : FS) (path : Path) (contents : List Nat) :
    Answer WriteWitness × FS :=
  match resolveWithin c s path with
  | .error e => (.err e, s)
  | .ok target => writeTarget proc c s target contents

/-! ## Removing, moving and making directories -/

/-- `replace_confined`: both parents are walked to, and closed after the rename. -/
def replaceConfined (c : Call) (s : FS) (src dst : Path) : Except FsOpError Unit × FS :=
  match walkParent c s src, walkParent c s dst with
  | some e, _ => (.error e, s)
  | none, some e => (.error e, s)
  | none, none =>
    if c.fails .rename then fail "EIO" src s
    else match s.rename src dst c.now with
      | .error code => fail code src s
      | .ok s => if c.fails .closeAfterRename then fail "EIO" src s else (.ok (), s)

/-- `park_captured_sidecar`: the capture is taken from the slot the rename filled. -/
def parkCapturedSidecar (proc : Process) (c : Call) (s : FS) (src dst : Path) :
    Except FsOpError Capture × FS :=
  match replaceConfined c s src dst with
  | (.error e, s) => (.error e, s)
  | (.ok (), s) =>
    -- the file is parked from here on
    if c.fails .parkedStat then fail "EIO" dst s
    else match s.get dst with
      | none => fail "ERACE" dst s
      | some i =>
        match (s.inode i).kind with
        | .link => fail "EOUTSIDE" dst s
        | .file _ =>
          if c.fails .parkedDigest then fail "EIO" dst s
          else (.ok (captureOf s i (parkedDigest proc (s.inode i))), s)
        | _ => (.ok (captureOf s i none), s)

def rm (proc : Process) (c : Call) (s : FS) (path : Path) : Answer RmWitness × FS :=
  match resolveWithin c s path with
  | .error e => (.err e, s)
  | .ok target =>
    if c.fails .lexists ∨ s.get target = none then (.err ⟨"ENOENT", target⟩, s)
    else match sidecarDir c s garbageName with
      | (.error e, s) => (.err e, s)
      | (.ok dir, s) =>
        if c.fails .freshSidecar then (.err ⟨"EIO", dir⟩, s)
        else
          let parked := dir ++ ["rm-" ++ c.uuid]
          match parkCapturedSidecar proc c s target parked with
          | (.error e, s) => (.err e, s)
          | (.ok capture, s) => (.ok ⟨target, parked, capture⟩, s)

def move (c : Call) (s : FS) (src dst : Path) : Answer MoveWitness × FS :=
  match resolveWithin c s src, resolveWithin c s dst with
  | .error e, _ => (.err e, s)
  | .ok _, .error e => (.err e, s)
  | .ok realFrom, .ok realTo =>
    if c.fails .lexists ∨ s.get realFrom = none then (.err ⟨"ENOENT", realFrom⟩, s)
    else if ¬ c.fails .lexistsDst ∧ (s.get realTo).isSome then (.err ⟨"EEXIST", realTo⟩, s)
    else match replaceConfined c s realFrom realTo with
      | (.error e, s) => (.err e, s)
      | (.ok (), s) => (.ok ⟨realFrom, realTo⟩, s)

/-- `mkdir_confined` -/
def mkdirConfined (proc : Process) (c : Call) (s : FS) (real : Path) :
    Except FsOpError Unit × FS :=
  match walkParent c s real with
  | some e => (.error e, s)
  | none =>
    if c.fails .mkdirLeaf then fail "EIO" real s
    else if (s.get real).isSome then fail "EEXIST" real s
    else
      let made := s.mkdir real proc.dirMode c.now
      if c.fails .closeParent then fail "EIO" real made else (.ok (), made)

def mkdir (proc : Process) (c : Call) (s : FS) (path : Path) : Answer MkdirWitness × FS :=
  match resolveWithin c s path with
  | .error e => (.err e, s)
  | .ok target =>
    if ¬ c.fails .lexists ∧ (s.get target).isSome then (.err ⟨"EEXIST", target⟩, s)
    else match mkdirConfined proc c s target with
      | (.error e, s) => (.err e, s)
      | (.ok (), s) => (.ok ⟨target⟩, s)

/-! ## Calls -/

inductive Op where
  | write (path : Path) (contents : List Nat)
  | rm (path : Path)
  | move (src dst : Path)
  | mkdir (path : Path)

inductive Witness where
  | write (w : WriteWitness)
  | rm (w : RmWitness)
  | move (w : MoveWitness)
  | mkdir (w : MkdirWitness)

def Answer.map {W V : Type} (f : W → V) : Answer W → Answer V
  | .ok w => .ok (f w)
  | .err e => .err e
  | .raised e => .raised e

def perform (proc : Process) (c : Call) (s : FS) : Op → Answer Witness × FS
  | .write path contents => (write proc c s path contents).map (Answer.map .write) id
  | .rm path => (rm proc c s path).map (Answer.map .rm) id
  | .move src dst => (move c s src dst).map (Answer.map .move) id
  | .mkdir path => (mkdir proc c s path).map (Answer.map .mkdir) id

end Revl.Fs
