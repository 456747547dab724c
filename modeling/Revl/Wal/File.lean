import Revl.Lib.Json.RoundTrip
import Revl.Lib.PyText

/-!
# The write-ahead log as a file (`wal.py`)

One JSON object a line. A crash can leave any beginning of what was written.

- `sealTornTail`: `seal_torn_tail`.
- `unresolvedCrossings`: `unresolved_crossings`.
- `resolveCrossing`: `resolve_crossing`, an operator's acknowledgement.
- `appendRecord`: an append of recovery (`_append_discharge`, `_append_replay_fence`).

The file exists; what an exception leaves is the file as it was.
-/

namespace Revl.Wal

open PyText

/-- The bytes of a file. -/
abbrev Bytes := List UInt8

def newline : UInt8 := 10

/-- `text.encode("utf-8")`. -/
def encode (cs : List Char) : Bytes := cs.flatMap String.utf8EncodeChar

/-- `raw.decode("utf-8")`: `none` is a `UnicodeDecodeError`. -/
def decode (raw : Bytes) : Option (List Char) :=
  raw.toByteArray.utf8Decode?.map Array.toList

/-- The lines of a file, as iterating over it gives them: each with its newline. -/
def lines : Bytes → List Bytes
  | [] => []
  | b :: bs =>
    if b = newline then [b] :: lines bs
    else
      match lines bs with
      | [] => [[b]]
      | l :: ls => (b :: l) :: ls

/-- `not raw.strip()`. -/
def blank (raw : Bytes) : Bool := raw.all fun b => b = 32 || (9 ≤ b && b ≤ 13)

/-! ## Reading -/

/-- What reading a log raises. -/
inductive WALError where
  /-- `WALIntegrityError`: an unparseable line with lines after it. -/
  | corrupt (line after : Nat)
  /-- `WALIntegrityError`: the `walVersion` of a header. -/
  | version (declared : Option Json)
  /-- `PlacementIndexNotAWAL`, with the processes it names. -/
  | placementIndex (processes : Option Json)
  /-- An entry that is no dictionary has no `get`. -/
  | attribute
  /-- A list or a dictionary looked up in a set. -/
  | unhashable

/-- The result of `read_wal`. -/
structure Loaded where
  header : Json
  records : List Json
  complete : Bool
  torn : Bool

def Loaded.empty : Loaded := ⟨.obj [], [], false, false⟩

/-- The number a float literal spells: a mantissa and a power of ten. Two literals of one
rounded value are told apart. -/
def floatNum? (literal : String) : Option (Int × Int) :=
  let cs := literal.toList
  if cs.any fun c => c = 'N' || c = 'I' then none
  else
    let mantissa := cs.takeWhile fun c => c != 'e' && c != 'E'
    let exponent := parseInt ((cs.dropWhile fun c => c != 'e' && c != 'E').drop 1)
    let fraction := (mantissa.dropWhile (· != '.')).drop 1
    (parseInt (mantissa.filter (· != '.'))).map fun m => (m, exponent.getD 0 - fraction.length)

/-- The number a value is, `True` being 1. -/
def num? : Json → Option (Int × Int)
  | .bool b => some (if b then 1 else 0, 0)
  | .int n => some (n, 0)
  | .float literal => floatNum? literal
  | _ => none

/-- `a == b` on what is neither a list nor a dictionary. -/
def pyEq (a b : Json) : Bool :=
  match num? a, num? b with
  | some (m, e), some (n, f) =>
    let low := min e f
    m * 10 ^ (e - low).toNat == n * 10 ^ (f - low).toNat
  | _, _ => a == b

def hashable : Json → Bool
  | .arr _ => false
  | .obj _ => false
  | _ => true

/-- `value in numbers`, a set: `none` is its `TypeError`. -/
def inSet? (value : Option Json) (numbers : List Int) : Option Bool :=
  match value with
  | none => some false
  | some v => if hashable v then some (numbers.any fun n => pyEq v (.int n)) else none

/-- `SUPPORTED_WAL_VERSIONS`. -/
def supportedVersions : List Int := [1]

/-- `_check_version`. -/
def checkVersion (header : Json) : Except WALError Unit :=
  match inSet? (header.get? "walVersion") supportedVersions with
  | none => .error .unhashable
  | some true => .ok ()
  | some false => .error (.version (header.get? "walVersion"))

def isKind (kind : String) (record : Json) : Bool := record.getStr? "record" == some kind

/-- One entry added to what was read. -/
def addEntry (entry : Json) (loaded : Loaded) : Except WALError Loaded :=
  match entry with
  | .obj _ =>
    if isKind "placement-index" entry then .error (.placementIndex (entry.get? "processes"))
    else if isKind "header" entry then
      match checkVersion entry with
      | .error e => .error e
      | .ok () => .ok { loaded with header := entry }
    else if isKind "activation-complete" entry then
      .ok { loaded with complete := true, records := loaded.records ++ [entry] }
    else .ok { loaded with records := loaded.records ++ [entry] }
  | _ => .error .attribute

/-- A line as an entry: `none` is a decode error of either kind. -/
def parseLine (raw : Bytes) : Option Json :=
  match decode raw with
  | none => none
  | some text => Json.loads (strip text)

/-- The index of the last line that holds something, and `-1` as nothing. -/
def lastContent : Nat → List Bytes → Option Nat
  | _, [] => none
  | index, raw :: rest =>
    match lastContent (index + 1) rest with
    | some last => some last
    | none => if blank raw then none else some index

/-- The second pass of `read_wal`. -/
def readLines (last : Option Nat) : Nat → List Bytes → Loaded → Except WALError Loaded
  | _, [], loaded => .ok loaded
  | index, raw :: rest, loaded =>
    if blank raw then readLines last (index + 1) rest loaded
    else
      match parseLine raw with
      | none =>
        if last = some index then readLines last (index + 1) rest { loaded with torn := true }
        else .error (.corrupt (index + 1) (last.getD 0 - index))
      | some entry =>
        match addEntry entry loaded with
        | .error e => .error e
        | .ok loaded => readLines last (index + 1) rest loaded

/-- `read_wal`. -/
def readWal (file : Bytes) : Except WALError Loaded :=
  readLines (lastContent 0 (lines file)) 0 (lines file) Loaded.empty

/-! ## Writing -/

/-- `json.dumps(record) + "\n"`. -/
def line (record : Json) : Bytes := encode (record.dumps ++ ['\n'])

/-- How much of a file stands before its last newline and with it (`_last_newline_offset`). -/
def lastNewline (file : Bytes) : Nat := (file.reverse.dropWhile (· != newline)).length

/-- `seal_torn_tail`. -/
def sealTornTail (file : Bytes) : Bytes :=
  if file.getLast? = some newline then file else file.take (lastNewline file)

/-- An append of recovery. -/
def appendRecord (file : Bytes) (record : Json) : Bytes := sealTornTail file ++ line record

/-! ## Unresolved crossings -/

/-- `seqs_of`. -/
def seqsOf (records : List Json) (kinds : List String) : List Int :=
  records.filterMap fun record =>
    if kinds.any fun kind => isKind kind record then
      match record.get? "seq" with
      | some (.int n) => some n
      | _ => none
    else none

/-- `settled_seqs`. -/
def settledSeqs (records : List Json) : List Int :=
  seqsOf records ["emission-complete", "operator-resolved"]

/-- An item of `unresolved_crossings`; `key` is the approval's `requestId` and `use`. -/
structure Crossing where
  kind : String
  seq : Option Json
  key : Option (Json × Json)

/-- The index of the last `commit-approved`. -/
def lastApproved : Nat → List Json → Option Nat
  | _, [] => none
  | index, record :: rest =>
    (lastApproved (index + 1) rest).or
      (if isKind "commit-approved" record then some index else none)

/-- The crossing of one record, unless it is settled. -/
def crossing? (kind : String) (record : Json) (settled : List Int) : Option (List Crossing) :=
  (inSet? (record.get? "seq") settled).map fun done =>
    if done then [] else [⟨kind, record.get? "seq", none⟩]

/-- The emissions and the deferred emissions that are not settled. -/
def emissionCrossings (settled flushed : List Int) (approved : Option Nat) :
    Nat → List Json → Option (List Crossing)
  | _, [] => some []
  | index, record :: rest => do
    let here ←
      if isKind "effect" record && record.getStr? "kind" == some "emission" then
        crossing? "emission" record settled
      else if isKind "deferred-emission" record && approved.any (index < ·) then
        crossing? "deferred-emission" record (flushed ++ settled)
      else some []
    let later ← emissionCrossings settled flushed approved (index + 1) rest
    return here ++ later

/-- The `requestId` and the `use` of an approval record, `None` where it has none. -/
def approvalKey? (record : Json) : Option (Json × Json) :=
  let request := (record.get? "requestId").getD .null
  let use := (record.get? "use").getD .null
  if hashable request && hashable use then some (request, use) else none

def keyEq (a b : Json × Json) : Bool := pyEq a.1 b.1 && pyEq a.2 b.2

/-- Whether an activation completed before the log went on to another. -/
def activated : List Json → Bool
  | [] => false
  | record :: rest =>
    if isKind "header" record || isKind "generation" record then false
    else isKind "activation-complete" record || activated rest

/-- The approvals that were consumed and neither emitted nor settled. -/
def approvalCrossings (settled : List Int) :
    List (Json × Json) → List Json → Option (List Crossing)
  | _, [] => some []
  | emitted, record :: rest =>
    if isKind "approval-consumed" record then do
      let key ← approvalKey? record
      if emitted.any (keyEq key) then
        approvalCrossings settled (emitted.eraseP (keyEq key)) rest
      else
        let done ← inSet? (record.get? "seq") settled
        let later ← approvalCrossings settled emitted rest
        if done || (record.getStr? "scope" == some "activation" && activated rest) then
          return later
        else return ⟨"approval-consumed", record.get? "seq", some key⟩ :: later
    else approvalCrossings settled emitted rest

/-- `unresolved_crossings`: `none` is the `TypeError` of a key that cannot be hashed. -/
def unresolvedCrossings (records : List Json) : Option (List Crossing) := do
  let settled := settledSeqs records
  let emissions ← emissionCrossings settled (seqsOf records ["flushed"])
    (lastApproved 0 records) 0 records
  let emitted ← (records.filter (isKind "approval-emission")).mapM approvalKey?
  let approvals ← approvalCrossings settled emitted records
  return emissions ++ approvals

/-- Whether a sequence number is one of the unresolved ones. -/
def unresolved (records : List Json) (seq : Int) : Bool :=
  match unresolvedCrossings records with
  | none => false
  | some items => items.any fun item => item.seq.any fun s => pyEq s (.int seq)

/-- The acknowledgement of a sequence number. -/
def operatorResolved (seq : Int) : Json :=
  .obj [("record", .str "operator-resolved"), ("seq", .int seq)]

/-- `resolve_crossing`: `none` where it raises. -/
def resolveCrossing (file : Bytes) (seq : Int) : Option Bytes :=
  match readWal file with
  | .error _ => none
  | .ok loaded =>
    if unresolved loaded.records seq then
      let file := if loaded.torn then sealTornTail file else file
      some (file ++ line (operatorResolved seq))
    else none

/-! ## Text and bytes -/

theorem decode_encode (cs : List Char) : decode (encode cs) = some cs := by
  show (List.utf8Encode cs).utf8Decode?.map Array.toList = some cs
  rw [List.utf8Decode?_utf8Encode]
  rfl

theorem encode_append (cs ds : List Char) : encode (cs ++ ds) = encode cs ++ encode ds :=
  List.flatMap_append

/-- The characters that are one byte, and no newline. -/
def Plain (cs : List Char) : Prop := ∀ c ∈ cs, c.toNat < 128 ∧ c ≠ '\n'

theorem utf8EncodeChar_ascii {c : Char} (h : c.toNat < 128) :
    String.utf8EncodeChar c = [c.val.toUInt8] := by
  apply String.utf8EncodeChar_eq_singleton
  have hle : c.val ≤ 0x7F := by
    have : c.val.toNat ≤ 127 := Nat.le_of_lt_succ h
    exact this
  exact if_pos hle

theorem encode_plain {cs : List Char} (h : Plain cs) :
    encode cs = cs.map fun c => c.val.toUInt8 := by
  induction cs with
  | nil => rfl
  | cons c cs ih =>
    rw [encode, List.flatMap_cons, utf8EncodeChar_ascii (h c List.mem_cons_self).1, List.map_cons,
      ← ih fun d hd => h d (List.mem_cons_of_mem c hd)]
    rfl

theorem length_encode {cs : List Char} (h : Plain cs) : (encode cs).length = cs.length := by
  rw [encode_plain h, List.length_map]

theorem Plain.take {cs : List Char} (h : Plain cs) (k : Nat) : Plain (cs.take k) :=
  fun c hc => h c (List.mem_of_mem_take hc)

/-- A cut between bytes is a cut between characters. -/
theorem take_encode {cs : List Char} (h : Plain cs) (k : Nat) :
    (encode cs).take k = encode (cs.take k) := by
  rw [encode_plain h, encode_plain (h.take k), List.map_take]

theorem newline_notMem_encode {cs : List Char} (h : Plain cs) : newline ∉ encode cs := by
  rw [encode_plain h]
  intro hmem
  obtain ⟨c, hc, hbyte⟩ := List.mem_map.1 hmem
  obtain ⟨hascii, hne⟩ := h c hc
  apply hne
  have hval : c.toNat = 10 := by
    have htoNat := congrArg UInt8.toNat hbyte
    rw [UInt32.toNat_toUInt8] at htoNat
    have hmod : c.val.toNat % 256 = 10 := htoNat
    have : c.toNat = c.val.toNat := rfl
    omega
  exact Char.ext (UInt32.toNat_inj.1 hval)

theorem encode_newline : encode ['\n'] = [newline] := by
  rw [encode, List.flatMap_singleton, utf8EncodeChar_ascii (by decide)]
  rfl

/-- A line of the file comes off it. -/
theorem lines_append {l : Bytes} (hl : newline ∉ l) (rest : Bytes) :
    lines (l ++ newline :: rest) = (l ++ [newline]) :: lines rest := by
  induction l with
  | nil => rfl
  | cons b l ih =>
    rw [List.mem_cons, not_or] at hl
    rw [List.cons_append, lines, if_neg (Ne.symm hl.1), ih hl.2]
    rfl

/-- What has no newline is one line. -/
theorem lines_last {l : Bytes} (hl : newline ∉ l) (hne : l ≠ []) : lines l = [l] := by
  induction l with
  | nil => exact absurd rfl hne
  | cons b l ih =>
    rw [List.mem_cons, not_or] at hl
    rw [lines, if_neg (Ne.symm hl.1)]
    cases l with
    | nil => rfl
    | cons c l => rw [ih hl.2 (List.cons_ne_nil c l)]

/-- A file that ends where a line does. -/
def Ended (file : Bytes) : Prop := ∀ b ∈ file.getLast?, b = newline

theorem ended_append {file l : Bytes} (hl : l.getLast? = some newline) : Ended (file ++ l) := by
  intro b hb
  rw [List.getLast?_append, hl] at hb
  exact (Option.some.inj hb).symm

/-- Sealing takes off what no newline ends, and nothing else. -/
theorem sealTornTail_append {file tail : Bytes} (hfile : Ended file) (htail : newline ∉ tail) :
    sealTornTail (file ++ tail) = file := by
  have hkeep : file.reverse.dropWhile (· != newline) = file.reverse := by
    cases hrev : file.reverse with
    | nil => rfl
    | cons b bs =>
      have hb : b = newline := hfile b (by
        rw [List.getLast?_eq_head?_reverse, hrev]
        rfl)
      rw [List.dropWhile_cons_of_neg (by simp [hb])]
  have hlast : lastNewline (file ++ tail) = file.length := by
    have hdrop : ∀ b ∈ tail.reverse, (b != newline) = true := by
      intro b hb
      rw [bne_iff_ne]
      rintro rfl
      exact htail (List.mem_reverse.1 hb)
    rw [lastNewline, List.reverse_append, List.dropWhile_append_of_pos hdrop, hkeep,
      List.length_reverse]
  unfold sealTornTail
  split_ifs with hended
  · -- what ends in a newline has no tail
    cases htailcase : tail.getLast? with
    | none =>
      obtain rfl := List.getLast?_eq_none_iff.1 htailcase
      exact List.append_nil file
    | some b =>
      rw [List.getLast?_append, htailcase] at hended
      obtain rfl : b = newline := Option.some.inj hended
      exact absurd (List.mem_of_getLast? htailcase) htail
  · rw [hlast, List.take_left]

/-! ### Objects on lines -/

theorem plain_dumps {v : Json} (hv : v.floatsOk = true) : Plain v.dumps := by
  intro c hc
  have hprint := Json.dumps_printable v hv c hc
  unfold Json.printable at hprint
  simp only [Bool.and_eq_true, decide_eq_true_eq] at hprint
  refine ⟨by omega, ?_⟩
  rintro rfl
  exact absurd hprint.1 (by decide)

/-- What starts with a brace is no blank line. -/
theorem blank_object (cs : List Char) : blank (encode ('\x7b' :: cs)) = false := by
  rw [encode, List.flatMap_cons, utf8EncodeChar_ascii (by decide)]
  rfl

theorem parseLine_encode (cs : List Char) :
    parseLine (encode cs) = Json.loads (strip cs) := by
  unfold parseLine
  rw [decode_encode]

/-- A line between braces is read without the blanks behind it. -/
theorem parseLine_braced {cs blanks : List Char} (hhead : cs.head? = some '\x7b')
    (hlast : cs.getLast? = some '\x7d') (hblanks : ∀ c ∈ blanks, isSpace c = true) :
    parseLine (encode (cs ++ blanks)) = Json.loads cs := by
  rw [parseLine_encode, strip_append _ _ hblanks]
  · rintro c hc
    obtain rfl := Option.some.inj (hhead ▸ hc)
    rfl
  · rintro c hc
    obtain rfl := Option.some.inj (hlast ▸ hc)
    rfl

/-- A dictionary on a line of its own reads as it, its newline there or not. -/
theorem parseLine_object {fields : List (String × Json)}
    (hv : Json.floatsOk (.obj fields) = true) {blanks : List Char}
    (hblanks : ∀ c ∈ blanks, isSpace c = true) :
    parseLine (encode (Json.dumps (.obj fields) ++ blanks)) = some (.obj fields) := by
  rw [parseLine_braced rfl (Json.dumps_obj_last fields) hblanks, Json.loads_dumps hv]

/-- A proper beginning of a dictionary reads as nothing. -/
theorem parseLine_cut {fields : List (String × Json)}
    (hv : Json.floatsOk (.obj fields) = true) {cut q : List Char}
    (hcut : Json.dumps (.obj fields) = cut ++ q) (hne : cut ≠ []) (hq : q ≠ []) :
    parseLine (encode cut) = none := by
  have hhead : ∀ c ∈ cut.head?, isSpace c = false := by
    cases cut with
    | nil => exact absurd rfl hne
    | cons c cut =>
      obtain ⟨rfl, -⟩ := List.cons.inj hcut
      intro c hc
      obtain rfl : '\x7b' = c := Option.some.inj hc
      rfl
  obtain ⟨t, ht⟩ := strip_append_rest hhead
  rw [parseLine_encode]
  apply Json.loads_cut hv (q := t ++ q)
  · rw [hcut, ← List.append_assoc, ← ht]
  · intro hnil
    exact hq (List.append_eq_nil_iff.1 hnil).2

/-- Two dictionaries on one line read as nothing. -/
theorem parseLine_joined {fields fields' : List (String × Json)}
    (hv : Json.floatsOk (.obj fields) = true) {blanks : List Char}
    (hblanks : ∀ c ∈ blanks, isSpace c = true) :
    parseLine (encode (Json.dumps (.obj fields) ++ (Json.dumps (.obj fields') ++ blanks))) =
      none := by
  rw [← List.append_assoc, parseLine_braced rfl _ hblanks]
  · apply Json.loads_joined hv
    rintro hnil
    cases hnil
  · rw [List.getLast?_append, Json.dumps_obj_last]
    rfl

end Revl.Wal
