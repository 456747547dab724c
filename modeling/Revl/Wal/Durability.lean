import Revl.Wal.File

/-!
# The log after a crash

Records are appended one per line; a crash keeps a beginning of the bytes; acknowledgements and
recovery's appends follow. `Log` is what the file can be from then on:

- whole records, and then nothing, a part of a record, or a record short of its newline;
- or, once an acknowledgement was written behind a record short of its newline, a line that
  reads as nothing, with everything appended later after it.

- `readWal_bytes`, `run_bytes`: the file's functions do on the bytes what `Log.read` and
  `Log.step` say.
- `durable_iff`: **everything that was written is read back, except where the crash took
  exactly a newline and an acknowledgement is the first thing written after it**.
-/

namespace Revl.Wal

open PyText

/-- A record as the writers append one: a dictionary that is not the index of a placement run,
and a header of the supported version where it is one. -/
structure Record where
  fields : List (String × Json)
  floats : Json.floatsOk (.obj fields) = true
  notIndex : isKind "placement-index" (.obj fields) = false
  version : isKind "header" (.obj fields) = true → checkVersion (.obj fields) = .ok ()

namespace Record

def json (r : Record) : Json := .obj r.fields

def text (r : Record) : List Char := r.json.dumps

/-- The acknowledgement of a sequence number. -/
def ack (seq : Int) : Record where
  fields := [("record", .str "operator-resolved"), ("seq", .int seq)]
  floats := rfl
  notIndex := rfl
  version := fun h => Bool.noConfusion h

theorem plain (r : Record) : Plain r.text := plain_dumps r.floats

theorem text_eq (r : Record) : ∃ cs, r.text = '\x7b' :: cs := ⟨_, rfl⟩

theorem line_eq (r : Record) : line r.json = encode r.text ++ [newline] := by
  rw [line, encode_append, encode_newline]
  rfl

theorem length_line (r : Record) : (line r.json).length = r.text.length + 1 := by
  rw [line_eq, List.length_append, length_encode r.plain]
  rfl

end Record

/-- The file of some records, appended one per line. -/
def written (rs : List Record) : Bytes := rs.flatMap fun r => line r.json

theorem written_append (rs rs' : List Record) : written (rs ++ rs') = written rs ++ written rs' :=
  List.flatMap_append

theorem written_singleton (r : Record) : written [r] = line r.json := List.flatMap_singleton ..

theorem written_cons (r : Record) (rs : List Record) :
    written (r :: rs) = line r.json ++ written rs := List.flatMap_cons

theorem ended_written (rs : List Record) : Ended (written rs) := by
  rcases List.eq_nil_or_concat rs with rfl | ⟨rs, r, rfl⟩
  · intro b hb
    cases hb
  · rw [List.concat_eq_append, written_append, written_singleton, Record.line_eq]
    exact ended_append (List.getLast?_concat ..)

/-! ## Reading records back -/

/-- What records read as. -/
def reading (rs : List Record) (torn : Bool) : Loaded where
  header := ((rs.map Record.json).filter (isKind "header")).getLastD (.obj [])
  records := (rs.map Record.json).filter fun record => !isKind "header" record
  complete := (rs.map Record.json).any (isKind "activation-complete")
  torn := torn

theorem isKind_unique {kind kind' : String} {record : Json} (h : isKind kind record = true)
    (h' : isKind kind' record = true) : kind = kind' := by
  unfold isKind at h h'
  rw [beq_iff_eq] at h h'
  exact Option.some.inj (h.symm.trans h')

theorem addEntry_record (r : Record) (rs : List Record) (torn : Bool) :
    addEntry r.json (reading rs torn) = .ok (reading (rs ++ [r]) torn) := by
  rw [show r.json = .obj r.fields from rfl, addEntry, r.notIndex, if_neg Bool.false_ne_true]
  split_ifs with hheader hcomplete
  · have hnotComplete : isKind "activation-complete" (.obj r.fields) = false := by
      by_contra h
      have := isKind_unique hheader (Bool.not_eq_false _ ▸ h)
      exact absurd this (by decide)
    rw [r.version hheader]
    simp [reading, Record.json, hheader, hnotComplete]
  · simp [reading, Record.json, hheader, hcomplete]
  · simp [reading, Record.json, hheader, hcomplete]

theorem blank_line (r : Record) (cs : List Char) : blank (encode (r.text ++ cs)) = false := by
  obtain ⟨ds, heq⟩ := r.text_eq
  rw [heq]
  exact blank_object _

theorem parseLine_line (r : Record) : parseLine (line r.json) = some r.json :=
  parseLine_object r.floats (List.all_eq_true.1 rfl)

theorem lines_written (rs : List Record) (rest : Bytes) :
    lines (written rs ++ rest) = rs.map (fun r => line r.json) ++ lines rest := by
  induction rs with
  | nil => rfl
  | cons r rs ih =>
    rw [written_cons, Record.line_eq, List.append_assoc, List.append_assoc, List.singleton_append,
      lines_append (newline_notMem_encode r.plain), ih, List.map_cons, Record.line_eq]
    rfl

/-- Whole lines are read one by one. -/
theorem readLines_written (last : Option Nat) (rs : List Record) (tail : List Bytes)
    (index : Nat) (done : List Record) (torn : Bool) :
    readLines last index (rs.map (fun r => line r.json) ++ tail) (reading done torn) =
      readLines last (index + rs.length) tail (reading (done ++ rs) torn) := by
  induction rs generalizing index done with
  | nil => simp
  | cons r rs ih =>
    have hblank : blank (line r.json) = false := blank_line r ['\n']
    rw [List.map_cons, List.cons_append, readLines, hblank, if_neg Bool.false_ne_true,
      parseLine_line]
    simp only [addEntry_record]
    rw [ih, List.append_assoc, List.singleton_append, List.length_cons,
      Nat.add_right_comm index 1, Nat.add_assoc index]

/-- The last line of a file that ends in a line that holds something. -/
theorem lastContent_append (index : Nat) (ls : List Bytes) {l : Bytes} (hl : blank l = false) :
    lastContent index (ls ++ [l]) = some (index + ls.length) := by
  induction ls generalizing index with
  | nil =>
    show (if blank l = true then none else some index) = _
    rw [hl, if_neg Bool.false_ne_true]
    rfl
  | cons l' ls ih =>
    rw [List.cons_append, lastContent, ih (index + 1), List.length_cons]
    simp only [Option.some.injEq]
    omega

/-! ## The log -/

/-- A part of a record: neither nothing nor all of it. -/
structure Part where
  record : Record
  text : List Char
  rest : List Char
  whole : record.text = text ++ rest
  text_ne : text ≠ []
  rest_ne : rest ≠ []

/-- What stands after the last newline. -/
inductive Tail where
  | none
  | part (p : Part)
  | whole (r : Record)

def Tail.text : Tail → List Char
  | .none => []
  | .part p => p.text
  | .whole r => r.text

/-- What a file can be after a crash. -/
inductive Log where
  | cut (rs : List Record) (tail : Tail)
  /-- A record, with the acknowledgement of `seq` on its line. -/
  | joined (rs : List Record) (r : Record) (seq : Int) (more : List Record)

namespace Log

def bytes : Log → Bytes
  | .cut rs tail => written rs ++ encode tail.text
  | .joined rs r seq more =>
    written rs ++ (encode r.text ++ (line (operatorResolved seq) ++ written more))

/-- What the log reads as. -/
def read : Log → Except WALError Loaded
  | .cut rs .none => .ok (reading rs false)
  | .cut rs (.part _) => .ok (reading rs true)
  | .cut rs (.whole r) => .ok (reading (rs ++ [r]) false)
  | .joined rs _ _ [] => .ok (reading rs true)
  | .joined rs _ _ more => .error (.corrupt (rs.length + 1) more.length)

theorem read_joined_append (rs : List Record) (r : Record) (seq : Int) (more : List Record)
    (m : Record) : (Log.joined rs r seq (more ++ [m])).read =
      .error (.corrupt (rs.length + 1) (more.length + 1)) := by
  cases more with
  | nil => rfl
  | cons m' more =>
    show Except.error (WALError.corrupt (rs.length + 1) (m' :: (more ++ [m])).length) = _
    rw [← List.cons_append, List.length_append]
    rfl

end Log

theorem Tail.plain (tail : Tail) : Plain tail.text := by
  cases tail with
  | none =>
    intro c hc
    cases hc
  | part p =>
    intro c hc
    apply p.record.plain
    rw [p.whole]
    exact List.mem_append_left _ hc
  | whole r => exact r.plain

theorem lines_cut (rs : List Record) (tail : Tail) (hne : tail.text ≠ []) :
    lines (Log.cut rs tail).bytes = rs.map (fun r => line r.json) ++ [encode tail.text] := by
  have henc : encode tail.text ≠ [] := by
    rw [encode_plain tail.plain]
    simpa using hne
  show lines (written rs ++ encode tail.text) = _
  rw [lines_written, lines_last (newline_notMem_encode tail.plain) henc]

/-- Reading comes to what follows the whole lines. -/
theorem readWal_of_lines {file : Bytes} {rs : List Record} {tail : List Bytes}
    (h : lines file = rs.map (fun r => line r.json) ++ tail) :
    readWal file = readLines (lastContent 0 (rs.map (fun r => line r.json) ++ tail)) rs.length
      tail (reading rs false) := by
  rw [readWal, h, show Loaded.empty = reading [] false from rfl, readLines_written, Nat.zero_add,
    List.nil_append]

theorem blank_part (p : Part) : blank (encode p.text) = false := by
  obtain ⟨ds, hds⟩ := p.record.text_eq
  cases htext : p.text with
  | nil => exact absurd htext p.text_ne
  | cons c cs =>
    have hwhole := p.whole
    rw [hds, htext] at hwhole
    obtain ⟨rfl, -⟩ := List.cons.inj hwhole
    exact blank_object cs

theorem readWal_part (rs : List Record) (p : Part) :
    readWal (Log.cut rs (.part p)).bytes = .ok (reading rs true) := by
  have hlines : lines (Log.cut rs (.part p)).bytes =
      rs.map (fun r => line r.json) ++ [encode p.text] := lines_cut rs (.part p) p.text_ne
  have hparse : parseLine (encode p.text) = none :=
    parseLine_cut p.record.floats p.whole p.text_ne p.rest_ne
  rw [readWal_of_lines hlines, lastContent_append 0 _ (blank_part p), List.length_map,
    Nat.zero_add, readLines, blank_part, if_neg Bool.false_ne_true, hparse]
  simp only [if_true]
  rfl

theorem readWal_whole (rs : List Record) (r : Record) :
    readWal (Log.cut rs (.whole r)).bytes = .ok (reading (rs ++ [r]) false) := by
  have hlines : lines (Log.cut rs (.whole r)).bytes =
      rs.map (fun r => line r.json) ++ [encode r.text] := by
    apply lines_cut rs (.whole r)
    obtain ⟨cs, heq⟩ := r.text_eq
    rw [Tail.text, heq]
    exact List.cons_ne_nil _ _
  have hblank : blank (encode r.text) = false := by simpa using blank_line r []
  have hparse : parseLine (encode r.text) = some r.json := by
    have := parseLine_object r.floats (show ∀ c ∈ [], isSpace c = true by simp)
    rwa [List.append_nil] at this
  rw [readWal_of_lines hlines, readLines, hblank, if_neg Bool.false_ne_true, hparse]
  simp only [addEntry_record]
  rfl

/-! ### A record and an acknowledgement on one line -/

def joinedLine (r : Record) (seq : Int) : Bytes :=
  encode r.text ++ line (operatorResolved seq)

theorem joinedLine_text (r : Record) (seq : Int) :
    joinedLine r seq = encode (r.text ++ ((operatorResolved seq).dumps ++ ['\n'])) :=
  (encode_append _ _).symm

theorem joinedLine_newline (r : Record) (seq : Int) :
    joinedLine r seq = encode (r.text ++ (Record.ack seq).text) ++ [newline] := by
  rw [joinedLine, show operatorResolved seq = (Record.ack seq).json from rfl, Record.line_eq,
    encode_append, List.append_assoc]

theorem blank_joinedLine (r : Record) (seq : Int) : blank (joinedLine r seq) = false := by
  rw [joinedLine_text]
  exact blank_line r _

theorem parseLine_joinedLine (r : Record) (seq : Int) : parseLine (joinedLine r seq) = none := by
  rw [joinedLine_text]
  exact parseLine_joined r.floats (List.all_eq_true.1 rfl)

theorem lines_joined (rs : List Record) (r : Record) (seq : Int) (more : List Record) :
    lines (Log.joined rs r seq more).bytes = rs.map (fun r => line r.json) ++
      joinedLine r seq :: more.map fun r => line r.json := by
  have hplain : Plain (r.text ++ (Record.ack seq).text) :=
    fun c hc => (List.mem_append.1 hc).elim (r.plain c) ((Record.ack seq).plain c)
  have hmore : lines (written more) = more.map fun r => line r.json := by
    simpa [lines] using lines_written more []
  show lines (written rs ++ (encode r.text ++ (line (operatorResolved seq) ++ written more))) = _
  rw [← List.append_assoc (encode r.text), ← joinedLine, joinedLine_newline, lines_written,
    List.append_assoc, List.singleton_append, lines_append (newline_notMem_encode hplain), hmore]

/-- The line reads as torn while it is the last, and as corrupt from then on. -/
theorem readWal_joined (rs : List Record) (r : Record) (seq : Int) (more : List Record) :
    readWal (Log.joined rs r seq more).bytes = (Log.joined rs r seq more).read := by
  rw [readWal_of_lines (lines_joined rs r seq more), readLines, blank_joinedLine,
    if_neg Bool.false_ne_true, parseLine_joinedLine]
  simp only
  rcases List.eq_nil_or_concat more with rfl | ⟨more, m, rfl⟩
  · rw [List.map_nil, lastContent_append 0 _ (blank_joinedLine r seq), List.length_map,
      Nat.zero_add, if_pos rfl]
    rfl
  · have hlast : lastContent 0 (rs.map (fun r => line r.json) ++
        joinedLine r seq :: (more ++ [m]).map fun r => line r.json) =
          some (rs.length + 1 + more.length) := by
      have hm := lastContent_append 0
        (rs.map (fun r => line r.json) ++ joinedLine r seq :: more.map fun r => line r.json)
        (blank_line m ['\n'])
      rw [List.map_append, List.map_singleton, ← List.cons_append, ← List.append_assoc]
      refine hm.trans ?_
      simp only [List.length_append, List.length_cons, List.length_map, Option.some.injEq]
      omega
    rw [List.concat_eq_append, hlast, if_neg (by rw [Option.some.injEq]; omega),
      Log.read_joined_append]
    congr 2
    show rs.length + 1 + more.length - rs.length = _
    omega

/-- **What a log reads as is what its bytes do.** -/
theorem readWal_bytes (log : Log) : readWal log.bytes = log.read := by
  cases log with
  | cut rs tail =>
    cases tail with
    | none =>
      have hlines : lines (Log.cut rs .none).bytes = rs.map (fun r => line r.json) ++ [] :=
        lines_written rs []
      rw [readWal_of_lines hlines]
      rfl
    | part p => exact readWal_part rs p
    | whole r => exact readWal_whole rs r
  | joined rs r seq more => exact readWal_joined rs r seq more

/-! ## Acknowledgements and appends -/

/-- What is written after the crash: an operator's acknowledgement, or an append of recovery. -/
inductive Op where
  | resolve (seq : Int)
  | append (r : Record)

/-- One operation on the file, and the record it reports as written. An acknowledgement that
raises writes nothing. -/
def runOp (file : Bytes) : Op → Bytes × List Record
  | .resolve seq =>
    match resolveCrossing file seq with
    | some file' => (file', [Record.ack seq])
    | none => (file, [])
  | .append r => (appendRecord file r.json, [r])

def runOps : Bytes → List Op → Bytes × List Record
  | file, [] => (file, [])
  | file, op :: ops =>
    let (file, now) := runOp file op
    let (file, later) := runOps file ops
    (file, now ++ later)

namespace Log

/-- Whether an acknowledgement is taken. -/
def accepts (log : Log) (seq : Int) : Bool :=
  match log.read with
  | .ok loaded => unresolved loaded.records seq
  | .error _ => false

/-- A record put on the log by an appender that seals. -/
def push : Log → Record → Log
  | .cut rs _, r => .cut (rs ++ [r]) .none
  | .joined rs r₀ seq more, r => .joined rs r₀ seq (more ++ [r])

/-- An acknowledgement put on the log. A record short of its newline reads as a record: the log
is not torn, and is not sealed. -/
def acknowledge : Log → Int → Log
  | .cut rs (.whole r), seq => .joined rs r seq []
  | log, seq => log.push (Record.ack seq)

def step (log : Log) : Op → Log × List Record
  | .append r => (log.push r, [r])
  | .resolve seq =>
    if log.accepts seq then (log.acknowledge seq, [Record.ack seq]) else (log, [])

def run : Log → List Op → Log × List Record
  | log, [] => (log, [])
  | log, op :: ops =>
    let (log, now) := log.step op
    let (log, later) := log.run ops
    (log, now ++ later)

end Log

theorem ended_joined (rs : List Record) (r : Record) (seq : Int) (more : List Record) :
    Ended (Log.joined rs r seq more).bytes := by
  show Ended (written rs ++ (encode r.text ++ (line (Record.ack seq).json ++ written more)))
  rw [← written_cons, ← List.append_assoc]
  rcases List.eq_nil_or_concat (Record.ack seq :: more) with hnil | ⟨init, last, heq⟩
  · cases hnil
  · rw [heq, List.concat_eq_append, written_append, written_singleton, Record.line_eq,
      ← List.append_assoc]
    exact ended_append (List.getLast?_concat ..)

theorem sealTornTail_cut (rs : List Record) (tail : Tail) :
    sealTornTail (Log.cut rs tail).bytes = written rs :=
  sealTornTail_append (ended_written rs) (newline_notMem_encode tail.plain)

theorem sealTornTail_joined (rs : List Record) (r : Record) (seq : Int) (more : List Record) :
    sealTornTail (Log.joined rs r seq more).bytes = (Log.joined rs r seq more).bytes := by
  have := sealTornTail_append (ended_joined rs r seq more) (List.not_mem_nil (a := newline))
  rwa [List.append_nil] at this

theorem bytes_push (log : Log) (r : Record) :
    sealTornTail log.bytes ++ line r.json = (log.push r).bytes := by
  cases log with
  | cut rs tail =>
    rw [sealTornTail_cut]
    show _ = written (rs ++ [r]) ++ []
    rw [written_append, written_singleton, List.append_nil]
  | joined rs r₀ seq more =>
    rw [sealTornTail_joined]
    show written rs ++ (encode r₀.text ++ (line (operatorResolved seq) ++ written more)) ++ _ =
      written rs ++ (encode r₀.text ++ (line (operatorResolved seq) ++ written (more ++ [r])))
    rw [written_append, written_singleton]
    simp only [List.append_assoc]

theorem bytes_acknowledge (log : Log) (seq : Int) {loaded : Loaded}
    (hread : log.read = .ok loaded) :
    (if loaded.torn then sealTornTail log.bytes else log.bytes) ++ line (operatorResolved seq) =
      (log.acknowledge seq).bytes := by
  have hpush := bytes_push log (Record.ack seq)
  cases log with
  | cut rs tail =>
    cases tail with
    | none =>
      -- sealing what ends in a newline changes nothing
      obtain rfl : reading rs false = loaded := Except.ok.inj hread
      have hseal : sealTornTail (Log.cut rs .none).bytes = (Log.cut rs .none).bytes := by
        rw [sealTornTail_cut]
        exact (List.append_nil _).symm
      rw [hseal] at hpush
      exact hpush
    | part p =>
      obtain rfl : reading rs true = loaded := Except.ok.inj hread
      exact hpush
    | whole r =>
      obtain rfl : reading (rs ++ [r]) false = loaded := Except.ok.inj hread
      show written rs ++ encode r.text ++ line (operatorResolved seq) =
        written rs ++ (encode r.text ++ (line (operatorResolved seq) ++ []))
      rw [List.append_nil, List.append_assoc]
  | joined rs r s more =>
    rw [sealTornTail_joined] at hpush
    rw [sealTornTail_joined, ite_self]
    exact hpush

/-- **What an operation does to a log is what it does to its bytes.** -/
theorem runOp_bytes (log : Log) (op : Op) :
    runOp log.bytes op = ((log.step op).1.bytes, (log.step op).2) := by
  cases op with
  | append r => exact congrArg (·, [r]) (bytes_push log r)
  | resolve seq =>
    unfold runOp resolveCrossing Log.step Log.accepts
    rw [readWal_bytes]
    cases hread : log.read with
    | error e => rfl
    | ok loaded =>
      simp only
      by_cases haccept : unresolved loaded.records seq = true
      · rw [if_pos haccept, if_pos haccept]
        simp only [bytes_acknowledge log seq hread]
      · rw [if_neg haccept, if_neg haccept]

theorem runOps_bytes (log : Log) (ops : List Op) :
    runOps log.bytes ops = ((log.run ops).1.bytes, (log.run ops).2) := by
  induction ops generalizing log with
  | nil => rfl
  | cons op ops ih =>
    simp only [runOps, Log.run, runOp_bytes, ih]

/-! ## The crash -/

/-- The records whose newline is among the first `k` bytes. -/
def survivors : List Record → Nat → List Record
  | [], _ => []
  | r :: rs, k =>
    if (line r.json).length ≤ k then r :: survivors rs (k - (line r.json).length) else []

/-- What is left of one record. -/
def cutRecord (r : Record) (k : Nat) : Tail :=
  if h : 0 < k ∧ k < r.text.length then
    .part ⟨r, r.text.take k, r.text.drop k, (List.take_append_drop k r.text).symm,
      List.ne_nil_of_length_pos (by rw [List.length_take]; omega),
      List.ne_nil_of_length_pos (by rw [List.length_drop]; omega)⟩
  else if k = 0 then .none
  else .whole r

/-- What is left of the record the crash came into. -/
def remnant : List Record → Nat → Tail
  | [], _ => .none
  | r :: rs, k =>
    if (line r.json).length ≤ k then remnant rs (k - (line r.json).length) else cutRecord r k

theorem cutRecord_text {r : Record} {k : Nat} (hk : k ≤ r.text.length) :
    (cutRecord r k).text = r.text.take k := by
  unfold cutRecord
  split_ifs with hpart hzero
  · rfl
  · subst hzero
    rfl
  · rw [List.take_of_length_le (by omega)]
    rfl

/-- **A crash leaves a log**: the survivors, and what is left of the next record. -/
theorem take_written (rs : List Record) (k : Nat) :
    (written rs).take k = (Log.cut (survivors rs k) (remnant rs k)).bytes := by
  show _ = written (survivors rs k) ++ encode (remnant rs k).text
  induction rs generalizing k with
  | nil => simp [written, survivors, remnant, Tail.text, encode]
  | cons r rs ih =>
    rw [written_cons, List.take_append]
    unfold survivors remnant
    split_ifs with hline
    · rw [List.take_of_length_le hline, ih, written_cons, List.append_assoc]
    · have hk : k ≤ r.text.length := by
        have := r.length_line
        omega
      have hrest : k - (line r.json).length = 0 := by omega
      rw [hrest, List.take_zero, List.append_nil, cutRecord_text hk, Record.line_eq,
        List.take_append_of_le_length (by rw [length_encode r.plain]; exact hk),
        take_encode r.plain]
      rfl

theorem length_written_snoc (rs : List Record) (r : Record) :
    (written (rs ++ [r])).length = (written rs).length + (r.text.length + 1) := by
  rw [written_append, written_singleton, List.length_append, r.length_line]

theorem text_pos (r : Record) : 0 < r.text.length := by
  obtain ⟨cs, heq⟩ := r.text_eq
  rw [heq]
  exact Nat.succ_pos _

theorem crash_past (done rest : List Record) (k : Nat) :
    survivors (done ++ rest) ((written done).length + k) = done ++ survivors rest k ∧
      remnant (done ++ rest) ((written done).length + k) = remnant rest k := by
  induction done with
  | nil => simp [written]
  | cons r done ih =>
    have hlen : (written (r :: done)).length + k =
        (line r.json).length + ((written done).length + k) := by
      rw [written_cons, List.length_append, Nat.add_assoc]
    rw [hlen, List.cons_append, survivors, remnant, if_pos (Nat.le_add_right _ _),
      if_pos (Nat.le_add_right _ _), Nat.add_sub_cancel_left, ih.1, ih.2]
    exact ⟨rfl, rfl⟩

/-- A crash that keeps all of a record but its newline. -/
theorem crash_newline {done : List Record} (later : List Record) {r : Record} {k : Nat}
    (hk : k + 1 = (written (done ++ [r])).length) :
    survivors (done ++ r :: later) k = done ∧ remnant (done ++ r :: later) k = .whole r := by
  have hpos := text_pos r
  rw [length_written_snoc] at hk
  obtain rfl : k = (written done).length + r.text.length := by omega
  obtain ⟨hsurvivors, hremnant⟩ := crash_past done (r :: later) r.text.length
  have hline : ¬(line r.json).length ≤ r.text.length := by
    have := r.length_line
    omega
  rw [hsurvivors, hremnant, survivors, remnant, if_neg hline, if_neg hline, List.append_nil]
  refine ⟨rfl, ?_⟩
  unfold cutRecord
  rw [dif_neg (by omega), if_neg (by omega)]

/-- No other crash leaves a record short of its newline. -/
theorem of_remnant_whole {rs : List Record} {k : Nat} {r : Record}
    (h : remnant rs k = .whole r) : ∃ later, rs = survivors rs k ++ r :: later ∧
      k + 1 = (written (survivors rs k ++ [r])).length := by
  induction rs generalizing k with
  | nil => cases h
  | cons r₀ rs ih =>
    have hlen := r₀.length_line
    unfold survivors
    unfold remnant at h
    split_ifs at h ⊢ with hline
    · obtain ⟨later, hrs, hk⟩ := ih h
      refine ⟨later, congrArg (r₀ :: ·) hrs, ?_⟩
      rw [List.cons_append, written_cons, List.length_append, ← hk]
      omega
    · unfold cutRecord at h
      split_ifs at h with hpart hzero
      obtain rfl : r₀ = r := Tail.whole.inj h
      refine ⟨rs, rfl, ?_⟩
      rw [List.nil_append, written_singleton]
      omega

/-! ## Durability -/

/-- Whether a reading returns some records, all of them and in order. -/
def Returns (loaded : Loaded) (rs : List Record) : Prop :=
  ∃ all torn, rs.Sublist all ∧ loaded = reading all torn

/-- Reading succeeds, and returns the records whose newline the crash kept and those that were
reported as written after it. -/
def Durable (rs : List Record) (k : Nat) (ops : List Op) : Prop :=
  let (file, appended) := runOps ((written rs).take k) ops
  ∃ loaded, readWal file = .ok loaded ∧ Returns loaded (survivors rs k ++ appended)

/-- Whether the first operation that writes is an acknowledgement, `records` being read. -/
def acknowledgesFirst (records : List Json) : List Op → Bool
  | [] => false
  | .append _ :: _ => false
  | .resolve seq :: ops => unresolved records seq || acknowledgesFirst records ops

/-- The crash took exactly the newline of a record, and an acknowledgement is the first thing
written after it. -/
def JoinsAck (rs : List Record) (k : Nat) (ops : List Op) : Prop :=
  ∃ done r later, rs = done ++ r :: later ∧ k + 1 = (written (done ++ [r])).length ∧
    acknowledgesFirst (reading (done ++ [r]) false).records ops = true

/-- Away from that, whole records stay whole and what is appended comes after them. -/
theorem run_cut (rs : List Record) (tail : Tail) (ops : List Op)
    (h : ∀ r, tail = .whole r →
      acknowledgesFirst (reading (rs ++ [r]) false).records ops = false) :
    ∃ tail' appended,
      (Log.cut rs tail).run ops = (.cut (rs ++ appended) tail', appended) := by
  induction ops generalizing rs tail with
  | nil =>
    refine ⟨tail, [], ?_⟩
    rw [List.append_nil]
    rfl
  | cons op ops ih =>
    -- once something is written, no tail is left to go wrong
    have hwrote : ∀ r, (Log.cut rs tail).step op = (.cut (rs ++ [r]) .none, [r]) →
        ∃ tail' appended,
          (Log.cut rs tail).run (op :: ops) = (.cut (rs ++ appended) tail', appended) := by
      intro r hstep
      obtain ⟨tail', appended, hrun⟩ := ih (rs ++ [r]) .none (by simp)
      refine ⟨tail', r :: appended, ?_⟩
      simp only [Log.run, hstep, hrun]
      simp
    cases op with
    | append r => exact hwrote r rfl
    | resolve seq =>
      by_cases haccept : (Log.cut rs tail).accepts seq = true
      · apply hwrote (Record.ack seq)
        rw [Log.step, if_pos haccept]
        cases tail with
        | none => rfl
        | part p => rfl
        | whole r =>
          -- an acknowledgement that is taken would have come first
          have hfirst := h r rfl
          rw [acknowledgesFirst, Bool.or_eq_false_iff] at hfirst
          have htaken : unresolved (reading (rs ++ [r]) false).records seq = true := haccept
          rw [hfirst.1] at htaken
          cases htaken
      · have hstep : (Log.cut rs tail).step (.resolve seq) = (.cut rs tail, []) := by
          rw [Log.step, if_neg haccept]
        obtain ⟨tail', appended, hrun⟩ := ih rs tail (by
          intro r hr
          have hfirst := h r hr
          rw [acknowledgesFirst, Bool.or_eq_false_iff] at hfirst
          exact hfirst.2)
        refine ⟨tail', appended, ?_⟩
        simp only [Log.run, hstep, hrun]
        rfl

/-- What a log that was not joined reads as holds its whole records. -/
theorem read_cut (rs : List Record) (tail : Tail) :
    ∃ loaded, (Log.cut rs tail).read = .ok loaded ∧ Returns loaded rs := by
  cases tail with
  | none => exact ⟨_, rfl, rs, false, List.Sublist.refl rs, rfl⟩
  | part p => exact ⟨_, rfl, rs, true, List.Sublist.refl rs, rfl⟩
  | whole r => exact ⟨_, rfl, rs ++ [r], false, List.sublist_append_left rs [r], rfl⟩

/-- An acknowledgement written first joins the record short of its newline. -/
theorem run_joins (rs : List Record) (r : Record) (ops : List Op)
    (h : acknowledgesFirst (reading (rs ++ [r]) false).records ops = true) :
    ∃ seq ops', (Log.cut rs (.whole r)).run ops =
      (((Log.joined rs r seq []).run ops').1,
        Record.ack seq :: ((Log.joined rs r seq []).run ops').2) := by
  induction ops with
  | nil => cases h
  | cons op ops ih =>
    cases op with
    | append r' => cases h
    | resolve seq =>
      by_cases haccept : unresolved (reading (rs ++ [r]) false).records seq = true
      · have hstep : (Log.cut rs (.whole r)).step (.resolve seq) =
            (.joined rs r seq [], [Record.ack seq]) := if_pos haccept
        refine ⟨seq, ops, ?_⟩
        simp only [Log.run, hstep]
        rfl
      · have hstep : (Log.cut rs (.whole r)).step (.resolve seq) = (.cut rs (.whole r), []) :=
          if_neg haccept
        rw [acknowledgesFirst, Bool.eq_false_of_not_eq_true haccept, Bool.false_or] at h
        obtain ⟨seq', ops', hrun⟩ := ih h
        refine ⟨seq', ops', ?_⟩
        simp only [Log.run, hstep, hrun]
        rfl

/-- A joined line stays. -/
theorem run_joined (rs : List Record) (r : Record) (seq : Int) (more : List Record)
    (ops : List Op) : ∃ more', ((Log.joined rs r seq more).run ops).1 = .joined rs r seq more' := by
  induction ops generalizing more with
  | nil => exact ⟨more, rfl⟩
  | cons op ops ih =>
    have hstep : ∃ more', ((Log.joined rs r seq more).step op).1 = .joined rs r seq more' := by
      cases op with
      | append r' => exact ⟨more ++ [r'], rfl⟩
      | resolve seq' =>
        by_cases haccept : (Log.joined rs r seq more).accepts seq' = true
        · refine ⟨more ++ [Record.ack seq'], ?_⟩
          rw [Log.step, if_pos haccept]
          rfl
        · refine ⟨more, ?_⟩
          rw [Log.step, if_neg haccept]
    obtain ⟨more', hmore⟩ := hstep
    obtain ⟨more'', hrun⟩ := ih more'
    refine ⟨more'', ?_⟩
    simp only [Log.run, hmore, hrun]

/-- The records returned are no fewer than those they hold. -/
theorem length_returned {loaded : Loaded} {rs : List Record} (h : Returns loaded rs) :
    (reading rs false).records.length ≤ loaded.records.length := by
  obtain ⟨all, torn, hsub, rfl⟩ := h
  exact ((hsub.map Record.json).filter _).length_le

/-- A joined log does not return its acknowledgement. -/
theorem not_returns_joined (rs : List Record) (r : Record) (seq : Int) (more appended : List Record)
    {loaded : Loaded} (hread : (Log.joined rs r seq more).read = .ok loaded) :
    ¬Returns loaded (rs ++ Record.ack seq :: appended) := by
  intro h
  cases more with
  | cons m more => cases hread
  | nil =>
    obtain rfl : reading rs true = loaded := Except.ok.inj hread
    have hlen := length_returned h
    have hack : isKind "header" (Record.ack seq).json = false := rfl
    simp only [reading, List.map_append, List.map_cons, List.filter_append, List.length_append,
      List.filter_cons, hack, Bool.not_false, if_true, List.length_cons] at hlen
    omega

theorem not_durable_of_joins (done later : List Record) {r : Record} {k : Nat} {ops : List Op}
    (hk : k + 1 = (written (done ++ [r])).length)
    (hfirst : acknowledgesFirst (reading (done ++ [r]) false).records ops = true) :
    ¬Durable (done ++ r :: later) k ops := by
  obtain ⟨hsurvivors, hremnant⟩ := crash_newline later hk
  obtain ⟨seq, ops', hrun⟩ := run_joins done r ops hfirst
  obtain ⟨more, hmore⟩ := run_joined done r seq [] ops'
  unfold Durable
  rw [take_written, hsurvivors, hremnant, runOps_bytes, hrun, hmore]
  rintro ⟨loaded, hread, hreturns⟩
  rw [readWal_bytes] at hread
  exact not_returns_joined done r seq more _ hread hreturns

/-- **Everything that was written is read back, except where the crash took exactly a newline
and an acknowledgement is the first thing written after it.** -/
theorem durable_iff (rs : List Record) (k : Nat) (ops : List Op) :
    Durable rs k ops ↔ ¬JoinsAck rs k ops := by
  constructor
  · rintro hdurable ⟨done, r, later, rfl, hk, hfirst⟩
    exact not_durable_of_joins done later hk hfirst hdurable
  · intro hjoins
    have htail : ∀ r, remnant rs k = .whole r →
        acknowledgesFirst (reading (survivors rs k ++ [r]) false).records ops = false := by
      intro r hr
      obtain ⟨later, hrs, hk⟩ := of_remnant_whole hr
      by_contra hfirst
      exact hjoins ⟨survivors rs k, r, later, hrs, hk, Bool.not_eq_false _ ▸ hfirst⟩
    obtain ⟨tail, appended, hrun⟩ := run_cut (survivors rs k) (remnant rs k) ops htail
    obtain ⟨loaded, hread, hreturns⟩ := read_cut (survivors rs k ++ appended) tail
    unfold Durable
    rw [take_written, runOps_bytes, hrun]
    refine ⟨loaded, ?_, hreturns⟩
    rw [readWal_bytes]
    exact hread

/-- A recorded emission that nothing settles. -/
def emission (seq : Int) : Record where
  fields := [("kind", .str "emission"), ("record", .str "effect"), ("seq", .int seq)]
  floats := rfl
  notIndex := rfl
  version := fun h => Bool.noConfusion h

/-- An acknowledgement behind an emission that lost its newline is lost, and the emission too. -/
theorem ack_lost : ¬Durable [emission 1] 50 [.resolve 1] :=
  not_durable_of_joins [] [] (by rfl) (by rfl)

end Revl.Wal
