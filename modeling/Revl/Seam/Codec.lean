import Revl.Lib.Json.RoundTrip

/-!
# The seam codec (`bridge.py`)

A value crosses a seam as JSON. An emitted case becomes an object tagged `$kind`, with its payload
under `$value`; the decoder resolves the tag among the attributes of the emitted module and calls
the class it finds. Maps cross as objects too, under their own keys.

- `encode`, `decode`: the codec. A decoding carries the constructors it called.
- `decode_encode_iff`: **what round-trips**.
- `decode_calls`: what a document can make the decoder call.
- `codec_exact`: the codec as a whole.
-/

namespace Revl.Seam

/-! ## The emitted module -/

/-- The classes the emitter and the runtime define: a case without a payload, a case with one, the
`Ok` and `Err` of the runtime (whose payload may be left out), and the base of a variant type. -/
inductive ClassKind where
  | nullary | unary | result | base
  deriving DecidableEq, Repr

/-- What a name of the module is bound to: one of these classes, the annotations-only class of a
record, or anything else. -/
inductive Attr where
  | cls (kind : ClassKind)
  | record
  | other
  deriving DecidableEq, Repr

/-- A declared type. A case says whether it has a payload. -/
inductive TypeDecl where
  | record (name : String)
  | variant (name : String) (cases : List (String × Bool))

/-- The classes one type is emitted as: the base before its cases. -/
def TypeDecl.emit : TypeDecl → List (String × Attr)
  | .record name => [(name, .record)]
  | .variant name cases =>
    (name, .cls .base) ::
      cases.map fun c => (c.1, .cls (if c.2 then .unary else .nullary))

/-- `_emit_types` -/
def emitTypes (types : List TypeDecl) : List (String × Attr) := types.flatMap TypeDecl.emit

/-- The namespace of an emitted module, a later binding replacing an earlier one. -/
abbrev Module := List (String × Attr)

/-- The module of a program: the imported `Result` cases, its types, and every other name. -/
def emittedModule (usesResult : Bool) (types : List TypeDecl) (names : List String) : Module :=
  (if usesResult then [("Ok", .cls .result), ("Err", .cls .result)] else []) ++
    emitTypes types ++ names.map fun name => (name, .other)

/-- The `__slots__` each class of the method resolution order declares, `object` left out. -/
def ClassKind.slots : ClassKind → List (Option (List String))
  | .nullary => [some [], some []]
  | .unary => [some ["value"], some []]
  | .result => [some ["value"]]
  | .base => [some []]

/-- Slots on every class, and none but `value`. -/
def slotsOnly (mro : List (Option (List String))) : Bool :=
  mro.all fun declared => declared.any fun slots => slots.all (· == "value")

/-- A class of the module, by name. -/
structure Cls where
  name : String
  kind : ClassKind
  deriving DecidableEq, Repr

/-- `_is_case_class` of an attribute. -/
def isCaseClass : Option Attr → Bool
  | some (.cls kind) => slotsOnly kind.slots
  | some .record => slotsOnly [none]
  | some .other => false
  | none => false

/-- `_is_emitted_case` of an instance. -/
def isEmittedCase (cls : Cls) : Bool := slotsOnly cls.kind.slots

/-! ## Values -/

/-- A value at run time. An instance has a payload or none. -/
inductive Value where
  | null
  | bool (b : Bool)
  | int (n : Int)
  | float (literal : String)
  | str (s : String)
  | list (items : List Value)
  | map (fields : List (String × Value))
  | bare (cls : Cls)
  | holding (cls : Cls) (payload : Value)

mutual

/-- `_encode_value`; `none` is a `SeamMarshalError`. -/
def encode : Value → Option Json
  | .null => some .null
  | .bool b => some (.bool b)
  | .int n => some (.int n)
  | .float literal => some (.float literal)
  | .str s => some (.str s)
  | .list items => (encodeItems items).map .arr
  | .map fields => (encodeFields fields).map .obj
  | .bare cls => if isEmittedCase cls then some (.obj [("$kind", .str cls.name)]) else none
  | .holding cls payload =>
    if isEmittedCase cls then
      (encode payload).map fun j => .obj [("$kind", .str cls.name), ("$value", j)]
    else none

def encodeItems : List Value → Option (List Json)
  | [] => some []
  | item :: items =>
    match encode item, encodeItems items with
    | some j, some js => some (j :: js)
    | _, _ => none

def encodeFields : List (String × Value) → Option (List (String × Json))
  | [] => some []
  | field :: fields =>
    match encodeField field, encodeFields fields with
    | some j, some js => some (j :: js)
    | _, _ => none

def encodeField : String × Value → Option (String × Json)
  | (key, value) => (encode value).map fun j => (key, j)

end

/-! ## Decoding -/

/-- Why a decoding raised: a tag that names no case class, or a constructor given the wrong number
of arguments. -/
inductive DecodeError where
  | seamTag (kind : Json)
  | typeError (cls : Cls)

/-- A decoding: the constructors called, in order, and what came of it. -/
structure Decoded (α : Type) where
  calls : List Cls
  result : Except DecodeError α

namespace Decoded

variable {α β : Type}

def pure (a : α) : Decoded α := ⟨[], .ok a⟩

def bind (d : Decoded α) (f : α → Decoded β) : Decoded β :=
  match d.result with
  | .error e => ⟨d.calls, .error e⟩
  | .ok a => ⟨d.calls ++ (f a).calls, (f a).result⟩

def map (f : α → β) (d : Decoded α) : Decoded β := d.bind fun a => pure (f a)

/-- One after the other, up to the first that raises. -/
def sequence : List (Decoded α) → Decoded (List α)
  | [] => pure []
  | d :: ds => d.bind fun a => (sequence ds).map fun as => a :: as

end Decoded

/-- Call a class. -/
def construct (cls : Cls) : Option Value → Decoded Value
  | none =>
    match cls.kind with
    | .nullary | .base => ⟨[cls], .ok (.bare cls)⟩
    | .result => ⟨[cls], .ok (.holding cls .null)⟩
    | .unary => ⟨[cls], .error (.typeError cls)⟩
  | some payload =>
    match cls.kind with
    | .unary | .result => ⟨[cls], .ok (.holding cls payload)⟩
    | .nullary | .base => ⟨[cls], .error (.typeError cls)⟩

/-- The class a tag names, where `_is_case_class` lets it through. -/
def caseOf (m : Module) : Json → Option Cls
  | .str name =>
    match Assoc.get? m name with
    | some (.cls kind) => if isCaseClass (some (.cls kind)) then some ⟨name, kind⟩ else none
    | _ => none
  | _ => none

mutual

/-- `_decode_value` -/
def decode (m : Module) : Json → Decoded Value
  | .null => .pure .null
  | .bool b => .pure (.bool b)
  | .int n => .pure (.int n)
  | .float literal => .pure (.float literal)
  | .str s => .pure (.str s)
  | .arr items => (Decoded.sequence (decodeItems m items)).map .list
  | .obj fields =>
    match Assoc.get? fields "$kind" with
    | some kind =>
      match caseOf m kind with
      | none => ⟨[], .error (.seamTag kind)⟩
      | some cls =>
        -- of the other fields only `$value` is decoded
        match Assoc.get? (decodeFields m fields) "$value" with
        | some payload => payload.bind fun p => construct cls (some p)
        | none => construct cls none
    | none =>
      (Decoded.sequence ((decodeFields m fields).map fun p => p.2.map fun v => (p.1, v))).map .map

def decodeItems (m : Module) : List Json → List (Decoded Value)
  | [] => []
  | item :: items => decode m item :: decodeItems m items

def decodeFields (m : Module) : List (String × Json) → List (String × Decoded Value)
  | [] => []
  | field :: fields => decodeField m field :: decodeFields m fields

def decodeField (m : Module) : String × Json → String × Decoded Value
  | (key, value) => (key, decode m value)

end

/-! ## The values of a module -/

/-- The class is bound in the module, and is a case whose instances are of this form. -/
def CaseOf (m : Module) (cls : Cls) (payload : Bool) : Prop :=
  Assoc.get? m cls.name = some (.cls cls.kind) ∧
    (cls.kind = .nullary ∧ payload = false ∨
      (cls.kind = .unary ∨ cls.kind = .result) ∧ payload = true)

mutual

/-- Built from scalars, lists, string-keyed maps and emitted cases of the module. -/
def Emitted (m : Module) : Value → Prop
  | .float literal => Json.floatOk literal = true
  | .list items => EmittedItems m items
  | .map fields => EmittedFields m fields
  | .bare cls => CaseOf m cls false
  | .holding cls payload => CaseOf m cls true ∧ Emitted m payload
  | _ => True

def EmittedItems (m : Module) : List Value → Prop
  | [] => True
  | item :: items => Emitted m item ∧ EmittedItems m items

def EmittedFields (m : Module) : List (String × Value) → Prop
  | [] => True
  | field :: fields => EmittedField m field ∧ EmittedFields m fields

def EmittedField (m : Module) : String × Value → Prop
  | (_, value) => Emitted m value

end

mutual

/-- No map of the value, at any depth, has the key `$kind`. -/
def Plain : Value → Prop
  | .list items => PlainItems items
  | .map fields => "$kind" ∉ fields.map Prod.fst ∧ PlainFields fields
  | .holding _ payload => Plain payload
  | _ => True

def PlainItems : List Value → Prop
  | [] => True
  | item :: items => Plain item ∧ PlainItems items

def PlainFields : List (String × Value) → Prop
  | [] => True
  | field :: fields => PlainField field ∧ PlainFields fields

def PlainField : String × Value → Prop
  | (_, value) => Plain value

end

/-! ## Running a decoding -/

namespace Decoded

variable {α β : Type}

theorem bind_result_eq_ok {d : Decoded α} {f : α → Decoded β} {b : β} :
    (d.bind f).result = .ok b ↔ ∃ a, d.result = .ok a ∧ (f a).result = .ok b := by
  unfold bind
  cases d.result with
  | error e => simp
  | ok a => simp

theorem map_result_eq_ok {d : Decoded α} {f : α → β} {b : β} :
    (d.map f).result = .ok b ↔ ∃ a, d.result = .ok a ∧ f a = b := by
  rw [map, bind_result_eq_ok]
  simp [pure]

theorem sequence_cons_eq_ok {d : Decoded α} {ds : List (Decoded α)} {a : α} {as : List α} :
    (sequence (d :: ds)).result = .ok (a :: as) ↔
      d.result = .ok a ∧ (sequence ds).result = .ok as := by
  rw [sequence, bind_result_eq_ok]
  simp only [map_result_eq_ok, List.cons.injEq]
  constructor
  · rintro ⟨a', ha, as', has, rfl, rfl⟩
    exact ⟨ha, has⟩
  · rintro ⟨ha, has⟩
    exact ⟨a, ha, as, has, rfl, rfl⟩

theorem mem_calls_bind {d : Decoded α} {f : α → Decoded β} {c : Cls}
    (h : c ∈ (d.bind f).calls) : c ∈ d.calls ∨ ∃ a, c ∈ (f a).calls := by
  unfold bind at h
  cases hd : d.result with
  | error e =>
    rw [hd] at h
    exact .inl h
  | ok a =>
    rw [hd] at h
    exact (List.mem_append.mp h).imp_right fun h => ⟨a, h⟩

theorem mem_calls_map {d : Decoded α} {f : α → β} {c : Cls} (h : c ∈ (d.map f).calls) :
    c ∈ d.calls := by
  rcases mem_calls_bind h with h | ⟨a, h⟩
  · exact h
  · exact absurd h List.not_mem_nil

theorem mem_calls_sequence {ds : List (Decoded α)} {c : Cls} (h : c ∈ (sequence ds).calls) :
    ∃ d ∈ ds, c ∈ d.calls := by
  induction ds with
  | nil => exact absurd h List.not_mem_nil
  | cons d ds ih =>
    rw [sequence] at h
    rcases mem_calls_bind h with h | ⟨a, h⟩
    · exact ⟨d, List.mem_cons_self, h⟩
    · obtain ⟨d', hd', hc⟩ := ih (mem_calls_map h)
      exact ⟨d', List.mem_cons_of_mem d hd', hc⟩

end Decoded

section Reading

variable {m : Module}

theorem decodeFields_eq (fields : List (String × Json)) :
    decodeFields m fields = fields.map fun p => (p.1, decode m p.2) := by
  induction fields with
  | nil => rfl
  | cons field fields ih =>
    obtain ⟨key, value⟩ := field
    rw [decodeFields, ih, decodeField, List.map_cons]

theorem get?_decodeFields (fields : List (String × Json)) (key : String) :
    Assoc.get? (decodeFields m fields) key = (Assoc.get? fields key).map (decode m) := by
  rw [decodeFields_eq]
  exact Assoc.get?_map_snd (fun _ => decode m) fields key

/-- Every class the emitter and the runtime define passes, the base of a variant with its cases. -/
theorem slotsOnly_slots (kind : ClassKind) : slotsOnly kind.slots = true := by
  cases kind <;> decide +kernel

theorem caseOf_eq_some {kind : Json} {cls : Cls} :
    caseOf m kind = some cls ↔
      kind = .str cls.name ∧ Assoc.get? m cls.name = some (.cls cls.kind) := by
  cases kind with
  | str name =>
    simp only [caseOf, Json.str.injEq]
    cases hget : Assoc.get? m name with
    | none =>
      simp only [reduceCtorEq, false_iff, not_and]
      rintro rfl
      simp [hget]
    | some attr =>
      cases attr with
      | cls kind =>
        simp only [isCaseClass, slotsOnly_slots, if_true, Option.some.injEq]
        constructor
        · rintro rfl
          exact ⟨rfl, hget⟩
        · rintro ⟨rfl, h⟩
          rw [hget] at h
          obtain rfl : kind = cls.kind := by simpa using h
          rfl
      | record =>
        simp only [reduceCtorEq, false_iff, not_and]
        rintro rfl
        simp [hget]
      | other =>
        simp only [reduceCtorEq, false_iff, not_and]
        rintro rfl
        simp [hget]
  | _ => simp [caseOf]

/-- A constructor makes an instance, or raises. -/
theorem construct_ne_map {cls : Cls} {payload : Option Value} {fields : List (String × Value)} :
    (construct cls payload).result ≠ .ok (.map fields) := by
  cases payload <;> cases hkind : cls.kind <;> simp [construct, hkind]

/-- An object with the key `$kind` never decodes to a map. -/
theorem decode_tagged_ne_map {fields : List (String × Json)} {kind : Json}
    (h : Assoc.get? fields "$kind" = some kind) (entries : List (String × Value)) :
    (decode m (.obj fields)).result ≠ .ok (.map entries) := by
  rw [decode, h]
  simp only
  cases hcase : caseOf m kind with
  | none => simp
  | some cls =>
    cases hpayload : Assoc.get? (decodeFields m fields) "$value" with
    | none => exact construct_ne_map
    | some payload =>
      simp only
      rw [Ne, Decoded.bind_result_eq_ok]
      rintro ⟨p, -, hp⟩
      exact construct_ne_map hp

end Reading

/-! ## Round trips -/

mutual

/-- **What round-trips.** A value of the module is encoded, and its encoding decodes to it exactly
when it is plain. -/
theorem decode_encode (m : Module) :
    ∀ v : Value, Emitted m v → ∃ j, encode v = some j ∧ Json.floatsOk j = true ∧
      ((decode m j).result = .ok v ↔ Plain v)
  | .null, _ => ⟨.null, rfl, rfl, by simp [decode, Decoded.pure, Plain]⟩
  | .bool b, _ => ⟨.bool b, rfl, rfl, by simp [decode, Decoded.pure, Plain]⟩
  | .int n, _ => ⟨.int n, rfl, rfl, by simp [decode, Decoded.pure, Plain]⟩
  | .float l, h => ⟨.float l, rfl, by simpa [Json.floatsOk, Emitted] using h,
      by simp [decode, Decoded.pure, Plain]⟩
  | .str s, _ => ⟨.str s, rfl, rfl, by simp [decode, Decoded.pure, Plain]⟩
  | .list items, h => by
    obtain ⟨js, hencode, hfloats, hiff⟩ := decode_encodeItems m items (by simpa [Emitted] using h)
    refine ⟨.arr js, by rw [encode, hencode]; rfl, by simpa [Json.floatsOk] using hfloats, ?_⟩
    rw [decode, Decoded.map_result_eq_ok, Plain, ← hiff]
    simp
  | .map fields, h => by
    obtain ⟨js, hencode, hfloats, hkeys, hiff⟩ :=
      decode_encodeFields m fields (by simpa [Emitted] using h)
    refine ⟨.obj js, by rw [encode, hencode]; rfl, by simpa [Json.floatsOk] using hfloats, ?_⟩
    rw [Plain, ← hkeys]
    cases hkind : Assoc.get? js "$kind" with
    | some kind =>
      have hmem : "$kind" ∈ js.map Prod.fst :=
        List.mem_map.mpr ⟨_, Assoc.mem_of_get? hkind, rfl⟩
      simp only [hmem, not_true_eq_false, false_and, iff_false]
      exact decode_tagged_ne_map hkind fields
    | none =>
      have hmem : "$kind" ∉ js.map Prod.fst := by
        rintro hmem
        obtain ⟨⟨key, v⟩, hp, rfl⟩ := List.mem_map.mp hmem
        exact Assoc.get?_eq_none_iff.mp hkind v hp
      rw [decode, hkind]
      simp only
      rw [Decoded.map_result_eq_ok, ← hiff]
      simp [hmem]
  | .bare cls, h => by
    obtain ⟨hget, hkind⟩ : CaseOf m cls false := by simpa [Emitted] using h
    have hnullary : cls.kind = .nullary := by simpa using hkind
    refine ⟨.obj [("$kind", .str cls.name)], ?_, ?_, ?_⟩
    · rw [encode, isEmittedCase, slotsOnly_slots, if_pos rfl]
    · simp [Json.floatsOk, Json.fieldsOk, Json.fieldOk]
    · have hcase : caseOf m (.str cls.name) = some cls := caseOf_eq_some.mpr ⟨rfl, hget⟩
      have htag : Assoc.get? [("$kind", Json.str cls.name)] "$kind" = some (.str cls.name) := by
        simp [Assoc.get?]
      have hvalue : Assoc.get? [("$kind", Json.str cls.name)] "$value" = none := by
        simp [Assoc.get?]
      rw [decode, htag]
      simp only [hcase, get?_decodeFields, hvalue, Option.map_none, Plain, iff_true]
      simp [construct, hnullary]
  | .holding cls payload, h => by
    obtain ⟨⟨hget, hkind⟩, hpayload⟩ : CaseOf m cls true ∧ Emitted m payload := by
      simpa [Emitted] using h
    have hunary : cls.kind = .unary ∨ cls.kind = .result := by simpa using hkind
    obtain ⟨j, hencode, hfloats, hiff⟩ := decode_encode m payload hpayload
    refine ⟨.obj [("$kind", .str cls.name), ("$value", j)], ?_, ?_, ?_⟩
    · rw [encode, isEmittedCase, slotsOnly_slots, if_pos rfl, hencode]
      rfl
    · simp [Json.floatsOk, Json.fieldsOk, Json.fieldOk, hfloats]
    · have hcase : caseOf m (.str cls.name) = some cls := caseOf_eq_some.mpr ⟨rfl, hget⟩
      have htag : Assoc.get? [("$kind", Json.str cls.name), ("$value", j)] "$kind" =
          some (.str cls.name) := by simp [Assoc.get?]
      have hvalue : Assoc.get? [("$kind", Json.str cls.name), ("$value", j)] "$value" = some j := by
        simp [Assoc.get?]
      rw [decode, htag]
      simp only [hcase, get?_decodeFields, hvalue, Option.map_some]
      rw [Decoded.bind_result_eq_ok, Plain, ← hiff]
      have hconstruct : ∀ p, (construct cls (some p)).result = .ok (.holding cls p) := by
        intro p
        rcases hunary with hk | hk <;> simp [construct, hk]
      simp only [hconstruct, Except.ok.injEq, Value.holding.injEq, true_and, exists_eq_right]

theorem decode_encodeItems (m : Module) :
    ∀ items : List Value, EmittedItems m items → ∃ js, encodeItems items = some js ∧
      Json.itemsOk js = true ∧
      ((Decoded.sequence (decodeItems m js)).result = .ok items ↔ PlainItems items)
  | [], _ => ⟨[], rfl, rfl, by simp [decodeItems, Decoded.sequence, Decoded.pure, PlainItems]⟩
  | item :: items, h => by
    obtain ⟨hitem, hitems⟩ : Emitted m item ∧ EmittedItems m items := by
      simpa [EmittedItems] using h
    obtain ⟨j, hencode, hfloat, hiff⟩ := decode_encode m item hitem
    obtain ⟨js, hencodes, hfloats, hiffs⟩ := decode_encodeItems m items hitems
    refine ⟨j :: js, by rw [encodeItems, hencode, hencodes], by simp [Json.itemsOk, hfloat, hfloats],
      ?_⟩
    rw [decodeItems, Decoded.sequence_cons_eq_ok, hiff, hiffs, PlainItems]

theorem decode_encodeFields (m : Module) :
    ∀ fields : List (String × Value), EmittedFields m fields → ∃ js, encodeFields fields = some js ∧
      Json.fieldsOk js = true ∧ js.map Prod.fst = fields.map Prod.fst ∧
      ((Decoded.sequence ((decodeFields m js).map fun p => p.2.map fun v => (p.1, v))).result =
        .ok fields ↔ PlainFields fields)
  | [], _ => ⟨[], rfl, rfl, rfl, by simp [decodeFields, Decoded.sequence, Decoded.pure, PlainFields]⟩
  | field :: fields, h => by
    obtain ⟨hfield, hfields⟩ : EmittedField m field ∧ EmittedFields m fields := by
      simpa [EmittedFields] using h
    obtain ⟨j, hencode, hfloat, hkey, hiff⟩ := decode_encodeField m field hfield
    obtain ⟨js, hencodes, hfloats, hkeys, hiffs⟩ := decode_encodeFields m fields hfields
    refine ⟨j :: js, by rw [encodeFields, hencode, hencodes],
      by simp [Json.fieldsOk, hfloat, hfloats], by rw [List.map_cons, List.map_cons, hkey, hkeys], ?_⟩
    rw [decodeFields, List.map_cons, Decoded.sequence_cons_eq_ok, hiff, hiffs, PlainFields]

theorem decode_encodeField (m : Module) :
    ∀ field : String × Value, EmittedField m field → ∃ j, encodeField field = some j ∧
      Json.fieldOk j = true ∧ j.1 = field.1 ∧
      (((decodeField m j).2.map fun v => ((decodeField m j).1, v)).result = .ok field ↔
        PlainField field)
  | (key, value), h => by
    obtain ⟨j, hencode, hfloat, hiff⟩ := decode_encode m value (by simpa [EmittedField] using h)
    refine ⟨(key, j), by rw [encodeField, hencode]; rfl, by simpa [Json.fieldOk] using hfloat, rfl,
      ?_⟩
    rw [Decoded.map_result_eq_ok, PlainField, ← hiff]
    simp [decodeField]

end

/-! ## What a document can make the decoder call -/

theorem mem_calls_construct {cls c : Cls} {payload : Option Value}
    (h : c ∈ (construct cls payload).calls) : c = cls := by
  cases payload <;> cases hkind : cls.kind <;> simpa [construct, hkind] using h

mutual

/-- **Nothing is called but classes of the module that pass `_is_case_class`.** -/
theorem decode_calls (m : Module) :
    ∀ (j : Json) (c : Cls), c ∈ (decode m j).calls → Assoc.get? m c.name = some (.cls c.kind)
  | .null, c, h => by simp [decode, Decoded.pure] at h
  | .bool b, c, h => by simp [decode, Decoded.pure] at h
  | .int n, c, h => by simp [decode, Decoded.pure] at h
  | .float l, c, h => by simp [decode, Decoded.pure] at h
  | .str s, c, h => by simp [decode, Decoded.pure] at h
  | .arr items, c, h => by
    rw [decode] at h
    obtain ⟨d, hd, hc⟩ := Decoded.mem_calls_sequence (Decoded.mem_calls_map h)
    exact decodeItems_calls m items d hd c hc
  | .obj fields, c, h => by
    rw [decode] at h
    cases hkind : Assoc.get? fields "$kind" with
    | none =>
      rw [hkind] at h
      obtain ⟨d, hd, hc⟩ := Decoded.mem_calls_sequence (Decoded.mem_calls_map h)
      obtain ⟨p, hp, rfl⟩ := List.mem_map.mp hd
      exact decodeFields_calls m fields p hp c (Decoded.mem_calls_map hc)
    | some kind =>
      rw [hkind] at h
      simp only at h
      cases hcase : caseOf m kind with
      | none => simp [hcase] at h
      | some cls =>
        have hcls := (caseOf_eq_some.mp hcase).2
        simp only [hcase] at h
        cases hvalue : Assoc.get? (decodeFields m fields) "$value" with
        | none =>
          simp only [hvalue] at h
          exact mem_calls_construct h ▸ hcls
        | some payload =>
          simp only [hvalue] at h
          rcases Decoded.mem_calls_bind h with h | ⟨p, h⟩
          · exact decodeFields_calls m fields _ (Assoc.mem_of_get? hvalue) c h
          · exact mem_calls_construct h ▸ hcls

theorem decodeItems_calls (m : Module) :
    ∀ (items : List Json), ∀ d ∈ decodeItems m items, ∀ c ∈ d.calls,
      Assoc.get? m c.name = some (.cls c.kind)
  | [], d, hd, c, _ => absurd hd (by rw [decodeItems]; exact List.not_mem_nil)
  | item :: items, d, hd, c, hc => by
    rw [decodeItems] at hd
    rcases List.mem_cons.mp hd with rfl | hd
    · exact decode_calls m item c hc
    · exact decodeItems_calls m items d hd c hc

theorem decodeFields_calls (m : Module) :
    ∀ (fields : List (String × Json)), ∀ p ∈ decodeFields m fields, ∀ c ∈ p.2.calls,
      Assoc.get? m c.name = some (.cls c.kind)
  | [], p, hp, c, _ => absurd hp (by rw [decodeFields]; exact List.not_mem_nil)
  | field :: fields, p, hp, c, hc => by
    rw [decodeFields] at hp
    rcases List.mem_cons.mp hp with rfl | hp
    · exact decodeField_calls m field c hc
    · exact decodeFields_calls m fields p hp c hc

theorem decodeField_calls (m : Module) :
    ∀ (field : String × Json) (c : Cls), c ∈ (decodeField m field).2.calls →
      Assoc.get? m c.name = some (.cls c.kind)
  | (_, value), c, hc => by
    rw [decodeField] at hc
    exact decode_calls m value c hc

end

/-! ## The codec as a whole -/

/-- Encoded, written as text, read and decoded, the value comes back. -/
def RoundTrips (m : Module) (v : Value) : Prop :=
  ∃ j, encode v = some j ∧ ∃ j', Json.loads (Json.dumps j) = some j' ∧ (decode m j').result = .ok v

/-- Decoding the document raises a `SeamTagError`, or calls nothing but constructors of emitted
cases. -/
def Confined (m : Module) (j : Json) : Prop :=
  (∃ kind, (decode m j).result = .error (.seamTag kind)) ∨
    ∀ c ∈ (decode m j).calls, Assoc.get? m c.name = some (.cls c.kind) ∧ c.kind ≠ .base

variable {m : Module}

/-- **What round-trips**, over the wire. -/
theorem roundTrips_iff {v : Value} (hv : Emitted m v) : RoundTrips m v ↔ Plain v := by
  obtain ⟨j, hencode, hfloats, hiff⟩ := decode_encode m v hv
  rw [← hiff]
  constructor
  · rintro ⟨k, hk, k', hk', hdecode⟩
    obtain rfl : j = k := Option.some.inj (hencode.symm.trans hk)
    rw [Json.loads_dumps hfloats, Option.some.injEq] at hk'
    exact hk' ▸ hdecode
  · exact fun hdecode => ⟨j, hencode, j, Json.loads_dumps hfloats, hdecode⟩

/-- Two plain values have two encodings: the decoder tells them apart. -/
theorem encode_injective {v v' : Value} (hv : Emitted m v) (hv' : Emitted m v') (hp : Plain v)
    (hp' : Plain v') (h : encode v = encode v') : v = v' := by
  obtain ⟨j, hencode, -, hiff⟩ := decode_encode m v hv
  obtain ⟨j', hencode', -, hiff'⟩ := decode_encode m v' hv'
  obtain rfl : j = j' := Option.some.inj (hencode.symm.trans (h.trans hencode'))
  have hsame := (hiff.mpr hp).symm.trans (hiff'.mpr hp')
  exact Except.ok.inj hsame

theorem confined_of_no_base (h : ∀ name, Assoc.get? m name ≠ some (.cls .base)) (j : Json) :
    Confined m j := by
  refine .inr fun c hc => ⟨decode_calls m j c hc, fun hbase => ?_⟩
  exact h c.name (hbase ▸ decode_calls m j c hc)

/-- A tag that names the base of a variant type calls its constructor. -/
theorem not_confined_base {name : String} (h : Assoc.get? m name = some (.cls .base)) :
    ¬ Confined m (.obj [("$kind", .str name)]) := by
  have htag : Assoc.get? [("$kind", Json.str name)] "$kind" = some (.str name) := by
    simp [Assoc.get?]
  have hvalue : Assoc.get? [("$kind", Json.str name)] "$value" = none := by simp [Assoc.get?]
  have hcase : caseOf m (.str name) = some ⟨name, .base⟩ := caseOf_eq_some.mpr ⟨rfl, h⟩
  have hdecode : decode m (.obj [("$kind", .str name)]) =
      ⟨[⟨name, .base⟩], .ok (.bare ⟨name, .base⟩)⟩ := by
    rw [decode, htag]
    simp only [hcase, get?_decodeFields, hvalue, Option.map_none]
    rfl
  unfold Confined
  rw [hdecode]
  rintro (⟨kind, hkind⟩ | hcalls)
  · simp at hkind
  · exact (hcalls _ List.mem_cons_self).2 rfl

/-- **The codec.** For every emitted module: a value of it comes back over the wire exactly when no
map in it has the key `$kind`; two different values of which this holds never have one encoding;
and every document is refused with a `SeamTagError` or calls nothing but emitted cases, exactly
when the module leaves no name bound to the base of a variant type. -/
theorem codec_exact (m : Module) :
    (∀ v, Emitted m v → (RoundTrips m v ↔ Plain v)) ∧
    (∀ v v', Emitted m v → Emitted m v' → Plain v → Plain v' → v ≠ v' → encode v ≠ encode v') ∧
    ((∀ j, Confined m j) ↔ ∀ name, Assoc.get? m name ≠ some (.cls .base)) := by
  refine ⟨fun v hv => roundTrips_iff hv, fun v v' hv hv' hp hp' hne h => ?_, ?_, ?_⟩
  · exact hne (encode_injective hv hv' hp hp' h)
  · exact fun hall name hbase => not_confined_base hbase (hall _)
  · exact fun h j => confined_of_no_base h j

/-- A round trip of a case over a list, two values apart, and a module without variant types. -/
theorem codec_exact_result :
    let m := emittedModule true [] []
    let v : Value := .holding ⟨"Ok", .result⟩ (.list [.int 4])
    RoundTrips m v ∧ encode v ≠ encode (.list [.int 4]) ∧ Confined m (.obj [("$kind", .str "Ok")]) := by
  intro m v
  have hcls : CaseOf m ⟨"Ok", .result⟩ true := ⟨by decide +kernel, .inr ⟨.inr rfl, rfl⟩⟩
  have hv : Emitted m v := by simp [v, Emitted, EmittedItems, hcls]
  have hlist : Emitted m (.list [.int 4]) := by simp [Emitted, EmittedItems]
  have hp : Plain v := by simp [v, Plain, PlainItems]
  refine ⟨((codec_exact m).1 v hv).mpr hp, ?_, ?_⟩
  · exact (codec_exact m).2.1 v (.list [.int 4]) hv hlist hp (by simp [Plain, PlainItems]) nofun
  · refine (codec_exact m).2.2.mpr (fun name hbase => ?_) _
    have hmem := Assoc.mem_of_get? hbase
    simp [m, emittedModule, emitTypes] at hmem

/-- A map with the keys of a tagged case is encoded as the case is and does not come back, and a
document that names a variant type calls the base of its cases. -/
theorem tag_is_ambiguous :
    let m := emittedModule true [.variant "Shape" [("Dot", false)]] []
    let v : Value := .map [("$kind", .str "Ok"), ("$value", .int 4)]
    let v' : Value := .holding ⟨"Ok", .result⟩ (.int 4)
    Emitted m v ∧ Emitted m v' ∧ ¬ RoundTrips m v ∧ v ≠ v' ∧ encode v = encode v' ∧
      ¬ Confined m (.obj [("$kind", .str "Shape")]) := by
  intro m v v'
  have hcls : CaseOf m ⟨"Ok", .result⟩ true := ⟨by decide +kernel, .inr ⟨.inr rfl, rfl⟩⟩
  have hv : Emitted m v := by simp [v, Emitted, EmittedFields, EmittedField]
  refine ⟨hv, by simp [v', Emitted, hcls], ?_, nofun, by decide +kernel,
    not_confined_base (by decide +kernel)⟩
  rw [roundTrips_iff hv]
  simp [v, Plain]

end Revl.Seam
