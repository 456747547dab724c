import Revl.Lib.Json.Canonical
import Revl.Lib.Json.Repr

/-!
# Admission receipts (`mcp/quorum.py`)

A receipt names the authority a spend consumed and carries the decision that minted it, under a
digest. It is verified by deriving it again from the decision graph.

- `receiptBody`, `buildReceipt`: the mint.
- `verifyReceipt`: the verdict on a document.
- `Reforged`: a document that is the minted one but for what the verifier does not derive.
- `verifyReceipt_accepts_iff`: **whatever is recorded later, a document is accepted exactly where
  it is the minted one, unless it is a reforged one.**
-/

namespace Revl.Mcp.Receipt

open Json

/-! ## The decision graph -/

/-- A counted vote. -/
structure Vote where
  voteId : String
  voter : Json
  vote : String
  at_ : Json
  round : Json

/-- A row of `_quorums`, with the fields a receipt carries. -/
structure Decision where
  requestId : String
  hash : Json
  candidateHash : Json
  component : Json
  kind : Json
  round : Json
  capabilities : List Json
  expiresAt : Json
  rule : Json
  require : Json
  approvers : List Json
  proposer : Json
  outcome : Json
  satisfiedBy : Json
  openedAt : Json
  resolvedAt : Json
  votes : List Vote
  override : List (String × Json)

/-- The ledger entry a spend consumed. -/
structure Entry where
  requestId : String
  grantedAt : Json
  argsDigest : Json
  session : Json

/-- A row of the approval records. -/
structure Row where
  record : String
  requestId : Option String
  action : Json
  reason : Json
  voter : Json
  counted : Json

/-! ## The mint -/

def receiptKind : String := "revl.quorum.receipt"

def receiptVersion : Int := 1

/-- `_binding`. -/
def binding (d : Decision) (e : Entry) : Json :=
  .obj [("requestId", .str d.requestId), ("hash", d.hash), ("candidateHash", d.candidateHash),
    ("component", d.component), ("ticketKind", d.kind), ("round", d.round),
    ("capabilities", .arr d.capabilities), ("expiresAt", d.expiresAt), ("grantedAt", e.grantedAt),
    ("argsDigest", e.argsDigest), ("session", e.session)]

/-- `_vote_rows`. -/
def voteRows (d : Decision) : List Json :=
  (d.votes.insertionSort fun v w => v.voteId ≤ w.voteId).map fun v =>
    .obj [("voteId", .str v.voteId), ("voter", v.voter), ("vote", .str v.vote), ("at", v.at_),
      ("round", v.round)]

/-- The refusals of a question among some rows with their positions, up to a position. -/
def refusalsOf (requestId : String) (through : Option Nat) (rows : List (Row × Nat)) : List Json :=
  rows.filterMap fun p =>
    if p.1.record = "quorum-refused" ∧ p.1.requestId = some requestId ∧
        ∀ bound ∈ through, p.2 ≤ bound then
      some (.obj [("action", p.1.action), ("reason", p.1.reason), ("voter", p.1.voter),
        ("counted", p.1.counted)])
    else none

/-- `_refusal_rows`. -/
def refusalRows (records : List Row) (requestId : String) (through : Option Nat) : List Json :=
  refusalsOf requestId through records.zipIdx

/-- The row that minted the authority. -/
def grants (requestId : String) (row : Row) : Bool :=
  row.record == "approval-granted" && row.requestId == some requestId

/-- `_spend_bound`. -/
def spendBound (records : List Row) (requestId : String) : Option Nat :=
  records.findIdx? (grants requestId)

/-- `_counted`. -/
def counted (d : Decision) : Nat := d.votes.countP fun v => v.vote == "approve"

def ruleOf (d : Decision) : Json :=
  .obj [("text", d.rule), ("require", d.require), ("approvers", .arr d.approvers),
    ("proposer", d.proposer)]

def decisionOf (d : Decision) (e : Entry) (records : List Row) : Json :=
  .obj ([("outcome", d.outcome), ("satisfiedBy", d.satisfiedBy), ("counted", .int (counted d)),
    ("openedAt", d.openedAt), ("resolvedAt", d.resolvedAt), ("votes", .arr (voteRows d)),
    ("refusals", .arr (refusalRows records d.requestId (spendBound records e.requestId)))] ++
      if d.override.isEmpty then [] else [("override", .obj d.override)])

/-- `receipt_body`. -/
def receiptBody (d : Decision) (e : Entry) (records : List Row) : List (String × Json) :=
  [("kind", .str receiptKind), ("version", .int receiptVersion), ("binding", binding d e),
    ("rule", ruleOf d), ("decision", decisionOf d e records)]

/-- The body with its spend. -/
def spentBody (d : Decision) (e : Entry) (records : List Row) (consumedAt : Option Int) :
    List (String × Json) :=
  receiptBody d e records ++
    [("spend", .obj [("requestId", .str e.requestId),
      ("consumedAt", (consumedAt.map Json.int).getD .null)])]

/-- `build_receipt`. -/
def buildReceipt (sha : List Char → String) (d : Decision) (e : Entry) (records : List Row)
    (consumedAt : Option Int) : List (String × Json) :=
  let body := spentBody d e records consumedAt
  body ++ [("digest", .str (sha (Json.obj body).canon))]

/-! ## The verdict -/

/-- `receipt.get(key)`, an absent key being `None`. -/
def field (fields : List (String × Json)) (key : String) : Json :=
  ((Json.obj fields).get? key).getD .null

/-- `version == RECEIPT_VERSION`. -/
def isVersion : Json → Bool
  | .int n => n == receiptVersion
  | .bool b => b
  | .float literal => literal == "1.0"
  | _ => false

/-- Whether a spend names an authority. -/
def namesSpend : Json → Bool
  | .obj fields => (field fields "requestId").truthy
  | _ => false

/-- The first checks: a document that is no receipt of a spend is not read further. -/
def readingRefusals (receipt : List (String × Json)) : List String :=
  (if field receipt "kind" == .str receiptKind then []
    else ["unknown-kind: " ++ pyRepr (field receipt "kind")]) ++
  (if isVersion (field receipt "version") then []
    else ["unknown-version: " ++ pyRepr (field receipt "version")]) ++
  (if namesSpend (field receipt "spend") then []
    else ["no-spend: the receipt names no consumed authority"])

/-- The document without its digest. -/
def claimed (receipt : List (String × Json)) : List (String × Json) :=
  receipt.filter fun f => f.1 ≠ "digest"

def digestRefusals (sha : List Char → String) (receipt : List (String × Json)) : List String :=
  if field receipt "digest" == .str (sha (Json.obj (claimed receipt)).canon) then []
  else ["digest: the receipt does not hash to its own body"]

/-- The comparison of one axis with the graph. -/
def axisRefusals (rebuilt receipt : List (String × Json)) (axis : String) : List String :=
  if (field rebuilt axis).canon = (field (claimed receipt) axis).canon then []
  else [axis ++ ": the receipt disagrees with the decision graph"]

/-- `verify_receipt`: the reasons it is not accepted for. -/
def verifyReceipt (sha : List Char → String) (receipt : List (String × Json))
    (graph : Option (Decision × Entry)) (records : List Row) : List String :=
  if !(readingRefusals receipt).isEmpty then readingRefusals receipt
  else
    match graph with
    | none =>
      digestRefusals sha receipt ++
        ["no-decision: the decision graph carries no question under " ++
          pyRepr (((field receipt "binding").get? "requestId").getD .null)]
    | some (d, e) =>
      digestRefusals sha receipt ++
        (["binding", "rule", "decision"].flatMap
          (axisRefusals (receiptBody d e records) receipt)) ++
        if ((field receipt "spend").get? "requestId").getD .null == .str e.requestId then []
        else ["binding: the spend names another authority"]

/-- `ok`. -/
def accepts (sha : List Char → String) (receipt : List (String × Json)) (d : Decision)
    (e : Entry) (records : List Row) : Bool :=
  (verifyReceipt sha receipt (some (d, e)) records).isEmpty

/-! ## Documents -/

/-- A document: its keys are distinct, and its floats are held as they print. -/
structure Document where
  fields : List (String × Json)
  distinct : (fields.map Prod.fst).Nodup
  printable : floatsOk (.obj fields) = true

/-- A spend of an authority a decision minted, when its receipt is minted. -/
structure Spend where
  decision : Decision
  entry : Entry
  records : List Row
  consumedAt : Option Int
  /-- The row that granted the authority is written before the spend. -/
  granted : (records.any (grants entry.requestId)) = true
  named : entry.requestId ≠ ""
  printable : floatsOk (.obj (receiptBody decision entry records)) = true

/-- The receipt of a spend. -/
def Spend.minted (sha : List Char → String) (s : Spend) : List (String × Json) :=
  buildReceipt sha s.decision s.entry s.records s.consumedAt

/-- The same value, up to the order of keys. -/
def Same (v w : Json) : Prop := v.sortKeys = w.sortKeys

def axes : List String := ["binding", "rule", "decision"]

/-- The keys of a receipt. -/
def receiptKeys : List String :=
  ["kind", "version", "binding", "rule", "decision", "spend", "digest"]

/-- A document that says of the decision what the minted receipt says, under its own digest. -/
structure Agrees (sha : List Char → String) (minted doc : List (String × Json)) : Prop where
  kind : field doc "kind" = field minted "kind"
  version : isVersion (field doc "version") = true
  axis : ∀ axis ∈ axes, Same (field doc axis) (field minted axis)
  spend : ∃ fields, field doc "spend" = .obj fields ∧
    (Json.obj fields).get? "requestId" = (field minted "spend").get? "requestId"
  digest : field doc "digest" = .str (sha (Json.obj (claimed doc)).canon)

/-- The version, the spend or the keys are not those of the minted receipt. -/
def Altered (minted doc : List (String × Json)) : Prop :=
  field doc "version" ≠ .int receiptVersion ∨ ¬ Same (field doc "spend") (field minted "spend") ∨
    ∃ key ∈ doc.map Prod.fst, key ∉ receiptKeys

/-- A document that agrees with the minted receipt on everything the graph carries, with its
digest computed again, and is altered where nothing is derived again: the time of the spend, what
else the spend holds, how the version is written, and any further key. -/
structure Reforged (sha : List Char → String) (minted doc : List (String × Json)) : Prop where
  agrees : Agrees sha minted doc
  altered : Altered minted doc

/-! ## The body does not change after the mint -/

variable {sha : List Char → String} {s : Spend} {doc : Document}

theorem spendBound_append {records : List Row} {requestId : String}
    (h : records.any (grants requestId) = true) (later : List Row) :
    ∃ i < records.length, spendBound records requestId = some i ∧
      spendBound (records ++ later) requestId = some i := by
  have hsome : (records.findIdx? (grants requestId)).isSome = true := by
    rw [List.findIdx?_isSome]
    exact h
  obtain ⟨i, hi⟩ := Option.isSome_iff_exists.mp hsome
  refine ⟨i, (List.findIdx?_eq_some_iff_findIdx_eq.mp hi).1, hi, ?_⟩
  unfold spendBound
  rw [List.findIdx?_append, hi]
  rfl

/-- **What is recorded after the grant is no part of the receipt.** -/
theorem receiptBody_append (s : Spend) (later : List Row) :
    receiptBody s.decision s.entry (s.records ++ later) =
      receiptBody s.decision s.entry s.records := by
  obtain ⟨i, hi, hbound, hbound'⟩ := spendBound_append s.granted later
  have hrows : refusalRows (s.records ++ later) s.decision.requestId (some i) =
      refusalRows s.records s.decision.requestId (some i) := by
    unfold refusalRows refusalsOf
    rw [List.zipIdx_append, List.filterMap_append]
    refine (congrArg _ ?_).trans (List.append_nil _)
    refine List.filterMap_eq_nil_iff.mpr fun p hp => if_neg ?_
    rintro ⟨-, -, hle⟩
    have hpos := List.le_snd_of_mem_zipIdx hp
    have := hle i rfl
    omega
  unfold receiptBody decisionOf
  rw [hbound, hbound', hrows]

/-! ## Reading a document -/

/-- The fields of the minted receipt. -/
theorem field_minted (sha : List Char → String) (s : Spend) :
    field (s.minted sha) "kind" = .str receiptKind ∧
      field (s.minted sha) "version" = .int receiptVersion ∧
      field (s.minted sha) "spend" = .obj [("requestId", .str s.entry.requestId),
        ("consumedAt", (s.consumedAt.map Json.int).getD .null)] ∧
      ∀ axis ∈ axes, field (s.minted sha) axis =
        field (receiptBody s.decision s.entry s.records) axis := by
  refine ⟨rfl, rfl, rfl, fun axis haxis => ?_⟩
  simp only [axes, List.mem_cons, List.not_mem_nil, or_false] at haxis
  rcases haxis with rfl | rfl | rfl
  · rfl
  · rfl
  · rfl

theorem minted_eq (s : Spend) : s.minted sha =
    spentBody s.decision s.entry s.records s.consumedAt ++
      [("digest", .str (sha (Json.obj (spentBody s.decision s.entry s.records
        s.consumedAt)).canon))] := rfl

theorem keys_minted (sha : List Char → String) (s : Spend) :
    (s.minted sha).map Prod.fst = receiptKeys := rfl

theorem nodup_minted (s : Spend) : ((s.minted sha).map Prod.fst).Nodup := by
  rw [keys_minted sha s]
  decide

theorem nodup_spent (s : Spend) :
    ((spentBody s.decision s.entry s.records s.consumedAt).map Prod.fst).Nodup := by
  show ["kind", "version", "binding", "rule", "decision", "spend"].Nodup
  decide

theorem nodup_spend {v w : Json} :
    (([("requestId", v), ("consumedAt", w)] : List (String × Json)).map Prod.fst).Nodup := by
  show ["requestId", "consumedAt"].Nodup
  decide

theorem axis_ne {axis : String} (h : axis ∈ axes) : axis ≠ "digest" := by
  rintro rfl
  exact absurd h (by decide)

theorem field_claimed {fields : List (String × Json)} {key : String} (h : key ≠ "digest") :
    field (claimed fields) key = field fields key := by
  unfold field claimed
  show (Assoc.get? _ key).getD .null = (Assoc.get? fields key).getD .null
  rw [Assoc.get?_filter_fst (fun key => decide (key ≠ "digest")), if_pos (decide_eq_true h)]

theorem floatsOk_field {fields : List (String × Json)} (h : floatsOk (.obj fields) = true)
    (key : String) : floatsOk (field fields key) = true := by
  unfold field
  cases hget : (Json.obj fields).get? key with
  | none => rfl
  | some v =>
    have hmem : (key, v) ∈ fields := Assoc.mem_of_get? hget
    exact (fieldsOk_iff.mp h) _ hmem

/-- The canonical texts tell printable values apart. -/
theorem canon_eq_iff {v w : Json} (hv : floatsOk v = true) (hw : floatsOk w = true) :
    v.canon = w.canon ↔ Same v w :=
  ⟨canon_inj hv hw, fun h => congrArg compact h⟩

theorem eq_str_of_same {v : Json} {text : String} (h : Same v (.str text)) : v = .str text := by
  cases v with
  | arr items => cases h
  | obj fields => cases h
  | _ => exact h

theorem eq_int_of_same {v : Json} {n : Int} (h : Same v (.int n)) : v = .int n := by
  cases v with
  | arr items => cases h
  | obj fields => cases h
  | _ => exact h

theorem obj_of_same {v : Json} {fields : List (String × Json)} (h : Same v (.obj fields)) :
    ∃ fields', v = .obj fields' := by
  cases v with
  | obj fields' => exact ⟨fields', rfl⟩
  | _ => cases h

/-- A dictionary that is the same as one with distinct keys has distinct keys. -/
theorem nodup_of_same {fields fields' : List (String × Json)}
    (h : Same (.obj fields) (.obj fields')) (h' : (fields'.map Prod.fst).Nodup) :
    (fields.map Prod.fst).Nodup := by
  have hkeys : ∀ l : List (String × Json),
      (((sortFields l).insertionSort fun f g => f.1 ≤ g.1).map Prod.fst).Perm
        (l.map Prod.fst) := by
    intro l
    have hperm := (List.perm_insertionSort (fun f g : String × Json => f.1 ≤ g.1)
      (sortFields l)).map Prod.fst
    refine hperm.trans (.of_eq ?_)
    rw [sortFields_eq_map, List.map_map]
    rfl
  unfold Same at h
  rw [sortKeys, sortKeys, Json.obj.injEq] at h
  have hperm := (hkeys fields).symm.trans ((List.Perm.of_eq (congrArg _ h)).trans (hkeys fields'))
  exact hperm.nodup_iff.mpr h'

/-- A key that reads a value that is not `None` is there. -/
theorem get?_of_same {fields : List (String × Json)} {key : String} {w : Json}
    (h : Same (field fields key) w) (hw : w ≠ .null) :
    ((Json.obj fields).get? key).map sortKeys = some w.sortKeys := by
  unfold Same field at h
  cases hget : (Json.obj fields).get? key with
  | none =>
    rw [hget] at h
    exfalso
    refine hw ?_
    cases w with
    | null => rfl
    | _ => cases h
  | some v =>
    rw [hget] at h
    exact congrArg some h

/-! ## What is accepted -/

/-- **A document is accepted exactly where it agrees with the minted receipt**, whatever is
recorded later. -/
theorem accepts_iff_agrees (s : Spend) (later : List Row) (doc : Document) :
    accepts sha doc.fields s.decision s.entry (s.records ++ later) = true ↔
      Agrees sha (s.minted sha) doc.fields := by
  obtain ⟨hkind, hversion, hspend, haxes⟩ := field_minted sha s
  have haxis : ∀ axis ∈ axes,
      axisRefusals (receiptBody s.decision s.entry (s.records ++ later)) doc.fields axis = [] ↔
        Same (field doc.fields axis) (field (s.minted sha) axis) := by
    intro axis hmem
    unfold axisRefusals
    rw [receiptBody_append, field_claimed (axis_ne hmem), haxes axis hmem, ite_eq_left_iff,
      canon_eq_iff (floatsOk_field s.printable axis) (floatsOk_field doc.printable axis)]
    constructor
    · intro h
      by_contra hnot
      exact absurd (h fun heq => hnot heq.symm) (List.cons_ne_nil _ _)
    · exact fun h hnot => absurd h.symm hnot
  have hflat : ["binding", "rule", "decision"].flatMap
      (axisRefusals (receiptBody s.decision s.entry (s.records ++ later)) doc.fields) = [] ↔
        ∀ axis ∈ axes, Same (field doc.fields axis) (field (s.minted sha) axis) := by
    rw [List.flatMap_eq_nil_iff]
    exact forall₂_congr haxis
  have hreading : readingRefusals doc.fields = [] ↔
      field doc.fields "kind" = .str receiptKind ∧ isVersion (field doc.fields "version") = true ∧
        namesSpend (field doc.fields "spend") = true := by
    unfold readingRefusals
    rw [List.append_eq_nil_iff, List.append_eq_nil_iff, and_assoc]
    simp
  have hdigest : digestRefusals sha doc.fields = [] ↔
      field doc.fields "digest" = .str (sha (Json.obj (claimed doc.fields)).canon) := by
    unfold digestRefusals
    simp
  unfold accepts verifyReceipt
  rw [List.isEmpty_iff]
  constructor
  · intro h
    by_cases hread : readingRefusals doc.fields = []
    swap
    · rw [if_pos (by simpa using hread)] at h
      exact absurd h hread
    rw [if_neg (by simpa using hread)] at h
    dsimp only at h
    rw [List.append_eq_nil_iff, List.append_eq_nil_iff, hdigest, hflat] at h
    obtain ⟨⟨hdig, hax⟩, hid⟩ := h
    obtain ⟨hk, hv, hs⟩ := hreading.mp hread
    refine ⟨hk.trans hkind.symm, hv, hax, ?_, hdig⟩
    -- the spend is a dictionary that names the entry
    unfold namesSpend at hs
    split at hs
    swap
    · cases hs
    rename_i fields hobj
    refine ⟨fields, hobj, ?_⟩
    rw [hobj] at hid
    have hstr : ((Json.obj fields).get? "requestId").getD .null = .str s.entry.requestId := by
      simpa using hid
    rw [hspend]
    cases hget : (Json.obj fields).get? "requestId" with
    | none =>
      rw [hget] at hstr
      cases hstr
    | some v =>
      rw [hget] at hstr
      rw [show v = _ from hstr]
      rfl
  · rintro ⟨hk, hv, hax, ⟨fields, hobj, hid⟩, hdig⟩
    rw [hspend] at hid
    have hid : (Json.obj fields).get? "requestId" = some (.str s.entry.requestId) := hid
    have hnames : namesSpend (field doc.fields "spend") = true := by
      rw [hobj]
      show (((Json.obj fields).get? "requestId").getD .null).truthy = true
      rw [hid]
      show (s.entry.requestId != "") = true
      exact bne_iff_ne.mpr s.named
    have hread := hreading.mpr ⟨hk.trans hkind, hv, hnames⟩
    rw [if_neg (by simpa using hread)]
    dsimp only
    rw [hdigest.mpr hdig, hflat.mpr hax, hobj, hid]
    simp

/-- Where all but the digest is the same, the digested text is. -/
theorem canon_claimed (s : Spend) (doc : Document)
    (h : ∀ key ≠ "digest", ((Json.obj doc.fields).get? key).map sortKeys =
      ((Json.obj (s.minted sha)).get? key).map sortKeys) :
    (Json.obj (claimed doc.fields)).canon =
      (Json.obj (spentBody s.decision s.entry s.records s.consumedAt)).canon := by
  refine congrArg compact ((sortKeys_obj_eq_iff ?_ (nodup_spent s)).mpr fun key => ?_)
  · exact doc.distinct.sublist (List.filter_sublist.map _)
  · show (Assoc.get? (claimed doc.fields) key).map sortKeys = _
    unfold claimed
    rw [Assoc.get?_filter_fst (fun key => decide (key ≠ "digest"))]
    by_cases hkey : key = "digest"
    · subst hkey
      rfl
    · rw [if_pos (decide_eq_true hkey)]
      refine (h key hkey).trans ?_
      rw [minted_eq]
      show (Assoc.get? (_ ++ _) key).map sortKeys = _
      rw [Assoc.get?_append, Assoc.get?_cons, Assoc.get?_nil, Option.none_or, if_neg (Ne.symm hkey),
        Option.none_or]
      rfl

section SameKeys

variable {s : Spend} {doc : Document}

/-- The minted receipt has its own keys alone. -/
theorem get?_minted_of_not_mem {key : String} (h : key ∉ receiptKeys) :
    (Json.obj (s.minted sha)).get? key = none := by
  refine Assoc.get?_eq_none_iff.mpr fun v hmem => h ?_
  rw [← keys_minted sha s]
  exact List.mem_map_of_mem hmem

/-- What reads the same under every key is the same field by field. -/
theorem field_of_keys (hkeys : ∀ key, ((Json.obj doc.fields).get? key).map sortKeys =
      ((Json.obj (s.minted sha)).get? key).map sortKeys) (key : String) :
    Same (field doc.fields key) (field (s.minted sha) key) := by
  have := hkeys key
  unfold Same field
  cases hd : (Json.obj doc.fields).get? key with
  | none =>
    cases hm : (Json.obj (s.minted sha)).get? key with
    | none => rfl
    | some w =>
      rw [hd, hm] at this
      cases this
  | some v =>
    cases hm : (Json.obj (s.minted sha)).get? key with
    | none =>
      rw [hd, hm] at this
      cases this
    | some w =>
      rw [hd, hm] at this
      exact Option.some.inj this

theorem agrees_of_keys (hkeys : ∀ key, ((Json.obj doc.fields).get? key).map sortKeys =
      ((Json.obj (s.minted sha)).get? key).map sortKeys) :
    Agrees sha (s.minted sha) doc.fields := by
  obtain ⟨hkind, hversion, hspend, -⟩ := field_minted sha s
  have hfield := field_of_keys hkeys
  constructor
  · exact (eq_str_of_same (hkind ▸ hfield "kind")).trans hkind.symm
  · have hv : field doc.fields "version" = .int receiptVersion :=
      eq_int_of_same (hversion ▸ hfield "version")
    rw [hv]
    rfl
  · exact fun axis _ => hfield axis
  · have hsame := hfield "spend"
    rw [hspend] at hsame
    obtain ⟨fields, hobj⟩ := obj_of_same hsame
    rw [hobj] at hsame
    refine ⟨fields, hobj, ?_⟩
    -- the spends are the same up to the order of their keys, so the request is
    have hid : ((Json.obj fields).get? "requestId").map sortKeys =
        some (.str s.entry.requestId) := by
      rw [← get?_sortKeys (nodup_of_same hsame nodup_spend)]
      exact (congrArg (get? · "requestId") hsame).trans (get?_sortKeys nodup_spend _)
    rw [hspend]
    obtain ⟨v, hget, hv⟩ := Option.map_eq_some_iff.mp hid
    rw [hget, eq_str_of_same hv]
    rfl
  · have hd := hfield "digest"
    rw [canon_claimed s doc fun key _ => hkeys key]
    exact eq_str_of_same hd

theorem unaltered_of_keys (hkeys : ∀ key, ((Json.obj doc.fields).get? key).map sortKeys =
      ((Json.obj (s.minted sha)).get? key).map sortKeys) :
    ¬ Altered (s.minted sha) doc.fields := by
  obtain ⟨-, hversion, -, -⟩ := field_minted sha s
  have hfield := field_of_keys hkeys
  rintro (h | h | ⟨key, hkey, hnot⟩)
  · exact h (eq_int_of_same (hversion ▸ hfield "version"))
  · exact h (hfield "spend")
  · -- a further key reads nothing in the minted receipt
    have := hkeys key
    rw [get?_minted_of_not_mem hnot, Option.map_none, Option.map_eq_none_iff] at this
    obtain ⟨⟨k, v⟩, hmem, rfl⟩ := List.mem_map.mp hkey
    exact Assoc.get?_eq_none_iff.mp this v hmem

/-- And a document that agrees and is unaltered reads the same under every key. -/
theorem keys_of_agrees (hagrees : Agrees sha (s.minted sha) doc.fields)
    (hunaltered : ¬ Altered (s.minted sha) doc.fields) (key : String) :
    ((Json.obj doc.fields).get? key).map sortKeys =
      ((Json.obj (s.minted sha)).get? key).map sortKeys := by
  obtain ⟨hkind, -, -, -⟩ := field_minted sha s
  obtain ⟨hk, -, hax, -, hdig⟩ := hagrees
  unfold Altered at hunaltered
  rw [not_or, not_or, not_not, not_not] at hunaltered
  obtain ⟨hv, hs, hkeys⟩ := hunaltered
  have hread : ∀ {key : String} {w : Json}, (Json.obj (s.minted sha)).get? key = some w →
      Same (field doc.fields key) w → w ≠ .null →
      ((Json.obj doc.fields).get? key).map sortKeys =
        ((Json.obj (s.minted sha)).get? key).map sortKeys := by
    intro key w hget hsame hw
    rw [get?_of_same hsame hw, hget]
    rfl
  have hbody : ∀ key ≠ "digest", ((Json.obj doc.fields).get? key).map sortKeys =
      ((Json.obj (s.minted sha)).get? key).map sortKeys := by
    intro key hkey
    by_cases hmem : key ∈ receiptKeys
    · simp only [receiptKeys, List.mem_cons, List.not_mem_nil, or_false] at hmem
      rcases hmem with rfl | rfl | rfl | rfl | rfl | rfl | rfl
      · exact hread rfl (congrArg sortKeys (hk.trans hkind)) (fun h => by cases h)
      · exact hread rfl (congrArg sortKeys hv) (fun h => by cases h)
      · exact hread rfl (hax "binding" (by decide)) (fun h => by cases h)
      · exact hread rfl (hax "rule" (by decide)) (fun h => by cases h)
      · exact hread rfl (hax "decision" (by decide)) (fun h => by cases h)
      · exact hread rfl hs (fun h => by cases h)
      · exact absurd rfl hkey
    · -- a further key is in neither
      have hdoc : (Json.obj doc.fields).get? key = none := Assoc.get?_eq_none_iff.mpr
        fun v hv => hkeys ⟨key, List.mem_map_of_mem hv, hmem⟩
      rw [hdoc, get?_minted_of_not_mem hmem]
  by_cases hkey : key = "digest"
  · subst hkey
    rw [canon_claimed s doc hbody] at hdig
    exact hread rfl (congrArg sortKeys hdig) (fun h => by cases h)
  · exact hbody key hkey

end SameKeys

/-- **The minted receipt is told apart by what it agrees on and what is not altered.** -/
theorem same_iff (s : Spend) (doc : Document) :
    Same (.obj doc.fields) (.obj (s.minted sha)) ↔
      Agrees sha (s.minted sha) doc.fields ∧ ¬ Altered (s.minted sha) doc.fields := by
  unfold Same
  rw [sortKeys_obj_eq_iff doc.distinct (nodup_minted s)]
  constructor
  · exact fun hkeys => ⟨agrees_of_keys hkeys, unaltered_of_keys hkeys⟩
  · exact fun ⟨hagrees, hunaltered⟩ => keys_of_agrees hagrees hunaltered

/-! ## Only the minted receipt verifies -/

/-- The minted receipt as a document. -/
def Spend.document (sha : List Char → String) (s : Spend) : Document where
  fields := s.minted sha
  distinct := nodup_minted s
  printable := by
    have hbody := fieldsOk_iff.mp s.printable
    refine fieldsOk_iff.mpr fun f hf => ?_
    rw [minted_eq, spentBody, List.append_assoc, List.mem_append] at hf
    rcases hf with hf | hf
    · exact hbody f hf
    · simp only [List.cons_append, List.nil_append, List.mem_cons, List.not_mem_nil,
        or_false] at hf
      rcases hf with rfl | rfl
      · cases s.consumedAt with
        | none => rfl
        | some n => rfl
      · rfl

/-- The receipt of a spend at another time agrees with the minted one. -/
theorem agrees_redated (s : Spend) (time : Option Int) :
    Agrees sha (s.minted sha) ({ s with consumedAt := time }.minted sha) := by
  have hagrees := ((same_iff { s with consumedAt := time }
    (Spend.document sha { s with consumedAt := time })).mp rfl).1
  refine ⟨hagrees.kind, hagrees.version, fun axis h => ?_, hagrees.spend, hagrees.digest⟩
  have hminted := (field_minted sha s).2.2.2 axis h
  have hredated := (field_minted sha { s with consumedAt := time }).2.2.2 axis h
  exact congrArg sortKeys (hredated.trans hminted.symm)

/-- **The minted receipt is accepted whatever is recorded later, and a document is accepted exactly
where it is the minted one, unless it is a reforged one.** -/
theorem verifyReceipt_accepts_iff (sha : List Char → String) (s : Spend) (later : List Row) :
    accepts sha (s.minted sha) s.decision s.entry (s.records ++ later) = true ∧
      ∀ doc : Document,
        (accepts sha doc.fields s.decision s.entry (s.records ++ later) = true ↔
          Same (.obj doc.fields) (.obj (s.minted sha))) ↔
        ¬ Reforged sha (s.minted sha) doc.fields := by
  constructor
  · exact (accepts_iff_agrees s later (s.document sha)).mpr
      ((same_iff s (s.document sha)).mp rfl).1
  · intro doc
    rw [accepts_iff_agrees, same_iff]
    constructor
    · exact fun h hre => (h.mp hre.agrees).2 hre.altered
    · exact fun h => ⟨fun hagree => ⟨hagree, fun halt => h ⟨hagree, halt⟩⟩, fun hsame => hsame.1⟩

/-- A decision by one vote. -/
def sampleDecision : Decision where
  requestId := "q-1"
  hash := .str "9f2c"
  candidateHash := .str "41aa"
  component := .str "billing"
  kind := .str "effect"
  round := .int 1
  capabilities := [.str "net"]
  expiresAt := .null
  rule := .str "1 of 1"
  require := .int 1
  approvers := [.str "ada"]
  proposer := .str "agent"
  outcome := .str "granted"
  satisfiedBy := .str "votes"
  openedAt := .int 900
  resolvedAt := .int 950
  votes := [⟨"v-1", .str "ada", "approve", .int 950, .int 1⟩]
  override := []

def sampleSpend : Spend where
  decision := sampleDecision
  entry := ⟨"q-1", .int 950, .str "07d3", .str "s-1"⟩
  records := [⟨"approval-granted", some "q-1", .null, .null, .null, .null⟩]
  consumedAt := some 1000
  granted := by decide
  named := by decide
  printable := by decide

/-- The same spend at a later time. -/
def redatedSpend : Spend := { sampleSpend with consumedAt := some 2000 }

/-- A receipt that is dated again, under a digest of its own, is accepted, though the digest does
not collide. -/
theorem redated_accepts :
    Function.Injective String.ofList ∧
      accepts String.ofList (redatedSpend.minted String.ofList) sampleSpend.decision
        sampleSpend.entry sampleSpend.records = true ∧
      ¬ Same (.obj (redatedSpend.minted String.ofList))
        (.obj (sampleSpend.minted String.ofList)) := by
  refine ⟨fun _ _ h => String.ofList_injective h, ?_, fun h => ?_⟩
  · have haccepts := (accepts_iff_agrees sampleSpend []
      (redatedSpend.document String.ofList)).mpr (agrees_redated sampleSpend (some 2000))
    rwa [List.append_nil] at haccepts
  · have hspend := (sortKeys_obj_eq_iff (nodup_minted redatedSpend)
      (nodup_minted sampleSpend)).mp h "spend"
    exact absurd hspend (by decide +kernel)

end Revl.Mcp.Receipt
