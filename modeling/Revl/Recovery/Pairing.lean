import Revl.Recovery.Residue

/-!
# Which emission a compensation offsets

A compensation's descriptor names the seq of the emission it offsets. The timeline also wrote
a record of the compensation, which names the emission by its step. An emission recorded
inside another component's crossing is the same crossing.

- `splitNested`: the effects on their own, and those counted with an enclosing crossing.
- `Pairing`: the pairing of emissions with compensations.
-/

namespace Revl.Recovery

/-- A log as it was read, with the effect seqs the other processes of the run hold. -/
structure Wal where
  records : List WalRecord
  torn : Bool
  callers : String → List Int

/-- Whether the log has the terminal marker. -/
def Wal.complete (wal : Wal) : Bool := wal.records.any isActivationComplete

/-- `_enclosed`. -/
def enclosed (within : Option Within) (seqs : List (Option Int)) (callers : String → List Int) :
    Bool :=
  match within with
  | none => false
  | some within =>
    match within.seq, within.process with
    | none, _ => false
    | some enclosing, none => some enclosing ∈ seqs
    | some enclosing, some process => enclosing ∈ callers process

/-- Whether `_split_nested` counts an effect with the crossing it was made inside. -/
def isNested (wal : Wal) (e : Effect) : Bool :=
  e.boundary.cls == .emission &&
    enclosed e.within ((effectsOf wal.records).map Effect.seq) wal.callers

/-- `_split_nested`: the effects on their own and the nested ones. -/
def splitNested (wal : Wal) (effects : List Effect) : List Effect × List Effect :=
  effects.partition fun e => !isNested wal e

/-- The effects of a log that are not nested. -/
def ownEffects (wal : Wal) : List Effect := (splitNested wal (effectsOf wal.records)).1

theorem mem_ownEffects {wal : Wal} {e : Effect} :
    e ∈ ownEffects wal ↔ .effect e ∈ wal.records ∧ isNested wal e = false := by
  unfold ownEffects splitNested effectsOf
  rw [List.partition_eq_filter_filter, List.mem_filter, List.mem_filterMap]
  constructor
  · rintro ⟨⟨r, hr, he⟩, hn⟩
    cases r <;> simp_all
  · rintro ⟨hr, hn⟩
    exact ⟨⟨_, hr, rfl⟩, by simpa using hn⟩

/-- `_CompensationPairing`. -/
structure Pairing where
  settled : List Int
  /-- Seqs an `aborted` record names: their compensation already ran. -/
  ranByAbort : List Int
  /-- The compensation descriptor of an emission's seq. -/
  byEmission : List (Int × Int)
  /-- The seq of the emission a component made at a step. -/
  emissionSeq : List ((Option String × Option Int) × Option Int)

/-- `_compensation_pairing`. -/
def compensationPairing (records : List WalRecord) (effects : List Effect)
    (descriptors : List Descriptor) : Pairing where
  settled := settledDescriptorSeqs records
  ranByAbort := abortedOf records
  byEmission := descriptors.filterMap fun d =>
    if d.entry = .compensation then d.offsets.map fun emission => (emission, d.seq) else none
  emissionSeq := effects.filterMap fun e =>
    if e.kind = .emission then some ((e.component, e.stepIndex), e.seq) else none

namespace Pairing

/-- `offset_by_seq`: the settled compensation descriptor of an emission's seq. -/
def offsetBySeq (p : Pairing) (effectSeq : Option Int) : Option Int :=
  (effectSeq.bind (Assoc.get? p.byEmission)).filter (· ∈ p.settled)

/-- `offset_by`. -/
def offsetBy (p : Pairing) (e : Effect) : Option Int :=
  if e.kind = .emission then p.offsetBySeq e.seq else none

/-- `settle`: seqs a replay in this run settled. -/
def settle (p : Pairing) (seqs : List Int) : Pairing := { p with settled := p.settled ++ seqs }

/-- `described`: the descriptor of the compensation a timeline record is about. -/
def described (p : Pairing) (e : Effect) : Option Int :=
  if e.kind = .compensation then
    ((Assoc.get? p.emissionSeq (e.component, e.boundary.forStep)).bind id).bind
      (Assoc.get? p.byEmission)
  else none

end Pairing

end Revl.Recovery
