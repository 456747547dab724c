import Revl.CapOrder.Spelling
import Revl.Lib.Dict

/-!
# Authority along a delegation chain (`peer_authority.py`)

A chain is a list of grants, the composition's own first. Each hop may hand down what its
delegator holds and no more: capabilities below a held one in the capability order, budgets no
larger than the held ones.

- `Grant`: a holder's capability spellings and its budgets.
- `budgetWidenings`, `grantWidenings`, `checkHop`, `checkDelegationChain`: the check.
- `Grant.Under`: one grant's authority is under another's; a transitive relation.
- `checkDelegationChain_pairwise`: in a chain that passes, every grant is under every earlier one.
-/

namespace Revl.Retry

open CapOrder
open Fallible (bind_ok mapError_ok mapM_ok_mem mapM_ok_of_mem)

/-- A holder in a chain and the authority it holds. -/
structure Grant where
  holder : String
  caps : List String
  budgets : Dict String Int

/-- `AuthorityWidening`. -/
structure Widening where
  index : Nat
  holder : String
  delegator : String
  caps : List String
  budgets : List (String × Option Int × Int)

/-- What a check raises. -/
inductive Fault where
  | widening (w : Widening)
  | cap (error : CapError)
  | value (message : String)
  | offer (message : String)
  | type (message : String)

/-! ## The check -/

/-- `parsed_caps`. -/
def Grant.parsedCaps (g : Grant) : Except CapError (List Cap) :=
  g.caps.mapM fun c => parseCap c .absent

/-- One key of `_budget_widenings`. -/
def budgetWidening (delegator : Dict String Int) (key : String) (granted : Int) :
    Except Fault (List (String × Option Int × Int)) :=
  if granted < 0 then
    .error (.value s!"budget `{key}={granted}` is negative; a budget is a non-negative allowance")
  else if granted = 0 then .ok []
  else
    match delegator.get? key with
    | none => .ok [(key, none, granted)]
    | some held => if held < granted then .ok [(key, some held, granted)] else .ok []

/-- `_budget_widenings`: the keys in order. -/
def budgetWidenings (delegator delegate : Dict String Int) :
    Except Fault (List (String × Option Int × Int)) := do
  let found ← (delegate.entries.insertionSort fun a b => a.1 ≤ b.1).mapM fun e =>
    budgetWidening delegator e.1 e.2
  return found.flatten

/-- `grant_widenings`: the capabilities no held one covers, and the budgets. -/
def grantWidenings (delegator delegate : Grant) :
    Except Fault (List Cap × List (String × Option Int × Int)) := do
  let held ← delegator.parsedCaps.mapError .cap
  let reach ← delegate.parsedCaps.mapError .cap
  let budgets ← budgetWidenings delegator.budgets delegate.budgets
  return (coversSet held reach, budgets)

/-- `check_hop`. -/
def checkHop (index : Nat) (delegator delegate : Grant) : Except Fault Unit := do
  let (caps, budgets) ← grantWidenings delegator delegate
  if caps = [] ∧ budgets = [] then return ()
  else
    throw (.widening ⟨index, delegate.holder, delegator.holder,
      (caps.map fun c => (c.toStr).getD c.token).insertionSort (· ≤ ·), budgets⟩)

/-- The loop of `check_delegation_chain`, at the hop into position `index`. -/
def checkFrom (index : Nat) : List Grant → Except Fault Unit
  | a :: b :: rest => do
    checkHop index a b
    checkFrom (index + 1) (b :: rest)
  | _ => .ok ()

/-- `check_delegation_chain`. -/
def checkDelegationChain (chain : List Grant) : Except Fault Unit := checkFrom 1 chain

/-! ## Authority under another -/

/-- The second grant's authority is under the first's. -/
structure Grant.Under (g h : Grant) : Prop where
  caps : ∃ held reach, g.parsedCaps = .ok held ∧ h.parsedCaps = .ok reach ∧
    ∀ c ∈ reach, ∃ a ∈ held, covers a c = true
  budgets : ∀ key granted, h.budgets.get? key = some granted → 0 < granted →
    ∃ held, g.budgets.get? key = some held ∧ granted ≤ held

theorem covers_trans {a b c : Cap} {d : Declared} (ha : a.WellFormed d) (hb : b.WellFormed d)
    (hc : c.WellFormed d) (hab : covers a b = true) (hbc : covers b c = true) :
    covers a c = true := by
  let a' : WfCap d := ⟨a, ha⟩
  let b' : WfCap d := ⟨b, hb⟩
  let c' : WfCap d := ⟨c, hc⟩
  have hba : b' ≤ a' := hab
  have hcb : c' ≤ b' := hbc
  exact hcb.trans hba

theorem Grant.parsedCaps_wellFormed {g : Grant} {caps : List Cap} (h : g.parsedCaps = .ok caps)
    {c : Cap} (hc : c ∈ caps) : c.WellFormed .absent := by
  obtain ⟨text, -, htext⟩ := mapM_ok_mem h hc
  exact parseCap_wellFormed htext

theorem Grant.Under.trans {g h k : Grant} (hgh : g.Under h) (hhk : h.Under k) : g.Under k := by
  obtain ⟨held, mid, hheld, hmid, hcover⟩ := hgh.caps
  obtain ⟨mid', reach, hmid', hreach, hcover'⟩ := hhk.caps
  obtain rfl : mid = mid' := Except.ok.inj (hmid.symm.trans hmid')
  refine ⟨⟨held, reach, hheld, hreach, fun c hc => ?_⟩, fun key granted hget hpos => ?_⟩
  · obtain ⟨b, hb, hbc⟩ := hcover' c hc
    obtain ⟨a, ha, hab⟩ := hcover b hb
    exact ⟨a, ha, covers_trans (parsedCaps_wellFormed hheld ha) (parsedCaps_wellFormed hmid hb)
      (parsedCaps_wellFormed hreach hc) hab hbc⟩
  · obtain ⟨m, hm, hle⟩ := hhk.budgets key granted hget hpos
    obtain ⟨n, hn, hle'⟩ := hgh.budgets key m hm (by omega)
    exact ⟨n, hn, by omega⟩

/-! ## What a check that passes says -/

/-- A budget key that widens nothing is held, and as large. -/
theorem budgetWidening_nil {delegator : Dict String Int} {key : String} {granted : Int}
    (h : budgetWidening delegator key granted = .ok []) (hpos : 0 < granted) :
    ∃ held, delegator.get? key = some held ∧ granted ≤ held := by
  unfold budgetWidening at h
  rw [if_neg (by omega), if_neg (by omega)] at h
  cases hget : delegator.get? key with
  | none =>
    rw [hget] at h
    cases h
  | some held =>
    rw [hget] at h
    simp only at h
    split at h
    · cases h
    · exact ⟨held, rfl, by omega⟩

theorem budgetWidenings_nil {delegator delegate : Dict String Int}
    (h : budgetWidenings delegator delegate = .ok []) {key : String} {granted : Int}
    (hget : delegate.get? key = some granted) (hpos : 0 < granted) :
    ∃ held, delegator.get? key = some held ∧ granted ≤ held := by
  obtain ⟨found, hfound, hflat⟩ := bind_ok h
  have hnil : ∀ w ∈ found, w = [] := by
    have hflat' : found.flatten = [] := Except.ok.inj hflat
    exact fun w hw => List.flatten_eq_nil_iff.mp hflat' w hw
  have hmem : (key, granted) ∈ delegate.entries.insertionSort fun a b => a.1 ≤ b.1 :=
    (List.mem_insertionSort _).mpr (Dict.get?_eq_some_iff.mp hget)
  obtain ⟨w, hw, hone⟩ := mapM_ok_of_mem hfound hmem
  rw [hnil w hw] at hone
  exact budgetWidening_nil hone hpos

/-- **A hop that passes narrows.** -/
theorem checkHop_under {index : Nat} {g h : Grant} (hok : checkHop index g h = .ok ()) :
    g.Under h := by
  obtain ⟨⟨caps, budgets⟩, hwide, hok⟩ := bind_ok hok
  obtain ⟨held, hheld, hwide⟩ := bind_ok hwide
  obtain ⟨reach, hreach, hwide⟩ := bind_ok hwide
  obtain ⟨found, hfound, hwide⟩ := bind_ok hwide
  obtain ⟨rfl, rfl⟩ := Prod.mk.inj (Except.ok.inj hwide)
  simp only at hok
  split at hok
  · next hnil =>
    refine ⟨⟨held, reach, mapError_ok hheld, mapError_ok hreach,
      coversSet_eq_nil_iff.mp hnil.1⟩, fun key granted hget hpos => ?_⟩
    exact budgetWidenings_nil (hnil.2 ▸ hfound) hget hpos
  · cases hok

/-- **In a chain that passes, every grant is under every earlier one.** The induction is on the
chain, and transitivity carries the head past its neighbour. -/
theorem checkFrom_pairwise {index : Nat} {chain : List Grant}
    (h : checkFrom index chain = .ok ()) : chain.Pairwise Grant.Under := by
  induction chain generalizing index with
  | nil => exact .nil
  | cons a rest ih =>
    cases rest with
    | nil => exact List.pairwise_singleton _ _
    | cons b rest =>
      obtain ⟨_, hhop, hrest⟩ := bind_ok h
      have htail := ih hrest
      have hab := checkHop_under hhop
      refine List.pairwise_cons.mpr ⟨fun c hc => ?_, htail⟩
      rcases List.mem_cons.mp hc with rfl | hc
      · exact hab
      · exact hab.trans ((List.pairwise_cons.mp htail).1 c hc)

theorem checkDelegationChain_pairwise {chain : List Grant}
    (h : checkDelegationChain chain = .ok ()) : chain.Pairwise Grant.Under :=
  checkFrom_pairwise h

end Revl.Retry
