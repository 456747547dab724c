import Revl.Deploy.ReplayLedger
import Revl.Lib.Json.Repr
import Revl.Lib.PyText

/-!
# Replay protection of a network seam (`deploy.py`, `TransportReplayGuard`)

A crossing names its caller, its composition, a generation and a key. The guard reads the caller off
the transport, refuses an envelope that names another one, and asks the window about the rest.

- `Correlation.fromWire`: an envelope as it is read; `Raised` is how reading one fails.
- `admitOffer`: the gates, in their order.
- `Crossing`: a well-formed keyed crossing that names its own identity.
- `replay_window_exact`: **which of them is a duplicate**, after any offers.
-/

namespace Revl.Deploy

open BoundedReplayLedger PyText

/-- How reading a value fails: with an exception the guard turns into a refusal, or with the
`OverflowError` of an infinite number, which it does not. -/
inductive Raised where
  | malformed
  | overflow
  deriving DecidableEq, Repr

/-- `str(value)` -/
def pyStr : Json → String
  | .str s => s
  | v => v.pyRepr

/-- `int(value)`, given what it makes of a float. -/
def pyInt (ofFloat : String → Except Raised Int) : Json → Except Raised Int
  | .int n => .ok n
  | .bool b => .ok (if b then 1 else 0)
  | .float literal => ofFloat literal
  | .str s =>
    match parseInt s.toList with
    | some n => .ok n
    | none => .error .malformed
  | .null | .arr _ | .obj _ => .error .malformed

/-- The identity a call crosses a seam with. -/
structure Correlation where
  compositionId : String
  generation : Int
  peerIdentity : String
  effectId : String
  realm : Option Json
  idempotencyKey : Option String
  parentEffect : Option Json

/-- `wire[key]` -/
def item (fields : List (String × Json)) (key : String) : Except Raised Json :=
  match Assoc.get? fields key with
  | some v => .ok v
  | none => .error .malformed

namespace Correlation

/-- `Correlation.from_wire` -/
def fromWire (ofFloat : String → Except Raised Int) (fields : List (String × Json)) :
    Except Raised Correlation := do
  let key ← match Assoc.get? fields "idempotency_key" with
    | none | some .null => .ok none
    | some (.str key) => .ok (some key)
    | some _ => .error .malformed
  let compositionId ← item fields "composition_id"
  let generation ← pyInt ofFloat (← item fields "generation")
  let peerIdentity ← item fields "peer_identity"
  let effectId ← item fields "effect_id"
  return ⟨pyStr compositionId, generation, pyStr peerIdentity, pyStr effectId,
    Assoc.get? fields "realm", key, Assoc.get? fields "parent_effect"⟩

end Correlation

/-- What duplicates are told apart by, beside the identity. -/
abbrev Scope := String × Int × String

/-- What the guard answers. -/
inductive AdmitVerdict where
  | unauthenticatedPeer
  | malformed
  | peerMismatch
  | duplicate
  | unkeyed
  | replayChecked
  | raised
  deriving DecidableEq, Repr

/-- The verdict refuses the envelope. -/
def AdmitVerdict.refuses : AdmitVerdict → Bool
  | .unkeyed | .replayChecked => false
  | _ => true

/-- An envelope, and the identity its transport proved. -/
structure Offer where
  wire : Json
  transportIdentity : Option String

namespace TransportReplayGuard

variable (ofFloat : String → Except Raised Int) (w : Window)

/-- `TransportReplayGuard.admit` -/
def admitOffer (l : BoundedReplayLedger String Scope) (o : Offer) :
    AdmitVerdict × BoundedReplayLedger String Scope :=
  match o.transportIdentity with
  | none => (.unauthenticatedPeer, l)
  | some identity =>
    if identity = "" then (.unauthenticatedPeer, l)
    else match o.wire with
    | .null => (.unkeyed, l)
    | .obj fields =>
      match Correlation.fromWire ofFloat fields with
      | .error .malformed => (.malformed, l)
      | .error .overflow => (.raised, l)
      | .ok correlation =>
        if correlation.peerIdentity ≠ identity then (.peerMismatch, l)
        else match correlation.idempotencyKey with
        | none => (.unkeyed, l)
        | some key =>
          let scope := (correlation.compositionId, correlation.generation, key)
          let (fresh, l) := l.admitScope w identity scope
          if fresh then (.replayChecked, l) else (.duplicate, l)
    | _ => (.malformed, l)

/-- A well-formed keyed crossing of a proven identity that names its own. -/
def Crossing (o : Offer) (identity : String) (scope : Scope) : Prop :=
  o.transportIdentity = some identity ∧ identity ≠ "" ∧ ∃ fields correlation,
    o.wire = .obj fields ∧ Correlation.fromWire ofFloat fields = .ok correlation ∧
      correlation.peerIdentity = identity ∧
      correlation.idempotencyKey = some scope.2.2 ∧
      correlation.compositionId = scope.1 ∧ correlation.generation = scope.2.1

/-- The crossing an offer is. -/
def crossing? (o : Offer) : Option (String × Scope) :=
  match o.transportIdentity, o.wire with
  | some identity, .obj fields =>
    match Correlation.fromWire ofFloat fields with
    | .ok correlation =>
      match correlation.idempotencyKey with
      | some key =>
        if identity ≠ "" ∧ correlation.peerIdentity = identity then
          some (identity, correlation.compositionId, correlation.generation, key)
        else none
      | none => none
    | .error _ => none
  | _, _ => none

/-- The window after some offers, and the answers. -/
def run (offers : List Offer) : BoundedReplayLedger String Scope × List (Offer × AdmitVerdict) :=
  offers.foldl
    (fun state o =>
      ((admitOffer ofFloat w state.1 o).2, state.2 ++ [(o, (admitOffer ofFloat w state.1 o).1)]))
    (empty, [])

/-- The crossings among some answered offers, and whether each was admitted. -/
def uses (answered : List (Offer × AdmitVerdict)) : List (Use String Scope) :=
  answered.filterMap fun a =>
    (crossing? ofFloat a.1).map fun c => ⟨c.1, c.2, a.2 == .replayChecked⟩

variable {ofFloat w}

theorem crossing?_iff {o : Offer} {identity : String} {scope : Scope} :
    crossing? ofFloat o = some (identity, scope) ↔ Crossing ofFloat o identity scope := by
  obtain ⟨wire, transportIdentity⟩ := o
  constructor
  · intro h
    unfold crossing? at h
    split at h
    · rename_i i fields hi hw
      split at h
      · rename_i correlation hc
        split at h
        · rename_i key hkey
          split_ifs at h with hown
          cases h
          exact ⟨hi, hown.1, fields, correlation, hw, hc, hown.2, hkey, rfl, rfl⟩
        · cases h
      · cases h
    · cases h
  · rintro ⟨hi, hne, fields, correlation, hw, hc, hown, hkey, hcomp, hgen⟩
    subst hi
    subst hw
    obtain ⟨comp, gen, key⟩ := scope
    simp only [crossing?, hc, hkey, hne, hown, ne_eq, not_false_eq_true, and_self, if_true,
      hcomp, hgen]

/-- What the guard does with a crossing is what the window does with it. -/
theorem admit_of_crossing {l : BoundedReplayLedger String Scope} {o : Offer} {identity : String}
    {scope : Scope} (h : Crossing ofFloat o identity scope) : admitOffer ofFloat w l o =
      (if (l.admitScope w identity scope).1 then .replayChecked else .duplicate,
        (l.admitScope w identity scope).2) := by
  obtain ⟨wire, transportIdentity⟩ := o
  obtain ⟨comp, gen, key⟩ := scope
  obtain ⟨hi, hne, fields, correlation, hw, hc, hown, hkey, hcomp, hgen⟩ := h
  subst hi
  subst hw
  simp only [admitOffer, if_neg hne, hc, hown, ne_eq, not_true_eq_false, if_false, hkey, hcomp,
    hgen]
  split <;> rfl

/-- What is no crossing does not reach the window, and is no duplicate. -/
theorem admit_of_none {l : BoundedReplayLedger String Scope} {o : Offer}
    (h : crossing? ofFloat o = none) : (admitOffer ofFloat w l o).2 = l := by
  obtain ⟨wire, transportIdentity⟩ := o
  unfold admitOffer
  split
  · rfl
  · rename_i identity hi
    obtain rfl : transportIdentity = some identity := hi
    split
    · rfl
    · rename_i hne
      split
      · rfl
      · rename_i fields hw
        obtain rfl : wire = .obj fields := hw
        split
        · rfl
        · rfl
        · rename_i correlation hc
          split
          · rfl
          · rename_i hown
            split
            · rfl
            · rename_i key hkey
              simp only [crossing?, hc, hkey, hne, not_not.mp hown, ne_eq, not_false_eq_true,
                and_self, if_true] at h
              cases h
      · rfl

theorem run_concat (offers : List Offer) (o : Offer) : run ofFloat w (offers ++ [o]) =
    ((admitOffer ofFloat w (run ofFloat w offers).1 o).2,
      (run ofFloat w offers).2 ++ [(o, (admitOffer ofFloat w (run ofFloat w offers).1 o).1)]) := by
  rw [run, List.foldl_append]
  rfl

/-- **The guard runs the window on the crossings it is offered.** -/
theorem run_served (offers : List Offer) :
    (run ofFloat w offers).1 = (served w (offers.filterMap (crossing? ofFloat))).1 ∧
      uses ofFloat (run ofFloat w offers).2 =
        (served w (offers.filterMap (crossing? ofFloat))).2 := by
  induction offers using List.reverseRecOn with
  | nil => exact ⟨rfl, rfl⟩
  | append_singleton offers o ih =>
    obtain ⟨hledger, huses⟩ := ih
    rw [run_concat, List.filterMap_append]
    cases hcrossing : crossing? ofFloat o with
    | none =>
      have hnone : [o].filterMap (crossing? ofFloat) = [] := by simp [hcrossing]
      rw [admit_of_none hcrossing, hnone, List.append_nil]
      refine ⟨hledger, ?_⟩
      rw [← huses]
      simp [uses, hcrossing]
    | some c =>
      obtain ⟨identity, scope⟩ := c
      have hsome : [o].filterMap (crossing? ofFloat) = [(identity, scope)] := by simp [hcrossing]
      rw [admit_of_crossing (crossing?_iff.mp hcrossing), hsome, served_concat, serve, hledger]
      refine ⟨rfl, ?_⟩
      rw [← huses]
      cases hfresh : (BoundedReplayLedger.admitScope w (served w
          (offers.filterMap (crossing? ofFloat))).1 identity scope).1 <;>
        simp [uses, hcrossing]

variable (ofFloat w)

/-- **The window is exact.** After any offers, a well-formed keyed crossing that names its own
identity is refused as a duplicate exactly when the same was admitted before and both its windows
held since, and is admitted otherwise. The scopes remembered stay under the bound, each that was
admitted is remembered or counted as evicted, and a refused envelope changes neither. -/
theorem replay_window_exact (offers : List Offer) (o : Offer) :
    let l := (run ofFloat w offers).1
    let since := uses ofFloat (run ofFloat w offers).2
    (∀ identity scope, Crossing ofFloat o identity scope →
      ((admitOffer ofFloat w l o).1 = .duplicate ↔
        ∃ before after, since = before ++ ⟨identity, scope, true⟩ :: after ∧
          Alive w identity after) ∧
      ((admitOffer ofFloat w l o).1 = .duplicate ∨ (admitOffer ofFloat w l o).1 = .replayChecked)) ∧
    l.size ≤ w.perPeer * w.maxPeers ∧
    l.size + l.evicted = since.countP (·.fresh) ∧
    ((admitOffer ofFloat w l o).1.refuses → (admitOffer ofFloat w l o).2.peers.Perm l.peers ∧
      (admitOffer ofFloat w l o).2.evicted = l.evicted) := by
  intro l since
  obtain ⟨hledger, huses⟩ := @run_served ofFloat w offers
  have hbounded : Bounded w l := by
    rw [show l = _ from hledger]
    exact served_bounded w _
  refine ⟨fun identity scope h => ?_, hbounded.size_le, ?_, fun hrefuses => ?_⟩
  · rw [admit_of_crossing h]
    have hiff : (l.admitScope w identity scope).1 = false ↔
        ∃ before after, since = before ++ ⟨identity, scope, true⟩ :: after ∧
          Alive w identity after := by
      rw [admit_eq_false_iff hbounded, show l = _ from hledger, show since = _ from huses]
      exact remembered_iff w _ identity scope
    rw [← hiff]
    cases (l.admitScope w identity scope).1 <;> simp
  · rw [show l = _ from hledger, show since = _ from huses]
    exact evicted_add_size w _
  · cases hcrossing : crossing? ofFloat o with
    | none => rw [admit_of_none hcrossing]; exact ⟨List.Perm.refl _, rfl⟩
    | some c =>
      rw [admit_of_crossing (crossing?_iff.mp hcrossing)] at hrefuses ⊢
      refine admit_refused hbounded ?_
      cases hfresh : (l.admitScope w c.1 c.2).1 with
      | false => rfl
      | true =>
        rw [if_pos hfresh] at hrefuses
        cases hrefuses

end TransportReplayGuard

end Revl.Deploy
