import Revl.Lib.Widest
import Revl.Types.Compatible

/-!
# The type of a list literal and of a match (`typecheck.py`, `infer_ast`)

Both fold the types of their parts with `join`, starting from the unknown type. The unknown type is
also what `join` gives where two types have nothing in common, so a part after a disagreement
starts over.

- `accumulate`, `inferList`, `inferMatch`: the fold, and the types it gives.
- `Known`: a type that is resolved.
- `ListCovers`, `MatchCovers`: every part flows into the type, in every order of the parts.
- `branches_exact`: **when it does**.
-/

namespace Revl.Typecheck

/-- `join`, on types that may be unknown. -/
def joinUnknown (types : TypeTable) : Option Ty → Option Ty → Option Ty
  | some a, some b => join types a b
  | _, _ => none

/-- `t if item is None else join(item, t, types)` -/
def accumulate (types : TypeTable) (item t : Option Ty) : Option Ty :=
  if item = none then t else joinUnknown types item t

def never : Ty := .app (.name "Never") []

def listOf (t : Ty) : Ty := .app (.name "List") [t]

/-- `infer_ast` on a list literal, from the types of its items. -/
def inferList (types : TypeTable) (items : List (Option Ty)) : Ty :=
  match items.foldl (accumulate types) none with
  | some item => listOf item
  | none => listOf never

/-- `infer_ast` on a match, from the types of its arms. -/
def inferMatch (types : TypeTable) (arms : List (Option Ty)) : Option Ty :=
  arms.foldl (accumulate types) none

/-! ## Known types -/

mutual

/-- The placeholder of an unresolved type parameter, at some depth. -/
def unresolved : Ty → Bool
  | .app head args => (head == .name "Any" && args.isEmpty) || unresolvedAny args

def unresolvedAny : List Ty → Bool
  | [] => false
  | t :: ts => unresolved t || unresolvedAny ts

end

/-- A type that is known: it is no wildcard, it is not the bottom, and nothing in it is
unresolved. -/
structure Known (t : Ty) : Prop where
  wildcard : isWildcard t = false
  bottom : t.head ≠ .name "Never"
  resolved : unresolved t = false

mutual

/-- What is resolved is not filled in. -/
theorem fillUnknownArgs_eq : ∀ (keep other : Ty), unresolved keep = false →
    fillUnknownArgs keep other = keep
  | .app (.record names) ts, other, _ => by rw [fillUnknownArgs]; simp
  | .app (.name k) ks, .app (.record names) os, _ => by rw [fillUnknownArgs]; simp
  | .app (.name k) ks, .app (.name o) os, h => by
    rw [unresolved, Bool.or_eq_false_iff] at h
    rw [fillUnknownArgs, fillAll_eq ks os h.2, ite_self]

theorem fillAll_eq : ∀ (ks os : List Ty), unresolvedAny ks = false → fillAll ks os = ks
  | [], os, _ => by cases os <;> rfl
  | k :: ks, [], _ => rfl
  | k :: ks, o :: os, h => by
    rw [unresolvedAny, Bool.or_eq_false_iff] at h
    have hk : ¬ (k = .app (.name "Any") [] ∧ o ≠ .app (.name "Any") []) := by
      rintro ⟨rfl, -⟩
      exact absurd h.1 (by decide)
    rw [fillAll, if_neg hk, fillUnknownArgs_eq k o h.1, fillAll_eq ks os h.2]

end

open Widest

variable {types : TypeTable}

theorem Known.refl {t : Ty} (h : Known t) : compatible types t t = true := by
  rw [compatible_iff]
  refine ⟨[], ?_, by simp⟩
  unfold demands
  simp [h.bottom]

/-- Between known types a join keeps the wider one. -/
theorem join_known {a b : Ty} (ha : Known a) (hb : Known b) :
    join types a b = wider (compatible types) a b := by
  rw [join, wider, fillUnknownArgs_eq a b ha.resolved, fillUnknownArgs_eq b a hb.resolved]

/-- **The fold keeps the widest** of known types. -/
theorem accumulate_known {ts : List Ty} (h : ∀ t ∈ ts, Known t) :
    (ts.map some).foldl (accumulate types) none = widest (compatible types) ts := by
  induction ts using List.reverseRecOn with
  | nil => rfl
  | append_singleton ts b ih =>
    have hts : ∀ t ∈ ts, Known t := fun t ht => h t (List.mem_append_left _ ht)
    have hb : Known b := h b (List.mem_append_right _ List.mem_cons_self)
    rw [List.map_append, List.foldl_append, ih hts, widest_concat]
    cases hkept : widest (compatible types) ts with
    | none => rfl
    | some a => exact join_known (hts a (widest_mem hkept)) hb

theorem compatible_never {t : Ty} (h : isWildcard t = false) :
    compatible types never t = false := by
  rw [← Bool.not_eq_true, compatible_iff]
  rintro ⟨pairs, hdemands, -⟩
  rw [demands, if_pos ⟨rfl, h⟩] at hdemands
  cases hdemands

/-- A list flows into a list as its items do. -/
theorem compatible_listOf {a b : Ty} (ha : a.head ≠ .name "Never") :
    compatible types (listOf a) (listOf b) = compatible types a b := by
  have hrules : headRules (listOf a) (listOf b) = some [(a, b)] := by
    simp [headRules, listOf, isFunctionHead]
  have hdemands : demands types (listOf a) (listOf b) =
      if listOf a = listOf b then some [] else some [(a, b)] := by
    have hwild : ∀ t, isWildcard (listOf t) = false := fun t => rfl
    unfold demands
    rw [if_neg fun h => by simp [listOf] at h, if_neg (by simp [hwild]),
      if_neg fun h => by simp [listOf] at h]
    split_ifs
    · rfl
    · exact hrules
  rw [Bool.eq_iff_iff, compatible_iff, hdemands]
  by_cases heq : listOf a = listOf b
  · obtain rfl : a = b := by simpa [listOf] using heq
    rw [if_pos rfl]
    refine iff_of_true ⟨[], rfl, by simp⟩ ?_
    rw [compatible_iff]
    refine ⟨[], ?_, by simp⟩
    unfold demands
    simp [ha]
  · rw [if_neg heq]
    simp

/-! ## The claim -/

/-- What a position makes of a type that may be unknown. -/
def flows (types : TypeTable) (q : Ty) : Option Ty → Bool
  | none => true
  | some t => compatible types q t

/-- Every item flows into the items of the literal's type, which is not the bottom, and in every
order of the items the type flows into the same positions. -/
structure ListCovers (types : TypeTable) (ts : List Ty) : Prop where
  covers : ∀ item, inferList types (ts.map some) = listOf item → ∀ t ∈ ts,
    compatible types item t = true
  notBottom : ts ≠ [] → inferList types (ts.map some) ≠ listOf never
  order : ∀ ts' : List Ty, ts'.Perm ts → ∀ q, compatible types q (inferList types (ts'.map some)) =
    compatible types q (inferList types (ts.map some))

/-- The type of a match is unknown or every arm flows into it, and in every order of the arms it
flows into the same positions. -/
structure MatchCovers (types : TypeTable) (ts : List Ty) : Prop where
  covers : ∀ t₀, inferMatch types (ts.map some) = some t₀ → ∀ t ∈ ts, compatible types t₀ t = true
  order : ∀ ts' : List Ty, ts'.Perm ts → ∀ q, flows types q (inferMatch types (ts'.map some)) =
    flows types q (inferMatch types (ts.map some))

/-- Types that flow into the same positions. -/
def SamePositions (types : TypeTable) (a b : Ty) : Prop :=
  ∀ q, compatible types q a = compatible types q b

section Exact

variable {ts : List Ty} (hknown : ∀ t ∈ ts, Known t)
include hknown

theorem known_order {ts' : List Ty} (hperm : ts'.Perm ts) : ∀ t ∈ ts', Known t :=
  fun t ht => hknown t (hperm.subset ht)

theorem inferList_eq : inferList types (ts.map some) =
    match widest (compatible types) ts with
    | some item => listOf item
    | none => listOf never := by
  rw [inferList, accumulate_known hknown]

theorem listCovers_iff : ListCovers types ts ↔ ts = [] ∨
    Settled (compatible types) (fun a b => SamePositions types (listOf a) (listOf b)) ts := by
  have hrefl : ∀ t ∈ ts, compatible types t t = true := fun t ht => (hknown t ht).refl
  have hsame : ∀ a b, SamePositions types (listOf a) (listOf b) →
      ∀ t ∈ ts, compatible types t a = compatible types t b := by
    intro a b hab t ht
    have hne := (hknown t ht).bottom
    rw [← compatible_listOf (b := a) hne, ← compatible_listOf (b := b) hne]
    exact hab (listOf t)
  rw [← widest_iff (fun a b hab q => (hab q).symm) (fun a b c hab hbc q => (hab q).trans (hbc q))
    hsame hrefl]
  constructor
  · intro h
    refine or_iff_not_imp_left.mpr fun hne => ?_
    have hlist := @inferList_eq types _ hknown
    cases hkept : widest (compatible types) ts with
    | none =>
      rw [hkept] at hlist
      exact absurd hlist (h.notBottom hne)
    | some r =>
      rw [hkept] at hlist
      refine ⟨r, rfl, h.covers r hlist, fun ts' hperm => ?_⟩
      have horder := h.order ts' hperm
      rw [hlist, @inferList_eq types _ (known_order hknown hperm)] at horder
      cases hkept' : widest (compatible types) ts' with
      | none =>
        -- the bottom flows into a position that takes the bottom only
        rw [hkept'] at horder
        have hr := (hknown r (widest_mem hkept)).wildcard
        have hdemands : demands types (listOf never) (listOf r) = some [(never, r)] := by
          unfold demands
          have hne : never ≠ r := by
            rintro rfl
            cases hr
          rw [if_neg fun h => by simp [listOf] at h, if_neg (by simp [isWildcard, listOf]),
            if_neg fun h => by simp [listOf] at h, if_neg (by simpa [listOf] using hne)]
          simp [recordShapes, structuralFields, listOf, headRules, isFunctionHead]
        have hself : compatible types (listOf never) (listOf never) = true := by
          rw [compatible_iff]
          exact ⟨[], by simp [demands, listOf], by simp⟩
        have hbottom := (horder (listOf never)).symm.trans hself
        rw [compatible_iff] at hbottom
        obtain ⟨pairs, hpairs, hall⟩ := hbottom
        rw [hdemands, Option.some.injEq] at hpairs
        subst hpairs
        have := hall _ List.mem_cons_self
        rw [compatible_never hr] at this
        cases this
      | some r' =>
        rw [hkept'] at horder
        exact ⟨r', rfl, fun q => (horder q).symm⟩
  · rintro (rfl | ⟨r, hr, htop, horders⟩)
    · refine ⟨fun _ _ t ht => absurd ht List.not_mem_nil, fun hne => absurd rfl hne, ?_⟩
      intro ts' hperm q
      rw [hperm.eq_nil]
    · have hlist := @inferList_eq types _ hknown
      rw [hr] at hlist
      refine ⟨fun item hitem => ?_, fun _ hbottom => ?_, fun ts' hperm q => ?_⟩
      · rw [hlist] at hitem
        obtain rfl : r = item := by simpa [listOf] using hitem
        exact htop
      · rw [hlist] at hbottom
        obtain rfl : r = never := by simpa [listOf] using hbottom
        exact (hknown _ (widest_mem hr)).bottom rfl
      · obtain ⟨r', hr', hsame'⟩ := horders ts' hperm
        have hlist' := @inferList_eq types _ (known_order hknown hperm)
        rw [hr'] at hlist'
        rw [hlist, hlist']
        exact (hsame' q).symm

theorem inferMatch_eq : inferMatch types (ts.map some) = widest (compatible types) ts :=
  accumulate_known hknown

theorem matchCovers_iff : MatchCovers types ts ↔
    Settled (compatible types) (SamePositions types) ts ∨
      Even ts.length ∧ ts.Pairwise (Apart (compatible types)) := by
  have hrefl : ∀ t ∈ ts, compatible types t t = true := fun t ht => (hknown t ht).refl
  have hflows : ∀ {ts' : List Ty}, ts'.Perm ts → ∀ r, widest (compatible types) ts' = some r →
      flows types never (some r) = false := fun hperm r hr =>
    compatible_never (hknown r (hperm.subset (widest_mem hr))).wildcard
  have hsymm : ∀ a b, SamePositions types a b → SamePositions types b a := fun a b hab q =>
    (hab q).symm
  rw [← widest_iff hsymm (fun a b c hab hbc q => (hab q).trans (hbc q))
    (fun a b hab t _ => hab t) hrefl,
    ← widest_none_iff]
  constructor
  · intro h
    have hmatch := @inferMatch_eq types _ hknown
    have horders : ∀ order, order.Perm ts → ∀ q, flows types q (widest (compatible types) order) =
        flows types q (widest (compatible types) ts) := by
      intro order hperm q
      have := h.order order hperm q
      rwa [hmatch, @inferMatch_eq types _ (known_order hknown hperm)] at this
    cases hkept : widest (compatible types) ts with
    | none =>
      refine .inr fun order hperm => ?_
      cases hkept' : widest (compatible types) order with
      | none => rfl
      | some r' =>
        have := horders order hperm never
        rw [hkept, hkept', hflows hperm r' hkept'] at this
        cases this
    | some r =>
      refine .inl ⟨r, rfl, h.covers r (hmatch.trans hkept), fun order hperm => ?_⟩
      cases hkept' : widest (compatible types) order with
      | none =>
        have := horders order hperm never
        rw [hkept, hkept', hflows (List.Perm.refl _) r hkept] at this
        cases this
      | some r' =>
        refine ⟨r', rfl, fun q => ?_⟩
        have := horders order hperm q
        rw [hkept, hkept'] at this
        exact this.symm
  · rintro (⟨r, hr, htop, horders⟩ | hnone)
    · refine ⟨fun t₀ ht₀ => ?_, fun ts' hperm q => ?_⟩
      · rw [inferMatch_eq hknown, hr] at ht₀
        cases ht₀
        exact htop
      · obtain ⟨r', hr', hsame'⟩ := horders ts' hperm
        rw [inferMatch_eq hknown, inferMatch_eq (known_order hknown hperm), hr, hr']
        exact (hsame' q).symm
    · refine ⟨fun t₀ ht₀ => ?_, fun ts' hperm q => ?_⟩
      · rw [inferMatch_eq hknown, hnone ts (List.Perm.refl _)] at ht₀
        cases ht₀
      · rw [inferMatch_eq hknown, inferMatch_eq (known_order hknown hperm),
          hnone ts (List.Perm.refl _), hnone ts' hperm]

/-- **The exact conditions.** The type of a list literal covers its known items exactly when there
are none, or one of them accepts them all and each that accepts this one does too and flows into
the same positions. The type of a match does under the same condition, and where it is unknown in
every order: when the number of arms is even and no two accept each other. -/
theorem branches_exact :
    (ListCovers types ts ↔ ts = [] ∨
      Settled (compatible types) (fun a b => SamePositions types (listOf a) (listOf b)) ts) ∧
    (MatchCovers types ts ↔ Settled (compatible types) (SamePositions types) ts ∨
      Even ts.length ∧ ts.Pairwise (Apart (compatible types))) :=
  ⟨listCovers_iff hknown, matchCovers_iff hknown⟩

end Exact

/-! ## Scalars -/

def scalar (s : String) : Ty := .app (.name s) []

theorem known_scalar {s : String} (h : s ∈ ["Int", "Float", "Str", "Bool"]) : Known (scalar s) := by
  simp only [List.mem_cons, List.not_mem_nil, or_false] at h
  rcases h with rfl | rfl | rfl | rfl <;> exact ⟨rfl, by decide, by decide⟩

theorem compatible_of_demands {a b : Ty} (h : demands .empty a b = none) :
    compatible .empty a b = false := by
  rw [← Bool.not_eq_true, compatible_iff, h]
  simp

/-- An integer among floats is covered. -/
theorem branches_exact_widen : ListCovers .empty [scalar "Int", scalar "Float"] ∧
    MatchCovers .empty [scalar "Int", scalar "Float"] := by
  have hknown : ∀ t ∈ [scalar "Int", scalar "Float"], Known t := by
    intro t ht
    simp only [List.mem_cons, List.not_mem_nil, or_false] at ht
    rcases ht with rfl | rfl <;> exact known_scalar (by decide)
  have hfloat : compatible .empty (scalar "Float") (scalar "Int") = true := by
    rw [compatible_iff]
    exact ⟨[], by decide, by simp⟩
  have hint : compatible .empty (scalar "Int") (scalar "Float") = false :=
    compatible_of_demands (by decide)
  have hself : compatible .empty (scalar "Float") (scalar "Float") = true :=
    (known_scalar (by decide)).refl
  have haccepts : Accepts (compatible .empty) (scalar "Float") [scalar "Int", scalar "Float"] := by
    simp [Accepts, hfloat, hself]
  have hsettled : ∀ {same : Ty → Ty → Prop}, (∀ t, same t t) →
      Settled (compatible .empty) same [scalar "Int", scalar "Float"] := by
    refine fun hsame => ⟨scalar "Float", by simp, haccepts, fun t ht htfloat => ?_⟩
    simp only [List.mem_cons, List.not_mem_nil, or_false] at ht
    rcases ht with rfl | rfl
    · rw [hint] at htfloat
      cases htfloat
    · exact ⟨haccepts, hsame _⟩
  have hexact := @branches_exact .empty _ hknown
  exact ⟨hexact.1.mpr (.inr (hsettled fun _ _ => rfl)),
    hexact.2.mpr (.inl (hsettled fun _ _ => rfl))⟩

/-- `[1, "a", true]` is a `List[Bool]`, which its first item does not flow into, and so is the match
with such arms; `[1, "a"]` is the empty list's type. -/
theorem part_after_disagreement :
    (∀ t ∈ [scalar "Int", scalar "Str", scalar "Bool"], Known t) ∧
    inferList .empty [some (scalar "Int"), some (scalar "Str"), some (scalar "Bool")] =
      listOf (scalar "Bool") ∧
    inferMatch .empty [some (scalar "Int"), some (scalar "Str"), some (scalar "Bool")] =
      some (scalar "Bool") ∧
    compatible .empty (scalar "Bool") (scalar "Int") = false ∧
    inferList .empty [some (scalar "Int"), some (scalar "Str")] = listOf never := by
  have hjoin : join .empty (scalar "Int") (scalar "Str") = none := by
    rw [join, compatible_of_demands (by decide), compatible_of_demands (by decide)]
    rfl
  refine ⟨?_, ?_, ?_, compatible_of_demands (by decide), ?_⟩
  · intro t ht
    simp only [List.mem_cons, List.not_mem_nil, or_false] at ht
    rcases ht with rfl | rfl | rfl <;> exact known_scalar (by decide)
  · simp [inferList, accumulate, joinUnknown, hjoin]
  · simp [inferMatch, accumulate, joinUnknown, hjoin]
  · simp [inferList, accumulate, joinUnknown, hjoin]

end Revl.Typecheck
