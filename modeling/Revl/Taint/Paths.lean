import Revl.Taint.Walk

/-!
# The value of an expression along a path

What an execution does with the origins of its values, one path at a time, and when the walk holds
all of an expression's.

- `Value`: the origins a value holds, each at a path of fields.
- `valueOf`, `eventsOf`: the value of an expression, and what reaches the arguments of its calls.
- `plainExpr`: an expression of which the walk loses nothing.
- `valueOf_held`, `eventsOf_seen`: **what the walk computes for a plain expression holds its value
  and what reaches the arguments of its calls.**
-/

namespace Revl.TaintFlow

/-! ## Values -/

/-- The origins a value holds, each at a path of fields. -/
abbrev Value := List String → String → Prop

/-- A taint holds an origin at a path of fields. -/
def Covers : List String → Taint → String → Prop
  | [], t, o => o ∈ t.origins ∧ t.fields = []
  | f :: p, t, o => o ∈ t.origins ∧ ∀ t', Assoc.get? t.fields f = some t' → Covers p t' o

/-- A state of a path: the names in scope with what they hold, what reached the arguments of the
calls made so far, what was returned, whether the path has returned, and whether it did so with
steps still to come. -/
structure Path where
  scope : List String
  flows : String → Value
  refs : Refs
  reached : Nat → Target → Nat → String → Prop
  returned : String → Prop
  done : Bool
  cut : Bool

/-- Names bound inside an expression. -/
def Path.shadow (s : Path) (names : List String) (v : Value) : Path :=
  { s with
    scope := names ++ s.scope
    flows := fun x p o => if x ∈ names then v p o else s.flows x p o
    refs := fun x => if x ∈ names then none else s.refs x }

variable (c : Checker)

/-- What a call calls: a name in scope that is no reference of a callable holds a closure. -/
def Path.target (s : Path) (callee : String) (indirect : Bool) : Target :=
  if indirect = true ∧ callee ∈ s.scope ∧ s.refs callee = none then .unnamed
  else c.target s.refs callee indirect

def Path.siteTarget (s : Path) (callee : String) (indirect : Bool) (receiver : Option String) :
    Target :=
  match receiver.filter (· ∈ c.stateNames) with
  | some world => .world world
  | none => s.target c callee indirect

/-- What a named callee passes on of its arguments. -/
def summaryOf (callee : String) (endorse : Option String) (args : List Value) (o : String) :
    Prop :=
  match Assoc.get? c.sources callee with
  | some origin => o = origin
  | none =>
    if callee = "endorse" then
      ∃ origin, endorse = some origin ∧ o ≠ origin ∧ ∃ v, args.head? = some v ∧ ∃ p, v p o
    else if callee ∈ c.declassifiers then False
    else
      match Assoc.get? c.signatures callee with
      | some sig => o ∈ sig.mints ∨
        ∃ i ∈ sig.flowsToReturn, ∃ v, args[i]? = some v ∧ (∃ p, v p o) ∧ o ∉ sig.clearsOf i
      | none => ∃ v ∈ args, ∃ p, v p o

/-- The result of a call. A closure gives back what it captured. -/
def callValue (s : Path) (callee : String) (indirect : Bool) (receiver endorse : Option String)
    (args : List Value) : Value := fun p o =>
  match receiver.filter (· ∈ c.stateNames) with
  | some world =>
    Covers p ((Assoc.get? c.stateEnv world).getD clean) o ∨ ∃ v ∈ args, v p o
  | none =>
    p = [] ∧ (o ∈ (joinAll (c.carried callee)).origins ∨
      match s.target c callee indirect with
      | .unnamed => (∃ v ∈ args, ∃ q, v q o) ∨ ∃ q, s.flows callee q o
      | .named resolved => summaryOf c resolved endorse args o
      | .world _ => False)

mutual

/-- The value of an expression along a path. -/
def valueOf : Expr → Path → Value
  | .name name, s => s.flows name
  | .config field, _ => fun p o => Covers p (c.configTaint field) o
  | .literal, _ => fun _ _ => False
  | .call _ callee indirect receiver endorse args, s =>
    callValue c s callee indirect receiver endorse (valuesOf args s)
  | .record fields, s => fun p o =>
    ∃ f q v, p = f :: q ∧ Assoc.get? (fieldValues fields s) f = some v ∧ v q o
  | .field target name, s => fun p o =>
    valueOf target s (name :: p) o ∨ (p = [] ∧ valueOf target s [] o)
  | .endorse _, _ => fun _ _ => False
  -- a pattern binds what it matched
  | .matchOn scrutinee arms, s => fun p o =>
    ∃ v ∈ armValues arms s (valueOf scrutinee s), v p o
  -- a closure holds what it captured
  | .arrow params body, s => valueOf body (s.shadow params fun _ _ => False)
  | .parts children, s => fun p o => ∃ v ∈ valuesOf children s, v p o

def valuesOf : List Expr → Path → List Value
  | [], _ => []
  | e :: rest, s => valueOf e s :: valuesOf rest s

def fieldValues : List (String × Expr) → Path → List (String × Value)
  | [], _ => []
  | (name, e) :: rest, s => (name, valueOf e s) :: fieldValues rest s

def armValues : List (List String × Expr) → Path → Value → List Value
  | [], _, _ => []
  | (names, e) :: rest, s, v => valueOf e (s.shadow names v) :: armValues rest s v

end

mutual

/-- What reaches the arguments of the calls of an expression: at a call's label, with what it
calls, an origin at the position of an argument. -/
def eventsOf : Expr → Path → Nat → Target → Nat → String → Prop
  | .call label callee indirect receiver _ args, s => fun l t i o =>
    eventsIn args s l t i o ∨
      (l = label ∧ t = s.siteTarget c callee indirect receiver ∧
        ∃ v, (valuesOf c args s)[i]? = some v ∧ ∃ p, v p o)
  | .record fields, s => fieldEvents fields s
  | .field target _, s => eventsOf target s
  | .endorse expr, s => eventsOf expr s
  | .matchOn scrutinee arms, s => fun l t i o =>
    eventsOf scrutinee s l t i o ∨ armEvents arms s (valueOf c scrutinee s) l t i o
  | .arrow params body, s => eventsOf body (s.shadow params fun _ _ => False)
  | .parts children, s => eventsIn children s
  | .name _, _ => fun _ _ _ _ => False
  | .config _, _ => fun _ _ _ _ => False
  | .literal, _ => fun _ _ _ _ => False

def eventsIn : List Expr → Path → Nat → Target → Nat → String → Prop
  | [], _ => fun _ _ _ _ => False
  | e :: rest, s => fun l t i o => eventsOf e s l t i o ∨ eventsIn rest s l t i o

def fieldEvents : List (String × Expr) → Path → Nat → Target → Nat → String → Prop
  | [], _ => fun _ _ _ _ => False
  | (_, e) :: rest, s => fun l t i o => eventsOf e s l t i o ∨ fieldEvents rest s l t i o

def armEvents : List (List String × Expr) → Path → Value → Nat → Target → Nat → String → Prop
  | [], _, _ => fun _ _ _ _ => False
  | (names, e) :: rest, s, v => fun l t i o =>
    eventsOf e (s.shadow names v) l t i o ∨ armEvents rest s v l t i o

end

/-! ## Plain expressions -/

/-- A name that some step of the body binds to a reference of a callable. -/
abbrev RefNames := String → Prop

variable (R : RefNames)

/-- An arm that only gives back a name or a literal. -/
def bareArm : Expr → Bool
  | .name _ => true
  | .literal => true
  | _ => false

mutual

/-- A call by a name either calls a closure in scope, which the checker does not mistake for a
callable it knows, in a program with a sink, or calls no name the body binds. An arm that binds a
name gives back a name or a literal, and no parameter of a closure has the name of a reference. -/
def plainExpr : Expr → List String → Prop
  | .call _ callee indirect _ _ args, scope =>
    (indirect = true →
      (callee ∈ scope ∧ c.anySink = true ∧ c.unnameable callee = true) ∨
        (callee ∉ scope ∧ ¬ R callee)) ∧ plainAll args scope
  | .record fields, scope => plainFields fields scope
  | .field target _, scope => plainExpr target scope
  | .endorse expr, scope => plainExpr expr scope
  | .matchOn scrutinee arms, scope => plainExpr scrutinee scope ∧ plainArms arms scope
  | .arrow params body, scope => (∀ x ∈ params, ¬ R x) ∧ plainExpr body (params ++ scope)
  | .parts children, scope => plainAll children scope
  | .name _, _ => True
  | .config _, _ => True
  | .literal, _ => True

def plainAll : List Expr → List String → Prop
  | [], _ => True
  | e :: rest, scope => plainExpr e scope ∧ plainAll rest scope

def plainFields : List (String × Expr) → List String → Prop
  | [], _ => True
  | (_, e) :: rest, scope => plainExpr e scope ∧ plainFields rest scope

def plainArms : List (List String × Expr) → List String → Prop
  | [], _ => True
  | (names, e) :: rest, scope =>
    (bareArm e = true ∨ (names = [] ∧ plainExpr e scope)) ∧ plainArms rest scope

end

/-! ## What a taint holds -/

section Covers

variable {c R} {p : List String} {o : String} {a b t : Taint}

theorem origin_of_covers (h : Covers p t o) : o ∈ t.origins := by
  cases p with
  | nil => exact h.1
  | cons f p => exact h.1

theorem covers_flat (h : t.fields = []) (ho : o ∈ t.origins) : Covers p t o := by
  cases p with
  | nil => exact ⟨ho, h⟩
  | cons f p =>
    refine ⟨ho, fun t' ht' => ?_⟩
    rw [h] at ht'
    cases ht'

theorem covers_join_left (h : Covers p a o) : Covers p (join a b) o := by
  have ho := origin_of_covers h
  unfold join
  rw [if_neg (Finset.ne_empty_of_mem ho)]
  split
  · exact h
  · exact covers_flat rfl (Finset.mem_union_left _ ho)

theorem covers_join_right (h : Covers p b o) : Covers p (join a b) o := by
  have ho := origin_of_covers h
  unfold join
  split
  · exact h
  · rw [if_neg (Finset.ne_empty_of_mem ho)]
    exact covers_flat rfl (Finset.mem_union_right _ ho)

theorem covers_foldl (taints : List Taint) (acc : Taint)
    (h : Covers p acc o ∨ ∃ t ∈ taints, Covers p t o) : Covers p (taints.foldl join acc) o := by
  induction taints generalizing acc with
  | nil =>
    rcases h with h | ⟨t, ht, -⟩
    · exact h
    · cases ht
  | cons a rest ih =>
    refine ih _ ?_
    rcases h with h | ⟨t, ht, h⟩
    · exact .inl (covers_join_left h)
    · rcases List.mem_cons.mp ht with rfl | ht
      · exact .inl (covers_join_right h)
      · exact .inr ⟨t, ht, h⟩

theorem covers_joinAll {taints : List Taint} (ht : t ∈ taints) (h : Covers p t o) :
    Covers p (joinAll taints) o :=
  covers_foldl taints clean (.inr ⟨t, ht, h⟩)

theorem origins_foldl (fields : List (String × Taint)) (acc : Finset String)
    (h : o ∈ acc ∨ ∃ f ∈ fields, o ∈ f.2.origins) :
    o ∈ fields.foldl (fun origins f => origins ∪ f.2.origins) acc := by
  induction fields generalizing acc with
  | nil =>
    rcases h with h | ⟨f, hf, -⟩
    · exact h
    · cases hf
  | cons a rest ih =>
    refine ih _ ?_
    rcases h with h | ⟨f, hf, h⟩
    · exact .inl (Finset.mem_union_left _ h)
    · rcases List.mem_cons.mp hf with rfl | hf
      · exact .inl (Finset.mem_union_right _ h)
      · exact .inr ⟨f, hf, h⟩

theorem covers_record {fields : List (String × Taint)} {f : String}
    (hf : Assoc.get? fields f = some t) (h : Covers p t o) :
    Covers (f :: p) (recordTaint fields) o := by
  refine ⟨origins_foldl fields ∅ (.inr ⟨(f, t), Assoc.mem_of_get? hf, origin_of_covers h⟩),
    fun t' ht' => ?_⟩
  have heq : some t' = some t := ht'.symm.trans hf
  rw [Option.some.inj heq]
  exact h

theorem covers_readField {f : String} (h : Covers (f :: p) t o) : Covers p (readField t f) o := by
  unfold readField
  split
  · rename_i field hfield
    exact h.2 field hfield
  · exact covers_flat rfl h.1

theorem covers_readField_root {f : String} (h : Covers [] t o) : Covers [] (readField t f) o := by
  unfold readField
  rw [h.2]
  exact ⟨h.1, rfl⟩

theorem covers_passThrough {callee : String} (h : o ∈ t.origins) :
    Covers [] (passThrough callee t) o := by
  unfold passThrough
  rw [if_neg (Finset.ne_empty_of_mem h)]
  exact ⟨h, rfl⟩

/-- A walk computed an origin for the argument of a call. -/
def Seen (sites : List Site) (label : Nat) (target : Target) (i : Nat) (o : String) : Prop :=
  ∃ site ∈ sites, site.label = label ∧ site.target = target ∧
    ∃ t, site.args[i]? = some t ∧ o ∈ t.origins

/-- A value is held by a taint. -/
def Held (v : Value) (t : Taint) : Prop := ∀ p o, v p o → Covers p t o

theorem held_at {values : List Value} {taints : List Taint} (h : List.Forall₂ Held values taints)
    {i : Nat} {v : Value} (hv : values[i]? = some v) : ∃ t, taints[i]? = some t ∧ Held v t := by
  induction h generalizing i with
  | nil => cases hv
  | cons hhead _ ih =>
    cases i with
    | zero =>
      cases hv
      exact ⟨_, rfl, hhead⟩
    | succ i => exact ih hv

theorem held_mem {values : List Value} {taints : List Taint} (h : List.Forall₂ Held values taints)
    {v : Value} (hv : v ∈ values) : ∃ t ∈ taints, Held v t := by
  obtain ⟨i, hi⟩ := List.mem_iff_getElem?.mp hv
  obtain ⟨t, ht, hheld⟩ := held_at h hi
  exact ⟨t, List.mem_of_getElem? ht, hheld⟩

/-- What a signature lets through. -/
theorem mem_apply {sig : Signature} {callee : String} {args : List Taint}
    (h : o ∈ sig.mints ∨ ∃ i ∈ sig.flowsToReturn, ∃ t, args[i]? = some t ∧
      o ∈ t.origins ∧ o ∉ sig.clearsOf i) : Covers [] (sig.apply callee args) o := by
  have hfold : ∀ (flows : List Nat) (acc : Finset String × List String),
      (o ∈ acc.1 ∨ ∃ i ∈ flows, ∃ t, args[i]? = some t ∧ o ∈ t.origins ∧ o ∉ sig.clearsOf i) →
      o ∈ (flows.foldl (sig.contribute callee args) acc).1 := by
    intro flows
    induction flows with
    | nil =>
      rintro acc (hacc | ⟨i, hi, -⟩)
      · exact hacc
      · cases hi
    | cons index rest ih =>
      intro acc hacc
      refine ih _ ?_
      rcases hacc with hacc | ⟨i, hi, t, ht, ho, hclear⟩
      · left
        unfold Signature.contribute
        split
        · exact hacc
        · dsimp only
          split
          · exact hacc
          · exact Finset.mem_union_left _ hacc
      · rcases List.mem_cons.mp hi with rfl | hi
        · have hmem : o ∈ t.origins \ sig.clearsOf i := Finset.mem_sdiff.mpr ⟨ho, hclear⟩
          left
          unfold Signature.contribute
          rw [ht]
          dsimp only
          rw [if_neg (Finset.ne_empty_of_mem hmem)]
          exact Finset.mem_union_right _ hmem
        · exact .inr ⟨i, hi, t, ht, ho, hclear⟩
  have hmem := hfold sig.flowsToReturn
    (sig.mints, if sig.mints = ∅ then [] else [callee ++ "()"]) h
  unfold Signature.apply
  dsimp only
  rw [if_neg (Finset.ne_empty_of_mem hmem)]
  exact ⟨hmem, rfl⟩

theorem summary_covered {callee : String} {endorse : Option String} {values : List Value}
    {taints : List Taint} (hargs : List.Forall₂ Held values taints)
    (h : summaryOf c callee endorse values o) :
    Covers [] (c.namedResult callee endorse taints) o := by
  unfold summaryOf at h
  unfold Checker.namedResult
  cases hsource : Assoc.get? c.sources callee with
  | some origin =>
    rw [hsource] at h
    subst h
    exact ⟨Finset.mem_singleton_self _, rfl⟩
  | none =>
    rw [hsource] at h
    dsimp only at h ⊢
    by_cases hendorse : callee = "endorse"
    · rw [if_pos hendorse] at h ⊢
      obtain ⟨origin, rfl, hne, v, hv, p, hp⟩ := h
      have hv : values[0]? = some v := by rwa [List.head?_eq_getElem?] at hv
      obtain ⟨t, ht, hheld⟩ := held_at hargs hv
      have hhead : taints.head? = some t := by rwa [List.head?_eq_getElem?]
      have hmem : o ∈ t.origins.erase origin :=
        Finset.mem_erase.mpr ⟨hne, origin_of_covers (hheld p o hp)⟩
      unfold endorsed
      dsimp only
      rw [hhead, Option.getD_some, if_neg (Finset.ne_empty_of_mem hmem)]
      exact ⟨hmem, rfl⟩
    rw [if_neg hendorse] at h ⊢
    by_cases hdecl : callee ∈ c.declassifiers
    · rw [if_pos hdecl] at h
      exact h.elim
    rw [if_neg hdecl] at h ⊢
    cases hsig : Assoc.get? c.signatures callee with
    | some sig =>
      rw [hsig] at h
      refine mem_apply (h.imp_right ?_)
      rintro ⟨i, hi, v, hv, ⟨p, hp⟩, hclear⟩
      obtain ⟨t, ht, hheld⟩ := held_at hargs hv
      exact ⟨i, hi, t, ht, origin_of_covers (hheld p o hp), hclear⟩
    | none =>
      rw [hsig] at h
      obtain ⟨v, hv, p, hp⟩ := h
      obtain ⟨t, ht, hheld⟩ := held_mem hargs hv
      exact covers_passThrough (origin_of_covers (covers_joinAll ht (hheld p o hp)))

theorem covers_mintReload {callee : String} (h : Covers [] t o) :
    Covers [] (c.mintReload callee t) o := by
  unfold Checker.mintReload
  split
  · exact h
  · exact covers_join_left h

theorem covers_carried {callee : String} (h : o ∈ (joinAll (c.carried callee)).origins) :
    Covers [] (c.mintReload callee t) o := by
  unfold Checker.mintReload
  split
  · rename_i hempty
    rw [List.isEmpty_iff.mp hempty] at h
    cases h
  · exact covers_join_right ⟨h, rfl⟩

end Covers

/-! ## The walk and a path agree -/

/-- The walk holds what the names in scope hold, under the same function references. -/
structure Sim (w : Walk) (s : Path) : Prop where
  inScope : ∀ {x p o}, s.flows x p o → x ∈ s.scope
  held : ∀ {x p o}, s.flows x p o → Covers p (w.get x) o
  refs : ∀ {x}, x ∈ s.scope → s.refs x = w.refs x
  outside : ∀ {x}, x ∉ s.scope → s.refs x = none
  unref : ∀ {x}, ¬ R x → w.refs x = none

section Expr

variable {c R} {w : Walk} {s : Path}

/-- Names may be bound to what the walk holds for them. -/
theorem Sim.shadow (h : Sim R w s) {names : List String} (hnames : ∀ x ∈ names, ¬ R x) {v : Value}
    (hv : ∀ x ∈ names, Held v (w.get x)) : Sim R w (s.shadow names v) := by
  constructor
  · intro x p o hx
    by_cases hmem : x ∈ names
    · exact List.mem_append_left _ hmem
    · have hx : (if x ∈ names then v p o else s.flows x p o) := hx
      rw [if_neg hmem] at hx
      exact List.mem_append_right _ (h.inScope hx)
  · intro x p o hx
    have hx : (if x ∈ names then v p o else s.flows x p o) := hx
    by_cases hmem : x ∈ names
    · rw [if_pos hmem] at hx
      exact hv x hmem p o hx
    · rw [if_neg hmem] at hx
      exact h.held hx
  · intro x hx
    show (if x ∈ names then none else s.refs x) = w.refs x
    split
    · exact (h.unref (hnames x (by assumption))).symm
    · exact h.refs ((List.mem_append.mp hx).resolve_left (by assumption))
  · intro x hx
    show (if x ∈ names then none else s.refs x) = none
    rw [if_neg fun hmem => hx (List.mem_append_left _ hmem)]
    exact h.outside fun hmem => hx (List.mem_append_right _ hmem)
  · exact h.unref

theorem Sim.shadow_nil (h : Sim R w s) (v : Value) : Sim R w (s.shadow [] v) := by
  refine h.shadow (fun x hx => ?_) fun x hx => ?_
  · cases hx
  · cases hx

/-- A plain call calls the same along the path as the walk says. -/
theorem target_eq (h : Sim R w s) {callee : String} {indirect : Bool}
    (hplain : indirect = true →
      (callee ∈ s.scope ∧ c.anySink = true ∧ c.unnameable callee = true) ∨
        (callee ∉ s.scope ∧ ¬ R callee)) :
    s.target c callee indirect = c.target w.refs callee indirect := by
  cases indirect with
  | false =>
    unfold Path.target
    rw [if_neg (by simp)]
    rfl
  | true =>
    rcases hplain rfl with ⟨hscope, hsink, hname⟩ | ⟨hscope, href⟩
    · have heq := h.refs hscope
      unfold Path.target Checker.target
      cases hrefs : s.refs callee with
      | none =>
        rw [if_pos ⟨rfl, hscope, rfl⟩, ← heq, hrefs]
        simp [hsink, hname]
      | some f =>
        rw [if_neg (by simp), ← heq, hrefs]
    · have hnone := h.outside hscope
      unfold Path.target Checker.target
      rw [if_neg fun hand => hscope hand.2.1, hnone, h.unref href]

theorem siteTarget_eq (h : Sim R w s) {callee : String} {indirect : Bool}
    {receiver : Option String}
    (hplain : indirect = true →
      (callee ∈ s.scope ∧ c.anySink = true ∧ c.unnameable callee = true) ∨
        (callee ∉ s.scope ∧ ¬ R callee)) :
    s.siteTarget c callee indirect receiver = c.siteTarget w.refs callee indirect receiver := by
  unfold Path.siteTarget Checker.siteTarget
  cases receiver.filter (· ∈ c.stateNames) with
  | some world => rfl
  | none => exact target_eq h hplain

/-- **The result of a call is held** where its arguments are. -/
theorem callValue_held (h : Sim R w s) {callee : String} {indirect : Bool}
    {receiver endorse : Option String} {values : List Value} {taints : List Taint}
    (hargs : List.Forall₂ Held values taints)
    (hplain : indirect = true →
      (callee ∈ s.scope ∧ c.anySink = true ∧ c.unnameable callee = true) ∨
        (callee ∉ s.scope ∧ ¬ R callee)) :
    Held (callValue c s callee indirect receiver endorse values)
      (c.callTaint w.refs (w.get callee) callee indirect receiver endorse taints) := by
  intro p o hvalue
  unfold callValue at hvalue
  unfold Checker.callTaint
  cases hworld : receiver.filter (· ∈ c.stateNames) with
  | some world =>
    rw [hworld] at hvalue
    rcases hvalue with hstate | ⟨v, hv, hp⟩
    · exact covers_join_left hstate
    · obtain ⟨t, ht, hheld⟩ := held_mem hargs hv
      exact covers_join_right (covers_joinAll ht (hheld p o hp))
  | none =>
    rw [hworld] at hvalue
    obtain ⟨rfl, hcarried | hresult⟩ := hvalue
    · exact covers_carried hcarried
    · rw [target_eq h hplain] at hresult
      refine covers_mintReload ?_
      cases htarget : c.target w.refs callee indirect with
      | unnamed =>
        rw [htarget] at hresult
        refine covers_passThrough ?_
        rcases hresult with ⟨v, hv, q, hq⟩ | ⟨q, hq⟩
        · obtain ⟨t, ht, hheld⟩ := held_mem hargs hv
          exact origin_of_covers (covers_join_left (covers_joinAll ht (hheld q o hq)))
        · exact origin_of_covers (covers_join_right (h.held hq))
      | named resolved =>
        rw [htarget] at hresult
        exact summary_covered hargs hresult
      | world name =>
        rw [htarget] at hresult
        exact hresult.elim

mutual

/-- **The taint of a plain expression holds its value.** -/
theorem valueOf_held : ∀ (e : Expr) {s : Path}, Sim R w s → plainExpr c R e s.scope →
    Held (valueOf c e s) (taintOf c w e)
  | .name name, s, h, _ => fun p o hp => h.held hp
  | .config field, s, _, _ => fun p o hp => hp
  | .literal, s, _, _ => fun p o hp => hp.elim
  | .call _ callee indirect receiver endorse args, s, h, hplain => by
    rw [plainExpr] at hplain
    rw [valueOf, taintOf]
    exact callValue_held h (valuesOf_held args h hplain.2) hplain.1
  | .record fields, s, h, hplain => by
    rw [plainExpr] at hplain
    rw [valueOf, taintOf]
    rintro p o ⟨f, q, v, rfl, hget, hv⟩
    rcases fieldValues_held fields h hplain f with ⟨hnone, -⟩ | ⟨v', t, hget', ht, hheld⟩
    · rw [hnone] at hget
      cases hget
    · obtain rfl : v' = v := Option.some.inj (hget'.symm.trans hget)
      exact covers_record ht (hheld q o hv)
  | .field target name, s, h, hplain => by
    rw [plainExpr] at hplain
    rw [valueOf, taintOf]
    have hheld := valueOf_held target h hplain
    rintro p o (hp | ⟨rfl, hp⟩)
    · exact covers_readField (hheld _ o hp)
    · exact covers_readField_root (hheld _ o hp)
  | .endorse _, s, _, _ => by
    rw [valueOf]
    exact fun p o hp => hp.elim
  | .matchOn scrutinee arms, s, h, hplain => by
    rw [plainExpr] at hplain
    rw [valueOf, taintOf]
    rintro p o ⟨v, hv, hp⟩
    obtain ⟨t, ht, hheld⟩ := armValues_held arms h hplain.2 (valueOf_held scrutinee h hplain.1) hv
    exact covers_joinAll ht (hheld p o hp)
  | .arrow params body, s, h, hplain => by
    rw [plainExpr] at hplain
    rw [valueOf, taintOf]
    exact valueOf_held body (h.shadow hplain.1 fun _ _ _ _ hv => hv.elim) hplain.2
  | .parts children, s, h, hplain => by
    rw [plainExpr] at hplain
    rw [valueOf, taintOf]
    rintro p o ⟨v, hv, hp⟩
    obtain ⟨t, ht, hheld⟩ := held_mem (valuesOf_held children h hplain) hv
    exact covers_joinAll ht (hheld p o hp)

theorem valuesOf_held : ∀ (es : List Expr) {s : Path}, Sim R w s → plainAll c R es s.scope →
    List.Forall₂ Held (valuesOf c es s) (taintsOf c w es)
  | [], s, _, _ => .nil
  | e :: rest, s, h, hplain => by
    rw [plainAll] at hplain
    rw [valuesOf, taintsOf]
    exact .cons (valueOf_held e h hplain.1) (valuesOf_held rest h hplain.2)

theorem fieldValues_held : ∀ (fields : List (String × Expr)) {s : Path}, Sim R w s →
    plainFields c R fields s.scope → ∀ f : String,
    (Assoc.get? (fieldValues c fields s) f = none ∧ Assoc.get? (fieldTaints c w fields) f = none) ∨
      ∃ v t, Assoc.get? (fieldValues c fields s) f = some v ∧
        Assoc.get? (fieldTaints c w fields) f = some t ∧ Held v t
  | [], s, _, _, f => .inl ⟨rfl, rfl⟩
  | (name, e) :: rest, s, h, hplain, f => by
    rw [plainFields] at hplain
    rw [fieldValues, fieldTaints, Assoc.get?_cons, Assoc.get?_cons]
    rcases fieldValues_held rest h hplain.2 f with ⟨hv, ht⟩ | ⟨v, t, hv, ht, hheld⟩
    · rw [hv, ht, Option.none_or, Option.none_or]
      by_cases hname : name = f
      · rw [if_pos hname, if_pos hname]
        exact .inr ⟨_, _, rfl, rfl, valueOf_held e h hplain.1⟩
      · rw [if_neg hname, if_neg hname]
        exact .inl ⟨rfl, rfl⟩
    · rw [hv, ht]
      exact .inr ⟨v, t, rfl, rfl, hheld⟩

theorem armValues_held : ∀ (arms : List (List String × Expr)) {s : Path}, Sim R w s →
    plainArms c R arms s.scope → ∀ {payload v : Value} {tp : Taint}, Held payload tp →
    v ∈ armValues c arms s payload → ∃ t ∈ tp :: armTaints c w arms, Held v t
  | [], s, _, _, payload, v, tp, _, hv => by cases hv
  | (names, e) :: rest, s, h, hplain, payload, v, tp, hpayload, hv => by
    rw [plainArms] at hplain
    rw [armValues] at hv
    rw [armTaints]
    rcases List.mem_cons.mp hv with rfl | hv
    · rcases hplain.1 with hbare | ⟨rfl, he⟩
      · -- the arm gives back what it matched, or what a name outside holds
        cases e with
        | name x =>
          by_cases hx : x ∈ names
          · refine ⟨tp, List.mem_cons_self, fun p o hp => hpayload p o ?_⟩
            have hp : (if x ∈ names then payload p o else s.flows x p o) := hp
            rwa [if_pos hx] at hp
          · refine ⟨w.get x, List.mem_cons_of_mem _ List.mem_cons_self, fun p o hp => h.held ?_⟩
            have hp : (if x ∈ names then payload p o else s.flows x p o) := hp
            rwa [if_neg hx] at hp
        | literal => exact ⟨tp, List.mem_cons_self, fun p o hp => hp.elim⟩
        | _ => cases hbare
      · exact ⟨_, List.mem_cons_of_mem _ List.mem_cons_self,
          valueOf_held e (h.shadow_nil payload) he⟩
    · obtain ⟨t, ht, hheld⟩ := armValues_held rest h hplain.2 hpayload hv
      refine ⟨t, ?_, hheld⟩
      rcases List.mem_cons.mp ht with rfl | ht
      · exact List.mem_cons_self
      · exact List.mem_cons_of_mem _ (List.mem_cons_of_mem _ ht)

end

theorem Seen.mono {sites more : List Site} {l : Nat} {t : Target} {i : Nat} {o : String}
    (h : Seen sites l t i o) (hsub : ∀ site ∈ sites, site ∈ more) : Seen more l t i o := by
  obtain ⟨site, hsite, hrest⟩ := h
  exact ⟨site, hsub site hsite, hrest⟩

theorem Seen.left {sites : List Site} {l : Nat} {t : Target} {i : Nat} {o : String}
    (h : Seen sites l t i o) (more : List Site) : Seen (sites ++ more) l t i o :=
  h.mono fun _ => List.mem_append_left _

theorem Seen.right {sites : List Site} {l : Nat} {t : Target} {i : Nat} {o : String}
    (h : Seen sites l t i o) (before : List Site) : Seen (before ++ sites) l t i o :=
  h.mono fun _ => List.mem_append_right _

mutual

/-- **What reaches an argument of a plain expression's calls is in what the walk computed for
it.** -/
theorem eventsOf_seen : ∀ (e : Expr) {s : Path}, Sim R w s → plainExpr c R e s.scope →
    ∀ {l t i o}, eventsOf c e s l t i o → Seen (sitesOf c w e) l t i o
  | .call label callee indirect receiver endorse args, s, h, hplain, l, t, i, o, hevent => by
    rw [plainExpr] at hplain
    rw [sitesOf]
    rcases hevent with hin | ⟨rfl, rfl, v, hv, p, hp⟩
    · exact (eventsIn_seen args h hplain.2 hin).left _
    · obtain ⟨t, ht, hheld⟩ := held_at (valuesOf_held args h hplain.2) hv
      refine Seen.right ⟨_, List.mem_singleton_self _, rfl, ?_, t, ht, ?_⟩ _
      · exact (siteTarget_eq h hplain.1).symm
      · exact origin_of_covers (hheld p o hp)
  | .record fields, s, h, hplain, l, t, i, o, hevent => by
    rw [plainExpr] at hplain
    rw [sitesOf]
    exact fieldEvents_seen fields h hplain hevent
  | .field target _, s, h, hplain, l, t, i, o, hevent => by
    rw [plainExpr] at hplain
    rw [sitesOf]
    exact eventsOf_seen target h hplain hevent
  | .endorse expr, s, h, hplain, l, t, i, o, hevent => by
    rw [plainExpr] at hplain
    rw [sitesOf]
    exact eventsOf_seen expr h hplain hevent
  | .matchOn scrutinee arms, s, h, hplain, l, t, i, o, hevent => by
    rw [plainExpr] at hplain
    rw [sitesOf]
    rcases hevent with hevent | hevent
    · exact (eventsOf_seen scrutinee h hplain.1 hevent).left _
    · exact (armEvents_seen arms h hplain.2 hevent).right _
  | .arrow params body, s, h, hplain, l, t, i, o, hevent => by
    rw [plainExpr] at hplain
    rw [sitesOf]
    exact eventsOf_seen body (h.shadow hplain.1 fun _ _ _ _ hv => hv.elim) hplain.2 hevent
  | .parts children, s, h, hplain, l, t, i, o, hevent => by
    rw [plainExpr] at hplain
    rw [sitesOf]
    exact eventsIn_seen children h hplain hevent
  | .name _, s, _, _, l, t, i, o, hevent => hevent.elim
  | .config _, s, _, _, l, t, i, o, hevent => hevent.elim
  | .literal, s, _, _, l, t, i, o, hevent => hevent.elim

theorem eventsIn_seen : ∀ (es : List Expr) {s : Path}, Sim R w s → plainAll c R es s.scope →
    ∀ {l t i o}, eventsIn c es s l t i o → Seen (sitesIn c w es) l t i o
  | [], s, _, _, l, t, i, o, hevent => hevent.elim
  | e :: rest, s, h, hplain, l, t, i, o, hevent => by
    rw [plainAll] at hplain
    rw [sitesIn]
    rcases hevent with hevent | hevent
    · exact (eventsOf_seen e h hplain.1 hevent).left _
    · exact (eventsIn_seen rest h hplain.2 hevent).right _

theorem fieldEvents_seen : ∀ (fields : List (String × Expr)) {s : Path}, Sim R w s →
    plainFields c R fields s.scope →
    ∀ {l t i o}, fieldEvents c fields s l t i o → Seen (fieldSites c w fields) l t i o
  | [], s, _, _, l, t, i, o, hevent => hevent.elim
  | (name, e) :: rest, s, h, hplain, l, t, i, o, hevent => by
    rw [plainFields] at hplain
    rw [fieldSites]
    rcases hevent with hevent | hevent
    · exact (eventsOf_seen e h hplain.1 hevent).left _
    · exact (fieldEvents_seen rest h hplain.2 hevent).right _

theorem armEvents_seen : ∀ (arms : List (List String × Expr)) {s : Path}, Sim R w s →
    plainArms c R arms s.scope → ∀ {payload : Value} {l t i o},
    armEvents c arms s payload l t i o → Seen (armSites c w arms) l t i o
  | [], s, _, _, payload, l, t, i, o, hevent => hevent.elim
  | (names, e) :: rest, s, h, hplain, payload, l, t, i, o, hevent => by
    rw [plainArms] at hplain
    rw [armSites]
    rcases hevent with hevent | hevent
    · rcases hplain.1 with hbare | ⟨rfl, he⟩
      · cases e with
        | name x => exact hevent.elim
        | literal => exact hevent.elim
        | _ => cases hbare
      · exact (eventsOf_seen e (h.shadow_nil payload) he hevent).left _
    · exact (armEvents_seen rest h hplain.2 hevent).right _

end

end Expr

end Revl.TaintFlow
