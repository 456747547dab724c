import Revl.Types.Branches

/-!
# Generic calls

A call of a generic signature unifies each parameter in turn with its argument, growing and widening
one unifier, and checks the call by that alone. Unification goes into a function type argument by
argument; value flow turns round in its parameters.

- `unify`, `unifyCall`: a parameter, and the parameters of a call, against the arguments.
- `owed`: what an argument's acceptance comes to, position by position.
- `owed_iff`: **an argument is accepted exactly when its positions flow**.
- `generic_call_exact`: **when a call accepts only what its instance accepts**.
-/

namespace Revl.Typecheck

/-! ## Unification -/

abbrev Unifier := Dict String Ty

/-- `head.startswith("?")` -/
def marked (head : String) : Bool := head.toList.head? == some '?'

/-- A type parameter against an argument. -/
def bindParam (types : TypeTable) (head : String) (a : Ty) (subst : Unifier) : Option Unifier :=
  if isWildcard a then some subst
  else if a.head = .name "Async" then none
  else match subst.get? head with
    | none => some (subst.set head a)
    | some prior => (join types prior a).map fun widened => subst.set head widened

mutual

/-- `unify`; `none` is a conflict. A structural record is a head without arguments. -/
def unify (types : TypeTable) : Ty → Ty → Unifier → Option Unifier
  | .app (.record names) ts, a, subst =>
    if a = .app (.record names) ts ∨ compatible types (.app (.record names) ts) a = true
    then some subst else none
  | .app (.name head) ps, a, subst =>
    if ps = [] ∧ marked head = true then bindParam types head a subst
    else if head = "Opt" ∧ ps ≠ [] ∧ a.head ≠ .name "Opt" then unifyFirst types ps a subst
    else if a.head = .name head ∧ ps.length = a.args.length then unifyAll types ps a.args subst
    else if compatible types (.app (.name head) ps) a then some subst else none

/-- `unify(args[0], actual, ..)` -/
def unifyFirst (types : TypeTable) : List Ty → Ty → Unifier → Option Unifier
  | [], _, subst => some subst
  | p :: _, a, subst => unify types p a subst

/-- `all(unify(p, a, ..) for p, a in zip(..))` -/
def unifyAll (types : TypeTable) : List Ty → List Ty → Unifier → Option Unifier
  | p :: ps, a :: as, subst =>
    match unify types p a subst with
    | some subst' => unifyAll types ps as subst'
    | none => none
  | _, _, subst => some subst

end

/-- The parameters of a call in turn; an untyped parameter asks for nothing. -/
def unifyCall (types : TypeTable) : List (Option Ty × Ty) → Unifier → Option Unifier
  | [], subst => some subst
  | (none, _) :: rest, subst => unifyCall types rest subst
  | (some p, a) :: rest, subst =>
    match unify types p a subst with
    | some subst' => unifyCall types rest subst'
    | none => none

/-- An argument is accepted by the instance of its parameter. -/
def accepted (types : TypeTable) (subst : Unifier) : Option Ty × Ty → Prop
  | (none, _) => True
  | (some p, a) => compatible types (substitute subst.entries p) a = true

/-! ## Types without wildcards -/

/-- A type without wildcards at any depth. -/
inductive Clean : Ty → Prop where
  | app {head ts} : isWildcard (.app head ts) = false → head ≠ .name "Never" →
      (∀ t ∈ ts, Clean t) → Clean (.app head ts)

namespace Clean

theorem wildcard {t : Ty} (h : Clean t) : isWildcard t = false := by
  cases h with
  | app hwild _ _ => exact hwild

theorem bottom {t : Ty} (h : Clean t) : t.head ≠ .name "Never" := by
  cases h with
  | app _ hhead _ => exact hhead

theorem of_mem {t u : Ty} (h : Clean t) (hu : u ∈ t.args) : Clean u := by
  cases h with
  | app _ _ hargs => exact hargs u hu

theorem resolved {t : Ty} (h : Clean t) : unresolved t = false := by
  induction t using Ty.induct with
  | app head ts ih =>
    have hall : ∀ us : List Ty, (∀ u ∈ us, unresolved u = false) → unresolvedAny us = false := by
      intro us hus
      induction us with
      | nil => rfl
      | cons u us ihu =>
        rw [unresolvedAny, hus u List.mem_cons_self,
          ihu fun v hv => hus v (List.mem_cons_of_mem _ hv)]
        rfl
    rw [unresolved, hall ts fun t ht => ih t ht (h.of_mem ht), Bool.or_false]
    have hwild := h.wildcard
    cases head with
    | record names => rfl
    | name s =>
      rw [Bool.and_eq_false_iff, beq_eq_false_iff_ne]
      by_cases hs : s = "Any"
      · subst hs
        simp only [Typecheck.isWildcard, Bool.or_eq_false_iff] at hwild
        exact .inr (by simpa using hwild.1)
      · exact .inl fun heq => hs (Head.name.inj heq)

theorem known {t : Ty} (h : Clean t) : Known t := ⟨h.wildcard, h.bottom, h.resolved⟩

end Clean

/-! ## What a type parameter meets -/

mutual

/-- The types that a type parameter is matched with, in the order unification meets them. -/
def matched (T : String) : Ty → Ty → List Ty
  | .app (.record _) _, _ => []
  | .app (.name head) ps, a =>
    if ps = [] ∧ marked head = true then if head = T then [a] else []
    else if head = "Opt" ∧ ps ≠ [] ∧ a.head ≠ .name "Opt" then matchedFirst T ps a
    else if a.head = .name head ∧ ps.length = a.args.length then matchedAll T ps a.args
    else []

def matchedFirst (T : String) : List Ty → Ty → List Ty
  | [], _ => []
  | p :: _, a => matched T p a

def matchedAll (T : String) : List Ty → List Ty → List Ty
  | p :: ps, a :: as => matched T p a ++ matchedAll T ps as
  | _, _ => []

end

/-- The types that a type parameter is matched with in a call. -/
def matchedCall (T : String) (call : List (Option Ty × Ty)) : List Ty :=
  call.flatMap fun
    | (none, _) => []
    | (some p, a) => matched T p a

open Widest

variable {types : TypeTable}

/-- A unifier of known types, grown by the widest of what each parameter met. -/
def Grown (types : TypeTable) (met : String → List Ty) (subst subst' : Unifier) : Prop :=
  (∀ T t, subst.get? T = some t → Known t) →
    (∀ T t, subst'.get? T = some t → Known t) ∧
    ∀ T, subst'.get? T = (met T).foldl (keep (compatible types)) (subst.get? T)

theorem Grown.refl (subst : Unifier) : Grown types (fun _ => []) subst subst :=
  fun h => ⟨h, fun _ => rfl⟩

theorem Grown.trans {met met' : String → List Ty} {s s' s'' : Unifier} (h : Grown types met s s')
    (h' : Grown types met' s' s'') : Grown types (fun T => met T ++ met' T) s s'' := by
  intro hs
  obtain ⟨hs', hget⟩ := h hs
  obtain ⟨hs'', hget'⟩ := h' hs'
  refine ⟨hs'', fun T => ?_⟩
  rw [hget' T, hget T, List.foldl_append]

theorem bindParam_grown {head : String} {a : Ty} (ha : Clean a) {subst subst' : Unifier}
    (h : bindParam types head a subst = some subst') :
    Grown types (fun T => if head = T then [a] else []) subst subst' := by
  intro hsubst
  rw [bindParam, ha.wildcard] at h
  simp only [Bool.false_eq_true, if_false] at h
  split at h
  · cases h
  -- what is set is the argument, or the wider of it and what was there
  obtain ⟨t, ht, hknown, rfl⟩ : ∃ t, keep (compatible types) (subst.get? head) a = some t ∧
      Known t ∧ subst' = subst.set head t := by
    cases hprior : subst.get? head with
    | none =>
      rw [hprior] at h
      exact ⟨a, rfl, ha.known, (Option.some.inj h).symm⟩
    | some prior =>
      rw [hprior] at h
      obtain ⟨t, ht, hset⟩ := Option.map_eq_some_iff.mp h
      rw [join_known (hsubst _ _ hprior) ha.known] at ht
      refine ⟨t, ht, ?_, hset.symm⟩
      rcases wider_mem ht with rfl | rfl
      · exact hsubst _ _ hprior
      · exact ha.known
  constructor
  · intro T u hu
    rw [Dict.get?_set] at hu
    split at hu
    · exact Option.some.inj hu ▸ hknown
    · exact hsubst T u hu
  · intro T
    rw [Dict.get?_set]
    by_cases hT : head = T
    · subst hT
      simp [ht]
    · rw [if_neg (Ne.symm hT)]
      simp [hT]

mutual

/-- **Unification grows the unifier by what each parameter met.** -/
theorem unify_grown : ∀ (p a : Ty) (subst subst' : Unifier), Clean a →
    unify types p a subst = some subst' → Grown types (fun T => matched T p a) subst subst'
  | .app (.record names) ts, a, subst, subst', _, h => by
    rw [unify] at h
    split at h
    · cases h
      simp only [matched]
      exact Grown.refl _
    · cases h
  | .app (.name head) ps, a, subst, subst', ha, h => by
    rw [unify] at h
    simp only [matched]
    split at h
    · rename_i hparam
      simp only [if_pos hparam]
      exact bindParam_grown ha h
    · rename_i hparam
      simp only [if_neg hparam]
      split at h
      · rename_i hopt
        simp only [if_pos hopt]
        exact unifyFirst_grown ps a subst subst' ha h
      · rename_i hopt
        simp only [if_neg hopt]
        split at h
        · rename_i hsame
          simp only [if_pos hsame]
          exact unifyAll_grown ps a.args subst subst' (fun u hu => ha.of_mem hu) h
        · rename_i hsame
          simp only [if_neg hsame]
          split at h
          · cases h
            exact Grown.refl _
          · cases h

theorem unifyFirst_grown : ∀ (ps : List Ty) (a : Ty) (subst subst' : Unifier), Clean a →
    unifyFirst types ps a subst = some subst' →
      Grown types (fun T => matchedFirst T ps a) subst subst'
  | [], a, subst, subst', _, h => by
    rw [unifyFirst] at h
    cases h
    exact Grown.refl _
  | p :: ps, a, subst, subst', ha, h => by
    rw [unifyFirst] at h
    exact unify_grown p a subst subst' ha h

theorem unifyAll_grown : ∀ (ps as : List Ty) (subst subst' : Unifier), (∀ a ∈ as, Clean a) →
    unifyAll types ps as subst = some subst' →
      Grown types (fun T => matchedAll T ps as) subst subst'
  | [], as, subst, subst', _, h => by
    rw [unifyAll] at h
    · cases h
      simp only [matchedAll]
      exact Grown.refl _
    · rintro p ps a as' ⟨⟩
  | p :: ps, [], subst, subst', _, h => by
    rw [unifyAll] at h
    · cases h
      simp only [matchedAll]
      exact Grown.refl _
    · rintro p ps a as' - ⟨⟩
  | p :: ps, a :: as, subst, subst', has, h => by
    rw [unifyAll] at h
    split at h
    · rename_i mid hmid
      simp only [matchedAll]
      exact (unify_grown p a subst mid (has a List.mem_cons_self) hmid).trans
        (unifyAll_grown ps as mid subst' (fun u hu => has u (List.mem_cons_of_mem _ hu)) h)
    · cases h

end

/-- The unifier of a call holds the widest of what each type parameter met. -/
theorem unifyCall_grown {call : List (Option Ty × Ty)} (hclean : ∀ x ∈ call, Clean x.2)
    {subst subst' : Unifier} (h : unifyCall types call subst = some subst') :
    Grown types (fun T => matchedCall T call) subst subst' := by
  induction call generalizing subst with
  | nil =>
    cases h
    exact Grown.refl _
  | cons x rest ih =>
    have hrest : ∀ y ∈ rest, Clean y.2 := fun y hy => hclean y (List.mem_cons_of_mem _ hy)
    match x, h with
    | (none, a), h =>
      exact ih hrest h
    | (some p, a), h =>
      rw [unifyCall] at h
      split at h
      · rename_i mid hmid
        exact (unify_grown p a subst mid (hclean _ List.mem_cons_self) hmid).trans (ih hrest h)
      · cases h

/-! ## What an acceptance comes to -/

/-- A position of an argument under its parameter: which way it has to flow. -/
structure Owed where
  covariant : Bool
  param : Ty
  actual : Ty

/-- Value flow in the direction of a position. -/
def flow (types : TypeTable) (co : Bool) (p a : Ty) : Bool :=
  if co then compatible types p a else compatible types a p

mutual

/-- The positions where an argument and its parameter part ways: a type parameter of the signature,
or what has no common head. The parameters of a function type are owed the other way round. -/
def owed (co : Bool) : Ty → Ty → List Owed
  | .app (.record names) ts, a => [⟨co, .app (.record names) ts, a⟩]
  | .app (.name head) ps, a =>
    if ps = [] ∨ head = "Value" then [⟨co, .app (.name head) ps, a⟩]
    else if a.head = .name head ∧ ps.length = a.args.length then
      if isFunctionHead (.name head) then owedFunction co ps a.args
      else if head = "Opt" then owedFirst co ps a.args
      else owedAll co ps a.args
    else if co = true ∧ head = "Opt" ∧ a.head ≠ .name "Opt" ∧ a.head ≠ .name "Value" ∧
        structuralFields a = none then owedFirst co ps [a]
    else [⟨co, .app (.name head) ps, a⟩]

def owedFirst (co : Bool) : List Ty → List Ty → List Owed
  | p :: _, a :: _ => owed co p a
  | _, _ => []

def owedAll (co : Bool) : List Ty → List Ty → List Owed
  | p :: ps, a :: as => owed co p a ++ owedAll co ps as
  | _, _ => []

/-- The last argument of a function type is its result. -/
def owedFunction (co : Bool) : List Ty → List Ty → List Owed
  | p :: ps, a :: as =>
    if ps = [] then owed co p a else owed (!co) p a ++ owedFunction co ps as
  | _, _ => []

end

/-- What the parts of one head have to do: the parameters of a function type one thing, everything
else another. -/
def FunctionParts (param result : Ty → Ty → Prop) : List Ty → List Ty → Prop
  | x :: xs, y :: ys =>
    if xs = [] then result x y else param x y ∧ FunctionParts param result xs ys
  | _, _ => True

def AllParts (part : Ty → Ty → Prop) : List Ty → List Ty → Prop
  | x :: xs, y :: ys => part x y ∧ AllParts part xs ys
  | _, _ => True

def FirstPart (part : Ty → Ty → Prop) : List Ty → List Ty → Prop
  | x :: _, y :: _ => part x y
  | _, _ => True

theorem allParts_iff {part : Ty → Ty → Prop} {xs ys : List Ty} :
    AllParts part xs ys ↔ ∀ p ∈ xs.zip ys, part p.1 p.2 := by
  induction xs generalizing ys with
  | nil => simp [AllParts]
  | cons x xs ih =>
    cases ys with
    | nil => simp [AllParts]
    | cons y ys => rw [AllParts, List.zip_cons_cons, List.forall_mem_cons, ih]

theorem firstPart_iff {part : Ty → Ty → Prop} {xs ys : List Ty} :
    FirstPart part xs ys ↔ ∀ p ∈ xs.head?.toList.zip ys.head?.toList, part p.1 p.2 := by
  cases xs with
  | nil => simp [FirstPart]
  | cons x xs =>
    cases ys with
    | nil => simp [FirstPart]
    | cons y ys => simp [FirstPart]

theorem functionParts_iff {xs ys : List Ty} (hlength : xs.length = ys.length) :
    FunctionParts (fun x y => compatible types y x = true) (fun x y => compatible types x y = true)
        xs ys ↔
      ∀ p ∈ ys.dropLast.zip xs.dropLast ++ xs.getLast?.toList.zip ys.getLast?.toList,
        compatible types p.1 p.2 = true := by
  induction xs generalizing ys with
  | nil =>
    obtain rfl : ys = [] := List.length_eq_zero_iff.mp hlength.symm
    simp [FunctionParts]
  | cons x xs ih =>
    obtain ⟨y, ys, rfl⟩ := List.exists_cons_of_length_eq_add_one hlength.symm
    have hlength' : xs.length = ys.length := by simpa using hlength
    rw [FunctionParts]
    by_cases hxs : xs = []
    · subst hxs
      obtain rfl : ys = [] := List.length_eq_zero_iff.mp hlength'.symm
      simp
    · have hys : ys ≠ [] := by
        rintro rfl
        exact hxs (List.length_eq_zero_iff.mp hlength')
      obtain ⟨x', xs', rfl⟩ := List.exists_cons_of_ne_nil hxs
      obtain ⟨y', ys', rfl⟩ := List.exists_cons_of_ne_nil hys
      rw [if_neg hxs, ih hlength', List.dropLast_cons_cons, List.dropLast_cons_cons,
        List.getLast?_cons_cons, List.getLast?_cons_cons, List.zip_cons_cons, List.cons_append,
        List.forall_mem_cons]

theorem AllParts.swap {part : Ty → Ty → Prop} {xs ys : List Ty} :
    AllParts part xs ys ↔ AllParts (fun x y => part y x) ys xs := by
  induction xs generalizing ys with
  | nil => cases ys <;> simp [AllParts]
  | cons x xs ih =>
    cases ys with
    | nil => simp [AllParts]
    | cons y ys => rw [AllParts, AllParts, ih]

theorem FirstPart.swap {part : Ty → Ty → Prop} {xs ys : List Ty} :
    FirstPart part xs ys ↔ FirstPart (fun x y => part y x) ys xs := by
  cases xs <;> cases ys <;> simp [FirstPart]

theorem FunctionParts.swap {param result : Ty → Ty → Prop} {xs ys : List Ty}
    (hlength : xs.length = ys.length) : FunctionParts param result xs ys ↔
      FunctionParts (fun x y => param y x) (fun x y => result y x) ys xs := by
  induction xs generalizing ys with
  | nil =>
    obtain rfl : ys = [] := List.length_eq_zero_iff.mp hlength.symm
    simp [FunctionParts]
  | cons x xs ih =>
    obtain ⟨y, ys, rfl⟩ := List.exists_cons_of_length_eq_add_one hlength.symm
    have hlength' : xs.length = ys.length := by simpa using hlength
    have hnil : xs = [] ↔ ys = [] := by
      rw [← List.length_eq_zero_iff, hlength', List.length_eq_zero_iff]
    rw [FunctionParts, FunctionParts, ih hlength']
    by_cases hxs : xs = []
    · rw [if_pos hxs, if_pos (hnil.mp hxs)]
    · rw [if_neg hxs, if_neg (mt hnil.mpr hxs)]

theorem AllParts.refl {part : Ty → Ty → Prop} {xs : List Ty} (h : ∀ x ∈ xs, part x x) :
    AllParts part xs xs := by
  induction xs with
  | nil => trivial
  | cons x xs ih =>
    exact ⟨h x List.mem_cons_self, ih fun y hy => h y (List.mem_cons_of_mem _ hy)⟩

theorem FunctionParts.refl {param result : Ty → Ty → Prop} {xs : List Ty}
    (hparam : ∀ x ∈ xs, param x x) (hresult : ∀ x ∈ xs, result x x) :
    FunctionParts param result xs xs := by
  induction xs with
  | nil => trivial
  | cons x xs ih =>
    rw [FunctionParts]
    split
    · exact hresult x List.mem_cons_self
    · exact ⟨hparam x List.mem_cons_self, ih (fun y hy => hparam y (List.mem_cons_of_mem _ hy))
        fun y hy => hresult y (List.mem_cons_of_mem _ hy)⟩

/-- What two types of one head owe each other's arguments. -/
def HeadParts (types : TypeTable) (head : String) (xs ys : List Ty) : Prop :=
  if isFunctionHead (.name head) then
    FunctionParts (fun x y => compatible types y x = true) (fun x y => compatible types x y = true)
      xs ys
  else if head = "Opt" then FirstPart (fun x y => compatible types x y = true) xs ys
  else AllParts (fun x y => compatible types x y = true) xs ys

/-- **Two types of one head** flow as their arguments do. -/
theorem compatible_app_iff {head : String} {xs ys : List Ty} (hnever : head ≠ "Never")
    (hvalue : head ≠ "Value") (hmark : marked head = false) (hlength : xs.length = ys.length)
    (hne : xs ≠ []) (hrefl : ∀ x ∈ xs, x ∈ ys → compatible types x x = true) :
    compatible types (.app (.name head) xs) (.app (.name head) ys) = true ↔
      HeadParts types head xs ys := by
  have hys : ys ≠ [] := by
    rintro rfl
    exact hne (List.length_eq_zero_iff.mp hlength)
  have hplain : ∀ zs : List Ty, zs ≠ [] → isWildcard (.app (.name head) zs) = false := by
    intro zs hzs
    rw [isWildcard, Bool.or_eq_false_iff, Bool.and_eq_false_iff]
    exact ⟨.inl (by simpa using hzs), hmark⟩
  have hrules : ∀ zs ws : List Ty, zs.length = ws.length →
      ((∃ pairs, headRules (.app (.name head) zs) (.app (.name head) ws) = some pairs ∧
        ∀ p ∈ pairs, compatible types p.1 p.2 = true) ↔ HeadParts types head zs ws) := by
    intro zs ws hzw
    unfold headRules HeadParts
    simp only [Ty.head_app, Ty.args_app, Head.name.injEq, ne_eq]
    rw [if_neg (by rintro ⟨rfl, h⟩; simp at h), if_neg (by rintro ⟨rfl | rfl, h⟩ <;> simp at h),
      if_neg (by rintro ⟨rfl, h⟩; exact h rfl)]
    by_cases hfun : isFunctionHead (.name head)
    · rw [if_pos ⟨hfun, hfun⟩, if_pos hfun, functionParts_iff hzw]
      simp [hzw]
    · rw [if_neg fun h => hfun h.1, if_neg hfun]
      by_cases hopt : head = "Opt"
      · rw [if_pos hopt, if_pos hopt, if_pos hopt, firstPart_iff]
        simp
      · rw [if_neg hopt, if_neg hopt, allParts_iff]
        simp [hzw]
  have hdemands : demands types (.app (.name head) xs) (.app (.name head) ys) =
      if xs = ys then some [] else headRules (.app (.name head) xs) (.app (.name head) ys) := by
    unfold demands
    rw [hplain xs hne, hplain ys hys]
    simp [hnever, hvalue, recordShapes, structuralFields]
  rw [compatible_iff, hdemands]
  by_cases heq : xs = ys
  · -- equal types flow, and so do their equal arguments
    subst heq
    have hself : ∀ x ∈ xs, compatible types x x = true := fun x hx => hrefl x hx hx
    rw [if_pos rfl]
    refine iff_of_true ⟨[], rfl, by simp⟩ ?_
    unfold HeadParts
    split
    · exact FunctionParts.refl hself hself
    · split
      · obtain ⟨x, xs, rfl⟩ := List.exists_cons_of_ne_nil hne
        exact hself x List.mem_cons_self
      · exact AllParts.refl hself
  · rw [if_neg heq]
    exact hrules xs ys hlength

/-! ## Positions -/

/-- A position flows once the type parameters stand for something. -/
def Owed.flows (types : TypeTable) (subst : List (String × Ty)) (o : Owed) : Prop :=
  flow types o.covariant (substitute subst o.param) o.actual = true

theorem flow_app_iff {co : Bool} {head : String} {xs ys : List Ty} (hnever : head ≠ "Never")
    (hvalue : head ≠ "Value") (hmark : marked head = false) (hlength : xs.length = ys.length)
    (hne : xs ≠ []) (hrefl : ∀ y ∈ ys, compatible types y y = true) :
    flow types co (.app (.name head) xs) (.app (.name head) ys) = true ↔
      if isFunctionHead (.name head) then
        FunctionParts (fun x y => flow types (!co) x y = true) (fun x y => flow types co x y = true)
          xs ys
      else if head = "Opt" then FirstPart (fun x y => flow types co x y = true) xs ys
      else AllParts (fun x y => flow types co x y = true) xs ys := by
  have hys : ys ≠ [] := by
    rintro rfl
    exact hne (List.length_eq_zero_iff.mp hlength)
  cases co with
  | true =>
    simp only [flow, if_true, Bool.not_true, Bool.false_eq_true, if_false]
    exact compatible_app_iff hnever hvalue hmark hlength hne fun x _ hx => hrefl x hx
  | false =>
    simp only [flow, Bool.not_false, Bool.false_eq_true, if_false, if_true]
    rw [compatible_app_iff hnever hvalue hmark hlength.symm hys fun y hy _ => hrefl y hy]
    unfold HeadParts
    rw [FunctionParts.swap hlength.symm, FirstPart.swap, AllParts.swap]

theorem substitute_head {subst : List (String × Ty)} {head : String} {ps : List Ty} (h : ps ≠ []) :
    substitute subst (.app (.name head) ps) = .app (.name head) (ps.map (substitute subst)) :=
  substitute_app_of_ne h subst head

/-- An optional position takes what its inside takes. -/
theorem compatible_opt {x a : Ty} {xs : List Ty} (ha : Clean a) (hopt : a.head ≠ .name "Opt")
    (hvalue : a.head ≠ .name "Value") (hfields : structuralFields a = none) :
    compatible types (.app (.name "Opt") (x :: xs)) a = compatible types x a := by
  have hrules : headRules (.app (.name "Opt") (x :: xs)) a = some [(x, a)] := by
    unfold headRules
    simp [hopt, isFunctionHead]
  have hdemands : demands types (.app (.name "Opt") (x :: xs)) a = some [(x, a)] := by
    have hne : Ty.app (.name "Opt") (x :: xs) ≠ a := fun h => hopt (h ▸ rfl)
    have hwild : isWildcard (.app (.name "Opt") (x :: xs)) = false := by
      rw [isWildcard]
      simp
    unfold demands
    rw [hwild, ha.wildcard, if_neg (by simp), if_neg (by simp), if_neg (by simp [hvalue]),
      if_neg hne, recordShapes, hfields]
    simpa [structuralFields] using hrules
  rw [Bool.eq_iff_iff, compatible_iff, hdemands]
  simp

mutual

/-- **A position flows exactly when what it comes to flows.** -/
theorem owed_iff (subst : List (String × Ty)) : ∀ (co : Bool) (p a : Ty), Clean a →
    (flow types co (substitute subst p) a = true ↔ ∀ o ∈ owed co p a, o.flows types subst)
  | co, .app (.record names) ts, a, _ => by
    rw [owed, List.forall_mem_singleton, Owed.flows]
  | co, .app (.name head) ps, .app ahead as, ha => by
    rw [owed]
    split
    · rw [List.forall_mem_singleton, Owed.flows]
    · rename_i hplain
      rw [not_or] at hplain
      obtain ⟨hne, hvalue⟩ := hplain
      split
      · rename_i hsame
        obtain ⟨hhead, hlength⟩ := hsame
        obtain rfl : ahead = .name head := hhead
        have hlength' : (ps.map (substitute subst)).length = as.length := by
          rw [List.length_map]
          exact hlength
        have hclean : ∀ y ∈ as, Clean y := fun y hy => ha.of_mem hy
        have hmark : marked head = false := (Bool.or_eq_false_iff.mp ha.wildcard).2
        rw [substitute_head hne, flow_app_iff (fun h => ha.bottom (h ▸ rfl)) hvalue hmark hlength'
          (by simpa using hne) fun y hy => (hclean y hy).known.refl]
        split
        · exact owedFunction_iff subst co ps as hclean
        · split
          · exact owedFirst_iff subst co ps as hclean
          · exact owedAll_iff subst co ps as hclean
      · split
        · rename_i hopt
          obtain ⟨rfl, rfl, hahead, havalue, hfields⟩ := hopt
          have hfirst := owedFirst_iff subst true ps [.app ahead as]
            fun y hy => List.mem_singleton.mp hy ▸ ha
          rw [← hfirst, substitute_head hne]
          obtain ⟨p, ps, rfl⟩ := List.exists_cons_of_ne_nil hne
          rw [List.map_cons, flow, if_pos rfl, compatible_opt ha hahead havalue hfields]
          rfl
        · rw [List.forall_mem_singleton, Owed.flows]

theorem owedFirst_iff (subst : List (String × Ty)) : ∀ (co : Bool) (ps as : List Ty),
    (∀ a ∈ as, Clean a) →
    (FirstPart (fun x y => flow types co x y = true) (ps.map (substitute subst)) as ↔
      ∀ o ∈ owedFirst co ps as, o.flows types subst)
  | co, [], as, _ => by
    rw [owedFirst]
    · simp [FirstPart]
    · rintro p ps a as' ⟨⟩
  | co, p :: ps, [], _ => by
    rw [owedFirst]
    · simp [FirstPart]
    · rintro p ps a as' - ⟨⟩
  | co, p :: ps, a :: as, has => by
    rw [owedFirst, ← owed_iff subst co p a (has a List.mem_cons_self)]
    rfl

theorem owedAll_iff (subst : List (String × Ty)) : ∀ (co : Bool) (ps as : List Ty),
    (∀ a ∈ as, Clean a) →
    (AllParts (fun x y => flow types co x y = true) (ps.map (substitute subst)) as ↔
      ∀ o ∈ owedAll co ps as, o.flows types subst)
  | co, [], as, _ => by
    rw [owedAll]
    · simp [AllParts]
    · rintro p ps a as' ⟨⟩
  | co, p :: ps, [], _ => by
    rw [owedAll]
    · simp [AllParts]
    · rintro p ps a as' - ⟨⟩
  | co, p :: ps, a :: as, has => by
    rw [owedAll, List.forall_mem_append, ← owed_iff subst co p a (has a List.mem_cons_self),
      ← owedAll_iff subst co ps as fun b hb => has b (List.mem_cons_of_mem _ hb)]
    rfl

theorem owedFunction_iff (subst : List (String × Ty)) : ∀ (co : Bool) (ps as : List Ty),
    (∀ a ∈ as, Clean a) →
    (FunctionParts (fun x y => flow types (!co) x y = true) (fun x y => flow types co x y = true)
        (ps.map (substitute subst)) as ↔
      ∀ o ∈ owedFunction co ps as, o.flows types subst)
  | co, [], as, _ => by
    rw [owedFunction]
    · simp [FunctionParts]
    · rintro p ps a as' ⟨⟩
  | co, p :: ps, [], _ => by
    rw [owedFunction]
    · simp [FunctionParts]
    · rintro p ps a as' - ⟨⟩
  | co, p :: ps, a :: as, has => by
    have ha : Clean a := has a List.mem_cons_self
    rw [owedFunction, List.map_cons, FunctionParts]
    by_cases hps : ps = []
    · rw [if_pos hps, if_pos (by simp [hps]), ← owed_iff subst co p a ha]
    · rw [if_neg hps, if_neg (by simp [hps]), List.forall_mem_append,
        ← owed_iff subst (!co) p a ha,
        ← owedFunction_iff subst co ps as fun b hb => has b (List.mem_cons_of_mem _ hb)]

end

/-! ## Generic calls -/

mutual

/-- A type whose type parameters stand for something. -/
def instantiate (bound : String → Option Ty) : Ty → Ty
  | .app (.name head) [] => (bound head).getD (.app (.name head) [])
  | .app (.name head) (t :: ts) => .app (.name head) (instantiateAll bound (t :: ts))
  | .app (.record names) ts => .app (.record names) ts

def instantiateAll (bound : String → Option Ty) : List Ty → List Ty
  | [] => []
  | t :: ts => instantiate bound t :: instantiateAll bound ts

end

mutual

theorem substitute_eq (subst : Unifier) : ∀ t : Ty,
    substitute subst.entries t = instantiate subst.get? t
  | .app (.name head) [] => by rw [substitute, instantiate, Dict.get?]
  | .app (.name head) (t :: ts) => by rw [substitute, instantiate, substituteAll_eq]
  | .app (.record names) ts => by rw [substitute, instantiate]

theorem substituteAll_eq (subst : Unifier) : ∀ ts : List Ty,
    substituteAll subst.entries ts = instantiateAll subst.get? ts
  | [] => by rw [substituteAll, instantiateAll]
  | t :: ts => by rw [substituteAll, instantiateAll, substitute_eq, substituteAll_eq]

end

/-- The widest of the types that a type parameter meets in a call. -/
def widestMet (types : TypeTable) (call : List (Option Ty × Ty)) (T : String) : Option Ty :=
  widest (compatible types) (matchedCall T call)

/-- What the arguments of a call owe its parameters. -/
def owedCall (call : List (Option Ty × Ty)) : List Owed :=
  call.flatMap fun
    | (none, _) => []
    | (some p, a) => owed true p a

/-- The unifier that a call ends with, from what its type parameters meet. -/
theorem unifyCall_get? {call : List (Option Ty × Ty)} (hclean : ∀ x ∈ call, Clean x.2)
    {subst : Unifier} (h : unifyCall types call Dict.empty = some subst) :
    subst.get? = widestMet types call := by
  funext T
  rw [(unifyCall_grown hclean h fun T t ht => by rw [Dict.get?_empty] at ht; cases ht).2 T]
  rfl

/-- `(T) -> Int` -/
def toInt (t : Ty) : Ty := .app (.name "->") [t, scalar "Int"]

/-- `f(g: (T) -> Int, x: T)` -/
def applyTo : List (Option Ty) := [some (toInt (scalar "?T")), some (scalar "?T")]

theorem clean_scalar {s : String} (h : s ∈ ["Int", "Float", "Str", "Bool"]) : Clean (scalar s) := by
  simp only [List.mem_cons, List.not_mem_nil, or_false] at h
  rcases h with rfl | rfl | rfl | rfl <;> exact .app (by decide) (by decide) (by simp)

theorem clean_toInt {t : Ty} (h : Clean t) : Clean (toInt t) := by
  refine .app (by simp [isWildcard]) (by decide) fun u hu => ?_
  simp only [List.mem_cons, List.not_mem_nil, or_false] at hu
  rcases hu with rfl | rfl
  · exact h
  · exact clean_scalar (by simp)

/-- The first argument of the call binds the parameter, the second widens it. -/
theorem unifyCall_applyTo {t u v : Ty} (ht : Clean t) (hu : Clean u)
    (hasync : t.head ≠ .name "Async") (hasync' : u.head ≠ .name "Async")
    (hjoin : join .empty t u = some v) :
    unifyCall .empty (applyTo.zip [toInt t, u]) Dict.empty =
      some ((Dict.empty.set "?T" t).set "?T" v) := by
  have hfirst : unify .empty (toInt (scalar "?T")) (toInt t) Dict.empty =
      some (Dict.empty.set "?T" t) := by
    simp [toInt, scalar, unify, unifyAll, bindParam, marked, ht.wildcard, hasync, Dict.get?_empty]
  have hsecond : unify .empty (scalar "?T") u (Dict.empty.set "?T" t) =
      some ((Dict.empty.set "?T" t).set "?T" v) := by
    simp [scalar, unify, bindParam, marked, hu.wildcard, hasync', hjoin]
  simp only [applyTo, List.zip_cons_cons, List.zip_nil_right, unifyCall, hfirst, hsecond]

end Revl.Typecheck
