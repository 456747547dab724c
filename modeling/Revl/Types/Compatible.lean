import Revl.Lib.Dict

/-!
# Value flow between types

`compatible` decides whether a value of one type may flow into a position of another: numeric
widening, option injection, async coercion, function variance, elementwise arguments, and the
fields of a structural record against a declared one.

- `Ty`, `TypeTable`: types as they are parsed, and the declared records.
- `demands`: the calls one call of `compatible` makes.
- `compatible`, `join`: value flow and the common type of two branches.
- `Closed`, `Flow`: types without wildcards, and the rules between them.
-/

namespace Revl.Typecheck

/-- The head of a type: a name, or the field names of a structural record. -/
inductive Head where
  | name (s : String)
  | record (names : List String)
  deriving DecidableEq

/-- A type as `parse_type` reads it. A function type is `->` on its parameters and result, and a
structural record is its field names on their types. -/
inductive Ty where
  | app (head : Head) (args : List Ty)

namespace Ty

def head : Ty → Head
  | .app h _ => h

def args : Ty → List Ty
  | .app _ ts => ts

@[simp] theorem head_app (h : Head) (ts : List Ty) : (app h ts).head = h := rfl

@[simp] theorem args_app (h : Head) (ts : List Ty) : (app h ts).args = ts := rfl

/-! ### Decidable equality -/

mutual

def beq : Ty → Ty → Bool
  | .app h ts, .app h' us => h == h' && beqAll ts us

def beqAll : List Ty → List Ty → Bool
  | [], [] => true
  | t :: ts, u :: us => beq t u && beqAll ts us
  | _, _ => false

end

mutual

theorem beq_iff : ∀ t u : Ty, beq t u = true ↔ t = u
  | .app h ts, .app h' us => by
    rw [beq, Bool.and_eq_true, beq_iff_eq, beqAll_iff ts us, Ty.app.injEq]

theorem beqAll_iff : ∀ ts us : List Ty, beqAll ts us = true ↔ ts = us
  | [], us => by cases us <;> simp [beqAll]
  | t :: ts, us => by
    cases us with
    | nil => simp [beqAll]
    | cons u us => rw [beqAll, Bool.and_eq_true, beq_iff t u, beqAll_iff ts us, List.cons.injEq]

end

instance : DecidableEq Ty := fun t u => decidable_of_iff (beq t u = true) (beq_iff t u)

/-! ### Nesting of structural records -/

mutual

def depth : Ty → Nat
  | .app (.name _) ts => depthAll ts
  | .app (.record _) ts => depthAll ts + 1

def depthAll : List Ty → Nat
  | [] => 0
  | t :: ts => max t.depth (depthAll ts)

end

theorem depthAll_le_iff {ts : List Ty} {n : Nat} : depthAll ts ≤ n ↔ ∀ t ∈ ts, t.depth ≤ n := by
  induction ts with
  | nil => simp [depthAll]
  | cons t ts ih => simp [depthAll, ih]

theorem depth_le_depthAll {t : Ty} {ts : List Ty} (h : t ∈ ts) : t.depth ≤ depthAll ts :=
  depthAll_le_iff.mp le_rfl t h

theorem depthAll_le_depth (h : Head) (ts : List Ty) : depthAll ts ≤ (Ty.app h ts).depth := by
  cases h <;> simp [depth]

theorem sizeOf_lt {t : Ty} {h : Head} {ts : List Ty} (ht : t ∈ ts) :
    sizeOf t < sizeOf (Ty.app h ts) := by
  have := List.sizeOf_lt_of_mem ht
  simp only [Ty.app.sizeOf_spec]
  omega

end Ty

/-- A declared record. A structural record has no spelling a declaration could use. -/
structure RecordSpec where
  params : List String
  fields : Dict String Ty
  flat : ∀ p ∈ fields.entries, p.2.depth = 0

inductive TypeSpec where
  | record (spec : RecordSpec)
  | other

abbrev TypeTable := Dict String TypeSpec

mutual

/-- A unifier applied; a structural record is a head without arguments, which stays. -/
def substitute (subst : List (String × Ty)) : Ty → Ty
  | .app (.name head) [] => (Assoc.get? subst head).getD (.app (.name head) [])
  | .app (.name head) (t :: ts) => .app (.name head) (substituteAll subst (t :: ts))
  | .app (.record names) ts => .app (.record names) ts

def substituteAll (subst : List (String × Ty)) : List Ty → List Ty
  | [] => []
  | t :: ts => substitute subst t :: substituteAll subst ts

end

/-- The fields of a structural record, `none` on any other type. -/
def structuralFields : Ty → Option (List (String × Ty))
  | .app (.record names) ts => some (names.zip ts)
  | .app (.name _) _ => none

/-- The fields of a declared record at its instantiation. Of a parameter bound twice `dict(zip(..))`
keeps the last argument. -/
def nominalRecordFields (types : TypeTable) : Ty → Option (List (String × Ty))
  | .app (.name head) args =>
    match types.get? head with
    | some (.record spec) =>
      if spec.params = [] then if args = [] then some spec.fields.entries else none
      else if args.length ≠ spec.params.length then none
      else some (spec.fields.entries.map fun p =>
        (p.1, substitute (spec.params.zip args).reverse p.2))
    | _ => none
  | .app (.record _) _ => none

/-- `Any`, `Never`, the poison and a marked type parameter, in any spelling that starts so. -/
def isWildcard : Ty → Bool
  | .app (.name head) args =>
    (args.isEmpty && (head == "Any" || head == "Never" || head == "!poison")) ||
      head.toList.head? == some '?'
  | .app (.record _) _ => false

/-- The two spellings of a function type. -/
def isFunctionHead (head : Head) : Prop := head = .name "->" ∨ head = .name "Fn"

instance (head : Head) : Decidable (isFunctionHead head) :=
  inferInstanceAs (Decidable (head = .name "->" ∨ head = .name "Fn"))

/-- `e_struct` and `a_struct`: a nominal side is resolved where the other one is structural. -/
def recordShapes (types : TypeTable) (e a : Ty) :
    Option (List (String × Ty)) × Option (List (String × Ty)) :=
  match structuralFields e, structuralFields a with
  | some fe, none => (some fe, nominalRecordFields types a)
  | none, some fa => (nominalRecordFields types e, some fa)
  | fe, fa => (fe, fa)

/-- The rules on two heads: `none` refuses, and otherwise every listed pair must flow. A missing
argument is a wildcard, which asks for nothing. -/
def headRules (e a : Ty) : Option (List (Ty × Ty)) :=
  if e.head = .name "Float" ∧ a.head = .name "Int" then some []
  else if (e.head = .name "Int" ∨ e.head = .name "Float") ∧ a.head = .name "Int32" then some []
  else if e.head = .name "Async" ∧ a.head ≠ .name "Async" then
    some (e.args.head?.toList.map fun t => (t, a))
  else if isFunctionHead e.head ∧ isFunctionHead a.head then
    if e.args.length ≠ a.args.length then none
    else some (a.args.dropLast.zip e.args.dropLast ++
      e.args.getLast?.toList.zip a.args.getLast?.toList)
  else if e.head = .name "Opt" then
    if a.head = .name "Opt" then some (e.args.head?.toList.zip a.args.head?.toList)
    else some (e.args.head?.toList.map fun t => (t, a))
  else if e.head = a.head ∧ e.args.length = a.args.length then some (e.args.zip a.args)
  else none

def sameKeys (fe fa : List (String × Ty)) : Bool :=
  (fe.map Prod.fst).all (· ∈ fa.map Prod.fst) && (fa.map Prod.fst).all (· ∈ fe.map Prod.fst)

def fieldPairs (fe fa : List (String × Ty)) : List (Ty × Ty) :=
  fe.filterMap fun p => (Assoc.get? fa p.1).map (p.2, ·)

/-- One call of `compatible`: `none` where it answers `False`, and otherwise the calls whose answers
it joins. -/
def demands (types : TypeTable) (e a : Ty) : Option (List (Ty × Ty)) :=
  if e.head = .name "Never" ∧ isWildcard a = false then none
  else if isWildcard e = true ∨ isWildcard a = true then some []
  else if e.head = .name "Value" ∨ a.head = .name "Value" then some []
  else if e = a then some []
  else match recordShapes types e a with
    | (some fe, some fa) => if sameKeys fe fa then some (fieldPairs fe fa) else none
    | _ => headRules e a

theorem Ty.induct {motive : Ty → Prop}
    (app : ∀ head ts, (∀ t ∈ ts, motive t) → motive (.app head ts)) (t : Ty) : motive t :=
  Ty.rec (motive_1 := motive) (motive_2 := fun ts => ∀ t ∈ ts, motive t)
    (fun head ts ih => app head ts ih) (by simp)
    (fun t ts ht hts => List.forall_mem_cons.mpr ⟨ht, hts⟩) t

theorem substituteAll_eq_map (subst : List (String × Ty)) (ts : List Ty) :
    substituteAll subst ts = ts.map (substitute subst) := by
  induction ts with
  | nil => rfl
  | cons t ts ih => rw [substituteAll, ih, List.map_cons]

theorem substitute_app_of_ne {ts : List Ty} (h : ts ≠ []) (subst : List (String × Ty))
    (head : String) :
    substitute subst (.app (.name head) ts) = .app (.name head) (ts.map (substitute subst)) := by
  obtain ⟨t, ts, rfl⟩ := List.exists_cons_of_ne_nil h
  rw [substitute, substituteAll_eq_map]

/-- What the parts of a type inherit, and an application keeps when its parts are replaced by as
many that have it, a substitution by types that have it keeps. -/
theorem substitute_keeps {P : Ty → Prop} (hpart : ∀ head ts, P (.app head ts) → ∀ t ∈ ts, P t)
    (happ : ∀ s ts us, ts.length = us.length → P (.app (.name s) ts) → us ≠ [] → (∀ u ∈ us, P u) →
      P (.app (.name s) us))
    {subst : List (String × Ty)} (hsubst : ∀ p ∈ subst, P p.2) (t : Ty) (ht : P t) :
    P (substitute subst t) := by
  induction t using Ty.induct with
  | app head ts ih =>
    cases head with
    | record names => exact ht
    | name s =>
      by_cases hts : ts = []
      · subst hts
        rw [substitute]
        cases hget : Assoc.get? subst s with
        | none => exact ht
        | some u => exact hsubst _ (Assoc.mem_of_get? hget)
      · rw [substitute_app_of_ne hts]
        refine happ s ts _ (List.length_map _).symm ht (by simpa using hts) ?_
        intro u hu
        obtain ⟨t, hmem, rfl⟩ := List.mem_map.mp hu
        exact ih t hmem (hpart _ ts ht t hmem)

theorem substitute_depth {subst : List (String × Ty)} {n : Nat}
    (hsubst : ∀ p ∈ subst, p.2.depth ≤ n) (t : Ty) (ht : t.depth ≤ n) :
    (substitute subst t).depth ≤ n := by
  refine substitute_keeps (P := fun t => t.depth ≤ n) ?_ ?_ hsubst t ht
  · exact fun head ts h t ht =>
      (Ty.depth_le_depthAll ht).trans ((Ty.depthAll_le_depth head ts).trans h)
  · intro s ts us _ _ _ hus
    rw [Ty.depth, Ty.depthAll_le_iff]
    exact hus

theorem structuralFields_depth {t : Ty} {fields : List (String × Ty)}
    (h : structuralFields t = some fields) {p : String × Ty} (hp : p ∈ fields) :
    p.2.depth < t.depth := by
  obtain ⟨head, ts⟩ := t
  cases head with
  | name s => cases h
  | record names =>
    cases h
    exact Nat.lt_succ_of_le (Ty.depth_le_depthAll (List.of_mem_zip hp).2)

theorem nominalRecordFields_depth {types : TypeTable} {t : Ty} {fields : List (String × Ty)}
    (h : nominalRecordFields types t = some fields) {p : String × Ty} (hp : p ∈ fields) :
    p.2.depth ≤ t.depth := by
  obtain ⟨head, args⟩ := t
  cases head with
  | record names => cases h
  | name s =>
    simp only [nominalRecordFields] at h
    split at h
    · rename_i spec _
      split at h
      · split at h
        · cases h
          exact (spec.flat p hp).le.trans (Nat.zero_le _)
        · cases h
      · split at h
        · cases h
        · cases h
          obtain ⟨q, hq, rfl⟩ := List.mem_map.mp hp
          refine substitute_depth ?_ _ ((spec.flat q hq).le.trans (Nat.zero_le _))
          rintro ⟨param, u⟩ hu
          exact Ty.depth_le_depthAll (List.of_mem_zip (List.mem_reverse.mp hu)).2
    · cases h

/-- A resolved pair has a structural side. -/
theorem recordShapes_some {types : TypeTable} {e a : Ty} {fe fa : List (String × Ty)}
    (h : recordShapes types e a = (some fe, some fa)) :
    (structuralFields e = some fe ∧ structuralFields a = some fa) ∨
    (structuralFields e = some fe ∧ nominalRecordFields types a = some fa) ∨
    (nominalRecordFields types e = some fe ∧ structuralFields a = some fa) := by
  unfold recordShapes at h
  split at h
  · simp_all
  · simp_all
  · simp_all

theorem Ty.depth_le_of_mem {t u : Ty} (h : t ∈ u.args) : t.depth ≤ u.depth := by
  obtain ⟨head, ts⟩ := u
  exact (Ty.depth_le_depthAll h).trans (Ty.depthAll_le_depth head ts)

theorem Ty.sizeOf_lt_of_mem {t u : Ty} (h : t ∈ u.args) : sizeOf t < sizeOf u := by
  obtain ⟨head, ts⟩ := u
  exact Ty.sizeOf_lt h

/-- The pairs the head rules ask for are arguments of the two sides. -/
theorem headRules_args {e a : Ty} {pairs : List (Ty × Ty)} (h : headRules e a = some pairs)
    {p : Ty × Ty} (hp : p ∈ pairs) :
    (p.1 ∈ e.args ∧ p.2 = a) ∨ (p.1 ∈ e.args ∧ p.2 ∈ a.args) ∨
      (p.1 ∈ a.args ∧ p.2 ∈ e.args) := by
  have hinner : ∀ u, p ∈ e.args.head?.toList.map (·, u) → p.1 ∈ e.args ∧ p.2 = u := by
    intro u hp
    obtain ⟨t, ht, rfl⟩ := List.mem_map.mp hp
    exact ⟨List.mem_of_mem_head? (Option.mem_toList.mp ht), rfl⟩
  unfold headRules at h
  split_ifs at h <;> cases h
  · cases hp
  · cases hp
  · exact .inl (hinner _ hp)
  · rcases List.mem_append.mp hp with hp | hp
    · have := List.of_mem_zip hp
      exact .inr (.inr ⟨List.dropLast_subset _ this.1, List.dropLast_subset _ this.2⟩)
    · have := List.of_mem_zip hp
      exact .inr (.inl ⟨List.mem_of_mem_getLast? (Option.mem_toList.mp this.1),
        List.mem_of_mem_getLast? (Option.mem_toList.mp this.2)⟩)
  · have := List.of_mem_zip hp
    exact .inr (.inl ⟨List.mem_of_mem_head? (Option.mem_toList.mp this.1),
      List.mem_of_mem_head? (Option.mem_toList.mp this.2)⟩)
  · exact .inl (hinner _ hp)
  · exact .inr (.inl (List.of_mem_zip hp))

theorem fieldPairs_mem {fe fa : List (String × Ty)} {p : Ty × Ty} (h : p ∈ fieldPairs fe fa) :
    ∃ k, (k, p.1) ∈ fe ∧ Assoc.get? fa k = some p.2 := by
  obtain ⟨⟨k, t⟩, hmem, heq⟩ := List.mem_filterMap.mp h
  obtain ⟨u, hu, rfl⟩ := Option.map_eq_some_iff.mp heq
  exact ⟨k, hmem, hu⟩

/-- A demanded pair is smaller: less deep in records, or as deep and shorter. -/
theorem demands_smaller {types : TypeTable} {e a : Ty} {pairs : List (Ty × Ty)}
    (h : demands types e a = some pairs) {p : Ty × Ty} (hp : p ∈ pairs) :
    p.1.depth + p.2.depth < e.depth + a.depth ∨
      (p.1.depth + p.2.depth ≤ e.depth + a.depth ∧
        sizeOf p.1 + sizeOf p.2 < sizeOf e + sizeOf a) := by
  unfold demands at h
  split_ifs at h
  · cases h; cases hp
  · cases h; cases hp
  · cases h; cases hp
  · split at h
    · rename_i fe fa hshapes
      split_ifs at h
      cases h
      obtain ⟨k, hk, hget⟩ := fieldPairs_mem hp
      have hk' := Assoc.mem_of_get? hget
      rcases recordShapes_some hshapes with ⟨he, ha⟩ | ⟨he, ha⟩ | ⟨he, ha⟩
      · have h1 := structuralFields_depth he hk
        have h2 := structuralFields_depth ha hk'
        exact .inl (by simp only at h1 h2; omega)
      · have h1 := structuralFields_depth he hk
        have h2 := nominalRecordFields_depth ha hk'
        exact .inl (by simp only at h1 h2; omega)
      · have h1 := nominalRecordFields_depth he hk
        have h2 := structuralFields_depth ha hk'
        exact .inl (by simp only at h1 h2; omega)
    · refine .inr ?_
      rcases headRules_args h hp with ⟨h1, h2⟩ | ⟨h1, h2⟩ | ⟨h1, h2⟩
      · have := Ty.depth_le_of_mem h1
        have := Ty.sizeOf_lt_of_mem h1
        rw [h2]
        omega
      · have := Ty.depth_le_of_mem h1
        have := Ty.sizeOf_lt_of_mem h1
        have := Ty.depth_le_of_mem h2
        have := Ty.sizeOf_lt_of_mem h2
        omega
      · have := Ty.depth_le_of_mem h1
        have := Ty.sizeOf_lt_of_mem h1
        have := Ty.depth_le_of_mem h2
        have := Ty.sizeOf_lt_of_mem h2
        omega

/-- May a value of type `a` flow into a position typed `e`? -/
def compatible (types : TypeTable) (e a : Ty) : Bool :=
  match _h : demands types e a with
  | none => false
  | some pairs => pairs.attach.all fun p => compatible types p.1.1 p.1.2
termination_by (e.depth + a.depth, sizeOf e + sizeOf a)
decreasing_by
  rcases demands_smaller _h p.2 with hlt | ⟨hle, hlt⟩
  · exact Prod.Lex.left _ _ hlt
  · rcases hle.lt_or_eq with hlt' | heq
    · exact Prod.Lex.left _ _ hlt'
    · rw [heq]
      exact Prod.Lex.right _ hlt

theorem compatible_iff {types : TypeTable} {e a : Ty} :
    compatible types e a = true ↔
      ∃ pairs, demands types e a = some pairs ∧
        ∀ p ∈ pairs, compatible types p.1 p.2 = true := by
  rw [compatible]
  split
  · simp_all
  · rename_i pairs h
    simp [h, List.all_eq_true]

mutual

/-- `keep` with each argument that is the placeholder `Any` taken from `other`. -/
def fillUnknownArgs (keep other : Ty) : Ty :=
  match keep, other with
  | .app (.name k) ks, .app (.name o) os =>
    if k = o ∧ ks.length = os.length then .app (.name k) (fillAll ks os) else .app (.name k) ks
  | keep, _ => keep

def fillAll : List Ty → List Ty → List Ty
  | k :: ks, o :: os =>
    (if k = .app (.name "Any") [] ∧ o ≠ .app (.name "Any") [] then o else fillUnknownArgs k o) ::
      fillAll ks os
  | ks, _ => ks

end

/-- The common type of two branches. -/
def join (types : TypeTable) (a b : Ty) : Option Ty :=
  if compatible types a b then some (fillUnknownArgs a b)
  else if compatible types b a then some (fillUnknownArgs b a)
  else none

/-! ## Closed types -/

/-- The names the head rules of `compatible` give a meaning of their own. -/
def constructorNames : List String := ["Float", "Int", "Int32", "Async", "Opt", "->", "Fn"]

def isWrapper (head : Head) : Prop := head = .name "Opt" ∨ head = .name "Async"

/-- A head that is no wildcard, with the arguments it takes. -/
def ClosedHead : Head → List Ty → Prop
  | .name s, args => s ∉ ["Any", "Never", "Value", "!poison"] ∧ s.toList.head? ≠ some '?' ∧
      (isWrapper (.name s) → args.length = 1)
  | .record names, args => names.Nodup ∧ names.length = args.length

/-- A type without wildcards, at any depth. -/
inductive Closed : Ty → Prop where
  | app {head ts} : ClosedHead head ts → (∀ t ∈ ts, Closed t) → Closed (.app head ts)

theorem Closed.head {t : Ty} (h : Closed t) : ClosedHead t.head t.args := by
  cases h with
  | app hhead hargs => exact hhead

theorem Closed.of_mem {t u : Ty} (h : Closed t) (hu : u ∈ t.args) : Closed u := by
  cases h with
  | app hhead hargs => exact hargs u hu

/-- The declared records of the table are closed and leave the constructors' names alone. -/
structure ClosedTable (types : TypeTable) : Prop where
  closed : ∀ {name spec}, types.get? name = some (.record spec) →
    ∀ p ∈ spec.fields.entries, Closed p.2
  names : ∀ {name spec}, types.get? name = some (.record spec) → name ∉ constructorNames

theorem Closed.isWildcard {t : Ty} (h : Closed t) : isWildcard t = false := by
  obtain ⟨head, ts⟩ := t
  cases head with
  | record names => rfl
  | name s =>
    obtain ⟨hs, hq, -⟩ := h.head
    simp only [List.mem_cons, not_or] at hs
    simp [Typecheck.isWildcard, hs.1, hs.2.1, hs.2.2.2.1, hq]

theorem Closed.ne_head {t : Ty} (h : Closed t) {s : String}
    (hs : s ∈ ["Any", "Never", "Value", "!poison"]) : t.head ≠ .name s := by
  intro heq
  have hhead := h.head
  rw [heq] at hhead
  exact hhead.1 hs

theorem Closed.wrapped {t : Ty} (h : Closed t) (hw : isWrapper t.head) :
    ∃ u, t = .app t.head [u] ∧ Closed u := by
  obtain ⟨head, ts⟩ := t
  cases head with
  | record names => rcases hw with hw | hw <;> cases hw
  | name s =>
    obtain ⟨u, rfl⟩ := List.length_eq_one_iff.mp (h.head.2.2 hw)
    exact ⟨u, rfl, h.of_mem (List.mem_singleton_self u)⟩

theorem substitute_closed {subst : List (String × Ty)} (hsubst : ∀ p ∈ subst, Closed p.2)
    (t : Ty) (ht : Closed t) : Closed (substitute subst t) := by
  refine substitute_keeps (fun head ts h t => h.of_mem) ?_ hsubst t ht
  intro s ts us hlength happ _ hus
  obtain ⟨hs, hq, hw⟩ := happ.head
  exact .app ⟨hs, hq, fun h => hlength ▸ hw h⟩ hus

def Structural (t : Ty) : Prop := (structuralFields t).isSome = true

def Nominal (types : TypeTable) (t : Ty) : Prop := (nominalRecordFields types t).isSome = true

/-- The fields of a structural or a declared record. -/
def fieldsOf (types : TypeTable) (t : Ty) : Option (List (String × Ty)) :=
  (structuralFields t).or (nominalRecordFields types t)

theorem nominalRecordFields_of_structural {types : TypeTable} {t : Ty} (h : Structural t) :
    nominalRecordFields types t = none := by
  obtain ⟨head, ts⟩ := t
  cases head with
  | record names => rfl
  | name s => cases h

theorem fieldsOf_eq_some {types : TypeTable} {t : Ty} {fields : List (String × Ty)} :
    fieldsOf types t = some fields ↔
      structuralFields t = some fields ∨ nominalRecordFields types t = some fields := by
  unfold fieldsOf
  cases hs : structuralFields t with
  | none => simp
  | some f =>
    have hstructural : Structural t := by simp [Structural, hs]
    simp [nominalRecordFields_of_structural hstructural]

/-- The one mixed case: both sides have fields, and one of them is structural. -/
theorem recordShapes_eq {types : TypeTable} {e a : Ty} {fe fa : List (String × Ty)} :
    recordShapes types e a = (some fe, some fa) ↔
      (Structural e ∨ Structural a) ∧ fieldsOf types e = some fe ∧ fieldsOf types a = some fa := by
  unfold recordShapes Structural fieldsOf
  cases he : structuralFields e with
  | none => cases ha : structuralFields a <;> simp
  | some ge => cases ha : structuralFields a <;> simp

/-- A declared record is named outside the constructors, with its fields by the declaration. -/
theorem nominal_name {types : TypeTable} {t : Ty} {fields : List (String × Ty)}
    (h : nominalRecordFields types t = some fields) :
    ∃ s spec, t.head = .name s ∧ types.get? s = some (.record spec) ∧
      fields.map Prod.fst = spec.fields.entries.map Prod.fst ∧
      ((spec.params = [] ∧ t.args = [] ∧ fields = spec.fields.entries) ∨
        (spec.params ≠ [] ∧ fields = spec.fields.entries.map fun p =>
          (p.1, substitute (spec.params.zip t.args).reverse p.2))) := by
  obtain ⟨head, args⟩ := t
  cases head with
  | record names => cases h
  | name s =>
    simp only [nominalRecordFields] at h
    split at h
    · rename_i spec hspec
      refine ⟨s, spec, rfl, hspec, ?_⟩
      split_ifs at h with hparams hargs hlength
      · cases h
        exact ⟨rfl, .inl ⟨hparams, hargs, rfl⟩⟩
      · cases h
        refine ⟨?_, .inr ⟨hparams, rfl⟩⟩
        rw [List.map_map]
        rfl
    · cases h

theorem fieldsOf_nodup {types : TypeTable} {t : Ty} (ht : Closed t) {fields : List (String × Ty)}
    (h : fieldsOf types t = some fields) : (fields.map Prod.fst).Nodup := by
  rcases fieldsOf_eq_some.mp h with h | h
  · obtain ⟨head, ts⟩ := t
    cases head with
    | name s => cases h
    | record names =>
      cases h
      obtain ⟨hnodup, hlength⟩ : names.Nodup ∧ names.length = ts.length := ht.head
      rw [List.map_fst_zip hlength.le]
      exact hnodup
  · obtain ⟨s, spec, -, -, hkeys, -⟩ := nominal_name h
    rw [hkeys]
    exact spec.fields.nodup

theorem fieldsOf_closed {types : TypeTable} (htypes : ClosedTable types) {t : Ty} (ht : Closed t)
    {fields : List (String × Ty)} (h : fieldsOf types t = some fields) {k : String} {u : Ty}
    (hk : Assoc.get? fields k = some u) : Closed u := by
  have hmem := Assoc.mem_of_get? hk
  rcases fieldsOf_eq_some.mp h with h | h
  · obtain ⟨head, ts⟩ := t
    cases head with
    | name s => cases h
    | record names =>
      cases h
      exact ht.of_mem (List.of_mem_zip hmem).2
  · obtain ⟨s, spec, -, hspec, -, ⟨-, -, rfl⟩ | ⟨-, rfl⟩⟩ := nominal_name h
    · exact htypes.closed hspec _ hmem
    · obtain ⟨p, hp, hpu⟩ := List.mem_map.mp hmem
      cases hpu
      refine substitute_closed ?_ _ (htypes.closed hspec p hp)
      rintro ⟨param, v⟩ hv
      exact ht.of_mem (List.of_mem_zip (List.mem_reverse.mp hv)).2

theorem fieldsOf_depth {types : TypeTable} {t : Ty} {fields : List (String × Ty)}
    (h : fieldsOf types t = some fields) {k : String} {u : Ty}
    (hk : Assoc.get? fields k = some u) :
    u.depth ≤ t.depth ∧ (Structural t → u.depth < t.depth) := by
  have hmem := Assoc.mem_of_get? hk
  rcases fieldsOf_eq_some.mp h with h | h
  · have := structuralFields_depth h hmem
    exact ⟨this.le, fun _ => this⟩
  · refine ⟨nominalRecordFields_depth h hmem, fun hs => ?_⟩
    rw [nominalRecordFields_of_structural hs] at h
    cases h

theorem fieldsOf_name {types : TypeTable} (htypes : ClosedTable types) {t : Ty}
    {fields : List (String × Ty)} (h : fieldsOf types t = some fields) {s : String}
    (hs : s ∈ constructorNames) : t.head ≠ .name s := by
  intro hhead
  rcases fieldsOf_eq_some.mp h with h | h
  · obtain ⟨head, ts⟩ := t
    obtain rfl : head = .name s := hhead
    cases h
  · obtain ⟨s', spec, hs', hspec, -⟩ := nominal_name h
    obtain rfl : s' = s := by simpa using hs'.symm.trans hhead
    exact htypes.names hspec hs

/-! ## The rules between closed types -/

/-- The lossless numeric widenings. -/
def Widens (eh ah : Head) : Prop :=
  (eh = .name "Float" ∧ ah = .name "Int") ∨
    ((eh = .name "Int" ∨ eh = .name "Float") ∧ ah = .name "Int32")

theorem isWrapper.not_function {h : Head} (hw : isWrapper h) : ¬ isFunctionHead h := by
  rcases hw with rfl | rfl <;> simp [isFunctionHead]

theorem isWrapper.not_widens {h h' : Head} (hw : isWrapper h) : ¬ Widens h h' ∧ ¬ Widens h' h := by
  rcases hw with rfl | rfl <;> simp [Widens]

theorem isWrapper.name {h : Head} (hw : isWrapper h) : ∃ s ∈ constructorNames, h = .name s := by
  rcases hw with rfl | rfl
  · exact ⟨"Opt", by decide, rfl⟩
  · exact ⟨"Async", by decide, rfl⟩

theorem isFunctionHead.not_widens {h h' : Head} (hf : isFunctionHead h) :
    ¬ Widens h h' ∧ ¬ Widens h' h := by
  rcases hf with rfl | rfl <;> simp [Widens]

theorem isFunctionHead.name {h : Head} (hf : isFunctionHead h) :
    ∃ s ∈ constructorNames, h = .name s := by
  rcases hf with rfl | rfl
  · exact ⟨"->", by decide, rfl⟩
  · exact ⟨"Fn", by decide, rfl⟩

theorem Widens.name {h h' : Head} (hw : Widens h h') :
    (∃ s ∈ constructorNames, h = .name s) ∧ ∃ s ∈ constructorNames, h' = .name s := by
  rcases hw with ⟨rfl, rfl⟩ | ⟨rfl | rfl, rfl⟩
  · exact ⟨⟨"Float", by decide, rfl⟩, ⟨"Int", by decide, rfl⟩⟩
  · exact ⟨⟨"Int", by decide, rfl⟩, ⟨"Int32", by decide, rfl⟩⟩
  · exact ⟨⟨"Float", by decide, rfl⟩, ⟨"Int32", by decide, rfl⟩⟩

theorem Widens.irrefl {h : Head} (hw : Widens h h) : False := by
  rcases hw with ⟨rfl, h⟩ | ⟨rfl | rfl, h⟩ <;> simp at h

theorem Widens.trans {h h' h'' : Head} (hw : Widens h h') (hw' : Widens h' h'') : Widens h h'' := by
  rcases hw with ⟨rfl, rfl⟩ | ⟨hw, rfl⟩
  · rcases hw' with ⟨h, -⟩ | ⟨h, rfl⟩
    · simp at h
    · exact .inr ⟨.inr rfl, rfl⟩
  · rcases hw' with ⟨h, -⟩ | ⟨h | h, -⟩ <;> simp at h

/-- The rule by which a closed type flows into another. -/
inductive Flow (types : TypeTable) (e a : Ty) : Prop where
  | same : e = a → Flow types e a
  | fields (fe fa : List (String × Ty)) : Structural e ∨ Structural a →
      fieldsOf types e = some fe → fieldsOf types a = some fa →
      (∀ k, (Assoc.get? fe k).isSome = (Assoc.get? fa k).isSome) →
      (∀ k x y, Assoc.get? fe k = some x → Assoc.get? fa k = some y →
        compatible types x y = true) → Flow types e a
  | widen : Widens e.head a.head → Flow types e a
  | wrap (w : Head) (x : Ty) : isWrapper w → e = .app w [x] → a.head ≠ w →
      compatible types x a = true → Flow types e a
  | wrapped (w : Head) (x y : Ty) : isWrapper w → e = .app w [x] → a = .app w [y] →
      compatible types x y = true → Flow types e a
  | functions : isFunctionHead e.head → isFunctionHead a.head → e.args.length = a.args.length →
      (∀ (i : Nat) x y, i + 1 < e.args.length → e.args[i]? = some x → a.args[i]? = some y →
        compatible types y x = true) →
      (∀ (i : Nat) x y, i + 1 = e.args.length → e.args[i]? = some x → a.args[i]? = some y →
        compatible types x y = true) → Flow types e a
  | generic : e.head = a.head → ¬ isWrapper e.head → ¬ isFunctionHead e.head → ¬ Structural e →
      e.args.length = a.args.length →
      (∀ (i : Nat) x y, e.args[i]? = some x → a.args[i]? = some y → compatible types x y = true) →
      Flow types e a

theorem sameKeys_iff {fe fa : List (String × Ty)} : sameKeys fe fa = true ↔
    ∀ k, (Assoc.get? fe k).isSome = (Assoc.get? fa k).isSome := by
  have hkey : ∀ (l : List (String × Ty)) k,
      k ∈ l.map Prod.fst ↔ (Assoc.get? l k).isSome = true := by
    intro l k
    constructor
    · intro hk
      obtain ⟨⟨k, t⟩, hmem, rfl⟩ := List.mem_map.mp hk
      exact Assoc.get?_isSome_of_mem hmem
    · intro hk
      obtain ⟨t, ht⟩ := Option.isSome_iff_exists.mp hk
      exact List.mem_map.mpr ⟨_, Assoc.mem_of_get? ht, rfl⟩
  simp only [sameKeys, Bool.and_eq_true, List.all_eq_true, decide_eq_true_eq, hkey]
  constructor
  · rintro ⟨hea, hae⟩ k
    exact Bool.eq_iff_iff.mpr ⟨hea k, hae k⟩
  · intro h
    exact ⟨fun k hk => (h k).symm.trans hk, fun k hk => (h k).trans hk⟩

theorem forall_fieldPairs {fe fa : List (String × Ty)} (hfe : (fe.map Prod.fst).Nodup)
    {P : Ty → Ty → Prop} : (∀ p ∈ fieldPairs fe fa, P p.1 p.2) ↔
      ∀ k x y, Assoc.get? fe k = some x → Assoc.get? fa k = some y → P x y := by
  constructor
  · intro h k x y hx hy
    exact h (x, y) (List.mem_filterMap.mpr ⟨(k, x), Assoc.mem_of_get? hx, by simp [hy]⟩)
  · rintro h ⟨x, y⟩ hp
    obtain ⟨k, hk, hget⟩ := fieldPairs_mem hp
    exact h k x y ((Assoc.get?_eq_some_iff hfe).mpr hk) hget

theorem forall_zip {l m : List Ty} {P : Ty → Ty → Prop} : (∀ p ∈ l.zip m, P p.1 p.2) ↔
    ∀ (i : Nat) x y, l[i]? = some x → m[i]? = some y → P x y := by
  constructor
  · intro h i x y hx hy
    exact h (x, y) (List.mem_iff_getElem?.mpr ⟨i, List.getElem?_zip_eq_some.mpr ⟨hx, hy⟩⟩)
  · rintro h ⟨x, y⟩ hp
    obtain ⟨i, hi⟩ := List.mem_iff_getElem?.mp hp
    exact h i x y (List.getElem?_zip_eq_some.mp hi).1 (List.getElem?_zip_eq_some.mp hi).2

theorem getElem?_toList {o : Option Ty} {i : Nat} {x : Ty} :
    o.toList[i]? = some x ↔ i = 0 ∧ o = some x := by
  cases o <;> cases i <;> simp [eq_comm]

theorem forall_functions {l m : List Ty} (hlm : l.length = m.length) {P : Ty → Ty → Prop} :
    (∀ p ∈ m.dropLast.zip l.dropLast ++ l.getLast?.toList.zip m.getLast?.toList, P p.1 p.2) ↔
      (∀ (i : Nat) x y, i + 1 < l.length → l[i]? = some x → m[i]? = some y → P y x) ∧
      (∀ (i : Nat) x y, i + 1 = l.length → l[i]? = some x → m[i]? = some y → P x y) := by
  rw [List.forall_mem_append, forall_zip, forall_zip]
  refine and_congr ?_ ?_
  · simp only [List.getElem?_dropLast, ← hlm]
    constructor
    · intro h i x y hi hx hy
      refine h i y x ?_ ?_
      · rw [if_pos (by omega)]; exact hy
      · rw [if_pos (by omega)]; exact hx
    · intro h i x y hx hy
      split_ifs at hx hy with hi
      exact h i y x (by omega) hy hx
  · simp only [getElem?_toList, List.getLast?_eq_getElem?]
    constructor
    · intro h i x y hi hx hy
      have hlast : l.length - 1 = i := by omega
      exact h 0 x y ⟨rfl, hlast ▸ hx⟩ ⟨rfl, (hlm ▸ hlast) ▸ hy⟩
    · rintro h i x y ⟨-, hx⟩ ⟨-, hy⟩
      obtain ⟨hi, -⟩ := List.getElem?_eq_some_iff.mp hx
      exact h (l.length - 1) x y (by omega) hx (hlm ▸ hy)

variable {types : TypeTable} {e a : Ty}

theorem demands_closed (he : Closed e) (ha : Closed a) : demands types e a =
    if e = a then some []
    else match recordShapes types e a with
      | (some fe, some fa) => if sameKeys fe fa then some (fieldPairs fe fa) else none
      | _ => headRules e a := by
  unfold demands
  rw [if_neg fun h => he.ne_head (by simp) h.1, if_neg, if_neg]
  · rintro (h | h)
    · exact he.ne_head (by simp) h
    · exact ha.ne_head (by simp) h
  · rw [he.isWildcard, ha.isWildcard]
    simp

/-- Between closed types that are no record pair the head rules decide. -/
theorem flow_of_headRules (he : Closed e) (ha : Closed a) (hstructural : ¬ Structural e)
    {pairs : List (Ty × Ty)}
    (hrules : headRules e a = some pairs)
    (hpairs : ∀ p ∈ pairs, compatible types p.1 p.2 = true) : Flow types e a := by
  unfold headRules at hrules
  split_ifs at hrules with h1 h2 h3 h4 h5 h6 h7 h8 <;> cases hrules
  · exact .widen (.inl h1)
  · exact .widen (.inr h2)
  · obtain ⟨x, hx, -⟩ := he.wrapped (.inr h3.1)
    rw [hx] at hpairs
    exact .wrap _ x (.inr h3.1) hx (h3.1 ▸ h3.2) (hpairs (x, a) (by simp [Ty.args]))
  · have := (forall_functions (P := fun x y => compatible types x y = true)
      (not_not.mp h5)).mp hpairs
    exact .functions h4.1 h4.2 (not_not.mp h5) this.1 this.2
  · obtain ⟨x, hx, -⟩ := he.wrapped (.inl h6)
    obtain ⟨y, hy, -⟩ := ha.wrapped (.inl h7)
    rw [hx, hy] at hpairs
    refine .wrapped (.name "Opt") x y (.inl rfl) (h6 ▸ hx) (h7 ▸ hy) (hpairs (x, y) ?_)
    simp [Ty.args]
  · obtain ⟨x, hx, -⟩ := he.wrapped (.inl h6)
    rw [hx] at hpairs
    exact .wrap _ x (.inl h6) hx (h6 ▸ h7) (hpairs (x, a) (by simp [Ty.args]))
  · by_cases hasync : e.head = .name "Async"
    · obtain ⟨x, hx, -⟩ := he.wrapped (.inr hasync)
      obtain ⟨y, hy, -⟩ := ha.wrapped (.inr (h8.1 ▸ hasync))
      rw [hx, hy] at hpairs
      refine .wrapped e.head x y (.inr hasync) hx (h8.1 ▸ hy) (hpairs (x, y) ?_)
      simp [Ty.args]
    · refine .generic h8.1 ?_ ?_ hstructural h8.2
        ((forall_zip (P := fun x y => compatible types x y = true)).mp hpairs)
      · rintro (h | h)
        · exact h6 h
        · exact hasync h
      · intro h
        exact h4 ⟨h, h8.1 ▸ h⟩

theorem Structural.headRules (h : Structural e) : headRules e a = none ∨ e.head = a.head := by
  obtain ⟨head, ts⟩ := e
  cases head with
  | name s => cases h
  | record names =>
    by_cases heq : Head.record names = a.head
    · exact .inr heq
    · left
      unfold headRules
      simp [isFunctionHead, heq]

theorem Structural.of_head (h : Structural e) (heq : e.head = a.head) : Structural a := by
  obtain ⟨head, ts⟩ := e
  obtain ⟨head', ts'⟩ := a
  obtain rfl : head = head' := heq
  cases head with
  | name s => cases h
  | record names => rfl

theorem Structural.fieldsOf (types : TypeTable) (h : Structural e) : ∃ fields, fieldsOf types e = some fields := by
  obtain ⟨fields, hfields⟩ := Option.isSome_iff_exists.mp h
  exact ⟨fields, fieldsOf_eq_some.mpr (.inl hfields)⟩

theorem flow_of_compatible (he : Closed e) (ha : Closed a) (h : compatible types e a = true) :
    Flow types e a := by
  obtain ⟨pairs, hdemands, hpairs⟩ := compatible_iff.mp h
  rw [demands_closed he ha] at hdemands
  split_ifs at hdemands with heq
  · exact .same heq
  · split at hdemands
    · rename_i fe fa hshapes
      obtain ⟨hstructural, hfe, hfa⟩ := recordShapes_eq.mp hshapes
      split_ifs at hdemands with hkeys
      cases hdemands
      refine .fields fe fa hstructural hfe hfa (sameKeys_iff.mp hkeys) ?_
      exact (forall_fieldPairs (P := fun x y => compatible types x y = true)
        (fieldsOf_nodup he hfe)).mp hpairs
    · rename_i hshapes
      refine flow_of_headRules he ha (fun hs => ?_) hdemands hpairs
      rcases hs.headRules with hnone | heq
      · rw [hnone] at hdemands
        cases hdemands
      · obtain ⟨fe, hfe⟩ := hs.fieldsOf types
        obtain ⟨fa, hfa⟩ := (hs.of_head heq).fieldsOf types
        exact hshapes fe fa (recordShapes_eq.mpr ⟨.inl hs, hfe, hfa⟩)

/-- Off the record pairs, what the head rules ask for is enough. -/
theorem compatible_of_headRules (he : Closed e) (ha : Closed a)
    (hfields : (∀ fe, fieldsOf types e ≠ some fe) ∨ (∀ fa, fieldsOf types a ≠ some fa) ∨
      (¬ Structural e ∧ ¬ Structural a))
    (pairs : List (Ty × Ty)) (hrules : headRules e a = some pairs)
    (hpairs : ∀ p ∈ pairs, compatible types p.1 p.2 = true) : compatible types e a = true := by
  rw [compatible_iff, demands_closed he ha]
  split_ifs with heq
  · exact ⟨[], rfl, by simp⟩
  · split
    · rename_i fe fa hshapes
      obtain ⟨hstructural, hfe, hfa⟩ := recordShapes_eq.mp hshapes
      rcases hfields with h | h | ⟨h, h'⟩
      · exact absurd hfe (h fe)
      · exact absurd hfa (h fa)
      · exact absurd hstructural (not_or.mpr ⟨h, h'⟩)
    · exact ⟨pairs, hrules, hpairs⟩

theorem compatible_of_flow (htypes : ClosedTable types) (he : Closed e) (ha : Closed a)
    (h : Flow types e a) : compatible types e a = true := by
  have hnone : ∀ {t : Ty} {s}, s ∈ constructorNames → t.head = .name s →
      ∀ f, fieldsOf types t ≠ some f := fun hs ht f hf => fieldsOf_name htypes hf hs ht
  cases h with
  | same heq =>
    rw [compatible_iff, demands_closed he ha, if_pos heq]
    exact ⟨[], rfl, by simp⟩
  | fields fe fa hstructural hfe hfa hkeys hall =>
    rw [compatible_iff, demands_closed he ha]
    split_ifs with heq
    · exact ⟨[], rfl, by simp⟩
    · rw [recordShapes_eq.mpr ⟨hstructural, hfe, hfa⟩]
      simp only [sameKeys_iff.mpr hkeys, if_true]
      refine ⟨_, rfl, ?_⟩
      exact (forall_fieldPairs (P := fun x y => compatible types x y = true)
        (fieldsOf_nodup he hfe)).mpr hall
  | widen hwidens =>
    obtain ⟨s, hs, heh⟩ := hwidens.name.1
    refine compatible_of_headRules he ha (.inl (hnone hs heh)) [] ?_ (by simp)
    unfold headRules
    rcases hwidens with hfloat | hsized
    · rw [if_pos hfloat]
    · rw [if_neg fun h => by simp [h.2] at hsized, if_pos hsized]
  | wrap w x hw heq hne hxa =>
    subst heq
    refine compatible_of_headRules he ha (.inl ?_) [(x, a)] ?_ (by simpa using hxa)
    · obtain ⟨s, hs, rfl⟩ := hw.name
      exact hnone hs rfl
    · rcases hw with rfl | rfl <;> simp [headRules, isFunctionHead, hne]
  | wrapped w x y hw heq heq' hxy =>
    subst heq heq'
    refine compatible_of_headRules he ha (.inl ?_) [(x, y)] ?_ (by simpa using hxy)
    · obtain ⟨s, hs, rfl⟩ := hw.name
      exact hnone hs rfl
    · rcases hw with rfl | rfl <;> simp [headRules, isFunctionHead]
  | functions hfe hfa hlength hparams hresult =>
    refine compatible_of_headRules he ha (.inl ?_) _ ?_
      ((forall_functions (P := fun x y => compatible types x y = true) hlength).mpr
        ⟨hparams, hresult⟩)
    · obtain ⟨s, hs, heh⟩ := hfe.name
      exact hnone hs heh
    · have hnot : ∀ s, s ≠ "->" → s ≠ "Fn" → e.head ≠ .name s := by
        rintro s h1 h2 h
        rcases hfe with h' | h' <;> simp_all
      unfold headRules
      rw [if_neg fun h => hnot "Float" (by decide) (by decide) h.1,
        if_neg fun h => h.1.elim (hnot "Int" (by decide) (by decide))
          (hnot "Float" (by decide) (by decide)),
        if_neg fun h => hnot "Async" (by decide) (by decide) h.1,
        if_pos ⟨hfe, hfa⟩, if_neg (not_not.mpr hlength)]
  | generic heq hw hf hstructural hlength hall =>
    refine compatible_of_headRules he ha (.inr (.inr ⟨hstructural, fun h => hstructural
      (h.of_head heq.symm)⟩)) _ ?_
      ((forall_zip (P := fun x y => compatible types x y = true)).mpr hall)
    unfold headRules
    rw [if_neg, if_neg, if_neg fun h => hw (.inr h.1), if_neg fun h => hf h.1,
      if_neg fun h => hw (.inl h), if_pos ⟨heq, hlength⟩]
    · rintro ⟨h | h, h'⟩ <;> simp [← heq, h] at h'
    · rintro ⟨h, h'⟩
      simp [← heq, h] at h'

theorem compatible_closed_iff (htypes : ClosedTable types) (he : Closed e) (ha : Closed a) :
    compatible types e a = true ↔ Flow types e a :=
  ⟨flow_of_compatible he ha, compatible_of_flow htypes he ha⟩

theorem compatible_refl (types : TypeTable) (he : Closed e) : compatible types e e = true := by
  rw [compatible_iff, demands_closed he he, if_pos rfl]
  exact ⟨[], rfl, by simp⟩

end Revl.Typecheck
