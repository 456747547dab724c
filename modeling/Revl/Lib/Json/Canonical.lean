import Revl.Lib.Json.RoundTrip

/-!
# Canonical JSON text

`json.dumps(value, sort_keys=True, separators=(",", ":"))`: the keys of every dictionary in
order, nothing between the parts but the punctuation.

- `Json.sortKeys`: every dictionary with its keys in order; two values with the same sorted
  form are equal as Python compares them.
- `sortKeys_obj_eq_iff`: two dictionaries are equal where every key reads the same.
- `compact_append_inj`: a value's text is told apart from every other's, whatever follows.
- `canon_inj`: the canonical text determines the value, up to the order of keys.
-/

namespace Json

mutual

/-- Every dictionary with its keys in order. -/
def sortKeys : Json → Json
  | .arr items => .arr (sortItems items)
  | .obj fields => .obj ((sortFields fields).insertionSort fun f g => f.1 ≤ g.1)
  | v => v

def sortItems : List Json → List Json
  | [] => []
  | item :: items => sortKeys item :: sortItems items

def sortFields : List (String × Json) → List (String × Json)
  | [] => []
  | field :: fields => sortField field :: sortFields fields

def sortField : String × Json → String × Json
  | (key, value) => (key, sortKeys value)

end

mutual

/-- `json.dumps` with the separators `","` and `":"`. -/
def compact : Json → List Char
  | .arr items => '[' :: compactItems items
  | .obj fields => '\x7b' :: compactFields fields
  | v => dumps v

def compactItems : List Json → List Char
  | [] => [']']
  | item :: items => compact item ++ compactMoreItems items

def compactMoreItems : List Json → List Char
  | [] => [']']
  | item :: items => ',' :: (compact item ++ compactMoreItems items)

def compactFields : List (String × Json) → List Char
  | [] => ['\x7d']
  | field :: fields => compactField field ++ compactMoreFields fields

def compactMoreFields : List (String × Json) → List Char
  | [] => ['\x7d']
  | field :: fields => ',' :: (compactField field ++ compactMoreFields fields)

def compactField : String × Json → List Char
  | (key, value) => dumpText key ++ (':' :: compact value)

end

/-- `json.dumps(value, sort_keys=True, separators=(",", ":"))`. -/
def canon (v : Json) : List Char := compact (sortKeys v)

/-! ## Sorting -/

theorem sortFields_eq_map (fields : List (String × Json)) :
    sortFields fields = fields.map fun f => (f.1, sortKeys f.2) := by
  induction fields with
  | nil => rfl
  | cons field fields ih =>
    obtain ⟨key, value⟩ := field
    rw [sortFields, sortField, List.map_cons, ih]

theorem sortItems_eq_map (items : List Json) : sortItems items = items.map sortKeys := by
  induction items with
  | nil => rfl
  | cons item items ih => rw [sortItems, List.map_cons, ih]

/-- Sorting a dictionary moves no binding to another key. -/
theorem get?_sortKeys {fields : List (String × Json)} (h : (fields.map Prod.fst).Nodup)
    (key : String) :
    (sortKeys (.obj fields)).get? key = ((Json.obj fields).get? key).map sortKeys := by
  have hnodup : ((sortFields fields).map Prod.fst).Nodup := by
    rw [sortFields_eq_map, List.map_map]
    exact h
  rw [sortKeys]
  show Assoc.get? ((sortFields fields).insertionSort fun f g => f.1 ≤ g.1) key = _
  rw [← Assoc.get?_perm hnodup (List.perm_insertionSort _ _).symm, sortFields_eq_map]
  exact Assoc.get?_map_snd (fun _ v => sortKeys v) fields key

/-- Two dictionaries are equal up to the order of keys where every key reads the same. -/
theorem sortKeys_obj_eq_iff {fields fields' : List (String × Json)}
    (h : (fields.map Prod.fst).Nodup) (h' : (fields'.map Prod.fst).Nodup) :
    sortKeys (.obj fields) = sortKeys (.obj fields') ↔
      ∀ key, ((Json.obj fields).get? key).map sortKeys =
        ((Json.obj fields').get? key).map sortKeys := by
  constructor
  · intro heq key
    rw [← get?_sortKeys h, ← get?_sortKeys h', heq]
  · intro hkeys
    have hsorted : ∀ {l : List (String × Json)}, (l.map Prod.fst).Nodup →
        Assoc.KeysSorted ((sortFields l).insertionSort fun f g => f.1 ≤ g.1) := by
      intro l hl
      have hnodup : ((sortFields l).map Prod.fst).Nodup := by
        rw [sortFields_eq_map, List.map_map]
        exact hl
      have hperm : (((sortFields l).insertionSort fun f g => f.1 ≤ g.1).map Prod.fst).Nodup :=
        ((List.perm_insertionSort _ _).map Prod.fst).nodup_iff.2 hnodup
      refine ((List.pairwise_insertionSort (fun f g : String × Json => f.1 ≤ g.1) _).and
        (List.pairwise_map.1 hperm)).imp ?_
      rintro f g ⟨hle, hne⟩
      exact lt_of_le_of_ne hle hne
    have hread : ∀ {l : List (String × Json)}, (l.map Prod.fst).Nodup → ∀ key,
        Assoc.get? ((sortFields l).insertionSort fun f g => f.1 ≤ g.1) key =
          ((Json.obj l).get? key).map sortKeys := by
      intro l hl key
      have := get?_sortKeys hl key
      rwa [sortKeys] at this
    rw [sortKeys, sortKeys]
    refine congrArg Json.obj (Assoc.eq_of_sorted_get? (hsorted h) (hsorted h') fun key => ?_)
    rw [hread h, hread h', hkeys]

theorem fieldsOk_iff {fields : List (String × Json)} :
    fieldsOk fields = true ↔ ∀ field ∈ fields, fieldOk field = true := by
  induction fields with
  | nil => simp [fieldsOk]
  | cons field fields ih => simp [fieldsOk, ih]

theorem itemsOk_iff {items : List Json} :
    itemsOk items = true ↔ ∀ item ∈ items, floatsOk item = true := by
  induction items with
  | nil => simp [itemsOk]
  | cons item items ih => simp [itemsOk, ih]

mutual

theorem floatsOk_sortKeys : ∀ v : Json, floatsOk v = true → floatsOk (sortKeys v) = true
  | .null, h => h
  | .bool _, h => h
  | .int _, h => h
  | .float _, h => h
  | .str _, h => h
  | .arr items, h => by
    rw [floatsOk] at h
    rw [sortKeys, floatsOk]
    exact itemsOk_sortItems items h
  | .obj fields, h => by
    rw [floatsOk] at h
    rw [sortKeys, floatsOk, fieldsOk_iff]
    intro field hmem
    exact fieldsOk_iff.mp (fieldsOk_sortFields fields h) field
      ((List.mem_insertionSort _).mp hmem)

theorem itemsOk_sortItems : ∀ items : List Json, itemsOk items = true →
    itemsOk (sortItems items) = true
  | [], _ => rfl
  | item :: items, h => by
    rw [itemsOk, Bool.and_eq_true] at h
    rw [sortItems, itemsOk, floatsOk_sortKeys item h.1, itemsOk_sortItems items h.2]
    rfl

theorem fieldsOk_sortFields : ∀ fields : List (String × Json), fieldsOk fields = true →
    fieldsOk (sortFields fields) = true
  | [], _ => rfl
  | field :: fields, h => by
    rw [fieldsOk, Bool.and_eq_true] at h
    rw [sortFields, fieldsOk, fieldOk_sortField field h.1, fieldsOk_sortFields fields h.2]
    rfl

theorem fieldOk_sortField : ∀ field : String × Json, fieldOk field = true →
    fieldOk (sortField field) = true
  | (_, value), h => floatsOk_sortKeys value h

end

/-! ## Reading a text back -/

/-- A value with no parts. -/
def isAtom : Json → Bool
  | .arr _ => false
  | .obj _ => false
  | _ => true

theorem compact_of_isAtom {v : Json} (hv : isAtom v = true) : compact v = dumps v := by
  cases v <;> first | rfl | cases hv

/-- The text of a value with no parts does not start like a list's or a dictionary's. -/
theorem atom_head {v : Json} (hatom : isAtom v = true) (hv : floatsOk v = true) :
    ∃ c cs, dumps v = c :: cs ∧ c ≠ '[' ∧ c ≠ '\x7b' := by
  obtain ⟨c, cs, heq, hc⟩ := dumps_first (by rintro _ rfl; cases hatom)
    (by rintro _ rfl; cases hatom) hv
  refine ⟨c, cs, heq, ?_, ?_⟩
  · rintro rfl
    exact absurd hc (by decide)
  · rintro rfl
    exact absurd hc (by decide)

/-- No value's text starts with the end of a list. -/
theorem compact_head {v : Json} (hv : floatsOk v = true) :
    ∃ c cs, compact v = c :: cs ∧ c ≠ ']' := by
  by_cases hatom : isAtom v = true
  · obtain ⟨c, cs, heq, -, hc⟩ := dumps_head hv
    exact ⟨c, cs, (compact_of_isAtom hatom).trans heq, hc⟩
  · cases v with
    | arr items => exact ⟨_, _, rfl, by decide⟩
    | obj fields => exact ⟨_, _, rfl, by decide⟩
    | _ => exact absurd rfl hatom

theorem compactMoreItems_stops (items : List Json) (rest : List Char) :
    Stops (compactMoreItems items ++ rest) := by
  cases items with
  | nil => exact stops_cons rfl _
  | cons item items => exact stops_cons rfl _

theorem compactMoreFields_stops (fields : List (String × Json)) (rest : List Char) :
    Stops (compactMoreFields fields ++ rest) := by
  cases fields with
  | nil => exact stops_cons rfl _
  | cons field fields => exact stops_cons rfl _

/-- A string's text is told apart from every other string's. -/
theorem dumpText_append_inj {k k' : String} {r s : List Char}
    (h : dumpText k ++ r = dumpText k' ++ s) : k = k' ∧ r = s := by
  rw [dumpText_append, dumpText_append, List.cons.injEq] at h
  have hread : some (k, r) = some (k', s) := by
    rw [← scanText_dump k r, ← scanText_dump k' s, h.2]
  rw [Option.some.injEq, Prod.mk.injEq] at hread
  exact hread

/-- Two values with no parts: both texts read back. -/
theorem atoms_append_inj {v w : Json} {r s : List Char} (hv : floatsOk v = true)
    (hw : floatsOk w = true) (hr : Stops r) (hs : Stops s)
    (h : dumps v ++ r = dumps w ++ s) : v = w ∧ r = s := by
  have hread := scanValue_dumps v (max (dumps v).length (dumps w).length) r hv
    (Nat.le_max_left _ _) hr
  rw [h, scanValue_dumps w _ s hw (Nat.le_max_right _ _) hs, Option.some.injEq,
    Prod.mk.injEq] at hread
  exact ⟨hread.1.symm, hread.2.symm⟩

theorem atom_append_inj {v w : Json} {r s : List Char} (hatom : isAtom v = true)
    (hv : floatsOk v = true) (hw : floatsOk w = true) (hr : Stops r) (hs : Stops s)
    (h : compact v ++ r = compact w ++ s) : v = w ∧ r = s := by
  rw [compact_of_isAtom hatom] at h
  by_cases hatom' : isAtom w = true
  · rw [compact_of_isAtom hatom'] at h
    exact atoms_append_inj hv hw hr hs h
  · obtain ⟨c, cs, heq, harr, hobj⟩ := atom_head hatom hv
    rw [heq] at h
    cases w with
    | arr items =>
      rw [compact, List.cons_append, List.cons_append, List.cons.injEq] at h
      exact absurd h.1 harr
    | obj fields =>
      rw [compact, List.cons_append, List.cons_append, List.cons.injEq] at h
      exact absurd h.1 hobj
    | _ => exact absurd rfl hatom'

mutual

/-- **A value's text is told apart from every other's, whatever follows.** The induction is
on the first value; what follows starts with no character a number could go on with. -/
theorem compact_append_inj : ∀ (v w : Json) {r s : List Char}, floatsOk v = true →
    floatsOk w = true → Stops r → Stops s → compact v ++ r = compact w ++ s → v = w ∧ r = s
  | .null, _, _, _, hv, hw, hr, hs, h => atom_append_inj rfl hv hw hr hs h
  | .bool _, _, _, _, hv, hw, hr, hs, h => atom_append_inj rfl hv hw hr hs h
  | .int _, _, _, _, hv, hw, hr, hs, h => atom_append_inj rfl hv hw hr hs h
  | .float _, _, _, _, hv, hw, hr, hs, h => atom_append_inj rfl hv hw hr hs h
  | .str _, _, _, _, hv, hw, hr, hs, h => atom_append_inj rfl hv hw hr hs h
  | .arr items, w, r, s, hv, hw, hr, hs, h => by
    by_cases hatom : isAtom w = true
    · obtain ⟨heq, hrest⟩ := atom_append_inj hatom hw hv hs hr h.symm
      exact ⟨heq.symm, hrest.symm⟩
    · cases w with
      | arr items' =>
        rw [compact, compact, List.cons_append, List.cons_append, List.cons.injEq] at h
        rw [floatsOk] at hv hw
        obtain ⟨heq, hrest⟩ := compactItems_append_inj items items' hv hw h.2
        exact ⟨congrArg Json.arr heq, hrest⟩
      | obj fields =>
        rw [compact, compact, List.cons_append, List.cons_append, List.cons.injEq] at h
        exact absurd h.1 (by decide)
      | _ => exact absurd rfl hatom
  | .obj fields, w, r, s, hv, hw, hr, hs, h => by
    by_cases hatom : isAtom w = true
    · obtain ⟨heq, hrest⟩ := atom_append_inj hatom hw hv hs hr h.symm
      exact ⟨heq.symm, hrest.symm⟩
    · cases w with
      | arr items' =>
        rw [compact, compact, List.cons_append, List.cons_append, List.cons.injEq] at h
        exact absurd h.1 (by decide)
      | obj fields' =>
        rw [compact, compact, List.cons_append, List.cons_append, List.cons.injEq] at h
        rw [floatsOk] at hv hw
        obtain ⟨heq, hrest⟩ := compactFields_append_inj fields fields' hv hw h.2
        exact ⟨congrArg Json.obj heq, hrest⟩
      | _ => exact absurd rfl hatom

theorem compactItems_append_inj : ∀ (items items' : List Json) {r s : List Char},
    itemsOk items = true → itemsOk items' = true →
      compactItems items ++ r = compactItems items' ++ s → items = items' ∧ r = s
  | [], [], _, _, _, _, h => ⟨rfl, by simpa [compactItems] using h⟩
  | [], item' :: items', r, s, _, hi', h => by
    rw [itemsOk, Bool.and_eq_true] at hi'
    obtain ⟨c, cs, heq, hc⟩ := compact_head hi'.1
    rw [compactItems, compactItems, heq] at h
    simp only [List.cons_append, List.cons.injEq] at h
    exact absurd h.1.symm hc
  | item :: items, [], r, s, hi, _, h => by
    rw [itemsOk, Bool.and_eq_true] at hi
    obtain ⟨c, cs, heq, hc⟩ := compact_head hi.1
    rw [compactItems, compactItems, heq] at h
    simp only [List.cons_append, List.cons.injEq] at h
    exact absurd h.1 hc
  | item :: items, item' :: items', r, s, hi, hi', h => by
    rw [itemsOk, Bool.and_eq_true] at hi hi'
    rw [compactItems, compactItems, List.append_assoc, List.append_assoc] at h
    obtain ⟨hitem, hmore⟩ := compact_append_inj item item' hi.1 hi'.1
      (compactMoreItems_stops items r) (compactMoreItems_stops items' s) h
    obtain ⟨hitems, hrest⟩ := compactMoreItems_append_inj items items' hi.2 hi'.2 hmore
    exact ⟨by rw [hitem, hitems], hrest⟩

theorem compactMoreItems_append_inj : ∀ (items items' : List Json) {r s : List Char},
    itemsOk items = true → itemsOk items' = true →
      compactMoreItems items ++ r = compactMoreItems items' ++ s → items = items' ∧ r = s
  | [], [], _, _, _, _, h => ⟨rfl, by simpa [compactMoreItems] using h⟩
  | [], _ :: _, _, _, _, _, h => by simp [compactMoreItems] at h
  | _ :: _, [], _, _, _, _, h => by simp [compactMoreItems] at h
  | item :: items, item' :: items', r, s, hi, hi', h => by
    rw [itemsOk, Bool.and_eq_true] at hi hi'
    rw [compactMoreItems, compactMoreItems, List.cons_append, List.cons_append,
      List.cons.injEq, List.append_assoc, List.append_assoc] at h
    obtain ⟨hitem, hmore⟩ := compact_append_inj item item' hi.1 hi'.1
      (compactMoreItems_stops items r) (compactMoreItems_stops items' s) h.2
    obtain ⟨hitems, hrest⟩ := compactMoreItems_append_inj items items' hi.2 hi'.2 hmore
    exact ⟨by rw [hitem, hitems], hrest⟩

theorem compactFields_append_inj : ∀ (fields fields' : List (String × Json)) {r s : List Char},
    fieldsOk fields = true → fieldsOk fields' = true →
      compactFields fields ++ r = compactFields fields' ++ s → fields = fields' ∧ r = s
  | [], [], _, _, _, _, h => ⟨rfl, by simpa [compactFields] using h⟩
  | [], (_, _) :: _, _, _, _, _, h => by simp [compactFields, compactField, dumpText] at h
  | (_, _) :: _, [], _, _, _, _, h => by simp [compactFields, compactField, dumpText] at h
  | field :: fields, field' :: fields', r, s, hf, hf', h => by
    rw [fieldsOk, Bool.and_eq_true] at hf hf'
    rw [compactFields, compactFields, List.append_assoc, List.append_assoc] at h
    obtain ⟨hfield, hmore⟩ := compactField_append_inj field field' hf.1 hf'.1
      (compactMoreFields_stops fields r) (compactMoreFields_stops fields' s) h
    obtain ⟨hfields, hrest⟩ := compactMoreFields_append_inj fields fields' hf.2 hf'.2 hmore
    exact ⟨by rw [hfield, hfields], hrest⟩

theorem compactMoreFields_append_inj : ∀ (fields fields' : List (String × Json))
    {r s : List Char}, fieldsOk fields = true → fieldsOk fields' = true →
      compactMoreFields fields ++ r = compactMoreFields fields' ++ s →
        fields = fields' ∧ r = s
  | [], [], _, _, _, _, h => ⟨rfl, by simpa [compactMoreFields] using h⟩
  | [], _ :: _, _, _, _, _, h => by simp [compactMoreFields] at h
  | _ :: _, [], _, _, _, _, h => by simp [compactMoreFields] at h
  | field :: fields, field' :: fields', r, s, hf, hf', h => by
    rw [fieldsOk, Bool.and_eq_true] at hf hf'
    rw [compactMoreFields, compactMoreFields, List.cons_append, List.cons_append,
      List.cons.injEq, List.append_assoc, List.append_assoc] at h
    obtain ⟨hfield, hmore⟩ := compactField_append_inj field field' hf.1 hf'.1
      (compactMoreFields_stops fields r) (compactMoreFields_stops fields' s) h.2
    obtain ⟨hfields, hrest⟩ := compactMoreFields_append_inj fields fields' hf.2 hf'.2 hmore
    exact ⟨by rw [hfield, hfields], hrest⟩

theorem compactField_append_inj : ∀ (field field' : String × Json) {r s : List Char},
    fieldOk field = true → fieldOk field' = true → Stops r → Stops s →
      compactField field ++ r = compactField field' ++ s → field = field' ∧ r = s
  | (key, value), (key', value'), r, s, hf, hf', hr, hs, h => by
    rw [fieldOk] at hf hf'
    rw [compactField, compactField, List.append_assoc, List.append_assoc] at h
    obtain ⟨hkey, hcolon⟩ := dumpText_append_inj h
    rw [List.cons_append, List.cons_append, List.cons.injEq] at hcolon
    obtain ⟨hvalue, hrest⟩ := compact_append_inj value value' hf hf' hr hs hcolon.2
    exact ⟨by rw [hkey, hvalue], hrest⟩

end

/-- **The canonical text determines the value**, up to the order of keys. -/
theorem canon_inj {v w : Json} (hv : floatsOk v = true) (hw : floatsOk w = true)
    (h : canon v = canon w) : sortKeys v = sortKeys w := by
  have happend : compact (sortKeys v) ++ [] = compact (sortKeys w) ++ [] := by
    simpa [canon] using h
  exact (compact_append_inj _ _ (floatsOk_sortKeys v hv) (floatsOk_sortKeys w hw)
    (by simp [Stops]) (by simp [Stops]) happend).1

end Json
