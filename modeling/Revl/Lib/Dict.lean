import Revl.Lib.Assoc

/-!
# Insertion-ordered maps

A finite map that keeps its keys in the order they were first bound, each bound once. Setting a
key that is there replaces its value where it stands.

- `Dict`: the bindings, each key once.
- `get?`, `set`, `erase`, `map`, `filter`, `update`, `tabulate`: reading, binding and unbinding one
  key, changing every value, keeping some values, binding many, and one value for each key.
- `get?_set`, `get?_erase`, `get?_map`, `get?_filter`, `get?_update`, `get?_tabulate`: what the
  changed map reads.
-/

universe u v

/-- The bindings of a map in order, each key once. -/
structure Dict (K : Type u) (V : Type v) where
  entries : List (K × V)
  nodup : (entries.map Prod.fst).Nodup

namespace Dict

variable {K : Type u} {V : Type v}

def empty : Dict K V := ⟨[], List.nodup_nil⟩

/-- Every value changed in place. -/
def map (d : Dict K V) (f : K → V → V) : Dict K V where
  entries := d.entries.map fun p => (p.1, f p.1 p.2)
  nodup := by
    rw [List.map_map]
    exact d.nodup

/-- The bindings whose value is kept. -/
def filter (d : Dict K V) (keep : V → Bool) : Dict K V where
  entries := d.entries.filter fun p => keep p.2
  nodup := (d.nodup).sublist (List.filter_sublist.map _)

variable [DecidableEq K]

def get? (d : Dict K V) (k : K) : Option V := Assoc.get? d.entries k

theorem get?_eq_some_iff {d : Dict K V} {k : K} {v : V} :
    d.get? k = some v ↔ (k, v) ∈ d.entries :=
  Assoc.get?_eq_some_iff d.nodup

theorem get?_eq_none_iff {d : Dict K V} {k : K} : d.get? k = none ↔ ∀ v, (k, v) ∉ d.entries :=
  Assoc.get?_eq_none_iff

@[simp] theorem get?_empty (k : K) : (empty : Dict K V).get? k = none := rfl

@[simp] theorem get?_map (d : Dict K V) (f : K → V → V) (k : K) :
    (d.map f).get? k = (d.get? k).map (f k) :=
  Assoc.get?_map_snd f d.entries k

theorem get?_filter (d : Dict K V) (keep : V → Bool) (k : K) :
    (d.filter keep).get? k = (d.get? k).filter keep := by
  refine Option.ext fun v => ?_
  rw [get?_eq_some_iff, Option.filter_eq_some_iff, get?_eq_some_iff]
  exact List.mem_filter

/-- `d[k] = v`: in place where the key is bound, at the end otherwise. -/
def set (d : Dict K V) (k : K) (v : V) : Dict K V :=
  if hnew : (d.get? k).isSome = true then d.map fun k' w => if k' = k then v else w
  else
    { entries := d.entries ++ [(k, v)]
      nodup := by
        rw [List.map_append]
        refine List.nodup_append'.mpr ⟨d.nodup, List.nodup_singleton _, ?_⟩
        intro k' hmem hk'
        obtain rfl : k' = k := by simpa using hk'
        obtain ⟨⟨k'', w⟩, hw, rfl⟩ := List.mem_map.mp hmem
        exact hnew (Assoc.get?_isSome_of_mem hw) }

theorem get?_set (d : Dict K V) (k : K) (v : V) (k' : K) :
    (d.set k v).get? k' = if k' = k then some v else d.get? k' := by
  unfold set
  by_cases h : (d.get? k).isSome = true
  · rw [dif_pos h, get?_map]
    by_cases hk : k' = k
    · subst hk
      obtain ⟨w, hw⟩ := Option.isSome_iff_exists.mp h
      simp [hw]
    · simp [hk]
  · rw [dif_neg h]
    show Assoc.get? (d.entries ++ [(k, v)]) k' = _
    rw [Assoc.get?_append, Assoc.get?_cons, Assoc.get?_nil, Option.none_or]
    by_cases hk : k' = k
    · simp [hk]
    · simp [hk, Ne.symm hk, get?]

@[simp] theorem get?_set_self (d : Dict K V) (k : K) (v : V) : (d.set k v).get? k = some v := by
  rw [get?_set, if_pos rfl]

theorem get?_set_of_ne {d : Dict K V} {k k' : K} (v : V) (h : k' ≠ k) :
    (d.set k v).get? k' = d.get? k' := by
  rw [get?_set, if_neg h]

/-- A key set twice in a row keeps the second value. -/
theorem set_set (d : Dict K V) (k : K) (v w : V) : (d.set k v).set k w = d.set k w := by
  have hset : ((d.set k v).get? k).isSome = true := by rw [get?_set_self]; rfl
  rw [set, dif_pos hset]
  unfold set
  by_cases h : (d.get? k).isSome = true
  · rw [dif_pos h, dif_pos h]
    simp only [map, List.map_map]
    congr 1
    refine List.map_congr_left fun p _ => ?_
    by_cases hk : p.1 = k <;> simp [hk]
  · rw [dif_neg h, dif_neg h]
    simp only [map, List.map_append, List.map_cons, List.map_nil, if_true]
    congr 2
    refine (List.map_congr_left fun p hp => ?_).trans (List.map_id _)
    have hne : p.1 ≠ k := by
      rintro rfl
      exact h (Assoc.get?_isSome_of_mem hp)
    simp [hne]

/-- `d.pop(k, None)` -/
def erase (d : Dict K V) (k : K) : Dict K V where
  entries := d.entries.filter fun p => decide (p.1 ≠ k)
  nodup := (d.nodup).sublist (List.filter_sublist.map _)

theorem get?_erase (d : Dict K V) (k k' : K) :
    (d.erase k).get? k' = if k' = k then none else d.get? k' := by
  refine Option.ext fun v => ?_
  have hmem : (d.erase k).get? k' = some v ↔ d.get? k' = some v ∧ k' ≠ k := by
    rw [get?_eq_some_iff, get?_eq_some_iff]
    exact List.mem_filter.trans (and_congr_right fun _ => decide_eq_true_iff)
  rw [hmem]
  by_cases h : k' = k
  · rw [if_pos h]
    exact ⟨fun hv => absurd h hv.2, nofun⟩
  · rw [if_neg h]
    exact and_iff_left h

/-- A value for each of some keys. -/
def tabulate (keys : List K) (f : K → V) : Dict K V where
  entries := keys.dedup.map fun k => (k, f k)
  nodup := by
    rw [List.map_map]
    exact (List.map_id _).symm ▸ List.nodup_dedup keys

theorem get?_tabulate (keys : List K) (f : K → V) (k : K) :
    (tabulate keys f).get? k = if k ∈ keys then some (f k) else none := by
  refine Option.ext fun v => ?_
  rw [get?_eq_some_iff]
  simp only [tabulate, List.mem_map, List.mem_dedup, Prod.mk.injEq]
  by_cases h : k ∈ keys
  · rw [if_pos h, Option.some.injEq]
    exact ⟨fun ⟨_, _, hk, hv⟩ => hk ▸ hv, fun hv => ⟨k, h, rfl, hv⟩⟩
  · rw [if_neg h]
    exact ⟨fun ⟨_, hk', hk, _⟩ => absurd (hk ▸ hk') h, nofun⟩

/-- `d.update(bindings)`: the bindings set in turn. -/
def update (d : Dict K V) (bindings : List (K × V)) : Dict K V :=
  bindings.foldl (fun d p => d.set p.1 p.2) d

theorem update_append (d : Dict K V) (bindings more : List (K × V)) :
    d.update (bindings ++ more) = (d.update bindings).update more :=
  List.foldl_append

theorem get?_update_of_notMem {bindings : List (K × V)} {k : K} (h : k ∉ bindings.map Prod.fst)
    (d : Dict K V) : (d.update bindings).get? k = d.get? k := by
  induction bindings generalizing d with
  | nil => rfl
  | cons p bindings ih =>
    rw [List.map_cons, List.mem_cons, not_or] at h
    exact (ih h.2 _).trans (get?_set_of_ne _ h.1)

/-- Distinct bindings all take hold, and the other keys keep their values. -/
theorem get?_update {bindings : List (K × V)} (h : (bindings.map Prod.fst).Nodup) (d : Dict K V)
    (k : K) : (d.update bindings).get? k = (Assoc.get? bindings k).or (d.get? k) := by
  induction bindings generalizing d with
  | nil => rfl
  | cons p bindings ih =>
    obtain ⟨k', v⟩ := p
    rw [List.map_cons, List.nodup_cons] at h
    show ((d.set k' v).update bindings).get? k = _
    rw [ih h.2, Assoc.get?_cons, get?_set]
    by_cases hk : k = k'
    · subst hk
      have hnone : Assoc.get? bindings k = none :=
        Assoc.get?_eq_none_iff.mpr fun w hw => h.1 (List.mem_map.mpr ⟨_, hw, rfl⟩)
      simp [hnone]
    · simp [hk, Ne.symm hk]

end Dict
