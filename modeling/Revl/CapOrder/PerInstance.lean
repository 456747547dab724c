import Revl.CapOrder.Substitute

/-!
# Capabilities in an instance

A configuration symbol stands for the value a field has in the instance that declared it. A spawn
site resolves the fields it binds to literals; in the running instance every field has a value.

- `Cap.inInstance`: a capability with its configuration symbols resolved by a configuration.
- `ConfigFree`: a capability that binds no configuration symbol.
- `covers_inInstance`, `covers_inInstance_of_substitute`: **what a capability free of symbols
  covers, resolved at the spawn site or not, it covers in every instance**.
-/

namespace Revl.CapOrder

/-- A `config.` symbol. -/
def ParamValue.isConfig : ParamValue → Bool
  | .symbol ref => !isArg ref
  | _ => false

/-- The value of a parameter under a configuration: none where the field's value is not canonical
for the parameter. -/
def valueAt (config : String → String) (name : String) : ParamValue → Option ParamValue
  | .symbol ref =>
    if isArg ref then some (.symbol ref)
    else (canonParam name (.discrete (config (symbolField ref))) .admitUnknown).toOption
  | v => some v

/-- A capability with its configuration symbols resolved. -/
def Cap.inInstance (config : String → String) (c : Cap) : Option Cap :=
  if c.params.all fun p => (valueAt config p.1 p.2).isSome then
    some ⟨c.token, c.params.map fun p => (p.1, (valueAt config p.1 p.2).getD p.2)⟩
  else none

/-- No parameter is a configuration symbol. -/
def ConfigFree (c : Cap) : Prop := ∀ p ∈ c.params, p.2.isConfig = false

instance (c : Cap) : Decidable (ConfigFree c) := inferInstanceAs (Decidable (∀ p ∈ c.params, _))

variable {config : String → String} {h c c' r : Cap}

theorem valueAt_of_not_config {v : ParamValue} (hv : v.isConfig = false) (name : String) :
    valueAt config name v = some v := by
  cases v with
  | symbol ref =>
    have harg : isArg ref = true := by simpa [ParamValue.isConfig] using hv
    rw [valueAt, if_pos harg]
  | _ => rfl

/-- A capability free of symbols is what it is. -/
theorem ConfigFree.inInstance (hfree : ConfigFree h) : h.inInstance config = some h := by
  have hall : (h.params.all fun p => (valueAt config p.1 p.2).isSome) = true :=
    List.all_eq_true.mpr fun p hp => by rw [valueAt_of_not_config (hfree p hp)]; rfl
  have hsame : (h.params.map fun p => (p.1, (valueAt config p.1 p.2).getD p.2)) = h.params := by
    refine (List.map_congr_left fun p hp => ?_).trans (List.map_id _)
    rw [valueAt_of_not_config (hfree p hp)]
    rfl
  unfold Cap.inInstance
  rw [if_pos hall, hsame]

theorem inInstance_token (hr : c.inInstance config = some r) : r.token = c.token := by
  unfold Cap.inInstance at hr
  split at hr
  · rw [← Option.some.inj hr]
  · exact absurd hr.symm (Option.some_ne_none _)

theorem inInstance_lookup (hr : c.inInstance config = some r) {k : String} {v : ParamValue}
    (hv : Assoc.get? c.params k = some v) :
    ∃ v', valueAt config k v = some v' ∧ Assoc.get? r.params k = some v' := by
  unfold Cap.inInstance at hr
  split at hr
  case isTrue hall =>
    have hsome := List.all_eq_true.mp hall (k, v) (Assoc.mem_of_get? hv)
    obtain ⟨v', hv'⟩ := Option.isSome_iff_exists.mp hsome
    refine ⟨v', hv', ?_⟩
    rw [← Option.some.inj hr]
    show Assoc.get? (c.params.map fun p => (p.1, (valueAt config p.1 p.2).getD p.2)) k = _
    rw [Assoc.get?_map_snd fun k v => (valueAt config k v).getD v, hv, Option.map_some, hv']
    rfl
  case isFalse => exact absurd hr.symm (Option.some_ne_none _)

/-- A value below one that is no configuration symbol is none either. -/
theorem not_config_of_leq {v w : ParamValue} (hle : paramLeq v w = true)
    (hw : w.isConfig = false) : v.isConfig = false := by
  cases v with
  | symbol ref => rwa [(paramLeq_symbol_left ref w).mp hle] at hw
  | _ => rfl

/-- **What a capability free of symbols covers it covers in every instance.** -/
theorem covers_inInstance (hfree : ConfigFree h) (hcovers : covers h c = true)
    (hr : c.inInstance config = some r) : covers h r = true := by
  rw [covers_iff] at hcovers ⊢
  rw [inInstance_token hr]
  refine hcovers.imp_right ?_
  rintro ⟨hstar, htoken, hparams⟩
  refine ⟨hstar, htoken, fun p hp => ?_⟩
  obtain ⟨v, hv, hle⟩ := hparams p hp
  obtain ⟨v', hv', hget⟩ := inInstance_lookup hr hv
  rw [valueAt_of_not_config (not_config_of_leq hle (hfree p hp))] at hv'
  exact ⟨v', hget, Option.some.inj hv' ▸ hle⟩

theorem canonParam_symbol {name ref : String} {d : Declared} {v : ParamValue}
    (hv : canonParam name (.symbol ref) d = .ok v) : v = .symbol ref := by
  unfold canonParam at hv
  by_cases hreg : isRegistered name d = true
  · rw [if_pos hreg] at hv
    obtain ⟨_, _, _, ⟨_, hsym, rfl, _⟩ | ⟨hsym, _⟩⟩ := canonValue_ok hv
    · exact hsym.symm
    · exact absurd hsym (by simp [ParamValue.isSymbol])
  · rw [if_neg hreg] at hv
    by_cases hd : d = .admitUnknown
    · rw [if_pos hd] at hv
      exact (Except.ok.inj hv).symm
    · rw [if_neg hd] at hv
      cases hv

theorem wellFormed_absent (hc : c.WellFormed .admitUnknown) : c.WellFormed .absent := by
  refine ⟨hc.token_ne, hc.star_bare, hc.sorted, fun p hp => ?_⟩
  have := hc.canonical p hp
  rwa [CanonicalParam, ← Declared.orAdmit.eq_1, orderRow_orAdmit] at this

/-- Every parameter of a substituted capability was one before. -/
theorem substitute_source {s : List (String × String)} (hc : c.WellFormed .absent)
    (hc' : substitute c s .absent = .ok c') {k : String} {v : ParamValue}
    (hv : Assoc.get? c'.params k = some v) : ∃ u, Assoc.get? c.params k = some u := by
  by_cases hsym : (c.params.any fun p => p.2.isSymbol) = true
  · rw [substitute_of_symbol s .absent hsym] at hc'
    obtain ⟨p, hp, hname, -⟩ := makeCap_mem hc' (Assoc.mem_of_get? hv)
    obtain ⟨q, hq, rfl⟩ := List.mem_map.mp hp
    replace hname : k = normalize q.1 := hname
    rw [(hc.canonical q hq).1] at hname
    exact ⟨q.2, (Assoc.get?_eq_some_iff hc.sorted.nodup).mpr (hname ▸ hq)⟩
  · rw [substitute_of_no_symbol s .absent hsym] at hc'
    exact ⟨v, Except.ok.inj hc' ▸ hv⟩

/-- **What a capability free of symbols covers once the literals of a spawn site are filled in it
covers in every instance configured so.** -/
theorem covers_inInstance_of_substitute {s : List (String × String)} (hfree : ConfigFree h)
    (hc : c.WellFormed .absent) (hc' : substitute c s .absent = .ok c')
    (hcovers : covers h c' = true)
    (hconfig : ∀ field l, Assoc.get? s field = some l → config field = l)
    (hr : c.inInstance config = some r) : covers h r = true := by
  rw [covers_iff] at hcovers ⊢
  rw [inInstance_token hr, ← substitute_token hc']
  refine hcovers.imp_right ?_
  rintro ⟨hstar, htoken, hparams⟩
  refine ⟨hstar, htoken, fun p hp => ?_⟩
  obtain ⟨v', hv', hle⟩ := hparams p hp
  obtain ⟨v, hv⟩ := substitute_source hc hc' hv'
  obtain ⟨w, hw, hsame, hcanon⟩ := substitute_lookup hc hc' hv
  obtain rfl : v' = w := Option.some.inj (hv'.symm.trans hw)
  obtain ⟨u, hu, hget⟩ := inInstance_lookup hr hv
  refine ⟨u, hget, ?_⟩
  suffices huv : u = v' from huv ▸ hle
  cases v with
  | symbol ref =>
    have hany : (c.params.any fun p => p.2.isSymbol) = true :=
      List.any_eq_true.mpr ⟨_, Assoc.mem_of_get? hv, rfl⟩
    have hcanon := hcanon hany
    rw [resolveParam] at hcanon
    rw [valueAt] at hu
    by_cases harg : isArg ref = true
    · rw [if_pos harg] at hcanon hu
      exact (Option.some.inj hu).symm.trans (canonParam_symbol hcanon).symm
    · rw [if_neg harg] at hcanon hu
      cases hbound : Assoc.get? s (symbolField ref) with
      | some l =>
        rw [hbound] at hcanon
        rw [hconfig _ _ hbound] at hu
        replace hcanon : canonParam p.1 (.discrete l) .admitUnknown = .ok v' := hcanon
        rw [hcanon] at hu
        exact (Option.some.inj hu).symm
      | none =>
        -- An unbound symbol is covered by itself alone.
        rw [hbound] at hcanon
        have hfreeV := not_config_of_leq hle (hfree p hp)
        rw [canonParam_symbol hcanon] at hfreeV
        exact absurd hfreeV (by simp [ParamValue.isConfig, harg])
  | _ =>
    rw [valueAt_of_not_config rfl] at hu
    rw [hsame rfl]
    exact (Option.some.inj hu).symm

end Revl.CapOrder
