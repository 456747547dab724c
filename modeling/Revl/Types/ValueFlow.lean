import Revl.Types.Compatible

/-!
# Chains of value flow

Between closed types value flow is reflexive, a join takes both its branches, and a chain composes
unless it passes from one declared record through a structural one to another.

- `Bridge`: the chains that meet two declared records and a structural one at one place.
- `compatible_trans`: every other chain composes.
- `Bridge.breaks`: without parameters, a bridging chain does not.
-/

namespace Revl.Typecheck

variable {types : TypeTable} {e a : Ty}

/-! ## Wrappers -/

section Wrappers

variable (htypes : ClosedTable types)
include htypes

/-- What flows into a wrapped type: what flows into its inner type, or the same wrapper. -/
theorem compatible_wrapper_iff {w : Head} (hw : isWrapper w) {x : Ty} (he : Closed (.app w [x]))
    (ha : Closed a) : compatible types (.app w [x]) a = true ↔
      (a.head ≠ w ∧ compatible types x a = true) ∨
        ∃ y, a = .app w [y] ∧ compatible types x y = true := by
  have hx : Closed x := he.of_mem (List.mem_singleton_self x)
  rw [compatible_closed_iff htypes he ha]
  constructor
  · intro h
    cases h with
    | same heq => exact .inr ⟨x, heq.symm, compatible_refl types hx⟩
    | fields fe fa hstructural hfe hfa hkeys hall =>
      obtain ⟨s, hs, rfl⟩ := hw.name
      exact absurd rfl (fieldsOf_name htypes hfe hs)
    | widen hwidens => exact absurd hwidens hw.not_widens.1
    | wrap w' x' hw' heq hne hxa =>
      cases heq
      exact .inl ⟨hne, hxa⟩
    | wrapped w' x' y hw' heq heq' hxy =>
      cases heq
      exact .inr ⟨y, heq', hxy⟩
    | functions hfe hfa hlength hparams hresult =>
      exact absurd hfe hw.not_function
    | generic heq hw' hf hstructural hlength hall => exact absurd hw hw'
  · rintro (⟨hne, hxa⟩ | ⟨y, rfl, hxy⟩)
    · exact .wrap w x hw rfl hne hxa
    · exact .wrapped w x y hw rfl rfl hxy

/-- Dropping a wrapper of the actual side keeps the flow, whatever the expected side wraps. -/
theorem compatible_strip {w : Head} (hw : isWrapper w) {x : Ty} (hx : Closed x) {y : Ty}
    (hy : Closed (.app w [y])) (h : compatible types x (.app w [y]) = true) :
    compatible types x y = true := by
  induction x using Ty.induct generalizing w y with
  | app v ts ih =>
    have hy' : Closed y := hy.of_mem (List.mem_singleton_self y)
    by_cases hv : isWrapper v
    · obtain ⟨x, hx', hxc⟩ := hx.wrapped hv
      cases hx'
      -- the expected side wraps `x`: what flows into `x` flows into it
      have hwrap : compatible types x y = true → compatible types (.app v [x]) y = true := by
        intro hxy
        rw [compatible_wrapper_iff htypes hv hx hy']
        by_cases hhead : y.head = v
        · obtain ⟨z, hz, hzc⟩ := hy'.wrapped (hhead ▸ hv)
          rw [hhead] at hz
          rw [hz] at hxy hy'
          exact .inr ⟨z, hz, ih x (List.mem_singleton_self x) hv hxc hy' hxy⟩
        · exact .inl ⟨hhead, hxy⟩
      rcases (compatible_wrapper_iff htypes hv hx hy).mp h with ⟨-, hxw⟩ | ⟨z, hz, hxz⟩
      · exact hwrap (ih x (List.mem_singleton_self x) hw hxc hy hxw)
      · cases hz
        exact hwrap hxz
    · -- no rule takes a wrapped type into an unwrapped one
      exfalso
      cases (compatible_closed_iff htypes hx hy).mp h with
      | same heq =>
        cases heq
        exact hv hw
      | fields fe fa hstructural hfe hfa hkeys hall =>
        obtain ⟨s, hs, rfl⟩ := hw.name
        exact absurd rfl (fieldsOf_name htypes hfa hs)
      | widen hwidens => exact hw.not_widens.2 hwidens
      | wrap w' x' hw' heq hne hxa =>
        cases heq
        exact hv hw'
      | wrapped w' x' y' hw' heq heq' hxy =>
        cases heq
        exact hv hw'
      | functions hfe hfa hlength hparams hresult =>
        exact hw.not_function hfa
      | generic heq hw' hf hstructural hlength hall =>
        rw [Ty.head_app, Ty.head_app] at heq
        exact hv (heq ▸ hw)

theorem compatible_wrap {w : Head} (hw : isWrapper w) {x : Ty} (he : Closed (.app w [x]))
    (ha : Closed a) (h : compatible types x a = true) :
    compatible types (.app w [x]) a = true := by
  rw [compatible_wrapper_iff htypes hw he ha]
  by_cases hhead : a.head = w
  · obtain ⟨z, hz, hzc⟩ := ha.wrapped (hhead ▸ hw)
    rw [hhead] at hz
    subst hz
    exact .inr ⟨z, rfl, compatible_strip htypes hw (he.of_mem (List.mem_singleton_self x)) ha h⟩
  · exact .inl ⟨hhead, h⟩

end Wrappers

/-! ## Chains through two declared records -/

/-- The chain `a ≥ b ≥ c` meets, at some place all three share, two different declared records
and a structural one. -/
inductive Bridge (types : TypeTable) : Ty → Ty → Ty → Prop where
  | overRecord {a b c} : Nominal types a → Structural b → Nominal types c → a ≠ c →
      Bridge types a b c
  | underRecord {a b c} : Structural a → Nominal types b → Nominal types c → b ≠ c →
      Bridge types a b c
  | aboveRecord {a b c} : Nominal types a → Nominal types b → Structural c → a ≠ b →
      Bridge types a b c
  | field {a b c x y z fa fb fc} {k : String} : fieldsOf types a = some fa →
      fieldsOf types b = some fb → fieldsOf types c = some fc → Assoc.get? fa k = some x →
      Assoc.get? fb k = some y → Assoc.get? fc k = some z → Bridge types x y z → Bridge types a b c
  | expected {a b c} {w : Head} : isWrapper w → Bridge types a b c → Bridge types (.app w [a]) b c
  | middle {a b c} {w : Head} : isWrapper w → Bridge types a b c → Bridge types a (.app w [b]) c
  | actual {a b c} {w : Head} : isWrapper w → Bridge types a b c → Bridge types a b (.app w [c])
  | argument {a b c x y z} {i : Nat} : a.head = b.head → b.head = c.head → ¬ isWrapper a.head →
      ¬ isFunctionHead a.head → ¬ Structural a → a.args[i]? = some x → b.args[i]? = some y →
      c.args[i]? = some z → Bridge types x y z → Bridge types a b c
  | parameter {a b c x y z} {i : Nat} : isFunctionHead a.head → isFunctionHead b.head →
      isFunctionHead c.head → i + 1 < a.args.length → a.args[i]? = some x → b.args[i]? = some y →
      c.args[i]? = some z → Bridge types z y x → Bridge types a b c
  | result {a b c x y z} {i : Nat} : isFunctionHead a.head → isFunctionHead b.head →
      isFunctionHead c.head → i + 1 = a.args.length → a.args[i]? = some x → b.args[i]? = some y →
      c.args[i]? = some z → Bridge types x y z → Bridge types a b c

/-- The size of a chain: first the nesting of records, then the length. -/
noncomputable def chainSize (a b c : Ty) : Nat × Nat :=
  (a.depth + b.depth + c.depth, sizeOf a + sizeOf b + sizeOf c)

/-- Transitivity for the chains smaller than one. -/
def TransitiveBelow (types : TypeTable) (a b c : Ty) : Prop :=
  ∀ x y z, Prod.Lex (· < ·) (· < ·) (chainSize x y z) (chainSize a b c) →
    Closed x → Closed y → Closed z → ¬ Bridge types x y z → compatible types x y = true →
    compatible types y z = true → compatible types x z = true

theorem chain_lt {x y z a b c : Ty} (hdepth : x.depth + y.depth + z.depth ≤
      a.depth + b.depth + c.depth)
    (hsize : sizeOf x + sizeOf y + sizeOf z < sizeOf a + sizeOf b + sizeOf c) :
    Prod.Lex (· < ·) (· < ·) (chainSize x y z) (chainSize a b c) := by
  unfold chainSize
  rcases hdepth.lt_or_eq with hlt | heq
  · exact Prod.Lex.left _ _ hlt
  · rw [heq]
    exact Prod.Lex.right _ hsize

/-- Replacing each type of a chain by itself or an argument, one of them by an argument. -/
theorem chain_lt_of_mem {x y z a b c : Ty} (hx : x = a ∨ x ∈ a.args) (hy : y = b ∨ y ∈ b.args)
    (hz : z = c ∨ z ∈ c.args) (h : x ∈ a.args ∨ y ∈ b.args ∨ z ∈ c.args) :
    Prod.Lex (· < ·) (· < ·) (chainSize x y z) (chainSize a b c) := by
  have hle : ∀ {t u : Ty}, t = u ∨ t ∈ u.args → t.depth ≤ u.depth ∧ sizeOf t ≤ sizeOf u := by
    rintro t u (rfl | hmem)
    · exact ⟨le_rfl, le_rfl⟩
    · exact ⟨Ty.depth_le_of_mem hmem, (Ty.sizeOf_lt_of_mem hmem).le⟩
  obtain ⟨hxd, hxs⟩ := hle hx
  obtain ⟨hyd, hys⟩ := hle hy
  obtain ⟨hzd, hzs⟩ := hle hz
  refine chain_lt (by omega) ?_
  rcases h with h | h | h
  · have := Ty.sizeOf_lt_of_mem h
    omega
  · have := Ty.sizeOf_lt_of_mem h
    omega
  · have := Ty.sizeOf_lt_of_mem h
    omega

/-! ## Transitivity -/

section Transitive

variable {b c : Ty}

theorem getElem?_of_length {l m : List Ty} (h : l.length = m.length) {i : Nat} {x : Ty}
    (hx : l[i]? = some x) : ∃ y, m[i]? = some y := by
  obtain ⟨hi, -⟩ := List.getElem?_eq_some_iff.mp hx
  exact ⟨_, List.getElem?_eq_getElem (h ▸ hi)⟩

theorem nominal_iff {s : String} {args : List Ty} : Nominal types (.app (.name s) args) ↔
    ∃ spec, types.get? s = some (.record spec) ∧ args.length = spec.params.length := by
  simp only [Nominal, nominalRecordFields]
  constructor
  · intro h
    split at h
    · rename_i spec hspec
      refine ⟨spec, hspec, ?_⟩
      split_ifs at h with hparams hargs hlength
      · rw [hparams, hargs]
        rfl
      · cases h
      · cases h
      · exact not_not.mp hlength
    · cases h
  · rintro ⟨spec, hspec, hlength⟩
    rw [hspec]
    simp only
    split_ifs with hparams hargs hne
    · rfl
    · rw [hparams] at hlength
      exact absurd (List.length_eq_zero_iff.mp hlength) hargs
    · exact absurd hlength hne
    · rfl

/-- A head applied to as many arguments as in a nominal record is one. -/
theorem Nominal.of_head (h : Nominal types a) (heq : a.head = b.head)
    (hlength : a.args.length = b.args.length) : Nominal types b := by
  obtain ⟨head, as⟩ := a
  obtain ⟨head', bs⟩ := b
  obtain rfl : head = head' := heq
  cases head with
  | record names => cases h
  | name s =>
    obtain ⟨spec, hspec, hparams⟩ := nominal_iff.mp h
    exact nominal_iff.mpr ⟨spec, hspec, Eq.trans hlength.symm hparams⟩

theorem nominal_of_fieldsOf {fields : List (String × Ty)} (h : fieldsOf types a = some fields)
    (hs : ¬ Structural a) : Nominal types a := by
  rcases fieldsOf_eq_some.mp h with h | h
  · exact absurd (by simp [Structural, h]) hs
  · simp [Nominal, h]

theorem fieldsOf_of_nominal (h : Nominal types a) : ∃ fields, fieldsOf types a = some fields := by
  obtain ⟨fields, hfields⟩ := Option.isSome_iff_exists.mp h
  exact ⟨fields, fieldsOf_eq_some.mpr (.inr hfields)⟩

variable (htypes : ClosedTable types) (ha : Closed a) (hb : Closed b) (hc : Closed c)
  (ih : TransitiveBelow types a b c) (hbridge : ¬ Bridge types a b c)
include htypes ha hb hc ih hbridge

theorem trans_wrapper {w : Head} (hw : isWrapper w) {x : Ty} (heq : a = .app w [x])
    (hab : compatible types a b = true) (hbc : compatible types b c = true) :
    compatible types a c = true := by
  subst heq
  have hx : Closed x := ha.of_mem (List.mem_singleton_self x)
  rcases (compatible_wrapper_iff htypes hw ha hb).mp hab with ⟨hne, hxb⟩ | ⟨y, rfl, hxy⟩
  · refine compatible_wrap htypes hw ha hc (ih x b c ?_ hx hb hc ?_ hxb hbc)
    · exact chain_lt_of_mem (.inr (by simp)) (.inl rfl) (.inl rfl) (.inl (by simp))
    · exact fun h => hbridge (.expected hw h)
  · have hy : Closed y := hb.of_mem (List.mem_singleton_self y)
    rcases (compatible_wrapper_iff htypes hw hb hc).mp hbc with ⟨hne, hyc⟩ | ⟨z, rfl, hyz⟩
    · refine compatible_wrap htypes hw ha hc (ih x y c ?_ hx hy hc ?_ hxy hyc)
      · exact chain_lt_of_mem (.inr (by simp)) (.inr (by simp)) (.inl rfl) (.inl (by simp))
      · exact fun h => hbridge (.expected hw (.middle hw h))
    · refine (compatible_wrapper_iff htypes hw ha hc).mpr (.inr ⟨z, rfl, ih x y z ?_ hx hy
        (hc.of_mem (List.mem_singleton_self z)) ?_ hxy hyz⟩)
      · exact chain_lt_of_mem (.inr (by simp)) (.inr (by simp)) (.inr (by simp)) (.inl (by simp))
      · exact fun h => hbridge (.expected hw (.middle hw (.actual hw h)))

theorem trans_fields {fa fb fc : List (String × Ty)} (hfa : fieldsOf types a = some fa)
    (hfb : fieldsOf types b = some fb) (hfc : fieldsOf types c = some fc)
    (hends : Structural a ∨ Structural c)
    (hone : Structural a ∨ Structural b)
    (hkeys : ∀ k, (Assoc.get? fa k).isSome = (Assoc.get? fb k).isSome)
    (hkeys' : ∀ k, (Assoc.get? fb k).isSome = (Assoc.get? fc k).isSome)
    (hab : ∀ k x y, Assoc.get? fa k = some x → Assoc.get? fb k = some y →
      compatible types x y = true)
    (hbc : ∀ k y z, Assoc.get? fb k = some y → Assoc.get? fc k = some z →
      compatible types y z = true) : compatible types a c = true := by
  refine compatible_of_flow htypes ha hc (.fields fa fc hends hfa hfc
    (fun k => (hkeys k).trans (hkeys' k)) ?_)
  intro k x z hx hz
  obtain ⟨y, hy⟩ := Option.isSome_iff_exists.mp ((hkeys k).symm.trans (by rw [hx]; rfl))
  refine ih x y z ?_ (fieldsOf_closed htypes ha hfa hx) (fieldsOf_closed htypes hb hfb hy)
    (fieldsOf_closed htypes hc hfc hz) (fun h => hbridge (.field hfa hfb hfc hx hy hz h))
    (hab k x y hx hy) (hbc k y z hy hz)
  obtain ⟨hxa, hxa'⟩ := fieldsOf_depth hfa hx
  obtain ⟨hyb, hyb'⟩ := fieldsOf_depth hfb hy
  obtain ⟨hzc, -⟩ := fieldsOf_depth hfc hz
  refine Prod.Lex.left _ _ ?_
  rcases hone with hs | hs
  · have := hxa' hs
    omega
  · have := hyb' hs
    omega

theorem trans_functions (hfa : isFunctionHead a.head) (hfb : isFunctionHead b.head)
    (hfc : isFunctionHead c.head) (hlength : a.args.length = b.args.length)
    (hlength' : b.args.length = c.args.length)
    (hparams : ∀ (i : Nat) x y, i + 1 < a.args.length → a.args[i]? = some x →
      b.args[i]? = some y → compatible types y x = true)
    (hresult : ∀ (i : Nat) x y, i + 1 = a.args.length → a.args[i]? = some x →
      b.args[i]? = some y → compatible types x y = true)
    (hparams' : ∀ (i : Nat) y z, i + 1 < b.args.length → b.args[i]? = some y →
      c.args[i]? = some z → compatible types z y = true)
    (hresult' : ∀ (i : Nat) y z, i + 1 = b.args.length → b.args[i]? = some y →
      c.args[i]? = some z → compatible types y z = true) : compatible types a c = true := by
  refine compatible_of_flow htypes ha hc (.functions hfa hfc (hlength.trans hlength') ?_ ?_)
  · intro i x z hi hx hz
    obtain ⟨y, hy⟩ := getElem?_of_length hlength hx
    have hxa := List.mem_of_getElem? hx
    have hyb := List.mem_of_getElem? hy
    have hzc := List.mem_of_getElem? hz
    refine ih z y x ?_ (hc.of_mem hzc) (hb.of_mem hyb) (ha.of_mem hxa)
      (fun h => hbridge (.parameter hfa hfb hfc hi hx hy hz h))
      (hparams' i y z (hlength ▸ hi) hy hz) (hparams i x y hi hx hy)
    have := Ty.depth_le_of_mem hxa
    have := Ty.depth_le_of_mem hyb
    have := Ty.depth_le_of_mem hzc
    have := Ty.sizeOf_lt_of_mem hxa
    have := Ty.sizeOf_lt_of_mem hyb
    have := Ty.sizeOf_lt_of_mem hzc
    exact chain_lt (by omega) (by omega)
  · intro i x z hi hx hz
    obtain ⟨y, hy⟩ := getElem?_of_length hlength hx
    have hxa := List.mem_of_getElem? hx
    have hyb := List.mem_of_getElem? hy
    have hzc := List.mem_of_getElem? hz
    exact ih x y z (chain_lt_of_mem (.inr hxa) (.inr hyb) (.inr hzc) (.inl hxa)) (ha.of_mem hxa)
      (hb.of_mem hyb) (hc.of_mem hzc) (fun h => hbridge (.result hfa hfb hfc hi hx hy hz h))
      (hresult i x y hi hx hy) (hresult' i y z (hlength ▸ hi) hy hz)

theorem trans_generic (heq : a.head = b.head) (heq' : b.head = c.head) (hw : ¬ isWrapper a.head)
    (hf : ¬ isFunctionHead a.head) (hs : ¬ Structural a) (hlength : a.args.length = b.args.length)
    (hlength' : b.args.length = c.args.length)
    (hab : ∀ (i : Nat) x y, a.args[i]? = some x → b.args[i]? = some y →
      compatible types x y = true)
    (hbc : ∀ (i : Nat) y z, b.args[i]? = some y → c.args[i]? = some z →
      compatible types y z = true) : compatible types a c = true := by
  refine compatible_of_flow htypes ha hc
    (.generic (heq.trans heq') hw hf hs (hlength.trans hlength') ?_)
  intro i x z hx hz
  obtain ⟨y, hy⟩ := getElem?_of_length hlength hx
  have hxa := List.mem_of_getElem? hx
  have hyb := List.mem_of_getElem? hy
  have hzc := List.mem_of_getElem? hz
  exact ih x y z (chain_lt_of_mem (.inr hxa) (.inr hyb) (.inr hzc) (.inl hxa)) (ha.of_mem hxa)
    (hb.of_mem hyb) (hc.of_mem hzc)
    (fun h => hbridge (.argument heq heq' hw hf hs hx hy hz h)) (hab i x y hx hy) (hbc i y z hy hz)

theorem trans_step (hab : compatible types a b = true) (hbc : compatible types b c = true) :
    compatible types a c = true := by
  have hnone : ∀ {t : Ty} {f}, fieldsOf types t = some f →
      ∀ {h : Head}, (∃ s ∈ constructorNames, h = .name s) → t.head ≠ h := by
    rintro t f hf h ⟨s, hs, rfl⟩
    exact fieldsOf_name htypes hf hs
  cases flow_of_compatible ha hb hab with
  | same heq => exact heq ▸ hbc
  | wrap w x hw heq hne hxb => exact trans_wrapper htypes ha hb hc ih hbridge hw heq hab hbc
  | wrapped w x y hw heq heq' hxy =>
    exact trans_wrapper htypes ha hb hc ih hbridge hw heq hab hbc
  | widen hwidens =>
    refine compatible_of_flow htypes ha hc (.widen ?_)
    cases flow_of_compatible hb hc hbc with
    | same heq => exact heq ▸ hwidens
    | fields fb fc hs hfb hfc hkeys hall => exact absurd rfl (hnone hfb hwidens.name.2)
    | widen hwidens' => exact hwidens.trans hwidens'
    | wrap w x hw heq hne hxa =>
      subst heq
      exact absurd hwidens hw.not_widens.2
    | wrapped w x y hw heq heq' hxy =>
      subst heq
      exact absurd hwidens hw.not_widens.2
    | functions hfb hfc hlength hparams hresult => exact absurd hwidens hfb.not_widens.2
    | generic heq hw hf hs hlength hall => exact heq ▸ hwidens
  | functions hfa hfb hlength hparams hresult =>
    cases flow_of_compatible hb hc hbc with
    | same heq => exact heq ▸ hab
    | fields fb fc hs hfb' hfc hkeys hall => exact absurd rfl (hnone hfb' hfb.name)
    | widen hwidens => exact absurd hwidens hfb.not_widens.1
    | wrap w x hw heq hne hxa =>
      subst heq
      exact absurd hfb hw.not_function
    | wrapped w x y hw heq heq' hxy =>
      subst heq
      exact absurd hfb hw.not_function
    | functions hfb' hfc hlength' hparams' hresult' =>
      exact trans_functions htypes ha hb hc ih hbridge hfa hfb hfc hlength hlength' hparams hresult
        hparams' hresult'
    | generic heq hw hf hs hlength' hall => exact absurd hfb hf
  | generic heq hw hf hs hlength hall =>
    cases flow_of_compatible hb hc hbc with
    | same heq => exact heq ▸ hab
    | fields fb fc hone hfb hfc hkeys hall' =>
      have hsb : ¬ Structural b := fun h => hs (h.of_head heq.symm)
      have hnb := nominal_of_fieldsOf hfb hsb
      by_cases hsame : a = b
      · exact hsame ▸ hbc
      · exact absurd (.aboveRecord (hnb.of_head heq.symm hlength.symm) hnb
          (hone.resolve_left hsb) hsame) hbridge
    | widen hwidens => exact compatible_of_flow htypes ha hc (.widen (heq ▸ hwidens))
    | wrap w x hw' heq' hne hxa =>
      subst heq'
      exact absurd (heq ▸ hw') hw
    | wrapped w x y hw' heq' heq'' hxy =>
      subst heq'
      exact absurd (heq ▸ hw') hw
    | functions hfb hfc hlength' hparams hresult => exact absurd (heq ▸ hfb) hf
    | generic heq' hw' hf' hs' hlength' hall' =>
      exact trans_generic htypes ha hb hc ih hbridge heq heq' hw hf hs hlength hlength' hall hall'
  | fields fa fb hone hfa hfb hkeys hall =>
    cases flow_of_compatible hb hc hbc with
    | same heq => exact heq ▸ hab
    | fields fb' fc hone' hfb' hfc hkeys' hall' =>
      obtain rfl : fb = fb' := Option.some.inj (hfb.symm.trans hfb')
      by_cases hends : Structural a ∨ Structural c
      · exact trans_fields htypes ha hb hc ih hbridge hfa hfb hfc hends hone hkeys hkeys' hall
          hall'
      · rw [not_or] at hends
        have hna := nominal_of_fieldsOf hfa hends.1
        have hnc := nominal_of_fieldsOf hfc hends.2
        by_cases hsame : a = c
        · exact hsame ▸ compatible_refl types ha
        · exact absurd (.overRecord hna (hone.resolve_left hends.1) hnc hsame) hbridge
    | widen hwidens => exact absurd rfl (hnone hfb hwidens.name.1)
    | wrap w x hw heq hne hxa => exact absurd (congrArg Ty.head heq) (hnone hfb hw.name)
    | wrapped w x y hw heq heq' hxy => exact absurd (congrArg Ty.head heq) (hnone hfb hw.name)
    | functions hfb' hfc hlength hparams hresult => exact absurd rfl (hnone hfb hfb'.name)
    | generic heq hw hf hs hlength hall' =>
      have hnb := nominal_of_fieldsOf hfb hs
      by_cases hsame : b = c
      · exact hsame ▸ hab
      · exact absurd (.underRecord (hone.resolve_right hs) hnb (hnb.of_head heq hlength) hsame)
          hbridge

end Transitive

/-- Value flow composes along every chain that bridges no two declared records. -/
theorem compatible_trans (htypes : ClosedTable types) {a b c : Ty} (ha : Closed a) (hb : Closed b)
    (hc : Closed c) (hbridge : ¬ Bridge types a b c) (hab : compatible types a b = true)
    (hbc : compatible types b c = true) : compatible types a c = true := by
  have hwf : WellFounded (Prod.Lex (· < ·) (· < ·) : Nat × Nat → Nat × Nat → Prop) :=
    WellFounded.prod_lex Nat.lt_wfRel.wf Nat.lt_wfRel.wf
  generalize hn : chainSize a b c = n
  induction n using hwf.induction generalizing a b c with
  | _ n ih =>
    subst hn
    refine trans_step htypes ha hb hc ?_ hbridge hab hbc
    intro x y z hlt hx hy hz hno hxy hyz
    exact ih _ hlt hx hy hz hno hxy hyz rfl

/-! ## Where the chain breaks -/

section Breaks

variable {b c : Ty}

/-- The type under its wrappers. -/
def core : Ty → Ty
  | .app w [x] => if w = .name "Opt" ∨ w = .name "Async" then core x else .app w [x]
  | t => t

theorem core_wrapper {w : Head} (hw : isWrapper w) (x : Ty) : core (.app w [x]) = core x := by
  rw [core]
  exact if_pos hw

theorem core_of_not (h : ¬ isWrapper a.head) : core a = a := by
  unfold core
  split
  · exact if_neg h
  · rfl

/-- No declared record takes parameters. -/
def Monomorphic (types : TypeTable) : Prop :=
  ∀ {name spec}, types.get? name = some (.record spec) → spec.params = []

theorem Nominal.not_structural (h : Nominal types a) : ¬ Structural a := by
  intro hs
  simp [Nominal, nominalRecordFields_of_structural hs] at h

theorem Nominal.eq_of_head (hmono : Monomorphic types) (ha : Nominal types a)
    (hb : Nominal types b) (heq : a.head = b.head) : a = b := by
  obtain ⟨head, as⟩ := a
  obtain ⟨head', bs⟩ := b
  obtain rfl : head = head' := heq
  cases head with
  | record names => cases ha
  | name s =>
    obtain ⟨spec, hspec, has⟩ := nominal_iff.mp ha
    obtain ⟨spec', hspec', hbs⟩ := nominal_iff.mp hb
    rw [hmono hspec, List.length_nil, List.length_eq_zero_iff] at has
    rw [hmono hspec', List.length_nil, List.length_eq_zero_iff] at hbs
    rw [has, hbs]

variable (htypes : ClosedTable types)

include htypes in
theorem core_mono (ha : Closed a) (hb : Closed b) (h : compatible types a b = true) :
    compatible types (core a) (core b) = true := by
  have hcore : ∀ {t : Ty}, Closed t → Closed (core t) ∧ ¬ isWrapper (core t).head := by
    intro t
    induction t using Ty.induct with
    | app w ts ih =>
      intro ht
      by_cases hw : isWrapper w
      · obtain ⟨x, hx, hxc⟩ := ht.wrapped hw
        cases hx
        rw [core_wrapper hw]
        exact ih x (List.mem_singleton_self x) hxc
      · rw [core_of_not (a := .app w ts) hw]
        exact ⟨ht, hw⟩
  have hactual : ∀ {t : Ty}, Closed t → compatible types a t = true →
      compatible types a (core t) = true := by
    intro t
    induction t using Ty.induct with
    | app w ts ih =>
      intro ht hat
      by_cases hw : isWrapper w
      · obtain ⟨x, hx, hxc⟩ := ht.wrapped hw
        cases hx
        rw [core_wrapper hw]
        exact ih x (List.mem_singleton_self x) hxc (compatible_strip htypes hw ha ht hat)
      · rw [core_of_not (a := .app w ts) hw]
        exact hat
  have hb' := hactual hb h
  obtain ⟨hbc, hbw⟩ := hcore hb
  clear h hactual
  induction a using Ty.induct with
  | app w ts ih =>
    by_cases hw : isWrapper w
    · obtain ⟨x, hx, hxc⟩ := ha.wrapped hw
      cases hx
      rw [core_wrapper hw]
      rcases (compatible_wrapper_iff htypes hw ha hbc).mp hb' with ⟨-, hxb⟩ | ⟨y, hy, -⟩
      · exact ih x (List.mem_singleton_self x) hxc hxb
      · rw [hy] at hbw
        exact absurd hw hbw
    · rw [core_of_not (a := .app w ts) hw]
      exact hb'

include htypes in
/-- Two declared records without parameters flow into each other only when they are one. -/
theorem eq_of_nominal_flow (hmono : Monomorphic types) (ha : Nominal types a)
    (hb : Nominal types b) (h : Flow types a b) : a = b := by
  have hnone : ∀ {t : Ty}, Nominal types t → ∀ {h : Head}, (∃ s ∈ constructorNames, h = .name s) →
      t.head ≠ h := by
    rintro t ht h ⟨s, hs, rfl⟩
    obtain ⟨f, hf⟩ := fieldsOf_of_nominal ht
    exact fieldsOf_name htypes hf hs
  cases h with
  | same heq => exact heq
  | fields fa fb hone hfa hfb hkeys hall =>
    exact absurd hone (not_or.mpr ⟨ha.not_structural, hb.not_structural⟩)
  | widen hwidens => exact absurd rfl (hnone ha hwidens.name.1)
  | wrap w x hw heq hne hxa => exact absurd (congrArg Ty.head heq) (hnone ha hw.name)
  | wrapped w x y hw heq heq' hxy => exact absurd (congrArg Ty.head heq) (hnone ha hw.name)
  | functions hfa hfb hlength hparams hresult => exact absurd rfl (hnone ha hfa.name)
  | generic heq hw hf hs hlength hall => exact ha.eq_of_head hmono hb heq

include htypes in
theorem field_flow (hmono : Monomorphic types) (ha : Closed a) (hb : Closed b)
    {fa fb : List (String × Ty)} (hfa : fieldsOf types a = some fa)
    (hfb : fieldsOf types b = some fb) {k : String} {x y : Ty} (hx : Assoc.get? fa k = some x)
    (hy : Assoc.get? fb k = some y) (h : compatible types a b = true) :
    compatible types x y = true := by
  have hsame : a = b → compatible types x y = true := by
    rintro rfl
    obtain rfl : fa = fb := Option.some.inj (hfa.symm.trans hfb)
    obtain rfl : x = y := Option.some.inj (hx.symm.trans hy)
    exact compatible_refl types (fieldsOf_closed htypes ha hfa hx)
  by_cases hs : Structural a ∨ Structural b
  · cases flow_of_compatible ha hb h with
    | same heq => exact hsame heq
    | fields fa' fb' hone hfa' hfb' hkeys hall =>
      obtain rfl : fa = fa' := Option.some.inj (hfa.symm.trans hfa')
      obtain rfl : fb = fb' := Option.some.inj (hfb.symm.trans hfb')
      exact hall k x y hx hy
    | widen hwidens =>
      obtain ⟨s, hs, heq⟩ := hwidens.name.1
      exact absurd heq (fieldsOf_name htypes hfa hs)
    | wrap w x' hw heq hne hxa =>
      obtain ⟨s, hs, rfl⟩ := hw.name
      exact absurd (congrArg Ty.head heq) (fieldsOf_name htypes hfa hs)
    | wrapped w x' y' hw heq heq' hxy =>
      obtain ⟨s, hs, rfl⟩ := hw.name
      exact absurd (congrArg Ty.head heq) (fieldsOf_name htypes hfa hs)
    | functions hfa' hfb' hlength hparams hresult =>
      obtain ⟨s, hs, heq⟩ := hfa'.name
      exact absurd heq (fieldsOf_name htypes hfa hs)
    | generic heq hw hf hns hlength hall =>
      exact absurd (hs.resolve_left hns) fun hsb => hns (hsb.of_head heq.symm)
  · rw [not_or] at hs
    exact hsame (eq_of_nominal_flow htypes hmono (nominal_of_fieldsOf hfa hs.1)
      (nominal_of_fieldsOf hfb hs.2) (flow_of_compatible ha hb h))

theorem argument_flow (heq : a.head = b.head) (hw : ¬ isWrapper a.head)
    (hf : ¬ isFunctionHead a.head) (hs : ¬ Structural a) (ha : Closed a) (hb : Closed b) {i : Nat}
    {x y : Ty} (hx : a.args[i]? = some x) (hy : b.args[i]? = some y)
    (h : compatible types a b = true) : compatible types x y = true := by
  cases flow_of_compatible ha hb h with
  | same hsame =>
    subst hsame
    obtain rfl : x = y := Option.some.inj (hx.symm.trans hy)
    exact compatible_refl types (ha.of_mem (List.mem_of_getElem? hx))
  | fields fa fb hone hfa hfb hkeys hall =>
    exact absurd (hone.resolve_left hs) fun hsb => hs (hsb.of_head heq.symm)
  | widen hwidens =>
    rw [← heq] at hwidens
    exact hwidens.irrefl.elim
  | wrap w x' hw' hwrap hne hxa =>
    subst hwrap
    exact absurd hw' hw
  | wrapped w x' y' hw' hwrap hwrap' hxy =>
    subst hwrap
    exact absurd hw' hw
  | functions hfa hfb hlength hparams hresult => exact absurd hfa hf
  | generic heq' hw' hf' hs' hlength hall => exact hall i x y hx hy

include htypes in
theorem function_flow (hfa : isFunctionHead a.head) (hfb : isFunctionHead b.head) (ha : Closed a)
    (hb : Closed b) {i : Nat} {x y : Ty} (hx : a.args[i]? = some x) (hy : b.args[i]? = some y)
    (h : compatible types a b = true) : a.args.length = b.args.length ∧
      (i + 1 < a.args.length → compatible types y x = true) ∧
      (i + 1 = a.args.length → compatible types x y = true) := by
  cases flow_of_compatible ha hb h with
  | same hsame =>
    subst hsame
    obtain rfl : x = y := Option.some.inj (hx.symm.trans hy)
    have hrefl := compatible_refl types (ha.of_mem (List.mem_of_getElem? hx))
    exact ⟨rfl, fun _ => hrefl, fun _ => hrefl⟩
  | fields fa fb hone hfa' hfb' hkeys hall =>
    obtain ⟨s, hs, heq⟩ := hfa.name
    exact absurd heq (fieldsOf_name htypes hfa' hs)
  | widen hwidens => exact absurd hwidens hfa.not_widens.1
  | wrap w x' hw hwrap hne hxa =>
    subst hwrap
    exact absurd hfa hw.not_function
  | wrapped w x' y' hw hwrap hwrap' hxy =>
    subst hwrap
    exact absurd hfa hw.not_function
  | functions hfa' hfb' hlength hparams hresult =>
    exact ⟨hlength, fun hi => hparams i x y hi hx hy, fun hi => hresult i x y hi hx hy⟩
  | generic heq hw hf hs hlength hall => exact absurd hfa hf

include htypes in
/-- A chain that bridges two declared records does not compose. -/
theorem Bridge.breaks (hmono : Monomorphic types) (hbridge : Bridge types a b c) (ha : Closed a)
    (hb : Closed b) (hc : Closed c) (hab : compatible types (core a) (core b) = true)
    (hbc : compatible types (core b) (core c) = true) :
    compatible types (core a) (core c) = false := by
  rw [← Bool.not_eq_true]
  intro hac
  have hnominal : ∀ {t : Ty}, Nominal types t → core t = t := by
    intro t ht
    refine core_of_not fun hw => ?_
    obtain ⟨s, hs, heq⟩ := hw.name
    obtain ⟨f, hf⟩ := fieldsOf_of_nominal ht
    exact fieldsOf_name htypes hf hs heq
  have hfields : ∀ {t : Ty} {f}, fieldsOf types t = some f → core t = t := by
    intro t f hf
    refine core_of_not fun hw => ?_
    obtain ⟨s, hs, heq⟩ := hw.name
    exact fieldsOf_name htypes hf hs heq
  have hfunction : ∀ {t : Ty}, isFunctionHead t.head → core t = t :=
    fun hf => core_of_not fun hw => hw.not_function hf
  induction hbridge with
  | overRecord hna hsb hnc hne =>
    rw [hnominal hna, hnominal hnc] at hac
    exact hne (eq_of_nominal_flow htypes hmono hna hnc (flow_of_compatible ha hc hac))
  | underRecord hsa hnb hnc hne =>
    rw [hnominal hnb, hnominal hnc] at hbc
    exact hne (eq_of_nominal_flow htypes hmono hnb hnc (flow_of_compatible hb hc hbc))
  | aboveRecord hna hnb hsc hne =>
    rw [hnominal hna, hnominal hnb] at hab
    exact hne (eq_of_nominal_flow htypes hmono hna hnb (flow_of_compatible ha hb hab))
  | field hfa hfb hfc hx hy hz _ ih =>
    rw [hfields hfa, hfields hfb] at hab
    rw [hfields hfb, hfields hfc] at hbc
    rw [hfields hfa, hfields hfc] at hac
    have hxc := fieldsOf_closed htypes ha hfa hx
    have hyc := fieldsOf_closed htypes hb hfb hy
    have hzc := fieldsOf_closed htypes hc hfc hz
    exact ih hxc hyc hzc
      (core_mono htypes hxc hyc (field_flow htypes hmono ha hb hfa hfb hx hy hab))
      (core_mono htypes hyc hzc (field_flow htypes hmono hb hc hfb hfc hy hz hbc))
      (core_mono htypes hxc hzc (field_flow htypes hmono ha hc hfa hfc hx hz hac))
  | expected hw _ ih =>
    rw [core_wrapper hw] at hab hac
    exact ih (ha.of_mem (by simp)) hb hc hab hbc hac
  | middle hw _ ih =>
    rw [core_wrapper hw] at hab hbc
    exact ih ha (hb.of_mem (by simp)) hc hab hbc hac
  | actual hw _ ih =>
    rw [core_wrapper hw] at hbc hac
    exact ih ha hb (hc.of_mem (by simp)) hab hbc hac
  | argument heq heq' hw hf hs hx hy hz _ ih =>
    have hb' := hw
    rw [heq] at hb'
    have hc' := hb'
    rw [heq'] at hc'
    rw [core_of_not hw, core_of_not hb'] at hab
    rw [core_of_not hb', core_of_not hc'] at hbc
    rw [core_of_not hw, core_of_not hc'] at hac
    have hxc := ha.of_mem (List.mem_of_getElem? hx)
    have hyc := hb.of_mem (List.mem_of_getElem? hy)
    have hzc := hc.of_mem (List.mem_of_getElem? hz)
    have hsb := fun h : Structural _ => hs (h.of_head heq.symm)
    exact ih hxc hyc hzc
      (core_mono htypes hxc hyc (argument_flow heq hw hf hs ha hb hx hy hab))
      (core_mono htypes hyc hzc (argument_flow heq' hb' (heq ▸ hf) hsb hb hc hy hz hbc))
      (core_mono htypes hxc hzc (argument_flow (heq.trans heq') hw hf hs ha hc hx hz hac))
  | parameter hfa hfb hfc hi hx hy hz _ ih =>
    rw [hfunction hfa, hfunction hfb] at hab
    rw [hfunction hfb, hfunction hfc] at hbc
    rw [hfunction hfa, hfunction hfc] at hac
    obtain ⟨hlength, hxy, -⟩ := function_flow htypes hfa hfb ha hb hx hy hab
    obtain ⟨-, hyz, -⟩ := function_flow htypes hfb hfc hb hc hy hz hbc
    obtain ⟨-, hxz, -⟩ := function_flow htypes hfa hfc ha hc hx hz hac
    have hxc := ha.of_mem (List.mem_of_getElem? hx)
    have hyc := hb.of_mem (List.mem_of_getElem? hy)
    have hzc := hc.of_mem (List.mem_of_getElem? hz)
    exact ih hzc hyc hxc (core_mono htypes hzc hyc (hyz (hlength ▸ hi)))
      (core_mono htypes hyc hxc (hxy hi)) (core_mono htypes hzc hxc (hxz hi))
  | result hfa hfb hfc hi hx hy hz _ ih =>
    rw [hfunction hfa, hfunction hfb] at hab
    rw [hfunction hfb, hfunction hfc] at hbc
    rw [hfunction hfa, hfunction hfc] at hac
    obtain ⟨hlength, -, hxy⟩ := function_flow htypes hfa hfb ha hb hx hy hab
    obtain ⟨-, -, hyz⟩ := function_flow htypes hfb hfc hb hc hy hz hbc
    obtain ⟨-, -, hxz⟩ := function_flow htypes hfa hfc ha hc hx hz hac
    have hxc := ha.of_mem (List.mem_of_getElem? hx)
    have hyc := hb.of_mem (List.mem_of_getElem? hy)
    have hzc := hc.of_mem (List.mem_of_getElem? hz)
    exact ih hxc hyc hzc (core_mono htypes hxc hyc (hxy hi))
      (core_mono htypes hyc hzc (hyz (hlength ▸ hi))) (core_mono htypes hxc hzc (hxz hi))

include htypes in
/-- The chain composes exactly where it bridges no two declared records. -/
theorem compatible_trans_iff (hmono : Monomorphic types) (ha : Closed a) (hb : Closed b)
    (hc : Closed c) (hab : compatible types a b = true) (hbc : compatible types b c = true) :
    compatible types a c = true ↔ ¬ Bridge types a b c := by
  constructor
  · intro hac hbridge
    have hbreaks := hbridge.breaks htypes hmono ha hb hc (core_mono htypes ha hb hab)
      (core_mono htypes hb hc hbc)
    rw [core_mono htypes ha hc hac] at hbreaks
    cases hbreaks
  · intro hbridge
    exact compatible_trans htypes ha hb hc hbridge hab hbc

end Breaks

/-! ## Joins -/

theorem fillAll_closed {ts : List Ty} (hts : ∀ t ∈ ts, Closed t)
    (hfill : ∀ t ∈ ts, ∀ other, fillUnknownArgs t other = t) (us : List Ty) :
    fillAll ts us = ts := by
  induction ts generalizing us with
  | nil => rfl
  | cons t ts ih =>
    cases us with
    | nil => rfl
    | cons u us =>
      have hany : t ≠ .app (.name "Any") [] := by
        rintro rfl
        exact (hts _ List.mem_cons_self).ne_head (s := "Any") (by simp) rfl
      rw [fillAll, if_neg fun h => hany h.1, hfill t List.mem_cons_self u,
        ih (fun t h => hts t (List.mem_cons_of_mem _ h))
          (fun t h => hfill t (List.mem_cons_of_mem _ h))]

theorem fillUnknownArgs_closed {t : Ty} (ht : Closed t) (other : Ty) :
    fillUnknownArgs t other = t := by
  induction t using Ty.induct generalizing other with
  | app head ts ih =>
    obtain ⟨head', us⟩ := other
    cases head with
    | record names => rfl
    | name s =>
      cases head' with
      | record names => rfl
      | name s' =>
        have hargs : fillAll ts us = ts := fillAll_closed (fun t h => ht.of_mem h)
          (fun t h other => ih t h (ht.of_mem h) other) us
        rw [fillUnknownArgs, hargs, ite_self]

/-- A joined type takes both branches. -/
theorem join_compatible {types : TypeTable} {a b t : Ty} (ha : Closed a) (hb : Closed b)
    (h : join types a b = some t) : compatible types t a = true ∧ compatible types t b = true := by
  unfold join at h
  split_ifs at h with hab hba
  · cases h
    rw [fillUnknownArgs_closed ha]
    exact ⟨compatible_refl types ha, hab⟩
  · cases h
    rw [fillUnknownArgs_closed hb]
    exact ⟨hba, compatible_refl types hb⟩

/-! ## Value flow -/

/-- Value flow on closed types: reflexive, transitive where the chain bridges no two declared
records (and only there when these take no parameters), and above both sides of a join. -/
theorem value_flow {types : TypeTable} (htypes : ClosedTable types) {a b c : Ty} (ha : Closed a)
    (hb : Closed b) (hc : Closed c) :
    compatible types a a = true ∧
    (compatible types a b = true → compatible types b c = true →
      (¬ Bridge types a b c → compatible types a c = true) ∧
      (Monomorphic types → (compatible types a c = true ↔ ¬ Bridge types a b c))) ∧
    ∀ t, join types a b = some t → compatible types t a = true ∧ compatible types t b = true := by
  refine ⟨compatible_refl types ha, fun hab hbc => ⟨fun hbridge => ?_, fun hmono => ?_⟩, ?_⟩
  · exact compatible_trans htypes ha hb hc hbridge hab hbc
  · exact compatible_trans_iff htypes hmono ha hb hc hab hbc
  · intro t ht
    exact join_compatible ha hb ht

def int : Ty := .app (.name "Int") []

def nominal (s : String) : Ty := .app (.name s) []

/-- `{x: Int}` -/
def point : Ty := .app (.record ["x"]) [int]

/-- `type A = { x: Int }` and `type B = { x: Int }` -/
def twoRecords : TypeTable where
  entries :=
    let spec := ⟨[], ⟨[("x", int)], List.nodup_singleton _⟩, by simp [int, Ty.depth, Ty.depthAll]⟩
    [("A", .record spec), ("B", .record spec)]
  nodup := by simp

theorem closed_int : Closed int := .app (by simp [ClosedHead, isWrapper]) (by simp)

theorem closed_nominal {s : String} (h : ClosedHead (.name s) []) : Closed (nominal s) :=
  .app h (by simp)

theorem closed_point : Closed point :=
  .app (by simp [ClosedHead]) (by simpa using closed_int)

theorem twoRecords_spec {s : String} {spec : RecordSpec}
    (h : twoRecords.get? s = some (.record spec)) :
    (s = "A" ∨ s = "B") ∧ spec.params = [] ∧ spec.fields.entries = [("x", int)] := by
  have hmem := Dict.get?_eq_some_iff.mp h
  simp only [twoRecords, List.mem_cons, Prod.mk.injEq, TypeSpec.record.injEq, List.not_mem_nil,
    or_false] at hmem
  rcases hmem with ⟨rfl, rfl⟩ | ⟨rfl, rfl⟩
  · exact ⟨.inl rfl, rfl, rfl⟩
  · exact ⟨.inr rfl, rfl, rfl⟩

theorem twoRecords_closed : ClosedTable twoRecords where
  closed h p hp := by
    rw [(twoRecords_spec h).2.2, List.mem_singleton] at hp
    rw [hp]
    exact closed_int
  names h := by
    rcases (twoRecords_spec h).1 with rfl | rfl <;> decide

theorem twoRecords_monomorphic : Monomorphic twoRecords := fun h => (twoRecords_spec h).2.1

theorem closed_a : Closed (nominal "A") := closed_nominal (by simp [ClosedHead, isWrapper])

theorem closed_b : Closed (nominal "B") := closed_nominal (by simp [ClosedHead, isWrapper])

theorem a_takes_point : compatible twoRecords (nominal "A") point = true := by
  rw [compatible_iff]
  exact ⟨[(int, int)], by decide, by simpa using compatible_refl twoRecords closed_int⟩

theorem point_takes_b : compatible twoRecords point (nominal "B") = true := by
  rw [compatible_iff]
  exact ⟨[(int, int)], by decide, by simpa using compatible_refl twoRecords closed_int⟩

/-- A value of `B` reaches an `A` through a binding of `{x: Int}` and not directly. -/
theorem records_interchanged : ClosedTable twoRecords ∧ Closed (nominal "A") ∧ Closed point ∧
    Closed (nominal "B") ∧ compatible twoRecords (nominal "A") point = true ∧
    compatible twoRecords point (nominal "B") = true ∧
    compatible twoRecords (nominal "A") (nominal "B") = false := by
  refine ⟨twoRecords_closed, closed_a, closed_point, closed_b, a_takes_point, point_takes_b, ?_⟩
  rw [← Bool.not_eq_true, compatible_iff]
  have hdemands : demands twoRecords (nominal "A") (nominal "B") = none := by decide
  simp [hdemands]

/-- The chain of `A`, `{x: Int}` and `B` is one that does not compose. -/
theorem value_flow_two_records :
    ¬ compatible twoRecords (nominal "A") (nominal "B") = true := by
  have hflow := value_flow twoRecords_closed closed_a closed_point closed_b
  rw [(hflow.2.1 a_takes_point point_takes_b).2 twoRecords_monomorphic]
  exact fun hno => hno (.overRecord rfl rfl rfl (by decide))

end Revl.Typecheck
