import Revl.CapOrder.Parse
import Revl.CapOrder.Substitute

/-!
# Writing a capability down and reading it back

`Cap.to_str` renders each value by its own type, and a stored spelling is read back without the
declaration that named its parameters: a declared path comes back as the string of its
characters.

- `Returned`: the capabilities the constructors return.
- `Legible`: the capabilities whose spelling says what they are.
- `reread`, `parseStoredCap_toStr`: what reading the spelling of a legible capability returns.
- `spelling_faithful`: **a legible capability is read back with its names, a core one as it was,
  and reading never widens a cone**.
-/

namespace Revl.CapOrder

open PyText
open Fallible (bind_ok)

/-! ## The spelling -/

/-- A path as its source spelling, without the quotes. -/
def pathText (components : List String) : List Char :=
  '/' :: join '/' (components.map String.toList)

def quoted (text : List Char) : List Char := '"' :: text ++ ['"']

/-- `_render_value`. -/
def renderValue : ParamValue → Option (List Char)
  | .symbol ref => some ref.toList
  | .ceiling n => strInt n
  | .path components => some (quoted (pathText components))
  | .discrete s => some (quoted s.toList)

/-- One `name=value` piece. -/
def renderParam (p : String × ParamValue) : Option (List Char) :=
  (renderValue p.2).map fun value => p.1.toList ++ '=' :: value

/-- `Cap.to_str`: `none` is the `ValueError` of an integer with too many digits. -/
def Cap.toStr (c : Cap) : Option String :=
  if c.params = [] then some c.token
  else (c.params.mapM renderParam).map fun pieces =>
    String.ofList (c.token.toList ++ '(' :: join ',' pieces ++ [')'])

/-- The capabilities the constructors return. -/
inductive Returned : Cap → Prop where
  | make {token : String} {raw : List (String × ParamValue)} {d : Declared} {c : Cap}
      (h : makeCap token raw d = .ok c) : Returned c
  | parse {text : String} {d : Declared} {c : Cap} (h : parseCap text d = .ok c) : Returned c
  | substitute {c c' : Cap} {bindings : List (String × String)} {d : Declared}
      (hc : Returned c) (h : substitute c bindings d = .ok c') : Returned c'

/-! ## Legible capabilities -/

/-- A core parameter name. -/
def isCore (name : String) : Bool := (Assoc.get? registry name).isSome

/-- The name reads back as itself. -/
def NameLegible (name : String) : Prop :=
  strip name.toList = name.toList ∧ ∀ ch ∈ ['=', ',', '"'], ch ∉ name.toList

/-- A path component as `_canon_path` leaves it. -/
def ComponentLegible (component : String) : Prop :=
  component ≠ "" ∧ component ≠ "." ∧ component ≠ ".." ∧
    ∀ ch ∈ ['/', '"', '(', ')', ',', '='], ch ∉ component.toList

/-- The value reads back as itself, or as the string of its characters. -/
def ValueLegible (name : String) : ParamValue → Prop
  | .symbol ref =>
    (configPrefix.isPrefixOf ref.toList = true ∨ isArgumentName ref.toList = true) ∧
      strip ref.toList = ref.toList ∧ ∀ ch ∈ [',', '"'], ch ∉ ref.toList
  | .ceiling n => (strInt n).isSome ∧ (isCore name = true → 0 ≤ n)
  | .path components => components ≠ [] ∧ ∀ c ∈ components, ComponentLegible c
  | .discrete s => '"' ∉ s.toList

/-- The spelling says what the capability is. -/
structure Cap.Legible (c : Cap) : Prop where
  token : '(' ∉ c.token.toList
  names : ∀ p ∈ c.params, NameLegible p.1
  values : ∀ p ∈ c.params, ValueLegible p.1 p.2

/-- No declared path of one meets the string of its own characters in the other. -/
def Apart (a b : Cap) : Prop :=
  ∀ name components s, isCore name = false → pathText components = s.toList →
    ¬ ((name, .path components) ∈ a.params ∧ (name, .discrete s) ∈ b.params) ∧
      ¬ ((name, .discrete s) ∈ a.params ∧ (name, .path components) ∈ b.params)

/-! ## Splitting -/

/-- Reading the piece leaves the reader outside a string, with no comma seen. -/
def Plain (piece : List Char) : Prop :=
  ∀ current rest, splitParams false current (piece ++ rest) =
    splitParams false (current ++ piece) rest

theorem plain_append {p q : List Char} (hp : Plain p) (hq : Plain q) : Plain (p ++ q) := by
  intro current rest
  rw [List.append_assoc, hp, hq, List.append_assoc]

theorem plain_of_forall {p : List Char} (h : ∀ ch ∈ p, ch ≠ '"' ∧ ch ≠ ',') : Plain p := by
  intro current rest
  induction p generalizing current with
  | nil => rw [List.append_nil, List.nil_append]
  | cons c p ih =>
    obtain ⟨hq, hc⟩ := h c List.mem_cons_self
    rw [List.cons_append, splitParams, if_neg hq, if_neg (fun h => hc h.1),
      ih (fun ch hch => h ch (List.mem_cons_of_mem _ hch)), List.append_assoc]
    rfl

/-- Inside a string everything up to the closing quote belongs to it. -/
theorem splitParams_string {s : List Char} (h : '"' ∉ s) (current rest : List Char) :
    splitParams true current (s ++ '"' :: rest) =
      splitParams false (current ++ s ++ ['"']) rest := by
  induction s generalizing current with
  | nil => rw [List.nil_append, splitParams, if_pos rfl, List.append_nil]; rfl
  | cons c s ih =>
    rw [List.mem_cons, not_or] at h
    rw [List.cons_append, splitParams, if_neg (Ne.symm h.1), if_neg (fun h => nomatch h.2),
      ih h.2]
    simp

theorem plain_quoted {s : List Char} (h : '"' ∉ s) : Plain (quoted s) := by
  intro current rest
  rw [quoted, List.cons_append, List.cons_append, splitParams, if_pos rfl, List.append_assoc]
  show splitParams true (current ++ ['"']) (s ++ '"' :: rest) = _
  rw [splitParams_string h]
  simp

/-- **Joined plain pieces are split where they were joined.** -/
theorem splitParams_join {pieces : List (List Char)} (hne : pieces ≠ [])
    (h : ∀ p ∈ pieces, Plain p) : splitParams false [] (join ',' pieces) = pieces := by
  induction pieces with
  | nil => exact absurd rfl hne
  | cons p ps ih =>
    have hp := h p List.mem_cons_self
    cases ps with
    | nil =>
      have := hp [] []
      rw [List.append_nil, List.nil_append] at this
      rw [join, this, splitParams]
    | cons q qs =>
      rw [join, hp, List.nil_append, splitParams, if_neg (by decide), if_pos ⟨rfl, rfl⟩,
        ih (List.cons_ne_nil _ _) fun x hx => h x (List.mem_cons_of_mem _ hx)]

/-! ## Reading one value -/

/-- The value a spelling is read as, before it is canonicalized. -/
def spelled : ParamValue → ParamValue
  | .path components => .discrete (String.ofList (pathText components))
  | v => v

theorem getLast?_quoted (s : List Char) : (quoted s).getLast? = some '"' := by
  show (('"' :: s) ++ ['"']).getLast? = some '"'
  exact List.getLast?_concat

theorem strip_quoted (s : List Char) : strip (quoted s) = quoted s := by
  have hhead : ∀ c ∈ (quoted s).head?, isSpace c = false := by
    intro c hc
    obtain rfl : '"' = c := by simpa [quoted] using hc
    rfl
  have hlast : ∀ c ∈ (quoted s).getLast?, isSpace c = false := by
    intro c hc
    obtain rfl : '"' = c := by simpa [getLast?_quoted] using hc
    rfl
  exact strip_of_ends hhead hlast

theorem parseValue_quoted (s : List Char) :
    parseValue (quoted s) = .ok (.discrete (String.ofList s)) := by
  have hlen : 2 ≤ (quoted s).length := by simp [quoted]
  rw [parseValue, if_pos ⟨hlen, rfl, getLast?_quoted s⟩]
  simp [quoted]

theorem mem_join {sep ch : Char} {parts : List (List Char)} (h : ch ∈ join sep parts) :
    ch = sep ∨ ∃ p ∈ parts, ch ∈ p := by
  induction parts with
  | nil => exact nomatch h
  | cons p ps ih =>
    cases ps with
    | nil => exact .inr ⟨p, List.mem_cons_self, h⟩
    | cons q qs =>
      rw [join, List.mem_append, List.mem_cons] at h
      rcases h with h | rfl | h
      · exact .inr ⟨p, List.mem_cons_self, h⟩
      · exact .inl rfl
      · exact (ih h).imp_right fun ⟨x, hx, hch⟩ => ⟨x, List.mem_cons_of_mem _ hx, hch⟩

theorem mem_join_of_mem {sep ch : Char} {parts : List (List Char)} {p : List Char}
    (hp : p ∈ parts) (hch : ch ∈ p) : ch ∈ join sep parts := by
  induction parts with
  | nil => exact nomatch hp
  | cons q qs ih =>
    cases qs with
    | nil => exact List.mem_singleton.1 hp ▸ hch
    | cons r rs =>
      rw [join, List.mem_append, List.mem_cons]
      rcases List.mem_cons.1 hp with rfl | hp
      · exact .inl hch
      · exact .inr (.inr (ih hp))

theorem mem_pathText {components : List String} {ch : Char} (h : ch ∈ pathText components) :
    ch = '/' ∨ ∃ c ∈ components, ch ∈ c.toList := by
  rcases List.mem_cons.1 h with rfl | h
  · exact .inl rfl
  · refine (mem_join h).imp_right ?_
    rintro ⟨p, hp, hch⟩
    obtain ⟨c, hc, rfl⟩ := List.mem_map.1 hp
    exact ⟨c, hc, hch⟩

theorem pathText_clean {components : List String} (h : ∀ c ∈ components, ComponentLegible c)
    {ch : Char} (hch : ch ∈ ['"', '(', ')', ',', '=']) : ch ∉ pathText components := by
  intro hmem
  rcases mem_pathText hmem with rfl | ⟨c, hc, hcc⟩
  · exact absurd hch (by decide)
  · exact (h c hc).2.2.2 ch (List.mem_cons_of_mem _ hch) hcc

/-- What a legible value is written as, and what that is read as. -/
theorem parseValue_render {name : String} {v : ParamValue} (h : ValueLegible name v) :
    ∃ text, renderValue v = some text ∧ Plain text ∧ strip text = text ∧
      parseValue text = .ok (spelled v) := by
  cases v with
  | symbol ref =>
    obtain ⟨hsym, hstrip, hclean⟩ := h
    refine ⟨ref.toList, rfl, plain_of_forall fun ch hch => ?_, hstrip, ?_⟩
    · exact ⟨fun he => hclean '"' (by decide) (he ▸ hch),
        fun he => hclean ',' (by decide) (he ▸ hch)⟩
    · have hquote : ¬ (2 ≤ ref.toList.length ∧ ref.toList.head? = some '"' ∧
          ref.toList.getLast? = some '"') :=
        fun hq => hclean '"' (by decide) (List.mem_of_mem_head? hq.2.1)
      rw [parseValue, if_neg hquote, if_pos (by simpa using hsym), String.ofList_toList]
      rfl
  | ceiling n =>
    obtain ⟨text, htext⟩ := Option.isSome_iff_exists.1 h.1
    have hdigit := strInt_digits htext
    refine ⟨text, htext, plain_of_forall fun ch hch => ?_, strip_eq_self fun ch hch => ?_, ?_⟩
    · rcases hdigit ch hch with rfl | hd
      · exact ⟨by decide, by decide⟩
      · exact ⟨fun he => absurd hd (by rw [he]; decide), fun he => absurd hd (by rw [he]; decide)⟩
    · rcases hdigit ch hch with rfl | hd
      · rfl
      · exact isSpace_of_isDigit hd
    · -- a digit or a sign starts no string, no symbol and no name
      have hhead : ∀ ch, text.head? = some ch → ch = '-' ∨ ch.isDigit = true :=
        fun ch hch => hdigit ch (List.mem_of_mem_head? hch)
      have hquote : ¬ (2 ≤ text.length ∧ text.head? = some '"' ∧ text.getLast? = some '"') :=
        fun hq => by
          rcases hhead '"' hq.2.1 with he | he
          · exact absurd he (by decide)
          · exact absurd he (by decide)
      have hname : ¬ ((configPrefix.isPrefixOf text || isArgumentName text) = true) := by
        cases text with
        | nil => decide
        | cons ch rest =>
          have hne : ch ≠ 'c' ∧ ch.isAlpha = false ∧ ch ≠ '_' := by
            rcases hhead ch rfl with rfl | hd
            · decide
            · obtain ⟨d, hd, rfl⟩ := digitChar_of_isDigit hd
              interval_cases d <;> decide
          have hpre : configPrefix.isPrefixOf (ch :: rest) = false := by
            have hc : ('c' == ch) = false := by simpa using Ne.symm hne.1
            show (('c' == ch) && _) = false
            rw [hc, Bool.false_and]
          simp [hpre, isArgumentName, hne.2.1, hne.2.2]
      rw [parseValue, if_neg hquote, if_neg hname, parseInt_strInt htext]
      rfl
  | path components =>
    have hclean : '"' ∉ pathText components := pathText_clean h.2 (by decide)
    exact ⟨_, rfl, plain_quoted hclean, strip_quoted _, parseValue_quoted _⟩
  | discrete s =>
    refine ⟨_, rfl, plain_quoted h, strip_quoted _, ?_⟩
    rw [parseValue_quoted, String.ofList_toList]
    rfl

/-! ## Reading one parameter -/

theorem parseParam_render {p : String × ParamValue} (hname : NameLegible p.1)
    (hvalue : ValueLegible p.1 p.2) :
    ∃ piece, renderParam p = some piece ∧ Plain piece ∧ '=' ∈ piece ∧
      parseParam piece = .ok (p.1, spelled p.2) := by
  obtain ⟨text, htext, hplain, hstrip, hparse⟩ := parseValue_render hvalue
  obtain ⟨hnstrip, hnclean⟩ := hname
  have heq : '=' ∉ p.1.toList := hnclean '=' (by decide)
  have hmem : '=' ∈ p.1.toList ++ '=' :: text := by simp
  refine ⟨p.1.toList ++ '=' :: text, by rw [renderParam, htext]; rfl, ?_, hmem, ?_⟩
  · refine plain_append (plain_of_forall fun ch hch => ?_)
      (plain_append (p := ['=']) (plain_of_forall (by simp)) hplain)
    exact ⟨fun he => hnclean '"' (by decide) (he ▸ hch),
      fun he => hnclean ',' (by decide) (he ▸ hch)⟩
  · have hne : ∀ ch ∈ p.1.toList, decide (ch ≠ '=') = true := fun ch hch =>
      decide_eq_true fun he => heq (he ▸ hch)
    have htake : (p.1.toList ++ '=' :: text).takeWhile (· ≠ '=') = p.1.toList := by
      rw [List.takeWhile_append_of_pos hne]
      simp
    have hdrop : (p.1.toList ++ '=' :: text).dropWhile (· ≠ '=') = '=' :: text := by
      rw [List.dropWhile_append_of_pos hne]
      simp
    rw [parseParam, if_pos hmem, htake, hdrop, List.drop_one, List.tail_cons, hstrip, hparse,
      hnstrip, String.ofList_toList]
    rfl

theorem mapM_render {params : List (String × ParamValue)}
    (h : ∀ p ∈ params, NameLegible p.1 ∧ ValueLegible p.1 p.2) :
    ∃ pieces, params.mapM renderParam = some pieces ∧ pieces.length = params.length ∧
      (∀ piece ∈ pieces, Plain piece ∧ '=' ∈ piece) ∧
      pieces.mapM parseParam = .ok (params.map fun p => (p.1, spelled p.2)) := by
  induction params with
  | nil => exact ⟨[], rfl, rfl, (fun _ hp => nomatch hp), rfl⟩
  | cons p params ih =>
    obtain ⟨hname, hvalue⟩ := h p List.mem_cons_self
    obtain ⟨piece, hpiece, hplain, heq, hparse⟩ := parseParam_render hname hvalue
    obtain ⟨pieces, hpieces, hlen, hplains, hparses⟩ :=
      ih fun q hq => h q (List.mem_cons_of_mem _ hq)
    refine ⟨piece :: pieces, ?_, ?_, ?_, ?_⟩
    · simp [List.mapM_cons, hpiece, hpieces]
    · rw [List.length_cons, List.length_cons, hlen]
    · exact List.forall_mem_cons.2 ⟨⟨hplain, heq⟩, hplains⟩
    · simp only [List.mapM_cons, hparse, hparses]
      rfl

/-! ## Reading a whole spelling -/

/-- What a parameter is stored as by a read that does not see its declaration. -/
def rereadParam (p : String × ParamValue) : String × ParamValue :=
  (p.1, if isCore p.1 then p.2 else spelled p.2)

/-- What reading the spelling of a legible capability returns. -/
def reread (c : Cap) : Cap := ⟨c.token, c.params.map rereadParam⟩

theorem isRegistered_admit {name : String} (h : normalize name = name) :
    isRegistered name .admitUnknown = isCore name := by
  simp [isRegistered, isCore, declaredOrder, h]

/-! ### Paths -/

theorem splitSlash_plain {p : List Char} (h : '/' ∉ p) : splitSlash p = [p] := by
  induction p with
  | nil => rfl
  | cons c p ih =>
    rw [List.mem_cons, not_or] at h
    rw [splitSlash, if_neg (Ne.symm h.1), ih h.2]

theorem splitSlash_append {p : List Char} (h : '/' ∉ p) (rest : List Char) :
    splitSlash (p ++ '/' :: rest) = p :: splitSlash rest := by
  induction p with
  | nil => rw [List.nil_append, splitSlash, if_pos rfl]
  | cons c p ih =>
    rw [List.mem_cons, not_or] at h
    rw [List.cons_append, splitSlash, if_neg (Ne.symm h.1), ih h.2]

theorem splitSlash_join {parts : List (List Char)} (hne : parts ≠ [])
    (h : ∀ p ∈ parts, '/' ∉ p) : splitSlash (join '/' parts) = parts := by
  induction parts with
  | nil => exact absurd rfl hne
  | cons p ps ih =>
    have hp := h p List.mem_cons_self
    cases ps with
    | nil => exact splitSlash_plain hp
    | cons q qs =>
      rw [join, splitSlash_append hp,
        ih (List.cons_ne_nil _ _) fun x hx => h x (List.mem_cons_of_mem _ hx)]

theorem pathComponents_legible (raw : String) {components : List String}
    (h : ∀ c ∈ components, ComponentLegible c) :
    pathComponents raw (components.map String.toList) = .ok components := by
  induction components with
  | nil => rfl
  | cons c cs ih =>
    obtain ⟨hne, hdot, hdots, -⟩ := h c List.mem_cons_self
    have hempty : c.toList ≠ [] := fun he => hne (String.toList_eq_nil_iff.1 he)
    have hdot' : ¬ (c.toList = ['.'] ∨ c.toList = ['.', '.']) := by
      rintro (he | he)
      · exact hdot (String.toList_inj.1 (he.trans rfl))
      · exact hdots (String.toList_inj.1 (he.trans rfl))
    rw [List.map_cons, pathComponents, if_neg hempty, if_neg hdot',
      ih fun x hx => h x (List.mem_cons_of_mem _ hx), String.ofList_toList]
    rfl

/-- The last character of a path's text is no slash. -/
theorem getLast?_join {parts : List (List Char)} (h : ∀ p ∈ parts, p ≠ [] ∧ '/' ∉ p) :
    (join '/' parts).getLast? ≠ some '/' := by
  induction parts with
  | nil => exact nofun
  | cons p ps ih =>
    obtain ⟨-, hp⟩ := h p List.mem_cons_self
    cases ps with
    | nil => exact fun hlast => hp (List.mem_of_mem_getLast? hlast)
    | cons q qs =>
      have hq := ih fun x hx => h x (List.mem_cons_of_mem _ hx)
      have hne : join '/' (q :: qs) ≠ [] := by
        have hqne := (h q (List.mem_cons_of_mem _ List.mem_cons_self)).1
        cases qs with
        | nil => exact hqne
        | cons r rs => simp [join, hqne]
      obtain ⟨z, hz⟩ : ∃ z, (join '/' (q :: qs)).getLast? = some z :=
        ⟨_, List.getLast?_eq_some_getLast hne⟩
      rw [join, List.getLast?_append_of_ne_nil _ (List.cons_ne_nil _ _), List.getLast?_cons, hz]
      rwa [hz] at hq

theorem canonPath_pathText {components : List String} (hne : components ≠ [])
    (h : ∀ c ∈ components, ComponentLegible c) :
    canonPath (String.ofList (pathText components)) = .ok components := by
  have hparts : ∀ p ∈ components.map String.toList, p ≠ [] ∧ '/' ∉ p := by
    intro p hp
    obtain ⟨c, hc, rfl⟩ := List.mem_map.1 hp
    exact ⟨fun he => (h c hc).1 (String.toList_eq_nil_iff.1 he), (h c hc).2.2.2 '/' (by decide)⟩
  have hbody : join '/' (components.map String.toList) ≠ [] := by
    intro he
    have hsplit := splitSlash_join (by simpa using hne) fun p hp => (hparts p hp).2
    rw [he] at hsplit
    obtain ⟨p, hp⟩ : ∃ p, p ∈ components.map String.toList := by
      rw [← hsplit]
      exact ⟨[], List.mem_singleton.2 rfl⟩
    have : p = [] := by
      rw [← hsplit] at hp
      exact List.mem_singleton.1 hp
    exact (hparts p hp).1 this
  rw [canonPath, String.toList_ofList, pathText]
  simp only [if_neg (getLast?_join hparts), if_neg hbody,
    splitSlash_join (by simpa using hne) fun p hp => (hparts p hp).2,
    pathComponents_legible _ h]
  show (if components = [] then _ else _) = _
  rw [if_neg hne]

theorem forbiddenChars_ok {raw name : String}
    (h : ∀ ch ∈ ['"', '(', ')', ',', '='], ch ∉ raw.toList) : forbiddenChars raw name = .ok () := by
  have hnone : ['"', '(', ')', ',', '='].find? (· ∈ raw.toList) = none := by
    rw [List.find?_eq_none]
    intro ch hch
    simpa using h ch hch
  rw [forbiddenChars, hnone]

/-! ### Parameters -/

/-- A string a core name is bound to has passed the character check. -/
def Checked (c : Cap) : Prop :=
  ∀ name s, isCore name = true → (name, .discrete s) ∈ c.params → forbiddenChars s name = .ok ()

theorem canonByOrder_discrete {name : String} {order : ParamOrder} {v : ParamValue} {s : String}
    (h : canonByOrder name order v = .ok (.discrete s)) : forbiddenChars s name = .ok () := by
  cases order with
  | discrete =>
    obtain ⟨s', rfl, hs⟩ := canonDiscreteValue_ok h
    cases hs
    obtain ⟨u, hu, -⟩ := bind_ok h
    exact hu
  | path =>
    obtain ⟨p, hp, -⟩ := canonPathValue_ok h
    exact nomatch hp
  | ceiling =>
    obtain ⟨n, -, hn⟩ := canonCeiling_ok h
    exact nomatch hn
  | bytes =>
    obtain ⟨n, hn, -⟩ := canonBudget_ok h
    exact nomatch hn
  | duration =>
    obtain ⟨n, hn, -⟩ := canonBudget_ok h
    exact nomatch hn

theorem makeCap_checked {token : String} {raw : List (String × ParamValue)} {d : Declared}
    {c : Cap} (h : makeCap token raw d = .ok c) : Checked c := by
  intro name s hcore hmem
  obtain ⟨p, -, hname, hparam⟩ := makeCap_mem h hmem
  replace hname : name = normalize p.1 := hname
  have hreg : isRegistered p.1 d = true := by
    have : (Assoc.get? registry (normalize p.1)).isSome = true := by
      rw [← hname]
      exact hcore
    rw [isRegistered, this, Bool.true_or]
  rw [canonParam, if_pos hreg, ← hname] at hparam
  obtain ⟨kind, order, -, ⟨r, -, hr, -⟩ | ⟨-, hby⟩⟩ := canonValue_ok hparam
  · cases hr
  · exact canonByOrder_discrete hby

theorem parseCap_made {text : String} {d : Declared} {c : Cap} (h : parseCap text d = .ok c) :
    ∃ token raw, makeCap token raw d = .ok c := by
  simp only [parseCap] at h
  by_cases hbare : '(' ∉ text.toList
  · rw [if_pos hbare] at h
    exact ⟨_, _, h⟩
  rw [if_neg hbare] at h
  by_cases hlast : text.toList.getLast? ≠ some ')'
  · rw [if_pos hlast] at h
    exact nomatch h
  rw [if_neg hlast] at h
  split at h
  · exact ⟨_, [], h⟩
  · obtain ⟨raw, -, h⟩ := bind_ok h
    exact ⟨_, raw, h⟩

/-- What the constructors guarantee. -/
theorem Returned.made {c : Cap} (h : Returned c) : ∃ d, c.WellFormed d ∧ Checked c := by
  induction h with
  | @make _ _ d _ h => exact ⟨d, makeCap_wellFormed h, makeCap_checked h⟩
  | @parse text d c h =>
    refine ⟨d, ?_⟩
    obtain ⟨token, raw, h⟩ := parseCap_made h
    exact ⟨makeCap_wellFormed h, makeCap_checked h⟩
  | @substitute c c' s d _ h ih =>
    obtain ⟨d', hwf, hchecked⟩ := ih
    simp only [CapOrder.substitute] at h
    split_ifs at h
    · exact ⟨d.orAdmit, makeCap_wellFormed h, makeCap_checked h⟩
    · cases h
      exact ⟨d', hwf, hchecked⟩

/-- **A legible parameter is stored as it was**, up to what its declaration would say. -/
theorem canonParam_spelled {d : Declared} {c : Cap} (hwf : c.WellFormed d) (hchecked : Checked c)
    (hl : c.Legible) {p : String × ParamValue} (hp : p ∈ c.params) :
    CanonStep .admitUnknown (p.1, spelled p.2) (rereadParam p) := by
  obtain ⟨name, v⟩ := p
  obtain ⟨hnorm, hfits⟩ := hwf.canonical _ hp
  refine ⟨hnorm.symm, ?_⟩
  show canonParam name (spelled v) .admitUnknown = .ok (if isCore name then v else spelled v)
  have hreg := isRegistered_admit hnorm
  cases hcore : isCore name with
  | false => rw [canonParam, hreg, hcore, if_neg Bool.false_ne_true, if_pos rfl]; rfl
  | true =>
    rw [canonParam, hreg, hcore, if_pos rfl, if_pos rfl, hnorm]
    obtain ⟨⟨kind, order⟩, hrow⟩ := Option.isSome_iff_exists.1 hcore
    have hrow' : ∀ d, orderRow name d = some (kind, order) := fun d => by
      rw [orderRow, hrow, Option.some_or]
    have hfit : FitsOrder order v := hfits (kind, order) (hrow' d)
    have hkind := orderRow_kind (hrow' d)
    have hvalue := hl.values _ hp
    simp only [canonValue, hrow']
    cases v with
    | symbol r =>
      have hres : kind = .resource := by
        rw [hkind]
        cases order <;> first | exact .inl rfl | exact .inr rfl | exact hfit.elim
      simp [spelled, hres]
    | ceiling n =>
      have hnn : ¬ n < 0 := by
        have := hvalue.2 hcore
        omega
      cases order with
      | path => exact hfit.elim
      | discrete => exact hfit.elim
      | ceiling => simp [spelled, canonByOrder, canonCeiling, hnn]
      | bytes => simp [spelled, canonByOrder, canonBudget, hnn]
      | duration => simp [spelled, canonByOrder, canonBudget, hnn]
    | path components =>
      have hclean : forbiddenChars (String.ofList (pathText components)) name = .ok () :=
        forbiddenChars_ok fun ch hch => by
          rw [String.toList_ofList]
          exact pathText_clean hvalue.2 hch
      cases order with
      | path =>
        simp only [spelled, canonByOrder, canonPathValue, hclean,
          canonPath_pathText hvalue.1 hvalue.2]
        rfl
      | discrete => exact hfit.elim
      | ceiling => exact hfit.elim
      | bytes => exact hfit.elim
      | duration => exact hfit.elim
    | discrete s =>
      cases order with
      | discrete =>
        simp only [spelled, canonByOrder, canonDiscreteValue, hchecked name s hcore hp]
        rfl
      | path => exact hfit.elim
      | ceiling => exact hfit.elim
      | bytes => exact hfit.elim
      | duration => exact hfit.elim

/-! ### The whole spelling -/

theorem strip_ne_nil {s : List Char} {ch : Char} (hmem : ch ∈ s) (hch : isSpace ch = false) :
    strip s ≠ [] := fun hnil => Bool.eq_false_iff.1 hch (strip_eq_nil hnil ch hmem)

theorem makeCap_reread {d : Declared} {c : Cap} (hwf : c.WellFormed d) (hchecked : Checked c)
    (hl : c.Legible) :
    makeCap c.token (c.params.map fun p => (p.1, spelled p.2)) .admitUnknown =
      .ok (reread c) := by
  have hkeys : (c.params.map fun p => normalize p.1) = c.params.map Prod.fst :=
    List.map_congr_left fun p hp => (hwf.canonical p hp).1
  have hfresh : NamesFresh [] (c.params.map fun p => (p.1, spelled p.2)) := by
    refine ⟨fun _ _ => List.not_mem_nil, ?_⟩
    rw [List.map_map]
    show (c.params.map fun p => normalize p.1).Nodup
    rw [hkeys]
    exact hwf.sorted.nodup
  have hall : List.Forall₂ (CanonStep .admitUnknown)
      (c.params.map fun p => (p.1, spelled p.2)) (c.params.map rereadParam) := by
    rw [List.forall₂_map_left_iff, List.forall₂_map_right_iff, List.forall₂_same]
    exact fun p hp => canonParam_spelled hwf hchecked hl hp
  have hsorted : Assoc.KeysSorted (c.params.map rereadParam) :=
    List.pairwise_map.2 hwf.sorted
  have hstar : ¬ (c.token = "*" ∧ (c.params.map fun p => (p.1, spelled p.2)) ≠ []) := by
    rintro ⟨ht, hne⟩
    exact hne (by rw [hwf.star_bare ht, List.map_nil])
  rw [makeCap, if_neg hwf.token_ne, if_neg hstar, canonParams_eq_ok_iff.2 ⟨hfresh, hall⟩]
  show Except.ok (Cap.mk c.token (sortByName _)) = _
  rw [sortByName_eq_self hsorted]
  rfl

theorem parseStoredCap_toStr_made {d : Declared} {c : Cap} (hwf : c.WellFormed d)
    (hchecked : Checked c) (hl : c.Legible) :
    ∃ text, c.toStr = some text ∧ parseStoredCap text = .ok (reread c) := by
  have hmake := makeCap_reread hwf hchecked hl
  by_cases hbare : c.params = []
  · refine ⟨c.token, by rw [Cap.toStr, if_pos hbare], ?_⟩
    rw [parseStoredCap, parseCap]
    simp only [if_pos hl.token]
    rw [hbare] at hmake
    exact hmake
  obtain ⟨pieces, hpieces, hlen, hplain, hparse⟩ :=
    mapM_render fun p hp => ⟨hl.names p hp, hl.values p hp⟩
  have hne : pieces ≠ [] := by
    intro he
    rw [he, List.length_nil] at hlen
    exact hbare (List.length_eq_zero_iff.1 hlen.symm)
  refine ⟨_, by rw [Cap.toStr, if_neg hbare, hpieces]; rfl, ?_⟩
  have htok : ∀ ch ∈ c.token.toList, decide (ch ≠ '(') = true := fun ch hch =>
    decide_eq_true fun he => hl.token (he ▸ hch)
  have hblank : strip (join ',' pieces) ≠ [] := by
    obtain ⟨piece, hpiece⟩ := List.exists_mem_of_ne_nil _ hne
    exact strip_ne_nil (mem_join_of_mem hpiece (hplain piece hpiece).2) (by decide)
  have htake : (c.token.toList ++ '(' :: join ',' pieces ++ [')']).takeWhile (· ≠ '(') =
      c.token.toList := by
    rw [List.append_assoc, List.takeWhile_append_of_pos htok]
    simp
  have hdrop : (c.token.toList ++ '(' :: join ',' pieces ++ [')']).dropWhile (· ≠ '(') =
      '(' :: join ',' pieces ++ [')'] := by
    rw [List.append_assoc, List.dropWhile_append_of_pos htok]
    simp
  have hopen : ¬ '(' ∉ c.token.toList ++ '(' :: join ',' pieces ++ [')'] := by simp
  have hlast : ¬ (c.token.toList ++ '(' :: join ',' pieces ++ [')']).getLast? ≠ some ')' :=
    not_not.2 List.getLast?_concat
  rw [parseStoredCap, parseCap, String.toList_ofList]
  simp only [if_neg hopen, if_neg hlast, htake, hdrop]
  rw [List.cons_append, List.drop_one, List.tail_cons, List.dropLast_concat, if_neg hblank,
    splitParams_join hne fun p hp => (hplain p hp).1, hparse, String.ofList_toList]
  exact hmake

/-- **The spelling of a legible capability is read back.** -/
theorem parseStoredCap_toStr {c : Cap} (hc : Returned c) (hl : c.Legible) :
    ∃ text, c.toStr = some text ∧ parseStoredCap text = .ok (reread c) := by
  obtain ⟨d, hwf, hchecked⟩ := hc.made
  exact parseStoredCap_toStr_made hwf hchecked hl

/-! ### Core capabilities -/

/-- A core name means the same whether or not a declaration is in scope. -/
theorem canonParam_core {name : String} (h : isCore (normalize name) = true) (v : ParamValue)
    (d : Declared) : canonParam name v d = canonValue (normalize name) v .absent := by
  have hreg : isRegistered name d = true := by
    rw [isRegistered]
    exact Bool.or_eq_true_iff.2 (.inl h)
  obtain ⟨row, hrow⟩ := Option.isSome_iff_exists.1 h
  have hrow' : ∀ d, orderRow (normalize name) d = some row := fun d => by
    rw [orderRow, hrow, Option.some_or]
  rw [canonParam, if_pos hreg, canonValue, canonValue, hrow', hrow']

theorem makeCap_core {token : String} {raw : List (String × ParamValue)} {d d' : Declared}
    {c : Cap} (hcore : ∀ p ∈ c.params, isCore p.1 = true) (h : makeCap token raw d = .ok c) :
    makeCap token raw d' = .ok c := by
  obtain ⟨htoken, hstar, out, hfresh, hall, rfl⟩ := makeCap_ok h
  have hall' : List.Forall₂ (CanonStep d') raw out := by
    refine (List.forall₂_iff_zip.2 ⟨hall.length_eq, fun {p o} hpo => ?_⟩)
    obtain ⟨hname, hcanon⟩ := List.forall₂_zip hall hpo
    have ho : isCore o.1 = true :=
      hcore o ((List.mem_insertionSort _).2 (List.of_mem_zip hpo).2)
    refine ⟨hname, ?_⟩
    rw [canonParam_core (hname ▸ ho)] at hcanon ⊢
    exact hcanon
  rw [makeCap, if_neg htoken, if_neg fun hs => hs.2 (hstar hs.1),
    canonParams_eq_ok_iff.2 ⟨hfresh, hall'⟩]
  rfl

/-- **A core capability is read the same under every declaration.** -/
theorem parseCap_core {text : String} {d d' : Declared} {c : Cap}
    (hcore : ∀ p ∈ c.params, isCore p.1 = true) (h : parseCap text d = .ok c) :
    parseCap text d' = .ok c := by
  simp only [parseCap] at h ⊢
  by_cases hbare : '(' ∉ text.toList
  · rw [if_pos hbare] at h ⊢
    exact makeCap_core hcore h
  rw [if_neg hbare] at h ⊢
  by_cases hlast : text.toList.getLast? ≠ some ')'
  · rw [if_pos hlast] at h
    exact nomatch h
  rw [if_neg hlast] at h ⊢
  split_ifs at h ⊢ with hblank
  · exact makeCap_core hcore h
  · obtain ⟨raw, hraw, h⟩ := bind_ok h
    rw [hraw]
    exact makeCap_core hcore h

theorem parseCap_wellFormed {text : String} {d : Declared} {c : Cap}
    (h : parseCap text d = .ok c) : c.WellFormed d := by
  obtain ⟨token, raw, h⟩ := parseCap_made h
  exact makeCap_wellFormed h

/-- What is read with no declaration in scope is core. -/
theorem parseCap_absent_core {text : String} {c : Cap} (h : parseCap text .absent = .ok c)
    {p : String × ParamValue} (hp : p ∈ c.params) : isCore p.1 = true := by
  obtain ⟨token, raw, h⟩ := parseCap_made h
  obtain ⟨q, -, hname, hcanon⟩ := makeCap_mem h hp
  rw [canonParam] at hcanon
  split_ifs at hcanon with hreg hadm
  · rw [hname, isCore]
    simpa [isRegistered, declaredOrder] using hreg
  · cases hadm

theorem reread_core {c : Cap} (h : ∀ p ∈ c.params, isCore p.1 = true) : reread c = c := by
  have hmap : c.params.map rereadParam = c.params := by
    rw [List.map_congr_left fun p hp => show rereadParam p = id p from ?_, List.map_id]
    rw [rereadParam, if_pos (h p hp)]
    rfl
  rw [reread, hmap]

/-! ## What reading never widens -/

theorem pathText_inj {p q : List String} (hp : p ≠ [] ∧ ∀ c ∈ p, ComponentLegible c)
    (hq : q ≠ [] ∧ ∀ c ∈ q, ComponentLegible c) (h : pathText p = pathText q) : p = q := by
  have hread := canonPath_pathText hp.1 hp.2
  rw [h, canonPath_pathText hq.1 hq.2] at hread
  exact (Except.ok.inj hread).symm

/-- Where a reread value narrows another, the values themselves did. -/
theorem paramLeq_reread {a b : Cap} (hla : a.Legible) (hlb : b.Legible) (hapart : Apart a b)
    {name : String} {v w : ParamValue} (hv : (name, v) ∈ a.params) (hw : (name, w) ∈ b.params)
    (h : paramLeq (rereadParam (name, w)).2 (rereadParam (name, v)).2 = true) :
    paramLeq w v = true := by
  cases hcore : isCore name with
  | true => simpa [rereadParam, hcore] using h
  | false =>
    simp only [rereadParam, hcore, Bool.false_eq_true, if_false] at h
    cases v with
    | path p =>
      rw [spelled, paramLeq_discrete_right] at h
      cases w with
      | path q =>
        have htext : pathText q = pathText p :=
          String.ofList_inj.1 (ParamValue.discrete.inj h)
        rw [pathText_inj (hlb.values _ hw) (hla.values _ hv) htext]
        exact paramLeq_refl _
      | discrete s =>
        -- a declared path and the string of its characters
        have htext : pathText p = s.toList := by
          rw [← String.toList_ofList (l := pathText p), ParamValue.discrete.inj h]
        exact absurd ⟨hv, hw⟩ (hapart name p s hcore htext).1
      | symbol _ => exact nomatch h
      | ceiling _ => exact nomatch h
    | discrete s =>
      replace h : paramLeq (spelled w) (.discrete s) = true := h
      rw [paramLeq_discrete_right] at h
      cases w with
      | path q =>
        have htext : pathText q = s.toList := by
          rw [← String.toList_ofList (l := pathText q), ParamValue.discrete.inj h]
        exact absurd ⟨hv, hw⟩ (hapart name q s hcore htext).2
      | discrete s' => exact (paramLeq_discrete_right (.discrete s') s).2 h
      | symbol _ => exact nomatch h
      | ceiling _ => exact nomatch h
    | symbol r =>
      replace h : paramLeq (spelled w) (.symbol r) = true := h
      rw [paramLeq_symbol_right] at h
      cases w with
      | symbol r' => exact (paramLeq_symbol_right (.symbol r') r).2 h
      | path _ => exact nomatch h
      | discrete _ => exact nomatch h
      | ceiling _ => exact nomatch h
    | ceiling n =>
      cases w with
      | ceiling _ => exact h
      | symbol _ => exact absurd h (by simp [spelled])
      | path _ => exact absurd h (by simp [spelled])
      | discrete _ => exact absurd h (by simp [spelled])

/-- Reading two legible capabilities back never makes one cover the other. -/
theorem covers_reread {a b : Cap} (hb : Returned b) (hla : a.Legible) (hlb : b.Legible)
    (hapart : Apart a b) (h : covers (reread a) (reread b) = true) : covers a b = true := by
  obtain ⟨d, hwf, -⟩ := hb.made
  rw [covers_iff] at h ⊢
  refine h.imp_right fun ⟨hne, ht, hall⟩ => ⟨hne, ht, fun p hp => ?_⟩
  obtain ⟨bv, hget, hle⟩ := hall (rereadParam p) (List.mem_map_of_mem hp)
  obtain ⟨q, hq, hqe⟩ := List.mem_map.1 (Assoc.mem_of_get? hget)
  obtain ⟨name, v⟩ := p
  obtain ⟨name', w⟩ := q
  obtain ⟨hname, hbv⟩ := Prod.mk.inj hqe
  replace hname : name' = name := hname
  replace hbv : (rereadParam (name', w)).2 = bv := hbv
  subst hname hbv
  refine ⟨w, (Assoc.get?_eq_some_iff hwf.sorted.nodup).2 hq, ?_⟩
  exact paramLeq_reread hla hlb hapart hp hq hle

/-- **A legible capability is read back with its names, a core one as it was, and reading never
widens a cone.** -/
theorem spelling_faithful {a : Cap} (ha : Returned a) (hla : a.Legible) :
    ∃ text a', a.toStr = some text ∧ parseStoredCap text = .ok a' ∧
      a'.params.map Prod.fst = a.params.map Prod.fst ∧
      ((∀ p ∈ a.params, isCore p.1 = true) → a' = a) ∧
      ∀ b, Returned b → b.Legible → Apart a b → ∀ text' b', b.toStr = some text' →
        parseStoredCap text' = .ok b' → covers a' b' = true → covers a b = true := by
  obtain ⟨text, htext, hparse⟩ := parseStoredCap_toStr ha hla
  refine ⟨text, reread a, htext, hparse, ?_, fun hcore => ?_, ?_⟩
  · rw [reread, List.map_map]
    rfl
  · have hsame : a.params.map rereadParam = a.params := by
      refine (List.map_congr_left fun p hp => ?_).trans (List.map_id _)
      rw [rereadParam, hcore p hp, if_pos rfl]
      rfl
    rw [reread, hsame]
  · intro b hb hlb hapart text' b' htext' hparse' hcovers
    obtain ⟨text₀, htext₀, hparse₀⟩ := parseStoredCap_toStr hb hlb
    cases htext'.symm.trans htext₀
    cases hparse'.symm.trans hparse₀
    exact covers_reread hb hla hlb hapart hcovers

/-- A path and a declared dimension, written and read back. -/
theorem spelling_faithful_orders :
    let a : Cap := ⟨"queue.publish", [("path", .path ["tmp", "in"]), ("topic", .discrete "orders")]⟩
    ∃ text a', a.toStr = some text ∧ parseStoredCap text = .ok a' ∧
      a'.params.map Prod.fst = ["path", "topic"] := by
  have hmake : makeCap "queue.publish" [("topic", .discrete "orders"), ("path", .discrete "/tmp/in")]
      (.dims [("topic", .discrete)]) =
        .ok ⟨"queue.publish", [("path", .path ["tmp", "in"]), ("topic", .discrete "orders")]⟩ := by
    rfl
  obtain ⟨text, a', htext, hparse, hnames, -⟩ := spelling_faithful (.make hmake)
    ⟨by decide, by simp [NameLegible]; decide, by simp [ValueLegible, ComponentLegible]⟩
  exact ⟨text, a', htext, hparse, hnames⟩

/-- A suffixed budget keeps the sign its spelling is refused for, a spawn site's literal brings
its own quotes and commas, and a bound declared path meets the string of its characters. -/
theorem spelling_faithless :
    (makeCap "net.call" [("bytes", .discrete "-5b")] .absent =
        .ok ⟨"net.call", [("size", .ceiling (-5))]⟩ ∧
      Cap.toStr ⟨"net.call", [("size", .ceiling (-5))]⟩ = some "net.call(size=-5)" ∧
      (parseStoredCap "net.call(size=-5)").isOk = false) ∧
    (parseCap "queue(topic=config.t)" (.dims [("topic", .discrete)]) =
        .ok ⟨"queue", [("topic", .symbol "config.t")]⟩ ∧
      substitute ⟨"queue", [("topic", .symbol "config.t")]⟩ [("t", "a\",part=\"b")] .absent =
        .ok ⟨"queue", [("topic", .discrete "a\",part=\"b")]⟩ ∧
      Cap.toStr ⟨"queue", [("topic", .discrete "a\",part=\"b")]⟩ =
        some "queue(topic=\"a\",part=\"b\")" ∧
      parseStoredCap "queue(topic=\"a\",part=\"b\")" =
        .ok ⟨"queue", [("part", .discrete "b"), ("topic", .discrete "a")]⟩) ∧
    (makeCap "fs" [("root", .discrete "/tmp")] (.dims [("root", .path)]) =
        .ok ⟨"fs", [("root", .path ["tmp"])]⟩ ∧
      parseCap "fs(root=config.r)" (.dims [("root", .path)]) =
        .ok ⟨"fs", [("root", .symbol "config.r")]⟩ ∧
      substitute ⟨"fs", [("root", .symbol "config.r")]⟩ [("r", "/tmp")] .absent =
        .ok ⟨"fs", [("root", .discrete "/tmp")]⟩ ∧
      Cap.toStr ⟨"fs", [("root", .path ["tmp"])]⟩ = some "fs(root=\"/tmp\")" ∧
      Cap.toStr ⟨"fs", [("root", .discrete "/tmp")]⟩ = some "fs(root=\"/tmp\")" ∧
      covers ⟨"fs", [("root", .path ["tmp"])]⟩ ⟨"fs", [("root", .discrete "/tmp")]⟩ = false) := by
  refine ⟨⟨?_, ?_, ?_⟩, ⟨?_, ?_, ?_, ?_⟩, ?_, ?_, ?_, ?_, ?_, ?_⟩
  all_goals rfl

end Revl.CapOrder
