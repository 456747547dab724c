import Mathlib

/-!
# Balancing raw braces (`lexer.py`)

The body of a `${…}` interpolation and of a host block is a run of raw source between balanced
braces. The matcher passes over what its table of string and comment forms says, and counts the
braces it meets elsewhere.

- `Trivia`, `skipTrivia`, `matchBrace`: the matcher, for any table.
- `revlTrivia`: the table of interpolations, which knows `"…"`, backticks and `//`.
- `Reads`: texts whose braces balance outside those three forms.
- `matchBrace_iff`: **the matcher ends behind a text exactly when it reads**.
-/

namespace Revl.Lexer

/-! ## The matcher -/

/-- How a string form closes. -/
inductive Mode where
  | escape | raw | char
  deriving DecidableEq, Repr

/-- `_Trivia` -/
structure Trivia where
  strings : List (Char × Mode)
  lineComments : List (List Char)
  blockComments : List (List Char × List Char)
  triples : List (List Char)

/-- `_REVL_TRIVIA` -/
def revlTrivia : Trivia where
  strings := [('"', .escape), ('`', .raw)]
  lineComments := [['/', '/']]
  blockComments := []
  triples := []

/-- `_C_FAMILY` -/
def cFamily : Trivia where
  strings := [('"', .escape), ('\'', .char), ('`', .raw)]
  lineComments := []
  blockComments := [(['/', '*'], ['*', '/'])]
  triples := []

/-- `_TS_TRIVIA` -/
def tsTrivia : Trivia where
  strings := [('"', .escape), ('\'', .escape), ('`', .raw)]
  lineComments := []
  blockComments := [(['/', '*'], ['*', '/'])]
  triples := []

/-- `_PY_TRIVIA` -/
def pyTrivia : Trivia where
  strings := [('"', .escape), ('\'', .escape)]
  lineComments := []
  blockComments := []
  triples := [['"', '"', '"'], ['\'', '\'', '\'']]

/-- The table of WebAssembly text. -/
def wasmTrivia : Trivia where
  strings := [('"', .escape)]
  lineComments := []
  blockComments := [(['(', ';'], [';', ')'])]
  triples := []

/-- `_HOST_TRIVIA.get(backend, _C_FAMILY)` -/
def hostTrivia (backend : String) : Trivia :=
  if backend ∈ ["ts", "typescript", "node", "js"] then tsTrivia
  else if backend ∈ ["py", "python"] then pyTrivia
  else if backend = "wasm" then wasmTrivia
  else cFamily

/-- What follows the first occurrence of a closer; nothing where there is none. -/
def after (closer : List Char) : List Char → List Char
  | [] => []
  | c :: cs =>
    if closer.isPrefixOf (c :: cs) then (c :: cs).drop closer.length else after closer cs

/-- What follows a triple-quoted string, past its opener. -/
def afterTriple (triple : List Char) : List Char → List Char
  | [] => []
  | c :: cs =>
    if triple.isPrefixOf (c :: cs) then (c :: cs).drop triple.length
    else
      match c, cs with
      | '\\', _ :: cs => afterTriple triple cs
      | _, cs => afterTriple triple cs

/-- What follows a quoted string, past its opener: it ends at its quote or before the end of the
line. -/
def afterEscape (quote : Char) : List Char → List Char
  | [] => []
  | ['\\'] => []
  | '\\' :: _ :: cs => afterEscape quote cs
  | c :: cs => if c = quote then cs else if c = '\n' then c :: cs else afterEscape quote cs

/-- `_char_literal_end`, past the quote. -/
def charLiteralEnd : List Char → Option (List Char)
  | [] => none
  | '\n' :: _ => none
  | '\\' :: cs =>
    match (cs.drop 1).dropWhile fun c => c ≠ '\'' ∧ c ≠ '\n' with
    | '\'' :: rest => some rest
    | _ => none
  | '\'' :: _ => none
  | _ :: '\'' :: rest => some rest
  | _ :: _ => none

/-- `_skip_trivia` at a character: what follows the string or comment that begins there, if one
does. -/
def skipTrivia (tv : Trivia) (c : Char) (cs : List Char) : Option (List Char) :=
  match tv.blockComments.find? fun p => p.1.isPrefixOf (c :: cs) with
  | some (opener, closer) => some (after closer ((c :: cs).drop opener.length))
  | none =>
    if tv.lineComments.any fun opener => opener.isPrefixOf (c :: cs) then
      some ((c :: cs).dropWhile (· ≠ '\n'))
    else
      match tv.triples.find? fun triple => triple.isPrefixOf (c :: cs) with
      | some triple => some (afterTriple triple ((c :: cs).drop triple.length))
      | none =>
        match (tv.strings.find? fun p => p.1 = c).map Prod.snd with
        | some .char => charLiteralEnd cs
        | some .raw => some ((cs.dropWhile (· ≠ c)).drop 1)
        | some .escape => some (afterEscape c cs)
        | none => none

/-- The loop of `_match_brace`: what follows the brace that closes the open ones. Each turn takes a
character at least, so their number is fuel enough. -/
def matchFrom (tv : Trivia) : Nat → Nat → List Char → Option (List Char)
  | 0, _, _ => none
  | _ + 1, _, [] => none
  | fuel + 1, depth, c :: cs =>
    if c = '{' then matchFrom tv fuel (depth + 1) cs
    else if c = '}' then
      if depth - 1 = 0 then some cs else matchFrom tv fuel (depth - 1) cs
    else
      match skipTrivia tv c cs with
      | some rest => matchFrom tv fuel depth rest
      | none => matchFrom tv fuel depth cs

/-- `_match_brace`: the raw text between an opening brace and the one that matches it, and what
follows. The text starts at the opening brace. -/
def matchBrace (tv : Trivia) (source : List Char) : Option (List Char × List Char) :=
  (matchFrom tv (source.length + 1) 0 source).map fun rest =>
    ((source.drop 1).take (source.length - rest.length - 2), rest)

/-! ## Texts that read -/

/-- The body of a quoted string: escapes in pairs, and no quote or end of line outside them. -/
inductive Escaped : List Char → Prop
  | nil : Escaped []
  | pair {c : Char} {cs : List Char} : Escaped cs → Escaped ('\\' :: c :: cs)
  | char {c : Char} {cs : List Char} : c ≠ '\\' → c ≠ '"' → c ≠ '\n' → Escaped cs →
      Escaped (c :: cs)

/-- Braces balance, `d` of them open, outside line comments that end, backtick strings without a
backtick inside, and quoted strings that end at their quote or at the end of their line. Any other
character is one by itself, the single quote with them. -/
inductive Reads : Nat → List Char → Prop
  | done : Reads 0 []
  | openBrace {d : Nat} {cs : List Char} : Reads (d + 1) cs → Reads d ('{' :: cs)
  | closeBrace {d : Nat} {cs : List Char} : Reads d cs → Reads (d + 1) ('}' :: cs)
  | comment {d : Nat} {body cs : List Char} : '\n' ∉ body → Reads d ('\n' :: cs) →
      Reads d ('/' :: '/' :: (body ++ '\n' :: cs))
  | raw {d : Nat} {body cs : List Char} : '`' ∉ body → Reads d cs →
      Reads d ('`' :: (body ++ '`' :: cs))
  | quoted {d : Nat} {body cs : List Char} : Escaped body → Reads d cs →
      Reads d ('"' :: (body ++ '"' :: cs))
  | cut {d : Nat} {body cs : List Char} : Escaped body → Reads d ('\n' :: cs) →
      Reads d ('"' :: (body ++ '\n' :: cs))
  | char {d : Nat} {c : Char} {cs : List Char} : c ≠ '{' → c ≠ '}' → c ≠ '"' → c ≠ '`' →
      ¬ (c = '/' ∧ cs.head? = some '/') → Reads d cs → Reads d (c :: cs)

/-! ## What the revl table passes over -/

theorem skipTrivia_revl (c : Char) (cs : List Char) :
    skipTrivia revlTrivia c cs =
      if c = '/' ∧ cs.head? = some '/' then some ((c :: cs).dropWhile (· ≠ '\n'))
      else if c = '"' then some (afterEscape '"' cs)
      else if c = '`' then some ((cs.dropWhile (· ≠ '`')).drop 1)
      else none := by
  have hcomment : (revlTrivia.lineComments.any fun opener => opener.isPrefixOf (c :: cs)) = true ↔
      c = '/' ∧ cs.head? = some '/' := by
    cases cs with
    | nil => simp [revlTrivia]
    | cons d cs =>
      simp only [revlTrivia, List.any_cons, List.any_nil, Bool.or_false, List.isPrefixOf,
        Bool.and_true, List.head?_cons, Option.some.injEq, Bool.and_eq_true, beq_iff_eq]
      exact and_congr eq_comm eq_comm
  unfold skipTrivia
  by_cases h : c = '/' ∧ cs.head? = some '/'
  · rw [if_pos (hcomment.mpr h), if_pos h]
    rfl
  · rw [if_neg (mt hcomment.mp h), if_neg h]
    by_cases hquote : c = '"'
    · subst hquote
      rfl
    · by_cases htick : c = '`'
      · subst htick
        rfl
      · simp [revlTrivia, hquote, htick, Ne.symm hquote, Ne.symm htick]

/-- A text up to the first occurrence of a character. -/
theorem exists_dropWhile_ne (x : Char) (l : List Char) :
    ∃ body, l = body ++ l.dropWhile (· ≠ x) ∧ x ∉ body ∧
      (l.dropWhile (· ≠ x) = [] ∨ ∃ rest, l.dropWhile (· ≠ x) = x :: rest) := by
  induction l with
  | nil => exact ⟨[], rfl, List.not_mem_nil, .inl rfl⟩
  | cons c l ih =>
    by_cases hc : c = x
    · subst hc
      exact ⟨[], by simp, List.not_mem_nil, .inr ⟨l, by simp⟩⟩
    · obtain ⟨body, heq, hnot, hend⟩ := ih
      have hdrop : (c :: l).dropWhile (· ≠ x) = l.dropWhile (· ≠ x) :=
        List.dropWhile_cons_of_pos (by simpa using hc)
      rw [hdrop]
      refine ⟨c :: body, by rw [List.cons_append, ← heq], ?_, hend⟩
      rw [List.mem_cons, not_or]
      exact ⟨Ne.symm hc, hnot⟩

theorem dropWhile_ne_append {x : Char} {body : List Char} (h : x ∉ body) (rest : List Char) :
    (body ++ x :: rest).dropWhile (· ≠ x) = x :: rest := by
  rw [List.dropWhile_append_of_pos]
  · exact List.dropWhile_cons_of_neg (by simp)
  · intro c hc
    have : c ≠ x := fun heq => h (heq ▸ hc)
    simpa using this

theorem afterEscape_char {c : Char} (hslash : c ≠ '\\') (hquote : c ≠ '"') (hline : c ≠ '\n')
    (cs : List Char) : afterEscape '"' (c :: cs) = afterEscape '"' cs := by
  cases cs with
  | nil => simp [afterEscape, hslash, hquote, hline]
  | cons d cs => simp [afterEscape, hslash, hquote, hline]

theorem afterEscape_escaped {body : List Char} (h : Escaped body) (rest : List Char) :
    afterEscape '"' (body ++ rest) = afterEscape '"' rest := by
  induction h with
  | nil => rfl
  | pair _ ih => rw [List.cons_append, List.cons_append, afterEscape, ih]
  | char hslash hquote hline _ ih =>
    rw [List.cons_append, afterEscape_char hslash hquote hline, ih]

theorem afterEscape_quote (cs : List Char) : afterEscape '"' ('"' :: cs) = cs := by
  simp [afterEscape]

theorem afterEscape_line (cs : List Char) : afterEscape '"' ('\n' :: cs) = '\n' :: cs := by
  simp [afterEscape]

/-- What follows a quoted string: nothing, or what stands behind its quote, or the end of its
line. -/
theorem afterEscape_cases (cs : List Char) :
    afterEscape '"' cs = [] ∨
      (∃ body, Escaped body ∧ cs = body ++ '"' :: afterEscape '"' cs) ∨
      ∃ body rest, Escaped body ∧ afterEscape '"' cs = '\n' :: rest ∧ cs = body ++ '\n' :: rest := by
  induction cs using afterEscape.induct '"' with
  | case1 => exact .inl rfl
  | case2 => exact .inl rfl
  | case3 c cs ih =>
    rw [afterEscape]
    rcases ih with hnil | ⟨body, hbody, heq⟩ | ⟨body, rest, hbody, hrest, heq⟩
    · exact .inl hnil
    · exact .inr (.inl ⟨'\\' :: c :: body, .pair hbody, by
        rw [List.cons_append, List.cons_append, ← heq]⟩)
    · exact .inr (.inr ⟨'\\' :: c :: body, rest, .pair hbody, hrest, by
        rw [List.cons_append, List.cons_append, ← heq]⟩)
  | case4 cs => exact .inr (.inl ⟨[], .nil, by rw [afterEscape_quote]; rfl⟩)
  | case5 cs => exact .inr (.inr ⟨[], cs, .nil, afterEscape_line cs, rfl⟩)
  | case6 c cs hend hpair hquote hline ih =>
    have hslash : c ≠ '\\' := by
      rintro rfl
      cases cs with
      | nil => exact hend rfl rfl
      | cons d cs => exact hpair d cs rfl rfl
    rw [afterEscape_char hslash hquote hline]
    rcases ih with hnil | ⟨body, hbody, heq⟩ | ⟨body, rest, hbody, hrest, heq⟩
    · exact .inl hnil
    · exact .inr (.inl ⟨c :: body, .char hslash hquote hline hbody, by
        rw [List.cons_append, ← heq]⟩)
    · exact .inr (.inr ⟨c :: body, rest, .char hslash hquote hline hbody, hrest, by
        rw [List.cons_append, ← heq]⟩)

/-! ## The matcher and the texts that read -/

/-- A text that reads up to a closing brace, and then goes on. -/
def Ends (d : Nat) (rest cs : List Char) : Prop :=
  ∃ inner, cs = inner ++ '}' :: rest ∧ Reads d inner

namespace Ends

variable {d : Nat} {rest cs : List Char}

theorem openBrace (h : Ends (d + 1) rest cs) : Ends d rest ('{' :: cs) := by
  obtain ⟨inner, rfl, hreads⟩ := h
  exact ⟨'{' :: inner, rfl, .openBrace hreads⟩

theorem closeBrace (h : Ends d rest cs) : Ends (d + 1) rest ('}' :: cs) := by
  obtain ⟨inner, rfl, hreads⟩ := h
  exact ⟨'}' :: inner, rfl, .closeBrace hreads⟩

/-- What reads and begins with an end of line is no closing brace. -/
theorem newline (h : Ends d rest ('\n' :: cs)) :
    ∃ inner, cs = inner ++ '}' :: rest ∧ Reads d ('\n' :: inner) := by
  obtain ⟨inner, heq, hreads⟩ := h
  cases inner with
  | nil => simp at heq
  | cons c inner =>
    obtain ⟨rfl, rfl⟩ := List.cons.inj heq
    exact ⟨inner, rfl, hreads⟩

theorem nil_absurd (h : Ends d rest []) : False := by
  obtain ⟨inner, heq, -⟩ := h
  simp at heq

/-- A comment: it must end, and the text goes on at the end of its line. -/
theorem comment (h : Ends d rest (cs.dropWhile (· ≠ '\n'))) : Ends d rest ('/' :: '/' :: cs) := by
  obtain ⟨body, hsplit, hbody, hnil | ⟨more, hmore⟩⟩ := exists_dropWhile_ne '\n' cs
  · rw [hnil] at h
    exact h.nil_absurd.elim
  · rw [hmore] at h hsplit
    obtain ⟨inner, rfl, hreads⟩ := h.newline
    exact ⟨'/' :: '/' :: (body ++ '\n' :: inner), by rw [hsplit]; simp, .comment hbody hreads⟩

/-- A quoted string: it ends at its quote or at the end of its line. -/
theorem quoted (h : Ends d rest (afterEscape '"' cs)) : Ends d rest ('"' :: cs) := by
  rcases afterEscape_cases cs with hnil | ⟨body, hbody, hsplit⟩ | ⟨body, more, hbody, hmore, hsplit⟩
  · rw [hnil] at h
    exact h.nil_absurd.elim
  · obtain ⟨inner, heq, hreads⟩ := h
    rw [heq] at hsplit
    exact ⟨'"' :: (body ++ '"' :: inner), by rw [hsplit]; simp, .quoted hbody hreads⟩
  · rw [hmore] at h
    obtain ⟨inner, rfl, hreads⟩ := h.newline
    exact ⟨'"' :: (body ++ '\n' :: inner), by rw [hsplit]; simp, .cut hbody hreads⟩

/-- A backtick string: it must end. -/
theorem raw (h : Ends d rest ((cs.dropWhile (· ≠ '`')).drop 1)) : Ends d rest ('`' :: cs) := by
  obtain ⟨body, hsplit, hbody, hnil | ⟨more, hmore⟩⟩ := exists_dropWhile_ne '`' cs
  · rw [hnil] at h
    exact h.nil_absurd.elim
  · rw [hmore] at h hsplit
    obtain ⟨inner, heq, hreads⟩ := h
    rw [List.drop_one, List.tail_cons] at heq
    exact ⟨'`' :: (body ++ '`' :: inner), by rw [hsplit, heq]; simp, .raw hbody hreads⟩

theorem char {c : Char} (hopen : c ≠ '{') (hclose : c ≠ '}') (hquote : c ≠ '"') (htick : c ≠ '`')
    (hcomment : ¬ (c = '/' ∧ cs.head? = some '/')) (h : Ends d rest cs) :
    Ends d rest (c :: cs) := by
  obtain ⟨inner, rfl, hreads⟩ := h
  refine ⟨c :: inner, rfl, .char hopen hclose hquote htick ?_ hreads⟩
  rintro ⟨hc, hhead⟩
  refine hcomment ⟨hc, ?_⟩
  cases inner with
  | nil => simp at hhead
  | cons d inner => simpa using hhead

end Ends

/-- What the matcher ends behind reads. -/
theorem reads_of_matchFrom {fuel d : Nat} {cs rest : List Char}
    (h : matchFrom revlTrivia fuel (d + 1) cs = some rest) : Ends d rest cs := by
  induction fuel generalizing d cs with
  | zero => simp [matchFrom] at h
  | succ fuel ih =>
    cases cs with
    | nil => simp [matchFrom] at h
    | cons c cs =>
      rw [matchFrom] at h
      by_cases hopen : c = '{'
      · rw [if_pos hopen] at h
        exact hopen ▸ (ih h).openBrace
      rw [if_neg hopen] at h
      by_cases hclose : c = '}'
      · rw [if_pos hclose, Nat.add_sub_cancel] at h
        cases d with
        | zero =>
          rw [if_pos rfl, Option.some.injEq] at h
          exact ⟨[], by rw [hclose, h]; rfl, .done⟩
        | succ d =>
          rw [if_neg (Nat.succ_ne_zero d)] at h
          exact hclose ▸ (ih h).closeBrace
      rw [if_neg hclose, skipTrivia_revl] at h
      by_cases hcomment : c = '/' ∧ cs.head? = some '/'
      · rw [if_pos hcomment] at h
        simp only at h
        obtain ⟨rfl, hhead⟩ := hcomment
        obtain ⟨cs, rfl⟩ : ∃ t, cs = '/' :: t := by
          cases cs with
          | nil => simp at hhead
          | cons d t => exact ⟨t, by simpa using hhead⟩
        rw [List.dropWhile_cons_of_pos (by decide), List.dropWhile_cons_of_pos (by decide)] at h
        exact (ih h).comment
      rw [if_neg hcomment] at h
      by_cases hquote : c = '"'
      · rw [if_pos hquote] at h
        exact hquote ▸ (ih h).quoted
      rw [if_neg hquote] at h
      by_cases htick : c = '`'
      · rw [if_pos htick] at h
        exact htick ▸ (ih h).raw
      rw [if_neg htick] at h
      exact (ih h).char hopen hclose hquote htick hcomment

/-! A form that reads is passed over as one piece. -/

theorem skipTrivia_comment {body : List Char} (hbody : '\n' ∉ body) (cs : List Char) :
    skipTrivia revlTrivia '/' ('/' :: (body ++ '\n' :: cs)) = some ('\n' :: cs) := by
  rw [skipTrivia_revl, if_pos ⟨rfl, rfl⟩, List.dropWhile_cons_of_pos (by decide),
    List.dropWhile_cons_of_pos (by decide), dropWhile_ne_append hbody]

theorem skipTrivia_raw {body : List Char} (hbody : '`' ∉ body) (cs : List Char) :
    skipTrivia revlTrivia '`' (body ++ '`' :: cs) = some cs := by
  rw [skipTrivia_revl, if_neg (by simp), if_neg (by decide), if_pos rfl,
    dropWhile_ne_append hbody]
  rfl

theorem skipTrivia_quoted {body : List Char} (hbody : Escaped body) (cs : List Char) :
    skipTrivia revlTrivia '"' (body ++ '"' :: cs) = some cs := by
  rw [skipTrivia_revl, if_neg (by simp), if_pos rfl, afterEscape_escaped hbody, afterEscape_quote]

theorem skipTrivia_cut {body : List Char} (hbody : Escaped body) (cs : List Char) :
    skipTrivia revlTrivia '"' (body ++ '\n' :: cs) = some ('\n' :: cs) := by
  rw [skipTrivia_revl, if_neg (by simp), if_pos rfl, afterEscape_escaped hbody, afterEscape_line]

/-- Any other character that reads is none of the forms, whatever the closing brace is followed
by. -/
theorem skipTrivia_char {c : Char} {cs : List Char} (hquote : c ≠ '"') (htick : c ≠ '`')
    (hcomment : ¬ (c = '/' ∧ cs.head? = some '/')) (rest : List Char) :
    skipTrivia revlTrivia c (cs ++ '}' :: rest) = none := by
  rw [skipTrivia_revl, if_neg, if_neg hquote, if_neg htick]
  rintro ⟨hc, hhead⟩
  refine hcomment ⟨hc, ?_⟩
  cases cs with
  | nil => simp at hhead
  | cons d cs => simpa using hhead

/-- The matcher ends behind what reads. -/
theorem matchFrom_of_reads {d : Nat} {inner : List Char} (h : Reads d inner) (rest : List Char) :
    ∀ fuel, inner.length < fuel →
      matchFrom revlTrivia fuel (d + 1) (inner ++ '}' :: rest) = some rest := by
  induction h with
  | done =>
    intro fuel hfuel
    obtain ⟨fuel, rfl⟩ : ∃ f, fuel = f + 1 := ⟨fuel - 1, by simp at hfuel; omega⟩
    rw [List.nil_append, matchFrom, if_neg (by decide), if_pos rfl, if_pos rfl]
  | openBrace _ ih =>
    intro fuel hfuel
    rw [List.length_cons] at hfuel
    obtain ⟨fuel, rfl⟩ : ∃ f, fuel = f + 1 := ⟨fuel - 1, by omega⟩
    rw [List.cons_append, matchFrom, if_pos rfl]
    exact ih fuel (by omega)
  | closeBrace _ ih =>
    intro fuel hfuel
    rw [List.length_cons] at hfuel
    obtain ⟨fuel, rfl⟩ : ∃ f, fuel = f + 1 := ⟨fuel - 1, by omega⟩
    rw [List.cons_append, matchFrom, if_neg (by decide), if_pos rfl, Nat.add_sub_cancel,
      if_neg (Nat.succ_ne_zero _)]
    exact ih fuel (by omega)
  | @comment d body cs hbody _ ih =>
    intro fuel hfuel
    simp only [List.length_cons, List.length_append] at hfuel
    obtain ⟨fuel, rfl⟩ : ∃ f, fuel = f + 1 := ⟨fuel - 1, by omega⟩
    simp only [List.cons_append, List.append_assoc]
    rw [matchFrom, if_neg (by decide), if_neg (by decide), skipTrivia_comment hbody]
    exact ih fuel (by simp only [List.length_cons]; omega)
  | @raw d body cs hbody _ ih =>
    intro fuel hfuel
    simp only [List.length_cons, List.length_append] at hfuel
    obtain ⟨fuel, rfl⟩ : ∃ f, fuel = f + 1 := ⟨fuel - 1, by omega⟩
    simp only [List.cons_append, List.append_assoc]
    rw [matchFrom, if_neg (by decide), if_neg (by decide), skipTrivia_raw hbody]
    exact ih fuel (by omega)
  | @quoted d body cs hbody _ ih =>
    intro fuel hfuel
    simp only [List.length_cons, List.length_append] at hfuel
    obtain ⟨fuel, rfl⟩ : ∃ f, fuel = f + 1 := ⟨fuel - 1, by omega⟩
    simp only [List.cons_append, List.append_assoc]
    rw [matchFrom, if_neg (by decide), if_neg (by decide), skipTrivia_quoted hbody]
    exact ih fuel (by omega)
  | @cut d body cs hbody _ ih =>
    intro fuel hfuel
    simp only [List.length_cons, List.length_append] at hfuel
    obtain ⟨fuel, rfl⟩ : ∃ f, fuel = f + 1 := ⟨fuel - 1, by omega⟩
    simp only [List.cons_append, List.append_assoc]
    rw [matchFrom, if_neg (by decide), if_neg (by decide), skipTrivia_cut hbody]
    exact ih fuel (by simp only [List.length_cons]; omega)
  | @char d c cs hopen hclose hquote htick hcomment _ ih =>
    intro fuel hfuel
    rw [List.length_cons] at hfuel
    obtain ⟨fuel, rfl⟩ : ∃ f, fuel = f + 1 := ⟨fuel - 1, by omega⟩
    rw [List.cons_append, matchFrom, if_neg hopen, if_neg hclose,
      skipTrivia_char hquote htick hcomment]
    exact ih fuel (by omega)

/-- What the matcher captures from an opening brace on reads, and a closing brace follows it. -/
theorem reads_of_matchBrace {cs inner rest : List Char}
    (h : matchBrace revlTrivia ('{' :: cs) = some (inner, rest)) :
    cs = inner ++ '}' :: rest ∧ Reads 0 inner := by
  obtain ⟨rest', hmatch, heq⟩ := Option.map_eq_some_iff.mp h
  rw [matchFrom, if_pos rfl] at hmatch
  obtain ⟨hinner, rfl⟩ := Prod.mk.inj heq
  obtain ⟨inner', rfl, hreads⟩ := reads_of_matchFrom hmatch
  have hlen : ('{' :: (inner' ++ '}' :: rest')).length - rest'.length - 2 = inner'.length := by
    simp only [List.length_cons, List.length_append]
    omega
  rw [List.drop_one, List.tail_cons, hlen, List.take_left] at hinner
  subst hinner
  exact ⟨rfl, hreads⟩

/-- **What the matcher captures.** From an opening brace on, it ends behind a text with a closing
brace exactly when the text reads, and captures that text. -/
theorem matchBrace_iff (inner rest : List Char) :
    matchBrace revlTrivia ('{' :: (inner ++ '}' :: rest)) = some (inner, rest) ↔ Reads 0 inner := by
  refine ⟨fun h => (reads_of_matchBrace h).2, fun h => ?_⟩
  have hlen : ('{' :: (inner ++ '}' :: rest)).length = inner.length + rest.length + 2 := by
    simp only [List.length_cons, List.length_append]
    omega
  have htake : inner.length + rest.length + 2 - rest.length - 2 = inner.length := by omega
  unfold matchBrace
  rw [hlen, matchFrom, if_pos rfl, matchFrom_of_reads h rest _ (by omega), Option.map_some,
    List.drop_one, List.tail_cons, htake, List.take_left]

end Revl.Lexer
