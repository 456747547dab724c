import Revl.Lib.PyText
import Revl.Lexer.Brace

/-!
# The lexer (`lexer.py`)

`lex` turns a source into tokens. A template is one token: its text parts, and the raw text of each
interpolation up to the brace the matcher finds.

- `Token`, `lexString`, `lexTriple`, `lexNumber`, `lexTemplate`, `next`, `lex`: the lexer.
- `interpolation_captured_iff`: **which expressions an interpolation captures whole**.
-/

namespace Revl.Lexer

open PyText

/-! ## Tokens -/

/-- A part of a template. -/
inductive Part where
  | text (s : List Char)
  | expr (s : List Char)
  deriving DecidableEq, Repr

/-- A token without its line. A float is the digits it is read from. -/
inductive Token where
  | ident (name : List Char)
  | kw (name : List Char)
  | int (n : Nat)
  | float (digits : List Char)
  | string (text : List Char)
  | template (parts : List Part)
  | hostbody (backend : String) (body : List Char)
  | symbol (s : List Char)
  | eof
  deriving DecidableEq, Repr

/-- `KEYWORDS` -/
def keywords : List String :=
  ["service", "component", "requires", "provides", "config", "let", "effect", "undo", "emit",
    "emission", "provide", "fn", "return", "true", "false", "null", "isolate", "intercept", "realm",
    "in", "with", "handoff", "spawn", "every", "after", "subscribe", "type", "use", "pub", "var",
    "while", "for", "of", "if", "else", "match", "test", "assert", "async", "as", "fail", "break",
    "continue", "hole", "extern", "acquire", "pure", "compensate", "await", "verified",
    "commutative", "try", "idempotent"]

/-- `SYMBOLS` -/
def symbols : List Char := ['{', '}', '(', ')', '[', ']', ',', ':', '=', '.']

/-- `OPERATORS` -/
def operators : List (List Char) :=
  [['=', '=', '='], ['!', '=', '='], ['=', '>'], ['?', '.'], ['?', '?'], ['<', '<'], ['>', '>'],
    ['<', '='], ['>', '='], ['=', '='], ['!', '='], ['&', '&'], ['|', '|'], ['-', '>']]

/-- `SINGLE_OPERATORS` -/
def singleOperators : List Char :=
  ['+', '-', '*', '/', '%', '<', '>', '!', '?', ';', '|', '@', '&', '^', '~']

/-- `_IDENT_START` -/
def identStart (c : Char) : Bool := ('a' ≤ c && c ≤ 'z') || ('A' ≤ c && c ≤ 'Z') || c = '_'

/-- `_ASCII_DIGIT` -/
def asciiDigit (c : Char) : Bool := '0' ≤ c && c ≤ '9'

/-- `_IDENT_CONT` -/
def identCont (c : Char) : Bool := identStart c || asciiDigit c

/-! ## Numbers -/

/-- The digits of a radix. -/
def radixDigit (base : Nat) (c : Char) : Bool :=
  if base = 16 then asciiDigit c || ('a' ≤ c && c ≤ 'f') || ('A' ≤ c && c ≤ 'F')
  else '0' ≤ c && c.toNat < '0'.toNat + base

/-- The value of a digit. -/
def digitValue (c : Char) : Nat :=
  if asciiDigit c then c.toNat - '0'.toNat
  else if 'a' ≤ c && c ≤ 'f' then c.toNat - 'a'.toNat + 10
  else c.toNat - 'A'.toNat + 10

def digitsValue (base : Nat) (digits : List Char) : Nat :=
  digits.foldl (fun n c => n * base + digitValue c) 0

/-- `_scan_grouped_digits`: at least one digit, and a `_` only between two. -/
def scanGroupedDigits (valid : Char → Bool) (buf : List Char) (prevUnderscore : Bool) :
    List Char → Option (List Char × List Char)
  | [] => if buf.isEmpty || prevUnderscore then none else some (buf, [])
  | c :: cs =>
    if c = '_' then
      if buf.isEmpty || prevUnderscore then none else scanGroupedDigits valid buf true cs
    else if valid c then scanGroupedDigits valid (buf ++ [c]) false cs
    else if buf.isEmpty || prevUnderscore then none else some (buf, c :: cs)

/-- The radix a `0` and a letter open. -/
def radix? (c d : Char) : Option Nat :=
  if c = '0' then
    if d = 'x' || d = 'X' then some 16
    else if d = 'b' || d = 'B' then some 2
    else if d = 'o' || d = 'O' then some 8
    else none
  else none

/-- A fraction, where a digit follows the point. -/
def scanFraction (num : List Char) : List Char → Option (List Char × Bool × List Char)
  | '.' :: d :: cs =>
    if asciiDigit d then
      (scanGroupedDigits asciiDigit [] false (d :: cs)).map fun (frac, rest) =>
        (num ++ '.' :: frac, true, rest)
    else some (num, false, '.' :: d :: cs)
  | cs => some (num, false, cs)

/-- The sign of an exponent. -/
def exponentSign : List Char → List Char × List Char
  | c :: cs => if c = '+' || c = '-' then ([c], cs) else ([], c :: cs)
  | [] => ([], [])

/-- An exponent, where a digit follows its letter and sign. -/
def scanExponent (num : List Char) (isFloat : Bool) :
    List Char → Option (List Char × Bool × List Char)
  | c :: cs =>
    if c = 'e' || c = 'E' then
      match exponentSign cs with
      | (sign, d :: more) =>
        if asciiDigit d then
          (scanGroupedDigits asciiDigit [] false (d :: more)).map fun (exp, rest) =>
            (num ++ 'e' :: (sign ++ exp), true, rest)
        else some (num, isFloat, c :: cs)
      | (_, []) => some (num, isFloat, c :: cs)
    else some (num, isFloat, c :: cs)
  | [] => some (num, isFloat, [])

/-- The longest decimal `int()` reads. -/
def maxIntDigits : Nat := 4300

/-- `_lex_number` -/
def lexNumber (c : Char) (cs : List Char) : Option (Token × List Char) :=
  match cs.head?.bind (radix? c) with
  | some base =>
    (scanGroupedDigits (radixDigit base) [] false (cs.drop 1)).map fun (digits, rest) =>
      (.int (digitsValue base digits), rest)
  | none =>
    match scanGroupedDigits asciiDigit [] false (c :: cs) with
    | none => none
    | some (digits, rest) =>
      match scanFraction digits rest with
      | none => none
      | some (num, isFloat, rest) =>
        match scanExponent num isFloat rest with
        | none => none
        | some (num, true, rest) => some (.float num, rest)
        | some (num, false, rest) =>
          if num.length ≤ maxIntDigits then some (.int (digitsValue 10 num), rest) else none

/-! ## Strings and templates -/

/-- A `${` and a later `}`. -/
def hasInterpolation : List Char → Bool
  | '$' :: '{' :: cs => cs.contains '}'
  | _ :: cs => hasInterpolation cs
  | [] => false

/-- `_reject_dollar_interpolation` -/
def rejectsDollar (text : List Char) : Bool := !text.contains '`' && hasInterpolation text

/-- `_lex_string`, past the opening quote. -/
def lexString (quote : Char) (buf : List Char) : List Char → Option (List Char × List Char)
  | [] => none
  | '\\' :: d :: cs =>
    if d = quote ∨ d = '\\' then lexString quote (buf ++ [d]) cs
    else lexString quote (buf ++ ['\\']) (d :: cs)
  | c :: cs =>
    if c = quote then if rejectsDollar buf then none else some (buf, cs)
    else if c = '\n' then none
    else lexString quote (buf ++ [c]) cs

/-- The body of a triple-quoted string, up to its closer. -/
def lexTriple (buf : List Char) : List Char → Option (List Char × List Char)
  | [] => none
  | c :: cs =>
    if ['"', '"', '"'].isPrefixOf (c :: cs) then some (buf, (c :: cs).drop 3)
    else lexTriple (buf ++ [c]) cs

/-- `_lex_triple_string`: a newline right behind the opener is left out. -/
def lexTripleString (cs : List Char) : Option (List Char × List Char) :=
  lexTriple [] (if cs.head? = some '\n' then cs.drop 1 else cs)

/-- The text gathered so far, as a part. -/
def textPart (buf : List Char) : List Part := if buf.isEmpty then [] else [.text buf]

/-- `_lex_template`, past the opening backtick. -/
def lexTemplate : Nat → List Char → List Char → Option (List Part × List Char)
  | 0, _, _ => none
  | _ + 1, _, [] => none
  | fuel + 1, buf, c :: cs =>
    if c = '`' then some (textPart buf, cs)
    else if c = '$' ∧ cs.head? = some '{' then
      match matchBrace revlTrivia cs with
      | none => none
      | some (raw, rest) =>
        if (strip raw).isEmpty then none
        else
          (lexTemplate fuel [] rest).map fun (parts, rest) =>
            (textPart buf ++ .expr (strip raw) :: parts, rest)
    else lexTemplate fuel (buf ++ [c]) cs

/-! ## The loop -/

/-- A host block behind its `@`, or the `@` alone. -/
def lexHost (cs : List Char) : Option (Token × List Char) :=
  let backend := cs.takeWhile identCont
  let body := (cs.dropWhile identCont).dropWhile isSpace
  if body.head? = some '{' then
    (matchBrace (hostTrivia (String.ofList backend)) body).map fun (raw, rest) =>
      (.hostbody (String.ofList backend) raw, rest)
  else some (.symbol ['@'], cs)

/-- An identifier or a keyword; an `f` glued to a quote is refused. -/
def lexWord (c : Char) (cs : List Char) : Option (Token × List Char) :=
  let word := c :: cs.takeWhile identCont
  let rest := cs.dropWhile identCont
  if (word = ['f'] ∨ word = ['F']) ∧ (rest.head? = some '"' ∨ rest.head? = some '\'') then none
  else if String.ofList word ∈ keywords then some (.kw word, rest)
  else some (.ident word, rest)

/-- One turn of the loop: the token that begins at a character, if one does, and what follows. A
character outside ASCII that is no space is refused, alone or behind a word. -/
def next (c : Char) (cs : List Char) : Option (Option Token × List Char) :=
  if c = '\n' ∨ isSpace c then some (none, cs)
  else if c = '/' ∧ cs.head? = some '/' then some (none, (c :: cs).dropWhile (· ≠ '\n'))
  else
    match operators.find? fun op => op.isPrefixOf (c :: cs) with
    | some op => some (some (.symbol op), (c :: cs).drop op.length)
    | none =>
      if ['"', '"', '"'].isPrefixOf (c :: cs) then
        (lexTripleString (cs.drop 2)).map fun (text, rest) => (some (.string text), rest)
      else if c = '"' ∨ c = '\'' then
        (lexString c [] cs).map fun (text, rest) => (some (.string text), rest)
      else if c = '`' then
        (lexTemplate (cs.length + 1) [] cs).map fun (parts, rest) =>
          (some (.template parts), rest)
      else if identStart c then (lexWord c cs).map fun (tok, rest) => (some tok, rest)
      else if asciiDigit c then (lexNumber c cs).map fun (tok, rest) => (some tok, rest)
      else if c = '@' ∧ cs.head?.any identStart then
        (lexHost cs).map fun (tok, rest) => (some tok, rest)
      else if c ∈ symbols ∨ c ∈ singleOperators then some (some (.symbol [c]), cs)
      else none

/-- The tokens of a source; `none` is a `RevlError`. Each turn takes a character at least. -/
def lexFrom : Nat → List Char → Option (List Token)
  | 0, _ => none
  | _ + 1, [] => some [.eof]
  | fuel + 1, c :: cs =>
    match next c cs with
    | none => none
    | some (tok, rest) => (lexFrom fuel rest).map fun toks => tok.toList ++ toks

/-- `lex` -/
def lex (source : List Char) : Option (List Token) :=
  let source := if source.head? = some '\uFEFF' then source.drop 1 else source
  lexFrom (source.length + 1) source

/-! ## Interpolations -/

/-- The template that interpolates an expression and nothing else. -/
def interpolation (e : List Char) : List Char := '`' :: '$' :: '{' :: (e ++ ['}', '`'])

/-- Whether the braces among some tokens balance, given how many are open. -/
def bracesBalance : Nat → List Token → Bool
  | d, [] => d == 0
  | d, tok :: toks =>
    if tok = .symbol ['{'] then bracesBalance (d + 1) toks
    else if tok = .symbol ['}'] then d != 0 && bracesBalance (d - 1) toks
    else bracesBalance d toks

/-- Whether the source ends inside a line comment. -/
def endsInComment : Nat → List Char → Bool
  | 0, _ => false
  | _ + 1, [] => false
  | fuel + 1, c :: cs =>
    match next c cs with
    | none => false
    | some (_, rest) => (c == '/' && cs.head? == some '/' && rest.isEmpty) || endsInComment fuel rest

/-- An expression to interpolate: it lexes on its own, to balanced braces and at least one token,
and does not end inside a line comment. -/
def Interpolable (e : List Char) : Prop :=
  (∃ toks, lex e = some toks ∧ bracesBalance 0 toks = true ∧ toks ≠ [.eof]) ∧
    endsInComment (e.length + 1) e = false

/-- The interpolation is one token, whose single part is the expression without the blanks around
it. -/
def Captured (e : List Char) : Prop :=
  lex (interpolation e) = some [.template [.expr (strip e)], .eof]

theorem next_space {c : Char} (h : isSpace c = true) (cs : List Char) : next c cs = some (none, cs) := by
  rw [next, if_pos (.inr h)]

theorem next_backtick (cs : List Char) :
    next '`' cs = (lexTemplate (cs.length + 1) [] cs).map fun (parts, rest) =>
      (some (.template parts), rest) := by
  have hspace : ¬ ('`' = '\n' ∨ isSpace '`' = true) := by decide
  have hop : (operators.find? fun op => op.isPrefixOf ('`' :: cs)) = none := by
    simp [operators, List.isPrefixOf]
  have htriple : ['"', '"', '"'].isPrefixOf ('`' :: cs) = false := by simp [List.isPrefixOf]
  rw [next, if_neg hspace, if_neg (by simp), hop]
  simp only [htriple]
  rw [if_neg (by decide), if_neg (by decide), if_pos trivial]

/-- A blank source has no tokens. -/
theorem lexFrom_blank {cs : List Char} (h : ∀ c ∈ cs, isSpace c = true) :
    ∀ fuel, cs.length < fuel → lexFrom fuel cs = some [.eof] := by
  induction cs with
  | nil =>
    intro fuel hfuel
    obtain ⟨fuel, rfl⟩ : ∃ f, fuel = f + 1 := ⟨fuel - 1, by simp at hfuel; omega⟩
    rfl
  | cons c cs ih =>
    intro fuel hfuel
    rw [List.length_cons] at hfuel
    obtain ⟨fuel, rfl⟩ : ∃ f, fuel = f + 1 := ⟨fuel - 1, by omega⟩
    obtain ⟨hc, hcs⟩ := List.forall_mem_cons.mp h
    rw [lexFrom, next_space hc]
    simp only
    rw [ih hcs fuel (by omega)]
    rfl

theorem strip_ne_nil_of_interpolable {e : List Char} (h : Interpolable e) : strip e ≠ [] := by
  obtain ⟨⟨toks, hlex, -, hne⟩, -⟩ := h
  intro hstrip
  have hblank := strip_eq_nil hstrip
  have hbom : e.head? ≠ some '\uFEFF' := by
    intro hhead
    have := hblank _ (List.mem_of_mem_head? hhead)
    exact absurd this (by decide)
  rw [lex, if_neg hbom, lexFrom_blank hblank _ (Nat.lt_succ_self _), Option.some.injEq] at hlex
  exact hne hlex.symm

/-- Stripping keeps what stands before a character that is no blank, and the character. -/
theorem length_lt_strip {s t : List Char} {c : Char} (hc : isSpace c = false)
    (hs : strip s ≠ []) : (strip s).length < (strip (s ++ c :: t)).length := by
  have hdrop : (s ++ c :: t).dropWhile isSpace = s.dropWhile isSpace ++ c :: t := by
    rw [List.dropWhile_append, if_neg]
    rw [List.isEmpty_iff]
    intro hnil
    rw [strip, hnil] at hs
    exact hs rfl
  have hback : (c :: t).reverse.dropWhile isSpace ≠ [] := by
    intro hnil
    have := List.dropWhile_eq_nil_iff.mp hnil c (List.mem_reverse.mpr List.mem_cons_self)
    rw [hc] at this
    exact absurd this (by simp)
  have hle : (strip s).length ≤ (s.dropWhile isSpace).length := by
    rw [strip, List.length_reverse]
    exact (List.dropWhile_sublist _).length_le.trans (List.length_reverse.le)
  have hlong : (strip (s ++ c :: t)).length =
      ((c :: t).reverse.dropWhile isSpace).length + (s.dropWhile isSpace).length := by
    rw [strip, hdrop, List.length_reverse, List.reverse_append, List.dropWhile_append, if_neg,
      List.length_append, List.length_reverse]
    rwa [List.isEmpty_iff]
  have := List.length_pos_iff.mpr hback
  omega

/-- The template of an interpolation, from what the matcher makes of it. -/
theorem lexTemplate_interpolation (e : List Char) (fuel : Nat) :
    lexTemplate (fuel + 1) [] ('$' :: '{' :: (e ++ ['}', '`'])) =
      match matchBrace revlTrivia ('{' :: (e ++ ['}', '`'])) with
      | none => none
      | some (raw, rest) =>
        if (strip raw).isEmpty then none
        else (lexTemplate fuel [] rest).map fun (parts, rest) => (.expr (strip raw) :: parts, rest) := by
  rw [lexTemplate, if_neg (by decide), if_pos ⟨rfl, rfl⟩]
  rfl

theorem lex_interpolation (e : List Char) :
    lex (interpolation e) =
      match lexTemplate (e.length + 5) [] ('$' :: '{' :: (e ++ ['}', '`'])) with
      | none => none
      | some (parts, rest) => (lexFrom (e.length + 5) rest).map fun toks => .template parts :: toks := by
  have hlen : (interpolation e).length + 1 = e.length + 5 + 1 := by simp [interpolation]
  have hlen' : ('$' :: '{' :: (e ++ ['}', '`'])).length + 1 = e.length + 5 := by simp
  rw [lex, if_neg (by simp [interpolation]), hlen, interpolation, lexFrom, next_backtick, hlen']
  cases lexTemplate (e.length + 5) [] ('$' :: '{' :: (e ++ ['}', '`'])) with
  | none => rfl
  | some p => rfl

theorem captured_of_reads {e : List Char} (hstrip : strip e ≠ []) (h : Reads 0 e) : Captured e := by
  have hmatch : matchBrace revlTrivia ('{' :: (e ++ ['}', '`'])) = some (e, ['`']) :=
    (matchBrace_iff e ['`']).mpr h
  have hempty : ¬ (strip e).isEmpty = true := by rwa [List.isEmpty_iff]
  have hend : ∀ fuel, lexTemplate (fuel + 1) [] ['`'] = some ([], []) := fun fuel => by
    rw [lexTemplate, if_pos rfl]
    rfl
  rw [Captured, lex_interpolation, lexTemplate_interpolation, hmatch]
  simp only
  rw [if_neg hempty, hend (e.length + 3)]
  rfl

theorem reads_of_captured {e : List Char} (h : Captured e) : Reads 0 e := by
  rw [Captured, lex_interpolation, lexTemplate_interpolation] at h
  cases hmatch : matchBrace revlTrivia ('{' :: (e ++ ['}', '`'])) with
  | none => simp [hmatch] at h
  | some p =>
    obtain ⟨raw, rest⟩ := p
    obtain ⟨hsplit, hreads⟩ := reads_of_matchBrace hmatch
    simp only [hmatch] at h
    by_cases hempty : (strip raw).isEmpty = true
    · rw [if_pos hempty] at h
      simp at h
    rw [if_neg hempty] at h
    -- the one part is what the matcher captured, so that it captured the whole text
    have hstrip : strip raw = strip e := by
      cases hrest : lexTemplate (e.length + 4) [] rest with
      | none => simp [hrest] at h
      | some q =>
        simp only [hrest, Option.map_some] at h
        cases hmore : lexFrom (e.length + 5) q.2 with
        | none => simp [hmore] at h
        | some toks =>
          simp only [hmore, Option.map_some, Option.some.injEq, List.cons.injEq,
            Token.template.injEq, Part.expr.injEq] at h
          exact h.1.1
    have hsplit' : (e ++ ['}']) ++ ['`'] = (raw ++ ['}']) ++ rest := by simpa using hsplit
    rcases List.append_eq_append_iff.mp hsplit' with ⟨more, heq, hrest⟩ | ⟨more, heq, hrest⟩
    · cases more with
      | nil =>
        rw [List.append_nil] at heq
        rwa [← (List.append_inj' heq rfl).1]
      | cons c more =>
        exfalso
        obtain ⟨rfl, hnil⟩ := List.cons.inj hrest
        obtain ⟨rfl, -⟩ := List.append_eq_nil_iff.mp hnil.symm
        have := (List.append_inj' heq rfl).2
        simp at this
    · cases hlast : more.reverse with
      | nil =>
        rw [List.reverse_eq_nil_iff] at hlast
        subst hlast
        rw [List.append_nil] at heq
        rwa [(List.append_inj' heq rfl).1]
      | cons c more' =>
        exfalso
        have hmore : more = more'.reverse ++ [c] := by
          rw [← List.reverse_reverse more, hlast, List.reverse_cons]
        rw [hmore, ← List.append_assoc] at heq
        have hesplit := (List.append_inj' heq rfl).1
        rw [List.append_assoc, List.singleton_append] at hesplit
        have hlt := length_lt_strip (t := more'.reverse) (show isSpace '}' = false by decide)
          (by rwa [List.isEmpty_iff] at hempty : strip raw ≠ [])
        rw [← hesplit, ← hstrip] at hlt
        exact absurd hlt (lt_irrefl _)

/-- **Which expressions are captured whole.** The interpolation of an expression is one token with
the expression for its single part exactly when the expression's braces balance as the matcher
reads them: outside `//` comments, quoted strings and backtick strings without interpolation, every
other form being characters. -/
theorem interpolation_captured_iff (e : List Char) (h : Interpolable e) : Captured e ↔ Reads 0 e :=
  ⟨reads_of_captured, captured_of_reads (strip_ne_nil_of_interpolable h)⟩

/-- A lookup with a brace in a quoted string reads. -/
theorem interpolation_captured_iff_lookup :
    Interpolable ['m', '(', '"', '}', '"', ')'] ∧ Captured ['m', '(', '"', '}', '"', ')'] := by
  have h : Interpolable ['m', '(', '"', '}', '"', ')'] :=
    ⟨⟨[.ident ['m'], .symbol ['('], .string ['}'], .symbol [')'], .eof], by decide +kernel,
      by decide +kernel, by decide +kernel⟩, by decide +kernel⟩
  refine ⟨h, (interpolation_captured_iff _ h).mpr ?_⟩
  refine .char (by decide) (by decide) (by decide) (by decide) (by decide) ?_
  refine .char (by decide) (by decide) (by decide) (by decide) (by decide) ?_
  have hbody : Escaped ['}'] := .char (by decide) (by decide) (by decide) .nil
  refine .quoted hbody ?_
  exact .char (by decide) (by decide) (by decide) (by decide) (by decide) .done

/-- The same lookup with the brace in a single-quoted string: the matcher takes the brace for the
end. -/
theorem single_quoted_brace_not_captured :
    Interpolable ['m', '(', '\'', '}', '\'', ')'] ∧ ¬ Captured ['m', '(', '\'', '}', '\'', ')'] := by
  refine ⟨⟨⟨[.ident ['m'], .symbol ['('], .string ['}'], .symbol [')'], .eof], by decide +kernel,
    by decide +kernel, by decide +kernel⟩, by decide +kernel⟩, ?_⟩
  unfold Captured
  decide +kernel

end Revl.Lexer
