import Mathlib

/-!
# Reading a command line

Two readers of one text: a POSIX shell, and the tokenizer `shlex.split` of Python's standard
library.

- `Shell.words`: the shell's token recognition in the POSIX locale, up to the first character
  that is more than a part of a word.
- `Shell.simpleCommand`: the words of a text that is one simple command, after quote removal;
  the text must ask for nothing else.
- `Shlex.split`: `shlex.split(text, comments=False, posix=True)`.
-/

namespace Shell

/-- What a text asks of the shell besides a word. -/
inductive Feature where
  /-- A control or redirection operator, or the end of a line. -/
  | operator (c : Char)
  /-- A parameter, command or arithmetic expansion. -/
  | expansion (c : Char)
  | comment
  | continuation
  /-- The text ends in the middle of a quotation. -/
  | unfinished
  | pathname
  | tilde
  | assignment
  | reserved
  | nothing
  deriving DecidableEq, Repr

/-- A word as it stands, each character with whether it was quoted. -/
abbrev Word := List (Char × Bool)

/-- The quotation a reader is in, or the backslash it has just met. -/
inductive Mode where
  | plain
  | single
  | double
  | escape (inDouble : Bool)
  deriving DecidableEq, Repr

/-- The blanks of the POSIX locale. -/
def isBlank (c : Char) : Bool := c = ' ' || c = '\t'

/-- The characters that start an operator. -/
def isOperator (c : Char) : Bool :=
  c = '\n' || c = '|' || c = '&' || c = ';' || c = '<' || c = '>' || c = '(' || c = ')'

/-- The characters that start an expansion, in double quotes too. -/
def isExpansion (c : Char) : Bool := c = '$' || c = '`'

/-- A character put at the end of the current word, which it starts if there is none. -/
def push (cur : Option Word) (c : Char) (quoted : Bool) : Option Word :=
  some (cur.getD [] ++ [(c, quoted)])

/-- A word that is finished, before the words that follow. -/
def close (cur : Option Word) (rest : Except Feature (List Word)) : Except Feature (List Word) :=
  rest.map (cur.toList ++ ·)

/-- A character that follows a backslash in double quotes. The backslash escapes four of them;
before another one it stands for itself. -/
def pushEscaped (cur : Option Word) (c : Char) : Option Word :=
  if isExpansion c ∨ c = '"' ∨ c = '\\' then push cur c true else push (push cur '\\' true) c true

/-- Token recognition. -/
def read : Mode → Option Word → List Char → Except Feature (List Word)
  | .plain, cur, [] => .ok cur.toList
  | .plain, cur, c :: cs =>
    if c = '\\' then read (.escape false) cur cs
    else if c = '\'' then read .single (some (cur.getD [])) cs
    else if c = '"' then read .double (some (cur.getD [])) cs
    else if isExpansion c then .error (.expansion c)
    else if isOperator c then .error (.operator c)
    else if isBlank c then close cur (read .plain none cs)
    else if c = '#' ∧ cur = none then .error .comment
    else read .plain (push cur c false) cs
  | .single, _, [] => .error .unfinished
  | .single, cur, c :: cs =>
    if c = '\'' then read .plain cur cs else read .single (push cur c true) cs
  | .double, _, [] => .error .unfinished
  | .double, cur, c :: cs =>
    if c = '"' then read .plain cur cs
    else if isExpansion c then .error (.expansion c)
    else if c = '\\' then read (.escape true) cur cs
    else read .double (push cur c true) cs
  | .escape _, _, [] => .error .unfinished
  | .escape inDouble, cur, c :: cs =>
    if c = '\n' then .error .continuation
    else if inDouble then read .double (pushEscaped cur c) cs
    else read .plain (push cur c true) cs

theorem read_plain_nil (cur : Option Word) : read .plain cur [] = .ok cur.toList := by
  rw [read]

def words (text : List Char) : Except Feature (List Word) := read .plain none text

/-- Quote removal. -/
def removeQuotes (w : Word) : List Char := w.map Prod.fst

/-- An unquoted `*`, `?` or `[` makes a word a pattern. -/
def isPattern (w : Word) : Bool :=
  w.any fun p => !p.2 && (p.1 = '*' || p.1 = '?' || p.1 = '[')

/-- An unquoted `~` at the start of a word. -/
def isTilde (w : Word) : Bool := w.head? = some ('~', false)

/-- A name and an unquoted `=`. -/
def isAssignment (w : Word) : Bool :=
  let name := w.takeWhile fun p => p ≠ ('=', false)
  name ≠ [] ∧ name.length < w.length ∧
    (name.all fun p => !p.2 && (p.1.isAlphanum || p.1 = '_')) = true ∧
    (name.head?.all fun p => !p.1.isDigit) = true

def reservedWords : List (List Char) :=
  ["!", "\x7b", "\x7d", "case", "do", "done", "elif", "else", "esac", "fi", "for", "if", "in",
    "then", "until", "while"].map String.toList

/-- A reserved word, no character of it quoted. -/
def isReserved (w : Word) : Bool :=
  removeQuotes w ∈ reservedWords ∧ (w.all fun p => !p.2) = true

/-- The words of a text that is one simple command and asks for nothing else: the command's name
and its operands as the command gets them. -/
def simpleCommand (text : List Char) : Except Feature (List (List Char)) :=
  match words text with
  | .error f => .error f
  | .ok [] => .error .nothing
  | .ok (w :: ws) =>
    if isReserved w then .error .reserved
    else if isAssignment w then .error .assignment
    else if (w :: ws).any isTilde then .error .tilde
    else if (w :: ws).any isPattern then .error .pathname
    else .ok ((w :: ws).map removeQuotes)

/-- A text none of whose words is more than its characters is the command they make. -/
theorem simpleCommand_of_words {text : List Char} {w : Word} {ws : List Word}
    (h : words text = .ok (w :: ws)) (hreserved : isReserved w = false)
    (hassign : isAssignment w = false) (htilde : ∀ v ∈ w :: ws, isTilde v = false)
    (hpattern : ∀ v ∈ w :: ws, isPattern v = false) :
    simpleCommand text = .ok ((w :: ws).map removeQuotes) := by
  have ht : (w :: ws).any isTilde = false := List.any_eq_false.mpr fun v hv => by simp [htilde v hv]
  have hp : (w :: ws).any isPattern = false :=
    List.any_eq_false.mpr fun v hv => by simp [hpattern v hv]
  rw [simpleCommand, h]
  dsimp only
  rw [hreserved, hassign, ht, hp]
  rfl

end Shell

namespace Shlex

/-- Where the tokenizer is: between tokens, in one, in a quotation, or after a backslash that was
met in one or in double quotes. -/
inductive State where
  | blank
  | token
  | quote (q : Char)
  | escape (double : Bool)
  deriving DecidableEq, Repr

def isBlank (c : Char) : Bool := c = ' ' || c = '\t' || c = '\r' || c = '\n'

/-- The token read, if there is one: some text, or a quotation that may be empty. -/
def emit (token : List Char) (quoted : Bool) : List (List Char) :=
  if token = [] ∧ quoted = false then [] else [token]

/-- `read_token` over and over, with the token so far and whether a quotation was in it. -/
def run : State → List Char → Bool → List Char → Except String (List (List Char))
  | .blank, _, _, [] => .ok []
  | .blank, _, _, c :: cs =>
    if isBlank c then run .blank [] false cs
    else if c = '\\' then run (.escape false) [] false cs
    else if c = '\'' ∨ c = '"' then run (.quote c) [] false cs
    else run .token [c] false cs
  | .token, token, quoted, [] => .ok (emit token quoted)
  | .token, token, quoted, c :: cs =>
    if isBlank c then (run .blank [] false cs).map (emit token quoted ++ ·)
    else if c = '\'' ∨ c = '"' then run (.quote c) token quoted cs
    else if c = '\\' then run (.escape false) token quoted cs
    else run .token (token ++ [c]) quoted cs
  | .quote _, _, _, [] => .error "No closing quotation"
  | .quote q, token, _, c :: cs =>
    if c = q then run .token token true cs
    else if c = '\\' ∧ q = '"' then run (.escape true) token true cs
    else run (.quote q) (token ++ [c]) true cs
  | .escape _, _, _, [] => .error "No escaped character"
  | .escape double, token, quoted, c :: cs =>
    if double then
      run (.quote '"') (token ++ (if c ≠ '\\' ∧ c ≠ '"' then ['\\', c] else [c])) quoted cs
    else run .token (token ++ [c]) quoted cs

theorem run_token_nil (token : List Char) (quoted : Bool) :
    run .token token quoted [] = .ok (emit token quoted) := by
  rw [run]

/-- `shlex.split(text, comments=False, posix=True)`. -/
def split (text : List Char) : Except String (List (List Char)) := run .blank [] false text

example : split "mv 'a b' c\\ d \"\"".toList =
    .ok ["mv".toList, "a b".toList, "c d".toList, []] := by decide

end Shlex
