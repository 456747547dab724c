import Revl.Lib.Shell
import Revl.Lib.PyText
import Revl.Lib.Json.Repr

/-!
# Classifying a shell command (`revl_shell_classify.py`)

A command line that is one bare file-system command is lowered to a plan of witnessed
operations; every other one stays an emission. A scanner looks for shell features outside
quotations, `shlex` splits what it let through, and the words are checked against a table.

- `classify`: the verdict.
- `Lowers`: the plans of the commands, with their arities.
- `scan_agrees`: where the scanner finds nothing, the shell and `shlex` read the same words.
- `classify_sound`: **`classify` never raises, and a witnessed command is read by a POSIX shell as
  one simple command whose words are the plan's.**
-/

namespace Revl.ShellClassify

open Shell (Word)

/-- `_METACHARS`. -/
def metachars : List Char := "|&;<>()\x7b\x7d$`*?[]~!#".toList

/-- What the scanner may find. -/
inductive Finding where
  | metachar (c : Char)
  | newline
  | dangling
  | unbalanced
  | expansion
  | escapedExpansion
  deriving DecidableEq, Repr

/-- `in_single` and `in_double`. -/
inductive Quoting where
  | plain
  | single
  | double
  deriving DecidableEq, Repr

/-- `_first_unquoted_metachar`. -/
def firstUnquotedMetachar : Quoting → List Char → Option Finding
  | .plain, [] => none
  | .single, [] => some .unbalanced
  | .double, [] => some .unbalanced
  | .single, c :: cs =>
    if c = '\'' then firstUnquotedMetachar .plain cs else firstUnquotedMetachar .single cs
  | .double, c :: cs =>
    if c = '\\' then
      match cs with
      | [] => some .unbalanced
      | d :: cs =>
        if d = '\n' then some .newline
        else if d = '$' ∨ d = '`' then some .escapedExpansion
        else firstUnquotedMetachar .double cs
    else if c = '"' then firstUnquotedMetachar .plain cs
    else if c = '$' ∨ c = '`' then some .expansion
    else firstUnquotedMetachar .double cs
  | .plain, c :: cs =>
    if c = '\\' then
      match cs with
      | [] => some .dangling
      | d :: cs => if d = '\n' then some .newline else firstUnquotedMetachar .plain cs
    else if c = '\'' then firstUnquotedMetachar .single cs
    else if c = '"' then firstUnquotedMetachar .double cs
    else if c = '\n' ∨ c = '\r' then some .newline
    else if c ∈ metachars then some (.metachar c)
    else firstUnquotedMetachar .plain cs

/-- The reason a finding gives. -/
def Finding.reason : Finding → String
  | .unbalanced => "unbalanced quotes"
  | .dangling => "dangling backslash escape"
  | .newline => "command spans multiple lines"
  | .expansion => "shell expansion inside double quotes"
  | .escapedExpansion => "escaped expansion inside double quotes"
  | .metachar c => "unquoted shell metacharacter " ++ Json.reprStr (String.ofList [c])

/-- `_op`: one operation of a plan. -/
structure PlanOp where
  op : String
  witnessed : String
  inverse : String
  args : List String
  createOnly : Bool
  deriving DecidableEq, Repr

/-- `_witnessed` and `_emission`. -/
inductive Plan where
  | witnessed (command : String) (ops : List PlanOp)
  | emission (command reason : String)
  deriving DecidableEq, Repr

/-- `_ARITY`: no number where one or more operands will do. -/
def arity : List (String × Option Nat) :=
  [("mv", some 2), ("cp", some 2), ("rm", none), ("mkdir", none), ("touch", none)]

/-- Two operands, or the error of unpacking another number of them. -/
def unpack (operands : List String) (plan : String → String → Plan) : Except String Plan :=
  match operands with
  | [src, dst] => .ok (plan src dst)
  | _ => .error "ValueError"

/-- The plan of a command of the table. -/
def lower (cmd name : String) (operands : List String) : Except String Plan :=
  if name = "mv" then
    unpack operands fun src dst => .witnessed cmd [⟨"mv", "move", "unmove", [src, dst], false⟩]
  else if name = "cp" then
    unpack operands fun src dst => .witnessed cmd [⟨"cp", "write", "restore", [src, dst], false⟩]
  else if name = "rm" then
    .ok (.witnessed cmd (operands.map fun p => ⟨"rm", "rm", "unrm", [p], false⟩))
  else if name = "mkdir" then
    .ok (.witnessed cmd (operands.map fun p => ⟨"mkdir", "mkdir", "rmdir_if_empty", [p], false⟩))
  else if name = "touch" then
    .ok (.witnessed cmd (operands.map fun p => ⟨"touch", "write", "restore", [p], true⟩))
  else .ok (.emission cmd ("unhandled command " ++ Json.reprStr name))

/-- The checks of the words, and the plan. -/
def classifyWords (cmd name : String) (operands : List String) : Except String Plan :=
  match arity.lookup name with
  | none => .ok (.emission cmd ("unrecognized command " ++ Json.reprStr name))
  | some count =>
    match operands.find? fun w => w.toList.head? = some '-' with
    | some flag =>
      .ok (.emission cmd s!"flag {Json.reprStr flag} changes semantics; not classifiable")
    | none =>
      if operands = [] then .ok (.emission cmd s!"{name}: no operands")
      else if count.any (· ≠ operands.length) = true then
        .ok (.emission cmd
          s!"{name}: expected {count.getD 0} operand(s), got {operands.length}")
      else lower cmd name operands

/-- `classify`; an error is an exception that leaves it. -/
def classify (cmd : String) : Except String Plan :=
  if PyText.strip cmd.toList = [] then .ok (.emission cmd "empty command")
  else match firstUnquotedMetachar .plain cmd.toList with
    | some found => .ok (.emission cmd found.reason)
    | none =>
      match Shlex.split cmd.toList with
      | .error e => .ok (.emission cmd s!"unparseable command ({e})")
      | .ok [] => .ok (.emission cmd "empty command")
      | .ok (name :: operands) =>
        classifyWords cmd (String.ofList name) (operands.map String.ofList)

example : classify "mv \"a;b\" c" =
    .ok (.witnessed "mv \"a;b\" c" [⟨"mv", "move", "unmove", ["a;b", "c"], false⟩]) := by
  decide +kernel

/-! ## The plans -/

/-- What the operations of a plan are, for a command's name and its operands. -/
inductive Lowers : String → List String → List PlanOp → Prop
  | mv (src dst : String) :
    Lowers "mv" [src, dst] [⟨"mv", "move", "unmove", [src, dst], false⟩]
  | cp (src dst : String) :
    Lowers "cp" [src, dst] [⟨"cp", "write", "restore", [src, dst], false⟩]
  | rm (paths : List String) (h : paths ≠ []) :
    Lowers "rm" paths (paths.map fun p => ⟨"rm", "rm", "unrm", [p], false⟩)
  | mkdir (paths : List String) (h : paths ≠ []) :
    Lowers "mkdir" paths (paths.map fun p => ⟨"mkdir", "mkdir", "rmdir_if_empty", [p], false⟩)
  | touch (paths : List String) (h : paths ≠ []) :
    Lowers "touch" paths (paths.map fun p => ⟨"touch", "write", "restore", [p], true⟩)

/-- A shell given the text runs one simple command and does nothing else: its name and operands
are those of the plan, none of them an option. -/
def Runs (cmd : String) (ops : List PlanOp) : Prop :=
  ∃ name operands, Shell.simpleCommand cmd.toList = .ok (name :: operands) ∧
    (∀ w ∈ operands, w.head? ≠ some '-') ∧
    Lowers (String.ofList name) (operands.map String.ofList) ops

/-! ## The two readers -/

/-- The unquoted characters of a word mean nothing to the shell. -/
def Clean (w : Word) : Prop := ∀ p ∈ w, p.2 = false → p.1 ∉ metachars

/-- The shell's words and the tokens are the same, and the words clean. -/
def Agree (words : Except Shell.Feature (List Word)) (tokens : Except String (List (List Char))) :
    Prop :=
  ∃ ws, words = .ok ws ∧ (∀ w ∈ ws, Clean w) ∧ tokens = .ok (ws.map Shell.removeQuotes)

theorem clean_nil : Clean [] := by
  rintro p ⟨⟩

theorem clean_append {w : Word} {c : Char} {quoted : Bool} (hw : Clean w)
    (hc : quoted = false → c ∉ metachars) : Clean (w ++ [(c, quoted)]) := by
  intro p hp
  rcases List.mem_append.mp hp with hp | hp
  · exact hw p hp
  · rw [List.mem_singleton.mp hp]
    exact hc

theorem removeQuotes_append (w : Word) (c : Char) (quoted : Bool) :
    Shell.removeQuotes (w ++ [(c, quoted)]) = Shell.removeQuotes w ++ [c] := by
  simp [Shell.removeQuotes]

theorem emit_word {w : Word} {quoted : Bool} (h : w ≠ [] ∨ quoted = true) :
    Shlex.emit (Shell.removeQuotes w) quoted = [Shell.removeQuotes w] := by
  rw [Shlex.emit, if_neg]
  rintro ⟨hnil, hquoted⟩
  rcases h with h | h
  · exact h (List.map_eq_nil_iff.mp hnil)
  · simp [h] at hquoted

/-- A word that both readers finish. -/
theorem agree_close {w : Word} {quoted : Bool} {words : Except Shell.Feature (List Word)}
    {tokens : Except String (List (List Char))} (hw : Clean w) (h : w ≠ [] ∨ quoted = true)
    (hrest : Agree words tokens) :
    Agree (Shell.close (some w) words)
      (tokens.map (Shlex.emit (Shell.removeQuotes w) quoted ++ ·)) := by
  obtain ⟨ws, rfl, hclean, rfl⟩ := hrest
  refine ⟨w :: ws, rfl, ?_, ?_⟩
  · exact List.forall_mem_cons.mpr ⟨hw, hclean⟩
  · rw [emit_word h]
    rfl

/-- Where the scanner is in a mode, the two readers agree on what follows. -/
def AgreeFrom (mode : Quoting) (cs : List Char) : Prop :=
  match mode with
  | .plain =>
    Agree (Shell.read .plain none cs) (Shlex.run .blank [] false cs) ∧
    ∀ (w : Word) (quoted : Bool), Clean w → (w ≠ [] ∨ quoted = true) →
      Agree (Shell.read .plain (some w) cs) (Shlex.run .token (Shell.removeQuotes w) quoted cs)
  | .single => ∀ (w : Word) (quoted : Bool), Clean w →
    Agree (Shell.read .single (some w) cs)
      (Shlex.run (.quote '\'') (Shell.removeQuotes w) quoted cs)
  | .double => ∀ (w : Word) (quoted : Bool), Clean w →
    Agree (Shell.read .double (some w) cs)
      (Shlex.run (.quote '"') (Shell.removeQuotes w) quoted cs)

/-! ### One step of the scanner -/

/-- A character both readers put on the current word, quoted. -/
theorem clean_push {w : Word} (hw : Clean w) (c : Char) : Clean (w ++ [(c, true)]) :=
  clean_append hw nofun

theorem single_close {cs : List Char} (h : AgreeFrom .plain cs) :
    AgreeFrom .single ('\'' :: cs) := by
  intro w quoted hw
  rw [Shell.read, if_pos rfl, Shlex.run, if_pos rfl]
  exact h.2 w true hw (.inr rfl)

theorem single_char {c : Char} {cs : List Char} (hc : c ≠ '\'') (h : AgreeFrom .single cs) :
    AgreeFrom .single (c :: cs) := by
  intro w quoted hw
  rw [Shell.read, if_neg hc, Shlex.run, if_neg hc, if_neg (by simp), ← removeQuotes_append w c true]
  exact h _ true (clean_push hw c)

theorem double_close {cs : List Char} (h : AgreeFrom .plain cs) :
    AgreeFrom .double ('"' :: cs) := by
  intro w quoted hw
  rw [Shell.read, if_pos rfl, Shlex.run, if_pos rfl]
  exact h.2 w true hw (.inr rfl)

theorem double_char {c : Char} {cs : List Char} (hslash : c ≠ '\\') (hquote : c ≠ '"')
    (hexp : ¬ (c = '$' ∨ c = '`')) (h : AgreeFrom .double cs) : AgreeFrom .double (c :: cs) := by
  intro w quoted hw
  have hexpansion : Shell.isExpansion c = false := by simpa [Shell.isExpansion] using hexp
  rw [Shell.read, if_neg hquote, if_neg (by simp [hexpansion]), if_neg hslash, Shlex.run,
    if_neg hquote, if_neg (by simp [hslash]), ← removeQuotes_append w c true]
  exact h _ true (clean_push hw c)

/-- In double quotes a backslash is dropped before `"` and `\` by both, and kept before the
other characters the scanner lets through. -/
theorem double_escape {d : Char} {cs : List Char} (hline : d ≠ '\n')
    (hexp : ¬ (d = '$' ∨ d = '`')) (h : AgreeFrom .double cs) :
    AgreeFrom .double ('\\' :: d :: cs) := by
  intro w quoted hw
  have hexpansion : Shell.isExpansion d = false := by simpa [Shell.isExpansion] using hexp
  rw [Shell.read, if_neg (by decide), if_neg (by decide), if_pos rfl, Shell.read, if_neg hline,
    if_pos rfl, Shlex.run, if_neg (by decide), if_pos (by simp), Shlex.run, if_pos rfl,
    Shell.pushEscaped]
  by_cases hkept : d ≠ '\\' ∧ d ≠ '"'
  · rw [if_neg (by simp [hexpansion, hkept]), if_pos hkept, List.append_cons,
      ← removeQuotes_append w '\\' true, ← removeQuotes_append _ d true]
    exact h _ true (clean_push (clean_push hw _) _)
  · have hdropped : d = '"' ∨ d = '\\' := by
      by_contra hnot
      exact hkept ⟨fun h => hnot (.inr h), fun h => hnot (.inl h)⟩
    rw [if_pos (.inr hdropped), if_neg hkept, ← removeQuotes_append w d true]
    exact h _ true (clean_push hw d)

theorem plain_end : AgreeFrom .plain [] := by
  refine ⟨⟨[], rfl, by simp, rfl⟩, fun w quoted hw h => ?_⟩
  refine ⟨[w], Shell.read_plain_nil (some w), by simpa using hw, ?_⟩
  rw [Shlex.run_token_nil, emit_word h]
  rfl

theorem plain_escape {d : Char} {cs : List Char} (hline : d ≠ '\n') (h : AgreeFrom .plain cs) :
    AgreeFrom .plain ('\\' :: d :: cs) := by
  refine ⟨?_, fun w quoted hw _ => ?_⟩
  · rw [Shell.read, if_pos rfl, Shell.read, if_neg hline, if_neg (by decide), Shlex.run,
      if_neg (by decide), if_pos rfl, Shlex.run, if_neg (by decide)]
    exact h.2 [(d, true)] false (clean_push clean_nil d) (.inl (by simp))
  · rw [Shell.read, if_pos rfl, Shell.read, if_neg hline, if_neg (by decide), Shlex.run,
      if_neg (by decide), if_neg (by decide), if_pos rfl, Shlex.run, if_neg (by decide),
      ← removeQuotes_append w d true]
    exact h.2 _ quoted (clean_push hw d) (.inl (by simp))

theorem plain_single {cs : List Char} (h : AgreeFrom .single cs) :
    AgreeFrom .plain ('\'' :: cs) := by
  refine ⟨?_, fun w quoted hw _ => ?_⟩
  · rw [Shell.read, if_neg (by decide), if_pos rfl, Shlex.run, if_neg (by decide),
      if_neg (by decide), if_pos (.inl rfl)]
    exact h [] false clean_nil
  · rw [Shell.read, if_neg (by decide), if_pos rfl, Shlex.run, if_neg (by decide),
      if_pos (.inl rfl)]
    exact h w quoted hw

theorem plain_double {cs : List Char} (h : AgreeFrom .double cs) :
    AgreeFrom .plain ('"' :: cs) := by
  refine ⟨?_, fun w quoted hw _ => ?_⟩
  · rw [Shell.read, if_neg (by decide), if_neg (by decide), if_pos rfl, Shlex.run,
      if_neg (by decide), if_neg (by decide), if_pos (.inr rfl)]
    exact h [] false clean_nil
  · rw [Shell.read, if_neg (by decide), if_neg (by decide), if_pos rfl, Shlex.run,
      if_neg (by decide), if_pos (.inr rfl)]
    exact h w quoted hw

/-- The blanks of the two readers differ by the ends of lines, which the scanner refuses. -/
theorem blank_iff {c : Char} (hline : ¬ (c = '\n' ∨ c = '\r')) :
    Shlex.isBlank c = Shell.isBlank c := by
  have hn : c ≠ '\n' := fun h => hline (.inl h)
  have hr : c ≠ '\r' := fun h => hline (.inr h)
  simp [Shlex.isBlank, Shell.isBlank, hn, hr]

theorem plain_char {c : Char} {cs : List Char} (hslash : c ≠ '\\') (hsingle : c ≠ '\'')
    (hdouble : c ≠ '"') (hline : ¬ (c = '\n' ∨ c = '\r')) (hmeta : c ∉ metachars)
    (h : AgreeFrom .plain cs) : AgreeFrom .plain (c :: cs) := by
  have hexpansion : Shell.isExpansion c = false := by
    have : c ≠ '$' ∧ c ≠ '`' := by
      constructor <;> rintro rfl <;> exact hmeta (by decide)
    simp [Shell.isExpansion, this]
  have hoperator : Shell.isOperator c = false := by
    have hn : c ≠ '\n' := fun h => hline (.inl h)
    have : c ≠ '|' ∧ c ≠ '&' ∧ c ≠ ';' ∧ c ≠ '<' ∧ c ≠ '>' ∧ c ≠ '(' ∧ c ≠ ')' := by
      refine ⟨?_, ?_, ?_, ?_, ?_, ?_, ?_⟩ <;> rintro rfl <;> exact hmeta (by decide)
    simp [Shell.isOperator, this, hn]
  have hhash : c ≠ '#' := by
    rintro rfl
    exact hmeta (by decide)
  have hquotes : ¬ (c = '\'' ∨ c = '"') := fun hor => hor.elim hsingle hdouble
  refine ⟨?_, fun w quoted hw hne => ?_⟩
  · rw [Shell.read, if_neg hslash, if_neg hsingle, if_neg hdouble, if_neg (by simp [hexpansion]),
      if_neg (by simp [hoperator]), Shlex.run, blank_iff hline]
    by_cases hblank : Shell.isBlank c = true
    · rw [if_pos hblank, if_pos hblank]
      obtain ⟨ws, hread, hclean, hrun⟩ := h.1
      exact ⟨ws, by rw [hread]; rfl, hclean, hrun⟩
    · rw [if_neg hblank, if_neg hblank, if_neg (by simp [hhash]), if_neg hslash, if_neg hquotes]
      exact h.2 [(c, false)] false (clean_append clean_nil fun _ => hmeta) (.inl (by simp))
  · rw [Shell.read, if_neg hslash, if_neg hsingle, if_neg hdouble, if_neg (by simp [hexpansion]),
      if_neg (by simp [hoperator]), Shlex.run, blank_iff hline]
    by_cases hblank : Shell.isBlank c = true
    · rw [if_pos hblank, if_pos hblank]
      exact agree_close hw hne h.1
    · rw [if_neg hblank, if_neg hblank, if_neg (by simp [hhash]), if_neg hquotes, if_neg hslash,
        ← removeQuotes_append w c false]
      exact h.2 _ quoted (clean_append hw fun _ => hmeta) (.inl (by simp))

/-- Where the scanner finds nothing, the shell and `shlex` read the same words, and no unquoted
character of a word is one of the metacharacters. -/
theorem scan_agrees {mode : Quoting} {cs : List Char} (h : firstUnquotedMetachar mode cs = none) :
    AgreeFrom mode cs := by
  fun_induction firstUnquotedMetachar mode cs with
  | case1 => exact plain_end
  | case4 cs ih => exact single_close (ih h)
  | case5 c cs hc ih => exact single_char hc (ih h)
  | case9 d cs hline hexp ih => exact double_escape hline hexp (ih h)
  | case10 cs _ ih => exact double_close (ih h)
  | case12 c cs hslash hquote hexp ih => exact double_char hslash hquote hexp (ih h)
  | case15 d cs hline ih => exact plain_escape hline (ih h)
  | case16 cs _ ih => exact plain_single (ih h)
  | case17 cs _ _ ih => exact plain_double (ih h)
  | case20 c cs hslash hsingle hdouble hline hmeta ih =>
    exact plain_char hslash hsingle hdouble hline hmeta (ih h)
  | _ => cases h

/-! ## The verdict -/

/-- The commands of the table, with their arities. -/
theorem arity_cases {name : String} {count : Option Nat} (h : arity.lookup name = some count) :
    (name = "mv" ∨ name = "cp") ∧ count = some 2 ∨
      (name = "rm" ∨ name = "mkdir" ∨ name = "touch") ∧ count = none := by
  simp only [arity, List.lookup_cons, List.lookup_nil] at h
  split at h
  · simp_all
  split at h
  · simp_all
  split at h
  · simp_all
  split at h
  · simp_all
  split at h
  · simp_all
  · cases h

/-- The plan of operands that passed the checks. -/
theorem lower_lowers (cmd : String) {name : String} {count : Option Nat} {operands : List String}
    (hname : arity.lookup name = some count) (hne : operands ≠ [])
    (hcount : count.any (· ≠ operands.length) ≠ true) :
    ∃ ops, lower cmd name operands = .ok (.witnessed cmd ops) ∧ Lowers name operands ops := by
  rcases arity_cases hname with ⟨rfl | rfl, rfl⟩ | ⟨rfl | rfl | rfl, rfl⟩
  · have hlen : 2 = operands.length := by simpa using hcount
    obtain ⟨src, dst, rfl⟩ := List.length_eq_two.mp hlen.symm
    exact ⟨_, rfl, .mv src dst⟩
  · have hlen : 2 = operands.length := by simpa using hcount
    obtain ⟨src, dst, rfl⟩ := List.length_eq_two.mp hlen.symm
    exact ⟨_, rfl, .cp src dst⟩
  · exact ⟨_, rfl, .rm operands hne⟩
  · exact ⟨_, rfl, .mkdir operands hne⟩
  · exact ⟨_, rfl, .touch operands hne⟩

theorem classifyWords_cases (cmd name : String) (operands : List String) :
    (∃ reason, classifyWords cmd name operands = .ok (.emission cmd reason)) ∨
      ∃ count ops, classifyWords cmd name operands = .ok (.witnessed cmd ops) ∧
        arity.lookup name = some count ∧ (∀ w ∈ operands, w.toList.head? ≠ some '-') ∧
        Lowers name operands ops := by
  unfold classifyWords
  cases hname : arity.lookup name with
  | none => exact .inl ⟨_, rfl⟩
  | some count =>
    dsimp only
    split
    next flag _ => exact .inl ⟨_, rfl⟩
    next hflag =>
      split
      next => exact .inl ⟨_, rfl⟩
      next hne =>
        split
        next => exact .inl ⟨_, rfl⟩
        next hcount =>
          obtain ⟨ops, hlower, hlowers⟩ := lower_lowers cmd hname hne hcount
          refine .inr ⟨count, ops, hlower, rfl, fun w hw => ?_, hlowers⟩
          simpa using List.find?_eq_none.mp hflag w hw

theorem name_plain {name : String} {count : Option Nat} (h : arity.lookup name = some count) :
    name.toList ∉ Shell.reservedWords ∧ '=' ∉ name.toList := by
  rcases arity_cases h with ⟨rfl | rfl, -⟩ | ⟨rfl | rfl | rfl, -⟩ <;> decide

/-- A word without an `=` is no assignment. -/
theorem isAssignment_eq_false {w : Word} (h : '=' ∉ Shell.removeQuotes w) :
    Shell.isAssignment w = false := by
  have hall : w.takeWhile (fun p => p ≠ ('=', false)) = w := by
    rw [List.takeWhile_eq_self_iff]
    intro p hp
    rw [decide_eq_true_eq]
    rintro rfl
    exact h (List.mem_map.mpr ⟨_, hp, rfl⟩)
  rw [Shell.isAssignment, decide_eq_false_iff_not]
  rintro ⟨-, hlt, -⟩
  rw [hall] at hlt
  exact lt_irrefl _ hlt

theorem isTilde_eq_false {w : Word} (hw : Clean w) : Shell.isTilde w = false := by
  rw [Shell.isTilde, decide_eq_false_iff_not]
  intro htilde
  exact hw _ (List.mem_of_mem_head? htilde) rfl (by decide)

theorem isPattern_eq_false {w : Word} (hw : Clean w) : Shell.isPattern w = false := by
  refine List.any_eq_false.mpr fun p hp hpattern => ?_
  simp only [Bool.and_eq_true, Bool.not_eq_true', Bool.or_eq_true, decide_eq_true_eq] at hpattern
  obtain ⟨hquoted, hchar⟩ := hpattern
  refine hw p hp hquoted ?_
  rcases hchar with (hc | hc) | hc <;> rw [hc] <;> decide

/-- **Soundness**: `classify` never raises; a command it calls witnessed is read by a POSIX shell
as one simple command that asks for nothing else, with the name and the operands of the plan,
none of them an option and as many as the plan's operations take; and every other one is an
emission. -/
theorem classify_sound (cmd : String) :
    (∃ reason, classify cmd = .ok (.emission cmd reason)) ∨
      ∃ ops, classify cmd = .ok (.witnessed cmd ops) ∧ Runs cmd ops := by
  unfold classify
  split
  next => exact .inl ⟨_, rfl⟩
  next =>
    cases hscan : firstUnquotedMetachar .plain cmd.toList with
    | some found => exact .inl ⟨_, rfl⟩
    | none =>
      obtain ⟨ws, hread, hclean, hrun⟩ := (scan_agrees hscan).1
      dsimp only
      rw [Shlex.split, hrun]
      cases ws with
      | nil => exact .inl ⟨_, rfl⟩
      | cons w ws =>
        rcases classifyWords_cases cmd (String.ofList (Shell.removeQuotes w))
          ((ws.map Shell.removeQuotes).map String.ofList) with
          ⟨reason, hverdict⟩ | ⟨count, ops, hverdict, hname, hflags, hlowers⟩
        · exact .inl ⟨reason, hverdict⟩
        · obtain ⟨hreserved, hequals⟩ := name_plain hname
          rw [String.toList_ofList] at hreserved hequals
          have hcommand := Shell.simpleCommand_of_words hread
            (by simp [Shell.isReserved, hreserved]) (isAssignment_eq_false hequals)
            (fun v hv => isTilde_eq_false (hclean v hv))
            (fun v hv => isPattern_eq_false (hclean v hv))
          refine .inr ⟨ops, hverdict, Shell.removeQuotes w, ws.map Shell.removeQuotes, hcommand,
            fun v hv => ?_, hlowers⟩
          have := hflags (String.ofList v) (List.mem_map.mpr ⟨v, hv, rfl⟩)
          rwa [String.toList_ofList] at this

end Revl.ShellClassify
