import Revl.Lib.Dict
import Revl.Lib.Glob

/-!
# The boundary policy (`policy.py`)

A rule of the policy holds a pattern against the capability tokens a component reaches. The tokens
are the scopes declared on the operations and the externs it crosses.

- `Declaration`, `Component`, `Composition`: what the gate reads of a composition.
- `evaluate`, `approvalAdmission`: the legs of the gate that refuse or gate a token reached.
- `Gate`: a rule of any of these families, with `applies` and `refuses` for one token.
- `evaluate_refuses_iff`, `approvalAdmission_refuses_iff`: **a leg refuses exactly where one of its
  rules refuses a token reached.**
-/

namespace Revl.Boundary

open Glob

/-! ## Compositions -/

inductive Register where
  | declared
  | keyed
  | strong
  | read
  deriving DecidableEq

/-- `_REGISTER_RANK`. -/
def Register.rank : Register → Nat
  | declared => 0
  | keyed => 1
  | strong => 1
  | read => 2

inductive Kind where
  | emission
  | host
  deriving DecidableEq

/-- A service operation that emits, or a host extern. -/
structure Declaration where
  kind : Kind
  name : String
  capabilities : Option (List String)
  register : Option Register

/-- The tokens a declaration contributes: an operation without a scope the unbounded one, an extern
without a scope its own name. -/
def Declaration.tokens (d : Declaration) : List String :=
  match d.kind with
  | .emission => d.capabilities.getD ["*"]
  | .host => if d.capabilities.getD [] = [] then [d.name] else d.capabilities.getD []

/-- The tokens its register is recorded under. -/
def Declaration.registerTokens (d : Declaration) : List String :=
  match d.kind with
  | .emission => d.capabilities.getD []
  | .host => d.tokens

/-- `reached` names the declarations crossed; `edges` are the approvals the component threads, and
`reachApprovals` those on its tainted crossings; `sandboxed` holds of one admitted through the MCP
session. -/
structure Component where
  name : String
  realms : List String
  reached : List String
  taintReaches : List String
  reachApprovals : List String
  edges : List String
  sandboxed : Bool

structure Composition where
  declared : Dict String Declaration
  components : List Component

/-- `component_reach`, the tokens. -/
def reach (comp : Composition) (c : Component) : List String :=
  (c.reached.flatMap fun key => ((comp.declared.get? key).map Declaration.tokens).getD []).dedup

theorem mem_reach {comp : Composition} {c : Component} {token : String} :
    token ∈ reach comp c ↔
      ∃ key ∈ c.reached, ∃ d, comp.declared.get? key = some d ∧ token ∈ d.tokens := by
  unfold reach
  rw [List.mem_dedup, List.mem_flatMap]
  refine exists_congr fun key => and_congr_right fun _ => ?_
  cases comp.declared.get? key <;> simp

/-- The weaker of two registers, the first kept where neither is. -/
def weaker (prior : Option Register) (r : Register) : Option Register :=
  match prior with
  | none => some r
  | some p => if r.rank < p.rank then some r else some p

/-- `_capability_registers`, read at one token. -/
def capabilityRegister (comp : Composition) (token : String) : Option Register :=
  (comp.declared.entries.filterMap fun p =>
    if token ∈ p.2.registerTokens then p.2.register else none).foldl weaker none

/-- `_register_satisfies`. -/
def registerSatisfies (actual : Option Register) (floor : Register) : Bool :=
  match actual with
  | none => false
  | some r => floor.rank ≤ r.rank

/-! ## Rules -/

inductive Scope where
  | component
  | realm
  deriving DecidableEq

structure Rule where
  scope : Scope
  selector : String
  allow : Bool
  patterns : List String
  deriving DecidableEq

def Rule.selects (rule : Rule) (c : Component) : Bool :=
  match rule.scope with
  | .component => fnmatchcase c.name rule.selector
  | .realm => c.realms.contains rule.selector

structure PairRule where
  selector : String
  first : String
  second : String

def PairRule.selects (rule : PairRule) (c : Component) : Bool := fnmatchcase c.name rule.selector

structure ApprovalRule where
  pattern : String

structure TaintFlowRule where
  origin : String
  patterns : List String
  withoutApproval : Bool

structure RegisterRule where
  capability : String
  atLeast : Register

structure Policy where
  rules : List Rule
  mcpAllow : Option (List String)
  pairRules : List PairRule
  approvalRules : List ApprovalRule
  taintFlowRules : List TaintFlowRule
  registerRules : List RegisterRule

def unbounded : String := "*"

/-- `_matches_any`. -/
def matchesAny (token : String) (patterns : List String) : Bool :=
  patterns.any fun pattern => fnmatchcase token pattern

/-- `_deny_matches`. -/
def denyMatches (token : String) (patterns : List String) : Bool :=
  matchesAny token patterns || (token = unbounded && patterns.contains unbounded)

/-- `_allowed`. -/
def allowed (token : String) (allow : List String) : Bool :=
  if token = unbounded then allow.contains unbounded else matchesAny token allow

/-- `_allow_for`: the patterns of the allow rules that select a component, where one does. -/
def allowFor (rules : List Rule) (c : Component) : Option (List String) :=
  let selected := rules.filter fun rule => rule.allow && rule.selects c
  if selected = [] then none else some (selected.flatMap Rule.patterns).dedup

/-- The allow-list of the session, for a component it admitted. -/
def sandboxFor (mcpAllow : Option (List String)) (c : Component) : Option (List String) :=
  if c.sandboxed then mcpAllow else none

/-- `_pair_reach`. -/
def pairReach (rule : PairRule) (tokens : List String) : Option (String × String) :=
  let firsts := tokens.filter fun token => fnmatchcase token rule.first
  let seconds := tokens.filter fun token => fnmatchcase token rule.second
  (firsts ×ˢ seconds).find? fun p => p.1 ≠ p.2

/-- `approval_rule_for`. -/
def Policy.approvalRuleFor (policy : Policy) (token : String) : Option ApprovalRule :=
  policy.approvalRules.find? fun rule => fnmatchcase token rule.pattern

/-- `_approval_edge_covers`. -/
def edgeCovers (scope token : String) : Bool := fnmatchcase token scope || scope = token

/-! ## The gate -/

inductive ViolationKind where
  | deny
  | capability
  | mcpSandbox
  | pair
  | taintFlow
  | register
  | approval
  deriving DecidableEq

structure Violation where
  kind : ViolationKind
  component : String
  token : String
  deriving DecidableEq

variable (policy : Policy) (comp : Composition)

def denyLeg (c : Component) : List Violation :=
  (reach comp c).flatMap fun token =>
    (policy.rules.filter fun rule =>
      !rule.allow && rule.selects c && denyMatches token rule.patterns).map fun _ =>
        ⟨.deny, c.name, token⟩

/-- Either allow-list, against every token reached. -/
def allowLeg (kind : ViolationKind) (allow : Option (List String)) (c : Component) :
    List Violation :=
  ((reach comp c).filter fun token => allow.isSome && !allowed token (allow.getD [])).map
    fun token => ⟨kind, c.name, token⟩

def pairLeg (c : Component) : List Violation :=
  (policy.pairRules.filter fun rule => rule.selects c).flatMap fun rule =>
    (pairReach rule (reach comp c)).toList.map fun p => ⟨.pair, c.name, p.1 ++ " + " ++ p.2⟩

def taintFlowLeg (c : Component) : List Violation :=
  (policy.taintFlowRules.filter fun rule => c.taintReaches.contains rule.origin).flatMap fun rule =>
    ((reach comp c).filter fun token => matchesAny token rule.patterns &&
      !(rule.withoutApproval && c.reachApprovals.any fun a => edgeCovers a token)).map fun token =>
        ⟨.taintFlow, c.name, token⟩

def registerLeg (c : Component) : List Violation :=
  policy.registerRules.flatMap fun rule =>
    ((reach comp c).filter fun token =>
      (token ≠ unbounded && fnmatchcase token rule.capability) &&
        !registerSatisfies (capabilityRegister comp token) rule.atLeast).map fun token =>
          ⟨.register, c.name, token⟩

/-- `evaluate`: the rules component by component, the floors behind them. -/
def evaluate : List Violation :=
  (comp.components.flatMap fun c =>
    denyLeg policy comp c ++ allowLeg comp .capability (allowFor policy.rules c) c ++
      allowLeg comp .mcpSandbox (sandboxFor policy.mcpAllow c) c ++ pairLeg policy comp c ++
      taintFlowLeg policy comp c) ++
    comp.components.flatMap (registerLeg policy comp)

/-- `approval_admission`. -/
def approvalAdmission : List Violation :=
  comp.components.flatMap fun c =>
    ((reach comp c).filter fun token =>
      (token ≠ unbounded && (policy.approvalRuleFor token).isSome) &&
        !c.edges.any fun scope => edgeCovers scope token).map fun token =>
          ⟨.approval, c.name, token⟩

/-! ## One rule and one token -/

/-- A rule of one of the families; the allow rules count as one. -/
inductive Gate where
  | deny (rule : Rule)
  | allow (rules : List Rule)
  | sandbox (mcpAllow : Option (List String))
  | pair (rule : PairRule)
  | approval (rule : ApprovalRule)
  | taintFlow (rule : TaintFlowRule)
  | register (rule : RegisterRule)

def Policy.gates : List Gate :=
  (policy.rules.filter fun rule => !rule.allow).map .deny ++
    [.allow policy.rules, .sandbox policy.mcpAllow] ++ policy.pairRules.map .pair ++
    policy.approvalRules.map .approval ++ policy.taintFlowRules.map .taintFlow ++
    policy.registerRules.map .register

/-- Whether a rule is held against a token among those reached, `holds` saying which patterns the
token matches. -/
def Gate.appliesBy (holds : String → Bool) (c : Component) (tokens : List String)
    (token : String) : Gate → Bool
  | deny rule =>
    rule.selects c && (rule.patterns.any holds ||
      (token = unbounded && rule.patterns.contains unbounded))
  | allow rules => (allowFor rules c).isSome
  | sandbox mcpAllow => (sandboxFor mcpAllow c).isSome
  | pair rule =>
    rule.selects c && tokens.any fun other => other ≠ token &&
      ((holds rule.first && fnmatchcase other rule.second) ||
        (fnmatchcase other rule.first && holds rule.second))
  | approval rule => token ≠ unbounded && holds rule.pattern
  | taintFlow rule => c.taintReaches.contains rule.origin && rule.patterns.any holds
  | register rule => token ≠ unbounded && holds rule.capability

/-- The rule applies to the token. -/
def Gate.applies (g : Gate) (c : Component) (tokens : List String) (token : String) : Bool :=
  g.appliesBy (fnmatchcase token) c tokens token

variable {policy comp}

/-- What lets the token through a rule that applies: an allow-list that names it, an approval
threaded, a register declared. -/
def Gate.excuses (comp : Composition) (c : Component) (token : String) : Gate → Bool
  | deny _ => false
  | allow rules => allowed token ((allowFor rules c).getD [])
  | sandbox mcpAllow => allowed token ((sandboxFor mcpAllow c).getD [])
  | pair _ => false
  | approval _ => c.edges.any fun scope => edgeCovers scope token
  | taintFlow rule => rule.withoutApproval && c.reachApprovals.any fun a => edgeCovers a token
  | register rule => registerSatisfies (capabilityRegister comp token) rule.atLeast

def Gate.refuses (g : Gate) (comp : Composition) (c : Component) (token : String) : Bool :=
  g.applies c (reach comp c) token && !g.excuses comp c token

/-- Approval rules are held at admission, the others by `evaluate`. -/
def Gate.atAdmission : Gate → Bool
  | approval _ => true
  | _ => false

theorem exists_gate {P : Gate → Prop} : (∃ g ∈ policy.gates, P g) ↔
    (∃ rule ∈ policy.rules, rule.allow = false ∧ P (.deny rule)) ∨
      P (.allow policy.rules) ∨ P (.sandbox policy.mcpAllow) ∨
      (∃ rule ∈ policy.pairRules, P (.pair rule)) ∨
      (∃ rule ∈ policy.approvalRules, P (.approval rule)) ∨
      (∃ rule ∈ policy.taintFlowRules, P (.taintFlow rule)) ∨
      ∃ rule ∈ policy.registerRules, P (.register rule) := by
  unfold Policy.gates
  simp only [List.mem_append, List.mem_map, List.mem_filter, List.mem_cons, List.not_mem_nil,
    or_false, Bool.not_eq_true', or_and_right, exists_or, exists_eq_left, or_assoc]
  refine or_congr ?_ (or_congr Iff.rfl (or_congr Iff.rfl
    (or_congr ?_ (or_congr ?_ (or_congr ?_ ?_)))))
  · exact ⟨fun ⟨_, ⟨rule, hrule, rfl⟩, h⟩ => ⟨rule, hrule.1, hrule.2, h⟩,
      fun ⟨rule, hrule, hdeny, h⟩ => ⟨_, ⟨rule, ⟨hrule, hdeny⟩, rfl⟩, h⟩⟩
  all_goals
    exact ⟨fun ⟨_, ⟨rule, hrule, rfl⟩, h⟩ => ⟨rule, hrule, h⟩,
      fun ⟨rule, hrule, h⟩ => ⟨_, ⟨rule, hrule, rfl⟩, h⟩⟩

theorem flatMap_ne_nil {α β : Type} {l : List α} {f : α → List β} :
    l.flatMap f ≠ [] ↔ ∃ a ∈ l, f a ≠ [] := by
  rw [Ne, List.flatMap_eq_nil_iff]
  push Not
  rfl

theorem map_filter_ne_nil {α β : Type} {l : List α} {p : α → Bool} {f : α → β} :
    (l.filter p).map f ≠ [] ↔ ∃ a ∈ l, p a = true := by
  rw [Ne, List.map_eq_nil_iff, List.filter_eq_nil_iff]
  push Not
  rfl

theorem append_ne_nil {α : Type} {l m : List α} : l ++ m ≠ [] ↔ l ≠ [] ∨ m ≠ [] := by
  rw [Ne, List.append_eq_nil_iff, not_and_or]

theorem denyLeg_ne_nil {c : Component} : denyLeg policy comp c ≠ [] ↔
    ∃ token ∈ reach comp c, ∃ rule ∈ policy.rules, rule.allow = false ∧
      (Gate.deny rule).refuses comp c token = true := by
  unfold denyLeg
  rw [flatMap_ne_nil]
  refine exists_congr fun token => and_congr_right fun _ => ?_
  rw [map_filter_ne_nil]
  refine exists_congr fun rule => and_congr_right fun _ => ?_
  simp [Gate.refuses, Gate.applies, Gate.appliesBy, Gate.excuses, denyMatches, matchesAny,
    and_assoc]

theorem allowLeg_ne_nil {kind : ViolationKind} {allow : Option (List String)} {c : Component} :
    allowLeg comp kind allow c ≠ [] ↔ ∃ token ∈ reach comp c,
      (allow.isSome && !allowed token (allow.getD [])) = true :=
  map_filter_ne_nil

/-- A pair rule fires where a token and another one match its sides. -/
theorem pairReach_isSome {rule : PairRule} {tokens : List String} :
    (pairReach rule tokens).isSome = true ↔ ∃ token ∈ tokens, ∃ other ∈ tokens,
      other ≠ token ∧ fnmatchcase token rule.first = true ∧
        fnmatchcase other rule.second = true := by
  unfold pairReach
  rw [List.find?_isSome]
  constructor
  · rintro ⟨⟨a, b⟩, hmem, hne⟩
    obtain ⟨ha, hb⟩ := List.pair_mem_product.mp hmem
    obtain ⟨hat, hfirst⟩ := List.mem_filter.mp ha
    obtain ⟨hbt, hsecond⟩ := List.mem_filter.mp hb
    exact ⟨a, hat, b, hbt, Ne.symm (of_decide_eq_true hne), hfirst, hsecond⟩
  · rintro ⟨a, hat, b, hbt, hne, hfirst, hsecond⟩
    exact ⟨(a, b), List.pair_mem_product.mpr ⟨List.mem_filter.mpr ⟨hat, hfirst⟩,
      List.mem_filter.mpr ⟨hbt, hsecond⟩⟩, decide_eq_true (Ne.symm hne)⟩

theorem pair_applies {rule : PairRule} {c : Component} {tokens : List String} {token : String} :
    (Gate.pair rule).applies c tokens token = true ↔ rule.selects c = true ∧ ∃ other ∈ tokens,
      other ≠ token ∧ ((fnmatchcase token rule.first = true ∧
        fnmatchcase other rule.second = true) ∨
        (fnmatchcase other rule.first = true ∧ fnmatchcase token rule.second = true)) := by
  simp [Gate.applies, Gate.appliesBy]

theorem pairLeg_ne_nil {c : Component} : pairLeg policy comp c ≠ [] ↔
    ∃ token ∈ reach comp c, ∃ rule ∈ policy.pairRules,
      (Gate.pair rule).refuses comp c token = true := by
  have hleg : pairLeg policy comp c ≠ [] ↔ ∃ rule ∈ policy.pairRules, rule.selects c = true ∧
      (pairReach rule (reach comp c)).isSome = true := by
    unfold pairLeg
    rw [flatMap_ne_nil]
    simp only [List.mem_filter, ne_eq, List.map_eq_nil_iff, Option.toList_eq_nil_iff,
      ← Option.isSome_iff_ne_none, and_assoc]
  rw [hleg]
  constructor
  · rintro ⟨rule, hrule, hsel, hpair⟩
    obtain ⟨a, ha, b, hb, hne, hfirst, hsecond⟩ := pairReach_isSome.mp hpair
    refine ⟨a, ha, rule, hrule, ?_⟩
    unfold Gate.refuses
    rw [pair_applies.mpr ⟨hsel, b, hb, hne, .inl ⟨hfirst, hsecond⟩⟩]
    rfl
  · rintro ⟨token, htoken, rule, hrule, hrefuses⟩
    obtain ⟨happlies, -⟩ := Bool.and_eq_true_iff.mp hrefuses
    obtain ⟨hsel, other, hother, hne, hsides⟩ := pair_applies.mp happlies
    refine ⟨rule, hrule, hsel, pairReach_isSome.mpr ?_⟩
    obtain ⟨hfirst, hsecond⟩ | ⟨hfirst, hsecond⟩ := hsides
    · exact ⟨token, htoken, other, hother, hne, hfirst, hsecond⟩
    · exact ⟨other, hother, token, htoken, Ne.symm hne, hfirst, hsecond⟩

theorem taintFlowLeg_ne_nil {c : Component} : taintFlowLeg policy comp c ≠ [] ↔
    ∃ token ∈ reach comp c, ∃ rule ∈ policy.taintFlowRules,
      (Gate.taintFlow rule).refuses comp c token = true := by
  unfold taintFlowLeg
  rw [flatMap_ne_nil]
  simp only [List.mem_filter, map_filter_ne_nil]
  constructor
  · rintro ⟨rule, ⟨hrule, horigin⟩, token, htoken, hflow⟩
    obtain ⟨hmatch, hfree⟩ := Bool.and_eq_true_iff.mp hflow
    refine ⟨token, htoken, rule, hrule, Bool.and_eq_true_iff.mpr ⟨?_, hfree⟩⟩
    exact Bool.and_eq_true_iff.mpr ⟨horigin, hmatch⟩
  · rintro ⟨token, htoken, rule, hrule, hrefuses⟩
    obtain ⟨happlies, hfree⟩ := Bool.and_eq_true_iff.mp hrefuses
    obtain ⟨horigin, hmatch⟩ := Bool.and_eq_true_iff.mp happlies
    exact ⟨rule, ⟨hrule, horigin⟩, token, htoken, Bool.and_eq_true_iff.mpr ⟨hmatch, hfree⟩⟩

theorem registerLeg_ne_nil {c : Component} : registerLeg policy comp c ≠ [] ↔
    ∃ token ∈ reach comp c, ∃ rule ∈ policy.registerRules,
      (Gate.register rule).refuses comp c token = true := by
  unfold registerLeg
  rw [flatMap_ne_nil]
  simp only [map_filter_ne_nil]
  exact ⟨fun ⟨rule, hrule, token, htoken, h⟩ => ⟨token, htoken, rule, hrule, h⟩,
    fun ⟨token, htoken, rule, hrule, h⟩ => ⟨rule, hrule, token, htoken, h⟩⟩

/-- **`evaluate` refuses exactly where one of its rules refuses a token reached.** -/
theorem evaluate_refuses_iff : evaluate policy comp ≠ [] ↔
    ∃ c ∈ comp.components, ∃ token ∈ reach comp c, ∃ g ∈ policy.gates,
      g.atAdmission = false ∧ g.refuses comp c token = true := by
  unfold evaluate
  simp only [append_ne_nil, flatMap_ne_nil, denyLeg_ne_nil, allowLeg_ne_nil, pairLeg_ne_nil,
    taintFlowLeg_ne_nil, registerLeg_ne_nil, exists_gate]
  have hallow : ∀ c token, (Gate.allow policy.rules).refuses comp c token =
      ((allowFor policy.rules c).isSome && !allowed token ((allowFor policy.rules c).getD [])) :=
    fun _ _ => rfl
  have hsandbox : ∀ c token, (Gate.sandbox policy.mcpAllow).refuses comp c token =
      ((sandboxFor policy.mcpAllow c).isSome &&
        !allowed token ((sandboxFor policy.mcpAllow c).getD [])) := fun _ _ => rfl
  simp only [← hallow, ← hsandbox]
  simp only [Gate.atAdmission, true_and, Bool.true_eq_false, false_and, and_false, exists_false,
    false_or, ← exists_or, ← and_or_left, or_assoc]

/-- **Admission refuses exactly where an approval rule refuses a token reached.** -/
theorem approvalAdmission_refuses_iff : approvalAdmission policy comp ≠ [] ↔
    ∃ c ∈ comp.components, ∃ token ∈ reach comp c, ∃ g ∈ policy.gates,
      g.atAdmission = true ∧ g.refuses comp c token = true := by
  unfold approvalAdmission
  simp only [flatMap_ne_nil, map_filter_ne_nil, exists_gate]
  refine exists_congr fun c => and_congr_right fun _ => exists_congr fun token =>
    and_congr_right fun _ => ?_
  simp [Gate.atAdmission, Gate.refuses, Gate.applies, Gate.appliesBy, Gate.excuses,
    Policy.approvalRuleFor]
  tauto

end Revl.Boundary
