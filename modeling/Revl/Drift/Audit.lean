import Revl.Lib.Tagged
import Revl.Lib.Dict

/-!
# Audit reports and their crossings (`audit_diff.py`, `policy.component_reach`)

An audit report lists, component by component, the emissions and the host externs reached, and for
the whole composition its externs, its bound secrets and its environment contract. The drift gate
compares two reports by the texts of their crossings.

- `Audit`: what the gate and `component_reach` read of a report.
- `componentReach`: the capability tokens a component reaches.
- `crossings`: the crossings of a report, and `Crossing.token` their texts.
- `token_inj`: **two crossings of reports have one text only when they are one crossing.**
-/

namespace Revl.Drift

/-- An identifier: it holds no colon. -/
structure Name where
  text : String
  plain : ':' ∉ text.toList

instance : DecidableEq Name := fun a b =>
  decidable_of_iff (a.text = b.text)
    ⟨fun h => by cases a; cases b; cases h; rfl, fun h => congrArg Name.text h⟩

/-! ## Reports -/

/-- A host extern a component reaches; the declared scope is empty where there is none. -/
structure ReachedExtern where
  name : String
  capabilities : List String
  deriving DecidableEq

structure Taint where
  reaches : List String
  declassify : List String

/-- One component's row of the boundary table. Every emission label has its scope. -/
structure Stats where
  emissions : List String
  capabilities : Dict String (List String)
  labelled : ∀ label, label ∈ emissions ↔ (capabilities.get? label).isSome = true
  externs : List ReachedExtern
  taint : Taint

/-- `{}`: the row of a component the table does not list. -/
def Stats.none : Stats where
  emissions := []
  capabilities := Dict.empty
  labelled := by simp
  externs := []
  taint := ⟨[], []⟩

inductive EffectClass where
  | pure
  | local
  | acquire
  | witnessed
  | emission
  deriving DecidableEq

/-- The vocabulary of inverse provenance, and a value outside it. -/
inductive InverseClass where
  | declared
  | generated
  | compensation
  | forward
  | irreversible
  | unknown
  | other (value : String)
  deriving DecidableEq

/-- `inverse_rank`. -/
def InverseClass.rank : InverseClass → Nat
  | declared => 6
  | generated => 5
  | compensation => 4
  | forward => 3
  | irreversible => 2
  | unknown => 1
  | other _ => 0

structure ReachBound where
  kind : String
  target : String
  deriving DecidableEq

/-- A declared extern; `inverse` is absent in a report older than the field. -/
structure HostExtern where
  name : String
  effectClass : Option EffectClass
  inverse : Option InverseClass
  reach : Option ReachBound

structure SecretRow where
  name : Name
  capability : String
  deriving DecidableEq

/-- A literal of the source, over the floating point numbers `F`. -/
inductive Literal (F : Type) where
  | str (s : String)
  | int (n : Int)
  | float (x : F)
  | bool (b : Bool)
  | null

/-- The bound of a contract field. -/
inductive Bound (F : Type) where
  | under (path : String)
  | oneOf (values : List (Literal F))

/-- A field of the boot component's contract. -/
structure Field (F : Type) where
  name : Name
  type : String
  bound : Option (Bound F)

structure Audit (F : Type) where
  boundary : Dict Name Stats
  externs : List HostExtern
  secrets : List SecretRow
  env : List (Field F)

/-- How a floating point number prints and compares. -/
class Floats (F : Type) where
  text : F → String
  eq : F → F → Bool
  eqInt : F → Int → Bool

variable {F : Type}

/-- The tokens a reached extern contributes: its declared scope, or its name. -/
def ReachedExtern.tokens (ext : ReachedExtern) : List String :=
  if ext.capabilities = [] then [ext.name] else ext.capabilities

/-- `boundary.get(name) or {}`. -/
def Audit.stats (audit : Audit F) (component : Name) : Stats :=
  (audit.boundary.get? component).getD Stats.none

theorem stats_of_mem {audit : Audit F} {component : Name} {stats : Stats}
    (h : (component, stats) ∈ audit.boundary.entries) : audit.stats component = stats := by
  unfold Audit.stats
  rw [Dict.get?_eq_some_iff.mpr h, Option.getD_some]

/-- `component_reach`, the tokens: the scopes of the emissions, then those of the externs. -/
def componentReach (audit : Audit F) (component : Name) : List String :=
  let stats := audit.stats component
  (stats.capabilities.entries.flatMap fun p => p.2) ++ stats.externs.flatMap ReachedExtern.tokens

theorem mem_componentReach {audit : Audit F} {component : Name} {token : String} :
    token ∈ componentReach audit component ↔
      (∃ label scope, (audit.stats component).capabilities.get? label = some scope ∧
        token ∈ scope) ∨
      ∃ ext ∈ (audit.stats component).externs, token ∈ ext.tokens := by
  unfold componentReach
  rw [List.mem_append, List.mem_flatMap, List.mem_flatMap]
  refine or_congr ⟨?_, ?_⟩ Iff.rfl
  · rintro ⟨⟨label, scope⟩, hmem, htoken⟩
    exact ⟨label, scope, Dict.get?_eq_some_iff.mpr hmem, htoken⟩
  · rintro ⟨label, scope, hget, htoken⟩
    exact ⟨(label, scope), Dict.get?_eq_some_iff.mp hget, htoken⟩

/-! ## Crossings -/

/-- One boundary crossing, before it is written as a text. -/
inductive Crossing where
  | emit (component : Name) (label : String)
  | host (component : Name) (name : String)
  | taint (component : Name) (origin : String)
  | declassify (component : Name) (origin : String)
  | secret (capability : String) (name : Name)
  | env (name : Name) (bound : String)

/-- What stands before the first colon. -/
def Crossing.kind : Crossing → String
  | emit .. => "emit"
  | host .. => "host"
  | taint .. => "taint"
  | declassify .. => "declassify"
  | secret .. => "secret"
  | env .. => "env"

/-- What stands behind it. -/
def Crossing.rest : Crossing → String
  | emit c label => c.text ++ ":" ++ label
  | host c name => c.text ++ ":" ++ name
  | taint c origin => c.text ++ ":" ++ origin
  | declassify c origin => c.text ++ ":" ++ origin
  | secret capability n => capability ++ ":" ++ n.text
  | env n bound => n.text ++ ":" ++ bound

/-- The text the gate compares. -/
def Crossing.token (x : Crossing) : String := x.kind ++ ":" ++ x.rest

variable [Floats F]

/-- `str` of a literal. -/
def Literal.text : Literal F → String
  | str s => s
  | int n => toString n
  | float x => Floats.text x
  | bool b => if b then "True" else "False"
  | null => "None"

/-- `_bound_token`. -/
def boundToken : Option (Bound F) → String
  | none => "*"
  | some (.under path) => "under=" ++ path
  | some (.oneOf values) => "in=" ++ "|".intercalate (values.map Literal.text)

def Field.crossing (field : Field F) : Crossing := .env field.name (boundToken field.bound)

def SecretRow.crossing (row : SecretRow) : Crossing := .secret row.capability row.name

/-- The crossings of one component's row. -/
def Stats.crossings (component : Name) (stats : Stats) : List Crossing :=
  stats.emissions.map (.emit component) ++
    stats.externs.map (fun ext => .host component ext.name) ++
    stats.taint.reaches.map (.taint component) ++
    stats.taint.declassify.map (.declassify component)

/-- The crossings of a report. -/
def Audit.crossings (audit : Audit F) : List Crossing :=
  (audit.boundary.entries.flatMap fun p => p.2.crossings p.1) ++
    audit.secrets.map SecretRow.crossing ++ audit.env.map Field.crossing

/-- `crossings`. -/
def crossings (audit : Audit F) : List String := audit.crossings.map Crossing.token

theorem kind_plain (x : Crossing) : ':' ∉ x.kind.toList := by
  cases x <;> simp only [Crossing.kind] <;> decide

theorem toList_token (x : Crossing) : x.token.toList = x.kind.toList ++ ':' :: x.rest.toList := by
  unfold Crossing.token
  rw [String.toList_append, String.toList_append, List.append_assoc]
  rfl

/-- Two texts joined at a colon, the left parts identifiers. -/
theorem named_left_inj {a a' : Name} {b b' : String}
    (h : a.text ++ ":" ++ b = a'.text ++ ":" ++ b') : a = a' ∧ b = b' := by
  have hlist : a.text.toList ++ ':' :: b.toList = a'.text.toList ++ ':' :: b'.toList := by
    have := congrArg String.toList h
    simpa [String.toList_append] using this
  obtain ⟨ha, hb⟩ := Tagged.split_left a.plain a'.plain hlist
  refine ⟨?_, String.toList_inj.mp hb⟩
  cases a
  cases a'
  cases String.toList_inj.mp ha
  rfl

/-- Two texts joined at a colon, the right parts identifiers. -/
theorem named_right_inj {a a' : Name} {b b' : String}
    (h : b ++ ":" ++ a.text = b' ++ ":" ++ a'.text) : b = b' ∧ a = a' := by
  have hlist : b.toList ++ ':' :: a.text.toList = b'.toList ++ ':' :: a'.text.toList := by
    have := congrArg String.toList h
    simpa [String.toList_append] using this
  obtain ⟨hb, ha⟩ := Tagged.split_right a.plain a'.plain hlist
  refine ⟨String.toList_inj.mp hb, ?_⟩
  cases a
  cases a'
  cases String.toList_inj.mp ha
  rfl

/-- **Two crossings have one text only when they are one crossing.** -/
theorem token_inj {x y : Crossing} (h : x.token = y.token) : x = y := by
  have hlist : x.kind.toList ++ ':' :: x.rest.toList = y.kind.toList ++ ':' :: y.rest.toList := by
    rw [← toList_token, ← toList_token, h]
  obtain ⟨hkind, hrest⟩ := Tagged.split_left (kind_plain x) (kind_plain y) hlist
  have hrest : x.rest = y.rest := String.toList_inj.mp hrest
  have hkind : x.kind = y.kind := String.toList_inj.mp hkind
  -- Crossings of two kinds differ before the first colon.
  cases x <;> cases y <;> simp only [Crossing.kind, String.reduceEq] at hkind
  case secret.secret =>
    obtain ⟨rfl, rfl⟩ := named_right_inj hrest
    rfl
  all_goals
    obtain ⟨rfl, rfl⟩ := named_left_inj hrest
    rfl

theorem token_mem_crossings {audit : Audit F} {x : Crossing} :
    x.token ∈ crossings audit ↔ x ∈ audit.crossings := by
  unfold crossings
  rw [List.mem_map]
  exact ⟨fun ⟨y, hy, heq⟩ => token_inj heq ▸ hy, fun h => ⟨x, h, rfl⟩⟩

/-- A report's crossings, by what they come from. -/
theorem mem_crossings {audit : Audit F} {x : Crossing} :
    x ∈ audit.crossings ↔ (∃ component, x ∈ (audit.stats component).crossings component) ∨
      (∃ row ∈ audit.secrets, row.crossing = x) ∨ ∃ field ∈ audit.env, field.crossing = x := by
  unfold Audit.crossings
  rw [List.mem_append, List.mem_append, List.mem_flatMap, List.mem_map, List.mem_map, or_assoc]
  refine or_congr ⟨?_, ?_⟩ Iff.rfl
  · rintro ⟨⟨component, stats⟩, hmem, hx⟩
    exact ⟨component, (stats_of_mem hmem).symm ▸ hx⟩
  · rintro ⟨component, hx⟩
    cases hget : audit.boundary.get? component with
    | none =>
      unfold Audit.stats at hx
      rw [hget] at hx
      exact absurd hx List.not_mem_nil
    | some stats =>
      have hmem := Dict.get?_eq_some_iff.mp hget
      exact ⟨(component, stats), hmem, stats_of_mem hmem ▸ hx⟩

/-- The crossings of a row, by what they come from. -/
theorem mem_stats_crossings {component : Name} {stats : Stats} {x : Crossing} :
    x ∈ stats.crossings component ↔ (∃ label ∈ stats.emissions, .emit component label = x) ∨
      (∃ ext ∈ stats.externs, .host component ext.name = x) ∨
      (∃ origin ∈ stats.taint.reaches, .taint component origin = x) ∨
      ∃ origin ∈ stats.taint.declassify, .declassify component origin = x := by
  unfold Stats.crossings
  simp only [List.mem_append, List.mem_map, or_assoc]

theorem emit_mem_crossings {audit : Audit F} {component : Name} {label : String} :
    .emit component label ∈ audit.crossings ↔ label ∈ (audit.stats component).emissions := by
  simp only [mem_crossings, mem_stats_crossings, SecretRow.crossing, Field.crossing,
    Crossing.emit.injEq, reduceCtorEq, and_false, exists_false, or_false]
  exact ⟨fun ⟨_, _, hl, rfl, rfl⟩ => hl, fun h => ⟨component, label, h, rfl, rfl⟩⟩

theorem host_mem_crossings {audit : Audit F} {component : Name} {name : String} :
    .host component name ∈ audit.crossings ↔
      ∃ ext ∈ (audit.stats component).externs, ext.name = name := by
  simp only [mem_crossings, mem_stats_crossings, SecretRow.crossing, Field.crossing,
    Crossing.host.injEq, reduceCtorEq, and_false, exists_false, or_false, false_or]
  exact ⟨fun ⟨_, ext, hext, hc, hname⟩ => ⟨ext, hc ▸ hext, hname⟩,
    fun ⟨ext, hext, hname⟩ => ⟨component, ext, hext, rfl, hname⟩⟩

theorem secret_mem_crossings {audit : Audit F} {row : SecretRow} :
    row.crossing ∈ audit.crossings ↔ row ∈ audit.secrets := by
  simp only [mem_crossings, mem_stats_crossings, SecretRow.crossing, Field.crossing,
    Crossing.secret.injEq, reduceCtorEq, and_false, exists_false, or_false, false_or]
  refine ⟨fun ⟨row', h, hcap, hname⟩ => ?_, fun h => ⟨row, h, rfl, rfl⟩⟩
  cases row
  cases row'
  cases hcap
  cases hname
  exact h

theorem env_mem_crossings {audit : Audit F} {name : Name} {bound : String} :
    .env name bound ∈ audit.crossings ↔
      ∃ field ∈ audit.env, field.name = name ∧ boundToken field.bound = bound := by
  simp only [mem_crossings, mem_stats_crossings, SecretRow.crossing, Field.crossing,
    Crossing.env.injEq, reduceCtorEq, and_false, exists_false, false_or]

end Revl.Drift
