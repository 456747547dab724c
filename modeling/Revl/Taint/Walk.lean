import Revl.Lib.Dict

/-!
# The taint walk (`taint.py`)

The refusal pass over one body. It carries a taint for every binding, computes one for every
call argument and every return, and refuses a call that hands an untrusted value to a sink.

- `Taint`: a value's origins, and those of its fields where its shape is known.
- `taintOf`, `sitesOf`: the taint of an expression and of the arguments of the calls in it.
- `runStmt`, `passes`: the walk, with the passes over a loop.
- `accepts`: no call of the walk is refused.

The walk is the one of the refusal pass, over a given table of signatures. What it only records is
left out (the audit surface, what is written into shared state), and so is the config hand-off of a
`spawn`.
-/

namespace Revl.TaintFlow

/-! ## Taints -/

/-- The origins a value carries, the chain that names them, and its fields where they are known. -/
inductive Taint where
  | mk (origins : Finset String) (via : List String) (fields : List (String × Taint))

namespace Taint

def origins : Taint → Finset String
  | mk origins _ _ => origins

def via : Taint → List String
  | mk _ via _ => via

def fields : Taint → List (String × Taint)
  | mk _ _ fields => fields

end Taint

/-- `CLEAN`. -/
def clean : Taint := .mk ∅ [] []

/-- `_join`: the fields are lost where both sides carry something. -/
def join (a b : Taint) : Taint :=
  if a.origins = ∅ then b
  else if b.origins = ∅ then a
  else .mk (a.origins ∪ b.origins) (if a.via.length ≤ b.via.length then a.via else b.via) []

def joinAll (taints : List Taint) : Taint := taints.foldl join clean

/-- The taint of a record: each field keeps its own, the record carries them all. -/
def recordTaint (fields : List (String × Taint)) : Taint :=
  .mk (fields.foldl (fun origins f => origins ∪ f.2.origins) ∅)
    (((fields.find? fun f => f.2.origins ≠ ∅).map fun f => f.2.via).getD []) fields

/-- A field read. -/
def readField (t : Taint) (name : String) : Taint :=
  match Assoc.get? t.fields name with
  | some field => field
  | none => .mk t.origins t.via []

/-- Whether an origin is a retention policy. -/
def isRetention (origin : String) : Bool := "retained:".toList.isPrefixOf origin.toList

/-- `_authority_dirty`. -/
def authorityDirty (t : Taint) : Bool := decide (∃ o ∈ t.origins, isRetention o = false)

/-! ## Bodies -/

/-- An expression. A call has a label of its own. -/
inductive Expr where
  | name (name : String)
  | config (field : String)
  | literal
  /-- `indirect`: the callee is a name; `receiver`: the name the method is called on;
  `endorse`: the origin of a scoped `endorse`. -/
  | call (label : Nat) (callee : String) (indirect : Bool) (receiver : Option String)
      (endorse : Option String) (args : List Expr)
  | record (fields : List (String × Expr))
  | field (target : Expr) (name : String)
  | endorse (expr : Expr)
  /-- `match`: every arm with the names its pattern binds. -/
  | matchOn (scrutinee : Expr) (arms : List (List String × Expr))
  | arrow (params : List String) (body : Expr)
  /-- Every other kind, with its children: operators, templates, lists, indexing, `if`. -/
  | parts (children : List Expr)

/-- A step of a body. -/
inductive Stmt where
  | bind (name : String) (value : Expr)
  | assign (name : String) (value : Expr)
  | loopWhile (cond : Expr) (body : List Stmt)
  | loopFor (name : String) (iterable : Expr) (body : List Stmt)
  | ret (value : Expr)
  /-- `expr`, `emit`, `fail` and `assert`. -/
  | eval (value : Expr)
  /-- `if`, with its blocks. -/
  | branch (cond : Expr) (blocks : List (List Stmt))

/-! ## The checker -/

/-- `_Signature`, as a call site applies it. -/
structure Signature where
  flowsToReturn : List Nat
  mints : Finset String
  clears : List (Nat × Finset String)
  reachesSink : List Nat

/-- What a call calls. -/
inductive Target where
  | named (callee : String)
  /-- A function value that cannot be named. -/
  | unnamed
  /-- A component-state world. -/
  | world (name : String)
  deriving DecidableEq

/-- A call with the taints of its arguments. -/
structure Site where
  label : Nat
  target : Target
  endorse : Option String
  args : List Taint

/-- `_FlowChecker`: what a body is walked with. -/
structure Checker where
  sources : List (String × String)
  sinks : List (String × List Nat)
  declassifiers : List String
  persistenceSinks : List (String × String)
  signatures : List (String × Signature)
  knownCallables : List String
  anySink : Bool
  stateNames : List String
  stateEnv : List (String × Taint)
  scopeEnv : List ((String × String) × Taint)
  secretConfig : List String
  configEnv : List (String × Taint)
  endorseAllowed : List String
  /-- The secret, disclosure, retention and placement refusals of a call. -/
  refusesElse : Site → Bool

/-- The function references of the bindings. -/
abbrev Refs := String → Option String

namespace Checker

variable (c : Checker)

/-- `_is_unnameable`. -/
def unnameable (name : String) : Bool :=
  !(c.knownCallables.contains name || (Assoc.get? c.signatures name).isSome ||
    (Assoc.get? c.sinks name).isSome || (Assoc.get? c.sources name).isSome ||
    c.declassifiers.contains name || name == "endorse")

/-- What a call by a name calls. -/
def target (refs : Refs) (callee : String) (indirect : Bool) : Target :=
  let resolved := if indirect then (refs callee).getD callee else callee
  if indirect && c.anySink && c.unnameable resolved then .unnamed else .named resolved

/-- The taint of a config read. -/
def configTaint (field : String) : Taint :=
  if field ∈ c.secretConfig then .mk {"confidential"} ["config." ++ field] []
  else (Assoc.get? c.configEnv field).getD clean

/-- What other crossings wrote into the resource a callee reads. -/
def carried (callee : String) : List Taint :=
  match Assoc.get? c.persistenceSinks callee with
  | none => []
  | some scope =>
    (c.scopeEnv.filter fun p =>
      p.1.1 == scope && p.1.2 != callee && decide (p.2.origins ≠ ∅)).map Prod.snd

/-- `_mint_reload`. -/
def mintReload (callee : String) (result : Taint) : Taint :=
  if (c.carried callee).isEmpty then result
  else
    let carried := joinAll (c.carried callee)
    join result (.mk carried.origins (carried.via ++ [callee]) [])

end Checker

/-- A call of which nothing is known: the result carries what the arguments do. -/
def passThrough (callee : String) (t : Taint) : Taint :=
  if t.origins = ∅ then t else .mk t.origins (t.via ++ [callee ++ "()"]) []

/-- `_endorse`, in the refusal pass. -/
def endorsed (origin : Option String) (args : List Taint) : Taint :=
  match origin with
  | none => clean
  | some origin =>
    let value := args.head?.getD clean
    if value.origins.erase origin = ∅ then clean
    else .mk (value.origins.erase origin) value.via []

def Signature.clearsOf (sig : Signature) (index : Nat) : Finset String :=
  (Assoc.get? sig.clears index).getD ∅

/-- What the argument at a position adds to the result. -/
def Signature.contribute (sig : Signature) (callee : String) (args : List Taint)
    (acc : Finset String × List String) (index : Nat) : Finset String × List String :=
  match args[index]? with
  | none => acc
  | some arg =>
    let contributed := arg.origins \ sig.clearsOf index
    if contributed = ∅ then acc
    else (acc.1 ∪ contributed, if acc.2.isEmpty then arg.via ++ [callee ++ "()"] else acc.2)

/-- A signature at a call site. -/
def Signature.apply (sig : Signature) (callee : String) (args : List Taint) : Taint :=
  let acc := sig.flowsToReturn.foldl (sig.contribute callee args)
    (sig.mints, if sig.mints = ∅ then [] else [callee ++ "()"])
  if acc.1 = ∅ then clean else .mk acc.1 acc.2 []

namespace Checker

variable (c : Checker)

/-- The result of a call of a named callee. -/
def namedResult (callee : String) (endorse : Option String) (args : List Taint) : Taint :=
  match Assoc.get? c.sources callee with
  | some origin => .mk {origin} [callee ++ "()"] []
  | none =>
    if callee = "endorse" then endorsed endorse args
    -- a declassifier is trusted whatever it is given
    else if callee ∈ c.declassifiers then clean
    else
      match Assoc.get? c.signatures callee with
      | some sig => sig.apply callee args
      | none => passThrough callee (joinAll args)

/-- `_taint_of_state_access`, `_taint_of_call`: `self` is what the callee's binding carries. -/
def callTaint (refs : Refs) (self : Taint) (callee : String) (indirect : Bool)
    (receiver endorse : Option String) (args : List Taint) : Taint :=
  match receiver.filter (· ∈ c.stateNames) with
  | some world => join ((Assoc.get? c.stateEnv world).getD clean) (joinAll args)
  | none =>
    c.mintReload callee <|
      match c.target refs callee indirect with
      | .unnamed => passThrough callee (join (joinAll args) self)
      | .named resolved => c.namedResult resolved endorse args
      | .world _ => clean

/-- What a call calls, a world included. -/
def siteTarget (refs : Refs) (callee : String) (indirect : Bool) (receiver : Option String) :
    Target :=
  match receiver.filter (· ∈ c.stateNames) with
  | some world => .world world
  | none => c.target refs callee indirect

/-- Whether a call is refused. -/
def refuses (site : Site) : Bool :=
  match site.target with
  | .world _ => false
  | .unnamed => site.args.any authorityDirty || c.refusesElse site
  | .named callee =>
    (((Assoc.get? c.sinks callee).getD [] ++
        ((Assoc.get? c.signatures callee).map Signature.reachesSink).getD []).any fun index =>
          (site.args[index]?.map authorityDirty).getD false) ||
      (callee == "endorse" && (site.endorse == some "secret" ||
        (site.endorse.map fun o => !c.endorseAllowed.contains o).getD false)) ||
      c.refusesElse site

end Checker

/-! ## The walk -/

/-- The bindings, their function references, and what was computed on the way. -/
structure Walk where
  env : Dict String Taint
  refs : Refs
  sites : List Site
  returns : List Taint

/-- What a binding carries. -/
def Walk.get (w : Walk) (name : String) : Taint := (w.env.get? name).getD clean

variable (c : Checker)

mutual

/-- `taint_of`. -/
def taintOf (w : Walk) : Expr → Taint
  | .name name => w.get name
  | .config field => c.configTaint field
  | .literal => clean
  | .call _ callee indirect receiver endorse args =>
    c.callTaint w.refs (w.get callee) callee indirect receiver endorse (taintsOf w args)
  | .record fields => recordTaint (fieldTaints w fields)
  | .field target name => readField (taintOf w target) name
  | .endorse _ => clean
  | .matchOn scrutinee arms => joinAll (taintOf w scrutinee :: armTaints w arms)
  | .arrow _ body => taintOf w body
  | .parts children => joinAll (taintsOf w children)

def taintsOf (w : Walk) : List Expr → List Taint
  | [] => []
  | e :: rest => taintOf w e :: taintsOf w rest

def fieldTaints (w : Walk) : List (String × Expr) → List (String × Taint)
  | [] => []
  | (name, e) :: rest => (name, taintOf w e) :: fieldTaints w rest

def armTaints (w : Walk) : List (List String × Expr) → List Taint
  | [] => []
  | (_, e) :: rest => taintOf w e :: armTaints w rest

end

mutual

/-- The calls of an expression, in the order they are judged. -/
def sitesOf (w : Walk) : Expr → List Site
  | .call label callee indirect receiver endorse args =>
    sitesIn w args ++
      [⟨label, c.siteTarget w.refs callee indirect receiver, endorse, taintsOf c w args⟩]
  | .record fields => fieldSites w fields
  | .field target _ => sitesOf w target
  | .endorse expr => sitesOf w expr
  | .matchOn scrutinee arms => sitesOf w scrutinee ++ armSites w arms
  | .arrow _ body => sitesOf w body
  | .parts children => sitesIn w children
  | .name _ => []
  | .config _ => []
  | .literal => []

def sitesIn (w : Walk) : List Expr → List Site
  | [] => []
  | e :: rest => sitesOf w e ++ sitesIn w rest

def fieldSites (w : Walk) : List (String × Expr) → List Site
  | [] => []
  | (_, e) :: rest => sitesOf w e ++ fieldSites w rest

def armSites (w : Walk) : List (List String × Expr) → List Site
  | [] => []
  | (_, e) :: rest => sitesOf w e ++ armSites w rest

end

/-- The calls of an expression are judged. -/
def Walk.visit (w : Walk) (e : Expr) : Walk := { w with sites := w.sites ++ sitesOf c w e }

/-- The callable a bare reference names. -/
def fnRef : Expr → Option String
  | .name ref => if c.unnameable ref then none else some ref
  | _ => none

/-- `let` and `assign`: the binding is replaced, and `_note_fn_ref`. -/
def Walk.store (w : Walk) (name : String) (value : Expr) : Walk :=
  { w.visit c value with
    env := w.env.set name (taintOf c w value)
    refs := fun other => if other = name then fnRef c value else w.refs other }

/-- One binding of a pass joined in, and whether anything grew. -/
def growKey (acc : Dict String Taint × Bool) (p : String × Taint) : Dict String Taint × Bool :=
  match acc.1.get? p.1 with
  | none => (acc.1.set p.1 p.2, true)
  | some old =>
    -- only the origins of the whole value count as growth, not those of its fields
    if (join old p.2).origins = old.origins then acc else (acc.1.set p.1 (join old p.2), true)

/-- The bindings of a pass joined in. -/
def grow (merged trial : Dict String Taint) : Dict String Taint × Bool :=
  trial.entries.foldl growKey (merged, false)

/-- What a pass leaves. -/
def nextPass (run : Walk → Walk) (w : Walk) : Walk :=
  { run w with env := (grow w.env (run w).env).1 }

/-- `_loop`: passes until nothing grows, at most so many. -/
def passes (run : Walk → Walk) : Nat → Walk → Walk
  | 0, w => w
  | n + 1, w =>
    -- the function references are those of the last pass
    if (grow w.env (run w).env).2 then passes run n (nextPass run w) else nextPass run w

/-- The bound on the passes over a loop's body. -/
def bound (body : List Stmt) : Nat := 2 * (body.length + 1) + 4

mutual

/-- `_stmt`. -/
def runStmt : Stmt → Walk → Walk
  | .bind name value, w => w.store c name value
  | .assign name value, w => w.store c name value
  | .loopWhile cond body, w => passes (runBlock body) (bound body) (w.visit c cond)
  | .loopFor name iterable body, w =>
    passes (runBlock body) (bound body)
      { w.visit c iterable with env := w.env.set name (taintOf c w iterable) }
  | .ret value, w => { w.visit c value with returns := w.returns ++ [taintOf c w value] }
  | .eval value, w => w.visit c value
  -- every block is walked, one after the other, over the same bindings
  | .branch cond blocks, w => runBlocks blocks (w.visit c cond)

def runBlock : List Stmt → Walk → Walk
  | [], w => w
  | stmt :: rest, w => runBlock rest (runStmt stmt w)

def runBlocks : List (List Stmt) → Walk → Walk
  | [], w => w
  | block :: rest, w => runBlocks rest (runBlock block w)

end

/-- No call of the walk is refused. -/
def accepts (w : Walk) : Bool := w.sites.all fun site => !c.refuses site

end Revl.TaintFlow
