import Revl.Drift.Contract
import Revl.Lib.Glob

/-!
# The authority-drift gate (`audit_diff.py`)

The gate compares two reports of a composition: the crossings the new one adds, the externs whose
reach bound went or moved, the externs whose inverse is weaker. What of these is not accepted by
its text refuses the new composition.

- `evaluate_clean`: what a clean decision says.
- `NoWidening`: what a clean decision is for.
- `HiddenKept`: nothing that changed behind an unchanged text is wider.
- `clean_diff_iff`: **behind a clean decision nothing is wider exactly where nothing hidden is.**
-/

namespace Revl.Drift

variable {F : Type} {V : Type}

/-! ## Differences -/

/-- `sorted(set(texts))`. -/
def sortedSet (texts : List String) : List String := texts.dedup.insertionSort (· ≤ ·)

theorem mem_sortedSet {texts : List String} {text : String} :
    text ∈ sortedSet texts ↔ text ∈ texts := by
  unfold sortedSet
  rw [List.mem_insertionSort, List.mem_dedup]

theorem sortedSet_eq_nil {texts : List String} : sortedSet texts = [] ↔ texts = [] := by
  constructor
  · intro h
    refine List.eq_nil_iff_forall_not_mem.mpr fun text htext => ?_
    exact List.not_mem_nil (h ▸ mem_sortedSet.mpr htext)
  · rintro rfl
    rfl

/-- The names both tables list whose entries are so related, each as a text. -/
def drifted (tag : String) (related : V → V → Bool) (prev new : List (String × V)) : List String :=
  sortedSet <| ((prev.map Prod.fst).filter fun name =>
    match Assoc.get? prev name, Assoc.get? new name with
    | some before, some after => related before after
    | _, _ => false).map (tag ++ ·)

theorem drifted_eq_nil {tag : String} {related : V → V → Bool} {prev new : List (String × V)} :
    drifted tag related prev new = [] ↔ ∀ name before after,
      Assoc.get? prev name = some before → Assoc.get? new name = some after →
        related before after = false := by
  unfold drifted
  rw [sortedSet_eq_nil, List.map_eq_nil_iff, List.filter_eq_nil_iff]
  constructor
  · intro h name before after hbefore hafter
    have hname := h name (List.mem_map_of_mem (f := Prod.fst) (Assoc.mem_of_get? hbefore))
    rw [hbefore, hafter] at hname
    exact eq_false_of_ne_true hname
  · intro h name _
    cases hbefore : Assoc.get? prev name with
    | none => exact Bool.false_ne_true
    | some before =>
      cases hafter : Assoc.get? new name with
      | none => exact Bool.false_ne_true
      | some after => exact ne_true_of_eq_false (h name before after hbefore hafter)

/-- `_reach_map`. -/
def reachMap (audit : Audit F) : List (String × Option ReachBound) :=
  audit.externs.map fun ext => (ext.name, ext.reach)

/-- A bound that went or moved. -/
def reachWeaker (before after : Option ReachBound) : Bool := before ≠ after && before.isSome

/-- A bound that was gained. -/
def reachTighter (before after : Option ReachBound) : Bool := before ≠ after && before.isNone

/-- The inverses recorded: an extern without the field is left out. -/
def inverseMap (audit : Audit F) : List (String × Option EffectClass × InverseClass) :=
  audit.externs.filterMap fun ext => ext.inverse.map fun inverse =>
    (ext.name, ext.effectClass, inverse)

/-- An effect where there was none, whatever the ranks say. -/
def effectAppeared (before after : Option EffectClass × InverseClass) : Bool :=
  before.2 = .unknown && (after.1 = some .emission || after.1 = some .witnessed)

def inverseWeaker (before after : Option EffectClass × InverseClass) : Bool :=
  before ≠ after && (effectAppeared before after || decide (after.2.rank < before.2.rank))

def inverseStronger (before after : Option EffectClass × InverseClass) : Bool :=
  before ≠ after && !effectAppeared before after && decide (before.2.rank < after.2.rank)

structure Diff where
  added : List String
  removed : List String
  unchanged : List String
  reachWeakened : List String
  reachTightened : List String

structure Verdict where
  diff : Diff
  inverseWeakened : List String
  inverseStrengthened : List String
  acknowledged : List String
  unacknowledged : List String
  widened : Bool

variable [Floats F]

/-- `diff_crossings`, with the drift of `diff_reach`. -/
def diffCrossings (prev new : Audit F) : Diff where
  added := sortedSet ((crossings new).filter (· ∉ crossings prev))
  removed := sortedSet ((crossings prev).filter (· ∉ crossings new))
  unchanged := sortedSet ((crossings new).filter (· ∈ crossings prev))
  reachWeakened := drifted "reach-weakened:" reachWeaker (reachMap prev) (reachMap new)
  reachTightened := drifted "reach-tightened:" reachTighter (reachMap prev) (reachMap new)

/-- `evaluate`. -/
def evaluate (prev new : Audit F) (accepted : List String) (acceptAll : Bool) : Verdict :=
  let delta := diffCrossings prev new
  let weakened := drifted "inverse:" inverseWeaker (inverseMap prev) (inverseMap new)
  let gated := delta.added ++ delta.reachWeakened ++ weakened
  let unacknowledged := if acceptAll then [] else gated.filter (· ∉ accepted)
  { diff := delta
    inverseWeakened := weakened
    inverseStrengthened := drifted "inverse:" inverseStronger (inverseMap prev) (inverseMap new)
    acknowledged := (gated.filter fun text => acceptAll || text ∈ accepted).insertionSort (· ≤ ·)
    unacknowledged := unacknowledged
    widened := !unacknowledged.isEmpty }

/-- Nothing accepted, nothing left unacknowledged. -/
def Clean (prev new : Audit F) : Prop := (evaluate prev new [] false).unacknowledged = []

/-- What a clean decision says: no crossing added, no bound and no inverse weaker. -/
theorem evaluate_clean {prev new : Audit F} :
    Clean prev new ↔ (∀ x ∈ new.crossings, x ∈ prev.crossings) ∧
      (∀ name before after, Assoc.get? (reachMap prev) name = some before →
        Assoc.get? (reachMap new) name = some after → reachWeaker before after = false) ∧
      ∀ name before after, Assoc.get? (inverseMap prev) name = some before →
        Assoc.get? (inverseMap new) name = some after → inverseWeaker before after = false := by
  have hall : ∀ gated : List String, gated.filter (· ∉ ([] : List String)) = gated := fun gated =>
    List.filter_eq_self.mpr fun _ _ => by simp
  have hadded : (diffCrossings prev new).added = [] ↔ ∀ x ∈ new.crossings, x ∈ prev.crossings := by
    unfold diffCrossings
    rw [sortedSet_eq_nil, List.filter_eq_nil_iff]
    constructor
    · intro h x hx
      have htoken := h x.token (token_mem_crossings.mpr hx)
      rw [decide_eq_true_eq, not_not] at htoken
      exact token_mem_crossings.mp htoken
    · intro h text htext
      obtain ⟨x, hx, rfl⟩ := List.mem_map.mp htext
      rw [decide_eq_true_eq, not_not]
      exact token_mem_crossings.mpr (h x hx)
  unfold Clean evaluate
  show List.filter (· ∉ ([] : List String)) _ = [] ↔ _
  rw [hall, List.append_eq_nil_iff, List.append_eq_nil_iff, hadded, drifted_eq_nil, and_assoc]
  refine and_congr Iff.rfl (and_congr ?_ Iff.rfl)
  exact drifted_eq_nil

/-! ## What a clean decision is for -/

/-- A token is one of those held, or one of them matches it as a pattern. -/
def Matched (held : List String) (token : String) : Prop :=
  token ∈ held ∨ ∃ wide ∈ held, Glob.fnmatchcase token wide = true

instance (held : List String) (token : String) : Decidable (Matched held token) :=
  inferInstanceAs (Decidable (_ ∨ _))

/-- The new composition reaches nothing wider than the old one. -/
structure NoWidening (prev new : Audit F) : Prop where
  reach : ∀ component, ∀ token ∈ componentReach new component,
    Matched (componentReach prev component) token
  secrets : ∀ row ∈ new.secrets, row ∈ prev.secrets
  env : ∀ name field value, new.field? name = some field → field.admits value = true →
    ∃ old, prev.field? name = some old ∧ old.admits value = true
  bounds : ∀ name bound after, Assoc.get? (reachMap prev) name = some (some bound) →
    Assoc.get? (reachMap new) name = some after → after = some bound
  inverses : ∀ name before after, Assoc.get? (inverseMap prev) name = some before →
    Assoc.get? (inverseMap new) name = some after → before.2.rank ≤ after.2.rank

/-- What changed behind a text that did not is no wider: the scope of an emission that stayed, the
scope of an extern that stayed, the type or the values of a contract field that stayed. -/
structure HiddenKept (prev new : Audit F) : Prop where
  scopes : ∀ component label before after,
    (prev.stats component).capabilities.get? label = some before →
    (new.stats component).capabilities.get? label = some after → before ≠ after →
    ∀ token ∈ after, Matched (componentReach prev component) token
  externs : ∀ component, ∀ before ∈ (prev.stats component).externs,
    ∀ after ∈ (new.stats component).externs, before.name = after.name → before ≠ after →
    ∀ token ∈ after.tokens, Matched (componentReach prev component) token
  env : ∀ name before after value, prev.field? name = some before → new.field? name = some after →
    before ≠ after → after.admits value = true → before.admits value = true

theorem NoWidening.hiddenKept {prev new : Audit F} (h : NoWidening prev new) :
    HiddenKept prev new where
  scopes component label _ after _ hafter _ token htoken :=
    h.reach component token (mem_componentReach.mpr (.inl ⟨label, after, hafter, htoken⟩))
  externs component _ _ after hafter _ _ token htoken :=
    h.reach component token (mem_componentReach.mpr (.inr ⟨after, hafter, htoken⟩))
  env name before after value hbefore hafter _ hadmits := by
    obtain ⟨old, hold, hvalue⟩ := h.env name after value hafter hadmits
    rw [hbefore] at hold
    exact Option.some.inj hold ▸ hvalue

section Clean

variable {prev new : Audit F}

/-- Behind a clean decision the reach grows only in a scope that changed. -/
theorem reach_of_clean (hclean : Clean prev new) (hkept : HiddenKept prev new) (component : Name)
    {token : String} (htoken : token ∈ componentReach new component) :
    Matched (componentReach prev component) token := by
  obtain ⟨hcrossings, -, -⟩ := evaluate_clean.mp hclean
  obtain ⟨label, after, hafter, hmem⟩ | ⟨ext, hext, hmem⟩ := mem_componentReach.mp htoken
  · -- The label is a crossing of the old report too, so it has a scope there.
    have hlabel : label ∈ (new.stats component).emissions :=
      ((new.stats component).labelled label).mpr (by rw [hafter]; rfl)
    have hold := emit_mem_crossings.mp (hcrossings _ (emit_mem_crossings.mpr hlabel))
    obtain ⟨before, hbefore⟩ :=
      Option.isSome_iff_exists.mp (((prev.stats component).labelled label).mp hold)
    by_cases heq : before = after
    · subst heq
      exact .inl (mem_componentReach.mpr (.inl ⟨label, before, hbefore, hmem⟩))
    · exact hkept.scopes component label before after hbefore hafter heq token hmem
  · obtain ⟨before, hbefore, hname⟩ :=
      host_mem_crossings.mp (hcrossings _ (host_mem_crossings.mpr ⟨ext, hext, rfl⟩))
    by_cases heq : before = ext
    · subst heq
      exact .inl (mem_componentReach.mpr (.inr ⟨before, hbefore, hmem⟩))
    · exact hkept.externs component before hbefore ext hext hname heq token hmem

/-- Behind a clean decision no secret is bound anew. -/
theorem secrets_of_clean (hclean : Clean prev new) {row : SecretRow} (h : row ∈ new.secrets) :
    row ∈ prev.secrets :=
  secret_mem_crossings.mp ((evaluate_clean.mp hclean).1 _ (secret_mem_crossings.mpr h))

/-- Behind a clean decision a contract field admits more only where its row changed. -/
theorem env_of_clean (hclean : Clean prev new) (hkept : HiddenKept prev new) {name : Name}
    {field : Field F} {value : Injected F} (hfield : new.field? name = some field)
    (hadmits : field.admits value = true) :
    ∃ old, prev.field? name = some old ∧ old.admits value = true := by
  obtain ⟨hmem, rfl⟩ := field?_mem hfield
  have hcrossing : .env field.name (boundToken field.bound) ∈ prev.crossings :=
    (evaluate_clean.mp hclean).1 _ (env_mem_crossings.mpr ⟨field, hmem, rfl, rfl⟩)
  obtain ⟨row, hrow, hname, -⟩ := env_mem_crossings.mp hcrossing
  obtain ⟨old, hold⟩ := Option.isSome_iff_exists.mp (hname ▸ field?_isSome hrow)
  refine ⟨old, hold, ?_⟩
  by_cases heq : old = field
  · exact heq ▸ hadmits
  · exact hkept.env field.name old field value hold hfield heq hadmits

/-- Behind a clean decision every reach bound stands. -/
theorem bounds_of_clean (hclean : Clean prev new) {name : String} {bound : ReachBound}
    {after : Option ReachBound} (hbefore : Assoc.get? (reachMap prev) name = some (some bound))
    (hafter : Assoc.get? (reachMap new) name = some after) : after = some bound := by
  have hsame := (evaluate_clean.mp hclean).2.1 name _ _ hbefore hafter
  unfold reachWeaker at hsame
  rw [Option.isSome_some, Bool.and_true, decide_eq_false_iff_not, not_not] at hsame
  exact hsame.symm

/-- Behind a clean decision no inverse is weaker. -/
theorem inverses_of_clean (hclean : Clean prev new) {name : String}
    {before after : Option EffectClass × InverseClass}
    (hbefore : Assoc.get? (inverseMap prev) name = some before)
    (hafter : Assoc.get? (inverseMap new) name = some after) :
    before.2.rank ≤ after.2.rank := by
  have hnot := (evaluate_clean.mp hclean).2.2 name _ _ hbefore hafter
  unfold inverseWeaker at hnot
  by_cases heq : before = after
  · rw [heq]
  · rw [decide_eq_true heq, Bool.true_and, Bool.or_eq_false_iff, decide_eq_false_iff_not] at hnot
    exact Nat.le_of_not_lt hnot.2

end Clean

/-- **Behind a clean decision nothing is wider exactly where nothing hidden is.** -/
theorem clean_diff_iff {prev new : Audit F} (hclean : Clean prev new) :
    NoWidening prev new ↔ HiddenKept prev new := by
  constructor
  · exact NoWidening.hiddenKept
  · intro hkept
    exact
      { reach := fun component _ htoken => reach_of_clean hclean hkept component htoken
        secrets := fun _ hrow => secrets_of_clean hclean hrow
        env := fun _ _ _ hfield hadmits => env_of_clean hclean hkept hfield hadmits
        bounds := fun _ _ _ hbefore hafter => bounds_of_clean hclean hbefore hafter
        inverses := fun _ _ _ hbefore hafter => inverses_of_clean hclean hbefore hafter }

/-! ## A scope behind a label -/

instance : Floats Empty where
  text x := x.elim
  eq x _ := x.elim
  eqInt x _ := x.elim

def notifier : Name := ⟨"Notifier", by decide⟩

/-- A composition whose one component sends notices, its emission of the scope given. -/
def noticeStats (scope : List String) : Stats where
  emissions := ["mail.notify"]
  capabilities := Dict.empty.set "mail.notify" scope
  labelled label := by
    rw [Dict.get?_set, Dict.get?_empty, List.mem_singleton]
    split <;> simp_all
  externs := []
  taint := ⟨[], []⟩

def noticeAudit (scope : List String) : Audit Empty where
  boundary := Dict.empty.set notifier (noticeStats scope)
  externs := []
  secrets := []
  env := []

/-- The scope grows from one mailer to every one, and the decision is clean. -/
theorem clean_notice : Clean (noticeAudit ["send.mail"]) (noticeAudit ["send.*"]) := by
  unfold Clean
  decide +kernel

theorem clean_diff_iff_notice :
    NoWidening (noticeAudit ["send.mail"]) (noticeAudit ["send.*"]) ↔
      HiddenKept (noticeAudit ["send.mail"]) (noticeAudit ["send.*"]) :=
  clean_diff_iff clean_notice

theorem clean_diff_misses_scope :
    ¬ ∀ prev new : Audit Empty, Clean prev new → NoWidening prev new := by
  intro h
  have hreach := (h _ _ clean_notice).reach notifier "send.*" (by decide +kernel)
  exact absurd hreach (by decide +kernel)

/-- Two lists of values, one text. -/
example : boundToken (F := Empty) (some (.oneOf [.str "a|b"])) =
    boundToken (F := Empty) (some (.oneOf [.str "a", .str "b"])) := by decide +kernel

end Revl.Drift
