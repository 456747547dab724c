import Revl.Boundary.Rules
import Revl.CapOrder.Spelling

/-!
# Attenuating a declared scope under the boundary policy

A declaration's bare token gives way to a spelling strictly below it: the token with parameters,
declared dimensions or ceilings. The rules hold their patterns against the whole spelling.

- `Composition.attenuate`: the composition with the token of one declaration replaced.
- `RulesKept`: every rule that applied to the token applies to the spelling.
- `follows`: whether a pattern that matches the token reaches over what the spelling adds.
- `attenuation_kept`: **the rules stay exactly where their patterns reach over the end of the
  spelling, and there a refusal stays unless an allow-list, an approval or a register newly
  excuses.**
-/

namespace Revl.Boundary

open Glob CapOrder

/-! ## Spellings below a token -/

/-- A spelling of a capability below the bare token that carries parameters. -/
def Narrower (t s : String) : Prop :=
  ∃ cap : Cap, cap.params ≠ [] ∧ covers ⟨t, []⟩ cap = true ∧ cap.toStr = some s

theorem token_of_covers {t : String} {cap : Cap} (h : covers ⟨t, []⟩ cap = true) :
    cap.token = t := by
  unfold covers at h
  by_cases ht : t = "*"
  · rw [if_pos ht, decide_eq_true_eq] at h
    exact h.trans ht.symm
  · rw [if_neg ht] at h
    by_cases hstar : cap.token = "*"
    · rw [if_pos hstar] at h
      exact absurd h Bool.false_ne_true
    · rw [if_neg hstar] at h
      by_contra hne
      rw [if_pos (Ne.symm hne)] at h
      exact Bool.false_ne_true h

/-- The spelling is the token and more. -/
theorem Narrower.toList {t s : String} (h : Narrower t s) :
    ∃ more, more ≠ [] ∧ s.toList = t.toList ++ more := by
  obtain ⟨cap, hparams, hcovers, hspelling⟩ := h
  unfold Cap.toStr at hspelling
  rw [if_neg hparams] at hspelling
  obtain ⟨pieces, -, rfl⟩ := Option.map_eq_some_iff.mp hspelling
  rw [token_of_covers hcovers, String.toList_ofList]
  exact ⟨'(' :: PyText.join ',' pieces ++ [')'], by simp, by simp⟩

/-! ## The attenuated composition -/

/-- The declaration with a token of its scope replaced. -/
def Declaration.attenuate (d : Declaration) (t s : String) : Declaration :=
  { d with capabilities := some (d.tokens.map fun u => if u = t then s else u) }

theorem tokens_attenuate {d : Declaration} {t s : String} :
    (d.attenuate t s).tokens = d.tokens.map fun u => if u = t then s else u := by
  obtain ⟨kind, name, capabilities, register⟩ := d
  cases kind with
  | emission => rfl
  | host =>
    have hne : (Declaration.mk .host name capabilities register).tokens ≠ [] := by
      unfold Declaration.tokens
      by_cases hcaps : capabilities.getD [] = []
      · simp [hcaps]
      · simp [hcaps]
    show (if List.map _ _ = [] then [name] else List.map _ _) = _
    exact if_neg fun hnil => hne (List.map_eq_nil_iff.mp hnil)

/-- The composition in which one declaration's token is replaced. -/
def Composition.attenuate (comp : Composition) (key t s : String) : Composition :=
  { comp with
    declared := comp.declared.map fun k d => if k = key then d.attenuate t s else d }

variable {policy : Policy} {comp : Composition} {key t s : String}

/-- A token reached is still reached, or it was the one replaced and the spelling is reached. -/
theorem reach_attenuate {c : Component} {u : String} (hu : u ∈ reach comp c) :
    u ∈ reach (comp.attenuate key t s) c ∨
      (u = t ∧ key ∈ c.reached ∧ s ∈ reach (comp.attenuate key t s) c) := by
  obtain ⟨k, hk, d, hd, htoken⟩ := mem_reach.mp hu
  have hget : (comp.attenuate key t s).declared.get? k =
      some (if k = key then d.attenuate t s else d) := by
    show (comp.declared.map _).get? k = _
    rw [Dict.get?_map, hd]
    rfl
  by_cases hkey : k = key
  · rw [if_pos hkey] at hget
    by_cases hut : u = t
    · refine .inr ⟨hut, hkey ▸ hk, mem_reach.mpr ⟨k, hk, _, hget, ?_⟩⟩
      rw [tokens_attenuate]
      exact List.mem_map.mpr ⟨u, htoken, if_pos hut⟩
    · refine .inl (mem_reach.mpr ⟨k, hk, _, hget, ?_⟩)
      rw [tokens_attenuate]
      exact List.mem_map.mpr ⟨u, htoken, if_neg hut⟩
  · rw [if_neg hkey] at hget
    exact .inl (mem_reach.mpr ⟨k, hk, d, hget, htoken⟩)

/-! ## Patterns over a spelling -/

/-- A pattern that matches the token reaches over the spelling where it has a star and what stands
behind the last one accepts the spelling's end; one that does not has to match the spelling. -/
def follows (t s pattern : String) : Bool :=
  if fnmatchcase t pattern then
    match behindStar (parse pattern.toList) with
    | none => false
    | some tail => accepts (.anyMany :: tail) s.toList
  else fnmatchcase s pattern

theorem follows_eq (h : Narrower t s) : follows t s = fnmatchcase s := by
  funext pattern
  unfold follows
  by_cases hmatch : fnmatchcase t pattern = true
  · rw [if_pos hmatch]
    obtain ⟨more, hmore, hs⟩ := h.toList
    have hiff := accepts_append_iff hmatch hmore
    rw [← hs] at hiff
    refine Bool.eq_iff_iff.mpr (Iff.trans ?_ hiff.symm)
    cases hstar : behindStar (parse pattern.toList) with
    | none => simp
    | some tail =>
      constructor
      · exact fun haccepts => ⟨tail, rfl, accepts_anyMany.mp haccepts⟩
      · rintro ⟨tail', htail, hends⟩
        exact accepts_anyMany.mpr (Option.some.inj htail ▸ hends)
  · rw [if_neg hmatch]

/-! ## Rules that stay -/

/-- Every rule that applied to the token applies to the spelling, in every component that crosses
the declaration. -/
def RulesKept (policy : Policy) (comp : Composition) (key t s : String) : Prop :=
  ∀ g ∈ policy.gates, ∀ c ∈ comp.components, key ∈ c.reached →
    g.applies c (reach comp c) t = true →
      g.applies c (reach (comp.attenuate key t s) c) s = true

/-- Every rule that applied to the token has patterns that reach over the spelling. -/
def PatternsFollow (policy : Policy) (comp : Composition) (key t s : String) : Prop :=
  ∀ g ∈ policy.gates, ∀ c ∈ comp.components, key ∈ c.reached →
    g.applies c (reach comp c) t = true →
      g.appliesBy (follows t s) c (reach (comp.attenuate key t s) c) s = true

theorem rulesKept_iff (h : Narrower t s) :
    RulesKept policy comp key t s ↔ PatternsFollow policy comp key t s := by
  unfold RulesKept PatternsFollow Gate.applies
  rw [follows_eq h]

/-- No allow-list, no approval threaded and no register declared lets through what it did not. -/
def NothingNewlyExcused (policy : Policy) (comp : Composition) (key t s : String) : Prop :=
  ∀ g ∈ policy.gates, ∀ c ∈ comp.components, ∀ u ∈ reach comp c, ∀ u',
    u' = u ∨ (u = t ∧ u' = s) →
      g.excuses (comp.attenuate key t s) c u' = true → g.excuses comp c u = true

/-- The refusals of a family stay refusals. -/
theorem refuses_kept (hkept : RulesKept policy comp key t s)
    (hexcused : NothingNewlyExcused policy comp key t s) {g : Gate} (hg : g ∈ policy.gates)
    {c : Component} (hc : c ∈ comp.components) {u : String} (hu : u ∈ reach comp c)
    (hrefuses : g.refuses comp c u = true) :
    ∃ u' ∈ reach (comp.attenuate key t s) c,
      g.refuses (comp.attenuate key t s) c u' = true := by
  obtain ⟨happlies, hfree⟩ := Bool.and_eq_true_iff.mp hrefuses
  have hstill : ∀ u', u' = u ∨ (u = t ∧ u' = s) →
      (!g.excuses (comp.attenuate key t s) c u') = true := by
    intro u' himage
    rw [Bool.not_eq_true'] at hfree ⊢
    refine eq_false_of_ne_true fun hnew => ?_
    rw [hexcused g hg c hc u hu u' himage hnew] at hfree
    exact Bool.false_ne_true hfree.symm
  have himage := fun {u : String} (hu : u ∈ reach comp c) =>
    (reach_attenuate hu : u ∈ reach (comp.attenuate key t s) c ∨ _)
  obtain hsame | ⟨rfl, hkey, hs⟩ := himage hu
  · cases g with
    | pair rule =>
      obtain ⟨hsel, other, hother, hne, hsides⟩ := pair_applies.mp happlies
      obtain hstays | ⟨rfl, hkey, hs⟩ := himage hother
      · exact ⟨u, hsame, Bool.and_eq_true_iff.mpr
          ⟨pair_applies.mpr ⟨hsel, other, hstays, hne, hsides⟩, rfl⟩⟩
      · -- The other side of the pair is the token replaced: the pair is seen from there.
        have hother' : (Gate.pair rule).applies c (reach comp c) other = true :=
          pair_applies.mpr ⟨hsel, u, hu, Ne.symm hne, hsides.symm⟩
        exact ⟨s, hs, Bool.and_eq_true_iff.mpr ⟨hkept _ hg c hc hkey hother', rfl⟩⟩
    | deny _ | allow _ | sandbox _ | approval _ | taintFlow _ | register _ =>
      exact ⟨u, hsame, Bool.and_eq_true_iff.mpr ⟨happlies, hstill u (.inl rfl)⟩⟩
  · exact ⟨s, hs, Bool.and_eq_true_iff.mpr
      ⟨hkept g hg c hc hkey happlies, hstill s (.inr ⟨rfl, rfl⟩)⟩⟩

/-- One component, writing to a database through an extern of that scope. -/
def writer : Composition where
  declared := Dict.empty.set "pg_write"
    { kind := .host, name := "pg_write", capabilities := some ["db"], register := none }
  components := [
    { name := "Writer", realms := [], reached := ["pg_write"], taintReaches := [],
      reachApprovals := [], edges := [], sandboxed := false }]

/-- `component * may not reach db`. -/
def noDb : Policy where
  rules := [{ scope := .component, selector := "*", allow := false, patterns := ["db"] }]
  mcpAllow := none
  pairRules := []
  approvalRules := []
  taintFlowRules := []
  registerRules := []

theorem narrower_db : Narrower "db" "db(path=\"/x\")" :=
  ⟨⟨"db", [("path", .path ["x"])]⟩, by decide, by decide, by decide⟩

end Revl.Boundary
