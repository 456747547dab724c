import Revl.Taint.Bodies

/-!
# The walk holds every path

- `grow_held`, `grow_of_not`: joining a pass in loses nothing, and changes nothing where nothing
  grew.
- `runStmt_extends`, `runStmt_unref`: what was computed stays, and only the names of references
  become references.
- `runStmt_sim`: the walk of a plain step whose loops settle goes with every path through it.
- `walk_covers_paths`: **the walk of such a body holds every origin of every path, and no path of
  a body it accepts hands an untrusted origin to a sink.**
-/

namespace Revl.TaintFlow

variable {c : Checker} {R : RefNames}

/-! ## Joining a pass in -/

/-- What a binding of a map carries. -/
def taintAt (env : Dict String Taint) (x : String) : Taint := (env.get? x).getD clean

theorem not_covers_clean {p : List String} {o : String} : ¬ Covers p clean o := by
  intro h
  exact absurd (origin_of_covers h) (Finset.notMem_empty o)

theorem growKey_held (acc : Dict String Taint × Bool) (e : String × Taint) {x : String}
    {p : List String} {o : String} (h : Covers p (taintAt acc.1 x) o) :
    Covers p (taintAt (growKey acc e).1 x) o := by
  unfold growKey
  cases hold : acc.1.get? e.1 with
  | none =>
    dsimp only
    unfold taintAt
    rw [Dict.get?_set]
    by_cases hx : x = e.1
    · subst hx
      unfold taintAt at h
      rw [hold] at h
      exact absurd h not_covers_clean
    · rw [if_neg hx]
      exact h
  | some old =>
    dsimp only
    split
    · exact h
    · unfold taintAt
      rw [Dict.get?_set]
      by_cases hx : x = e.1
      · subst hx
        unfold taintAt at h
        rw [hold] at h
        rw [if_pos rfl]
        exact covers_join_left h
      · rw [if_neg hx]
        exact h

/-- **Joining a pass in loses nothing.** -/
theorem grow_held (merged trial : Dict String Taint) {x : String} {p : List String} {o : String}
    (h : Covers p (taintAt merged x) o) : Covers p (taintAt (grow merged trial).1 x) o := by
  unfold grow
  have hfold : ∀ (entries : List (String × Taint)) (acc : Dict String Taint × Bool),
      Covers p (taintAt acc.1 x) o → Covers p (taintAt (entries.foldl growKey acc).1 x) o := by
    intro entries
    induction entries with
    | nil => exact fun acc hacc => hacc
    | cons e rest ih => exact fun acc hacc => ih _ (growKey_held acc e hacc)
  exact hfold trial.entries (merged, false) h

/-- A binding joined in changes nothing or is a growth. -/
theorem growKey_cases (acc : Dict String Taint × Bool) (e : String × Taint) :
    growKey acc e = acc ∨ (growKey acc e).2 = true := by
  unfold growKey
  cases acc.1.get? e.1 with
  | none => exact .inr rfl
  | some old =>
    dsimp only
    split
    · exact .inl rfl
    · exact .inr rfl

theorem grew_foldl (entries : List (String × Taint)) {acc : Dict String Taint × Bool}
    (h : acc.2 = true) : (entries.foldl growKey acc).2 = true := by
  induction entries generalizing acc with
  | nil => exact h
  | cons e rest ih =>
    refine ih ?_
    rcases growKey_cases acc e with heq | hgrew
    · rw [heq]
      exact h
    · exact hgrew

/-- **Where nothing grew, nothing changed.** -/
theorem grow_of_not {merged trial : Dict String Taint} (h : (grow merged trial).2 = false) :
    (grow merged trial).1 = merged := by
  have hfold : ∀ (entries : List (String × Taint)) (acc : Dict String Taint × Bool),
      (entries.foldl growKey acc).2 = false → (entries.foldl growKey acc).1 = acc.1 := by
    intro entries
    induction entries with
    | nil => exact fun acc _ => rfl
    | cons e rest ih =>
      intro acc hacc
      rw [List.foldl_cons] at hacc ⊢
      rcases growKey_cases acc e with heq | hgrew
      · rw [heq] at hacc ⊢
        exact ih acc hacc
      · exact absurd (grew_foldl rest hgrew) (Bool.eq_false_iff.mp hacc)
  exact hfold trial.entries (merged, false) h

/-! ## The passes -/

theorem passes_induct {run : Walk → Walk} {P : Walk → Prop}
    (hnext : ∀ w, P w → P (nextPass run w)) : ∀ (n : Nat) (w : Walk), P w → P (passes run n w)
  | 0, w, h => h
  | n + 1, w, h => by
    rw [passes]
    split
    · exact passes_induct hnext n _ (hnext w h)
    · exact hnext w h

theorem lastStart_induct {run : Walk → Walk} {P : Walk → Prop}
    (hnext : ∀ w, P w → P (nextPass run w)) :
    ∀ {n : Nat} {w start : Walk}, P w → lastStart run n w = some start → P start
  | 0, w, start, _, hlast => by cases hlast
  | n + 1, w, start, h, hlast => by
    rw [lastStart] at hlast
    split at hlast
    · exact lastStart_induct hnext (hnext w h) hlast
    · cases hlast
      exact h

/-- The passes end after the one that grew nothing. -/
theorem passes_of_lastStart {run : Walk → Walk} : ∀ {n : Nat} {w start : Walk},
    lastStart run n w = some start → passes run n w = { run start with env := start.env }
  | 0, w, start, hlast => by cases hlast
  | n + 1, w, start, hlast => by
    rw [lastStart] at hlast
    rw [passes]
    split at hlast
    · rw [if_pos (by assumption)]
      exact passes_of_lastStart hlast
    · rename_i hgrew
      cases hlast
      rw [if_neg hgrew]
      unfold nextPass
      rw [grow_of_not (Bool.eq_false_iff.mpr hgrew)]

/-! ## What a step leaves alone -/

/-- What was computed stays. -/
structure Extends (w w' : Walk) : Prop where
  sites : ∀ site ∈ w.sites, site ∈ w'.sites
  returns : ∀ t ∈ w.returns, t ∈ w'.returns

theorem Extends.refl (w : Walk) : Extends w w := ⟨fun _ h => h, fun _ h => h⟩

theorem Extends.trans {w w' w'' : Walk} (h : Extends w w') (h' : Extends w' w'') :
    Extends w w'' :=
  ⟨fun site hsite => h'.sites site (h.sites site hsite),
    fun t ht => h'.returns t (h.returns t ht)⟩

theorem visit_extends (w : Walk) (e : Expr) : Extends w (w.visit c e) :=
  ⟨fun _ h => List.mem_append_left _ h, fun _ h => h⟩

theorem passes_extends {run : Walk → Walk} (hrun : ∀ w, Extends w (run w)) (n : Nat) (w : Walk) :
    Extends w (passes run n w) := by
  refine passes_induct (P := fun w' => Extends w w') (fun w' h => h.trans ?_) n w (.refl w)
  exact ⟨(hrun w').sites, (hrun w').returns⟩

theorem lastStart_extends {run : Walk → Walk} (hrun : ∀ w, Extends w (run w)) {n : Nat}
    {w start : Walk} (h : lastStart run n w = some start) : Extends w start := by
  refine lastStart_induct (P := fun w' => Extends w w') (fun w' hw => hw.trans ?_) (.refl w) h
  exact ⟨(hrun w').sites, (hrun w').returns⟩

mutual

theorem runStmt_extends : ∀ (stmt : Stmt) (w : Walk), Extends w (runStmt c stmt w)
  | .bind name value, w => ⟨fun _ h => List.mem_append_left _ h, fun _ h => h⟩
  | .assign name value, w => ⟨fun _ h => List.mem_append_left _ h, fun _ h => h⟩
  | .loopWhile cond body, w => by
    rw [runStmt]
    exact (visit_extends w cond).trans
      (passes_extends (fun w' => runBlock_extends body w') (bound body) (w.visit c cond))
  | .loopFor name iterable body, w => by
    rw [runStmt]
    refine Extends.trans ?_ (passes_extends (fun w' => runBlock_extends body w') _ _)
    exact ⟨fun _ h => List.mem_append_left _ h, fun _ h => h⟩
  | .ret value, w =>
    ⟨fun _ h => List.mem_append_left _ h, fun _ h => List.mem_append_left _ h⟩
  | .eval value, w => visit_extends w value
  | .branch cond blocks, w => by
    rw [runStmt]
    exact (visit_extends w cond).trans (runBlocks_extends blocks (w.visit c cond))

theorem runBlock_extends : ∀ (block : List Stmt) (w : Walk), Extends w (runBlock c block w)
  | [], w => .refl w
  | stmt :: rest, w => by
    rw [runBlock]
    exact (runStmt_extends stmt w).trans (runBlock_extends rest _)

theorem runBlocks_extends : ∀ (blocks : List (List Stmt)) (w : Walk),
    Extends w (runBlocks c blocks w)
  | [], w => .refl w
  | block :: rest, w => by
    rw [runBlocks]
    exact (runBlock_extends block w).trans (runBlocks_extends rest _)

end

/-- Only the names of references are bound to one. -/
def Unref (R : RefNames) (w : Walk) : Prop := ∀ x, ¬ R x → w.refs x = none

theorem passes_unref {run : Walk → Walk} (hrun : ∀ w, Unref R w → Unref R (run w)) (n : Nat)
    {w : Walk} (h : Unref R w) : Unref R (passes run n w) :=
  passes_induct (P := Unref R) (fun w' hw' => hrun w' hw') n w h

theorem fnRef_eq_none {name : String} {value : Expr} {scope : List String}
    (h : plainRef c R name value scope) (hname : ¬ R name) : fnRef c value = none := by
  cases value with
  | name ref =>
    by_cases hun : c.unnameable ref = true
    · exact if_pos hun
    · have hun' : c.unnameable ref = false := Bool.eq_false_iff.mpr hun
      by_cases hscope : ref ∈ scope
      · exact absurd (((h ref rfl).1 hscope).2) hun
      · exact absurd ((h ref rfl).2 hscope hun') hname
  | _ => rfl

theorem store_unref {w : Walk} (h : Unref R w) {name : String} {value : Expr}
    {scope : List String} (hplain : plainRef c R name value scope) :
    Unref R (w.store c name value) := by
  intro x hx
  show (if x = name then fnRef c value else w.refs x) = none
  by_cases heq : x = name
  · rw [if_pos heq]
    exact fnRef_eq_none hplain (heq ▸ hx)
  · rw [if_neg heq]
    exact h x hx

mutual

theorem runStmt_unref : ∀ (stmt : Stmt) {scope : List String} {w : Walk},
    plainStmt c R stmt scope → Unref R w → Unref R (runStmt c stmt w)
  | .bind name value, scope, w, hplain, h => by
    rw [plainStmt] at hplain
    exact store_unref h hplain.2
  | .assign name value, scope, w, hplain, h => by
    rw [plainStmt] at hplain
    exact store_unref h hplain.2
  | .loopWhile cond body, scope, w, hplain, h => by
    rw [plainStmt] at hplain
    rw [runStmt]
    refine passes_unref (fun w' hw' => runBlock_unref body hplain.2 hw') (bound body) ?_
    exact h
  | .loopFor name iterable body, scope, w, hplain, h => by
    rw [plainStmt] at hplain
    rw [runStmt]
    refine passes_unref (fun w' hw' => runBlock_unref body hplain.2.2.2 hw') (bound body) ?_
    exact h
  | .ret value, scope, w, _, h => h
  | .eval value, scope, w, _, h => h
  | .branch cond blocks, scope, w, hplain, h => by
    rw [plainStmt] at hplain
    rw [runStmt]
    refine runBlocks_unref blocks hplain.2 ?_
    exact h

theorem runBlock_unref : ∀ (block : List Stmt) {scope : List String} {w : Walk},
    plainBlock c R block scope → Unref R w → Unref R (runBlock c block w)
  | [], scope, w, _, h => h
  | stmt :: rest, scope, w, hplain, h => by
    rw [plainBlock] at hplain
    rw [runBlock]
    exact runBlock_unref rest hplain.2 (runStmt_unref stmt hplain.1 h)

theorem runBlocks_unref : ∀ (blocks : List (List Stmt)) {scope : List String} {w : Walk},
    plainBlocks c R blocks scope → Unref R w → Unref R (runBlocks c blocks w)
  | [], scope, w, _, h => h
  | block :: rest, scope, w, hplain, h => by
    rw [plainBlocks] at hplain
    rw [runBlocks]
    exact runBlocks_unref rest hplain.2 (runBlock_unref block hplain.1 h)

end

/-! ## Scopes -/

theorem mem_withName {name x : String} {scope : List String} :
    x ∈ withName name scope ↔ x = name ∨ x ∈ scope := by
  unfold withName
  split
  · constructor
    · exact .inr
    · rintro (rfl | hx)
      · assumption
      · exact hx
  · exact List.mem_cons

/-! ## A step of the walk and a step of the path -/

section Sim

variable {w w' : Walk} {s d : Path}

theorem Sim.visit (h : Sim R w s) (e : Expr) : Sim R (w.visit c e) (s.visit c e) :=
  ⟨h.inScope, h.held, h.refs, h.outside, h.unref⟩

/-- Calls made along the path bind nothing. -/
theorem Sim.calls (h : Sim R w s) (e : Expr) : Sim R w (s.visit c e) :=
  ⟨h.inScope, h.held, h.refs, h.outside, h.unref⟩

/-- A walk that keeps what the names in scope held goes with the same path. -/
theorem Sim.transfer (h : Sim R w s) (hkeeps : Keeps s.scope w w') (hunref : Unref R w') :
    Sim R w' s :=
  ⟨h.inScope, fun hx => (hkeeps _ (h.inScope hx)).1 _ _ (h.held hx),
    fun hx => (h.refs hx).trans (hkeeps _ hx).2.symm, h.outside, fun hx => hunref _ hx⟩

/-- A path that leaves a block goes with the walk it went with. -/
theorem Sim.leave (h : Sim R w d) (hsub : ∀ x ∈ s.scope, x ∈ d.scope) : Sim R w (d.leave s) := by
  refine ⟨fun hx => hx.1, fun hx => h.held hx.2, fun {x} hx => ?_, fun hx => if_neg hx, h.unref⟩
  have hx : x ∈ s.scope := hx
  show (if x ∈ s.scope then d.refs x else none) = w.refs x
  rw [if_pos hx]
  exact h.refs (hsub x hx)

theorem refOf_eq (h : Sim R w s) {name : String} {value : Expr}
    (hplain : plainRef c R name value s.scope) : s.refOf c value = fnRef c value := by
  cases value with
  | name ref =>
    show (if ref ∈ s.scope then s.refs ref else if c.unnameable ref then none else some ref) =
      if c.unnameable ref then none else some ref
    by_cases hscope : ref ∈ s.scope
    · obtain ⟨href, hun⟩ := (hplain ref rfl).1 hscope
      rw [if_pos hscope, if_pos hun, h.refs hscope]
      exact h.unref href
    · rw [if_neg hscope]
  | _ => rfl

/-- **Binding a name** keeps the walk and the path together. -/
theorem Sim.store (h : Sim R w s) {name : String} {value : Expr}
    (hvalue : plainExpr c R value s.scope) (href : plainRef c R name value s.scope) :
    Sim R (w.store c name value) (s.store c name value) := by
  have hget : ∀ x, (w.store c name value).get x =
      if x = name then taintOf c w value else w.get x := by
    intro x
    show ((w.env.set name (taintOf c w value)).get? x).getD clean = _
    rw [Dict.get?_set]
    by_cases heq : x = name
    · rw [if_pos heq, if_pos heq]
      rfl
    · rw [if_neg heq, if_neg heq]
      rfl
  constructor
  · intro x p o hx
    have hx : (if x = name then valueOf c value s else s.flows x) p o := hx
    refine mem_withName.mpr ?_
    by_cases heq : x = name
    · exact .inl heq
    · rw [if_neg heq] at hx
      exact .inr (h.inScope hx)
  · intro x p o hx
    have hx : (if x = name then valueOf c value s else s.flows x) p o := hx
    rw [hget]
    by_cases heq : x = name
    · rw [if_pos heq] at hx ⊢
      exact valueOf_held value h hvalue p o hx
    · rw [if_neg heq] at hx ⊢
      exact h.held hx
  · intro x hx
    show (if x = name then s.refOf c value else s.refs x) =
      if x = name then fnRef c value else w.refs x
    by_cases heq : x = name
    · rw [if_pos heq, if_pos heq]
      exact refOf_eq h href
    · rw [if_neg heq, if_neg heq]
      exact h.refs ((mem_withName.mp hx).resolve_left heq)
  · intro x hx
    have hx : x ∉ withName name s.scope := hx
    rw [mem_withName, not_or] at hx
    show (if x = name then s.refOf c value else s.refs x) = none
    rw [if_neg hx.1]
    exact h.outside hx.2
  · exact fun {x} => store_unref (fun y hy => h.unref hy) href x

end Sim

/-- A path goes with a walk: what it adds to what reached the arguments of calls and what was
returned was computed, and unless it returned early the walk holds what its names hold. -/
structure Follows (R : RefNames) (w : Walk) (s s' : Path) : Prop where
  reached : ∀ l t i o, s'.reached l t i o → s.reached l t i o ∨ Seen w.sites l t i o
  returned : ∀ o, s'.returned o → s.returned o ∨ ∃ t ∈ w.returns, o ∈ t.origins
  sim : s'.cut = false → Sim R w s'
  sub : ∀ x ∈ s.scope, x ∈ s'.scope
  live : s'.done = false → s'.cut = false

section Follows

variable {w w' : Walk} {s s' s'' : Path}

theorem Follows.refl (h : Sim R w s) (hcut : s.cut = false) : Follows R w s s :=
  ⟨fun _ _ _ _ => .inl, fun _ => .inl, fun _ => h, fun _ hx => hx, fun _ => hcut⟩

/-- A path goes on, and the walk with it. -/
theorem Follows.andThen (h : Follows R w s s') (hext : Extends w w')
    (h' : Follows R w' s' s'') : Follows R w' s s'' where
  reached l t i o ho := by
    rcases h'.reached l t i o ho with ho | ho
    · exact (h.reached l t i o ho).imp_right fun hseen => hseen.mono hext.sites
    · exact .inr ho
  returned o ho := by
    rcases h'.returned o ho with ho | ho
    · rcases h.returned o ho with ho | ⟨t, ht, hmem⟩
      · exact .inl ho
      · exact .inr ⟨t, hext.returns t ht, hmem⟩
    · exact .inr ho
  sim := h'.sim
  sub x hx := h'.sub x (h.sub x hx)
  live := h'.live

/-- A path goes with a walk that goes on, as long as that holds what its names hold. -/
theorem Follows.extend (h : Follows R w s s') (hext : Extends w w')
    (hsim : s'.cut = false → Sim R w' s') : Follows R w' s s' where
  reached l t i o ho := (h.reached l t i o ho).imp_right fun hseen => hseen.mono hext.sites
  returned o ho := by
    rcases h.returned o ho with ho | ⟨t, ht, hmem⟩
    · exact .inl ho
    · exact .inr ⟨t, hext.returns t ht, hmem⟩
  sim := hsim
  sub := h.sub
  live := h.live

theorem visit_follows (h : Sim R w s) (hcut : s.cut = false) {e : Expr}
    (hplain : plainExpr c R e s.scope) : Follows R (w.visit c e) s (s.visit c e) where
  reached _ _ _ _ := Or.imp_right fun hevent => (eventsOf_seen e h hplain hevent).right _
  returned _ ho := .inl ho
  sim _ := h.visit e
  sub _ hx := hx
  live _ := hcut

theorem store_follows (h : Sim R w s) (hcut : s.cut = false) {name : String} {value : Expr}
    (hvalue : plainExpr c R value s.scope) (href : plainRef c R name value s.scope) :
    Follows R (w.store c name value) s (s.store c name value) where
  reached _ _ _ _ := Or.imp_right fun hevent => (eventsOf_seen value h hvalue hevent).right _
  returned _ ho := .inl ho
  sim _ := h.store hvalue href
  sub _ hx := mem_withName.mpr (.inr hx)
  live _ := hcut

end Follows

/-! ## Loops -/

section Loop

variable {run : Walk → Walk} {w start : Walk} {s d m : Path}

/-- What the pass that grows nothing computed, with the bindings it started from. -/
def rewound (run : Walk → Walk) (start : Walk) : Walk :=
  { run start with env := start.env, refs := start.refs }

/-- A path that comes to the end of a pass goes with what the pass started from. -/
theorem Sim.rewind (h : Sim R (run start) d) (hsub : ∀ x ∈ s.scope, x ∈ d.scope)
    (hsettle : ∀ x ∈ s.scope, ∀ p o, Covers p ((run start).get x) o → Covers p (start.get x) o)
    (hrefs : ∀ x ∈ s.scope, (run start).refs x = start.refs x) (hunref : Unref R start) :
    Sim R (rewound run start) (d.leave s) := by
  refine ⟨fun hx => hx.1, fun {x p o} hx => hsettle x hx.1 p o (h.held hx.2), fun {x} hx => ?_,
    fun hx => if_neg hx, fun {x} => hunref x⟩
  have hx : x ∈ s.scope := hx
  show (if x ∈ s.scope then d.refs x else none) = start.refs x
  rw [if_pos hx, h.refs (hsub x hx)]
  exact hrefs x hx

/-- What every pass starts from holds what the loop started from. -/
theorem start_held {n : Nat} {body : List Stmt} {scope : List String}
    (hbody : plainBlock c R body scope) (hunref : Unref R w)
    (hlast : lastStart (runBlock c body) n w = some start) :
    (∀ x p o, Covers p (w.get x) o → Covers p (start.get x) o) ∧ Unref R start := by
  refine lastStart_induct (P := fun w' =>
    (∀ x p o, Covers p (w.get x) o → Covers p (w'.get x) o) ∧ Unref R w') ?_
    ⟨fun _ _ _ h => h, hunref⟩ hlast
  rintro w' ⟨hheld, hunref'⟩
  refine ⟨fun x p o h => ?_, runBlock_unref body hbody hunref'⟩
  exact grow_held w'.env (runBlock c body w').env (hheld x p o h)

/-- A path round a loop, pass by pass. -/
theorem rounds_follow {Iter : Path → Path → Prop}
    (hiter : ∀ a b, a.scope = s.scope → a.cut = false → Sim R start a → Iter a b →
      b.scope = s.scope ∧ Follows R (rewound run start) a b)
    (hdone : ∀ a b, Iter a b → a.done = false) (h : Sim R start s) (hcut : s.cut = false)
    (hrounds : Relation.ReflTransGen Iter s m) :
    m.scope = s.scope ∧ Follows R (rewound run start) s m := by
  induction hrounds with
  | refl => exact ⟨rfl, .refl ⟨h.inScope, h.held, h.refs, h.outside, h.unref⟩ hcut⟩
  | tail _ hstep ih =>
    obtain ⟨hscope, hfollows⟩ := ih
    have hacut := hfollows.live (hdone _ _ hstep)
    have hsim := hfollows.sim hacut
    obtain ⟨hscope', hfollows'⟩ := hiter _ _ hscope hacut
      ⟨hsim.inScope, hsim.held, hsim.refs, hsim.outside, hsim.unref⟩ hstep
    exact ⟨hscope', hfollows.andThen (.refl _) hfollows'⟩

/-- A path out of a loop goes with the walk after it. -/
theorem loop_follows {n : Nat} {body : List Stmt} {scope : List String}
    (hbody : plainBlock c R body scope) (hunref : Unref R start)
    (hlast : lastStart (runBlock c body) n w = some start) (hscope : m.scope = s.scope)
    (hrefs : ∀ x ∈ s.scope, (runBlock c body start).refs x = start.refs x)
    (h : Follows R (rewound (runBlock c body) start) s m) :
    Follows R (passes (runBlock c body) n w) s m := by
  rw [passes_of_lastStart hlast]
  refine h.extend ⟨fun _ hsite => hsite, fun _ ht => ht⟩ fun hcut => ?_
  exact (h.sim hcut).transfer (fun x hx => ⟨fun _ _ hheld => hheld, hrefs x (hscope ▸ hx)⟩)
    (runBlock_unref body hbody hunref)

end Loop

/-! ## The simulation -/

theorem execSome_scope : ∀ {blocks : List (List Stmt)} {s s' : Path},
    execSome c blocks s s' → s'.scope = s.scope
  | [], s, s', h => h.elim
  | _ :: _, s, s', h => by
    rcases h with ⟨d, -, rfl⟩ | h
    · rfl
    · exact execSome_scope h

theorem rounds_scope {P : Path → Path → Path → Prop} {s a m : Path} (ha : a.scope = s.scope)
    (h : Relation.ReflTransGen (fun a b => a.done = false ∧ ∃ d, P a b d ∧ b = d.leave s) a m) :
    m.scope = s.scope := by
  induction h with
  | refl => exact ha
  | tail _ hstep _ =>
    obtain ⟨-, d, -, rfl⟩ := hstep
    rfl

/-- The names in scope after a step. -/
theorem execStmt_scope {stmt : Stmt} {s s' : Path} (h : execStmt c stmt s s') :
    s'.scope = scopeAfter stmt s.scope := by
  cases stmt with
  | bind name value =>
    rw [show s' = _ from h]
    rfl
  | assign name value =>
    rw [show s' = _ from h]
    rfl
  | loopWhile cond body =>
    obtain ⟨m, hrounds, rfl⟩ := h
    have hm := rounds_scope (P := fun a _ d => execBlock c body (a.visit c cond) d) rfl hrounds
    split
    · exact hm
    · exact hm
  | loopFor name iterable body =>
    exact rounds_scope (s := s) (a := s.visit c iterable)
      (P := fun a _ d => execBlock c body (a.shadow [name] (valueOf c iterable s)) d) rfl h
  | ret value =>
    rw [show s' = _ from h]
    rfl
  | eval value =>
    rw [show s' = _ from h]
    rfl
  | branch cond blocks =>
    rcases h with rfl | h
    · rfl
    · exact execSome_scope (s := s.visit c cond) h

/-- The blocks of a branch keep what the names around it held. -/
theorem runBlocks_kept : ∀ (blocks : List (List Stmt)) {w : Walk} {s : Path},
    plainBlocks c R blocks s.scope → settlesBlocks c blocks s.scope w → Sim R w s →
    Sim R (runBlocks c blocks w) s
  | [], w, s, _, _, h => h
  | block :: rest, w, s, hplain, hsettle, h => by
    rw [plainBlocks] at hplain
    rw [settlesBlocks] at hsettle
    rw [runBlocks]
    exact runBlocks_kept rest hplain.2 hsettle.2.2
      (h.transfer hsettle.2.1 (runBlock_unref block hplain.1 fun _ hx => h.unref hx))

mutual

/-- **The walk of a plain step whose loops settle goes with every path through it.** -/
theorem runStmt_sim : ∀ (stmt : Stmt) {w : Walk} {s s' : Path}, Sim R w s → s.cut = false →
    plainStmt c R stmt s.scope → settlesStmt c stmt s.scope w → execStmt c stmt s s' →
    Follows R (runStmt c stmt w) s s'
  | .bind name value, w, s, s', h, hcut, hplain, _, hexec => by
    rw [plainStmt] at hplain
    rw [show s' = _ from hexec]
    exact store_follows h hcut hplain.1 hplain.2
  | .assign name value, w, s, s', h, hcut, hplain, _, hexec => by
    rw [plainStmt] at hplain
    rw [show s' = _ from hexec]
    exact store_follows h hcut hplain.1 hplain.2
  | .loopWhile cond body, w, s, s', h, hcut, hplain, hsettle, hexec => by
    rw [plainStmt] at hplain
    obtain ⟨hcond, hbody⟩ := hplain
    obtain ⟨start, hlast, ⟨hinner, hsettled⟩, hkept⟩ := hsettle
    obtain ⟨m, hrounds, hs'⟩ := hexec
    obtain ⟨hmono, hunref⟩ := start_held (w := w.visit c cond) hbody (fun x hx => h.unref hx) hlast
    have hstart : Sim R start s := ⟨h.inScope, fun hx => hmono _ _ _ (h.held hx),
      fun hx => (h.refs hx).trans (hkept _ hx).2.1.symm, h.outside, fun hx => hunref _ hx⟩
    have hext : Extends (w.visit c cond) (runBlock c body start) :=
      (lastStart_extends (fun w' => runBlock_extends body w') hlast).trans
        (runBlock_extends body start)
    -- what the condition's calls see after a pass, they saw before the loop
    have hseen : ∀ {a : Path} {l t i o}, a.scope = s.scope → Sim R start a →
        eventsOf c cond a l t i o → Seen (runBlock c body start).sites l t i o := by
      intro a l t i o hscope ha hevent
      have hlater := eventsOf_seen cond ha (hscope ▸ hcond) hevent
      exact ((hsettled l t i o hlater).right w.sites).mono hext.sites
    -- one time round: the body from what the last pass started from
    have hiter : ∀ a b : Path, a.scope = s.scope → a.cut = false → Sim R start a →
        (a.done = false ∧ ∃ d, execBlock c body (a.visit c cond) d ∧ b = d.leave s) →
        b.scope = s.scope ∧ Follows R (rewound (runBlock c body) start) a b := by
      rintro a b hscope hacut ha ⟨-, d, hd, rfl⟩
      have hfollows := runBlock_sim body (ha.calls (c := c) cond) hacut
        (by rw [show (a.visit c cond).scope = s.scope from hscope]; exact hbody)
        (by rw [show (a.visit c cond).scope = s.scope from hscope]; exact hinner) hd
      have hsub : ∀ x ∈ s.scope, x ∈ d.scope := fun x hx =>
        hfollows.sub x (show x ∈ a.scope from hscope ▸ hx)
      refine ⟨rfl, ⟨fun l t i o ho => ?_, hfollows.returned, fun hdcut => ?_,
        fun x hx => hscope ▸ hx, hfollows.live⟩⟩
      · rcases hfollows.reached l t i o ho with (ho | ho) | ho
        · exact .inl ho
        · exact .inr (hseen hscope ha ho)
        · exact .inr ho
      · exact (hfollows.sim hdcut).rewind hsub (fun x hx => (hkept x hx).1)
          (fun x hx => (hkept x hx).2.2) hunref
    -- the rounds of the path, however many, against the one pass that grew nothing
    obtain ⟨hscope, hrounds⟩ := rounds_follow hiter (fun _ _ hstep => hstep.1) hstart hcut hrounds
    have hfollows := loop_follows hbody hunref hlast hscope (fun x hx => (hkept x hx).2.2) hrounds
    rw [runStmt]
    by_cases hdone : m.done = true
    · rw [hs', if_pos hdone]
      exact hfollows
    · rw [hs', if_neg hdone]
      have hmcut := hrounds.live (Bool.eq_false_iff.mpr hdone)
      refine ⟨fun l t i o ho => ?_, hfollows.returned, fun _ => (hfollows.sim hmcut).calls cond,
        hfollows.sub, fun _ => hmcut⟩
      rcases ho with ho | ho
      · exact hfollows.reached l t i o ho
      · have hm := hrounds.sim hmcut
        have ho := hseen hscope ⟨hm.inScope, hm.held, hm.refs, hm.outside, hm.unref⟩ ho
        refine .inr (ho.mono fun site hsite => ?_)
        rw [passes_of_lastStart hlast]
        exact hsite
  | .loopFor name iterable body, w, s, s', h, hcut, hplain, hsettle, hexec => by
    rw [plainStmt] at hplain
    obtain ⟨hiterable, hname, href, hbody⟩ := hplain
    obtain ⟨start, hlast, hinner, hkept⟩ := hsettle
    obtain ⟨hmono, hunref⟩ := start_held
      (w := { w.visit c iterable with env := w.env.set name (taintOf c w iterable) })
      hbody (fun x hx => h.unref hx) hlast
    have hother : ∀ x ∈ s.scope, x ≠ name := fun x hx heq => hname (heq ▸ hx)
    have hstart : Sim R start (s.visit c iterable) := by
      refine ⟨h.inScope, fun {x p o} hx => hmono x p o ?_,
        fun hx => (h.refs hx).trans (hkept _ hx).2.1.symm, h.outside, fun hx => hunref _ hx⟩
      show Covers p (((w.env.set name (taintOf c w iterable)).get? x).getD clean) o
      rw [Dict.get?_set_of_ne _ (hother x (h.inScope hx))]
      exact h.held hx
    have hvalue : Held (valueOf c iterable s) (start.get name) := by
      intro p o hp
      refine hmono name p o ?_
      show Covers p (((w.env.set name (taintOf c w iterable)).get? name).getD clean) o
      rw [Dict.get?_set_self]
      exact valueOf_held iterable h hiterable p o hp
    -- one time round: the name holds an element again
    have hiter : ∀ a b : Path, a.scope = (s.visit c iterable).scope → a.cut = false →
        Sim R start a → (a.done = false ∧ ∃ d,
          execBlock c body (a.shadow [name] (valueOf c iterable s)) d ∧ b = d.leave s) →
        b.scope = (s.visit c iterable).scope ∧
          Follows R (rewound (runBlock c body) start) a b := by
      rintro a b hscope hacut ha ⟨-, d, hd, rfl⟩
      have hin : (a.shadow [name] (valueOf c iterable s)).scope = name :: s.scope :=
        congrArg (name :: ·) hscope
      have hsim : Sim R start (a.shadow [name] (valueOf c iterable s)) := by
        refine ha.shadow (fun x hx => ?_) fun x hx => ?_
        · rw [List.mem_singleton.mp hx]
          exact href
        · rw [List.mem_singleton.mp hx]
          exact hvalue
      have hfollows := runBlock_sim body hsim hacut (hin ▸ hbody) (hin ▸ hinner) hd
      have hsub : ∀ x ∈ s.scope, x ∈ d.scope := fun x hx =>
        hfollows.sub x (hin ▸ List.mem_cons_of_mem name hx)
      refine ⟨rfl, ⟨hfollows.reached, hfollows.returned, fun hdcut => ?_,
        fun x hx => hscope ▸ hx, hfollows.live⟩⟩
      exact (hfollows.sim hdcut).rewind hsub (fun x hx => (hkept x hx).1)
        (fun x hx => (hkept x hx).2.2) hunref
    obtain ⟨hscope, hrounds⟩ := rounds_follow hiter (fun _ _ hstep => hstep.1) hstart hcut hexec
    rw [runStmt]
    refine (visit_follows h hcut hiterable).andThen ?_
      (loop_follows hbody hunref hlast hscope (fun x hx => (hkept x hx).2.2) hrounds)
    have hext := passes_extends (fun w' => runBlock_extends (c := c) body w') (bound body)
      { w.visit c iterable with env := w.env.set name (taintOf c w iterable) }
    exact ⟨hext.sites, hext.returns⟩
  | .ret value, w, s, s', h, hcut, hplain, _, hexec => by
    rw [plainStmt] at hplain
    rw [show s' = _ from hexec]
    have hfollows := visit_follows h hcut hplain
    refine ⟨hfollows.reached, fun o ho => ?_, fun _ => ?_, hfollows.sub, fun _ => hcut⟩
    · rcases ho with ho | ⟨p, hp⟩
      · exact .inl ho
      · exact .inr ⟨taintOf c w value, List.mem_append_right _ (List.mem_singleton_self _),
          origin_of_covers (valueOf_held value h hplain p o hp)⟩
    · exact ⟨h.inScope, h.held, h.refs, h.outside, h.unref⟩
  | .eval value, w, s, s', h, hcut, hplain, _, hexec => by
    rw [plainStmt] at hplain
    rw [show s' = _ from hexec]
    exact visit_follows h hcut hplain
  | .branch cond blocks, w, s, s', h, hcut, hplain, hsettle, hexec => by
    rw [plainStmt] at hplain
    rw [runStmt]
    have hvisit := visit_follows h hcut hplain.1
    have hsim := h.visit (c := c) cond
    rcases hexec with rfl | hexec
    -- a path beside the blocks meets the bindings every block of the walk went over
    · exact hvisit.extend (runBlocks_extends blocks _) fun _ =>
        runBlocks_kept blocks (s := s.visit c cond) hplain.2 hsettle hsim
    · exact hvisit.andThen (runBlocks_extends blocks _)
        (runBlocks_sim blocks hsim hcut hplain.2 hsettle hexec)

theorem runBlock_sim : ∀ (block : List Stmt) {w : Walk} {s s' : Path}, Sim R w s →
    s.cut = false → plainBlock c R block s.scope → settlesBlock c block s.scope w →
    execBlock c block s s' → Follows R (runBlock c block w) s s'
  | [], w, s, s', h, hcut, _, _, hexec => by
    rw [show s' = s from hexec]
    exact .refl h hcut
  | stmt :: rest, w, s, s', h, hcut, hplain, hsettle, hexec => by
    rw [plainBlock] at hplain
    rw [settlesBlock] at hsettle
    rw [runBlock]
    obtain ⟨m, hm, hrest⟩ := hexec
    have hstep := runStmt_sim stmt h hcut hplain.1 hsettle.1 hm
    rcases hrest with ⟨hdone, rfl⟩ | ⟨hdone, hrest⟩
    · -- a return: the rest of the block is walked, and not executed
      refine ⟨fun l t i o ho => ?_, fun o ho => ?_, fun hc => ?_, hstep.sub, fun hlive => ?_⟩
      · exact (hstep.reached l t i o ho).imp_right
          fun hseen => hseen.mono (runBlock_extends rest _).sites
      · rcases hstep.returned o ho with ho | ⟨t, ht, hmem⟩
        · exact .inl ho
        · exact .inr ⟨t, (runBlock_extends rest _).returns t ht, hmem⟩
      · have hc : (m.cut || !rest.isEmpty) = false := hc
        rw [Bool.or_eq_false_iff] at hc
        have hnil : rest = [] := by simpa using hc.2
        subst hnil
        have hsim := hstep.sim hc.1
        exact ⟨hsim.inScope, hsim.held, hsim.refs, hsim.outside, hsim.unref⟩
      · exact absurd (hdone.symm.trans hlive) (by decide)
    · have hmcut := hstep.live hdone
      have hscope := execStmt_scope hm
      have hsim := hstep.sim hmcut
      have hnext := runBlock_sim rest hsim hmcut (hscope ▸ hplain.2) (hscope ▸ hsettle.2) hrest
      exact hstep.andThen (runBlock_extends rest _) hnext

/-- The blocks of a branch: whichever is taken. -/
theorem runBlocks_sim : ∀ (blocks : List (List Stmt)) {w : Walk} {s s' : Path}, Sim R w s →
    s.cut = false → plainBlocks c R blocks s.scope → settlesBlocks c blocks s.scope w →
    execSome c blocks s s' → Follows R (runBlocks c blocks w) s s'
  | [], w, s, s', _, _, _, _, hexec => hexec.elim
  | block :: rest, w, s, s', h, hcut, hplain, hsettle, hexec => by
    rw [plainBlocks] at hplain
    rw [settlesBlocks] at hsettle
    obtain ⟨hblock, hplain⟩ := hplain
    obtain ⟨hinner, hkeeps, hsettle⟩ := hsettle
    rw [runBlocks]
    rcases hexec with ⟨d, hd, rfl⟩ | hexec
    · -- this block: the blocks after it keep what the names around the branch hold
      have hfollows := runBlock_sim block h hcut hblock hinner hd
      have hleft : Follows R (runBlock c block w) s (d.leave s) :=
        ⟨hfollows.reached, hfollows.returned, fun hc => (hfollows.sim hc).leave hfollows.sub,
          fun _ hx => hx, hfollows.live⟩
      exact hleft.extend (runBlocks_extends rest _) fun hc =>
        runBlocks_kept rest (s := d.leave s) hplain hsettle (hleft.sim hc)
    · -- another block: this one kept what the names around the branch held
      have hkept : Sim R (runBlock c block w) s :=
        h.transfer hkeeps (runBlock_unref block hblock fun x hx => h.unref hx)
      exact runBlocks_sim rest hkept hcut hplain hsettle hexec

end

/-! ## The walk of a body -/

/-- The walk before the body. -/
def Walk.start (env : Dict String Taint) : Walk := ⟨env, fun _ => none, [], []⟩

def namesOf (env : Dict String Taint) : List String := env.entries.map Prod.fst

/-- A path before the body: its names hold what the environment says. -/
def Path.start (env : Dict String Taint) : Path where
  scope := namesOf env
  flows x p o := Covers p (taintAt env x) o
  refs _ := none
  reached _ _ _ _ := False
  returned _ := False
  done := false
  cut := false

/-- A body none of whose steps takes a way the walk loses an origin. -/
def Regular (c : Checker) (body : List Stmt) (env : Dict String Taint) : Prop :=
  ∃ R : RefNames, plainBlock c R body (namesOf env) ∧
    settlesBlock c body (namesOf env) (Walk.start env)

theorem start_sim (R : RefNames) (env : Dict String Taint) :
    Sim R (Walk.start env) (Path.start env) := by
  refine ⟨fun {x p o} hx => ?_, fun hx => hx, fun _ => rfl, fun _ => rfl, fun _ => rfl⟩
  cases hget : env.get? x with
  | none =>
    have hx : Covers p (taintAt env x) o := hx
    unfold taintAt at hx
    rw [hget] at hx
    exact absurd hx not_covers_clean
  | some t => exact List.mem_map_of_mem (Dict.get?_eq_some_iff.mp hget)

/-- A program with a source `fetch` and a sink `run`. -/
def sampleChecker : Checker where
  sources := [("fetch", "web")]
  sinks := [("run", [0])]
  declassifiers := []
  persistenceSinks := []
  signatures := []
  knownCallables := ["fetch", "run", "log"]
  anySink := true
  stateNames := []
  stateEnv := []
  scopeEnv := []
  secretConfig := []
  configEnv := []
  endorseAllowed := []
  refusesElse _ := false

def fetched : Expr := .call 0 "fetch" true none none []

/-- `let d = fetch()`, `if true { let e = d; log(e) }`, `return d`. -/
def regularBody : List Stmt :=
  [.bind "d" fetched,
    .branch .literal [[.bind "e" (.name "d"), .eval (.call 1 "log" true none none [.name "e"])]],
    .ret (.name "d")]

theorem regularBody_regular : Regular sampleChecker regularBody Dict.empty := by
  refine ⟨fun _ => False, ?_, ?_⟩
  · simp [regularBody, fetched, plainBlock, plainStmt, plainExpr, plainAll, plainBlocks, plainRef,
      scopeAfter, withName, namesOf, Dict.empty, Checker.unnameable, sampleChecker, Assoc.get?]
  · refine ⟨trivial, ⟨⟨trivial, trivial, trivial⟩, fun x hx => ?_, trivial⟩, trivial, trivial⟩
    have hx : x ∈ ["d"] := hx
    obtain rfl := List.mem_singleton.mp hx
    exact ⟨fun p o h => h, rfl⟩

/-- `let x = fetch()`, `if true { x = "" }`, `run(x)`. -/
def cleanedBody : List Stmt :=
  [.bind "x" fetched, .branch .literal [[.assign "x" .literal]],
    .eval (.call 1 "run" true none none [.name "x"])]

end Revl.TaintFlow
