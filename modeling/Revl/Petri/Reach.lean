import Revl.Petri.Net

/-!
# Bounded reachability (`petri.py`)

A breadth-first walk over the markings a net reaches. It drops a successor that holds too many
tokens on some place, and one more marking than it may keep, and raises a flag for each.

- `Sound`: what holds between two visits, over the markings already visited.
- `walk_ends`: **the walk ends**.
- `reachable_exact`: **a walk that dropped nothing is a proof**, and a dead marking is dead in any
  walk.
- `conclusive_iff`: **the walk drops nothing exactly where its bounds are enough.**
-/

namespace Revl.Petri

/-- The state of the walk. -/
structure Walk where
  seen : Finset Canon
  queue : List Marking
  dead : List Canon
  fired : Finset String
  boundHit : Bool
  overflow : Bool

/-- The result of a walk. -/
structure Reachability where
  markings : Finset Canon
  deadMarkings : List Canon
  fired : Finset String
  deadTransitions : Finset String
  boundHit : Bool
  tokenOverflow : Bool
  deriving DecidableEq

/-- The walk saw all there is. -/
def Reachability.conclusive (r : Reachability) : Bool := !r.boundHit && !r.tokenOverflow

variable (net : Net) (maxStates maxTokens : Int)

/-- An enabled transition followed. -/
def follow (m : Marking) (σ : Walk) (t : Transition) : Walk :=
  let next := t.fire m
  let σ := { σ with fired := insert t.id σ.fired }
  if next.entries.any (fun p => decide (maxTokens < p.2)) then { σ with overflow := true }
  else if canon next ∈ σ.seen then σ
  else if maxStates ≤ σ.seen.card then { σ with boundHit := true }
  else { σ with seen := insert (canon next) σ.seen, queue := σ.queue ++ [next] }

/-- A marking taken off the queue. -/
def visit (m : Marking) (σ : Walk) : Walk :=
  if net.enabled m = [] then { σ with dead := σ.dead ++ [canon m] }
  else (net.enabled m).foldl (follow maxStates maxTokens m) σ

/-- The markings of the queue visited in turn, until it is empty. -/
def walk : Nat → Walk → Option Walk
  | 0, _ => none
  | fuel + 1, σ =>
    match σ.queue with
    | [] => some σ
    | m :: queue => walk fuel (visit net maxStates maxTokens m { σ with queue := queue })

/-- Before the walk. -/
def start (initial : Marking) : Walk := ⟨{canon initial}, [initial], [], ∅, false, false⟩

/-- `reachable`: the walk from an initial marking. -/
def reachable (initial : Marking) : Option Reachability :=
  (walk net maxStates maxTokens (maxStates.toNat + 2) (start initial)).map fun σ =>
    { markings := σ.seen
      deadMarkings := σ.dead
      fired := σ.fired
      deadTransitions := (net.transitions.map Transition.id).toFinset \ σ.fired
      boundHit := σ.boundHit
      tokenOverflow := σ.overflow }

/-! ## What a visit keeps -/

/-- Nothing was dropped so far. -/
def Walk.Whole (σ : Walk) : Prop := σ.boundHit = false ∧ σ.overflow = false

variable (initial : Marking)

/-- What holds between two visits: `done` are the markings visited. -/
structure Sound (done : List Marking) (σ : Walk) : Prop where
  reach : ∀ m ∈ done ++ σ.queue, net.Reach initial m
  nodup : ((done ++ σ.queue).map canon).Nodup
  seen : σ.seen = ((done ++ σ.queue).map canon).toFinset
  initial_seen : canon initial ∈ σ.seen
  dead : σ.dead = (done.filter fun m => decide (net.enabled m = [])).map canon
  fired : ∀ id, id ∈ σ.fired ↔ ∃ m ∈ done, ∃ t ∈ net.enabled m, t.id = id
  whole : σ.Whole → ∀ m ∈ done, ∀ t ∈ net.enabled m, canon (t.fire m) ∈ σ.seen
  bound : (σ.seen.card : Int) ≤ max 1 maxStates

/-- What following some transitions of a marking does. -/
structure Followed (m : Marking) (ts : List Transition) (σ σ' : Walk) : Prop where
  dead : σ'.dead = σ.dead
  fired : ∀ id, id ∈ σ'.fired ↔ id ∈ σ.fired ∨ ∃ t ∈ ts, t.id = id
  whole : σ'.Whole → σ.Whole ∧ ∀ t ∈ ts, canon (t.fire m) ∈ σ'.seen
  more : ∃ more : List Marking, σ'.queue = σ.queue ++ more ∧
    (∀ n ∈ more, ∃ t ∈ ts, n = t.fire m) ∧ (more.map canon).Nodup ∧
      (∀ n ∈ more, canon n ∉ σ.seen) ∧ σ'.seen = σ.seen ∪ (more.map canon).toFinset
  bound : (σ.seen.card : Int) ≤ max 1 maxStates → (σ'.seen.card : Int) ≤ max 1 maxStates

variable {net maxStates maxTokens initial}

theorem Followed.refl (m : Marking) (σ : Walk) : Followed maxStates m [] σ σ where
  dead := rfl
  fired := by simp
  whole := fun h => ⟨h, nofun⟩
  more := ⟨[], by simp⟩
  bound := id

theorem Followed.trans {m : Marking} {ts ts' : List Transition} {σ₁ σ₂ σ₃ : Walk}
    (h : Followed maxStates m ts σ₁ σ₂) (h' : Followed maxStates m ts' σ₂ σ₃) :
    Followed maxStates m (ts ++ ts') σ₁ σ₃ := by
  obtain ⟨more, hqueue, hfrom, hnodup, hnew, hseen⟩ := h.more
  obtain ⟨more', hqueue', hfrom', hnodup', hnew', hseen'⟩ := h'.more
  refine ⟨h'.dead.trans h.dead, fun id => ?_, fun hwhole => ?_, ⟨more ++ more', ?_, ?_, ?_, ?_, ?_⟩,
    fun hle => h'.bound (h.bound hle)⟩
  · rw [h'.fired, h.fired, or_assoc]
    simp only [List.mem_append, or_and_right, exists_or]
  · obtain ⟨hwhole₂, hall'⟩ := h'.whole hwhole
    obtain ⟨hwhole₁, hall⟩ := h.whole hwhole₂
    refine ⟨hwhole₁, fun t ht => ?_⟩
    rcases List.mem_append.mp ht with ht | ht
    · rw [hseen']
      exact Finset.mem_union_left _ (hall t ht)
    · exact hall' t ht
  · rw [hqueue', hqueue, List.append_assoc]
  · intro n hn
    rcases List.mem_append.mp hn with hn | hn
    · obtain ⟨t, ht, heq⟩ := hfrom n hn
      exact ⟨t, List.mem_append_left _ ht, heq⟩
    · obtain ⟨t, ht, heq⟩ := hfrom' n hn
      exact ⟨t, List.mem_append_right _ ht, heq⟩
  · rw [List.map_append]
    refine List.nodup_append'.mpr ⟨hnodup, hnodup', ?_⟩
    rintro c hc hc'
    obtain ⟨n, hn, rfl⟩ := List.mem_map.mp hc'
    refine hnew' n hn ?_
    rw [hseen]
    exact Finset.mem_union_right _ (List.mem_toFinset.mpr hc)
  · intro n hn
    rcases List.mem_append.mp hn with hn | hn
    · exact hnew n hn
    · intro hin
      refine hnew' n hn ?_
      rw [hseen]
      exact Finset.mem_union_left _ hin
  · rw [hseen', hseen, List.map_append, List.toFinset_append, Finset.union_assoc]

theorem follow_followed (m : Marking) (σ : Walk) (t : Transition) :
    Followed maxStates m [t] σ (follow maxStates maxTokens m σ t) := by
  have hfired : ∀ id, id ∈ insert t.id σ.fired ↔ id ∈ σ.fired ∨ ∃ t' ∈ [t], t'.id = id := by
    intro id
    rw [Finset.mem_insert, or_comm]
    simp [eq_comm]
  unfold follow
  simp only
  by_cases hover : (t.fire m).entries.any (fun p => decide (maxTokens < p.2)) = true
  · rw [if_pos hover]
    exact ⟨rfl, hfired, fun h => absurd h.2 (by simp), ⟨[], by simp⟩, id⟩
  rw [if_neg hover]
  by_cases hseen : canon (t.fire m) ∈ σ.seen
  · rw [if_pos hseen]
    exact ⟨rfl, hfired, fun h => ⟨h, by simpa using hseen⟩, ⟨[], by simp⟩, id⟩
  rw [if_neg hseen]
  by_cases hfull : maxStates ≤ σ.seen.card
  · rw [if_pos hfull]
    exact ⟨rfl, hfired, fun h => absurd h.1 (by simp), ⟨[], by simp⟩, id⟩
  rw [if_neg hfull]
  refine ⟨rfl, hfired, fun h => ⟨h, by simp⟩,
    ⟨[t.fire m], rfl, by simp, by simp, by simpa using hseen, ?_⟩, fun _ => ?_⟩
  · rw [List.map_singleton, List.toFinset_cons, List.toFinset_nil]
    exact (Finset.insert_eq _ _).trans (Finset.union_comm _ _)
  · simp only
    rw [Finset.card_insert_of_notMem hseen]
    push_cast
    omega

theorem foldl_followed (m : Marking) (ts : List Transition) (σ : Walk) :
    Followed maxStates m ts σ (ts.foldl (follow maxStates maxTokens m) σ) := by
  induction ts generalizing σ with
  | nil => exact .refl m σ
  | cons t ts ih => exact (follow_followed m σ t).trans (ih _)

theorem sound_start : Sound net maxStates initial [] (start initial) where
  reach := by
    intro m hm
    obtain rfl : m = initial := by simpa [start] using hm
    exact Relation.ReflTransGen.refl
  nodup := by simp [start]
  seen := by simp [start]
  initial_seen := by simp [start]
  dead := rfl
  fired := by simp [start]
  whole := fun _ m hm => absurd hm List.not_mem_nil
  bound := by simp [start]

/-- **What a visit keeps.** -/
theorem Sound.visit {done : List Marking} {σ : Walk} {m : Marking} {queue : List Marking}
    (h : Sound net maxStates initial done σ) (hqueue : σ.queue = m :: queue) :
    Sound net maxStates initial (done ++ [m])
      (visit net maxStates maxTokens m { σ with queue := queue }) := by
  have hsplit : done ++ σ.queue = done ++ [m] ++ queue := by
    rw [hqueue, List.append_assoc]
    rfl
  have hm : net.Reach initial m := h.reach m (by rw [hqueue]; simp)
  unfold Petri.visit
  by_cases hdead : net.enabled m = []
  · rw [if_pos hdead]
    refine ⟨?_, ?_, ?_, h.initial_seen, ?_, fun id => ?_, fun hwhole n hn t ht => ?_, h.bound⟩
    · simp only
      rw [← hsplit]
      exact h.reach
    · simp only
      rw [← hsplit]
      exact h.nodup
    · simp only
      rw [← hsplit]
      exact h.seen
    · simp only
      rw [List.filter_append, List.filter_singleton, decide_eq_true hdead, List.map_append, h.dead]
      rfl
    · simp only
      rw [h.fired]
      simp [hdead]
    · rcases List.mem_append.mp hn with hn | hn
      · exact h.whole hwhole n hn t ht
      · rw [List.mem_singleton.mp hn, hdead] at ht
        cases ht
  · rw [if_neg hdead]
    have hf : Followed maxStates m (net.enabled m) { σ with queue := queue }
        ((net.enabled m).foldl (follow maxStates maxTokens m) { σ with queue := queue }) :=
      foldl_followed m _ _
    obtain ⟨more, hmore, hfrom, hnodup, hnew, hseen⟩ := hf.more
    have hall : done ++ [m] ++ (queue ++ more) = done ++ σ.queue ++ more := by
      rw [hsplit]
      exact (List.append_assoc _ queue more).symm
    refine ⟨?_, ?_, ?_, ?_, ?_, fun id => ?_, fun hwhole n hn t ht => ?_, hf.bound h.bound⟩
    · rw [hmore, hall]
      intro n hn
      rcases List.mem_append.mp hn with hn | hn
      · exact h.reach n hn
      · obtain ⟨t, ht, rfl⟩ := hfrom n hn
        obtain ⟨hmem, hen⟩ := (net.mem_enabled).mp ht
        exact hm.tail ⟨t, hmem, hen, rfl⟩
    · rw [hmore, hall, List.map_append]
      refine List.nodup_append'.mpr ⟨h.nodup, hnodup, ?_⟩
      rintro c hc hc'
      obtain ⟨n, hn, rfl⟩ := List.mem_map.mp hc'
      refine hnew n hn ?_
      simp only
      rw [h.seen]
      exact List.mem_toFinset.mpr hc
    · rw [hmore, hall, hseen, List.map_append, List.toFinset_append, ← h.seen]
    · rw [hseen]
      exact Finset.mem_union_left _ h.initial_seen
    · rw [hf.dead, List.filter_append, List.filter_singleton, decide_eq_false hdead,
        cond_false, List.append_nil]
      exact h.dead
    · rw [hf.fired]
      simp only [h.fired, List.mem_append, or_and_right, exists_or, List.mem_singleton,
        exists_eq_left]
    · obtain ⟨hwhole', hsucc⟩ := hf.whole hwhole
      rcases List.mem_append.mp hn with hn | hn
      · rw [hseen]
        exact Finset.mem_union_left _ (h.whole hwhole' n hn t ht)
      · obtain rfl := List.mem_singleton.mp hn
        exact hsucc t ht

/-- The visited markings are no more than the walk may keep. -/
theorem Sound.length_le {done : List Marking} {σ : Walk} (h : Sound net maxStates initial done σ) :
    done.length + σ.queue.length ≤ maxStates.toNat + 1 := by
  have hcard : σ.seen.card = done.length + σ.queue.length := by
    rw [h.seen, List.toFinset_card_of_nodup h.nodup, List.length_map, List.length_append]
  have hbound := h.bound
  omega

/-- **The walk ends**, with every marking it queued visited. -/
theorem walk_ends {done : List Marking} {σ : Walk} (h : Sound net maxStates initial done σ)
    (maxTokens : Int) (fuel : Nat) (hfuel : maxStates.toNat + 1 < done.length + fuel) :
    ∃ done' σ', walk net maxStates maxTokens fuel σ = some σ' ∧
      Sound net maxStates initial done' σ' ∧ σ'.queue = [] := by
  induction fuel generalizing done σ with
  | zero =>
    have hle := h.length_le
    omega
  | succ fuel ih =>
    cases hqueue : σ.queue with
    | nil =>
      refine ⟨done, σ, ?_, h, hqueue⟩
      rw [walk]
      simp only [hqueue]
    | cons m queue =>
      rw [walk]
      simp only [hqueue]
      refine ih (h.visit hqueue) ?_
      rw [List.length_append, List.length_singleton]
      omega

/-! ## What the walk proves -/

theorem dead_congr {m m' : Marking} (heq : canon m = canon m') (hdead : net.Dead m) :
    net.Dead m' := fun t ht => enabled_congr heq t ▸ hdead t ht

section Exact

variable {σ : Walk} {done : List Marking} (h : Sound net maxStates initial done σ)
  (hempty : σ.queue = [])

include h hempty

theorem Sound.mem_seen {c : Canon} : c ∈ σ.seen ↔ ∃ m ∈ done, canon m = c := by
  rw [h.seen, hempty, List.append_nil, List.mem_toFinset, List.mem_map]

/-- A walk that dropped nothing met every marking the net reaches. -/
theorem Sound.complete (hwhole : σ.Whole) {m : Marking} (hm : net.Reach initial m) :
    canon m ∈ σ.seen := by
  induction hm with
  | refl => exact h.initial_seen
  | tail _ hstep ih =>
    -- the visited marking of the same form takes the step
    obtain ⟨t, ht, hen, rfl⟩ := hstep
    obtain ⟨d, hd, heq⟩ := (h.mem_seen hempty).mp ih
    rw [← fire_congr heq]
    exact h.whole hwhole d hd t (net.mem_enabled.mpr ⟨ht, enabled_congr heq t ▸ hen⟩)

omit hempty in
theorem Sound.mem_dead {c : Canon} :
    c ∈ σ.dead ↔ ∃ m ∈ done, net.Dead m ∧ canon m = c := by
  rw [h.dead, List.mem_map]
  simp only [List.mem_filter, decide_eq_true_eq, ← net.dead_iff, and_assoc]

theorem Sound.dead_nodup : σ.dead.Nodup := by
  rw [h.dead]
  have hnodup := h.nodup
  rw [hempty, List.append_nil] at hnodup
  exact hnodup.sublist (List.filter_sublist.map _)

end Exact

variable (net initial) in
/-- What a walk that dropped nothing says of a net. -/
structure Exact (r : Reachability) : Prop where
  markings : ∀ c, c ∈ r.markings ↔ ∃ m, net.Reach initial m ∧ canon m = c
  deadMarkings : ∀ c, c ∈ r.deadMarkings ↔
    ∃ m, net.Reach initial m ∧ net.Dead m ∧ canon m = c
  deadOnce : r.deadMarkings.Nodup
  deadTransitions : ∀ id, id ∈ r.deadTransitions ↔ (∃ t ∈ net.transitions, t.id = id) ∧
    ∀ t ∈ net.transitions, t.id = id → ∀ m, net.Reach initial m → t.enabled m = false

/-- **A conclusive walk is a proof.** For every net, initial marking and bounds the walk ends; where
it is conclusive its markings are those the net reaches, its dead markings those of them that enable
nothing, each once, and its dead transitions the names all of whose transitions are enabled in none
of them; and in every walk a dead marking is reached and dead. -/
theorem reachable_exact (net : Net) (maxStates maxTokens : Int) (initial : Marking) :
    ∃ r, reachable net maxStates maxTokens initial = some r ∧
      (r.conclusive = true → Exact net initial r) ∧
        ∀ c ∈ r.deadMarkings, ∃ m, net.Reach initial m ∧ net.Dead m ∧ canon m = c := by
  obtain ⟨done, σ, hwalk, hsound, hempty⟩ :=
    walk_ends (sound_start : Sound net maxStates initial [] (start initial)) maxTokens
      (maxStates.toNat + 2) (by simp)
  have hreach : ∀ m ∈ done, net.Reach initial m := fun m hm =>
    hsound.reach m (List.mem_append_left _ hm)
  refine ⟨_, by rw [reachable, hwalk, Option.map_some], fun hconclusive => ?_, fun c hc => ?_⟩
  · have hwhole : σ.Whole := by
      rw [Reachability.conclusive, Bool.and_eq_true, Bool.not_eq_true', Bool.not_eq_true']
        at hconclusive
      exact hconclusive
    have hmet : ∀ m, net.Reach initial m → ∃ d ∈ done, canon d = canon m := fun m hm =>
      (hsound.mem_seen hempty).mp (hsound.complete hempty hwhole hm)
    refine ⟨fun c => ?_, fun c => ?_, hsound.dead_nodup hempty, fun id => ?_⟩
    · refine (hsound.mem_seen hempty).trans ⟨?_, ?_⟩
      · rintro ⟨m, hm, rfl⟩
        exact ⟨m, hreach m hm, rfl⟩
      · rintro ⟨m, hm, rfl⟩
        exact hmet m hm
    · refine hsound.mem_dead.trans ⟨?_, ?_⟩
      · rintro ⟨m, hm, hdead, rfl⟩
        exact ⟨m, hreach m hm, hdead, rfl⟩
      · rintro ⟨m, hm, hdead, rfl⟩
        obtain ⟨d, hd, heq⟩ := hmet m hm
        exact ⟨d, hd, dead_congr heq.symm hdead, heq⟩
    · simp only [Finset.mem_sdiff, List.mem_toFinset, List.mem_map, hsound.fired]
      refine and_congr_right fun _ => ⟨fun hnot t ht hid m hm => ?_, ?_⟩
      · obtain ⟨d, hd, heq⟩ := hmet m hm
        rw [← enabled_congr heq, ← Bool.not_eq_true]
        exact fun hen => hnot ⟨d, hd, t, net.mem_enabled.mpr ⟨ht, hen⟩, hid⟩
      · rintro hall ⟨m, hm, t, ht, hid⟩
        obtain ⟨hmem, hen⟩ := net.mem_enabled.mp ht
        rw [hall t hmem hid m (hreach m hm)] at hen
        cases hen
  · obtain ⟨m, hm, hdead, rfl⟩ := hsound.mem_dead.mp hc
    exact ⟨m, hreach m hm, hdead, rfl⟩

/-! ### Two transitions of one name -/

/-- Arcs to one place. -/
def arc (place : String) : Arcs := Dict.empty.set place 1

/-- A transition that fires once, and one of the same name that never can. -/
def twins : Net where
  transitions := [⟨"t", arc "p", .empty, .empty⟩, ⟨"t", arc "q", .empty, .empty⟩]

/-- One token. -/
def oneToken : Marking := Dict.empty.set "p" 1

/-- The second transition of the name is enabled in no marking the net reaches, the walk is
conclusive, and its name is not listed. -/
theorem twin_not_listed : ∃ r, reachable twins 20000 64 oneToken = some r ∧
    r.conclusive = true ∧ ∃ t ∈ twins.transitions,
      (∀ m, twins.Reach oneToken m → t.enabled m = false) ∧ t.id ∉ r.deadTransitions := by
  have hrun : (reachable twins 20000 64 oneToken).map
      (fun r => (r.conclusive, r.deadTransitions)) = some (true, ∅) := by decide +kernel
  obtain ⟨r, hr, hpair⟩ := Option.map_eq_some_iff.mp hrun
  refine ⟨r, hr, congrArg Prod.fst hpair, ⟨"t", arc "q", .empty, .empty⟩, by simp [twins], ?_, ?_⟩
  · intro m hm
    have hnone : tokens m "q" = 0 := by
      induction hm with
      | refl => decide +kernel
      | tail _ hstep ih =>
        obtain ⟨t, ht, hen, rfl⟩ := hstep
        have hcases : t = ⟨"t", arc "p", .empty, .empty⟩ ∨ t = ⟨"t", arc "q", .empty, .empty⟩ := by
          simpa [twins] using ht
        rcases hcases with rfl | rfl
        · rw [tokens_fire, ih]
          decide +kernel
        · have hcovered := (Bool.and_eq_true _ _ ▸ hen).1
          have hle := covered_iff.mp hcovered "q" 1 (by decide +kernel)
          rw [ih] at hle
          exact absurd hle (by decide)
    have hcovered : covered m (arc "q") = false := by
      rw [← Bool.not_eq_true, covered_iff]
      intro h
      have hle := h "q" 1 (by decide +kernel)
      rw [hnone] at hle
      exact absurd hle (by decide)
    rw [Transition.enabled, hcovered, Bool.false_and]
  · have hnone : r.deadTransitions = ∅ := congrArg Prod.snd hpair
    rw [hnone]
    exact Finset.notMem_empty _

/-! ## When the bounds are enough -/

/-- Some place holds more tokens than the walk may count. -/
def Over (maxTokens : Int) (m : Marking) : Prop := ∃ p ∈ canon m, maxTokens < p.2

variable (net maxStates maxTokens initial) in
/-- No transition that fires puts more than `maxTokens` on a place, and no more markings are reached
than the walk may keep. -/
structure Enough : Prop where
  tokens : ∀ m, net.Reach initial m → ∀ t ∈ net.enabled m, ¬ Over maxTokens (t.fire m)
  states : ∃ S : Finset Canon, (S.card : Int) ≤ max 1 maxStates ∧
    ∀ m, net.Reach initial m → canon m ∈ S

theorem over_fire_iff {t : Transition} {m : Marking} :
    (t.fire m).entries.any (fun p => decide (maxTokens < p.2)) = true ↔
      Over maxTokens (t.fire m) := by
  have hentry : ∀ p ∈ (t.fire m).entries, p.2 ≠ 0 := fun p hp =>
    of_decide_eq_true (List.mem_filter.mp hp).2
  simp only [List.any_eq_true, decide_eq_true_eq, Over, canon, List.mem_insertionSort,
    List.mem_filter]
  exact exists_congr fun p => ⟨fun h => ⟨⟨h.1, hentry p h.1⟩, h.2⟩, fun h => ⟨h.1.1, h.2⟩⟩

section Enough

variable {S : Finset Canon} (hS : (S.card : Int) ≤ max 1 maxStates) {m : Marking}

include hS in
/-- Where all there is fits, a walk drops a marking only for its tokens. -/
theorem foldl_whole : ∀ (ts : List Transition) (σ : Walk), σ.seen ⊆ S → σ.seen.Nonempty →
    (∀ t ∈ ts, canon (t.fire m) ∈ S) →
      ((ts.foldl (follow maxStates maxTokens m) σ).Whole ↔
        σ.Whole ∧ ∀ t ∈ ts, ¬ Over maxTokens (t.fire m))
  | [], σ, _, _, _ => by simp
  | t :: ts, σ, hσ, hne, hts => by
    have ht := hts t List.mem_cons_self
    have hstep : (follow maxStates maxTokens m σ t).Whole ↔
        σ.Whole ∧ ¬ Over maxTokens (t.fire m) := by
      rw [← over_fire_iff]
      unfold follow
      dsimp only
      split_ifs with hover hseen hfull
      · simp [Walk.Whole, hover]
      · simp [Walk.Whole, hover]
      · -- one marking more than fits
        have hcard := Finset.card_le_card (Finset.insert_subset ht hσ)
        rw [Finset.card_insert_of_notMem hseen] at hcard
        have := hne.card_pos
        omega
      · simp [Walk.Whole, hover]
    obtain ⟨more, -, hfrom, -, -, hseen⟩ :=
      (follow_followed m σ t : Followed _ _ _ _ (follow maxStates maxTokens m σ t)).more
    have hsub : (follow maxStates maxTokens m σ t).seen ⊆ S := by
      rw [hseen]
      refine Finset.union_subset hσ fun c hc => ?_
      obtain ⟨n, hn, rfl⟩ := List.mem_map.mp (List.mem_toFinset.mp hc)
      obtain ⟨t', ht', rfl⟩ := hfrom n hn
      exact List.mem_singleton.mp ht' ▸ ht
    rw [List.foldl_cons, foldl_whole ts _ hsub (by rw [hseen]; exact hne.inl)
      (fun t' ht' => hts t' (List.mem_cons_of_mem _ ht')), hstep, and_assoc, List.forall_mem_cons]

/-- The walk dropped nothing exactly where no visited marking goes on to too many tokens. -/
def Kept (net : Net) (maxTokens : Int) (done : List Marking) (σ : Walk) : Prop :=
  σ.Whole ↔ ∀ m ∈ done, ∀ t ∈ net.enabled m, ¬ Over maxTokens (t.fire m)

include hS in
theorem walk_whole (hreach : ∀ m, net.Reach initial m → canon m ∈ S) {σ' : Walk} :
    ∀ (fuel : Nat) (done : List Marking) (σ : Walk), Sound net maxStates initial done σ →
      Kept net maxTokens done σ → walk net maxStates maxTokens fuel σ = some σ' →
        ∃ done', Sound net maxStates initial done' σ' ∧ σ'.queue = [] ∧
          Kept net maxTokens done' σ'
  | 0, _, _, _, _, hwalk => by cases hwalk
  | fuel + 1, done, σ, h, hkept, hwalk => by
    rw [walk] at hwalk
    cases hqueue : σ.queue with
    | nil =>
      simp only [hqueue, Option.some.injEq] at hwalk
      exact ⟨done, hwalk ▸ h, hwalk ▸ hqueue, hwalk ▸ hkept⟩
    | cons m queue =>
      simp only [hqueue] at hwalk
      refine walk_whole hreach fuel _ _ (h.visit hqueue) ?_ hwalk
      have hm : net.Reach initial m := h.reach m (by simp [hqueue])
      have hfire : ∀ t ∈ net.enabled m, canon (t.fire m) ∈ S := fun t ht =>
        hreach _ (hm.tail ⟨t, (net.mem_enabled.mp ht).1, (net.mem_enabled.mp ht).2, rfl⟩)
      have hseen : σ.seen ⊆ S := by
        rw [h.seen]
        intro c hc
        obtain ⟨n, hn, rfl⟩ := List.mem_map.mp (List.mem_toFinset.mp hc)
        exact hreach n (h.reach n hn)
      have hvisit : (visit net maxStates maxTokens m { σ with queue := queue }).Whole ↔
          σ.Whole ∧ ∀ t ∈ net.enabled m, ¬ Over maxTokens (t.fire m) := by
        unfold visit
        split_ifs with hdead
        · simp [hdead, Walk.Whole]
        · exact foldl_whole hS _ _ hseen ⟨_, h.initial_seen⟩ hfire
      unfold Kept at hkept ⊢
      rw [hvisit, hkept, List.forall_mem_append, List.forall_mem_singleton]

end Enough

/-- **A walk is conclusive exactly where its bounds are enough**, for every net, initial marking and
bounds. -/
theorem conclusive_iff (net : Net) (maxStates maxTokens : Int) (initial : Marking) :
    ∃ r, reachable net maxStates maxTokens initial = some r ∧
      (r.conclusive = true ↔ Enough net maxStates maxTokens initial) := by
  obtain ⟨done, σ, hwalk, hsound, hempty⟩ :=
    walk_ends (sound_start : Sound net maxStates initial [] (start initial)) maxTokens
      (maxStates.toNat + 2) (by simp)
  have hiff : ∀ S : Finset Canon, (S.card : Int) ≤ max 1 maxStates →
      (∀ m, net.Reach initial m → canon m ∈ S) → (σ.Whole ↔
        ∀ m, net.Reach initial m → ∀ t ∈ net.enabled m, ¬ Over maxTokens (t.fire m)) := by
    intro S hS hreach
    obtain ⟨done', hsound', hempty', hkept⟩ := walk_whole hS hreach _ _ _ sound_start
      (by simp [Kept, start, Walk.Whole]) hwalk
    refine ⟨fun hwhole m hm t ht => ?_, fun h => hkept.mpr fun m hm =>
      h m (hsound'.reach m (List.mem_append_left _ hm))⟩
    -- the visited marking of the same form goes on to the same
    obtain ⟨d, hd, heq⟩ := (hsound'.mem_seen hempty').mp (hsound'.complete hempty' hwhole hm)
    have ht' := net.mem_enabled.mp ht
    have hover := hkept.mp hwhole d hd t
      (net.mem_enabled.mpr ⟨ht'.1, enabled_congr heq t ▸ ht'.2⟩)
    rwa [Over, fire_congr heq] at hover
  refine ⟨_, by rw [reachable, hwalk, Option.map_some], ?_⟩
  rw [Reachability.conclusive, Bool.and_eq_true, Bool.not_eq_true', Bool.not_eq_true']
  constructor
  · intro hwhole
    have hall := fun m hm => hsound.complete hempty hwhole (m := m) hm
    exact ⟨(hiff _ hsound.bound hall).mp hwhole, _, hsound.bound, hall⟩
  · rintro ⟨htokens, S, hS, hreach⟩
    exact (hiff S hS hreach).mpr htokens

end Revl.Petri
