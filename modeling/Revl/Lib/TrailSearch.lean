import Revl.Lib.Assoc

/-!
# Depth-first search that cuts at its trail and remembers what it found

The search gives every node of a table the leaves it reaches. It returns nothing for a node on
the trail it came by, and keeps what it found at a node for every later visit, also where the
trail had cut something off.

- `Graph`: the nodes of a table in order, each with the names it calls in order; `resolve`,
  `search`: the search.
- `resolve_kept`, `resolve_sound`: the memo is only added to, and holds nothing that is not
  reached.
- `DeadEnd`: a path whose last node reaches a leaf only through nodes of the path.
- `search_exact`, `search_misses`, `search_exact_iff`: **the search is exact in every order of
  its table exactly where the table has no dead end.**
-/

namespace TrailSearch

universe u

variable {N : Type u} [DecidableEq N]

/-- A table: the nodes, what each calls, and which names are leaves. -/
structure Graph (N : Type u) where
  nodes : List N
  calls : N → List N
  leaf : N → Bool

/-- What the search found so far, by node. -/
abbrev Memo (N : Type u) := List (N × Finset N)

variable (G : Graph N)

/-- One callee: a leaf is found, a node is searched, any other name is passed over. -/
def visit (search : N → Memo N → Finset N × Memo N) (acc : Finset N × Memo N) (callee : N) :
    Finset N × Memo N :=
  if G.leaf callee then (insert callee acc.1, acc.2)
  else if callee ∈ G.nodes then
    let r := search callee acc.2
    (acc.1 ∪ r.1, r.2)
  else acc

/-- The search of one node. `fuel` bounds how many nodes a trail can still take; with none left
every node is on the trail. -/
def resolve : Nat → List N → N → Memo N → Finset N × Memo N
  | 0, _, name, memo => ((Assoc.get? memo name).getD ∅, memo)
  | fuel + 1, trail, name, memo =>
    match Assoc.get? memo name with
    | some found => (found, memo)
    | none =>
      if name ∈ trail then (∅, memo)
      else
        let r := (G.calls name).foldl (visit G (resolve fuel (name :: trail))) (∅, memo)
        (r.1, r.2 ++ [(name, r.1)])

/-- The search of every node in turn. -/
def search : Memo N :=
  G.nodes.foldl (fun memo name => (resolve G (G.nodes.length + 1) [] name memo).2) []

/-! ## Paths -/

/-- A call of one node by another. -/
def Step (f g : N) : Prop := g ∈ G.calls f ∧ G.leaf g = false ∧ g ∈ G.nodes

/-- A leaf some path of calls leads to. -/
def Reaches (f e : N) : Prop :=
  ∃ g, Relation.ReflTransGen (Step G) f g ∧ e ∈ G.calls g ∧ G.leaf e = true

/-- A memo that holds nothing that is not reached. -/
def Sound (memo : Memo N) : Prop :=
  ∀ f found, Assoc.get? memo f = some found → ∀ e ∈ found, Reaches G f e

/-- A memo whose answers are complete. -/
def Complete (memo : Memo N) : Prop :=
  ∀ f found, Assoc.get? memo f = some found → ∀ e, Reaches G f e → e ∈ found

/-- A path of calls, the last node first, that meets no node twice. -/
structure Trail (trail : List N) : Prop where
  chain : trail.IsChain fun a b => Step G b a
  nodup : trail.Nodup
  nodes : ∀ f ∈ trail, f ∈ G.nodes

variable {G}

omit [DecidableEq N] in
theorem Reaches.leaf {f e : N} (h : e ∈ G.calls f) (he : G.leaf e = true) : Reaches G f e :=
  ⟨f, .refl, h, he⟩

omit [DecidableEq N] in
theorem Reaches.step {f g e : N} (h : Step G f g) (he : Reaches G g e) : Reaches G f e := by
  obtain ⟨k, hpath, hcall⟩ := he
  exact ⟨k, .head h hpath, hcall⟩

theorem get?_append_new {memo : Memo N} {name : N} {found : Finset N}
    (hnone : Assoc.get? memo name = none) {f : N} {r : Finset N} :
    Assoc.get? (memo ++ [(name, found)]) f = some r ↔
      Assoc.get? memo f = some r ∨ f = name ∧ r = found := by
  rw [Assoc.get?_append, Assoc.get?_cons, Assoc.get?_nil, Option.none_or]
  by_cases hf : name = f
  · subst hf
    simp [hnone, eq_comm]
  · simp [hf, Ne.symm hf]

/-! ## What the search keeps -/

/-- A search that adds to the memo, and leaves the nodes of the trail alone. -/
def Keeps (trail : List N) (memo memo' : Memo N) : Prop :=
  (∀ f found, Assoc.get? memo f = some found → Assoc.get? memo' f = some found) ∧
    ∀ f ∈ trail, Assoc.get? memo' f = Assoc.get? memo f

theorem Keeps.refl (trail : List N) (memo : Memo N) : Keeps trail memo memo :=
  ⟨fun _ _ h => h, fun _ _ => rfl⟩

theorem Keeps.trans {trail : List N} {m₁ m₂ m₃ : Memo N} (h : Keeps trail m₁ m₂)
    (h' : Keeps trail m₂ m₃) : Keeps trail m₁ m₃ :=
  ⟨fun f found hf => h'.1 f found (h.1 f found hf), fun f hf => (h'.2 f hf).trans (h.2 f hf)⟩

/-- What every visit keeps, the loop over the callees keeps. -/
theorem foldl_visit_inv {search : N → Memo N → Finset N × Memo N}
    {P : Finset N × Memo N → Prop} (callees : List N)
    (hstep : ∀ acc, P acc → ∀ callee ∈ callees, P (visit G search acc callee))
    {acc : Finset N × Memo N} (h : P acc) : P (callees.foldl (visit G search) acc) := by
  induction callees generalizing acc with
  | nil => exact h
  | cons c callees ih =>
    exact ih (fun acc hacc callee hmem => hstep acc hacc callee (List.mem_cons_of_mem _ hmem))
      (hstep acc h c List.mem_cons_self)

theorem loop_keeps {trail : List N} {search : N → Memo N → Finset N × Memo N}
    (h : ∀ c memo, Keeps trail memo (search c memo).2) (callees : List N)
    (acc : Finset N × Memo N) : Keeps trail acc.2 (callees.foldl (visit G search) acc).2 := by
  refine foldl_visit_inv (P := fun acc' => Keeps trail acc.2 acc'.2) _ ?_ (Keeps.refl _ _)
  intro acc' hacc callee _
  unfold visit
  split_ifs
  · exact hacc
  · exact hacc.trans (h _ _)
  · exact hacc

theorem resolve_kept (fuel : Nat) (trail : List N) (name : N) (memo : Memo N) :
    Keeps trail memo (resolve G fuel trail name memo).2 := by
  induction fuel generalizing trail name memo with
  | zero => exact Keeps.refl trail memo
  | succ fuel ih =>
    rw [resolve]
    cases hget : Assoc.get? memo name with
    | some found => exact Keeps.refl trail memo
    | none =>
      simp only
      split_ifs with htrail
      · exact Keeps.refl trail memo
      · have hloop := loop_keeps (G := G) (ih (name :: trail)) (G.calls name) (∅, memo)
        have hname := hloop.2 name List.mem_cons_self
        rw [hget] at hname
        refine ⟨fun f found hf => (get?_append_new hname).mpr (.inl (hloop.1 f found hf)), ?_⟩
        intro f hf
        have hne : f ≠ name := fun heq => htrail (heq ▸ hf)
        rw [← hloop.2 f (List.mem_cons_of_mem _ hf), Assoc.get?_append, Assoc.get?_cons,
          Assoc.get?_nil, Option.none_or, if_neg (Ne.symm hne), Option.none_or]

/-- Nothing is remembered of a node while its callees are searched. -/
theorem loop_none {fuel : Nat} {trail : List N} {name : N} {memo : Memo N}
    (hget : Assoc.get? memo name = none) : Assoc.get? ((G.calls name).foldl
      (visit G (resolve G fuel (name :: trail))) (∅, memo)).2 name = none :=
  ((loop_keeps (resolve_kept fuel (name :: trail)) _ (∅, memo)).2 name
    List.mem_cons_self).trans hget

/-- **The search finds nothing that is not reached.** -/
theorem resolve_sound (fuel : Nat) (trail : List N) (name : N) {memo : Memo N}
    (hmemo : Sound G memo) :
    (∀ e ∈ (resolve G fuel trail name memo).1, Reaches G name e) ∧
      Sound G (resolve G fuel trail name memo).2 := by
  induction fuel generalizing trail name memo with
  | zero =>
    refine ⟨fun e he => ?_, hmemo⟩
    cases hget : Assoc.get? memo name with
    | none => simp [resolve, hget] at he
    | some found =>
      rw [resolve, hget] at he
      exact hmemo name found hget e he
  | succ fuel ih =>
    rw [resolve]
    cases hget : Assoc.get? memo name with
    | some found => exact ⟨hmemo name found hget, hmemo⟩
    | none =>
      simp only
      split_ifs with htrail
      · exact ⟨fun e he => absurd he (Finset.notMem_empty e), hmemo⟩
      · have hloop : (∀ e ∈ ((G.calls name).foldl (visit G (resolve G fuel (name :: trail)))
            (∅, memo)).1, Reaches G name e) ∧ Sound G ((G.calls name).foldl
              (visit G (resolve G fuel (name :: trail))) (∅, memo)).2 := by
          refine foldl_visit_inv (P := fun acc => (∀ e ∈ acc.1, Reaches G name e) ∧
            Sound G acc.2) _ ?_ ⟨fun e he => absurd he (Finset.notMem_empty e), hmemo⟩
          rintro acc ⟨hfound, hacc⟩ callee hcallee
          unfold visit
          split_ifs with hleaf hnode
          · refine ⟨fun e he => ?_, hacc⟩
            rcases Finset.mem_insert.mp he with rfl | he
            · exact .leaf hcallee hleaf
            · exact hfound e he
          · obtain ⟨hres, hmemo'⟩ := ih (name :: trail) callee hacc
            refine ⟨fun e he => ?_, hmemo'⟩
            rcases Finset.mem_union.mp he with he | he
            · exact hfound e he
            · exact (hres e he).step ⟨hcallee, by simpa using hleaf, hnode⟩
          · exact ⟨hfound, hacc⟩
        refine ⟨hloop.1, fun f found hf => ?_⟩
        rcases (get?_append_new (loop_none hget)).mp hf with hf | ⟨rfl, rfl⟩
        · exact hloop.2 f found hf
        · exact hloop.1

/-! ## Without a dead end -/

variable (G) in
/-- A path whose last node reaches a leaf only through nodes of the path. -/
structure DeadEndAt (trail : List N) (v e : N) : Prop where
  path : Trail G (v :: trail)
  reaches : Reaches G v e
  not_call : e ∉ G.calls v
  next : ∀ g, Step G v g → Reaches G g e → g ∈ v :: trail

variable (G) in
/-- Some path is a dead end for some leaf. -/
def DeadEnd : Prop := ∃ trail v e, DeadEndAt G trail v e

/-- A node on the trail changes nothing. -/
theorem resolve_on_trail {fuel : Nat} {trail : List N} {name : N} (h : name ∈ trail)
    (memo : Memo N) : (resolve G fuel trail name memo).2 = memo := by
  cases fuel with
  | zero => rfl
  | succ fuel =>
    rw [resolve]
    cases Assoc.get? memo name with
    | some found => rfl
    | none =>
      simp only
      rw [if_pos h]

/-- What the loop over the callees of a node finds, where a search of one of them that extends
the trail finds all it reaches. -/
theorem loop_complete {fuel : Nat} {trail : List N} {name : N}
    (hres : ∀ c memo, Step G name c → c ∉ name :: trail → Complete G memo →
      (∀ e, Reaches G c e → e ∈ (resolve G fuel (name :: trail) c memo).1) ∧
        Complete G (resolve G fuel (name :: trail) c memo).2)
    (callees : List N) (hcallees : ∀ c ∈ callees, c ∈ G.calls name) (acc : Finset N × Memo N)
    (hacc : Complete G acc.2) :
    Complete G (callees.foldl (visit G (resolve G fuel (name :: trail))) acc).2 ∧
      acc.1 ⊆ (callees.foldl (visit G (resolve G fuel (name :: trail))) acc).1 ∧
        ∀ c ∈ callees, (G.leaf c = true →
          c ∈ (callees.foldl (visit G (resolve G fuel (name :: trail))) acc).1) ∧
            (Step G name c → c ∉ name :: trail → ∀ e, Reaches G c e →
              e ∈ (callees.foldl (visit G (resolve G fuel (name :: trail))) acc).1) := by
  induction callees generalizing acc with
  | nil => exact ⟨hacc, Finset.Subset.refl _, fun c hc => absurd hc List.not_mem_nil⟩
  | cons c callees ih =>
    have hc : c ∈ G.calls name := hcallees c List.mem_cons_self
    have hvisit : Complete G (visit G (resolve G fuel (name :: trail)) acc c).2 ∧
        acc.1 ⊆ (visit G (resolve G fuel (name :: trail)) acc c).1 ∧
          (G.leaf c = true → c ∈ (visit G (resolve G fuel (name :: trail)) acc c).1) ∧
            (Step G name c → c ∉ name :: trail → ∀ e, Reaches G c e →
              e ∈ (visit G (resolve G fuel (name :: trail)) acc c).1) := by
      unfold visit
      split_ifs with hleaf hnode
      · refine ⟨hacc, Finset.subset_insert _ _, fun _ => Finset.mem_insert_self _ _, ?_⟩
        intro hstep
        rw [hstep.2.1] at hleaf
        cases hleaf
      · have hstep : Step G name c := ⟨hc, by simpa using hleaf, hnode⟩
        by_cases htrail : c ∈ name :: trail
        · refine ⟨by rw [resolve_on_trail htrail]; exact hacc, Finset.subset_union_left, ?_, ?_⟩
          · exact fun h => absurd h hleaf
          · exact fun _ hnot => absurd htrail hnot
        · obtain ⟨hfound, hmemo⟩ := hres c acc.2 hstep htrail hacc
          refine ⟨hmemo, Finset.subset_union_left, fun h => absurd h hleaf, ?_⟩
          exact fun _ _ e he => Finset.mem_union_right _ (hfound e he)
      · refine ⟨hacc, Finset.Subset.refl _, fun h => absurd h hleaf, ?_⟩
        exact fun hstep => absurd hstep.2.2 hnode
    obtain ⟨hcomplete, hsub, hrest⟩ :=
      ih (fun d hd => hcallees d (List.mem_cons_of_mem _ hd)) _ hvisit.1
    refine ⟨hcomplete, hvisit.2.1.trans hsub, fun d hd => ?_⟩
    rcases List.mem_cons.mp hd with rfl | hd
    · exact ⟨fun h => hsub (hvisit.2.2.1 h), fun hs hn e he => hsub (hvisit.2.2.2 hs hn e he)⟩
    · exact hrest d hd

omit [DecidableEq N] in
theorem Trail.length_le {trail : List N} (h : Trail G trail) : trail.length ≤ G.nodes.length :=
  (h.nodup.subperm h.nodes).length_le

/-- **Without a dead end every answer is complete.** The induction is on the nodes a trail can
still take; a callee on the trail is not needed, since another one reaches the same leaf. -/
theorem resolve_complete (hno : ¬ DeadEnd G) (fuel : Nat) {trail : List N} {name : N}
    {memo : Memo N} (hmemo : Complete G memo) (htrail : Trail G (name :: trail))
    (hfuel : G.nodes.length < trail.length + fuel + 1) :
    (∀ e, Reaches G name e → e ∈ (resolve G fuel trail name memo).1) ∧
      Complete G (resolve G fuel trail name memo).2 := by
  induction fuel generalizing trail name memo with
  | zero =>
    have := htrail.length_le
    rw [List.length_cons] at this
    omega
  | succ fuel ih =>
    have hnot : name ∉ trail := (List.nodup_cons.mp htrail.nodup).1
    rw [resolve]
    cases hget : Assoc.get? memo name with
    | some found => exact ⟨hmemo name found hget, hmemo⟩
    | none =>
      simp only
      rw [if_neg hnot]
      have hsearch : ∀ c m, Step G name c → c ∉ name :: trail → Complete G m →
          (∀ e, Reaches G c e → e ∈ (resolve G fuel (name :: trail) c m).1) ∧
            Complete G (resolve G fuel (name :: trail) c m).2 := by
        intro c m hstep hc hm
        refine ih hm ⟨List.isChain_cons_cons.mpr ⟨hstep, htrail.chain⟩,
          List.nodup_cons.mpr ⟨hc, htrail.nodup⟩, fun f hf => ?_⟩ ?_
        · rcases List.mem_cons.mp hf with rfl | hf
          · exact hstep.2.2
          · exact htrail.nodes f hf
        · rw [List.length_cons]
          omega
      obtain ⟨hcomplete, -, hfound⟩ := loop_complete hsearch
        (G.calls name) (fun c hc => hc) (∅, memo) hmemo
      have hall : ∀ e, Reaches G name e → e ∈ ((G.calls name).foldl
          (visit G (resolve G fuel (name :: trail))) (∅, memo)).1 := by
        intro e he
        by_contra hmiss
        refine hno ⟨trail, name, e, htrail, he, ?_, ?_⟩
        · intro hcall
          obtain ⟨-, -, -, hleaf⟩ := he
          exact hmiss ((hfound e hcall).1 hleaf)
        · intro g hstep hg
          by_contra hout
          exact hmiss ((hfound g hstep.1).2 hstep hout e hg)
      refine ⟨hall, fun f found hf => ?_⟩
      rcases (get?_append_new (loop_none hget)).mp hf with hf | ⟨rfl, rfl⟩
      · exact hcomplete f found hf
      · exact hall

/-- The search of the nodes one after another keeps what each of them keeps. -/
theorem search_inv {P : Memo N → Prop} (nodes : List N)
    (hstep : ∀ memo, P memo → ∀ f ∈ nodes,
      P (resolve G (G.nodes.length + 1) [] f memo).2) {memo : Memo N} (h : P memo) :
    P (nodes.foldl (fun memo f => (resolve G (G.nodes.length + 1) [] f memo).2) memo) := by
  induction nodes generalizing memo with
  | nil => exact h
  | cons f nodes ih =>
    exact ih (fun memo hm g hg => hstep memo hm g (List.mem_cons_of_mem _ hg))
      (hstep memo h f List.mem_cons_self)

theorem sound_nil : Sound G [] := by
  intro f found h
  rw [Assoc.get?_nil] at h
  cases h

theorem complete_nil : Complete G [] := by
  intro f found h
  rw [Assoc.get?_nil] at h
  cases h

/-- **Every answer of the search is reached.** -/
theorem search_sound : Sound G (search G) :=
  search_inv (P := Sound G) G.nodes (fun _ hm f _ => (resolve_sound _ [] f hm).2) sound_nil

/-- A node searched from the top has an answer. -/
theorem resolve_top_entry (fuel : Nat) (name : N) (memo : Memo N) :
    ∃ found, Assoc.get? (resolve G (fuel + 1) [] name memo).2 name = some found := by
  rw [resolve]
  cases hget : Assoc.get? memo name with
  | some found => exact ⟨found, hget⟩
  | none => exact ⟨_, (get?_append_new (loop_none hget)).mpr (.inr ⟨rfl, rfl⟩)⟩

/-- **Every node has an answer.** -/
theorem search_entry {f : N} (hf : f ∈ G.nodes) :
    ∃ found, Assoc.get? (search G) f = some found := by
  obtain ⟨before, after, hnodes⟩ := List.mem_iff_append.mp hf
  unfold search
  obtain ⟨found, hfound⟩ := resolve_top_entry G.nodes.length f
    (before.foldl (fun memo name => (resolve G (G.nodes.length + 1) [] name memo).2) [])
  generalize hlen : G.nodes.length = fuel at hfound ⊢
  rw [hnodes, List.foldl_append, List.foldl_cons]
  subst hlen
  refine search_inv (P := fun memo => ∃ found, Assoc.get? memo f = some found) after ?_
    ⟨found, hfound⟩
  rintro memo ⟨r, hr⟩ g -
  exact ⟨r, (resolve_kept _ [] g memo).1 f r hr⟩

/-- **Without a dead end the search is exact.** -/
theorem search_exact (hno : ¬ DeadEnd G) {f : N} (hf : f ∈ G.nodes) :
    ∃ found, Assoc.get? (search G) f = some found ∧ ∀ e, e ∈ found ↔ Reaches G f e := by
  obtain ⟨found, hfound⟩ := search_entry hf
  have hcomplete : Complete G (search G) := by
    refine search_inv (P := Complete G) G.nodes (fun memo hm g hg => ?_) complete_nil
    refine (resolve_complete hno _ hm ⟨List.isChain_singleton g, List.nodup_singleton g, ?_⟩ ?_).2
    · intro k hk
      rw [List.mem_singleton.mp hk]
      exact hg
    · rw [List.length_nil]
      omega
  exact ⟨found, hfound, fun e => ⟨search_sound f found hfound e, hcomplete f found hfound e⟩⟩

/-! ## With a dead end -/

/-- A memo that misses a leaf at a node. -/
def Misses (v e : N) (memo : Memo N) : Prop :=
  ∃ found, Assoc.get? memo v = some found ∧ e ∉ found

theorem Misses.keeps {v e : N} {trail : List N} {memo memo' : Memo N} (h : Misses v e memo)
    (hkeeps : Keeps trail memo memo') : Misses v e memo' := by
  obtain ⟨found, hget, he⟩ := h
  exact ⟨found, hkeeps.1 v found hget, he⟩

/-- At the last node of a dead end the leaf is missed: a callee on the path gives nothing, since
no node of the path has an answer yet, and no other callee reaches it. -/
theorem resolve_dead_end {v e : N} {trail : List N} (hnot : v ∉ trail) (hcall : e ∉ G.calls v)
    (hdead : ∀ g, Step G v g → Reaches G g e → g ∈ v :: trail) (fuel : Nat) :
    Misses v e (resolve G (fuel + 1) trail v []).2 := by
  rw [resolve, Assoc.get?_nil]
  simp only
  rw [if_neg hnot]
  have hloop : Sound G ((G.calls v).foldl (visit G (resolve G fuel (v :: trail))) (∅, [])).2 ∧
      Keeps (v :: trail) []
        ((G.calls v).foldl (visit G (resolve G fuel (v :: trail))) (∅, [])).2 ∧
      e ∉ ((G.calls v).foldl (visit G (resolve G fuel (v :: trail))) (∅, [])).1 := by
    refine foldl_visit_inv (P := fun acc => Sound G acc.2 ∧ Keeps (v :: trail) [] acc.2 ∧
      e ∉ acc.1) _ ?_ ⟨sound_nil, Keeps.refl _ _, Finset.notMem_empty e⟩
    rintro acc ⟨hsound, hkeeps, hmiss⟩ c hc
    unfold visit
    split_ifs with hleaf hnode
    · refine ⟨hsound, hkeeps, fun he => ?_⟩
      rcases Finset.mem_insert.mp he with rfl | he
      · exact hcall hc
      · exact hmiss he
    · obtain ⟨hfound, hsound'⟩ := resolve_sound fuel (v :: trail) c hsound
      refine ⟨hsound', hkeeps.trans (resolve_kept fuel _ c _), fun he => ?_⟩
      rcases Finset.mem_union.mp he with he | he
      · exact hmiss he
      · have htrail := hdead c ⟨hc, by simpa using hleaf, hnode⟩ (hfound e he)
        have hnone : Assoc.get? acc.2 c = none := (hkeeps.2 c htrail).trans (Assoc.get?_nil c)
        rw [show (resolve G fuel (v :: trail) c acc.2).1 = ∅ by
          cases fuel with
          | zero => rw [resolve, hnone, Option.getD_none]
          | succ fuel =>
            rw [resolve, hnone]
            simp only
            rw [if_pos htrail]] at he
        exact Finset.notMem_empty e he
    · exact ⟨hsound, hkeeps, hmiss⟩
  have hnone := (hloop.2.1.2 v List.mem_cons_self).trans (Assoc.get?_nil v)
  exact ⟨_, (get?_append_new hnone).mpr (.inr ⟨rfl, rfl⟩), hloop.2.2⟩

variable (G) in
/-- The second node is the first callee of the first. -/
def First (f g : N) : Prop := (∃ callees, G.calls f = g :: callees) ∧ G.leaf g = false ∧ g ∈ G.nodes

/-- A search from the head of a path, each of whose nodes is the first callee of the one before,
goes straight down to its end. The induction is on the nodes still ahead. -/
theorem resolve_descends {v e : N} {trail : List N} (hnodup : (v :: trail).Nodup)
    (hcall : e ∉ G.calls v) (hdead : ∀ g, Step G v g → Reaches G g e → g ∈ v :: trail)
    (ahead : List N) {behind : List N} {name : N} {fuel : Nat}
    (hpath : ahead.reverse ++ name :: behind = v :: trail)
    (hfirst : (name :: ahead).IsChain (First G)) (hfuel : ahead.length < fuel) :
    Misses v e (resolve G fuel behind name []).2 := by
  induction ahead generalizing behind name fuel with
  | nil =>
    obtain ⟨rfl, rfl⟩ := List.cons_eq_cons.mp hpath
    obtain ⟨fuel, rfl⟩ := Nat.exists_eq_add_one_of_ne_zero (Nat.ne_of_gt hfuel)
    exact resolve_dead_end (List.nodup_cons.mp hnodup).1 hcall hdead fuel
  | cons next ahead ih =>
    rw [List.length_cons] at hfuel
    obtain ⟨fuel, rfl⟩ := Nat.exists_eq_add_one_of_ne_zero (show fuel ≠ 0 by omega)
    obtain ⟨⟨⟨callees, hcallees⟩, hleaf, hnode⟩, hrest⟩ := List.isChain_cons_cons.mp hfirst
    have hnot : name ∉ behind := by
      rw [← hpath] at hnodup
      exact (List.nodup_cons.mp hnodup.of_append_right).1
    have hnext : Misses v e (resolve G fuel (name :: behind) next []).2 := by
      refine ih ?_ hrest (by omega)
      rw [← hpath, List.reverse_cons, List.append_assoc, List.singleton_append]
    rw [resolve, Assoc.get?_nil]
    simp only
    rw [if_neg hnot, hcallees, List.foldl_cons]
    have hnone : Assoc.get? ((G.calls name).foldl
        (visit G (resolve G fuel (name :: behind))) (∅, [])).2 name = none :=
      loop_none (Assoc.get?_nil name)
    have hvisit : visit G (resolve G fuel (name :: behind)) (∅, []) next =
        (∅ ∪ (resolve G fuel (name :: behind) next []).1,
          (resolve G fuel (name :: behind) next []).2) := by
      rw [visit, if_neg (by simp [hleaf]), if_pos hnode]
    rw [hcallees, List.foldl_cons, hvisit] at hnone
    rw [hvisit]
    obtain ⟨found, hget, he⟩ := hnext.keeps
      (loop_keeps (resolve_kept fuel (name :: behind)) callees (∅ ∪ _, _))
    exact ⟨found, (get?_append_new hnone).mpr (.inl hget), he⟩

/-- The same table, read in another order. -/
structure Reordered (G G' : Graph N) : Prop where
  nodes : G.nodes.Perm G'.nodes
  calls : ∀ f, (G.calls f).Perm (G'.calls f)
  leaf : G'.leaf = G.leaf

omit [DecidableEq N] in
theorem Reordered.refl (G : Graph N) : Reordered G G := ⟨.refl _, fun _ => .refl _, rfl⟩

omit [DecidableEq N] in
theorem Reordered.step_iff {G' : Graph N} (h : Reordered G G') {f g : N} :
    Step G' f g ↔ Step G f g := by
  unfold Step
  rw [h.leaf, (h.calls f).mem_iff, h.nodes.mem_iff]

omit [DecidableEq N] in
theorem Reordered.reaches_iff {G' : Graph N} (h : Reordered G G') {f e : N} :
    Reaches G' f e ↔ Reaches G f e := by
  have hstep : Step G' = Step G := by
    funext f g
    exact propext h.step_iff
  unfold Reaches
  rw [hstep]
  refine exists_congr fun g => and_congr_right fun _ => ?_
  rw [h.leaf, (h.calls g).mem_iff]

omit [DecidableEq N] in
theorem Reordered.trail {G' : Graph N} (h : Reordered G G') {trail : List N}
    (htrail : Trail G' trail) : Trail G trail :=
  ⟨htrail.chain.imp fun _ _ => h.step_iff.mp, htrail.nodup,
    fun f hf => h.nodes.mem_iff.mpr (htrail.nodes f hf)⟩

omit [DecidableEq N] in
/-- A dead end does not depend on the order. -/
theorem Reordered.deadEnd {G' : Graph N} (h : Reordered G G') (hdead : DeadEnd G') :
    DeadEnd G := by
  obtain ⟨trail, v, e, htrail, hreach, hcall, hnext⟩ := hdead
  refine ⟨trail, v, e, h.trail htrail, h.reaches_iff.mp hreach, ?_, ?_⟩
  · rwa [(h.calls v).mem_iff]
  · exact fun g hstep hg => hnext g (h.step_iff.mpr hstep) (h.reaches_iff.mpr hg)

/-- The callees can be ordered so that a path is followed first at each of its nodes. -/
theorem exists_calls_first {trail : List N} (hchain : trail.IsChain fun a b => Step G b a)
    (hnodup : trail.Nodup) : ∃ calls' : N → List N, (∀ f, (G.calls f).Perm (calls' f)) ∧
      trail.IsChain fun a b => Step G b a ∧ ∃ callees, calls' b = a :: callees := by
  induction trail with
  | nil => exact ⟨G.calls, fun _ => .refl _, List.isChain_nil⟩
  | cons a trail ih =>
    cases trail with
    | nil => exact ⟨G.calls, fun _ => .refl _, List.isChain_singleton a⟩
    | cons b trail =>
      obtain ⟨hstep, hrest⟩ := List.isChain_cons_cons.mp hchain
      have hnodup' := (List.nodup_cons.mp hnodup).2
      obtain ⟨calls', hperm, hfirst⟩ := ih hrest hnodup'
      refine ⟨Function.update calls' b (a :: (G.calls b).erase a), fun f => ?_, ?_⟩
      · by_cases hf : f = b
        · rw [hf, Function.update_self]
          exact List.perm_cons_erase hstep.1
        · rw [Function.update_of_ne hf]
          exact hperm f
      · refine List.isChain_cons_cons.mpr ⟨⟨hstep, _, Function.update_self ..⟩, ?_⟩
        refine hfirst.imp_of_mem_tail_imp fun x y _ hy hxy => ?_
        rw [Function.update_of_ne]
        · exact hxy
        · rintro rfl
          exact (List.nodup_cons.mp hnodup').1 hy

/-- **With a dead end some order misses a leaf.** The table is read with the head of the path
first, and each node of the path calls the next one first. -/
theorem search_misses {trail : List N} {v e : N} (hdead : DeadEndAt G trail v e) :
    ∃ G', Reordered G G' ∧ Misses v e (search G') := by
  obtain ⟨htrail, -, hcall, hnext⟩ := hdead
  obtain ⟨calls', hperm, hfirst⟩ := exists_calls_first htrail.chain htrail.nodup
  obtain ⟨head, ahead, hpath⟩ : ∃ head ahead, (v :: trail).reverse = head :: ahead :=
    List.exists_cons_of_ne_nil (by simp)
  have hhead : head ∈ G.nodes := by
    refine htrail.nodes head (List.mem_reverse.mp ?_)
    rw [hpath]
    exact List.mem_cons_self
  let G' : Graph N := ⟨head :: G.nodes.erase head, calls', G.leaf⟩
  have hG' : Reordered G G' := ⟨List.perm_cons_erase hhead, hperm, rfl⟩
  refine ⟨G', hG', ?_⟩
  have hpath' : ahead.reverse ++ [head] = v :: trail := by
    rw [← List.reverse_cons, ← hpath, List.reverse_reverse]
  have hdown : Misses v e (resolve G' (G'.nodes.length + 1) [] head []).2 := by
    refine resolve_descends htrail.nodup ?_ ?_ ahead hpath' ?_ ?_
    · rwa [← (hperm v).mem_iff]
    · exact fun g hstep hg => hnext g (hG'.step_iff.mp hstep) (hG'.reaches_iff.mp hg)
    · have hboth : (v :: trail).IsChain fun a b => First G' b a := by
        refine hfirst.imp fun a b h => ?_
        exact ⟨h.2, h.1.2.1, hG'.nodes.mem_iff.mp h.1.2.2⟩
      rw [← hpath, List.isChain_reverse]
      exact hboth
    · have hlen := htrail.length_le
      rw [← hpath', List.length_append, List.length_reverse, List.length_singleton] at hlen
      rw [← hG'.nodes.length_eq]
      omega
  exact search_inv (P := Misses v e) (G.nodes.erase head)
    (fun memo hm g _ => hm.keeps (resolve_kept _ [] g memo)) hdown

/-- **The search is exact in every order exactly where the table has no dead end.** -/
theorem search_exact_iff : (∀ G', Reordered G G' → ∀ f ∈ G.nodes, ∃ found,
    Assoc.get? (search G') f = some found ∧ ∀ e, e ∈ found ↔ Reaches G f e) ↔ ¬ DeadEnd G := by
  constructor
  · rintro hall ⟨trail, v, e, hdead⟩
    obtain ⟨G', hG', r, hr, hmiss⟩ := search_misses hdead
    obtain ⟨found, hfound, hiff⟩ := hall G' hG' v (hdead.path.nodes v List.mem_cons_self)
    rw [hr, Option.some.injEq] at hfound
    exact hmiss (hfound ▸ (hiff e).mpr hdead.reaches)
  · intro hno G' hG' f hf
    obtain ⟨found, hfound, hiff⟩ :=
      search_exact (fun h => hno (hG'.deadEnd h)) (hG'.nodes.mem_iff.mp hf)
    exact ⟨found, hfound, fun e => (hiff e).trans hG'.reaches_iff⟩

end TrailSearch
