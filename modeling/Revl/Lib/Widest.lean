import Mathlib

/-!
# Keeping the wider of two

A list is folded by keeping, of what is kept so far and the next item, the one that accepts the
other. Where neither does, nothing is kept, and the next item starts over.

- `wider`, `widest`: one step and the fold.
- `widest_iff`: **when every order keeps an item that accepts them all**, up to what tells two
  accepting items apart.
- `widest_none_iff`: **when every order keeps nothing**.
-/

universe u

namespace Widest

variable {α : Type u} (accepts : α → α → Bool)

/-- The one of two that accepts the other. -/
def wider (a b : α) : Option α :=
  if accepts a b then some a else if accepts b a then some b else none

/-- One more item. -/
def keep (kept : Option α) (b : α) : Option α :=
  match kept with
  | none => some b
  | some a => wider accepts a b

def widest (items : List α) : Option α := items.foldl (keep accepts) none

variable {accepts}

theorem widest_concat (items : List α) (b : α) :
    widest accepts (items ++ [b]) = keep accepts (widest accepts items) b := by
  rw [widest, List.foldl_append]
  rfl

theorem wider_mem {a b c : α} (h : wider accepts a b = some c) : c = a ∨ c = b := by
  unfold wider at h
  split_ifs at h
  · exact .inl (Option.some.inj h).symm
  · exact .inr (Option.some.inj h).symm

theorem wider_eq_none_iff {a b : α} :
    wider accepts a b = none ↔ accepts a b = false ∧ accepts b a = false := by
  unfold wider
  split_ifs with hab hba <;> simp [*]

/-- What is kept is one of the items. -/
theorem widest_mem {items : List α} {c : α} (h : widest accepts items = some c) : c ∈ items := by
  induction items using List.reverseRecOn generalizing c with
  | nil => cases h
  | append_singleton items b ih =>
    rw [widest_concat] at h
    cases hkept : widest accepts items with
    | none =>
      rw [hkept] at h
      cases h
      exact List.mem_append_right _ List.mem_cons_self
    | some a =>
      rw [hkept] at h
      rcases wider_mem h with rfl | rfl
      · exact List.mem_append_left _ (ih hkept)
      · exact List.mem_append_right _ List.mem_cons_self

/-- What accepts all that follows stays. -/
theorem foldl_keep_of_accepts {items : List α} {a : α} (h : ∀ b ∈ items, accepts a b = true) :
    items.foldl (keep accepts) (some a) = some a := by
  induction items with
  | nil => rfl
  | cons b items ih =>
    obtain ⟨hb, hrest⟩ := List.forall_mem_cons.mp h
    rw [List.foldl_cons, keep, wider, if_pos hb]
    exact ih hrest

/-- What does not accept the next item is not kept beyond it. -/
theorem foldl_keep_of_rejects {items : List α} {a c : α} (hne : items ≠ [])
    (h : ∀ b ∈ items, accepts a b = false)
    (hkept : items.foldl (keep accepts) (some a) = some c) : c ∈ items := by
  induction items using List.reverseRecOn generalizing c with
  | nil => exact absurd rfl hne
  | append_singleton items b ih =>
    rw [List.foldl_append, List.foldl_cons, List.foldl_nil] at hkept
    by_cases hnil : items = []
    · subst hnil
      rcases wider_mem hkept with rfl | rfl
      · -- the first item is not accepted, so it is not what is kept that stays
        exfalso
        have hb := h b List.mem_cons_self
        simp only [List.foldl_nil, keep, wider, hb, Bool.false_eq_true, if_false] at hkept
        split_ifs at hkept with hba
        cases hkept
        rw [hb] at hba
        cases hba
      · exact List.mem_cons_self
    · cases hprev : items.foldl (keep accepts) (some a) with
      | none =>
        rw [hprev] at hkept
        cases hkept
        exact List.mem_append_right _ List.mem_cons_self
      | some d =>
        rw [hprev] at hkept
        rcases wider_mem hkept with rfl | rfl
        · exact List.mem_append_left _ (ih hnil (fun b hb => h b (List.mem_append_left _ hb)) hprev)
        · exact List.mem_append_right _ List.mem_cons_self

/-! ## An item that accepts them all -/

/-- The item accepts all of them. -/
def Accepts (accepts : α → α → Bool) (g : α) (items : List α) : Prop :=
  ∀ t ∈ items, accepts g t = true

/-- An item accepts them all, and every item that accepts it does too and is the same. -/
def Settled (accepts : α → α → Bool) (same : α → α → Prop) (items : List α) : Prop :=
  ∃ g ∈ items, Accepts accepts g items ∧
    ∀ t ∈ items, accepts t g = true → Accepts accepts t items ∧ same t g

variable {same : α → α → Prop}

/-- A run that meets an item which accepts them all keeps one of those. -/
theorem Settled.kept {items : List α}
    (hsame : ∀ a b, same a b → ∀ t ∈ items, accepts t a = accepts t b) {g : α} (hg : g ∈ items)
    (hall : ∀ t ∈ items, accepts t g = true → Accepts accepts t items ∧ same t g)
    {run : List α} (hsub : run ⊆ items) (hmeets : ∃ h ∈ run, Accepts accepts h items) :
    ∃ r, widest accepts run = some r ∧ Accepts accepts r items := by
  induction run using List.reverseRecOn with
  | nil =>
    obtain ⟨h, hh, -⟩ := hmeets
    cases hh
  | append_singleton run x ih =>
    have hrun : run ⊆ items := fun t ht => hsub (List.mem_append_left _ ht)
    have hx : x ∈ items := hsub (List.mem_append_right _ List.mem_cons_self)
    rw [widest_concat]
    by_cases hbefore : ∃ h ∈ run, Accepts accepts h items
    · obtain ⟨r, hr, htop⟩ := ih hrun hbefore
      refine ⟨r, ?_, htop⟩
      rw [hr, keep, wider, if_pos (htop x hx)]
    · have htop : Accepts accepts x items := by
        obtain ⟨h, hh, hacc⟩ := hmeets
        rcases List.mem_append.mp hh with hh | hh
        · exact absurd ⟨h, hh, hacc⟩ hbefore
        · exact List.mem_singleton.mp hh ▸ hacc
      cases hkept : widest accepts run with
      | none => exact ⟨x, rfl, htop⟩
      | some a =>
        have ha : a ∈ items := hrun (widest_mem hkept)
        by_cases hax : accepts a x = true
        · refine ⟨a, by rw [keep, wider, if_pos hax], ?_⟩
          rw [hsame x g (hall x hx (htop g hg)).2 a ha] at hax
          exact (hall a ha hax).1
        · exact ⟨x, by rw [keep, wider, if_neg hax, if_pos (htop a ha)], htop⟩

/-- **When every order keeps the same item that accepts them all.** -/
theorem widest_iff (hsymm : ∀ a b, same a b → same b a)
    (htrans : ∀ a b c, same a b → same b c → same a c)
    {items : List α} (hsame : ∀ a b, same a b → ∀ t ∈ items, accepts t a = accepts t b)
    (hrefl : ∀ t ∈ items, accepts t t = true) :
    (∃ r, widest accepts items = some r ∧ Accepts accepts r items ∧
      ∀ order, order.Perm items → ∃ r', widest accepts order = some r' ∧ same r r') ↔
    Settled accepts same items := by
  constructor
  · rintro ⟨r, hr, htop, horders⟩
    refine ⟨r, widest_mem hr, htop, fun t ht htr => ?_⟩
    -- the order that starts with `t` and what it accepts
    have haccepts : Accepts accepts t items := by
      by_contra hnot
      obtain ⟨u, hu, hut⟩ : ∃ u ∈ items, accepts t u = false := by
        by_contra hall
        refine hnot fun u hu => ?_
        by_contra hut
        exact hall ⟨u, hu, by simpa using hut⟩
      obtain ⟨front, back, hsplit⟩ := List.append_of_mem ht
      have hothers : items.Perm (t :: (front ++ back)) := hsplit ▸ List.perm_middle
      have hperm : (t :: ((front ++ back).filter (accepts t) ++
          (front ++ back).filter fun u => !accepts t u)).Perm items :=
        ((List.filter_append_perm _ _).cons t).trans hothers.symm
      have hmem : u ∈ (front ++ back).filter fun u => !accepts t u := by
        refine List.mem_filter.mpr ⟨?_, by simp [hut]⟩
        rcases List.mem_cons.mp (hothers.subset hu) with rfl | hu
        · rw [hrefl u hu] at hut
          cases hut
        · exact hu
      obtain ⟨r', hr', hsame'⟩ := horders _ hperm
      rw [widest, List.foldl_cons, List.foldl_append] at hr'
      have hfirst : ((front ++ back).filter (accepts t)).foldl (keep accepts) (some t) = some t :=
        foldl_keep_of_accepts fun b hb => (List.mem_filter.mp hb).2
      rw [show keep accepts none t = some t from rfl, hfirst] at hr'
      have hlast := foldl_keep_of_rejects (List.ne_nil_of_mem hmem)
        (fun b hb => by simpa using (List.mem_filter.mp hb).2) hr'
      rw [hsame r r' hsame' t ht] at htr
      simp [htr] at hlast
    refine ⟨haccepts, ?_⟩
    -- the order that starts with `t` keeps it
    obtain ⟨front, back, hsplit⟩ := List.append_of_mem ht
    obtain ⟨r', hr', hsame'⟩ := horders (t :: (front ++ back)) (hsplit ▸ List.perm_middle.symm)
    have hkept : widest accepts (t :: (front ++ back)) = some t := by
      refine foldl_keep_of_accepts fun b hb => haccepts b ?_
      rw [hsplit]
      exact List.perm_middle.symm.subset (List.mem_cons_of_mem _ hb)
    rw [hkept] at hr'
    exact hsymm r t (Option.some.inj hr' ▸ hsame')
  · rintro ⟨g, hg, hacc, hall⟩
    have hkept : ∀ order, order.Perm items →
        ∃ r, widest accepts order = some r ∧ Accepts accepts r items ∧ same r g := by
      intro order hperm
      obtain ⟨r, hr, htop⟩ := Settled.kept hsame hg hall hperm.subset
        ⟨g, hperm.symm.subset hg, hacc⟩
      exact ⟨r, hr, htop, (hall r (hperm.subset (widest_mem hr)) (htop g hg)).2⟩
    obtain ⟨r, hr, htop, hrg⟩ := hkept items (List.Perm.refl _)
    refine ⟨r, hr, htop, fun order hperm => ?_⟩
    obtain ⟨r', hr', -, hrg'⟩ := hkept order hperm
    exact ⟨r', hr', htrans _ _ _ hrg (hsymm _ _ hrg')⟩

/-! ## Nothing kept -/

/-- Neither accepts the other. -/
def Apart (accepts : α → α → Bool) (a b : α) : Prop := accepts a b = false ∧ accepts b a = false

/-- Where no two items accept each other, every second one starts over. -/
theorem widest_of_apart {items : List α} (h : items.Pairwise (Apart accepts)) :
    widest accepts items = none ↔ Even items.length := by
  induction items using List.reverseRecOn with
  | nil => simp [widest]
  | append_singleton items b ih =>
    obtain ⟨hitems, -, hlast⟩ := List.pairwise_append.mp h
    rw [widest_concat, List.length_append, List.length_singleton, Nat.even_add_one, ← ih hitems]
    cases hkept : widest accepts items with
    | none => simp [keep]
    | some a =>
      have hab := hlast a (widest_mem hkept) b List.mem_cons_self
      simp [keep, wider, hab.1, hab.2]

theorem exists_of_not_pairwise {items : List α} (h : ¬ items.Pairwise (Apart accepts)) :
    ∃ a b rest, items.Perm (a :: b :: rest) ∧ ¬ Apart accepts a b := by
  induction items with
  | nil => exact absurd List.Pairwise.nil h
  | cons a items ih =>
    rw [List.pairwise_cons, not_and_or] at h
    rcases h with h | h
    · push Not at h
      obtain ⟨b, hb, hab⟩ := h
      obtain ⟨front, back, rfl⟩ := List.append_of_mem hb
      exact ⟨a, b, front ++ back, List.perm_middle.cons a, hab⟩
    · obtain ⟨b, c, rest, hperm, hbc⟩ := ih h
      refine ⟨b, c, a :: rest, (hperm.cons a).trans ?_, hbc⟩
      exact (List.Perm.swap b a _).trans ((List.Perm.swap c a _).cons b)

/-- **When every order keeps nothing**: an even number of items, no two of which accept each
other. -/
theorem widest_none_iff {items : List α} :
    (∀ order, order.Perm items → widest accepts order = none) ↔
      Even items.length ∧ items.Pairwise (Apart accepts) := by
  have hsymm : ∀ {a b : α}, Apart accepts a b → Apart accepts b a := fun h => ⟨h.2, h.1⟩
  constructor
  · intro h
    have hpairwise : items.Pairwise (Apart accepts) := by
      by_contra hnot
      obtain ⟨a, b, rest, hperm, hab⟩ := exists_of_not_pairwise hnot
      have hnone : ∀ x y, (x :: y :: rest).Perm items → ¬ Apart accepts x y →
          ∃ e, widest accepts rest = some e ∧ wider accepts e x = some e ∧ Apart accepts e y := by
        intro x y hxy hcomp
        have hlast : (rest ++ [x, y]).Perm items :=
          (List.perm_append_comm : (rest ++ [x, y]).Perm ([x, y] ++ rest)).trans hxy
        have hrun := h _ hlast
        rw [widest, List.foldl_append] at hrun
        cases hkept : widest accepts rest with
        | none =>
          rw [widest] at hkept
          rw [hkept] at hrun
          exact absurd (wider_eq_none_iff.mp hrun) hcomp
        | some e =>
          rw [widest] at hkept
          rw [hkept] at hrun
          simp only [List.foldl_cons, List.foldl_nil, keep] at hrun
          cases hx : wider accepts e x with
          | none => simp [hx] at hrun
          | some z =>
            rw [hx] at hrun
            rcases wider_mem hx with rfl | rfl
            · exact ⟨z, rfl, hx, wider_eq_none_iff.mp hrun⟩
            · exact absurd (wider_eq_none_iff.mp hrun) hcomp
      obtain ⟨e, he, hex, hey⟩ := hnone a b hperm.symm hab
      obtain ⟨e', he', hey', -⟩ := hnone b a ((List.Perm.swap a b rest).trans hperm.symm)
        fun hba => hab (hsymm hba)
      obtain rfl := Option.some.inj (he.symm.trans he')
      rw [wider_eq_none_iff.mpr hey] at hey'
      cases hey'
    exact ⟨(widest_of_apart hpairwise).mp (h _ (List.Perm.refl _)), hpairwise⟩
  · rintro ⟨heven, hpairwise⟩ order hperm
    rw [widest_of_apart ((hperm.pairwise_iff hsymm).mpr hpairwise), hperm.length_eq]
    exact heven

end Widest
