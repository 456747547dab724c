import Revl.Link.Entry

/-!
# The planned cascade (`plan.py`)

`plan` predicts what an admission does to the components that survive it: which lose a provider,
directly or through one that does, which are rebound to another provider, and which can activate.
It reads two tables of providers, before and after, and repeats its passes over the survivors
until nothing changes.

- `Admission`: the running entries, those of the candidate and the names dropped.
- `Active`: the components of a composition that are active. `Rebinds`: the survivors whose
  provider of a required key changes under them.
- `Loses`, `Moves`, `Gains`, `Shifts`, `Meets`: what the tables alone say of a survivor.
- `cascade_ends`: **the passes end**, with `Loses` and `Moves` in every order.
- `cascade_right_iff`: **the prediction is right in every order exactly where the tables say of
  every survivor what becomes of it.**
-/

namespace Revl.Plan

open Link (Entry Place realmOf providerOf providerOf_mem Requires targets)

/-- An admission: the running entries, the candidate's and the names that are dropped, the
candidate's own among them. -/
structure Admission where
  before : List Entry
  candidate : List Entry
  dropped : List String
  before_nodup : (before.map Entry.name).Nodup
  candidate_dropped : ∀ entry ∈ candidate, entry.name ∈ dropped

namespace Admission

variable (adm : Admission)

/-- The entries that stay as they are. -/
def survivors : List Entry := adm.before.filter fun entry => decide (entry.name ∉ adm.dropped)

/-- The composition after the admission. -/
def after : List Entry := adm.survivors ++ adm.candidate

/-- The running components the candidate brings anew. -/
def replaced : Finset String :=
  ((adm.candidate.map Entry.name).filter fun name =>
    decide (name ∈ adm.before.map Entry.name)).toFinset

/-- The running components that are no longer there. -/
def gone : Finset String :=
  ((adm.before.map Entry.name).filter fun name =>
    decide (name ∉ adm.after.map Entry.name)).toFinset

/-- Who provided a key of an entry. -/
def prior (entry : Entry) (key : String) : Option String :=
  providerOf adm.before (key, realmOf entry key)

/-- Who provides a key of an entry now. -/
def now (entry : Entry) (key : String) : Option String :=
  providerOf adm.after (key, realmOf entry key)

end Admission

/-! ## The passes -/

/-- The prediction so far. -/
structure Cascade where
  diverted : Finset String
  rebound : Finset String
  activated : Finset String
  inactive : Finset String
  restarted : Finset String
  deriving DecidableEq

/-- What has become of a required key. -/
inductive Turn where
  | still
  | upstream
  | lost
  | met
  | moved
  deriving DecidableEq, Repr

variable (adm : Admission)

/-- What has become of a required key, as far as the prediction goes. -/
def turn (σ : Cascade) (entry : Entry) (key : String) : Turn :=
  match adm.prior entry key, adm.now entry key with
  | some prior, some now =>
    if now ∈ σ.inactive then .upstream
    else if now ≠ prior ∨ now ∈ σ.restarted ∨ now ∈ σ.rebound then .moved
    else .still
  | none, some now => if now ∈ σ.inactive then .still else .met
  | some _, none => .lost
  | none, none => .still

/-- Some key of the entry has taken the turn. -/
def turns (σ : Cascade) (entry : Entry) (t : Turn) : Bool :=
  entry.inject.any fun key => decide (turn adm σ entry key = t)

/-- A survivor is diverted. -/
def divert (σ : Cascade) (name : String) : Cascade :=
  { σ with
    diverted := insert name σ.diverted
    rebound := σ.rebound.erase name
    activated := σ.activated.erase name
    inactive := insert name σ.inactive }

/-- A survivor is rebound. -/
def rebind (σ : Cascade) (name : String) : Cascade :=
  { σ with rebound := insert name σ.rebound, restarted := insert name σ.restarted }

/-- A survivor can activate. -/
def activate (σ : Cascade) (name : String) : Cascade :=
  { σ with activated := insert name σ.activated }

/-- One survivor, and whether anything changed. -/
def visit (r : Cascade × Bool) (entry : Entry) : Cascade × Bool :=
  let σ := r.1
  if entry.name ∈ σ.diverted then r
  else if turns adm σ entry .lost || turns adm σ entry .upstream then
    (divert σ entry.name, r.2 || decide (entry.name ∉ σ.inactive))
  else
    let r₁ := if turns adm σ entry .moved && decide (entry.name ∉ σ.rebound) then
      (rebind σ entry.name, true) else r
    if turns adm σ entry .met &&
        decide (entry.name ∉ r₁.1.activated ∧ entry.name ∉ r₁.1.rebound) then
      (activate r₁.1 entry.name, true)
    else r₁

/-- The passes over the survivors, until one changes nothing. -/
def passes (order : List Entry) : Nat → Cascade → Option Cascade
  | 0, _ => none
  | fuel + 1, σ =>
    let r := order.foldl (visit adm) (σ, false)
    if r.2 then passes order fuel r.1 else some r.1

/-- Before the first pass. -/
def start : Cascade := ⟨∅, ∅, ∅, adm.gone, adm.replaced⟩

/-- The cascade, for an order of the survivors. -/
def cascade (order : List Entry) : Option Cascade :=
  passes adm order (5 * order.length + 1) (start adm)

/-! ## What becomes of a component -/

/-- The active components of a composition: the least set in which every component is that has an
active provider of everything it requires. -/
inductive Active (entries : List Entry) : String → Prop where
  | intro {entry : Entry} (provider : Place → String) : entry ∈ entries →
      (∀ place, Requires entry place → providerOf entries place = some (provider place)) →
      (∀ place, Requires entry place → Active entries (provider place)) →
      Active entries entry.name

/-- **What is active** has an active provider of everything it requires. -/
theorem active_iff {entries : List Entry} {name : String} : Active entries name ↔
    ∃ entry ∈ entries, entry.name = name ∧ ∀ place, Requires entry place →
      ∃ provider, providerOf entries place = some provider ∧ Active entries provider := by
  constructor
  · rintro ⟨provider, hentry, hsome, hactive⟩
    exact ⟨_, hentry, rfl, fun place hreq => ⟨provider place, hsome place hreq, hactive place hreq⟩⟩
  · rintro ⟨entry, hentry, rfl, h⟩
    refine .intro (fun place => (providerOf entries place).getD "") hentry (fun place hreq => ?_)
      fun place hreq => ?_
    · obtain ⟨provider, hsome, -⟩ := h place hreq
      rw [hsome, Option.getD_some]
    · obtain ⟨provider, hsome, hactive⟩ := h place hreq
      rw [hsome, Option.getD_some]
      exact hactive

/-- A survivor active before and after whose provider of something required is another one, was
replaced or is itself rebound. -/
inductive Rebinds : String → Prop where
  | other {entry : Entry} {place : Place} {prior now : String} : entry ∈ adm.survivors →
      Active adm.before entry.name → Active adm.after entry.name → Requires entry place →
      providerOf adm.before place = some prior → providerOf adm.after place = some now →
      now ≠ prior ∨ now ∈ adm.replaced → Rebinds entry.name
  | chain {entry : Entry} {place : Place} {prior now : String} : entry ∈ adm.survivors →
      Active adm.before entry.name → Active adm.after entry.name → Requires entry place →
      providerOf adm.before place = some prior → providerOf adm.after place = some now →
      Rebinds now → Rebinds entry.name

/-- The prediction is right about every survivor, and about nothing else. -/
structure Right (σ : Cascade) : Prop where
  diverted : ∀ entry ∈ adm.survivors, entry.name ∈ σ.diverted ↔
    Active adm.before entry.name ∧ ¬ Active adm.after entry.name
  activated : ∀ entry ∈ adm.survivors, entry.name ∈ σ.activated ↔
    ¬ Active adm.before entry.name ∧ Active adm.after entry.name
  rebound : ∀ entry ∈ adm.survivors, entry.name ∈ σ.rebound ↔ Rebinds adm entry.name
  survivors : ∀ name, name ∈ σ.diverted ∨ name ∈ σ.activated ∨ name ∈ σ.rebound →
    name ∈ adm.survivors.map Entry.name

/-! ## What the tables say -/

/-- A survivor with a key that had a provider and has none, or has one that itself loses one. -/
inductive Loses : String → Prop where
  | lost {entry : Entry} {key prior : String} : entry ∈ adm.survivors → key ∈ entry.inject →
      adm.prior entry key = some prior → adm.now entry key = none → Loses entry.name
  | upstream {entry : Entry} {key prior now : String} : entry ∈ adm.survivors →
      key ∈ entry.inject → adm.prior entry key = some prior → adm.now entry key = some now →
      Loses now → Loses entry.name

/-- A survivor that loses nothing, with a key whose provider is another one, was replaced or
itself moves. -/
inductive Moves : String → Prop where
  | other {entry : Entry} {key prior now : String} : entry ∈ adm.survivors →
      ¬ Loses adm entry.name → key ∈ entry.inject → adm.prior entry key = some prior →
      adm.now entry key = some now → ¬ Loses adm now → now ≠ prior ∨ now ∈ adm.replaced →
      Moves entry.name
  | chain {entry : Entry} {key prior now : String} : entry ∈ adm.survivors →
      ¬ Loses adm entry.name → key ∈ entry.inject → adm.prior entry key = some prior →
      adm.now entry key = some now → ¬ Loses adm now → Moves now → Moves entry.name

/-- An entry with a key that had no provider and has one. -/
def Gains (entry : Entry) : Prop :=
  ∃ key ∈ entry.inject, adm.prior entry key = none ∧ ∃ now, adm.now entry key = some now

/-- An entry with a key whose provider is another one or was replaced. -/
def Shifts (entry : Entry) : Prop :=
  ∃ key ∈ entry.inject, ∃ prior now, adm.prior entry key = some prior ∧
    adm.now entry key = some now ∧ (now ≠ prior ∨ now ∈ adm.replaced)

/-- An entry with a key that had no provider and has one that loses none. -/
def Meets (entry : Entry) : Prop :=
  ∃ key ∈ entry.inject, adm.prior entry key = none ∧
    ∃ now, adm.now entry key = some now ∧ ¬ Loses adm now

variable {adm}

theorem turns_iff {σ : Cascade} {entry : Entry} {t : Turn} :
    turns adm σ entry t = true ↔ ∃ key ∈ entry.inject, turn adm σ entry key = t := by
  rw [turns, List.any_eq_true]
  simp only [decide_eq_true_eq]

theorem turn_eq_lost {σ : Cascade} {entry : Entry} {key : String} :
    turn adm σ entry key = .lost ↔
      (∃ prior, adm.prior entry key = some prior) ∧ adm.now entry key = none := by
  unfold turn
  cases adm.prior entry key <;> cases adm.now entry key <;> grind

theorem turn_eq_upstream {σ : Cascade} {entry : Entry} {key : String} :
    turn adm σ entry key = .upstream ↔ (∃ prior, adm.prior entry key = some prior) ∧
      ∃ now, adm.now entry key = some now ∧ now ∈ σ.inactive := by
  unfold turn
  cases adm.prior entry key <;> cases adm.now entry key <;> grind

theorem turn_eq_met {σ : Cascade} {entry : Entry} {key : String} :
    turn adm σ entry key = .met ↔ adm.prior entry key = none ∧
      ∃ now, adm.now entry key = some now ∧ now ∉ σ.inactive := by
  unfold turn
  cases adm.prior entry key <;> cases adm.now entry key <;> grind

theorem turn_eq_moved {σ : Cascade} {entry : Entry} {key : String} :
    turn adm σ entry key = .moved ↔ ∃ prior now, adm.prior entry key = some prior ∧
      adm.now entry key = some now ∧ now ∉ σ.inactive ∧
        (now ≠ prior ∨ now ∈ σ.restarted ∨ now ∈ σ.rebound) := by
  unfold turn
  cases adm.prior entry key <;> cases adm.now entry key <;> grind

/-! ## What a pass keeps -/

variable (adm) in
/-- What holds between two visits: nothing is predicted that the tables do not say. -/
structure Sound (σ : Cascade) : Prop where
  inactive : ∀ name, name ∈ σ.inactive ↔ name ∈ adm.gone ∨ name ∈ σ.diverted
  diverted : ∀ name ∈ σ.diverted, Loses adm name
  rebound : ∀ name ∈ σ.rebound, Moves adm name ∨ Loses adm name
  restarted : ∀ name ∈ σ.restarted, name ∈ adm.replaced ∨ Moves adm name ∨ Loses adm name
  replaced : adm.replaced ⊆ σ.restarted
  activated : ∀ entry ∈ adm.survivors, entry.name ∈ σ.activated →
    Gains adm entry ∧ ¬ Shifts adm entry
  apart : ∀ name ∈ σ.diverted, name ∉ σ.rebound ∧ name ∉ σ.activated
  survivors : ∀ name, name ∈ σ.diverted ∨ name ∈ σ.activated ∨ name ∈ σ.rebound →
    name ∈ adm.survivors.map Entry.name

theorem survivor_eq {a b : Entry} (ha : a ∈ adm.survivors) (hb : b ∈ adm.survivors)
    (h : a.name = b.name) : a = b :=
  List.inj_on_of_nodup_map adm.before_nodup (List.mem_of_mem_filter ha)
    (List.mem_of_mem_filter hb) h

theorem mem_gone {name : String} : name ∈ adm.gone ↔
    name ∈ adm.before.map Entry.name ∧ name ∉ adm.after.map Entry.name := by
  rw [Admission.gone, List.mem_toFinset, List.mem_filter, decide_eq_true_eq]

theorem survivor_not_gone {entry : Entry} (h : entry ∈ adm.survivors) : entry.name ∉ adm.gone :=
  fun hgone => (mem_gone.mp hgone).2
    (List.mem_map_of_mem (List.mem_append_left _ h))

/-- Whoever provides a key now is not gone. -/
theorem now_not_gone {entry : Entry} {key now : String} (h : adm.now entry key = some now) :
    now ∉ adm.gone := by
  obtain ⟨provider, hmem, rfl, -⟩ := providerOf_mem h
  exact fun hgone => (mem_gone.mp hgone).2 (List.mem_map_of_mem hmem)

theorem sound_start : Sound adm (start adm) := by
  refine ⟨fun name => ?_, ?_, ?_, fun name h => .inl h, Finset.Subset.refl _, ?_, ?_, ?_⟩ <;>
    simp [start]

section Visit

variable {σ : Cascade} (h : Sound adm σ) {entry : Entry} (hentry : entry ∈ adm.survivors)

include h

theorem Sound.inactive_loses {entry : Entry} {key now : String}
    (hnow : adm.now entry key = some now) (hin : now ∈ σ.inactive) : Loses adm now :=
  ((h.inactive now).mp hin).elim (fun hgone => absurd hgone (now_not_gone hnow))
    (h.diverted now)

include hentry

theorem Sound.divert (hturns : turns adm σ entry .lost = true ∨
    turns adm σ entry .upstream = true) : Sound adm (divert σ entry.name) := by
  have hloses : Loses adm entry.name := by
    rcases hturns with hlost | hupstream
    · obtain ⟨key, hkey, hturn⟩ := turns_iff.mp hlost
      obtain ⟨⟨prior, hprior⟩, hnow⟩ := turn_eq_lost.mp hturn
      exact .lost hentry hkey hprior hnow
    · obtain ⟨key, hkey, hturn⟩ := turns_iff.mp hupstream
      obtain ⟨⟨prior, hprior⟩, now, hnow, hin⟩ := turn_eq_upstream.mp hturn
      exact .upstream hentry hkey hprior hnow (h.inactive_loses hnow hin)
  refine ⟨fun name => ?_, fun name hname => ?_, fun name hname => ?_, h.restarted, h.replaced,
    fun other hother hname => ?_, fun name hname => ?_, fun name hname => ?_⟩
  · rw [Plan.divert, Finset.mem_insert, Finset.mem_insert, h.inactive]
    tauto
  · rcases Finset.mem_insert.mp hname with rfl | hname
    · exact hloses
    · exact h.diverted name hname
  · exact h.rebound name (Finset.mem_of_mem_erase hname)
  · exact h.activated other hother (Finset.mem_of_mem_erase hname)
  · rcases Finset.mem_insert.mp hname with rfl | hname
    · exact ⟨Finset.notMem_erase _ _, Finset.notMem_erase _ _⟩
    · exact ⟨fun hr => (h.apart name hname).1 (Finset.mem_of_mem_erase hr),
        fun ha => (h.apart name hname).2 (Finset.mem_of_mem_erase ha)⟩
  · rcases hname with hname | hname | hname
    · rcases Finset.mem_insert.mp hname with rfl | hname
      · exact List.mem_map_of_mem hentry
      · exact h.survivors name (.inl hname)
    · exact h.survivors name (.inr (.inl (Finset.mem_of_mem_erase hname)))
    · exact h.survivors name (.inr (.inr (Finset.mem_of_mem_erase hname)))

theorem Sound.rebind (hnot : entry.name ∉ σ.diverted) (hturns : turns adm σ entry .moved = true) :
    Sound adm (rebind σ entry.name) := by
  have hmoves : Moves adm entry.name ∨ Loses adm entry.name := by
    by_cases hloses : Loses adm entry.name
    · exact .inr hloses
    obtain ⟨key, hkey, hturn⟩ := turns_iff.mp hturns
    obtain ⟨prior, now, hprior, hnow, -, hcase⟩ := turn_eq_moved.mp hturn
    have hstays : ¬ Loses adm now := fun hl => hloses (.upstream hentry hkey hprior hnow hl)
    refine .inl ?_
    rcases hcase with hne | hrestarted | hrebound
    · exact .other hentry hloses hkey hprior hnow hstays (.inl hne)
    · rcases h.restarted now hrestarted with hreplaced | hmoves | hl
      · exact .other hentry hloses hkey hprior hnow hstays (.inr hreplaced)
      · exact .chain hentry hloses hkey hprior hnow hstays hmoves
      · exact absurd hl hstays
    · rcases h.rebound now hrebound with hmoves | hl
      · exact .chain hentry hloses hkey hprior hnow hstays hmoves
      · exact absurd hl hstays
  refine ⟨h.inactive, h.diverted, fun name hname => ?_, fun name hname => ?_, ?_, h.activated,
    fun name hname => ?_, fun name hname => ?_⟩
  · rcases Finset.mem_insert.mp hname with rfl | hname
    · exact hmoves
    · exact h.rebound name hname
  · rcases Finset.mem_insert.mp hname with rfl | hname
    · exact .inr hmoves
    · exact h.restarted name hname
  · exact h.replaced.trans (Finset.subset_insert _ _)
  · refine ⟨fun hr => ?_, (h.apart name hname).2⟩
    rcases Finset.mem_insert.mp hr with rfl | hr
    · exact hnot hname
    · exact (h.apart name hname).1 hr
  · rcases hname with hname | hname | hname
    · exact h.survivors name (.inl hname)
    · exact h.survivors name (.inr (.inl hname))
    · rcases Finset.mem_insert.mp hname with rfl | hname
      · exact List.mem_map_of_mem hentry
      · exact h.survivors name (.inr (.inr hname))

theorem Sound.activate (hnot : entry.name ∉ σ.diverted) (hgains : Gains adm entry)
    (hstill : ¬ Shifts adm entry) : Sound adm (activate σ entry.name) := by
  refine ⟨h.inactive, h.diverted, h.rebound, h.restarted, h.replaced,
    fun other hother hname => ?_, fun name hname => ?_, fun name hname => ?_⟩
  · rcases Finset.mem_insert.mp hname with heq | hname
    · exact survivor_eq hentry hother heq.symm ▸ ⟨hgains, hstill⟩
    · exact h.activated other hother hname
  · refine ⟨(h.apart name hname).1, fun ha => ?_⟩
    rcases Finset.mem_insert.mp ha with rfl | ha
    · exact hnot hname
    · exact (h.apart name hname).2 ha
  · rcases hname with hname | hname | hname
    · exact h.survivors name (.inl hname)
    · rcases Finset.mem_insert.mp hname with rfl | hname
      · exact List.mem_map_of_mem hentry
      · exact h.survivors name (.inr (.inl hname))
    · exact h.survivors name (.inr (.inr hname))

omit hentry in
/-- A key whose provider is another one or was replaced is seen to move, unless its provider went
down before. -/
theorem Sound.moved (hup : turns adm σ entry .upstream = false) (hshifts : Shifts adm entry) :
    turns adm σ entry .moved = true := by
  obtain ⟨key, hkey, prior, now, hprior, hnow, hcase⟩ := hshifts
  have hin : now ∉ σ.inactive := by
    intro hin
    rw [turns_iff.mpr ⟨key, hkey, turn_eq_upstream.mpr ⟨⟨prior, hprior⟩, now, hnow, hin⟩⟩] at hup
    cases hup
  exact turns_iff.mpr ⟨key, hkey, turn_eq_moved.mpr ⟨prior, now, hprior, hnow, hin,
    hcase.imp_right fun hr => .inl (h.replaced hr)⟩⟩

end Visit

/-! ## The passes end -/

/-- How much has been predicted; a diverted survivor counts for more than it takes back. -/
def size (σ : Cascade) : Nat := 3 * σ.diverted.card + σ.rebound.card + σ.activated.card

/-- What a pass does to the prediction: it grows where something changed, and what can activate
still can, unless it is diverted. -/
structure Later (r r' : Cascade × Bool) : Prop where
  flag : r.2 = true → r'.2 = true
  grows : r'.2 = true → r.2 = true ∨ size r.1 < size r'.1
  size_le : size r.1 ≤ size r'.1
  same : r'.2 = false → r'.1 = r.1
  keeps : ∀ name, name ∈ r.1.activated ∨ name ∈ r.1.diverted →
    name ∈ r'.1.activated ∨ name ∈ r'.1.diverted

theorem Later.refl (r : Cascade × Bool) : Later r r :=
  ⟨id, .inl, le_refl _, fun _ => rfl, fun _ => id⟩

theorem Later.trans {r₁ r₂ r₃ : Cascade × Bool} (h : Later r₁ r₂) (h' : Later r₂ r₃) :
    Later r₁ r₃ := by
  refine ⟨fun hf => h'.flag (h.flag hf), fun hf => ?_, h.size_le.trans h'.size_le, fun hf => ?_,
    fun name hname => h'.keeps name (h.keeps name hname)⟩
  · rcases h'.grows hf with hf | hlt
    · exact (h.grows hf).imp_right fun hlt => hlt.trans_le h'.size_le
    · exact .inr (h.size_le.trans_lt hlt)
  · have hf₂ : r₂.2 = false := by
      cases hr : r₂.2 with
      | false => rfl
      | true => rw [h'.flag hr] at hf; cases hf
    rw [h'.same hf, h.same hf₂]

variable (adm) in
/-- A visit of the entry changes nothing. -/
def Settled (σ : Cascade) (entry : Entry) : Prop :=
  entry.name ∈ σ.diverted ∨
    (turns adm σ entry .lost = false ∧ turns adm σ entry .upstream = false ∧
      (turns adm σ entry .moved = true → entry.name ∈ σ.rebound) ∧
        (turns adm σ entry .met = true → entry.name ∈ σ.activated ∨ entry.name ∈ σ.rebound))

theorem size_divert_lt {σ : Cascade} {name : String} (h : name ∉ σ.diverted) :
    size σ < size (divert σ name) := by
  have hdiverted := Finset.card_insert_of_notMem h
  have hrebound := Finset.pred_card_le_card_erase (s := σ.rebound) (a := name)
  have hactivated := Finset.pred_card_le_card_erase (s := σ.activated) (a := name)
  unfold size divert
  simp only
  omega

theorem size_rebind_lt {σ : Cascade} {name : String} (h : name ∉ σ.rebound) :
    size σ < size (rebind σ name) := by
  have hrebound := Finset.card_insert_of_notMem h
  unfold size rebind
  simp only
  omega

theorem size_activate_lt {σ : Cascade} {name : String} (h : name ∉ σ.activated) :
    size σ < size (activate σ name) := by
  have hactivated := Finset.card_insert_of_notMem h
  unfold size activate
  simp only
  omega

/-- What the second part of a visit does: it marks a survivor whose provider changed. -/
theorem move_later {σ : Cascade} (h : Sound adm σ) {entry : Entry} (hentry : entry ∈ adm.survivors)
    (hdiverted : entry.name ∉ σ.diverted) (changed : Bool) :
    ∃ r, (if turns adm σ entry .moved && decide (entry.name ∉ σ.rebound) then
        (rebind σ entry.name, true) else (σ, changed)) = r ∧
      Sound adm r.1 ∧ Later (σ, changed) r ∧
        (r.2 = false → turns adm σ entry .moved = true → entry.name ∈ σ.rebound) ∧
          (turns adm σ entry .moved = true → entry.name ∈ r.1.rebound) ∧
            r.1.diverted = σ.diverted := by
  by_cases hmove : (turns adm σ entry .moved && decide (entry.name ∉ σ.rebound)) = true
  · rw [if_pos hmove]
    rw [Bool.and_eq_true, decide_eq_true_eq] at hmove
    have hlt := size_rebind_lt hmove.2
    exact ⟨_, rfl, h.rebind hentry hdiverted hmove.1, ⟨fun _ => rfl, fun _ => .inr hlt, hlt.le,
      (fun hf => nomatch hf), fun _ hname => hname⟩, (fun hf => nomatch hf),
      fun _ => Finset.mem_insert_self _ _, rfl⟩
  · rw [if_neg hmove]
    have hin : turns adm σ entry .moved = true → entry.name ∈ σ.rebound := by
      intro hmoved
      by_contra hnot
      exact hmove (by rw [hmoved, decide_eq_true hnot]; rfl)
    exact ⟨_, rfl, h, .refl _, fun _ => hin, hin, rfl⟩

/-- **What a visit does.** -/
theorem visit_later {r : Cascade × Bool} (h : Sound adm r.1) {entry : Entry}
    (hentry : entry ∈ adm.survivors) : Sound adm (visit adm r entry).1 ∧
      Later r (visit adm r entry) ∧ ((visit adm r entry).2 = false → Settled adm r.1 entry) := by
  obtain ⟨σ, changed⟩ := r
  unfold visit
  simp only
  by_cases hdiverted : entry.name ∈ σ.diverted
  · rw [if_pos hdiverted]
    exact ⟨h, .refl _, fun _ => .inl hdiverted⟩
  rw [if_neg hdiverted]
  by_cases hdown : (turns adm σ entry .lost || turns adm σ entry .upstream) = true
  · -- the survivor goes down: it leaves the other sets, so the size still grows
    rw [if_pos hdown]
    have hnew : entry.name ∉ σ.inactive := fun hin =>
      ((h.inactive _).mp hin).elim (survivor_not_gone hentry) hdiverted
    have hlt := size_divert_lt hdiverted
    refine ⟨h.divert hentry (by simpa using hdown), ⟨fun _ => ?_, fun _ => .inr hlt, hlt.le,
      fun hf => ?_, fun name hname => ?_⟩, fun hf => ?_⟩
    · simp [hnew]
    · simp [hnew] at hf
    · by_cases heq : name = entry.name
      · exact .inr (heq ▸ Finset.mem_insert_self _ _)
      · exact hname.imp (Finset.mem_erase_of_ne_of_mem heq) Finset.mem_insert_of_mem
    · simp [hnew] at hf
  rw [if_neg hdown]
  rw [Bool.or_eq_true, not_or, Bool.not_eq_true, Bool.not_eq_true] at hdown
  obtain ⟨r₁, hr₁, hsound₁, hlater₁, hmoved, hrebound, hd₁⟩ :=
    move_later h hentry hdiverted changed
  rw [hr₁]
  by_cases hmet : (turns adm σ entry .met &&
      decide (entry.name ∉ r₁.1.activated ∧ entry.name ∉ r₁.1.rebound)) = true
  · rw [if_pos hmet]
    rw [Bool.and_eq_true, decide_eq_true_eq] at hmet
    have hgains : Gains adm entry := by
      obtain ⟨key, hkey, hturn⟩ := turns_iff.mp hmet.1
      obtain ⟨hprior, now, hnow, -⟩ := turn_eq_met.mp hturn
      exact ⟨key, hkey, hprior, now, hnow⟩
    have hstill : ¬ Shifts adm entry := fun hshifts =>
      hmet.2.2 (hrebound (h.moved hdown.2 hshifts))
    have hlt := size_activate_lt hmet.2.1
    refine ⟨hsound₁.activate hentry (hd₁ ▸ hdiverted) hgains hstill, hlater₁.trans ⟨fun _ => rfl,
      fun _ => .inr hlt, hlt.le, (fun hf => nomatch hf), fun name hname => ?_⟩,
      (fun hf => nomatch hf)⟩
    exact hname.imp_left fun hin => Finset.mem_insert_of_mem hin
  · rw [if_neg hmet]
    refine ⟨hsound₁, hlater₁, fun hf => .inr ⟨hdown.1, hdown.2, hmoved hf, fun hturn => ?_⟩⟩
    have hsame := hlater₁.same hf
    rw [hsame, hturn, Bool.true_and, decide_eq_true_eq] at hmet
    by_contra hnot
    exact hmet (not_or.mp hnot)

/-- **What a pass does.** -/
theorem foldl_visit_later {order : List Entry} (horder : ∀ entry ∈ order, entry ∈ adm.survivors)
    {r : Cascade × Bool} (h : Sound adm r.1) :
    ∃ r', order.foldl (visit adm) r = r' ∧ Sound adm r'.1 ∧ Later r r' ∧
      (r'.2 = false → ∀ entry ∈ order, Settled adm r.1 entry) := by
  induction order generalizing r with
  | nil => exact ⟨r, rfl, h, .refl r, fun _ entry hentry => absurd hentry List.not_mem_nil⟩
  | cons entry order ih =>
    obtain ⟨hsound, hlater, hsettled⟩ := visit_later h (horder entry List.mem_cons_self)
    obtain ⟨r', heq, hsound', hlater', hrest⟩ :=
      ih (fun other hother => horder other (List.mem_cons_of_mem _ hother)) hsound
    refine ⟨r', heq, hsound', hlater.trans hlater', fun hf other hother => ?_⟩
    have hstill : (visit adm r entry).2 = false := by
      cases hr : (visit adm r entry).2 with
      | false => rfl
      | true => rw [hlater'.flag hr] at hf; cases hf
    rcases List.mem_cons.mp hother with rfl | hother
    · exact hsettled hstill
    · exact hlater.same hstill ▸ hrest hf other hother

theorem Sound.size_le {σ : Cascade} (h : Sound adm σ) : size σ ≤ 5 * adm.survivors.length := by
  have hcard : ∀ s : Finset String, (∀ name ∈ s, name ∈ adm.survivors.map Entry.name) →
      s.card ≤ adm.survivors.length := by
    intro s hs
    have hsub : s ⊆ (adm.survivors.map Entry.name).toFinset :=
      fun name hname => List.mem_toFinset.mpr (hs name hname)
    have hlen := (Finset.card_le_card hsub).trans (List.toFinset_card_le _)
    rwa [List.length_map] at hlen
  have hd := hcard σ.diverted fun name hname => h.survivors name (.inl hname)
  have ha := hcard σ.activated fun name hname => h.survivors name (.inr (.inl hname))
  have hr := hcard σ.rebound fun name hname => h.survivors name (.inr (.inr hname))
  unfold size
  omega

/-- The passes go on for as long as the prediction grows. -/
theorem passes_end {order : List Entry} (horder : order.Perm adm.survivors) (fuel : Nat)
    {σ : Cascade} (h : Sound adm σ) (hfuel : 5 * order.length < size σ + fuel) :
    ∃ σ', passes adm order fuel σ = some σ' ∧ Sound adm σ' ∧
      (∀ entry ∈ order, Settled adm σ' entry) ∧
        ∀ r, order.foldl (visit adm) (σ, false) = r →
          ∀ name, name ∈ r.1.activated ∨ name ∈ r.1.diverted →
            name ∈ σ'.activated ∨ name ∈ σ'.diverted := by
  induction fuel generalizing σ with
  | zero =>
    have hle := h.size_le
    rw [← horder.length_eq] at hle
    omega
  | succ fuel ih =>
    obtain ⟨⟨σ₁, changed⟩, heq, hsound, hlater, hsettled⟩ :=
      foldl_visit_later (r := (σ, false)) (fun entry hentry => horder.mem_iff.mp hentry) h
    rw [passes, heq]
    cases changed with
    | false =>
      obtain rfl : σ₁ = σ := hlater.same rfl
      refine ⟨σ₁, rfl, hsound, hsettled rfl, fun r hr name hname => ?_⟩
      subst hr
      exact hname
    | true =>
      have hlt := (hlater.grows rfl).resolve_left (by simp)
      simp only at hlt hsound
      obtain ⟨σ', heq', hsound', hsettled', hkeeps⟩ := ih hsound (by omega)
      obtain ⟨r₂, heq₂, -, hlater₂, -⟩ :=
        foldl_visit_later (r := (σ₁, false)) (fun entry hentry => horder.mem_iff.mp hentry) hsound
      refine ⟨σ', heq', hsound', hsettled', fun r hr name hname => ?_⟩
      subst hr
      exact hkeeps r₂ heq₂ name (hlater₂.keeps name hname)

/-! ## What the passes end with -/

section Final

variable {σ : Cascade} (h : Sound adm σ) (hsettled : ∀ entry ∈ adm.survivors, Settled adm σ entry)

include h hsettled

theorem Sound.diverted_iff {name : String} : name ∈ σ.diverted ↔ Loses adm name := by
  refine ⟨h.diverted name, fun hloses => ?_⟩
  induction hloses with
  | lost hentry hkey hprior hnow =>
    rcases hsettled _ hentry with hin | ⟨hlost, -⟩
    · exact hin
    · rw [turns_iff.mpr ⟨_, hkey, turn_eq_lost.mpr ⟨⟨_, hprior⟩, hnow⟩⟩] at hlost
      cases hlost
  | upstream hentry hkey hprior hnow _ ih =>
    rcases hsettled _ hentry with hin | ⟨-, hupstream, -⟩
    · exact hin
    · have hinactive := (h.inactive _).mpr (.inr ih)
      rw [turns_iff.mpr ⟨_, hkey, turn_eq_upstream.mpr ⟨⟨_, hprior⟩, _, hnow, hinactive⟩⟩]
        at hupstream
      cases hupstream

omit hsettled in
theorem Sound.not_inactive {entry : Entry} {key now : String}
    (hnow : adm.now entry key = some now) (hstays : ¬ Loses adm now) : now ∉ σ.inactive :=
  fun hin => hstays (h.inactive_loses hnow hin)

theorem Sound.rebound_iff {name : String} : name ∈ σ.rebound ↔ Moves adm name := by
  constructor
  · intro hname
    rcases h.rebound name hname with hmoves | hloses
    · exact hmoves
    · exact absurd hname (h.apart name ((h.diverted_iff hsettled).mpr hloses)).1
  · have hmoved : ∀ {entry : Entry} {key prior now : String}, entry ∈ adm.survivors →
        ¬ Loses adm entry.name → key ∈ entry.inject → adm.prior entry key = some prior →
        adm.now entry key = some now → ¬ Loses adm now →
        (now ≠ prior ∨ now ∈ σ.restarted ∨ now ∈ σ.rebound) → entry.name ∈ σ.rebound := by
      intro entry key prior now hentry hstays hkey hprior hnow hnowStays hcase
      rcases hsettled entry hentry with hin | ⟨-, -, hmoved, -⟩
      · exact absurd (h.diverted _ hin) hstays
      · exact hmoved (turns_iff.mpr ⟨key, hkey, turn_eq_moved.mpr
          ⟨prior, now, hprior, hnow, h.not_inactive hnow hnowStays, hcase⟩⟩)
    intro hmoves
    induction hmoves with
    | other hentry hstays hkey hprior hnow hnowStays hcase =>
      exact hmoved hentry hstays hkey hprior hnow hnowStays
        (hcase.imp_right fun hr => .inl (h.replaced hr))
    | chain hentry hstays hkey hprior hnow hnowStays _ ih =>
      exact hmoved hentry hstays hkey hprior hnow hnowStays (.inr (.inr ih))

/-- A survivor that loses nothing and gains a key whose provider loses nothing can activate, or
is rebound. -/
theorem Sound.activated_or_rebound {entry : Entry} (hentry : entry ∈ adm.survivors)
    (hstays : ¬ Loses adm entry.name) (hmeets : Meets adm entry) :
    entry.name ∈ σ.activated ∨ entry.name ∈ σ.rebound := by
  obtain ⟨key, hkey, hprior, now, hnow, hnowStays⟩ := hmeets
  rcases hsettled entry hentry with hin | ⟨-, -, -, hmet⟩
  · exact absurd (h.diverted _ hin) hstays
  · exact hmet (turns_iff.mpr ⟨key, hkey, turn_eq_met.mpr
      ⟨hprior, now, hnow, h.not_inactive hnow hnowStays⟩⟩)

end Final

/-- **The passes end, in every order of the survivors**: the diverted are those that lose a
provider, the rebound those that move. -/
theorem cascade_ends {order : List Entry} (horder : order.Perm adm.survivors) :
    ∃ σ, cascade adm order = some σ ∧ Sound adm σ ∧
      (∀ entry ∈ adm.survivors, Settled adm σ entry) ∧
        ∀ r, order.foldl (visit adm) (start adm, false) = r →
          ∀ name, name ∈ r.1.activated ∨ name ∈ r.1.diverted →
            name ∈ σ.activated ∨ name ∈ σ.diverted := by
  obtain ⟨σ, heq, hsound, hsettled, hkeeps⟩ :=
    passes_end horder (5 * order.length + 1) sound_start (by omega)
  exact ⟨σ, heq, hsound, fun entry hentry => hsettled entry (horder.mem_iff.mpr hentry), hkeeps⟩

/-! ## When the prediction is right -/

variable (adm) in
/-- The tables say of every survivor what becomes of it: it loses a provider exactly where it
stops being active and moves exactly where it is rebound; it becomes active where it only gains a
provider, and where it becomes active it gains one that stays. -/
structure Told : Prop where
  loses : ∀ entry ∈ adm.survivors, Loses adm entry.name ↔
    Active adm.before entry.name ∧ ¬ Active adm.after entry.name
  gains : ∀ entry ∈ adm.survivors, Gains adm entry → ¬ Loses adm entry.name →
    ¬ Shifts adm entry → ¬ Active adm.before entry.name ∧ Active adm.after entry.name
  meets : ∀ entry ∈ adm.survivors, ¬ Active adm.before entry.name →
    Active adm.after entry.name → Meets adm entry
  moves : ∀ entry ∈ adm.survivors, Moves adm entry.name ↔ Rebinds adm entry.name

theorem requires_iff_of_no_routes {entry : Entry} (hroutes : entry.routes = []) {place : Place} :
    Requires entry place ↔ ∃ key ∈ entry.inject, place = (key, realmOf entry key) := by
  unfold Requires targets
  rw [hroutes]
  simp only [Assoc.get?_nil, List.mem_singleton]

theorem rebinds_active {name : String} (h : Rebinds adm name) : Active adm.before name := by
  cases h with
  | other _ hactive _ _ _ _ _ => exact hactive
  | chain _ hactive _ _ _ _ _ => exact hactive

/-- A survivor that gains a key, visited first, is predicted to activate. -/
theorem visit_start_gains {entry : Entry} (hentry : entry ∈ adm.survivors)
    (hstays : ¬ Loses adm entry.name) (hstill : ¬ Shifts adm entry) (hgains : Gains adm entry) :
    entry.name ∈ (visit adm (start adm, false) entry).1.activated := by
  obtain ⟨key, hkey, hprior, now, hnow⟩ := hgains
  have hdown : (turns adm (start adm) entry .lost || turns adm (start adm) entry .upstream) =
      false := by
    rw [Bool.or_eq_false_iff, ← Bool.not_eq_true, ← Bool.not_eq_true, turns_iff, turns_iff]
    constructor
    · rintro ⟨k, hk, hturn⟩
      obtain ⟨⟨prior, hp⟩, hn⟩ := turn_eq_lost.mp hturn
      exact hstays (.lost hentry hk hp hn)
    · rintro ⟨k, hk, hturn⟩
      obtain ⟨-, n, hn, hgone⟩ := turn_eq_upstream.mp hturn
      exact now_not_gone hn hgone
  have hmoved : turns adm (start adm) entry .moved = false := by
    rw [← Bool.not_eq_true, turns_iff]
    rintro ⟨k, hk, hturn⟩
    obtain ⟨prior, n, hp, hn, -, hcase⟩ := turn_eq_moved.mp hturn
    exact hstill ⟨k, hk, prior, n, hp, hn,
      hcase.imp_right fun hr => hr.resolve_right (Finset.notMem_empty _)⟩
  have hmet : turns adm (start adm) entry .met = true :=
    turns_iff.mpr ⟨key, hkey, turn_eq_met.mpr ⟨hprior, now, hnow, now_not_gone hnow⟩⟩
  have hnone : entry.name ∉ (start adm).diverted ∧ entry.name ∉ (start adm).activated ∧
      entry.name ∉ (start adm).rebound :=
    ⟨Finset.notMem_empty _, Finset.notMem_empty _, Finset.notMem_empty _⟩
  unfold visit
  simp only [hdown, hmoved, hmet, hnone, if_false, Bool.false_and, Bool.false_eq_true,
    not_false_eq_true, and_self, decide_true, Bool.and_self, if_true]
  exact Finset.mem_insert_self _ _

/-- In the order that visits it first, a survivor that only gains a key is listed. -/
theorem activated_first {adm : Admission} {entry : Entry} (hentry : entry ∈ adm.survivors)
    (hstays : ¬ Loses adm entry.name) (hstill : ¬ Shifts adm entry) (hgains : Gains adm entry) :
    ∃ order, order.Perm adm.survivors ∧
      ∀ τ, cascade adm order = some τ → entry.name ∈ τ.activated := by
  have hfirst : (entry :: adm.survivors.erase entry).Perm adm.survivors :=
    (List.perm_cons_erase hentry).symm
  refine ⟨_, hfirst, fun τ heqτ => ?_⟩
  obtain ⟨τ', heqτ', hsound, hsettled, hkeeps⟩ := cascade_ends hfirst
  obtain rfl : τ = τ' := Option.some.inj (heqτ.symm.trans heqτ')
  obtain ⟨hsound₁, -, -⟩ := visit_later (r := (start adm, false)) sound_start hentry
  obtain ⟨r, hr, -, hlater, -⟩ := foldl_visit_later
    (fun other hother => List.mem_of_mem_erase hother) hsound₁
  have hactivated := hkeeps r hr entry.name
    (hlater.keeps _ (.inl (visit_start_gains hentry hstays hstill hgains)))
  refine hactivated.resolve_right fun hd => ?_
  exact hstays ((hsound.diverted_iff hsettled).mp hd)

/-! ### The losers first -/

theorem visit_inactive {r : Cascade × Bool} {entry : Entry} :
    r.1.inactive ⊆ (visit adm r entry).1.inactive := by
  unfold visit
  simp only
  split
  · exact Finset.Subset.refl _
  split
  · exact Finset.subset_insert _ _
  split <;> split <;> exact Finset.Subset.refl _

/-- A visit lists nothing but the entry, and only where one of its keys is met. -/
theorem visit_activated {r : Cascade × Bool} {entry : Entry} {name : String}
    (h : name ∈ (visit adm r entry).1.activated) :
    name ∈ r.1.activated ∨ name = entry.name ∧ turns adm r.1 entry .met = true := by
  revert h
  unfold visit
  simp only
  split
  · exact .inl
  split
  · exact fun h => .inl (Finset.mem_of_mem_erase h)
  split <;> split
  · rename_i hmet
    rw [Bool.and_eq_true] at hmet
    exact fun h => (Finset.mem_insert.mp h).symm.imp_right fun heq => ⟨heq, hmet.1⟩
  · exact .inl
  · rename_i hmet
    rw [Bool.and_eq_true] at hmet
    exact fun h => (Finset.mem_insert.mp h).symm.imp_right fun heq => ⟨heq, hmet.1⟩
  · exact .inl

/-- A survivor that is seen to lose a provider goes down. -/
theorem visit_down {r : Cascade × Bool} (h : Sound adm r.1) {entry : Entry}
    (hturns : turns adm r.1 entry .lost = true ∨ turns adm r.1 entry .upstream = true) :
    entry.name ∈ (visit adm r entry).1.inactive := by
  unfold visit
  simp only
  by_cases hdiverted : entry.name ∈ r.1.diverted
  · rw [if_pos hdiverted]
    exact (h.inactive _).mpr (.inr hdiverted)
  · rw [if_neg hdiverted, if_pos (by rw [Bool.or_eq_true]; exact hturns)]
    exact Finset.mem_insert_self _ _

variable (adm) in
/-- The survivors of the list go down when they are visited in its order. -/
structure Down (l : List Entry) : Prop where
  nodup : l.Nodup
  survivors : ∀ entry ∈ l, entry ∈ adm.survivors
  inactive : ∀ entry ∈ l, entry.name ∈ (l.foldl (visit adm) (start adm, false)).1.inactive

theorem Down.sound {l : List Entry} (h : Down adm l) :
    Sound adm (l.foldl (visit adm) (start adm, false)).1 := by
  obtain ⟨r, hr, hsound, -, -⟩ := foldl_visit_later (r := (start adm, false)) h.survivors
    sound_start
  rw [hr]
  exact hsound

/-- One that is seen to lose a provider behind the list can be put at its end. -/
theorem Down.append {l : List Entry} (h : Down adm l) {entry : Entry}
    (hentry : entry ∈ adm.survivors) (hnot : entry ∉ l)
    (hturns : turns adm (l.foldl (visit adm) (start adm, false)).1 entry .lost = true ∨
      turns adm (l.foldl (visit adm) (start adm, false)).1 entry .upstream = true) :
    Down adm (l ++ [entry]) := by
  refine ⟨?_, fun other hother => ?_, fun other hother => ?_⟩
  · refine List.nodup_append.mpr ⟨h.nodup, List.nodup_singleton _, fun a ha b hb => ?_⟩
    rintro rfl
    exact hnot (List.mem_singleton.mp hb ▸ ha)
  · rcases List.mem_append.mp hother with hother | hother
    · exact h.survivors other hother
    · exact List.mem_singleton.mp hother ▸ hentry
  · rw [List.foldl_append, List.foldl_cons, List.foldl_nil]
    rcases List.mem_append.mp hother with hother | hother
    · exact visit_inactive (h.inactive other hother)
    · rw [List.mem_singleton.mp hother]
      exact visit_down h.sound hturns

/-- A loser is in the list, or the list can be made longer. -/
theorem Down.mem_or_append {l : List Entry} (h : Down adm l) {name : String}
    (hloses : Loses adm name) : (∃ entry ∈ l, entry.name = name) ∨
      ∃ entry, Down adm (l ++ [entry]) := by
  -- on the derivation: a provider in the list is down when the entry is visited behind it
  induction hloses with
  | @lost entry key prior hentry hkey hprior hnow =>
    by_cases hmem : entry ∈ l
    · exact .inl ⟨entry, hmem, rfl⟩
    · exact .inr ⟨entry, h.append hentry hmem
        (.inl (turns_iff.mpr ⟨key, hkey, turn_eq_lost.mpr ⟨⟨prior, hprior⟩, hnow⟩⟩))⟩
  | @upstream entry key prior now hentry hkey hprior hnow _ ih =>
    rcases ih with ⟨provider, hprovider, rfl⟩ | hlonger
    · by_cases hmem : entry ∈ l
      · exact .inl ⟨entry, hmem, rfl⟩
      · exact .inr ⟨entry, h.append hentry hmem (.inr (turns_iff.mpr ⟨key, hkey,
          turn_eq_upstream.mpr ⟨⟨prior, hprior⟩, _, hnow, h.inactive provider hprovider⟩⟩))⟩
    · exact .inr hlonger

/-- Some order of the losers takes all of them down in one pass. -/
theorem losers_down (adm : Admission) :
    ∃ l, Down adm l ∧ ∀ name, Loses adm name → ∃ entry ∈ l, entry.name = name := by
  by_contra hnone
  push Not at hnone
  -- otherwise the list grows past the survivors
  have hlong : ∀ n, ∃ l, Down adm l ∧ l.length = n := by
    intro n
    induction n with
    | zero => exact ⟨[], ⟨List.nodup_nil, fun _ h => absurd h List.not_mem_nil,
        fun _ h => absurd h List.not_mem_nil⟩, rfl⟩
    | succ n ih =>
      obtain ⟨l, hl, rfl⟩ := ih
      obtain ⟨name, hloses, hmissing⟩ := hnone l hl
      rcases hl.mem_or_append hloses with ⟨entry, hentry, hname⟩ | ⟨entry, hentry⟩
      · exact absurd hname (hmissing entry hentry)
      · exact ⟨_, hentry, by rw [List.length_append, List.length_singleton]⟩
  obtain ⟨l, hl, hlength⟩ := hlong (adm.survivors.length + 1)
  have hle := List.Nodup.length_le_of_subset hl.nodup hl.survivors
  omega

/-- The list, and behind it the survivors that are not in it. -/
theorem Down.perm {l : List Entry} (h : Down adm l) :
    (l ++ adm.survivors.filter fun entry => decide (entry ∉ l)).Perm adm.survivors := by
  have hnodup : adm.survivors.Nodup := (List.Nodup.of_map _ adm.before_nodup).filter _
  have happend : (l ++ adm.survivors.filter fun entry => decide (entry ∉ l)).Nodup := by
    refine List.nodup_append.mpr ⟨h.nodup, hnodup.filter _, fun a ha b hb => ?_⟩
    rintro rfl
    exact of_decide_eq_true (List.mem_filter.mp hb).2 ha
  refine (List.perm_ext_iff_of_nodup happend hnodup).mpr fun entry => ?_
  rw [List.mem_append, List.mem_filter, decide_eq_true_eq]
  by_cases hmem : entry ∈ l
  · exact ⟨fun _ => h.survivors entry hmem, fun _ => .inl hmem⟩
  · exact ⟨fun hin => (hin.resolve_left hmem).1, fun hin => .inr ⟨hin, hmem⟩⟩

/-- What every visit keeps, a pass keeps. -/
theorem foldl_keeps {P : Cascade → Prop} {order : List Entry}
    (hvisit : ∀ r entry, entry ∈ order → P r.1 → P (visit adm r entry).1) {r : Cascade × Bool}
    (h : P r.1) : P (order.foldl (visit adm) r).1 :=
  List.foldlRecOn (motive := fun r => P r.1) order (visit adm) h
    fun r hr entry hentry => hvisit r entry hentry hr

theorem passes_keep {P : Cascade → Prop} {order : List Entry}
    (hvisit : ∀ r entry, entry ∈ order → P r.1 → P (visit adm r entry).1) {fuel : Nat}
    {σ σ' : Cascade} (h : P (order.foldl (visit adm) (σ, false)).1)
    (heq : passes adm order fuel σ = some σ') : P σ' := by
  induction fuel generalizing σ with
  | zero => cases heq
  | succ fuel ih =>
    rw [passes] at heq
    split at heq
    · exact ih (foldl_keeps hvisit h) heq
    · exact Option.some.inj heq ▸ h

/-- The visits of others do not list a survivor. -/
theorem foldl_not_activated {entry : Entry} (hentry : entry ∈ adm.survivors) {order : List Entry}
    (hnot : entry ∉ order) (horder : ∀ other ∈ order, other ∈ adm.survivors)
    {r : Cascade × Bool} (hr : entry.name ∉ r.1.activated) :
    entry.name ∉ (order.foldl (visit adm) r).1.activated := by
  refine foldl_keeps (P := fun σ => entry.name ∉ σ.activated) (fun r other hother hr hin => ?_) hr
  rcases visit_activated hin with hin | ⟨hname, -⟩
  · exact hr hin
  · exact hnot (survivor_eq hentry (horder other hother) hname ▸ hother)

variable (adm) in
/-- All losers are down, and the survivor is not listed. -/
structure Quiet (entry : Entry) (σ : Cascade) : Prop where
  down : ∀ name, Loses adm name → name ∈ σ.inactive
  quiet : entry.name ∉ σ.activated

/-- No visit lists a survivor whose new providers are all down. -/
theorem Quiet.visit {entry other : Entry} (hentry : entry ∈ adm.survivors)
    (hnone : ¬ Meets adm entry) (hother : other ∈ adm.survivors) {r : Cascade × Bool}
    (h : Quiet adm entry r.1) : Quiet adm entry (visit adm r other).1 := by
  refine ⟨fun name hname => visit_inactive (h.down name hname), fun hin => ?_⟩
  rcases visit_activated hin with hin | ⟨hname, hmet⟩
  · exact h.quiet hin
  · obtain ⟨key, hkey, hturn⟩ := turns_iff.mp hmet
    obtain ⟨hprior, now, hnow, hup⟩ := turn_eq_met.mp hturn
    obtain rfl := survivor_eq hentry hother hname
    exact hnone ⟨key, hkey, hprior, now, hnow, fun hloses => hup (h.down now hloses)⟩

/-- In an order that takes the losers down first, a survivor whose new providers all lose one is
not listed. -/
theorem activated_last {adm : Admission} {entry : Entry} (hentry : entry ∈ adm.survivors)
    (hstays : ¬ Loses adm entry.name) (hnone : ¬ Meets adm entry) :
    ∃ order, order.Perm adm.survivors ∧
      ∀ τ, cascade adm order = some τ → entry.name ∉ τ.activated := by
  obtain ⟨l, hl, hlosers⟩ := losers_down adm
  have hnot : entry ∉ l := by
    intro hmem
    rcases (hl.sound.inactive _).mp (hl.inactive entry hmem) with hgone | hdiverted
    · exact survivor_not_gone hentry hgone
    · exact hstays (hl.sound.diverted _ hdiverted)
  have hquiet : Quiet adm entry (l.foldl (visit adm) (start adm, false)).1 := by
    refine ⟨fun name hname => ?_, foldl_not_activated hentry hnot hl.survivors
      (Finset.notMem_empty _)⟩
    obtain ⟨other, hother, rfl⟩ := hlosers name hname
    exact hl.inactive other hother
  refine ⟨_, hl.perm, fun τ heq => (passes_keep (P := Quiet adm entry)
    (fun r other hother hr => hr.visit hentry hnone (hl.perm.mem_iff.mp hother)) ?_ heq).quiet⟩
  -- the rest of the first pass
  rw [List.foldl_append]
  exact foldl_keeps (fun r other hother hr => hr.visit hentry hnone (List.mem_of_mem_filter hother))
    hquiet

/-- A running component that waits for a key, and one that waits for it; the candidate brings the
key. -/
def pendingChain : Admission where
  before :=
    [⟨"cache", "cache.revl", ["db"], ["cache"], [], [], false⟩,
      ⟨"api", "api.revl", ["cache"], [], [], [], false⟩]
  candidate := [⟨"store", "store.revl", [], ["db"], [], [], false⟩]
  dropped := ["store"]
  before_nodup := by decide
  candidate_dropped := by decide

end Revl.Plan
