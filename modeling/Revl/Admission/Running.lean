import Revl.Admission.Interface
import Revl.Link.Linker

/-!
# Admission against a running composition (`admission.py`, `compiler.py`)

A candidate is compiled against a running document. It drops the components it replaces and those
it declares again, keeps the others as they are, and overrides the services it redeclares. Three
gates decide: the linker, the comparison of every redeclared service with the interface it
replaces, and the provisions that are withdrawn from components that stay.

- `Comp`, `Document`, `Candidate`: what is running, and what is to be admitted.
- `Survives`: the places a component requires keep a provider, and each provider accepts the
  calls the component was checked for.
- `Agreed`, `Safe`: where every provider of a required key provides it as the service it is
  required as, every redeclaration is settled and no secret parameter is read back.
- `survives_run`: **a component survives every run of safe admissions.**
-/

namespace Revl.Admission

open Link (Place Provides Requires Route realmOf targets)

/-! ## Documents -/

/-- A component of the document: the keys it requires and provides with their services. A template
is spawned at run time and has no entry in the manifest. -/
structure Comp where
  name : String
  source : String
  requires : Dict String String
  provides : Dict String String
  isolate : List (String × String)
  routes : List (String × Route)
  boot : Bool
  template : Bool

namespace Comp

def linked (comp : Comp) : Link.Component where
  name := comp.name
  source := comp.source
  requires := comp.requires.entries.map Prod.fst
  provides := comp.provides.entries.map Prod.fst
  isolate := comp.isolate
  routes := comp.routes
  boot := comp.boot

/-- The entry of the manifest. -/
def entry (comp : Comp) : Link.Entry := Link.componentEntry comp.linked

theorem mem_inject {comp : Comp} {key : String} :
    key ∈ comp.entry.inject ↔ ∃ service, comp.requires.get? key = some service := by
  simp [entry, Link.componentEntry, linked, Dict.get?_eq_some_iff]

end Comp

/-- A running document. -/
structure Document where
  services : Dict String ServiceDecl
  components : List Comp
  names_nodup : (components.map Comp.name).Nodup

/-- A program to admit, with the names of the components it replaces. -/
structure Candidate where
  services : Dict String ServiceDecl
  components : List Comp
  replacing : List String
  names_nodup : (components.map Comp.name).Nodup

namespace Candidate

/-- What the admission withdraws: what it replaces, and what it declares again. -/
def dropped (cand : Candidate) : List String := cand.replacing ++ cand.components.map Comp.name

/-- The components that get an entry. -/
def newcomers (cand : Candidate) : List Comp := cand.components.filter fun comp => !comp.template

end Candidate

namespace Document

variable (doc : Document) (cand : Candidate)

/-- The components with an entry in the manifest. -/
def running : List Comp := doc.components.filter fun comp => !comp.template

def retained : List Comp := doc.running.filter fun comp => decide (comp.name ∉ cand.dropped)

def withdrawn : List Comp := doc.running.filter fun comp => decide (comp.name ∈ cand.dropped)

/-- `_provision_services`: the service of every key, of the last component that provides it. A
manifest without its document has none. -/
def provisionServices (full : Bool) : List (String × String) :=
  if full then doc.components.flatMap fun comp => comp.provides.entries else []

/-- What the linker is given. -/
def links : Link.Links where
  running := (doc.retained cand).map Comp.entry
  components := cand.components.map Comp.linked
  templates := (cand.components.filter Comp.template).map Comp.name
  names_nodup := by
    rw [List.map_map, List.map_map]
    refine List.nodup_append'.mpr ⟨?_, cand.names_nodup, ?_⟩
    · exact doc.names_nodup.sublist
        ((List.filter_sublist.trans List.filter_sublist).map Comp.name)
    · intro name hold hnew
      obtain ⟨comp, hcomp, rfl⟩ := List.mem_map.mp hold
      have hkept := of_decide_eq_true (List.mem_filter.mp hcomp).2
      exact hkept (List.mem_append_right _ hnew)

/-- The document after the admission: what is kept with what is new, and the services of the
candidate over those that were read back. -/
def after : Document where
  services := (doc.services.map fun _ => serviceFromIr).update cand.services.entries
  components := (doc.components.filter fun comp => decide (comp.name ∉ cand.dropped)) ++
    cand.components
  names_nodup := by
    rw [List.map_append]
    refine List.nodup_append'.mpr ⟨?_, cand.names_nodup, ?_⟩
    · exact doc.names_nodup.sublist (List.filter_sublist.map Comp.name)
    · intro name hold hnew
      obtain ⟨comp, hcomp, rfl⟩ := List.mem_map.mp hold
      have hkept := of_decide_eq_true (List.mem_filter.mp hcomp).2
      exact hkept (List.mem_append_right _ hnew)

variable {doc cand}

theorem mem_retained {comp : Comp} :
    comp ∈ doc.retained cand ↔ comp ∈ doc.running ∧ comp.name ∉ cand.dropped := by
  simp [retained]

theorem mem_running_after {comp : Comp} :
    comp ∈ (doc.after cand).running ↔ comp ∈ doc.retained cand ∨ comp ∈ cand.newcomers := by
  simp only [running, after, retained, Candidate.newcomers, List.mem_filter, List.mem_append]
  tauto

theorem services_after (name : String) : (doc.after cand).services.get? name =
    (cand.services.get? name).or ((doc.services.get? name).map serviceFromIr) := by
  have hupdate := Dict.get?_update cand.services.nodup
    (doc.services.map fun _ => serviceFromIr) name
  rw [Dict.get?_map] at hupdate
  exact hupdate

end Document

/-! ## The gates -/

/-- The running components that touch a service. -/
structure Touchers where
  consumers : List String
  providers : List String
  unresolved : Bool

/-- `_service_touchers`: a key without a known service may be any. -/
def serviceTouchers (service : String) (keyService : List (String × String))
    (entries : List Link.Entry) : Touchers where
  consumers := (entries.filter fun entry =>
    entry.inject.any fun key => decide (Assoc.get? keyService key = some service)).map
      Link.Entry.name
  providers := (entries.filter fun entry =>
    entry.provides.any fun key => decide (Assoc.get? keyService key = some service)).map
      Link.Entry.name
  unresolved := entries.any fun entry =>
    (entry.inject ++ entry.provides).any fun key => (Assoc.get? keyService key).isNone

/-- `_admit_service_replacement`: a drift is admitted where nothing running touches the service. -/
def admitServiceReplacement (new old : ServiceDecl) (touch : Touchers) : Except Drift Unit :=
  match serviceCompatible new old (!touch.providers.isEmpty || touch.unresolved) with
  | none => .ok ()
  | some drift =>
    if touch.consumers = [] ∧ touch.providers = [] ∧ touch.unresolved = false then .ok ()
    else .error drift

/-- A component that stays, a place it requires and the component that provided it. -/
structure Withdrawal where
  consumer : String
  place : Place
  provider : String
  deriving DecidableEq, Repr

section Gates

variable (doc : Document) (cand : Candidate)

/-- The places that are provided afterwards. -/
def placesAfter : List Place :=
  (Link.provisions ((doc.retained cand ++ cand.newcomers).map Comp.entry)).map Prod.fst

/-- The places that are provided no longer. -/
def lostPlaces : List (Place × String) :=
  (Link.provisions ((doc.withdrawn cand).map Comp.entry)).filter fun p =>
    decide (p.1 ∉ placesAfter doc cand)

/-- `_admit_provision_withdrawal`: the first requirement that is lost. A routed key is left to the
linker. -/
def withdrawal : Option Withdrawal :=
  if doc.withdrawn cand = [] then none
  else ((doc.retained cand).map Comp.entry).findSome? fun entry =>
    entry.inject.findSome? fun key =>
      if (Assoc.get? entry.routes key).isSome then none
      else ((lostPlaces doc cand).find? fun p => decide (p.1 = (key, realmOf entry key))).map
        fun p => ⟨entry.name, p.1, p.2⟩

/-- The comparison of one redeclared service. One that is not running is not compared. -/
def replacement (full : Bool) (name : String) (new : ServiceDecl) : Except Drift Unit :=
  match doc.services.get? name with
  | none => .ok ()
  | some old => admitServiceReplacement new (serviceFromIr old)
      (serviceTouchers name (doc.provisionServices full) ((doc.retained cand).map Comp.entry))

/-- The candidate passes the gates. -/
structure Admitted (full : Bool) : Prop where
  linked : (doc.links cand).link.errors = []
  replaced : ∀ p ∈ cand.services.entries, replacement doc cand full p.1 p.2 = .ok ()
  kept : withdrawal doc cand = none

end Gates

/-! ## Components that survive -/

/-- A component under the interfaces of one document, seen in another. -/
structure Survives (start doc : Document) (comp : Comp) : Prop where
  provided : ∀ place, Requires comp.entry place →
    (∃ p ∈ start.running, Provides p.entry place) → ∃ p ∈ doc.running, Provides p.entry place
  accepts : ∀ key service interface, comp.requires.get? key = some service →
    start.services.get? service = some interface → ∀ place ∈ targets comp.entry key,
    ∀ p ∈ doc.running, Provides p.entry place → ∃ carried now, p.provides.get? key = some carried ∧
      doc.services.get? carried = some now ∧ Honours now interface

/-- A component that provides what another one requires provides it as the service it is required
as. -/
def AgreesWith (comp p : Comp) : Prop :=
  ∀ key service, comp.requires.get? key = some service → ∀ place ∈ targets comp.entry key,
    Provides p.entry place → p.provides.get? key = some service

def Agreed (doc : Document) (comp : Comp) : Prop := ∀ p ∈ doc.running, AgreesWith comp p

/-- The admissions that leave a component what it was checked against. -/
structure Safe (doc : Document) (cand : Candidate) (full : Bool) (comp : Comp) : Prop where
  offered : ∀ p ∈ cand.newcomers, AgreesWith comp p
  named : ∀ key service, comp.requires.get? key = some service →
    (cand.services.get? service).isSome = true →
    ∀ carried, Assoc.get? (doc.provisionServices full) key = some carried → carried = service
  settled : ∀ key service new old, comp.requires.get? key = some service →
    cand.services.get? service = some new → doc.services.get? service = some old → Settled new old
  unsealed : ∀ key service old, comp.requires.get? key = some service →
    cand.services.get? service = none → doc.services.get? service = some old →
    ∀ name m, old.methods.get? name = some m → m.secretParams = []

/-- An admission that keeps the component. -/
def Admits (comp : Comp) (doc doc' : Document) : Prop :=
  ∃ cand full, Admitted doc cand full ∧ comp.name ∉ cand.dropped ∧ doc' = doc.after cand

/-- A safe admission that keeps the component. -/
def AdmitsSafely (comp : Comp) (doc doc' : Document) : Prop :=
  ∃ cand full, Admitted doc cand full ∧ comp.name ∉ cand.dropped ∧ Safe doc cand full comp ∧
    doc' = doc.after cand

section Step

variable {doc : Document} {cand : Candidate} {full : Bool} {comp : Comp}

/-- A routed place is provided in what was linked. -/
theorem provided_of_linked (hlinked : (doc.links cand).link.errors = [])
    (hcomp : comp ∈ doc.retained cand) {key : String} {route : Route}
    (hroute : Assoc.get? comp.entry.routes key = some route) {realm : String}
    (hrealm : realm ∈ route.realms) :
    ∃ p ∈ (doc.after cand).running, Provides p.entry (key, realm) := by
  -- the linker asks for a provider in every realm of a route, of running entries as well
  have haccepted := (Link.errors_eq_nil_iff (doc.links cand).entries_names_nodup).mp hlinked
  have hentry : Link.ambientEntry comp.entry ∈ (doc.links cand).entries :=
    List.mem_append_left _ (List.mem_map_of_mem (List.mem_map_of_mem hcomp))
  obtain ⟨provider, hprovider, hprovides⟩ := haccepted.routed _ hentry (key, route)
    (Assoc.mem_of_get? hroute) realm hrealm
  rcases List.mem_append.mp hprovider with hold | hnew
  · obtain ⟨amb, hamb, rfl⟩ := List.mem_map.mp hold
    obtain ⟨p, hp, rfl⟩ := List.mem_map.mp hamb
    exact ⟨p, Document.mem_running_after.mpr (.inl hp), hprovides⟩
  · obtain ⟨linked, hlinked, rfl⟩ := List.mem_map.mp hnew
    obtain ⟨hmem, hname⟩ := List.mem_filter.mp hlinked
    obtain ⟨p, hp, rfl⟩ := List.mem_map.mp hmem
    have hplain : p.template = false := by
      by_contra htemplate
      refine of_decide_eq_true hname (List.mem_map_of_mem (List.mem_filter.mpr ⟨hp, ?_⟩))
      exact Bool.not_eq_false _ ▸ htemplate
    refine ⟨p, Document.mem_running_after.mpr (.inr (List.mem_filter.mpr ⟨hp, ?_⟩)), hprovides⟩
    rw [hplain]
    rfl

/-- A place that is provided and not lost is provided afterwards. -/
theorem provided_of_kept (hkept : withdrawal doc cand = none) (hcomp : comp ∈ doc.retained cand)
    {key : String} (hkey : key ∈ comp.entry.inject)
    (hroute : Assoc.get? comp.entry.routes key = none)
    {p : Comp} (hp : p ∈ doc.running) (hprovides : Provides p.entry (key, realmOf comp.entry key)) :
    ∃ q ∈ (doc.after cand).running, Provides q.entry (key, realmOf comp.entry key) := by
  by_cases hdropped : p.name ∈ cand.dropped
  · have hwithdrawn : p ∈ doc.withdrawn cand :=
      List.mem_filter.mpr ⟨hp, decide_eq_true hdropped⟩
    -- a place nobody provides afterwards is lost, and the component that stays requires it
    by_contra hnone
    have hlost : ((key, realmOf comp.entry key), p.name) ∈ lostPlaces doc cand := by
      refine List.mem_filter.mpr ⟨Link.mem_provisions.mpr
        ⟨_, List.mem_map_of_mem hwithdrawn, rfl, hprovides⟩, decide_eq_true fun hafter => hnone ?_⟩
      obtain ⟨⟨place, name⟩, hprovision, rfl⟩ := List.mem_map.mp hafter
      obtain ⟨entry, hentry, -, hq⟩ := Link.mem_provisions.mp hprovision
      obtain ⟨q, hqmem, rfl⟩ := List.mem_map.mp hentry
      exact ⟨q, Document.mem_running_after.mpr (List.mem_append.mp hqmem), hq⟩
    unfold withdrawal at hkept
    rw [if_neg (List.ne_nil_of_mem hwithdrawn)] at hkept
    have hentry := List.findSome?_eq_none_iff.mp hkept _ (List.mem_map_of_mem hcomp)
    have hnolost := List.findSome?_eq_none_iff.mp hentry key hkey
    rw [hroute, if_neg (by simp), Option.map_eq_none_iff] at hnolost
    exact List.find?_eq_none.mp hnolost _ hlost (decide_eq_true rfl)
  · exact ⟨p, Document.mem_running_after.mpr (.inl (Document.mem_retained.mpr ⟨hp, hdropped⟩)),
      hprovides⟩

/-- The places a component that stays requires keep a provider. -/
theorem Admitted.provided (h : Admitted doc cand full) (hcomp : comp ∈ doc.retained cand)
    {place : Place} (hplace : Requires comp.entry place)
    (hbefore : ∃ p ∈ doc.running, Provides p.entry place) :
    ∃ p ∈ (doc.after cand).running, Provides p.entry place := by
  obtain ⟨key, hkey, htarget⟩ := hplace
  unfold targets at htarget
  cases hroute : Assoc.get? comp.entry.routes key with
  | some route =>
    rw [hroute] at htarget
    obtain ⟨realm, hrealm, rfl⟩ := List.mem_map.mp htarget
    exact provided_of_linked h.linked hcomp hroute hrealm
  | none =>
    rw [hroute, List.mem_singleton] at htarget
    subst htarget
    obtain ⟨p, hp, hprovides⟩ := hbefore
    exact provided_of_kept h.kept hcomp hkey hroute hp hprovides

/-- A replacement that is admitted though a component requires the service is compatible. -/
theorem compatible_of_admitted {new old : ServiceDecl} {service key : String}
    {keyService : List (String × String)} {entries : List Link.Entry}
    (h : admitServiceReplacement new old (serviceTouchers service keyService entries) = .ok ())
    {entry : Link.Entry} (hentry : entry ∈ entries) (hkey : key ∈ entry.inject)
    (hnamed : ∀ carried, Assoc.get? keyService key = some carried → carried = service) :
    ∃ retained, serviceCompatible new old retained = none := by
  unfold admitServiceReplacement at h
  split at h
  · exact ⟨_, ‹_›⟩
  · -- a drift is admitted only where nothing touches the service, and the entry does
    split_ifs at h with huntouched
    obtain ⟨hconsumers, -, hresolved⟩ := huntouched
    cases hget : Assoc.get? keyService key with
    | none =>
      have hunresolved : (serviceTouchers service keyService entries).unresolved = true :=
        List.any_eq_true.mpr ⟨entry, hentry, List.any_eq_true.mpr
          ⟨key, List.mem_append_left _ hkey, by rw [hget]; rfl⟩⟩
      rw [hresolved] at hunresolved
      cases hunresolved
    | some carried =>
      obtain rfl := hnamed carried hget
      have hconsumer : entry.name ∈ (serviceTouchers carried keyService entries).consumers :=
        List.mem_map_of_mem (List.mem_filter.mpr ⟨hentry, List.any_eq_true.mpr
          ⟨key, hkey, decide_eq_true hget⟩⟩)
      rw [hconsumers] at hconsumer
      cases hconsumer

/-- A service a component requires is afterwards what it was, or honours it. -/
theorem Admitted.honours (h : Admitted doc cand full) (hsafe : Safe doc cand full comp)
    (hcomp : comp ∈ doc.retained cand) {key service : String}
    (hservice : comp.requires.get? key = some service) {interface : ServiceDecl}
    (hinterface : doc.services.get? service = some interface) :
    ∃ now, (doc.after cand).services.get? service = some now ∧ Honours now interface := by
  rw [Document.services_after]
  cases hnew : cand.services.get? service with
  | none =>
    refine ⟨serviceFromIr interface, by rw [hinterface]; rfl, honours_serviceFromIr ?_⟩
    exact hsafe.unsealed key service interface hservice hnew hinterface
  | some new =>
    refine ⟨new, rfl, ?_⟩
    have hreplaced := h.replaced (service, new) (Dict.get?_eq_some_iff.mp hnew)
    rw [replacement, hinterface] at hreplaced
    obtain ⟨retained, hcompatible⟩ := compatible_of_admitted hreplaced (List.mem_map_of_mem hcomp)
      (Comp.mem_inject.mpr ⟨service, hservice⟩)
      (hsafe.named key service hservice (by rw [hnew]; rfl))
    exact honours_of_compatible hcompatible
      (hsafe.settled key service new interface hservice hnew hinterface)

end Step

/-! ## Runs -/

/-- What a run of safe admissions keeps of a component. -/
structure Held (start doc : Document) (comp : Comp) : Prop where
  running : comp ∈ doc.running
  agreed : Agreed doc comp
  provided : ∀ place, Requires comp.entry place →
    (∃ p ∈ start.running, Provides p.entry place) → ∃ p ∈ doc.running, Provides p.entry place
  honoured : ∀ key service interface, comp.requires.get? key = some service →
    start.services.get? service = some interface →
    ∃ now, doc.services.get? service = some now ∧ Honours now interface

theorem Held.start {start : Document} {comp : Comp} (hcomp : comp ∈ start.running)
    (hagreed : Agreed start comp) : Held start start comp where
  running := hcomp
  agreed := hagreed
  provided := fun _ _ h => h
  honoured := fun _ _ interface _ h => ⟨interface, h, .refl interface⟩

/-- One safe admission keeps what is held. -/
theorem Held.step {start doc doc' : Document} {comp : Comp} (h : Held start doc comp)
    (hstep : AdmitsSafely comp doc doc') : Held start doc' comp := by
  obtain ⟨cand, full, hadmitted, hstays, hsafe, rfl⟩ := hstep
  have hretained := Document.mem_retained.mpr ⟨h.running, hstays⟩
  refine ⟨Document.mem_running_after.mpr (.inl hretained), fun p hp => ?_,
    fun place hplace hstart => ?_, fun key service interface hservice hinterface => ?_⟩
  · rcases Document.mem_running_after.mp hp with hold | hnew
    · exact h.agreed p (Document.mem_retained.mp hold).1
    · exact hsafe.offered p hnew
  · exact hadmitted.provided hretained hplace (h.provided place hplace hstart)
  · obtain ⟨mid, hmid, hhonours⟩ := h.honoured key service interface hservice hinterface
    obtain ⟨now, hnow, hhonours'⟩ := hadmitted.honours hsafe hretained hservice hmid
    exact ⟨now, hnow, hhonours'.trans hhonours⟩

/-- What is held after a whole run, by induction on the admissions. -/
theorem Held.run {start doc : Document} {comp : Comp} (hcomp : comp ∈ start.running)
    (hagreed : Agreed start comp) (hrun : Relation.ReflTransGen (AdmitsSafely comp) start doc) :
    Held start doc comp := by
  induction hrun with
  | refl => exact .start hcomp hagreed
  | tail _ hstep ih => exact ih.step hstep

theorem Held.survives {start doc : Document} {comp : Comp} (h : Held start doc comp) :
    Survives start doc comp where
  provided := h.provided
  accepts := by
    intro key service interface hservice hinterface place hplace p hp hprovides
    obtain ⟨now, hnow, hhonours⟩ := h.honoured key service interface hservice hinterface
    exact ⟨service, now, h.agreed p hp key service hservice place hplace hprovides, hnow, hhonours⟩

/-- **A component survives every run of safe admissions**: each place it requires keeps a provider,
and every provider accepts the calls the component was checked for at the start. -/
theorem survives_run {start doc : Document} {comp : Comp} (hcomp : comp ∈ start.running)
    (hagreed : Agreed start comp) (hrun : Relation.ReflTransGen (AdmitsSafely comp) start doc) :
    Survives start doc comp :=
  (Held.run hcomp hagreed hrun).survives

/-! ## A database and its consumer -/

/-- A query over one text. -/
def query (emission : Bool) (trusted : List Nat) : MethodDecl where
  params := [("sql", some (.app (.name "Str") []))]
  returns := some (.app (.name "Int") [])
  emission := emission
  async := false
  commutative := false
  capabilities := if emission then some ["db"] else none
  witnessed := none
  trustedParams := trusted
  secretParams := []
  returnsQualifier := none

def database (methods : List (String × MethodDecl))
    (h : (methods.map Prod.fst).Nodup) : Dict String ServiceDecl :=
  ⟨[("Db", ⟨⟨methods, h⟩, false⟩)], List.nodup_singleton _⟩

def provider (name : String) : Comp :=
  ⟨name, "pg.revl", .empty, ⟨[("db", "Db")], by decide⟩, [], [], false, false⟩

def consumer : Comp :=
  ⟨"App", "app.revl", ⟨[("db", "Db")], by decide⟩, .empty, [], [], false, false⟩

def runningApp : Document where
  services := database [("query", query true [])] (by decide)
  components := [provider "Pg", consumer]
  names_nodup := by decide

/-- A new provider, whose query no longer emits and which can be closed. -/
def purerDatabase : Candidate where
  services := database [("query", query false []), ("close", query false [])] (by decide)
  components := [provider "Pg2"]
  replacing := ["Pg"]
  names_nodup := by decide

/-- Nothing but the interface, whose query takes trusted text only. -/
def trustedDatabase : Candidate where
  services := database [("query", query true [0])] (by decide)
  components := []
  replacing := []
  names_nodup := by decide

theorem requires_consumer {key service : String}
    (h : consumer.requires.get? key = some service) : key = "db" ∧ service = "Db" := by
  have hdb : (key, service) ∈ [("db", "Db")] := Dict.get?_eq_some_iff.mp h
  exact Prod.mk.inj (List.mem_singleton.mp hdb)

theorem agreed_runningApp : Agreed runningApp consumer := by
  intro p hp key service hservice place hplace hprovides
  obtain ⟨rfl, rfl⟩ := requires_consumer hservice
  have hmem : p ∈ [provider "Pg", consumer] := hp
  rcases List.mem_pair.mp hmem with rfl | rfl
  · rfl
  · obtain rfl : place = ("db", "") := List.mem_singleton.mp hplace
    exact absurd hprovides.1 (by decide)

theorem admitted_purerDatabase : Admitted runningApp purerDatabase true where
  linked := by decide +kernel
  replaced := by
    intro p hp
    obtain rfl := List.mem_singleton.mp hp
    rfl
  kept := by decide +kernel

theorem safe_purerDatabase : Safe runningApp purerDatabase true consumer where
  offered := by
    intro p hp key service hservice place hplace _
    obtain ⟨rfl, rfl⟩ := requires_consumer hservice
    have hmem : p ∈ [provider "Pg2"] := hp
    obtain rfl := List.mem_singleton.mp hmem
    rfl
  named := by
    intro key service hservice _ carried hcarried
    obtain ⟨rfl, rfl⟩ := requires_consumer hservice
    exact (Option.some.inj hcarried).symm
  settled := by
    intro key service new old hservice hnew hold name nm om hnm hom
    obtain ⟨rfl, rfl⟩ := requires_consumer hservice
    obtain rfl := Option.some.inj hnew
    obtain rfl := Option.some.inj hold
    have hquery : (name, om) ∈ [("query", query true [])] := Dict.get?_eq_some_iff.mp hom
    obtain ⟨rfl, rfl⟩ := Prod.mk.inj (List.mem_singleton.mp hquery)
    obtain rfl := Option.some.inj hnm
    refine ⟨fun _ h => h, fun _ h => h, .inl rfl, fun p hp => .inl ?_, .inl rfl⟩
    obtain rfl := List.mem_singleton.mp hp
    rfl
  unsealed := by
    intro key service old hservice hnone
    obtain ⟨rfl, rfl⟩ := requires_consumer hservice
    cases hnone

theorem survives_run_purerDatabase :
    Survives runningApp (runningApp.after purerDatabase) consumer :=
  survives_run (by simp [runningApp, Document.running, consumer, provider]) agreed_runningApp
    (.single ⟨purerDatabase, true, admitted_purerDatabase, by decide, safe_purerDatabase, rfl⟩)

/-- The running provider stays, and the interface it was checked against changes under it and its
consumer: the comparison reads no qualifier. -/
theorem consumer_outlived : consumer ∈ runningApp.running ∧ Agreed runningApp consumer ∧
    Admits consumer runningApp (runningApp.after trustedDatabase) ∧
    ¬ Survives runningApp (runningApp.after trustedDatabase) consumer := by
  refine ⟨by simp [runningApp, Document.running, consumer, provider], agreed_runningApp,
    ⟨trustedDatabase, true, ⟨by decide +kernel, fun p hp => ?_, by decide +kernel⟩, by decide,
      rfl⟩, fun h => ?_⟩
  · obtain rfl := List.mem_singleton.mp hp
    rfl
  · obtain ⟨carried, now, hcarried, hnow, hhonours⟩ := h.accepts "db" "Db" _ rfl rfl ("db", "")
      (List.mem_singleton_self _) (provider "Pg") (List.mem_cons_self) ⟨by decide, rfl⟩
    obtain rfl := Option.some.inj hcarried
    obtain rfl := Option.some.inj hnow
    obtain ⟨nm, hnm, hserves⟩ := hhonours "query" (query true []) rfl
    obtain rfl := Option.some.inj hnm
    exact absurd (hserves.trusted 0 (List.mem_singleton_self 0)) List.not_mem_nil

end Revl.Admission
