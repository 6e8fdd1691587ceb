import Mathlib.Data.List.Induction
import Wiring.Proofs.Endings
import Wiring.Proofs.Resolving
import Wiring.Proofs.Soundness

/-!
# What steps change

`Moves` speaks of parts of a run that succeed.  `Changes` lists the single changes that any step
makes, one after the other, so it also speaks of a step that fails midway: it has made some of
them.  What each of the changes keeps is kept at every moment of every run.

A set of barred names runs through: names that the default filter excludes, for which a run
makes fewer changes.  With no name barred the relation is about all runs alike.
-/

namespace Wiring

/-! ## Barred names -/

/-- A group gives entries only for classes whose selectors it has been handed. -/
def Group.KeepsOrigins (g : Group) : Prop :=
  ∀ calls, ∀ e ∈ g.entries calls, ∃ c selector,
    GroupCall.process c selector ∈ calls ∧ c.name = e.origin.name

theorem Group.keepsOrigins_default : Group.default.KeepsOrigins := by
  intro calls
  show ∀ e ∈ Group.held calls, _
  induction calls using List.reverseRecOn with
  | nil => exact fun e he => nomatch he
  | append_singleton calls call ih =>
    intro e he
    rw [held, List.foldl_append] at he
    cases call with
    | process c s =>
      obtain he | he := List.mem_append.1 he
      · obtain ⟨c', s', hcall, hname⟩ := ih e he
        exact ⟨c', s', List.mem_append_left _ hcall, hname⟩
      · obtain ⟨_, _, rfl⟩ := List.mem_map.1 he
        exact ⟨c, s, List.mem_append_right _ List.mem_cons_self, rfl⟩
    | selectImports => cases he

/-- Every group that a loaded type produces keeps origins. -/
def World.KeepsOrigins (w : World) : Prop :=
  ∀ t ∈ w.resolver.types.types, ∀ maker, t.maker = some maker → ∀ around g,
    maker.make around = .ok (.group g) → g.KeepsOrigins

/-- The default filter excludes the barred names.  If there are any, groups keep origins. -/
structure World.Bars (w : World) (X : String → Prop) : Prop where
  excludes : ∀ {name}, X name → w.resolver.filter.excludes name = true
  groups : ∀ {name}, X name → w.KeepsOrigins

theorem World.bars_nothing (w : World) : w.Bars fun _ => False :=
  ⟨fun h => h.elim, fun h => h.elim⟩

theorem World.bars_excluded {w : World} (hw : w.KeepsOrigins) :
    w.Bars fun name => w.resolver.filter.excludes name = true :=
  ⟨id, fun _ => hw⟩

/-- The filter excludes every barred name. -/
def NameFilter.Covers (f : NameFilter) (X : String → Prop) : Prop :=
  ∀ name, X name → f.excludes name = true

theorem NameFilter.Covers.orElse? {f : NameFilter} {X : String → Prop} (h : f.Covers X)
    (g : Option NameFilter) : (f.orElse? g).Covers X := by
  intro name hname
  cases g with
  | none => exact h name hname
  | some g =>
    show (f.excludes name || g.excludes name) = true
    rw [h name hname, Bool.true_or]

/-- The view is empty, or its name is not barred. -/
def View.IsOpen (v : View) (X : String → Prop) : Prop := v = .object ∨ ¬ X v.name

namespace Resolver

variable {X : String → Prop} {r : Resolver}

theorem isOpen_ofName {name : String} {f : NameFilter} {v : View} (hf : f.Covers X)
    (h : r.ofName name f = .ok v) : v.IsOpen X := by
  cases hname : f.excludes name with
  | true =>
    rw [ofName_of_excludes hname] at h
    exact .inl (Except.ok.inj h).symm
  | false =>
    refine .inr fun hX => ?_
    rw [name_ofName hname h] at hX
    cases hname.symm.trans (hf name hX)

theorem isOpen_related {v u : View} {name : String} (hr : r.filter.Covers X)
    (h : r.related v name = .ok u) : u.IsOpen X := by
  cases hname : r.filter.excludes name with
  | true => exact .inl (related_of_excludes hname h)
  | false =>
    refine .inr fun hX => ?_
    rw [name_related hname h] at hX
    cases hname.symm.trans (hr name hX)

theorem isOpen_imports {v : View} {us : List View} (hr : r.filter.Covers X)
    (h : r.imports v = .ok us) : ∀ u ∈ us, u.IsOpen X := by
  intro u hu
  obtain ⟨_, _, hrelated⟩ := related_of_mem_imports h u hu
  exact isOpen_related hr hrelated

/-- The empty view is no candidate, so member candidates are not barred. -/
theorem not_barred_memberCandidates {v m : View} {name : String} (hr : r.filter.Covers X)
    (h : m ∈ Step.memberCandidates r v name) : ¬ X m.name := by
  obtain ⟨hmember, hcandidate, _⟩ := Step.mem_memberCandidates.1 h
  obtain ⟨_, _, hrelated⟩ := related_of_mem_members hmember
  rcases isOpen_related hr hrelated with rfl | hopen
  · rw [not_isCandidate_object] at hcandidate
    cases hcandidate
  · exact hopen

end Resolver

/-! ## Changes -/

namespace ConfigClass

/-- The record was registered by itself and has collected nothing. -/
structure IsInert (c : ConfigClass) : Prop where
  importedBy : c.importedBy = {}
  beanMethods : c.beanMethods = {}
  resources : c.resources = {}
  registrars : c.registrars = []
  sources : ∀ u ∈ c.sources, u = .object

theorem isInert_explicit (v : View) (beanName : Option String) : (explicit v beanName).IsInert :=
  ⟨rfl, rfl, rfl, rfl, fun _ h => by cases h⟩

theorem IsInert.isImported {c : ConfigClass} (h : c.IsInert) : c.isImported = false := by
  rw [ConfigClass.isImported, h.importedBy]
  rfl

end ConfigClass

/-- What may be changed, one change after the other. -/
inductive Changes (X : String → Prop) : Collecting → Collecting → Prop
  | refl (s : Collecting) : Changes X s s
  | trans {s t u : Collecting} : Changes X s t → Changes X t u → Changes X s u
  /-- Nothing is committed, claimed, queued or marked. -/
  | aside {s : Collecting} {run : Run} : run.classes = s.run.classes →
      run.superclassOwners = s.run.superclassOwners → run.queue = s.run.queue →
      run.history = s.run.history → Changes X s { s with run }
  | imported {s : Collecting} {name importer : String} : ¬ X name → ¬ X importer →
      Changes X s { s with run := s.run.importing name importer }
  | opened {s : Collecting} {c : ConfigClass} : (X c.name → c.isImported = false) →
      Changes X s { s with run := s.run.opening c }
  | closed (s : Collecting) : Changes X s { s with run := RunM.close s.run }
  | claimed {s : Collecting} {name owner : String} : ¬ X owner →
      Changes X s { s with run := { s.run with
        superclassOwners := s.run.superclassOwners.insert name owner } }
  | queued {s : Collecting} {queue : List Deferred} {d : Deferred} :
      s.run.queue = some queue → s.run.HasOpened d.owner.name → ¬ X d.owner.name →
      Changes X s { s with run := { s.run with queue := some (queue ++ [d]) } }
  /-- The queue is closed, or opened with nothing in it. -/
  | emptied {s : Collecting} {queue : Option (List Deferred)} : queue = none ∨ queue = some [] →
      Changes X s { s with run := { s.run with queue } }
  | withdrawn {s : Collecting} (name : String) :
      Changes X s { s with run := s.run.withdraw name }
  | committed {s : Collecting} {c : ConfigClass} : s.run.HasOpened c.name →
      (X c.name → c.IsInert) → Changes X s { s with run := s.run.commit c }
  | absorbed {s : Collecting} {name : String} {scratch : ConfigClass} : ¬ X name →
      Changes X s { s with run := { s.run with
        classes := s.run.classes.modify name (·.absorb scratch) } }
  /-- Something is collected on another record, which does not stay. -/
  | inside {s t : Collecting} {c : ConfigClass} : Changes X ⟨c, s.run⟩ t →
      Changes X s { s with run := t.run }
  | gathered {s : Collecting} {record : ConfigClass} : ¬ X s.record.name →
      record.view = s.record.view → Changes X s { s with record }
  | collected {s : Collecting} {v : View} {ms : List Method} :
      (X s.record.name → v = .object ∧ ms = []) →
      Changes X s { s with record := s.record.gained v ms }

/-- The record that is being collected is inert if its class is barred. -/
def Collecting.IsBarred (s : Collecting) (X : String → Prop) : Prop :=
  X s.record.name → s.record.IsInert

/-- What is committed or queued has been opened, and what is queued is not barred. -/
structure Run.Sane (s : Run) (X : String → Prop) : Prop where
  keyed : s.Keyed
  opened : ∀ name, s.Committed name → s.HasOpened name
  queue : ∀ queue, s.queue = some queue → ∀ d ∈ queue,
    s.HasOpened d.owner.name ∧ ¬ X d.owner.name

theorem Run.sane_fresh (environment : Environment) (registry : Registry) (X : String → Prop) :
    (fresh environment registry).Sane X where
  keyed := fun _ h => by cases h
  opened := fun _ h => by cases h
  queue := by
    intro queue h d hd
    obtain rfl := Option.some.inj h
    cases hd

/-- Whatever is opened besides, the same is committed and queued. -/
theorem Run.Sane.later {s t : Run} {X : String → Prop} (hs : s.Sane X)
    (classes : t.classes = s.classes) (queue : t.queue = s.queue)
    (history : s.history ⊆ t.history) : t.Sane X := by
  refine ⟨?_, fun name hname => ?_, fun waiting hwaiting d hd => ?_⟩
  · rw [Keyed, classes]
    exact hs.keyed
  · rw [Committed, classes] at hname
    exact (hs.opened name hname).mono history
  · rw [queue] at hwaiting
    exact (hs.queue waiting hwaiting d hd).imp_left fun h => h.mono history

namespace Changes

variable {X : String → Prop} {s t : Collecting}

theorem view_eq (h : Changes X s t) : t.record.view = s.record.view := by
  induction h with
  | trans _ _ ih ih' => exact ih'.trans ih
  | gathered _ hview => exact hview
  | collected _ => rw [ConfigClass.gained, ConfigClass.addMethods_eq]
  | _ => rfl

theorem name_eq (h : Changes X s t) : t.record.name = s.record.name := by
  rw [ConfigClass.name, ConfigClass.name, h.view_eq]

theorem history_suffix (h : Changes X s t) : s.run.history <:+ t.run.history := by
  induction h with
  | trans _ _ ih ih' => exact ih.trans ih'
  | aside _ _ _ hhistory => exact hhistory ▸ List.suffix_rfl
  | imported _ _ => exact List.suffix_cons _ _
  | opened _ => exact List.suffix_cons _ _
  | closed _ => exact List.suffix_cons _ _
  | inside _ ih => exact ih
  | _ => exact List.suffix_rfl

theorem hasOpened (h : Changes X s t) {name : String} (hname : s.run.HasOpened name) :
    t.run.HasOpened name :=
  hname.mono h.history_suffix.subset

/-- The record's class stays opened. -/
theorem hasOpened_record (h : Changes X s t) (hs : s.run.HasOpened s.record.name) :
    t.run.HasOpened t.record.name := by
  rw [h.name_eq]
  exact h.hasOpened hs

theorem isBarred (h : Changes X s t) (hs : s.IsBarred X) : t.IsBarred X := by
  induction h with
  | trans _ _ ih ih' => exact ih' (ih hs)
  | gathered hopen hview =>
    intro hX
    rw [ConfigClass.name, hview] at hX
    exact absurd hX hopen
  | @collected s v ms hv =>
    intro hX
    rw [(Changes.collected hv).name_eq] at hX
    obtain ⟨rfl, rfl⟩ := hv hX
    have hinert := hs hX
    refine ⟨hinert.importedBy, hinert.beanMethods, hinert.resources, hinert.registrars, ?_⟩
    intro u hu
    rcases List.mem_append.1 hu with hu | hu
    · exact hinert.sources u hu
    · exact List.mem_singleton.1 hu
  | _ => exact hs

theorem sane (h : Changes X s t) (hs : s.run.Sane X) : t.run.Sane X := by
  induction h with
  | refl _ => exact hs
  | trans _ _ ih ih' => exact ih' (ih hs)
  | aside hclasses _ hqueue hhistory =>
    exact hs.later hclasses hqueue (by rw [hhistory]; exact fun _ h => h)
  | imported _ _ => exact hs.later rfl rfl (List.subset_cons_self _ _)
  | opened _ => exact hs.later rfl rfl (List.subset_cons_self _ _)
  | closed _ => exact hs.later rfl rfl (List.subset_cons_self _ _)
  | claimed _ => exact ⟨hs.keyed, hs.opened, hs.queue⟩
  | @queued s queue d hqueue hopened hbarred =>
    refine ⟨hs.keyed, hs.opened, fun queue' hq d' hd => ?_⟩
    obtain rfl := Option.some.inj hq
    rcases List.mem_append.1 hd with hd | hd
    · exact hs.queue queue hqueue d' hd
    · rw [List.mem_singleton.1 hd]
      exact ⟨hopened, hbarred⟩
  | @emptied s queue hempty =>
    refine ⟨hs.keyed, hs.opened, fun queue' hq d hd => ?_⟩
    rcases hempty with rfl | rfl
    · cases hq
    · obtain rfl := Option.some.inj hq
      cases hd
  | withdrawn name =>
    refine ⟨hs.keyed.withdraw name, fun other hother => ?_, hs.queue⟩
    refine hs.opened other ?_
    rw [Run.Committed, OrderedMap.contains_iff] at hother ⊢
    exact (OrderedMap.keys_erase_sublist _ _).subset hother
  | committed hopened _ =>
    refine ⟨hs.keyed.commit _, fun name hname => ?_, hs.queue⟩
    rcases Run.committed_commit.1 hname with rfl | hname
    · exact hopened
    · exact hs.opened name hname
  | absorbed _ =>
    refine ⟨hs.keyed.absorb _ _, fun name hname => ?_, hs.queue⟩
    exact hs.opened name (Run.committed_modify.1 hname)
  | inside _ ih => exact ih hs
  | gathered _ _ => exact hs
  | collected _ => exact hs

end Changes

end Wiring
