import Mathlib.Order.Bounds.Defs
import Wiring.Proofs.Accounts
import Wiring.Proofs.Coherence

/-!
# The classes that a run resolves

Without scans, conditions, selectors and superclasses outside the platform, a class leads to its
plain imports and, if it is a component, to its member candidates.  A successful call commits the
seeds and what they lead to, however many steps away, and nothing else.  What is cut off where
imports go round in a circle is followed elsewhere: by the record of the same class that is
further out.
-/

namespace Wiring

namespace Resolver

/-- The view imports the class, or has it as a member and is a component. -/
def Leads (r : Resolver) (v : View) (name : String) : Prop :=
  (∃ us, r.imports v = .ok us ∧ ∃ u ∈ us, r.IsPlain u ∧ u.name = name) ∨
    (r.isTagged v.info WellKnown.component = true ∧
      ∃ m ∈ Step.memberCandidates r v v.name, m.name = name)

/-- The class of the first name leads to that of the second. -/
def LeadsTo (r : Resolver) (source target : String) : Prop :=
  ∃ v, r.ofName source .none = .ok v ∧ r.Leads v target

/-- The view is what its name stands for. -/
def Matches (r : Resolver) (v : View) : Prop :=
  ∃ u, r.ofName v.name .none = .ok u ∧ u.info = v.info

/-- The view is what its name stands for, and not excluded. -/
def Stands (r : Resolver) (v : View) : Prop :=
  r.filter.excludes v.name = false ∧ ∃ u, r.ofName v.name .none = .ok u ∧ u.info = v.info

variable {r : Resolver} {u v : View} {name : String}

theorem stands_of_ofName (hfilter : r.filter.excludes name = false)
    (h : r.ofName name .none = .ok v) : r.Stands v := by
  have hname : v.name = name := name_ofName rfl h
  rw [Stands, hname]
  exact ⟨hfilter, v, h, rfl⟩

/-- A class that is referred to stands for its name, unless it is excluded. -/
theorem stands_of_related (hr : r.Coherent) (h : r.related v name = .ok u) :
    u = .object ∨ r.Stands u := by
  cases hfilter : r.filter.excludes name with
  | true => exact .inl (related_of_excludes hfilter h)
  | false =>
    have hname : u.name = name := name_related hfilter h
    have hinfo := hr.info_related v name
    rw [h] at hinfo
    obtain ⟨u', hu', heq⟩ := exceptMap_eq_ok.1 hinfo.symm
    rw [ofName_eq_of_not_excludes hfilter (rfl : NameFilter.none.excludes name = false)] at hu'
    refine .inr ?_
    rw [Stands, hname]
    exact ⟨hfilter, u', hu', heq⟩

theorem Matches.knows (h : r.Matches v) : r.Knows v := by
  obtain ⟨u, hu, hinfo⟩ := h
  have hname : u.name = v.name := congrArg ClassInfo.name hinfo
  have hknows := knows_ofName hu
  rw [Knows, View.IsBare, hinfo, hname] at hknows
  exact hknows

theorem Stands.knows (h : r.Stands v) : r.Knows v := Matches.knows h.2

theorem stands_of_import (hr : r.Coherent) {us : List View} (hus : r.imports v = .ok us)
    (hu : u ∈ us) (hplain : r.IsPlain u) : r.Stands u := by
  obtain ⟨x, name, hname⟩ := related_of_mem_imports hus u hu
  obtain rfl | hstands := stands_of_related hr hname
  · exact absurd hplain.2.2 (by decide)
  · exact hstands

/-- Views with the same metadata lead to the same classes. -/
theorem Leads.congr (hr : r.Coherent) (huv : u.info = v.info) (h : r.Leads u name) :
    r.Leads v name := by
  have hname : u.name = v.name := congrArg ClassInfo.name huv
  obtain ⟨us, hus, m, hm, hplain, hmname⟩ | ⟨htag, m, hm, hmname⟩ := h
  · obtain ⟨us', hus', hall⟩ := hr.exists_import huv hus
    obtain ⟨m', hm', hinfo⟩ := hall m hm
    refine .inl ⟨us', hus', m', hm', (hr.isPlain_congr hinfo).2 hplain, ?_⟩
    rw [← hmname]
    exact congrArg ClassInfo.name hinfo
  · obtain ⟨m', hm', hinfo⟩ := hr.memberCandidates_congr huv hm
    rw [huv] at htag
    rw [hname] at hm'
    refine .inr ⟨htag, m', hm', ?_⟩
    rw [← hmname]
    exact congrArg ClassInfo.name hinfo

theorem Stands.leadsTo_iff (hr : r.Coherent) (h : r.Stands v) :
    r.LeadsTo v.name name ↔ r.Leads v name := by
  obtain ⟨_, u, hu, hinfo⟩ := h
  constructor
  · rintro ⟨u', hu', hleads⟩
    rw [hu] at hu'
    obtain rfl := Except.ok.inj hu'
    exact hleads.congr hr hinfo
  · intro hleads
    exact ⟨u, hu, hleads.congr hr hinfo.symm⟩

theorem stands_of_member (hr : r.Coherent) {m : View}
    (hm : m ∈ Step.memberCandidates r v name) : r.Stands m := by
  obtain ⟨hmem, hcandidate, _⟩ := Step.mem_memberCandidates.1 hm
  obtain ⟨other, _, hother⟩ := related_of_mem_members hmem
  obtain rfl | hstands := stands_of_related hr hother
  · rw [not_isCandidate_object] at hcandidate
    cases hcandidate
  · exact hstands

end Resolver

/-! ## Static worlds -/

/-- Nothing is scanned for, skipped or selected, no superclass is outside the platform, and
loaded classes are as they are read. -/
structure World.IsStatic (w : World) : Prop where
  coherent : w.resolver.Coherent
  direct : w.IsDirect w.resolver.infos
  noScans : ∀ c ∈ w.resolver.infos,
    w.resolver.repeatable c WellKnown.componentScan WellKnown.componentScans = []
  superClasses : ∀ c ∈ w.resolver.infos, ∀ name, c.superClass = some name →
    w.resolver.isPlatform name = true

namespace World.IsStatic

variable {w : World} {v : View}

theorem neverSkips_of_knows (hw : w.IsStatic) (hv : w.resolver.Knows v) : w.NeverSkips v.info :=
  (hw.direct.of_knows hv).neverSkips _ List.mem_cons_self

theorem noScans_of_knows (hw : w.IsStatic) (hv : w.resolver.Knows v) :
    w.resolver.repeatable v.info WellKnown.componentScan WellKnown.componentScans = [] := by
  obtain hv | hv := hv
  · exact hw.noScans _ hv
  · exact Resolver.repeatable_of_untagged (by rw [hv]) _ _

theorem superClasses_of_knows (hw : w.IsStatic) (hv : w.resolver.Knows v) {name : String}
    (hname : v.info.superClass = some name) : w.resolver.isPlatform name = true := by
  obtain hv | hv := hv
  · exact hw.superClasses _ hv name hname
  · rw [hv] at hname
    cases hname

end World.IsStatic

/-- Only classes in `S` are entered, each as what its name stands for. -/
def Scope.within (r : Resolver) (S : Set String) : Scope where
  Enters v := v.name ∈ S ∧ r.Stands v
  Reads c v := (v.name ∈ S ∧ r.Stands v) ∧ v.info = c

/-- The set holds what its members lead to. -/
def Resolver.ClosedUnder (r : Resolver) (S : Set String) : Prop :=
  ∀ source ∈ S, ∀ target, r.LeadsTo source target → target ∈ S

namespace World.IsStatic

variable {w : World} {S : Set String}

theorem not_selects (hw : w.IsStatic) : ¬ (Scope.within w.resolver S).Selects w := by
  rintro ⟨c, v, us, u, hread, hus, hu, hselector⟩
  have hv : w.resolver.Stands v := hread.1.2
  rw [(hw.direct.of_knows hv.knows).noSelectors v us u List.mem_cons_self hus hu] at hselector
  cases hselector

/-- A run that is in a closed set stays there. -/
theorem admits (hw : w.IsStatic) (hS : w.resolver.ClosedUnder S) :
    w.Admits (.within w.resolver S) := by
  constructor
  · intro v f hv hf
    rw [hf hw.not_selects, View.filtered_of_not_excludes hv.2.1]
    exact ⟨hv, rfl⟩
  · intro c v u name hread hname hplatform _
    rw [hw.superClasses_of_knows hread.1.2.knows hname] at hplatform
    cases hplatform
  · intro c v us hread hus u hu hplain
    have hleads : w.resolver.Leads v u.name := .inl ⟨us, hus, u, hu, hplain, rfl⟩
    refine ⟨hS v.name hread.1.1 _ ?_, Resolver.stands_of_import hw.coherent hus hu hplain⟩
    exact (hread.1.2.leadsTo_iff hw.coherent).2 hleads
  · intro c v hread htag m hm
    obtain ⟨hv, rfl⟩ := hread
    have hleads : w.resolver.Leads v m.name := .inr ⟨htag, m, hm, rfl⟩
    refine ⟨hS v.name hv.1 _ ?_, Resolver.stands_of_member hw.coherent hm⟩
    exact (hv.2.leadsTo_iff hw.coherent).2 hleads
  · intro u name f hselects _
    exact absurd hselects hw.not_selects
  · intro c v u request registry registry' found d hread hscan _ _ _
    exact absurd (hw.noScans_of_knows hread.1.2.knows) hscan

end World.IsStatic

/-! ## Nothing else is entered -/

/-- What is opened has been entered. -/
theorem Moves.enters_of_hasOpened {w : World} {K : Scope} {p : Part} {s t : Collecting}
    (h : Moves w K p s t) {name : String} (hopen : t.run.HasOpened name) :
    s.run.HasOpened name ∨ ∃ v, K.Enters v ∧ v.name = name := by
  induction h with
  | refl _ => exact .inl hopen
  | trans _ _ ih ih' => exact (ih' hopen).elim ih .inr
  | aside h =>
    rw [Run.HasOpened, h.history] at hopen
    exact .inl hopen
  | report _ _ _ => exact .inl hopen
  | scan _ _ _ _ ih => exact ih hopen
  | register _ _ _ _ _ ih => exact ih hopen
  | imported _ _ _ ih => exact (ih hopen).imp_left Run.hasOpened_importing.1
  | claim _ _ _ _ _ _ ih => exact ih hopen
  | enqueue _ _ _ => exact .inl hopen
  | stacked _ _ ih => exact ih hopen
  | nested _ ih => exact ih hopen
  | merge _ _ _ _ => exact .inl hopen
  | @visit p s t c f run hview _ _ _ hrun _ _ ih =>
    obtain ⟨_, _, hhistory, _, _⟩ := hrun.continues
    have hinner : t.run.HasOpened name := by
      obtain ⟨isImported, hmem⟩ := hopen
      exact ⟨isImported, (List.mem_cons.1 hmem).resolve_left (by simp)⟩
    obtain ⟨isImported, hmem⟩ | hentered := ih hinner
    · have hmem : .opened name isImported ∈ Milestone.opened c.name c.isImported :: run.history :=
        hmem
      obtain heq | hmem := List.mem_cons.1 hmem
      · exact .inr ⟨c.view, hview, (Milestone.opened.inj heq).1.symm⟩
      · rw [hhistory] at hmem
        exact .inl ⟨isImported, hmem⟩
    · exact .inr hentered
  | gather _ => exact .inl hopen
  | collect _ _ _ _ => exact .inl hopen
  | absorb _ _ _ _ ih => exact ih hopen

/-! ## Nothing is left out -/

/-- Everything that the class leads to has been opened. -/
def Run.Expanded (s : Run) (r : Resolver) (name : String) : Prop :=
  ∀ target, r.LeadsTo name target → s.HasOpened target

theorem Run.Expanded.mono {s t : Run} {r : Resolver} {name : String} (h : s.Expanded r name)
    (hst : s.history ⊆ t.history) : t.Expanded r name :=
  fun target htarget => (h target htarget).mono hst

/-- What a part of a run opens is expanded, unless its expansion is left to a record further
out: one on the stack, or the one that the part works on. -/
structure Expands (r : Resolver) (p : Part) (s t : Collecting) : Prop where
  opened : ∀ name, t.run.HasOpened name → s.run.HasOpened name ∨
    ImportStack.holds s.run.stack name = true ∨ (p ≠ .entries ∧ name = s.record.name) ∨
    t.run.Expanded r name
  sources : ∀ v ∈ t.record.sources, v ∈ s.record.sources ∨ (p = .source ∧
    (ImportStack.holds s.run.stack s.record.name = true ∨ t.run.Expanded r s.record.name))

theorem Expands.of_eq {r : Resolver} {p : Part} {s t : Collecting}
    (history : t.run.history = s.run.history) (sources : t.record.sources = s.record.sources) :
    Expands r p s t where
  opened name h := by
    rw [Run.HasOpened, history] at h
    exact .inl h
  sources v hv := by
    rw [sources] at hv
    exact .inl hv

theorem Expands.trans {r : Resolver} {p : Part} {s t u : Collecting} (hst : Expands r p s t)
    (htu : Expands r p t u) (hs : Continues s t) (ht : Continues t u) : Expands r p s u where
  opened name h := by
    obtain h | h | ⟨hp, h⟩ | h := htu.opened name h
    · obtain h | h | h | h := hst.opened name h
      · exact .inl h
      · exact .inr (.inl h)
      · exact .inr (.inr (.inl h))
      · exact .inr (.inr (.inr (h.mono ht.history.subset)))
    · rw [hs.stack] at h
      exact .inr (.inl h)
    · rw [hs.name] at h
      exact .inr (.inr (.inl ⟨hp, h⟩))
    · exact .inr (.inr (.inr h))
  sources v hv := by
    obtain hv | ⟨hp, h⟩ := htu.sources v hv
    · obtain hv | ⟨hp, h | h⟩ := hst.sources v hv
      · exact .inl hv
      · exact .inr ⟨hp, .inl h⟩
      · exact .inr ⟨hp, .inr (h.mono ht.history.subset)⟩
    · rw [hs.stack, hs.name] at h
      exact .inr ⟨hp, h⟩

/-- A class that has been visited is expanded, or else it is on the stack. -/
theorem Expands.visit {r : Resolver} {p : Part} {s t : Collecting} {c : ConfigClass} {run : Run}
    (h : Expands r .source ⟨c, run.opening c⟩ t) (hnew : c.IsNew) (hrun : s.run.Enrolls c run)
    {v : View} (hsource : v ∈ t.record.sources) :
    Expands r p s { s with run := (RunM.close t.run).commit t.record } := by
  obtain ⟨opened, sources⟩ := h
  obtain ⟨hstack, _, hhistory, _, _⟩ := hrun.continues
  have hclosed : t.run.history ⊆ (RunM.close t.run).history := fun _ hm =>
    List.mem_cons_of_mem _ hm
  -- The source of the new record says that the class itself is expanded.
  have hself : ImportStack.holds s.run.stack c.name = true ∨
      (RunM.close t.run).Expanded r c.name := by
    obtain hold | ⟨_, hholds | hexpanded⟩ := sources _ hsource
    · rw [hnew.sources] at hold
      cases hold
    · rw [← hstack]
      exact .inl hholds
    · exact .inr (hexpanded.mono hclosed)
  refine ⟨fun name h => ?_, fun v hv => .inl hv⟩
  have hinside : t.run.HasOpened name := by
    obtain ⟨isImported, hmem⟩ := h
    exact ⟨isImported, (List.mem_cons.1 hmem).resolve_left (by simp)⟩
  by_cases hname : name = c.name
  · rw [hname]
    obtain hholds | hexpanded := hself
    · exact .inr (.inl hholds)
    · exact .inr (.inr (.inr hexpanded))
  · obtain ⟨isImported, hmem⟩ | hholds | ⟨_, hc⟩ | hexpanded := opened name hinside
    · have hmem : .opened name isImported ∈ Milestone.opened c.name c.isImported :: run.history :=
        hmem
      obtain heq | hmem := List.mem_cons.1 hmem
      · exact absurd (Milestone.opened.inj heq).1 hname
      · rw [hhistory] at hmem
        exact .inl ⟨isImported, hmem⟩
    · have hholds : ImportStack.holds run.stack name = true := hholds
      rw [hstack] at hholds
      exact .inr (.inl hholds)
    · exact absurd hc hname
    · exact .inr (.inr (.inr (hexpanded.mono hclosed)))

/-- A source that has been followed is expanded, or else its class is on the stack. -/
theorem Followed.expanded {w : World} (hw : w.IsStatic) {v : View} {s : Collecting}
    (h : Followed w v s) (hs : s.Accounted w) (hv : w.resolver.Stands v)
    (hrecord : v.info = s.record.info) :
    ImportStack.holds s.run.stack s.record.name = true ∨
      s.run.Expanded w.resolver s.record.name := by
  have hname : v.name = s.record.name := congrArg ClassInfo.name hrecord
  cases hholds : ImportStack.holds s.run.stack s.record.name with
  | true => exact .inl rfl
  | false =>
    right
    intro target htarget
    rw [← hname, hv.leadsTo_iff hw.coherent] at htarget
    obtain ⟨us, hus, u, hu, hplain, rfl⟩ | ⟨htag, m, hm, rfl⟩ := htarget
    · obtain ⟨us', hus', hall | ⟨htrue, _⟩⟩ := h.imports
      · obtain rfl := Except.ok.inj (hus.symm.trans hus')
        have hu' := Resolver.stands_of_import hw.coherent hus hu hplain
        exact hs.opened _ (hall u hu hplain (hw.neverSkips_of_knows hu'.knows))
      · rw [hholds] at htrue
        cases htrue
    · have hm' := Resolver.stands_of_member hw.coherent hm
      rw [hrecord] at htag
      rw [hname] at hm
      obtain hcommitted | htrue := h.members htag m hm (hw.neverSkips_of_knows hm'.knows)
      · exact hs.opened _ hcommitted
      · rw [hholds] at htrue
        cases htrue

theorem Moves.expands {w : World} (hw : w.IsStatic) {S : Set String} {p : Part}
    {s t : Collecting} (h : Moves w (.within w.resolver S) p s t) (hs : s.Accounted w) :
    Expands w.resolver p s t := by
  induction h with
  | refl _ => exact .of_eq rfl rfl
  | trans hst htu ih ih' =>
    exact (ih hs).trans (ih' (hst.accounted hs)) hst.continues htu.continues
  | aside h => exact .of_eq h.history rfl
  | report _ _ _ => exact .of_eq rfl rfl
  | scan _ _ _ _ ih =>
    obtain ⟨opened, sources⟩ := ih (hs.of_eq rfl rfl rfl (fun _ hp => hp) rfl)
    refine ⟨fun name h => ?_, fun v hv => ?_⟩
    · obtain h | h | ⟨hp, _⟩ | h := opened name h
      · exact .inl h
      · exact .inr (.inl h)
      · exact absurd rfl hp
      · exact .inr (.inr (.inr h))
    · obtain hv | ⟨hp, _⟩ := sources v hv
      · exact .inl hv
      · cases hp
  | register _ _ _ _ _ ih =>
    obtain ⟨opened, sources⟩ := ih (hs.of_eq rfl rfl rfl (fun _ hp => hp) rfl)
    exact ⟨opened, sources⟩
  | imported _ _ _ ih =>
    obtain ⟨opened, sources⟩ := ih hs.importing
    exact ⟨fun name h => (opened name h).imp_left Run.hasOpened_importing.1, sources⟩
  | claim hopen _ _ _ _ _ ih =>
    obtain ⟨opened, sources⟩ := ih (hs.claim hopen)
    exact ⟨opened, sources⟩
  | enqueue _ _ _ => exact .of_eq rfl rfl
  | @stacked p s t hp _ ih =>
    obtain ⟨opened, sources⟩ := ih (hs.of_eq rfl rfl rfl (fun _ hp => hp) rfl)
    refine ⟨fun name h => ?_, fun v hv => ?_⟩
    · obtain h | h | ⟨_, h⟩ | h := opened name h
      · exact .inl h
      · obtain h | h := ImportStack.holds_cons.1 h
        · exact .inr (.inr (.inl ⟨hp, h⟩))
        · exact .inr (.inl h)
      · exact .inr (.inr (.inl ⟨hp, h⟩))
      · exact .inr (.inr (.inr h))
    · obtain hv | ⟨hpart, _⟩ := sources v hv
      · exact .inl hv
      · cases hpart
  | nested _ ih =>
    obtain ⟨opened, sources⟩ := ih (hs.of_eq rfl rfl rfl (fun _ hp => hp) rfl)
    exact ⟨opened, sources⟩
  | merge _ _ _ _ => exact .of_eq rfl rfl
  | visit _ _ hnew _ hrun _ hsource ih =>
    have hopening := hs.opening hnew hrun
    exact (ih hopening).visit hnew hrun hsource
  | gather h => exact .of_eq rfl h.sources
  | @collect s v ms hread _ _ hfollowed =>
    refine ⟨fun name h => .inl h, fun u hu => ?_⟩
    obtain hu | hu := List.mem_append.1 hu
    · exact .inl hu
    · exact .inr ⟨rfl, hfollowed.expanded hw hs hread.1.2 hread.2⟩
  | absorb hselects _ _ _ _ => exact absurd hselects hw.not_selects

namespace Run

/-- Everything that a successful call opens is expanded afterwards. -/
theorem parse_expanded {w : World} (hw : w.IsStatic) {seeds : List NamedDefinition}
    {environment : Environment} {registry : Registry} {t : Run}
    (hseeds : ∀ seed ∈ seeds, ∀ v,
      w.resolver.ofDefinition seed.definition seed.beanName = .ok v → w.resolver.Stands v)
    (h : parse w seeds (fresh environment registry) = .ok () t) {name : String}
    (hname : t.HasOpened name) : t.Expanded w.resolver name := by
  have hall : w.resolver.ClosedUnder Set.univ := fun _ _ _ _ => trivial
  obtain ⟨u, v, _, hu, hv, rfl⟩ := parse_moves (hw.admits hall) (.explicit .object none) rfl
    (fun seed hseed v hv => ⟨trivial, hseeds seed hseed v hv⟩) h
  have hfresh := accounted_fresh w environment registry
  have hmid : Collecting.Accounted ⟨.explicit .object none, { u with queue := none }⟩ w :=
    (hu.accounted hfresh).of_eq rfl rfl rfl (fun _ hp => hp) rfl
  have hstack : u.stack = [] := hu.continues.stack
  obtain hopen | hholds | ⟨hp, _⟩ | hexpanded := (hv.expands hw hmid).opened name hname
  · obtain ⟨_, hnone⟩ | hholds | ⟨hp, _⟩ | hexpanded := (hu.expands hw hfresh).opened name hopen
    · cases hnone
    · cases hholds
    · exact absurd rfl hp
    · exact hexpanded.mono hv.continues.history.subset
  · have hholds : ImportStack.holds u.stack name = true := hholds
    rw [hstack] at hholds
    cases hholds
  · exact absurd rfl hp
  · exact hexpanded

/-- A seed given by one of the names is viewed as what the name stands for. -/
theorem stands_of_seed {r : Resolver} {names : List String} {seeds : List NamedDefinition}
    (hseeds : seeds.map (·.definition) = names.map .ofClassName)
    (hfilter : ∀ name ∈ names, r.filter.excludes name = false) {seed : NamedDefinition}
    (hseed : seed ∈ seeds) {v : View}
    (hv : r.ofDefinition seed.definition seed.beanName = .ok v) :
    v.name ∈ names ∧ r.Stands v := by
  have hmem : seed.definition ∈ names.map .ofClassName := by
    rw [← hseeds]
    exact List.mem_map_of_mem hseed
  obtain ⟨name, hname, hdefinition⟩ := List.mem_map.1 hmem
  rw [← hdefinition] at hv
  have hviewName : v.name = name := Resolver.name_ofName rfl hv
  rw [hviewName]
  exact ⟨hname, Resolver.stands_of_ofName (hfilter name hname) hv⟩

/-- A successful call commits the classes that it is given by name. -/
theorem committed_of_seed {w : World} (hw : w.IsStatic) {names : List String}
    {seeds : List NamedDefinition} (hseeds : seeds.map (·.definition) = names.map .ofClassName)
    (hfilter : ∀ name ∈ names, w.resolver.filter.excludes name = false)
    {environment : Environment} {registry : Registry} {t : Run}
    (h : parse w seeds (fresh environment registry) = .ok () t) {name : String}
    (hname : name ∈ names) : t.Committed name := by
  have hmem : Definition.ofClassName name ∈ seeds.map (·.definition) := by
    rw [hseeds]
    exact List.mem_map_of_mem hname
  obtain ⟨seed, hseed, hdefinition⟩ := List.mem_map.1 hmem
  obtain ⟨u, v, hu, _, hv, rfl⟩ :=
    parse_moves w.admits_anything (.explicit .object none) rfl (fun _ _ _ _ => trivial) h
  obtain ⟨view, hview, hcommitted⟩ := parseSeeds_committed hu seed hseed
  obtain ⟨_, hstands⟩ := stands_of_seed hseeds hfilter hseed hview
  rw [hdefinition] at hview
  have hviewName : view.name = name := Resolver.name_ofName rfl hview
  rw [hviewName] at hcommitted
  exact hv.continues.committed _ (hcommitted (hw.neverSkips_of_knows hstands.knows))

/-- A successful call on class names commits the least set of classes that contains them and
what its members lead to. -/
theorem committed_isLeast {w : World} (hw : w.IsStatic) {names : List String}
    {seeds : List NamedDefinition} (hseeds : seeds.map (·.definition) = names.map .ofClassName)
    (hfilter : ∀ name ∈ names, w.resolver.filter.excludes name = false)
    {environment : Environment} {registry : Registry} {t : Run}
    (h : parse w seeds (fresh environment registry) = .ok () t) :
    IsLeast {S : Set String | (∀ name ∈ names, name ∈ S) ∧ w.resolver.ClosedUnder S}
      {name | t.Committed name} := by
  refine ⟨⟨fun name hname => ?_, fun source hsource target htarget => ?_⟩, ?_⟩
  · exact committed_of_seed hw hseeds hfilter h hname
  · have hopened := (committed_iff_hasOpened h).1 hsource
    have hexpanded := parse_expanded hw
      (fun _ hseed _ hv => (stands_of_seed hseeds hfilter hseed hv).2) h hopened
    exact (committed_iff_hasOpened h).2 (hexpanded target htarget)
  · rintro S ⟨hnames, hclosed⟩ name hname
    have hopened := (committed_iff_hasOpened h).1 hname
    obtain ⟨u, v, _, hu, hv, rfl⟩ := parse_moves (hw.admits hclosed) (.explicit .object none) rfl
      (fun seed hseed v hview => by
        obtain ⟨hviewName, hstands⟩ := stands_of_seed hseeds hfilter hseed hview
        exact ⟨hnames _ hviewName, hstands⟩) h
    obtain hopened | ⟨view, hview, rfl⟩ := hv.enters_of_hasOpened hopened
    · obtain ⟨_, hnone⟩ | ⟨view, hview, rfl⟩ := hu.enters_of_hasOpened hopened
      · cases hnone
      · exact hview.1
    · exact hview.1

end Run

/-! ## A circle of imports -/

/-- Says of a world without loaded types whether it is static. -/
def World.looksStatic (w : World) : Bool :=
  w.resolver.types.types.isEmpty && w.resolver.infos.all w.resolver.looksDirect &&
    w.resolver.infos.all fun c =>
      (w.resolver.repeatable c WellKnown.componentScan WellKnown.componentScans).isEmpty &&
        c.superClass.all (w.resolver.isPlatform ·)

theorem World.isStatic_of_looksStatic {w : World} (h : w.looksStatic = true) : w.IsStatic := by
  rw [looksStatic, Bool.and_eq_true, Bool.and_eq_true, List.isEmpty_iff] at h
  obtain ⟨⟨htypes, hdirect⟩, hall⟩ := h
  simp only [List.all_eq_true, Bool.and_eq_true, List.isEmpty_iff] at hall
  have hcoherent := Resolver.coherent_of_no_types htypes
  constructor
  · exact hcoherent
  · exact isDirect_of_looksDirect hcoherent hdirect
  · exact fun c hc => (hall c hc).1
  · intro c hc name hname
    have hsuper := (hall c hc).2
    rw [hname] at hsuper
    exact hsuper

/-- Two classes that import each other, one of which has a member class. -/
def circle : World where
  resolver := { reader := { index := ⟨[
    { name := "app.A", tags := [.mk WellKnown.component [], .importing ["app.B"]],
      memberClasses := ["app.A$C"] },
    { name := "app.B", tags := [.importing ["app.A"]] },
    { name := "app.A$C", tags := [.mk WellKnown.component []] },
    { name := "app.D" }]⟩ } }

set_option maxRecDepth 100000 in
/-- The circle and the member are committed, and the class that nothing leads to is not. -/
theorem committed_isLeast_circle :
    ∃ t, Run.parse circle (seedsOf ["app.B", "app.B"]) (Run.fresh {} {}) = .ok () t ∧
      t.classes.keys = ["app.A$C", "app.A", "app.B"] ∧
      IsLeast {S : Set String | (∀ name ∈ ["app.B", "app.B"], name ∈ S) ∧
        circle.resolver.ClosedUnder S} {name | t.Committed name} := by
  have hstatic : circle.looksStatic = true := by
    decide +kernel
  have hcheck : succeedsWith (fun t : Run =>
      decide (t.classes.keys = ["app.A$C", "app.A", "app.B"]))
      (Run.parse circle (seedsOf ["app.B", "app.B"]) (Run.fresh {} {})) = true := by
    decide +kernel
  obtain ⟨t, hparse, ht⟩ := exists_of_succeedsWith hcheck
  exact ⟨t, hparse, of_decide_eq_true ht,
    Run.committed_isLeast (World.isStatic_of_looksStatic hstatic) rfl (fun _ _ => rfl) hparse⟩

end Wiring
