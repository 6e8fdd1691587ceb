import Wiring.Proofs.Circles
import Wiring.Proofs.Closure

/-!
# Circular imports

In a world where classes lead to others by plain imports only, a run reports a circular import
exactly if the imports of the seeds run into a cycle.  What is reported is a cycle, because every
registered import is one; and while nothing is reported, a class is committed only after all that
it imports, so following the imports of a committed class comes to an end.
-/

namespace Wiring

open Relation

/-! ## The graph of imports -/

/-- The class of the first name imports that of the second.  A class that is excluded is not
looked into, so it imports nothing. -/
def Resolver.ImportsTo (r : Resolver) (source target : String) : Prop :=
  r.filter.excludes source = false ∧ ∃ v us u,
    r.ofName source .none = .ok v ∧ r.imports v = .ok us ∧ u ∈ us ∧ r.IsPlain u ∧ u.name = target

/-- The imports of the seeds lead to the class, in any number of steps. -/
def World.Reaches (w : World) (seeds : List NamedDefinition) (name : String) : Prop :=
  ∃ seed ∈ seeds, ∃ v, w.resolver.ofDefinition seed.definition seed.beanName = .ok v ∧
    ReflTransGen w.resolver.ImportsTo v.name name

/-- Each seed is viewed as what its name stands for. -/
def World.KnowsSeeds (w : World) (seeds : List NamedDefinition) : Prop :=
  ∀ seed ∈ seeds, ∀ v, w.resolver.ofDefinition seed.definition seed.beanName = .ok v →
    w.resolver.Matches v

/-- Classes lead to others by plain imports only. -/
structure World.ImportsOnly (w : World) : Prop extends w.IsStatic where
  noMembers : ∀ c ∈ w.resolver.infos, c.memberClasses = []

/-- Following the imports of the class comes to an end. -/
def Resolver.Ends (r : Resolver) (name : String) : Prop :=
  Acc (fun target source => r.ImportsTo source target) name

namespace Resolver

variable {r : Resolver} {u v : View} {us : List View} {name other : String}

/-- What a view imports, the class of its name imports. -/
theorem importsTo_of_mem (hr : r.Coherent) (hv : r.Stands v) (hus : r.imports v = .ok us)
    (hu : u ∈ us) (hplain : r.IsPlain u) : r.ImportsTo v.name u.name := by
  obtain ⟨hfilter, x, hx, hinfo⟩ := hv
  obtain ⟨us', hus', hall⟩ := hr.exists_import hinfo.symm hus
  obtain ⟨u', hu', hinfo'⟩ := hall u hu
  exact ⟨hfilter, x, us', u', hx, hus', hu', (hr.isPlain_congr hinfo').2 hplain,
    congrArg ClassInfo.name hinfo'⟩

/-- What the class of a name imports, its view imports. -/
theorem ImportsTo.exists_mem (hr : r.Coherent) (hv : r.Matches v) (h : r.ImportsTo v.name name) :
    ∃ us u, r.imports v = .ok us ∧ u ∈ us ∧ r.IsPlain u ∧ u.name = name := by
  obtain ⟨x, hx, hinfo⟩ := hv
  obtain ⟨_, x', us, u, hx', hus, hu, hplain, rfl⟩ := h
  obtain rfl := Except.ok.inj (hx.symm.trans hx')
  obtain ⟨us', hus', hall⟩ := hr.exists_import hinfo hus
  obtain ⟨u', hu', hinfo'⟩ := hall u hu
  exact ⟨us', u', hus', hu', (hr.isPlain_congr hinfo').2 hplain, congrArg ClassInfo.name hinfo'⟩

theorem Ends.of_reflTransGen (h : r.Ends name) (hreach : ReflTransGen r.ImportsTo name other) :
    r.Ends other := by
  induction hreach with
  | refl => exact h
  | tail _ hstep ih => exact ih.inv hstep

/-- A class on a cycle does not come to an end. -/
theorem Ends.not_cycle (h : r.Ends name) : ¬ TransGen r.ImportsTo name name := by
  induction h with
  | intro x _ ih =>
    intro hcycle
    obtain ⟨y, hstep, hback⟩ := TransGen.head'_iff.1 hcycle
    exact ih y hstep (TransGen.tail' hback hstep)

end Resolver

/-! ## The scope of imports -/

/-- Classes in `S` are entered, each as what its name stands for.  An excluded class is read as
the bare view. -/
def Scope.importing (r : Resolver) (S : Set String) : Scope where
  Enters v := v.name ∈ S ∧ r.Matches v
  Reads _ v := v.IsBare ∨ (v.name ∈ S ∧ r.Stands v)

/-- The set holds what its members import. -/
def Resolver.ImportClosed (r : Resolver) (S : Set String) : Prop :=
  ∀ source ∈ S, ∀ target, r.ImportsTo source target → target ∈ S

namespace World.ImportsOnly

variable {w : World} {S : Set String} {v u : View} {us : List View} {c : ClassInfo}

/-- A source in the scope that imports something is of a class in the set. -/
theorem stands_of_reads (hread : (Scope.importing w.resolver S).Reads c v)
    (hus : w.resolver.imports v = .ok us) (hu : u ∈ us) : v.name ∈ S ∧ w.resolver.Stands v := by
  rcases hread with hbare | hread
  · have hnone : w.resolver.imports v = .ok [] := Resolver.imports_of_untagged (by rw [hbare])
    obtain rfl := Except.ok.inj (hus.symm.trans hnone)
    cases hu
  · exact hread

theorem knows_of_reads (hread : (Scope.importing w.resolver S).Reads c v) :
    w.resolver.Knows v := by
  rcases hread with hbare | ⟨_, hstands⟩
  · exact .inr hbare
  · exact hstands.knows

theorem not_selects (hw : w.ImportsOnly) : ¬ (Scope.importing w.resolver S).Selects w := by
  rintro ⟨c, v, us, u, hread, hus, hu, hselector⟩
  have hdirect := hw.direct.of_knows (knows_of_reads hread)
  rw [hdirect.noSelectors v us u List.mem_cons_self hus hu] at hselector
  cases hselector

theorem not_hasMembers (hw : w.ImportsOnly) :
    ¬ (Scope.importing w.resolver S).HasMembers w c := by
  rintro ⟨v, m, hread, hm⟩
  have hnone : v.info.memberClasses = [] := by
    rcases knows_of_reads hread with hknown | hbare
    · exact hw.noMembers _ hknown
    · rw [hbare]
  rw [Step.memberCandidates_of_no_members hnone] at hm
  cases hm

theorem neverSkips_of_enters (hw : w.ImportsOnly)
    (hv : (Scope.importing w.resolver S).Enters v) : w.NeverSkips v.info :=
  hw.neverSkips_of_knows hv.2.knows

/-- A run that is in a set that holds what its members import stays there. -/
theorem admits (hw : w.ImportsOnly) (hS : w.resolver.ImportClosed S) :
    w.Admits (.importing w.resolver S) := by
  constructor
  · intro v f hv hf
    rw [hf hw.not_selects, View.filtered]
    split
    · exact .inl rfl
    · rename_i hfilter
      exact .inr ⟨hv.1, by simpa using hfilter, hv.2⟩
  · intro c v u name hread hname hplatform _
    rw [hw.superClasses_of_knows (knows_of_reads hread) hname] at hplatform
    cases hplatform
  · intro c v us hread hus u hu hplain
    obtain ⟨hmem, hstands⟩ := stands_of_reads hread hus hu
    have hedge := Resolver.importsTo_of_mem hw.coherent hstands hus hu hplain
    exact ⟨hS _ hmem _ hedge, (Resolver.stands_of_import hw.coherent hus hu hplain).2⟩
  · intro c v hread _ m hm
    exact absurd ⟨v, m, hread, hm⟩ hw.not_hasMembers
  · intro u name f hselects _
    exact absurd hselects hw.not_selects
  · intro c v u request registry registry' found d hread hscan _ _ _
    exact absurd (hw.noScans_of_knows (knows_of_reads hread)) hscan

end World.ImportsOnly

/-! ## What is reported is a cycle -/

namespace Importers

variable {r : Importers} {E : String → String → Prop}

theorem mem_of_register {importing c : ClassInfo} {name other : String}
    (h : c ∈ (r.register importing name).of other) :
    c ∈ r.of other ∨ (other = name ∧ c = importing) := by
  by_cases hname : name = other
  · subst hname
    rw [of, register, OrderedMap.get?_insert_self] at h
    rcases List.mem_append.1 h with h | h
    · exact .inl h
    · exact .inr ⟨rfl, List.mem_singleton.1 h⟩
  · rw [of, register, OrderedMap.get?_insert_of_ne _ hname] at h
    exact .inl h

/-- A circle of latest importers is one of imports. -/
theorem transGen_of_isChained (hE : ∀ name, ∀ c ∈ r.of name, E c.name name) {name : String}
    (h : r.isChained name = true) : TransGen E name name := by
  have hstep : ∀ a b, Function.swap r.LatestImporter a b → E a b := by
    rintro _ name ⟨c, hc, rfl⟩
    exact hE name c (List.mem_of_getLast? hc)
  exact TransGen.mono hstep _ _ (transGen_swap.2 (isChained_iff_transGen.1 h))

end Importers

/-- Every registered import is one by a class of the set. -/
def Run.Registers (s : Run) (r : Resolver) (S : Set String) : Prop :=
  ∀ name, ∀ c ∈ s.importers.of name, c.name ∈ S ∧ r.ImportsTo c.name name

/-- A circular import has been reported. -/
def Run.HasCircular (s : Run) : Prop := ∃ problem ∈ s.problems, problem.kind = .circularImport

theorem Run.HasCircular.mono {s t : Run} (h : s.HasCircular) (hst : s.problems ⊆ t.problems) :
    t.HasCircular := by
  obtain ⟨problem, hmem, hkind⟩ := h
  exact ⟨problem, hst hmem, hkind⟩

theorem Run.HasReported.hasCircular {s : Run} {name : String} (h : s.HasReported name) :
    s.HasCircular := by
  obtain ⟨problem, hmem, hkind, _⟩ := h
  exact ⟨problem, hmem, hkind⟩

namespace World.ImportsOnly

variable {w : World} {S : Set String}

theorem registers_register (hw : w.ImportsOnly) {s : Run} (hs : s.Registers w.resolver S)
    {c importing : ClassInfo} {v : View}
    (himports : (Scope.importing w.resolver S).Imports w c importing v)
    (hplain : w.resolver.IsPlain v) :
    Run.Registers { s with importers := s.importers.register importing v.name } w.resolver S := by
  intro name d hd
  rcases Importers.mem_of_register hd with hd | ⟨rfl, rfl⟩
  · exact hs name d hd
  · rcases himports with hselects | ⟨source, us, hread, rfl, hus, hv⟩
    · exact absurd hselects hw.not_selects
    · obtain ⟨hmem, hstands⟩ := stands_of_reads hread hus hv
      exact ⟨hmem, Resolver.importsTo_of_mem hw.coherent hstands hus hv hplain⟩

/-- A class that is noticed to be imported circularly is on a cycle of the set. -/
theorem cycle_of_isCircular {s : Run} (hs : s.Registers w.resolver S) {name : String}
    (h : ImportStack.isCircular s.stack s.importers name = true) :
    name ∈ S ∧ TransGen w.resolver.ImportsTo name name := by
  rw [ImportStack.isCircular, Bool.and_eq_true] at h
  have hcycle : TransGen (fun a b => a ∈ S ∧ w.resolver.ImportsTo a b) name name :=
    Importers.transGen_of_isChained (E := fun a b => a ∈ S ∧ w.resolver.ImportsTo a b) hs h.2
  obtain ⟨_, hstep, _⟩ := TransGen.head'_iff.1 hcycle
  have hle : (fun a b => a ∈ S ∧ w.resolver.ImportsTo a b) ≤ w.resolver.ImportsTo :=
    fun _ _ h => h.2
  exact ⟨hstep.1, TransGen.mono hle _ _ hcycle⟩

end World.ImportsOnly

/-- Each part of a run registers imports only, and reports cycles only. -/
theorem Moves.reports {w : World} (hw : w.ImportsOnly) {S : Set String} {p : Part}
    {s t : Collecting} (h : Moves w (.importing w.resolver S) p s t)
    (hs : s.run.Registers w.resolver S) :
    t.run.Registers w.resolver S ∧ (t.run.HasCircular → s.run.HasCircular ∨
      ∃ name ∈ S, TransGen w.resolver.ImportsTo name name) := by
  induction h with
  | refl _ => exact ⟨hs, .inl⟩
  | trans _ _ ih ih' =>
    obtain ⟨ht, hfirst⟩ := ih hs
    obtain ⟨hu, hrest⟩ := ih' ht
    exact ⟨hu, fun hcircular => (hrest hcircular).elim hfirst .inr⟩
  | aside h =>
    rw [Run.Registers, Run.HasCircular, h.importers, h.problems]
    exact ⟨hs, .inl⟩
  | @report p s problem _ hcause =>
    refine ⟨hs, fun _ => .inr ?_⟩
    rcases hcause with hcircular | hmembers
    · exact ⟨_, World.ImportsOnly.cycle_of_isCircular hs hcircular⟩
    · exact absurd hmembers hw.not_hasMembers
  | scan _ _ _ _ ih => exact ih hs
  | register _ himports hplain _ _ ih => exact ih (hw.registers_register hs himports hplain)
  | imported _ _ _ ih => exact ih hs
  | claim _ _ _ _ _ _ ih => exact ih hs
  | enqueue _ hselects _ => exact absurd hselects hw.not_selects
  | stacked _ _ ih => exact ih hs
  | nested _ ih => exact ih hs
  | merge _ _ _ _ => exact ⟨hs, .inl⟩
  | visit _ _ _ _ hrun _ _ ih => obtain ⟨_, rfl⟩ | ⟨_, _, rfl⟩ := hrun <;> exact ih hs
  | gather _ => exact ⟨hs, .inl⟩
  | collect _ _ _ _ => exact ⟨hs, .inl⟩
  | absorb hselects _ _ _ _ => exact absurd hselects hw.not_selects

/-! ## While nothing is reported, imports end -/

/-- The imports of every committed class come to an end. -/
def Run.Grounded (s : Run) (r : Resolver) : Prop := ∀ name, s.Committed name → r.Ends name

/-- The imports of the view come to an end. -/
def Resolver.Grounds (r : Resolver) (v : View) : Prop :=
  ∀ us, r.imports v = .ok us → ∀ u ∈ us, r.IsPlain u → r.Ends u.name

/-- A class ends if the view that was read of it does. -/
theorem World.ImportsOnly.ends_of_grounds {w : World} (hw : w.ImportsOnly) {v : View}
    (hv : w.resolver.Matches v) (h : w.resolver.Grounds (v.filtered w.resolver.filter)) :
    w.resolver.Ends v.name := by
  refine .intro _ fun target hstep => ?_
  obtain ⟨us, u, hus, hu, hplain, rfl⟩ := hstep.exists_mem hw.coherent hv
  rw [View.filtered_of_not_excludes hstep.1] at h
  exact h us hus u hu hplain

theorem Moves.grounds {w : World} (hw : w.ImportsOnly) {S : Set String} {p : Part}
    {s t : Collecting} (h : Moves w (.importing w.resolver S) p s t)
    (hquiet : ¬ t.run.HasCircular) (hkeyed : s.run.Keyed) (hs : s.run.Grounded w.resolver) :
    t.run.Grounded w.resolver ∧
      ∀ v ∈ t.record.sources, v ∈ s.record.sources ∨ w.resolver.Grounds v := by
  induction h with
  | refl _ => exact ⟨hs, fun _ => .inl⟩
  | trans hst htu ih ih' =>
    have hquiet' := fun hcircular => hquiet (Run.HasCircular.mono hcircular htu.continues.problems)
    obtain ⟨ht, hfirst⟩ := ih hquiet' hkeyed hs
    obtain ⟨hu, hrest⟩ := ih' hquiet (hst.keyed hkeyed) ht
    exact ⟨hu, fun v hv => (hrest v hv).elim (hfirst v) .inr⟩
  | aside h =>
    refine ⟨fun name hname => hs name ?_, fun _ => .inl⟩
    rw [Run.Committed, h.classes] at hname
    exact hname
  | report _ _ _ => exact ⟨hs, fun _ => .inl⟩
  | scan _ _ _ _ ih => exact ih hquiet hkeyed hs
  | register _ _ _ _ _ ih => exact ih hquiet hkeyed hs
  | imported _ _ _ ih => exact ih hquiet hkeyed hs
  | claim _ _ _ _ _ _ ih => exact ih hquiet hkeyed hs
  | enqueue _ hselects _ => exact absurd hselects hw.not_selects
  | stacked _ _ ih => exact ih hquiet hkeyed hs
  | nested _ ih => exact ih hquiet hkeyed hs
  | merge hpresent _ _ _ =>
    refine ⟨fun name hname => hs name ?_, fun _ => .inl⟩
    rcases Run.committed_commit.1 hname with rfl | hname
    · have hsame := hkeyed.name_eq hpresent
      exact Run.committed_of_get? (hsame.symm ▸ hpresent)
    · exact hname
  | @visit p s t c f run hview hf hnew _ hrun hinner hsource ih =>
    have hopening : (run.opening c).Grounded w.resolver := fun name hname =>
      hs name (hrun.committed_of_committed hname)
    have hkeyed' : run.Keyed := hkeyed.enrolls hrun
    obtain ⟨ht, hsources⟩ := ih hquiet hkeyed' hopening
    refine ⟨fun name hname => ?_, fun _ => .inl⟩
    rcases Run.committed_commit.1 hname with rfl | hname
    -- The class is committed with its own source among those collected on the visit.
    · rw [hf hw.not_selects] at hsource
      rw [hinner.continues.name]
      rcases hsources _ hsource with hold | hgrounds
      · rw [hnew.sources] at hold
        cases hold
      · exact hw.ends_of_grounds hview.2 hgrounds
    · exact ht name hname
  | gather h =>
    refine ⟨hs, fun v hv => .inl ?_⟩
    rw [h.sources] at hv
    exact hv
  | @collect s v ms hread _ _ hfollowed =>
    refine ⟨hs, fun u hu => ?_⟩
    rcases List.mem_append.1 hu with hu | hu
    · exact .inl hu
    · rw [List.mem_singleton.1 hu]
      -- A source is collected after its imports, so all of them have been committed by now.
      refine .inr fun us hus x hx hplain => ?_
      obtain ⟨us', hus', hall | ⟨_, hreported⟩⟩ := hfollowed.imports
      · obtain rfl := Except.ok.inj (hus.symm.trans hus')
        have hknown := (Resolver.stands_of_import hw.coherent hus hx hplain).knows
        exact hs _ (hall x hx hplain (hw.neverSkips_of_knows hknown))
      · exact absurd hreported.hasCircular hquiet
  | absorb hselects _ _ _ _ => exact absurd hselects hw.not_selects

/-! ## After a call -/

namespace Run

variable {w : World} {seeds : List NamedDefinition} {environment : Environment}
  {registry : Registry} {t : Run}

/-- What is reported is a cycle that the seeds lead to. -/
theorem cycle_of_hasCircular (hw : w.ImportsOnly) (hseeds : w.KnowsSeeds seeds)
    (h : parse w seeds (fresh environment registry) = .ok () t) (hcircular : t.HasCircular) :
    ∃ name, w.Reaches seeds name ∧ TransGen w.resolver.ImportsTo name name := by
  have hclosed : w.resolver.ImportClosed {name | w.Reaches seeds name} := by
    rintro source ⟨seed, hseed, v, hv, hreach⟩ target hstep
    exact ⟨seed, hseed, v, hv, hreach.tail hstep⟩
  obtain ⟨u, v, _, hu, hv, rfl⟩ := parse_moves (hw.admits hclosed) (.explicit .object none) rfl
    (fun seed hseed v hv => ⟨⟨seed, hseed, v, hv, .refl⟩, hseeds seed hseed v hv⟩) h
  have hfresh : (fresh environment registry).Registers w.resolver {name | w.Reaches seeds name} :=
    fun name c hc => by cases hc
  obtain ⟨hmid, hfirst⟩ := hu.reports hw hfresh
  obtain ⟨_, hrest⟩ := hv.reports hw hmid
  rcases hrest hcircular with hcircular | hcycle
  · rcases hfirst hcircular with ⟨problem, hmem, _⟩ | hcycle
    · cases hmem
    · exact hcycle
  · exact hcycle

/-- While nothing is reported, the imports of every class that the seeds lead to end. -/
theorem ends_of_reaches (hw : w.ImportsOnly) (hseeds : w.KnowsSeeds seeds)
    (h : parse w seeds (fresh environment registry) = .ok () t) (hquiet : ¬ t.HasCircular)
    {name : String} (hreach : w.Reaches seeds name) : w.resolver.Ends name := by
  have hall : w.resolver.ImportClosed Set.univ := fun _ _ _ _ => trivial
  obtain ⟨u, v, hparse, hu, hv, rfl⟩ := parse_moves (hw.admits hall) (.explicit .object none) rfl
    (fun seed hseed v hv => ⟨trivial, hseeds seed hseed v hv⟩) h
  have hquiet' : ¬ u.HasCircular := fun hcircular => hquiet (hcircular.mono hv.continues.problems)
  have hkeyed : (fresh environment registry).Keyed := (idle_fresh environment registry).keyed
  have hfresh : (fresh environment registry).Grounded w.resolver := fun name hname => by
    cases hname
  obtain ⟨hgrounded, _⟩ := hu.grounds hw hquiet' hkeyed hfresh
  obtain ⟨seed, hseed, view, hview, hpath⟩ := hreach
  obtain ⟨view', hview', hcommitted⟩ := parseSeeds_committed hparse seed hseed
  obtain rfl := Except.ok.inj (hview.symm.trans hview')
  have hskips := hw.neverSkips_of_knows (hseeds seed hseed view hview).knows
  exact (hgrounded _ (hcommitted hskips)).of_reflTransGen hpath

/-- A successful call reports a circular import exactly if the imports of the seeds lead to a
class that imports itself, in one or more steps. -/
theorem hasCircular_iff_cycle (hw : w.ImportsOnly) (hseeds : w.KnowsSeeds seeds)
    (h : parse w seeds (fresh environment registry) = .ok () t) :
    (∃ problem ∈ t.problems, problem.kind = .circularImport) ↔
      ∃ name, w.Reaches seeds name ∧ TransGen w.resolver.ImportsTo name name := by
  constructor
  · exact cycle_of_hasCircular hw hseeds h
  · rintro ⟨name, hreach, hcycle⟩
    by_contra hquiet
    exact (ends_of_reaches hw hseeds h hquiet hreach).not_cycle hcycle

end Run

/-- Seeds that are given by name are known. -/
theorem World.knowsSeeds_seedsOf (w : World) (names : List String) :
    w.KnowsSeeds (seedsOf names) := by
  intro seed hseed v hv
  obtain ⟨name, _, rfl⟩ := List.mem_map.1 hseed
  have hname : v.name = name := Resolver.name_ofName rfl hv
  exact ⟨v, hname.symm ▸ hv, rfl⟩

theorem World.importsOnly_of_looksStatic {w : World} (hstatic : w.looksStatic = true)
    (hmembers : w.resolver.infos.all (·.memberClasses.isEmpty) = true) : w.ImportsOnly := by
  refine { isStatic_of_looksStatic hstatic with noMembers := fun c hc => ?_ }
  exact List.isEmpty_iff.1 (List.all_eq_true.1 hmembers c hc)

/-! ## A ring behind the seed -/

/-- A class imports two others, which import each other. -/
def ring : World where
  resolver := { reader := { index := ⟨[
    { name := "app.Root", tags := [.importing ["app.A", "app.B"]] },
    { name := "app.A", tags := [.importing ["app.B"]] },
    { name := "app.B", tags := [.importing ["app.A"]] }]⟩ } }

set_option maxRecDepth 100000 in
theorem importsOnly_ring : ring.ImportsOnly := by
  have hstatic : ring.looksStatic = true := by
    decide +kernel
  have hmembers : ring.resolver.infos.all (·.memberClasses.isEmpty) = true := by
    decide +kernel
  exact World.importsOnly_of_looksStatic hstatic hmembers

set_option maxRecDepth 100000 in
/-- The ring is reported, so the seed leads to a cycle. -/
theorem hasCircular_iff_cycle_ring :
    ∃ t, Run.parse ring (seedsOf ["app.Root"]) (Run.fresh {} {}) = .ok () t ∧
      ((∃ problem ∈ t.problems, problem.kind = .circularImport) ↔
        ∃ name, ring.Reaches (seedsOf ["app.Root"]) name ∧
          TransGen ring.resolver.ImportsTo name name) ∧
      ∃ name, ring.Reaches (seedsOf ["app.Root"]) name ∧
        TransGen ring.resolver.ImportsTo name name := by
  have hcheck : succeedsWith (fun t : Run => t.problems.any (·.kind == .circularImport))
      (Run.parse ring (seedsOf ["app.Root"]) (Run.fresh {} {})) = true := by
    decide +kernel
  obtain ⟨t, hparse, ht⟩ := exists_of_succeedsWith hcheck
  have hiff := Run.hasCircular_iff_cycle importsOnly_ring (ring.knowsSeeds_seedsOf _) hparse
  obtain ⟨problem, hmem, hkind⟩ := List.any_eq_true.1 ht
  exact ⟨t, hparse, hiff, hiff.1 ⟨problem, hmem, eq_of_beq hkind⟩⟩

end Wiring
