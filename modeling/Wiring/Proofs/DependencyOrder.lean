import Wiring.Proofs.Diagnosis
import Wiring.Proofs.OrderlyCommits

/-!
# The order of dependencies

In a world where imports go round in no circle and no seed leads to another one, a successful call
commits every class once and after all that it imports, and every class but the seeds names those
that import it as they came to it.  Each step keeps the invariant of orderly commits, and from them
an induction over how deep the steps go has it of the whole call.
-/

namespace Wiring

open Relation

/-! ## What a view imports -/

namespace Resolver

variable {r : Resolver}

/-- The candidates are what the class imports by the view, each of them once. -/
structure Lists (r : Resolver) (name : String) (v : View) (us : List View) : Prop where
  noSelectors : ∀ u ∈ us, r.isAssignable u WellKnown.importSelector = false
  plain : ∀ u ∈ us, r.IsPlain u → v.name = name ∧ r.ImportsTo name u.name ∧ r.Matches u
  nodup : (us.map View.name).Nodup

theorem Lists.tail {name : String} {u v : View} {us : List View} (h : r.Lists name v (u :: us)) :
    r.Lists name v us where
  noSelectors x hx := h.noSelectors x (List.mem_cons_of_mem u hx)
  plain x hx := h.plain x (List.mem_cons_of_mem u hx)
  nodup := (List.nodup_cons.1 h.nodup).2

/-- The class is read from its own view, or from the bare one if it is excluded. -/
theorem Matches.reads_filtered {v : View} (hv : r.Matches v) :
    (Scope.importing r {v.name}).Reads v.info (v.filtered r.filter) := by
  rw [View.filtered]
  split
  · exact .inl rfl
  · rename_i hfilter
    exact .inr ⟨rfl, by simpa using hfilter, hv⟩

theorem Matches.reads_over {v : View} (hv : r.Matches v) :
    (Scope.over r.infos).Reads v.info (v.filtered r.filter) := by
  rw [View.filtered]
  split
  · exact .inl rfl
  · exact hv.knows.symm.imp_right fun hknown => ⟨hknown, hknown⟩

end Resolver

namespace World.ImportsOnly

variable {w : World} {name : String} {v : View}

theorem lists (hw : w.ImportsOnly) {c : ClassInfo} {us : List View}
    (hread : (Scope.importing w.resolver {name}).Reads c v) (hus : w.resolver.imports v = .ok us) :
    w.resolver.Lists name v us where
  noSelectors u hu :=
    (hw.direct.of_knows (knows_of_reads hread)).noSelectors v us u List.mem_cons_self hus hu
  plain u hu hplain := by
    obtain ⟨rfl, hstands⟩ := stands_of_reads hread hus hu
    exact ⟨rfl, Resolver.importsTo_of_mem hw.coherent hstands hus hu hplain,
      (Resolver.stands_of_import hw.coherent hus hu hplain).2⟩
  nodup := Resolver.nodup_imports hus

theorem importsPlainly (hw : w.ImportsOnly) : w.ImportsPlainly w.resolver.infos :=
  ⟨hw.direct, List.Subset.refl _, hw.noScans, hw.noMembers⟩

/-- All that the class imports is listed. -/
theorem exists_listed (hw : w.ImportsOnly) (hv : w.resolver.Matches v) {us : List View}
    (hus : w.resolver.imports (v.filtered w.resolver.filter) = .ok us) {target : String}
    (h : w.resolver.ImportsTo v.name target) :
    ∃ u ∈ us, w.resolver.IsPlain u ∧ u.name = target := by
  rw [View.filtered_of_not_excludes h.1] at hus
  obtain ⟨us', u, hus', hu, hplain, hname⟩ := h.exists_mem hw.coherent hv
  obtain rfl := Except.ok.inj (hus.symm.trans hus')
  exact ⟨u, hu, hplain, hname⟩

end World.ImportsOnly

/-! ## Steps -/

namespace Run

/-- The imports of the class are followed: it and those that it leads to import, and these are
committed. -/
def Follows (s t : Run) (r : Resolver) (name : String) : Prop :=
  s.Gains t (fun _ => ReflTransGen r.ImportsTo name) (TransGen r.ImportsTo name)

/-- The class is committed as well. -/
def Visits (s t : Run) (r : Resolver) (name : String) : Prop :=
  s.Gains t (fun _ => ReflTransGen r.ImportsTo name) (ReflTransGen r.ImportsTo name)

/-- Another class imports the class, which is visited then. -/
def Brings (s t : Run) (r : Resolver) (importer name : String) : Prop :=
  s.Gains t
    (fun target other => (target = name ∧ other = importer) ∨ ReflTransGen r.ImportsTo name other)
    (ReflTransGen r.ImportsTo name)

variable {s t u : Run} {r : Resolver} {importer name : String}

theorem Follows.visits (h : s.Follows t r name) : s.Visits t r name :=
  h.mono (fun _ _ => id) fun _ => TransGen.to_reflTransGen

/-- What is imported by a class is visited as part of following its imports. -/
theorem Brings.follows (h : s.Brings t r importer name) (hstep : r.ImportsTo importer name) :
    s.Follows t r importer := by
  refine h.mono (fun target other hby => ?_) fun other hpath => TransGen.head' hstep hpath
  rcases hby with ⟨_, rfl⟩ | hpath
  · exact .refl
  · exact .head hstep hpath

/-- Whoever imports meanwhile is led to by the class, so it does not import the class. -/
theorem Follows.importersOf_eq {w : World} {S : Set String} {above : List String}
    (h : s.Follows t w.resolver name) (hw : w.IsLayered S) (hat : t.IsAt w S name above) :
    importersOf name t.history = importersOf name s.history := by
  obtain ⟨added, hadded, hall⟩ := h.history
  rw [hadded]
  refine importersOf_append fun importer hmem => ?_
  have hmem' : .imported name importer ∈ t.history := by
    rw [hadded]
    exact List.mem_append_left _ hmem
  exact hw.not_back (hat.orderly.imports name importer hmem').1 (hall name importer hmem)

theorem brings_importing (s : Run) (r : Resolver) (importer name : String) :
    s.Brings (s.importing name importer) r importer name where
  history := by
    refine ⟨[.imported name importer], rfl, fun target other hmem => .inl ?_⟩
    exact Milestone.imported.inj (List.mem_singleton.1 hmem)
  kept _ hname := hname
  gained _ := .inl

theorem Brings.visits (h : s.Brings t r importer name) (hvisits : t.Visits u r name) :
    s.Brings u r importer name :=
  h.trans (hvisits.mono (fun _ _ => .inr) fun _ => id)

end Run

/-- The candidates that are classes have been imported on behalf of the record's class, whose
imports are followed that way. -/
structure Collecting.Takes (s t : Collecting) (w : World) (S : Set String) (name : String)
    (above : List String) (us : List View) : Prop where
  isAt : t.run.IsAt w S name above
  view : t.record.view = s.record.view
  brought : ∀ u ∈ us, w.resolver.IsPlain u → t.run.HasBrought name u.name
  follows : s.run.Follows t.run w.resolver name

/-- One candidate is dealt with before the rest. -/
theorem Collecting.Takes.cons {s t u : Collecting} {w : World} {S : Set String} {name : String}
    {above : List String} {v : View} {vs : List View} (hrest : t.Takes u w S name above vs)
    (view : t.record.view = s.record.view) (follows : s.run.Follows t.run w.resolver name)
    (brought : w.resolver.IsPlain v → t.run.HasBrought name v.name) :
    s.Takes u w S name above (v :: vs) where
  isAt := hrest.isAt
  view := hrest.view.trans view
  brought x hx hplain := by
    obtain rfl | hx := List.mem_cons.1 hx
    · exact hrest.follows.hasBrought (brought hplain)
    · exact hrest.brought x hx hplain
  follows := follows.trans hrest.follows

theorem Collecting.Takes.nil {s : Collecting} {w : World} {S : Set String} {name : String}
    {above : List String} (h : s.run.IsAt w S name above) : s.Takes s w S name above [] :=
  ⟨h, rfl, by simp, .of_same rfl rfl⟩

/-- The steps one level deeper keep the invariant. -/
structure Steps.Orders (deeper : Steps) (w : World) (S : Set String) : Prop where
  enter : ∀ {s t : Run} {record : ConfigClass} {v : View} {above : List String},
    s.IsAt w S record.name above → w.resolver.Matches v →
    w.resolver.ImportsTo record.name v.name → .imported v.name record.name ∉ s.history →
    deeper.enter (.imported v record) w.resolver.filter (s.importing v.name record.name) =
      .ok () t →
    t.IsAt w S record.name above ∧ t.HasBrought record.name v.name ∧
      s.Brings t w.resolver record.name v.name
  climb : ∀ {s t : Collecting} {above : List String},
    s.run.IsAt w S s.record.name above → w.resolver.Matches s.record.view →
    (∀ target, .imported target s.record.name ∉ s.run.history) →
    deeper.climb (s.record.view.filtered w.resolver.filter) w.resolver.filter s = .ok () t →
    t.run.IsAt w S s.record.name above ∧
      (∀ target, w.resolver.ImportsTo s.record.name target →
        t.run.HasBrought s.record.name target) ∧
      s.run.Follows t.run w.resolver s.record.name
  imports : ∀ {s t : Collecting} {above : List String} {v : View} {us : List View},
    s.run.IsAt w S s.record.name above → w.resolver.Lists s.record.name v us →
    (∀ target, .imported target s.record.name ∉ s.run.history) →
    deeper.imports v us w.resolver.filter true s = .ok () t →
    s.Takes t w S s.record.name above us

namespace Step

variable {w : World} {S : Set String} {deeper : Steps} {above : List String}

/-- A class that is processed for the first time is committed at the end, and with it what it
leads to. -/
theorem orderly_visit (hw : w.IsLayered S) (hd : deeper.Orders w S)
    (hsound : deeper.Sound w .anything) {c record : ConfigClass} {s u : Run}
    (h : s.IsAt w S c.name above) (hmatches : w.resolver.Matches c.view)
    (hfirst : ∀ target, .imported target c.name ∉ s.history)
    (hnamed : c.importedBy.keys = importersOf c.name s.history)
    (hexplicit : c.isImported = false → c.name ∈ S)
    (hclimb : deeper.climb (c.view.filtered w.resolver.filter) w.resolver.filter
      ⟨c, s.opening c⟩ = .ok () ⟨record, u⟩) :
    ((RunM.close u).commit record).Orderly w.resolver S above ∧
      ((RunM.close u).commit record).Committed c.name ∧
      s.Visits ((RunM.close u).commit record) w.resolver c.name := by
  have hopening : (s.opening c).IsAt w S c.name above :=
    h.of_eq rfl (fun _ => rfl) rfl
  have hnone : ∀ target, .imported target c.name ∉ (s.opening c).history := fun target hmem =>
    hfirst target ((List.mem_cons.1 hmem).resolve_left nofun)
  obtain ⟨hat, himports, hfollows⟩ :=
    hd.climb (s := ⟨c, s.opening c⟩) hopening hmatches hnone hclimb
  have hmoves := (hsound.climb (s := ⟨c, s.opening c⟩) trivial
    (fun _ => Run.grants_filtered _ c _) (fun _ => rfl) ⟨c.isImported, List.mem_cons_self⟩ hclimb).1
  have hname : record.name = c.name := hmoves.continues.name
  have hby : record.importedBy = c.importedBy := hmoves.continues.importedBy
  have hkept : importersOf c.name (RunM.close u).history = importersOf c.name s.history :=
    hfollows.importersOf_eq hw hat
  have hopened : s.Visits (s.opening c) w.resolver c.name :=
    .of_eq [.opened c.name c.isImported] rfl rfl nofun
  have hclosed : u.Visits (RunM.close u) w.resolver c.name :=
    .of_eq [.closed] rfl rfl nofun
  have hdone := (hat.of_eq (t := RunM.close u) rfl (fun _ => rfl) rfl).commit hname
    (fun target htarget => hclosed.hasBrought (himports target htarget))
    (by rw [hby, hnamed, hkept])
    (by rw [ConfigClass.isImported, hby]; exact hexplicit)
  refine ⟨hdone, Run.committed_commit.2 (.inl hname.symm), ?_⟩
  exact ((hopened.trans hfollows.visits).trans hclosed).trans (.commit record (by rw [hname]))

/-- A class that is imported for the first time is processed and committed. -/
theorem orderly_import (hw : w.IsLayered S) (hd : deeper.Orders w S)
    (hsound : deeper.Sound w .anything) {record collected : ConfigClass} {v : View} {s u : Run}
    (h : s.IsAt w S record.name above) (hmatches : w.resolver.Matches v)
    (hstep : w.resolver.ImportsTo record.name v.name) (hnew : ¬ s.Committed v.name)
    (hclimb : deeper.climb (v.filtered w.resolver.filter) w.resolver.filter
      ⟨.imported v record, (s.importing v.name record.name).opening (.imported v record)⟩ =
        .ok () ⟨collected, u⟩) :
    ((RunM.close u).commit collected).IsAt w S record.name above ∧
      ((RunM.close u).commit collected).HasBrought record.name v.name ∧
      s.Brings ((RunM.close u).commit collected) w.resolver record.name v.name := by
  have hclosed := h.not_mem_open hw hstep
  have hnone : ∀ target, .imported target v.name ∉ (s.importing v.name record.name).history := by
    intro target hmem
    obtain heq | hmem := List.mem_cons.1 hmem
    · rw [(Milestone.imported.inj heq).2] at hclosed
      exact hclosed List.mem_cons_self
    · exact (h.orderly.not_imported hnew hclosed target).2 hmem
  have hnamed : (ConfigClass.imported v record).importedBy.keys =
      importersOf v.name (s.importing v.name record.name).history := by
    rw [Run.importersOf_importing_self, h.orderly.importersOf_eq_nil hnew hclosed]
    rfl
  obtain ⟨horderly, hcommitted, hvisit⟩ := orderly_visit hw hd hsound
    (c := .imported v record) (h.importing hw hstep hnew) hmatches hnone hnamed nofun hclimb
  refine ⟨⟨horderly, fun hrecord => ?_, h.leads, h.under⟩,
    ⟨hcommitted, hvisit.mem_history List.mem_cons_self⟩,
    (s.brings_importing w.resolver record.name v.name).visits hvisit⟩
  exact (hvisit.gained _ hrecord).elim h.absent (hw.not_back hstep)

/-- A class that has been committed is no seed, so it gains the importer. -/
theorem orderly_import_again (hw : w.IsLayered S) {record present : ConfigClass} {v : View}
    {s : Run} (h : s.IsAt w S record.name above)
    (hstep : w.resolver.ImportsTo record.name v.name)
    (hfirst : .imported v.name record.name ∉ s.history)
    (hpresent : s.classes.get? v.name = some present) :
    present.isImported = true ∧
      ((s.importing v.name record.name).commit
        (present.mergeImporters (.imported v record))).IsAt w S record.name above ∧
      ((s.importing v.name record.name).commit
        (present.mergeImporters (.imported v record))).HasBrought record.name v.name ∧
      s.Brings ((s.importing v.name record.name).commit
        (present.mergeImporters (.imported v record))) w.resolver record.name v.name := by
  have himported : present.isImported = true := by
    by_contra hexplicit
    refine hw.not_mem_of_importsTo h.under hstep (h.orderly.explicit _ _ hpresent ?_)
    simpa using hexplicit
  have hname : present.name = v.name := h.orderly.keyed.name_eq hpresent
  have hmerged : (present.mergeImporters (.imported v record)).name = v.name := hname
  refine ⟨himported, h.merge hstep hfirst hpresent himported, ⟨?_, List.mem_cons_self⟩,
    (s.brings_importing w.resolver record.name v.name).trans (.commit _ (by rw [hmerged]))⟩
  exact Run.committed_commit.2 (.inl hmerged.symm)

theorem enter_orders (hw : w.IsLayered S) (hd : deeper.Orders w S)
    (hsound : deeper.Sound w .anything) {record : ConfigClass} {v : View} {s t : Run}
    (h : s.IsAt w S record.name above) (hmatches : w.resolver.Matches v)
    (hstep : w.resolver.ImportsTo record.name v.name)
    (hfirst : .imported v.name record.name ∉ s.history)
    (hrun : enter w deeper (.imported v record) w.resolver.filter
      (s.importing v.name record.name) = .ok () t) :
    t.IsAt w S record.name above ∧ t.HasBrought record.name v.name ∧
      s.Brings t w.resolver record.name v.name := by
  have hskips : w.NeverSkips (ConfigClass.imported v record).info :=
    hw.neverSkips_of_knows hmatches.knows
  rcases (enter_eq_ok_iff hskips).1 hrun with
    ⟨run, collected, u, hroom, _, hclimb, rfl⟩ | ⟨_, present, hpresent, rfl⟩
  · obtain ⟨hnew, rfl⟩ | ⟨_, hexplicit, _⟩ := hroom
    · exact orderly_import hw hd hsound h hmatches hstep hnew hclimb
    · cases hexplicit
  · obtain ⟨himported, hagain⟩ := orderly_import_again hw h hstep hfirst hpresent
    rw [if_pos himported]
    exact hagain

/-! ## Import candidates -/

theorem importClass_orders (hd : deeper.Orders w S) {current v : View} {s t : Collecting}
    (h : s.run.IsAt w S s.record.name above) (hcurrent : current.name = s.record.name)
    (hmatches : w.resolver.Matches v) (hstep : w.resolver.ImportsTo s.record.name v.name)
    (hfirst : .imported v.name s.record.name ∉ s.run.history)
    (hrun : importClass deeper current w.resolver.filter v s = .ok () t) :
    t.run.IsAt w S s.record.name above ∧ t.record = s.record ∧
      t.run.HasBrought s.record.name v.name ∧
      s.run.Brings t.run w.resolver s.record.name v.name := by
  replace hrun := modify_bind_eq.1 hrun
  replace hrun := record_bind_eq.1 hrun
  obtain ⟨run, henter, rfl⟩ := toRecordM_eq_ok.1 hrun
  replace henter := modify_bind_eq.1 henter
  have hown : w.resolver.ImportsTo current.info.name v.name := by
    rw [show current.info.name = s.record.name from hcurrent]
    exact hstep
  obtain ⟨hat, hbrought, hbrings⟩ := hd.enter (h.register hown) hmatches hstep hfirst henter
  exact ⟨hat, rfl, hbrought, hbrings.history, hbrings.kept, hbrings.gained⟩

/-- A registrar goes to the record, and the run stays on its course. -/
theorem importRegistrar_eq_ok {current v : View} {s t : Collecting}
    (h : importRegistrar w current v s = .ok () t) :
    t.record.view = s.record.view ∧ s.run.SameCourse t.run := by
  obtain ⟨type, _, h⟩ := ofExcept_bind_eq_ok.1 h
  obtain ⟨registrar, s₁, hs, h⟩ := bind_eq_ok.1 h
  obtain ⟨run, hrun, rfl⟩ := toRecordM_eq_ok.1 hs
  obtain rfl := modify_eq_ok.1 h
  exact ⟨rfl, (quiet_produceRegistrar w type).ok hrun⟩

/-- The candidates are imported one after the other.  What an earlier one leads to imports none of
the later ones on behalf of the class. -/
theorem importEach_orders (hw : w.IsLayered S) (hd : deeper.Orders w S) {current : View}
    {us : List View} {name : String} {s t : Collecting} (hname : s.record.name = name)
    (h : s.run.IsAt w S name above) (hlists : w.resolver.Lists name current us)
    (hfirst : ∀ u ∈ us, .imported u.name name ∉ s.run.history)
    (hrun : importEach w deeper current w.resolver.filter us s = .ok () t) :
    s.Takes t w S name above us := by
  induction us generalizing s with
  | nil =>
    obtain ⟨_, rfl⟩ := pure_eq_ok.1 hrun
    exact .nil h
  | cons u us ih =>
    obtain ⟨hfresh, _⟩ := List.nodup_cons.1 hlists.nodup
    have hselector := hlists.noSelectors u List.mem_cons_self
    have hlater : ∀ x ∈ us, .imported x.name name ∉ s.run.history := fun x hx =>
      hfirst x (List.mem_cons_of_mem u hx)
    rw [importEach, if_neg (by rw [hselector]; exact Bool.false_ne_true)] at hrun
    split at hrun
    · rename_i hregistrar
      obtain ⟨_, s₁, hs, hrun⟩ := bind_eq_ok.1 hrun
      obtain ⟨hview, hcourse⟩ := importRegistrar_eq_ok hs
      have hrest := ih ((congrArg View.name hview).trans hname) (h.sameCourse hcourse)
        hlists.tail (by rw [hcourse.history]; exact hlater) hrun
      refine hrest.cons hview (.of_same hcourse.classes hcourse.history) fun hplain => ?_
      cases hregistrar.symm.trans hplain.2.1
    · rename_i hregistrar
      rw [Bool.not_eq_true] at hregistrar
      split at hrun
      · rename_i hobject
        have hplain : w.resolver.IsPlain u := ⟨hselector, hregistrar, by simpa using hobject⟩
        obtain ⟨hcurrent, hstep, hmatches⟩ := hlists.plain u List.mem_cons_self hplain
        obtain ⟨_, s₁, hs, hrun⟩ := bind_eq_ok.1 hrun
        subst hname
        obtain ⟨hat, hrecord, hbrought, hbrings⟩ := importClass_orders hd h hcurrent hmatches hstep
          (hfirst u List.mem_cons_self) hs
        have hlater₁ : ∀ x ∈ us, .imported x.name s.record.name ∉ s₁.run.history := by
          intro x hx hmem
          rcases hbrings.imported_or hmem with hmem | ⟨hsame, _⟩ | hback
          · exact hlater x hx hmem
          · exact hfresh (hsame ▸ List.mem_map_of_mem hx)
          · exact hw.not_back hstep hback
        have hrest := ih (congrArg ConfigClass.name hrecord) hat hlists.tail hlater₁ hrun
        have hview := congrArg ConfigClass.view hrecord
        exact hrest.cons hview (hbrings.follows hstep) fun _ => hbrought
      · rename_i hobject
        refine (ih hname h hlists.tail hlater hrun).cons rfl (.of_same rfl rfl) fun hplain => ?_
        rw [hplain.2.2] at hobject
        exact absurd rfl hobject

theorem imports_orders (hw : w.IsLayered S) (hd : deeper.Orders w S) {v : View} {us : List View}
    {s t : Collecting} (h : s.run.IsAt w S s.record.name above)
    (hlists : w.resolver.Lists s.record.name v us)
    (hfirst : ∀ target, .imported target s.record.name ∉ s.run.history)
    (hrun : imports w deeper v us w.resolver.filter true s = .ok () t) :
    s.Takes t w S s.record.name above us := by
  rcases imports_eq_ok hrun with ⟨rfl, rfl⟩ | ⟨hcircular, _⟩ | ⟨_, u, hu, rfl⟩
  · exact .nil h
  · have hcycle := World.ImportsOnly.cycle_of_isCircular h.orderly.registers hcircular
    exact absurd hcycle.2 (hw.acyclic _)
  · obtain ⟨hat, hview, hall, hfollows⟩ := importEach_orders
      (s := { s with run := { s.run with stack := s.record.info :: s.run.stack } }) hw hd rfl
      (h.of_eq rfl (fun _ => rfl) rfl) hlists (fun x _ => hfirst x.name) hu
    exact ⟨hat.of_eq rfl (fun _ => rfl) rfl, hview, hall, hfollows.history, hfollows.kept,
      hfollows.gained⟩

/-! ## Sources -/

theorem climb_orders (hw : w.IsLayered S) (hd : deeper.Orders w S) {s t : Collecting}
    (h : s.run.IsAt w S s.record.name above) (hmatches : w.resolver.Matches s.record.view)
    (hfirst : ∀ target, .imported target s.record.name ∉ s.run.history)
    (hrun : climb w deeper (s.record.view.filtered w.resolver.filter) w.resolver.filter s =
      .ok () t) :
    t.run.IsAt w S s.record.name above ∧
      (∀ target, w.resolver.ImportsTo s.record.name target →
        t.run.HasBrought s.record.name target) ∧
      s.run.Follows t.run w.resolver s.record.name := by
  obtain ⟨next, s₁, hs, hrun⟩ := bind_eq_ok.1 hrun
  obtain ⟨us, s₂, s₃, record, hbefore, hus, himports, _, htake⟩ := processSource_eq_ok hs
  have hread := hmatches.reads_filtered
  obtain ⟨hrecord, hcourse⟩ := hw.importsPlainly.beforeImports_eq_ok hmatches.reads_over hbefore
  obtain ⟨hat, _, hall, hfollows⟩ := hd.imports
    (by rw [hrecord]; exact h.sameCourse hcourse) (by rw [hrecord]; exact hw.lists hread hus)
    (by rw [hrecord, hcourse.history]; exact hfirst) himports
  rw [hrecord] at hat hall hfollows
  rcases takeSuperclass_eq_ok htake with ⟨rfl, rfl⟩ | ⟨name, next, hname, hplatform, _⟩
  · obtain ⟨_, rfl⟩ := pure_eq_ok.1 hrun
    refine ⟨hat, fun target htarget => ?_,
      .trans (.of_same hcourse.classes hcourse.history) hfollows⟩
    obtain ⟨u, hu, hplain, rfl⟩ := hw.exists_listed hmatches hus htarget
    exact hall u hu hplain
  · rw [hw.superClasses_of_knows (World.ImportsOnly.knows_of_reads hread) hname] at hplatform
    cases hplatform

end Step

namespace Run

variable {w : World} {S : Set String}

/-- However deep they may go, the steps keep the invariant. -/
theorem orders_steps (hw : w.IsLayered S) (fuel : Nat) : (steps w fuel).Orders w S := by
  induction fuel with
  | zero =>
    constructor
    · intro s t record v above _ _ _ _ hrun
      exact absurd hrun throw_ne_ok
    · intro s t above _ _ _ hrun
      exact absurd hrun throw_ne_ok
    · intro s t above v us _ _ _ hrun
      exact absurd hrun throw_ne_ok
  | succ fuel ih =>
    constructor
    · intro s t record v above h hmatches hstep hfirst hrun
      have hsound := sound_steps w.admits_anything fuel
      exact Step.enter_orders hw ih hsound h hmatches hstep hfirst hrun
    · intro s t above h hmatches hfirst hrun
      exact Step.climb_orders hw ih h hmatches hfirst hrun
    · intro s t above v us h hlists hfirst hrun
      exact Step.imports_orders hw ih h hlists hfirst hrun

end Run

/-! ## Seeds -/

/-- The names of the classes that the seeds stand for. -/
def World.seedNames (w : World) (seeds : List NamedDefinition) : List String :=
  seeds.filterMap fun seed =>
    (w.resolver.ofDefinition seed.definition seed.beanName).toOption.map View.name

theorem World.seedNames_cons {w : World} {seed : NamedDefinition} {v : View}
    (hv : w.resolver.ofDefinition seed.definition seed.beanName = .ok v)
    (seeds : List NamedDefinition) :
    w.seedNames (seed :: seeds) = v.name :: w.seedNames seeds := by
  rw [seedNames, List.filterMap_cons, hv]
  rfl

namespace Run

variable {w : World} {S : Set String} {seed : NamedDefinition} {seeds : List NamedDefinition}
  {environment : Environment} {registry : Registry} {s t : Run}

/-- A seed that has not been committed is, and with it what it leads to. -/
theorem parseSeed_orderly (hw : w.IsLayered S) (h : s.Orderly w.resolver S []) {v : View}
    (hv : w.resolver.ofDefinition seed.definition seed.beanName = .ok v)
    (hmatches : w.resolver.Matches v) (hmem : v.name ∈ S) (hnew : ¬ s.Committed v.name)
    (hrun : parseSeed w seed s = .ok () t) :
    t.Orderly w.resolver S [] ∧ s.Visits t w.resolver v.name := by
  obtain ⟨v', hv', henter⟩ := ofExcept_bind_eq_ok.1 (parseSeed_eq_ok hrun)
  obtain rfl := Except.ok.inj (hv.symm.trans hv')
  rw [stepsOf] at henter
  cases hfuel : w.fuel with
  | zero =>
    rw [hfuel] at henter
    exact absurd henter throw_ne_ok
  | succ fuel =>
    rw [hfuel] at henter
    have hskips : w.NeverSkips (ConfigClass.explicit v (some seed.beanName)).info :=
      hw.neverSkips_of_knows hmatches.knows
    rcases (Step.enter_eq_ok_iff hskips).1 henter with
      ⟨run, record, u, hroom, _, hclimb, rfl⟩ | ⟨himported, _⟩
    · obtain ⟨_, hsame⟩ | ⟨hcommitted, _⟩ := hroom
      · rw [hsame] at hclimb
        have hnone := h.not_imported hnew List.not_mem_nil
        have hat : s.IsAt w S v.name [] :=
          ⟨h.mono (List.nil_subset _), hnew, nofun, v.name, hmem, .refl⟩
        have hnamed : (ConfigClass.explicit v (some seed.beanName)).importedBy.keys =
            importersOf v.name s.history :=
          (h.importersOf_eq_nil hnew List.not_mem_nil).symm
        obtain ⟨horderly, _, hvisits⟩ := Step.orderly_visit hw (orders_steps hw fuel)
          (sound_steps w.admits_anything fuel) (c := .explicit v (some seed.beanName)) hat hmatches
          (fun target => (hnone target).2) hnamed (fun _ => hmem) hclimb
        exact ⟨horderly, hvisits⟩
      · exact absurd hcommitted hnew
    · cases himported

/-- No seed leads to another one, so each is new when its turn comes. -/
theorem parseSeeds_orderly (hw : w.IsLayered S) (hseeds : w.KnowsSeeds seeds)
    (hS : ∀ name ∈ w.seedNames seeds, name ∈ S) (hnodup : (w.seedNames seeds).Nodup)
    (h : s.Orderly w.resolver S []) (hnew : ∀ name ∈ w.seedNames seeds, ¬ s.Committed name)
    (hrun : parseSeeds w seeds s = .ok () t) : t.Orderly w.resolver S [] := by
  induction seeds generalizing s with
  | nil =>
    obtain ⟨_, rfl⟩ := pure_eq_ok.1 hrun
    exact h
  | cons seed seeds ih =>
    obtain ⟨_, u, hseed, hrest⟩ := bind_eq_ok.1 hrun
    obtain ⟨v, hv, _⟩ := ofExcept_bind_eq_ok.1 (parseSeed_eq_ok hseed)
    rw [World.seedNames_cons hv] at hS hnodup hnew
    obtain ⟨hdistinct, hnodup⟩ := List.nodup_cons.1 hnodup
    have hmem := hS v.name List.mem_cons_self
    obtain ⟨hu, hvisits⟩ := parseSeed_orderly hw h hv (hseeds seed List.mem_cons_self v hv) hmem
      (hnew v.name List.mem_cons_self) hseed
    refine ih (fun x hx => hseeds x (List.mem_cons_of_mem _ hx))
      (fun name hname => hS name (List.mem_cons_of_mem _ hname)) hnodup hu
      (fun name hname hcommitted => ?_) hrest
    have hother : v.name ≠ name := by
      rintro rfl
      exact hdistinct hname
    rcases hvisits.gained name hcommitted with hbefore | hpath
    · exact hnew name (List.mem_cons_of_mem _ hname) hbefore
    · rcases reflTransGen_iff_eq_or_transGen.1 hpath with heq | hpath
      · exact hother heq.symm
      · exact hw.apart _ hmem name (hS name (List.mem_cons_of_mem _ hname)) hother hpath

theorem orderly_fresh (environment : Environment) (registry : Registry) :
    (fresh environment registry).Orderly w.resolver S [] where
  keyed := (idle_fresh environment registry).keyed
  nodup := List.nodup_nil
  ordered := .nil
  complete name hname := by cases hname
  imports target importer hmem := by cases hmem
  named name c hc := by cases hc
  once name := List.nodup_nil
  explicit name c hc := by cases hc
  registers name c hc := by cases hc

/-- Nothing has been queued by the seeds, so a call is over after them. -/
theorem parse_orderly (hw : w.IsLayered {name | name ∈ w.seedNames seeds})
    (hseeds : w.KnowsSeeds seeds) (hdistinct : (w.seedNames seeds).Nodup)
    (h : parse w seeds (fresh environment registry) = .ok () t) :
    t.Orderly w.resolver {name | name ∈ w.seedNames seeds} [] := by
  obtain ⟨_, u, hparse, hresolve⟩ := bind_eq_ok.1 h
  have hall : w.resolver.ImportClosed Set.univ := fun _ _ _ _ => trivial
  have hmoves : Moves w (.importing w.resolver Set.univ) .entries
      ⟨.explicit .object none, fresh environment registry⟩ ⟨.explicit .object none, u⟩ :=
    parseSeeds_moves (hw.admits hall)
      (fun seed hseed v hv => ⟨trivial, hseeds seed hseed v hv⟩) hparse
  have hqueue : u.queue = some [] :=
    hmoves.queue.resolve_right fun hselects => hw.not_selects hselects.1
  rw [resolveDeferred_of_empty hqueue] at hresolve
  obtain ⟨_, rfl⟩ := EStateM.Result.ok.inj hresolve
  exact parseSeeds_orderly hw hseeds (fun _ => id) hdistinct (orderly_fresh environment registry)
    (fun name _ hname => by cases hname) hparse

/-- Where imports go round in no circle and no seed leads to another one, a call commits each class
once and after all that it imports.  The importers of a class are the committed classes that import
it, in the order in which they came to it. -/
theorem parse_inDependencyOrder (hw : w.IsLayered {name | name ∈ w.seedNames seeds})
    (hseeds : w.KnowsSeeds seeds) (hdistinct : (w.seedNames seeds).Nodup)
    (h : parse w seeds (fresh environment registry) = .ok () t) :
    (∀ before name after, t.classes.keys = before ++ name :: after →
      ∀ target, w.resolver.ImportsTo name target → target ∈ before) ∧
    (t.Keyed ∧ t.classes.keys.Nodup) ∧
    ∀ name c, t.classes.get? name = some c →
      c.importedBy.keys = importersOf name t.history ∧ c.importedBy.keys.Nodup ∧
      ∀ importer, importer ∈ c.importedBy.keys ↔
        t.Committed importer ∧ w.resolver.ImportsTo importer name := by
  obtain ⟨keyed, nodup, ordered, complete, imports, named, once, _, _⟩ :=
    parse_orderly hw hseeds hdistinct h
  refine ⟨fun before name after hkeys target htarget => ?_, ⟨keyed, nodup⟩, fun name c hc => ?_⟩
  · have hname : t.Committed name := OrderedMap.contains_iff.2 (by rw [hkeys]; simp)
    have hmem : target ∈ t.classes.keys :=
      OrderedMap.contains_iff.1 (complete name hname target htarget).1
    rw [hkeys] at hmem ordered
    obtain ⟨_, hlater, _⟩ := List.pairwise_append.1 ordered
    rcases List.mem_append.1 hmem with hmem | hmem
    · exact hmem
    · obtain rfl | hmem := List.mem_cons.1 hmem
      · exact absurd (.single htarget) (hw.acyclic target)
      · exact absurd htarget (List.rel_of_pairwise_cons hlater hmem)
  · rw [named name c hc]
    refine ⟨rfl, once name, fun importer => mem_importersOf.trans ⟨fun hmem => ?_, fun hby => ?_⟩⟩
    · obtain ⟨hedge, himporter, _⟩ := imports name importer hmem
      exact ⟨himporter.resolve_right List.not_mem_nil, hedge⟩
    · exact (complete importer hby.1 name hby.2).2

end Run

/-! ## Layers that can be computed -/

/-- The names of the classes that import others, with the names of those. -/
def Resolver.edges (r : Resolver) : List (String × String) :=
  r.infos.flatMap fun c =>
    match r.imports (.read c) with
    | .ok us => us.map fun u => (c.name, u.name)
    | .error _ => []

theorem Resolver.mem_edges {r : Resolver} (hr : r.Coherent) {source target : String}
    (h : r.ImportsTo source target) : (source, target) ∈ r.edges := by
  obtain ⟨_, v, us, u, hv, hus, hu, _, rfl⟩ := h
  have hname : v.name = source := name_ofName rfl hv
  rcases knows_ofName hv with hknown | hbare
  · have hread : v.info = (View.read v.info).info := rfl
    obtain ⟨us', hus', hall⟩ := hr.exists_import hread hus
    obtain ⟨u', hu', hinfo⟩ := hall u hu
    refine List.mem_flatMap.2 ⟨v.info, hknown, ?_⟩
    rw [hus']
    exact List.mem_map.2 ⟨u', hu', Prod.ext hname (congrArg ClassInfo.name hinfo)⟩
  · have hnone : r.imports v = .ok [] := imports_of_untagged (by rw [hbare])
    obtain rfl := Except.ok.inj (hus.symm.trans hnone)
    cases hu

/-- Classes import only such as come earlier in the list, and none of the seeds. -/
def World.looksLayered (w : World) (order seeds : List String) : Bool :=
  w.resolver.edges.all fun e => order.idxOf e.2 < order.idxOf e.1 && !seeds.contains e.2

theorem World.isLayered_of_looksLayered {w : World} (hw : w.ImportsOnly)
    {order seeds : List String} (h : w.looksLayered order seeds = true) :
    w.IsLayered {name | name ∈ seeds} := by
  have hedge {source target : String} (hstep : w.resolver.ImportsTo source target) :
      order.idxOf target < order.idxOf source ∧ target ∉ seeds := by
    have hall := List.all_eq_true.1 h _ (Resolver.mem_edges hw.coherent hstep)
    simpa using hall
  have hdown {source target : String} (hpath : TransGen w.resolver.ImportsTo source target) :
      order.idxOf target < order.idxOf source ∧ target ∉ seeds := by
    induction hpath with
    | single hstep => exact hedge hstep
    | tail _ hstep ih => exact ⟨(hedge hstep).1.trans ih.1, (hedge hstep).2⟩
  refine { hw with acyclic := fun name hcycle => ?_, apart := fun _ _ other hother _ hpath => ?_ }
  · exact absurd (hdown hcycle).1 (lt_irrefl _)
  · exact (hdown hpath).2 hother

/-- Two classes and one that the first of them imports all import the same class. -/
def shared : World where
  resolver := { reader := { index := ⟨[
    { name := "app.First", tags := [.importing ["app.Part", "app.Shared"]] },
    { name := "app.Second", tags := [.importing ["app.Shared"]] },
    { name := "app.Part", tags := [.importing ["app.Shared"]] },
    { name := "app.Shared" }]⟩ } }

set_option maxRecDepth 100000 in
theorem isLayered_shared :
    shared.IsLayered {name | name ∈ shared.seedNames (seedsOf ["app.First", "app.Second"])} := by
  have hstatic : shared.looksStatic = true := by
    decide +kernel
  have hmembers : shared.resolver.infos.all (·.memberClasses.isEmpty) = true := by
    decide +kernel
  have hlayered : shared.looksLayered ["app.Shared", "app.Part", "app.First", "app.Second"]
      (shared.seedNames (seedsOf ["app.First", "app.Second"])) = true := by
    decide +kernel
  exact World.isLayered_of_looksLayered (World.importsOnly_of_looksStatic hstatic hmembers) hlayered

set_option maxRecDepth 100000 in
/-- The shared class is committed first, and names the three in the order in which they come to
it. -/
theorem parse_inDependencyOrder_shared :
    ∃ t, Run.parse shared (seedsOf ["app.First", "app.Second"]) (Run.fresh {} {}) = .ok () t ∧
      t.classes.keys = ["app.Shared", "app.Part", "app.First", "app.Second"] ∧
      importersOf "app.Shared" t.history = ["app.Part", "app.First", "app.Second"] ∧
      (∀ before name after, t.classes.keys = before ++ name :: after →
        ∀ target, shared.resolver.ImportsTo name target → target ∈ before) ∧
      (t.Keyed ∧ t.classes.keys.Nodup) ∧
      ∀ name c, t.classes.get? name = some c →
        c.importedBy.keys = importersOf name t.history ∧ c.importedBy.keys.Nodup ∧
        ∀ importer, importer ∈ c.importedBy.keys ↔
          t.Committed importer ∧ shared.resolver.ImportsTo importer name := by
  have hcheck : succeedsWith (fun t : Run =>
      decide (t.classes.keys = ["app.Shared", "app.Part", "app.First", "app.Second"]) &&
        decide (importersOf "app.Shared" t.history = ["app.Part", "app.First", "app.Second"]))
      (Run.parse shared (seedsOf ["app.First", "app.Second"]) (Run.fresh {} {})) = true := by
    decide +kernel
  have hdistinct : (shared.seedNames (seedsOf ["app.First", "app.Second"])).Nodup := by
    decide +kernel
  obtain ⟨t, hparse, ht⟩ := exists_of_succeedsWith hcheck
  rw [Bool.and_eq_true, decide_eq_true_eq, decide_eq_true_eq] at ht
  exact ⟨t, hparse, ht.1, ht.2, Run.parse_inDependencyOrder isLayered_shared
    (shared.knowsSeeds_seedsOf _) hdistinct hparse⟩

end Wiring
