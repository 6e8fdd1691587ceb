import Wiring.Proofs.Behaviour

/-!
# Excluded names

A class whose name the default filter excludes is never imported.  It can still be a seed or the
result of a scan, but then it stands for nothing: its record stays empty, and processing it leaves
nothing behind but the marks that it was opened and closed.

The filter is applied wherever a name is resolved, and again to the class itself when its
processing begins.  On the way it only grows, so it still covers the default one at the bottom.
-/

namespace Wiring

/-! ## Barred names stay out -/

/-- The milestone imports no barred class and imports nothing on behalf of one. -/
def Milestone.Avoids (X : String → Prop) : Milestone → Prop
  | imported name importer => ¬ X name ∧ ¬ X importer
  | opened name isImported => X name → isImported = false
  | closed => True

/-- Barred classes have inert records and own no superclasses, and no milestone is about an import
of theirs. -/
structure Run.ShutsOut (s : Run) (X : String → Prop) : Prop where
  classes : ∀ e ∈ s.classes.entries, X e.1 → e.2.IsInert
  owners : ∀ e ∈ s.superclassOwners.entries, ¬ X e.2
  history : ∀ m ∈ s.history, m.Avoids X

theorem Run.shutsOut_fresh (environment : Environment) (registry : Registry) (X : String → Prop) :
    (fresh environment registry).ShutsOut X := by
  constructor
  · intro e he
    cases he
  · intro e he
    cases he
  · intro m hm
    cases hm

/-- One more milestone, and nothing committed or claimed. -/
theorem Run.ShutsOut.mark {s t : Run} {X : String → Prop} (h : s.ShutsOut X) {m : Milestone}
    (hm : m.Avoids X) (classes : t.classes = s.classes)
    (owners : t.superclassOwners = s.superclassOwners) (history : t.history = m :: s.history) :
    t.ShutsOut X := by
  refine ⟨?_, ?_, fun m' hm' => ?_⟩
  · rw [classes]
    exact h.classes
  · rw [owners]
    exact h.owners
  · rw [history] at hm'
    rcases List.mem_cons.1 hm' with rfl | hm'
    · exact hm
    · exact h.history m' hm'

theorem Changes.shutsOut {X : String → Prop} {s t : Collecting} (h : Changes X s t)
    (hs : s.run.ShutsOut X) : t.run.ShutsOut X := by
  induction h with
  | refl _ => exact hs
  | trans _ _ ih ih' => exact ih' (ih hs)
  | aside hclasses howners _ hhistory =>
    refine ⟨?_, ?_, ?_⟩
    · rw [hclasses]
      exact hs.classes
    · rw [howners]
      exact hs.owners
    · rw [hhistory]
      exact hs.history
  | @imported s name importer hname himporter =>
    have hm : (Milestone.imported name importer).Avoids X := ⟨hname, himporter⟩
    exact hs.mark hm rfl rfl rfl
  | @opened s c hc =>
    have hm : (Milestone.opened c.name c.isImported).Avoids X := hc
    exact hs.mark hm rfl rfl rfl
  | closed _ =>
    have hm : Milestone.closed.Avoids X := trivial
    exact hs.mark hm rfl rfl rfl
  | claimed howner =>
    refine ⟨hs.classes, fun e he => ?_, hs.history⟩
    rcases OrderedMap.mem_of_mem_put he with he | rfl
    · exact hs.owners e he
    · exact howner
  | queued _ _ _ => exact ⟨hs.classes, hs.owners, hs.history⟩
  | emptied _ => exact ⟨hs.classes, hs.owners, hs.history⟩
  | withdrawn name =>
    refine ⟨fun e he => ?_, fun e he => ?_, hs.history⟩
    · exact hs.classes e (List.eraseP_sublist.subset he)
    · exact hs.owners e (List.mem_of_mem_filter he)
  | committed _ hinert =>
    refine ⟨fun e he => ?_, hs.owners, hs.history⟩
    rcases OrderedMap.mem_of_mem_put he with he | rfl
    · exact hs.classes e he
    · exact hinert
  | @absorbed s name scratch hname =>
    refine ⟨fun e he => ?_, hs.owners, hs.history⟩
    obtain he | ⟨c, _, rfl⟩ := OrderedMap.mem_of_mem_modify he
    · exact hs.classes e he
    · exact fun hX => absurd hX hname
  | inside _ ih => exact ih hs
  | gathered _ _ => exact hs
  | collected _ => exact hs

theorem Run.Reachable.shutsOut {w : World} {X : String → Prop} (hw : w.Bars X) {s : Run}
    (h : Reachable w s) : s.ShutsOut X :=
  (h.induction (P := fun s => s.ShutsOut X) hw (fun _ _ => shutsOut_fresh _ _ X)
    fun hs hst => hst.shutsOut hs).2

/-! ## Processing an excluded class -/

namespace Step

variable {w : World} {deeper : Steps}

theorem enterMembers_object (f : NameFilter) (s : Collecting) :
    enterMembers w deeper .object f s = .ok () s := by
  have hnone : memberCandidates w.resolver .object s.record.name = [] :=
    List.eq_nil_iff_forall_not_mem.2 fun m hm => by cases (mem_memberCandidates.1 hm).1
  refine record_bind_eq.2 ?_
  rw [hnone]
  split
  · rfl
  · rfl

theorem addDeclaredSources_object (s : Run) :
    RunM.addDeclaredSources w View.object.info s = .ok () s := by
  rw [RunM.addDeclaredSources, Resolver.repeatable_of_untagged rfl]
  rfl

theorem enterAllScanned_object (s : Run) :
    enterAllScanned w deeper View.object.info s = .ok () s := by
  rw [enterAllScanned, Resolver.repeatable_of_untagged rfl]
  rfl

theorem followImports_object (f : NameFilter) (s : Collecting) :
    followImports w deeper .object f s = deeper.imports .object [] f true s := by
  rw [followImports, Resolver.imports_of_untagged rfl]
  rfl

theorem addResources_object (s : Collecting) :
    addResources w View.object.info s = .ok () s := by
  rw [addResources, Resolver.findTag?_of_untagged rfl]
  rfl

theorem collectMethods_object (s : Collecting) :
    collectMethods w .object s = .ok () { s with record := s.record.gained .object [] } := by
  refine record_bind_eq.2 ?_
  rw [Resolver.addAllMethods_eq, Resolver.allMethods_object]
  rfl

theorem takeSuperclass_object (s : Collecting) : takeSuperclass w .object s = .ok none s := rfl

/-- The empty view has nothing to process, so the run is left as it is. -/
theorem climb_object {f : NameFilter} {s : Collecting}
    (hd : Ends (deeper.imports .object [] f true s) (fun _ t => t = s) fun _ t => t = s) :
    Ends (climb w deeper .object f s) (fun _ t => t.run = s.run) fun _ t => t.run = s.run := by
  refine ends_bind.2 ?_
  refine (ends_bind_of_ok (enterMembers_object f s)).2 ?_
  have hsources := addDeclaredSources_object (w := w) s.run
  refine (ends_bind_of_ok (toRecordM_eq_ok.2 ⟨_, hsources, rfl⟩)).2 ?_
  have hscans : enterAllScanned w deeper View.object.info s.run = .ok () s.run :=
    enterAllScanned_object s.run
  refine (ends_bind_of_ok (toRecordM_eq_ok.2 ⟨_, hscans, rfl⟩)).2 ?_
  refine ends_bind.2 ?_
  rw [followImports_object]
  refine hd.imp (fun _ t ht => ?_) fun _ t ht => by rw [ht]
  subst ht
  refine (ends_bind_of_ok (addResources_object t)).2 ?_
  refine (ends_bind_of_ok (collectMethods_object t)).2 ?_
  rw [takeSuperclass_object]
  rfl

end Step

namespace Run

variable {w : World}

theorem imports_nil (fuel : Nat) (current : View) (f : NameFilter) (checksCycles : Bool)
    (s : Collecting) : Ends ((steps w fuel).imports current [] f checksCycles s)
      (fun _ t => t = s) fun _ t => t = s := by
  cases fuel with
  | zero => rfl
  | succ fuel => rfl

/-- A class that is closed as soon as it has been opened leaves only marks. -/
theorem close_opening (s : Run) (c : ConfigClass) :
    { RunM.close (s.opening c) with history := s.history, levels := s.levels } = s := by
  cases s
  rfl

/-- Processing a class that the filter excludes leaves nothing behind but marks. -/
theorem process_of_excludes (fuel : Nat) {c : ConfigClass} {f : NameFilter} (s : Run)
    (hc : f.excludes c.name = true) :
    { finalState (Step.process w (steps w fuel) c f s) with
      history := s.history, levels := s.levels } = s := by
  have hview : c.view.filtered f = .object := by
    rw [View.filtered, show f.excludes c.view.name = true from hc]
    rfl
  -- the class is processed as the empty view, which has nothing to follow
  have hclimb : Ends ((steps w fuel).climb .object f ⟨c, s.opening c⟩)
      (fun _ t => t.run = s.opening c) fun _ t => t.run = s.opening c := by
    cases fuel with
    | zero => rfl
    | succ fuel => exact Step.climb_object (imports_nil fuel _ _ _ _)
  refine Ends.finalState (P := fun t : Run =>
    { t with history := s.history, levels := s.levels } = s) (ends_bind.2 ?_)
  refine Step.ends_descend.imp (fun _ t ht => ?_) fun _ t ht => by rw [ht.1]
  subst ht
  refine ends_bind.2 (ends_modify.2 (ends_bind.2 (ends_ensuring.2 (ends_on.2 ?_))))
  rw [hview]
  refine hclimb.imp (fun _ t ht => ?_) fun _ t ht => ?_
  · show { RunM.close t.run with history := s.history, levels := s.levels } = s
    rw [ht, close_opening]
  · show { RunM.close t.run with history := s.history, levels := s.levels } = s
    rw [ht, close_opening]

/-- Default exclusions are airtight.  A class whose name is excluded is never entered as imported,
by whatever it is named.  If it is committed, its record is that of an explicit class and is
empty.  It imports nothing, claims no superclass, and processing it under a filter that excludes
it, such as the default one that seeds and scan results come with, changes nothing but marks. -/
theorem excluded_stays_out {s : Run} {name : String} (hgroups : w.KeepsOrigins)
    (hs : Reachable w s) (hname : w.resolver.filter.excludes name = true) :
    (∀ importer, Milestone.imported name importer ∉ s.history) ∧
      Milestone.opened name true ∉ s.history ∧
      (∀ c, s.classes.get? name = some c → c.IsInert) ∧
      (∀ other, Milestone.imported other name ∉ s.history) ∧
      (∀ e ∈ s.superclassOwners.entries, e.2 ≠ name) ∧
      ∀ fuel c f run, c.name = name → f.excludes name = true →
        { finalState (Step.process w (steps w fuel) c f run) with
          history := run.history, levels := run.levels } = run := by
  have hout := hs.shutsOut (World.bars_excluded hgroups)
  refine ⟨fun importer hm => ?_, fun hm => ?_, fun c hc => ?_, fun other hm => ?_, fun e he => ?_,
    fun fuel c f run hc hf => ?_⟩
  · exact (hout.history _ hm).1 hname
  · cases hout.history _ hm hname
  · exact hout.classes _ (OrderedMap.mem_entries_of_get? hc) hname
  · exact (hout.history _ hm).2 hname
  · rintro rfl
    exact hout.owners e he hname
  · exact process_of_excludes fuel run (hc ▸ hf)

end Run

/-! ## An excluded class that is a seed -/

/-- The root imports a class of an excluded package, which would import a leaf and has a bean
method and a superclass. -/
def excluding : World where
  resolver := {
    reader := { index := ⟨[
      { name := "app.Root", tags := [.importing ["skip.Config"]] },
      { name := "skip.Config", superClass := some "app.Base", tags := [.importing ["app.Leaf"]],
        methods := [
          { name := "m", declaringClass := "skip.Config", tags := [.mk WellKnown.bean []] }] },
      { name := "app.Base" }, { name := "app.Leaf" }]⟩ }
    filter := .startingWith ["skip."] }

set_option maxRecDepth 100000 in
/-- The root does not import the class, and as a seed of its own it is committed with nothing. -/
theorem excluded_stays_out_seed :
    ∃ t c, Run.parse excluding (seedsOf ["app.Root", "skip.Config"]) (Run.fresh {} {}) = .ok () t ∧
      t.classes.get? "skip.Config" = some c ∧ c.IsInert ∧
      ∀ importer, Milestone.imported "skip.Config" importer ∉ t.history := by
  have hcheck : succeedsWith (fun t : Run => t.classes.contains "skip.Config")
      (Run.parse excluding (seedsOf ["app.Root", "skip.Config"]) (Run.fresh {} {})) = true := by
    decide +kernel
  obtain ⟨t, hparse, ht⟩ := exists_of_succeedsWith hcheck
  obtain ⟨c, hc⟩ := Option.isSome_iff_exists.1 ht
  have hreach : Run.Reachable excluding t := by
    have h := Run.Reachable.after (.parse (seedsOf ["app.Root", "skip.Config"]))
      (Run.Reachable.fresh (w := excluding) {} {})
    rw [Run.Call.after, show Run.Call.run excluding _ = Run.parse excluding _ from rfl, hparse] at h
    exact h
  have hexcluded : excluding.resolver.filter.excludes "skip.Config" = true := by decide +kernel
  obtain ⟨himported, _, hinert, _⟩ := Run.excluded_stays_out (w := excluding)
    (fun _ ht => nomatch ht) hreach hexcluded
  exact ⟨t, c, hparse, hc, hinert c hc, himported⟩

end Wiring
