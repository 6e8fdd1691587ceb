import Wiring.Proofs.Coherence
import Wiring.Proofs.Nesting
import Wiring.Proofs.Precedence

/-!
# A bound on the depth

The bound depends on how many classes there are and how many may be found by scans, and on nothing
else.  No list of seeds makes a run nest deeper.
-/

namespace Wiring

/-! ## What scans find -/

theorem Scanner.mem_found_addComponent {request : ScanRequest} {registers : Bool} {a : Answer}
    {c : ClassInfo} {d : NamedDefinition} (h : d ∈ (addComponent request registers a c).found) :
    d ∈ a.found ∨ d = ⟨componentName c, component request c⟩ := by
  rw [addComponent] at h
  split at h
  · simpa using h
  · split at h
    · exact .inl h
    · simpa using h

theorem Scanner.mem_found {request : ScanRequest} {reader : Reader} {registers : Bool}
    {a a' : Answer} {names : List String}
    (h : readAll request reader registers a names = (a', none)) :
    ∀ d ∈ a'.found, d ∈ a.found ∨ ∃ c ∈ reader.index.classes,
      d.definition.originating = none ∧ d.definition.metadata? = some c := by
  induction names generalizing a with
  | nil =>
    obtain rfl := (Prod.mk.inj h).1
    exact fun _ hd => .inl hd
  | cons name names ih =>
    obtain h | ⟨c, hread, h⟩ := readAll_cons h
    · exact ih h
    · intro d hd
      obtain hd | hd := ih h d hd
      · obtain hd | rfl := mem_found_addComponent hd
        · exact .inl hd
        · refine .inr ⟨c, Reader.mem_of_read hread, rfl, ?_⟩
          simp [component, Definition.metadata?, Definition.ofMetadata, Option.filter]
      · exact .inr hd

theorem Scanner.Registers.known {s : Scanner} (hs : s.Registers) {r : Resolver}
    {request : ScanRequest} {registry registry' : Registry} {found : List NamedDefinition}
    (h : s.scan request r.reader registry = (.ok found, registry')) {d : NamedDefinition}
    (hd : d ∈ found) {v : View}
    (hv : r.ofDefinition (Step.scannedDefinition d) d.beanName = .ok v) : r.Knows v := by
  obtain rfl | ⟨names, rfl⟩ := hs
  · obtain rfl := Except.ok.inj (Prod.mk.inj h).1
    cases hd
  · rw [scan] at h
    split at h
    · rename_i a ha
      obtain rfl := Except.ok.inj (Prod.mk.inj h).1
      obtain hd | ⟨c, hc, horiginating, hmetadata⟩ := Scanner.mem_found ha d hd
      · cases hd
      · rw [Step.scannedDefinition, horiginating, Option.getD_none, Resolver.ofDefinition,
          hmetadata] at hv
        obtain rfl := Except.ok.inj hv
        exact Resolver.knows_read hc
    · cases (Prod.mk.inj h).1

/-! ## What a run over classes comes to -/

/-- Only the classes are entered, and bare views. -/
def Scope.over (cs : List ClassInfo) : Scope where
  Enters v := v.info ∈ cs ∨ v.IsBare
  Reads c v := v.IsBare ∨ (v.info ∈ cs ∧ c ∈ cs)

def classNames (cs : List ClassInfo) : Finset String := (cs.map (·.name)).toFinset

namespace World

variable {w : World} {cs : List ClassInfo}

theorem IsDirect.not_selects (hw : w.IsDirect cs) : ¬ (Scope.over cs).Selects w := by
  rintro ⟨c, v, us, u, hread, hus, hu, hselector⟩
  obtain hbare | ⟨hv, _⟩ := hread
  · have hnone : w.resolver.imports v = .ok [] := Resolver.imports_of_untagged (by rw [hbare])
    obtain rfl := Except.ok.inj (hus.symm.trans hnone)
    cases hu
  · rw [hw.noSelectors v us u hv hus hu] at hselector
    cases hselector

theorem enters_of_knows (hinfos : w.resolver.infos ⊆ cs) {v : View} (h : w.resolver.Knows v) :
    (Scope.over cs).Enters v := h.imp_left fun hv => hinfos hv

/-- From one class of the world a run comes only to others, if this is so for what is scanned. -/
theorem admits_over (hinfos : w.resolver.infos ⊆ cs)
    (hscanned : ∀ {c : ClassInfo} {u : View} {request : ScanRequest}
      {registry registry' : Registry} {found : List NamedDefinition} {d : NamedDefinition}, c ∈ cs →
      w.resolver.repeatable c WellKnown.componentScan WellKnown.componentScans ≠ [] →
      w.scanner.scan request w.resolver.reader registry = (.ok found, registry') → d ∈ found →
      w.resolver.ofDefinition (Step.scannedDefinition d) d.beanName = .ok u → w.resolver.Knows u) :
    w.Admits (.over cs) := by
  constructor
  · intro v f hv _
    rw [View.filtered]
    split
    · exact .inl rfl
    · obtain hv | hv := hv
      · exact .inr ⟨hv, hv⟩
      · exact .inl hv
  · intro c v u name hread hname _ hsuper
    obtain hbare | ⟨_, hc⟩ := hread
    · rw [hbare] at hname
      cases hname
    · obtain ⟨other, hother⟩ := Resolver.related_of_superClass hsuper
      obtain hu | hu := enters_of_knows hinfos (Resolver.knows_related hother)
      · exact .inr ⟨hu, hc⟩
      · exact .inl hu
  · intro c v us _ hus u hu _
    obtain ⟨x, name, hname⟩ := Resolver.related_of_mem_imports hus u hu
    exact enters_of_knows hinfos (Resolver.knows_related hname)
  · intro c v _ _ u hu
    obtain ⟨hmember, _⟩ := Step.mem_memberCandidates.1 hu
    obtain ⟨name, _, hname⟩ := Resolver.related_of_mem_members hmember
    exact enters_of_knows hinfos (Resolver.knows_related hname)
  · intro u name f _ hname
    exact enters_of_knows hinfos (Resolver.knows_ofName hname)
  · intro c v u request registry registry' found d hread hdeclared hscan hd hu
    obtain hbare | ⟨hv, _⟩ := hread
    · exact absurd (Resolver.repeatable_of_untagged (by rw [hbare]) _ _) hdeclared
    · exact enters_of_knows hinfos (hscanned hv hdeclared hscan hd hu)

/-- A run over the classes is confined to them. -/
theorem IsDirect.confines (hw : w.IsDirect cs) (hscanner : w.scanner.Registers)
    (hinfos : w.resolver.infos ⊆ cs) : w.Confines (.over cs) (classNames cs) cs.length where
  admits := admits_over hinfos fun _ _ hscan hd hu => hscanner.known hscan hd hu
  scanner := hscanner
  selects := hw.not_selects
  neverSkips v hv := by
    obtain hv | hv := hv
    · exact hw.neverSkips _ hv
    · rw [hv]
      exact .inr ⟨rfl, rfl⟩
  card := by
    have := List.toFinset_card_le (cs.map (·.name))
    rwa [List.length_map] at this
  known hread := hread.imp_right fun h => List.mem_toFinset.2 (List.mem_map_of_mem h.2)
  superClass {c v u name} hread hname hsuper := by
    cases hfilter : w.resolver.filter.excludes name with
    | true =>
      rw [Resolver.superClass, hname] at hsuper
      obtain ⟨u', hu', heq⟩ := exceptMap_eq_ok.1 hsuper
      obtain rfl := Option.some.inj heq
      rw [Resolver.related_of_excludes hfilter hu']
      exact .inl rfl
    | false =>
      obtain ⟨other, hother⟩ := Resolver.related_of_superClass hsuper
      rw [← Resolver.name_superClass hname hfilter hsuper]
      obtain hu | hu := enters_of_knows hinfos (Resolver.knows_related hother)
      · exact .inr (List.mem_toFinset.2 (List.mem_map_of_mem hu))
      · exact .inl hu

end World

/-! ## The bound -/

/-- No run on so many classes, of which scans may find so many by name, nests deeper.  The
built-in classes count as well, and so does a seed that brings its own metadata. -/
def depthBound (classes scanned : Nat) : Nat :=
  (scanned + 1) * (3 * (classes + 9) + 1) * (classes + 12) + 1

/-- How deep the runs of a world nest at most. -/
def World.depthBound (w : World) : Nat :=
  Wiring.depthBound (w.resolver.reader.index.size + w.resolver.types.types.length)
    w.scanner.classNames.length

namespace Run

/-- The bound is what a run can afford that has registered nothing yet. -/
theorem canEnter_of_depthBound {w : World} {U : Finset String} {s : Run} {c : ConfigClass} {b : Nat}
    (hb : w.depthBound = b + 1) :
    s.CanEnter w U (w.resolver.infos.length + 1) c b := by
  have hlength : w.resolver.infos.length + 1 =
      w.resolver.reader.index.size + w.resolver.types.types.length + 9 := by
    simp only [Resolver.infos, builtins, Index.size, List.length_append, List.length_map,
      List.length_cons, List.length_nil]
  have hregistered : s.unregistered w + 1 ≤ w.scanner.classNames.length + 1 :=
    Nat.succ_le_succ (Scanner.unregistered_le _ _ _)
  rw [World.depthBound, Wiring.depthBound] at hb
  rw [hlength]
  generalize w.resolver.reader.index.size + w.resolver.types.types.length = classes at hb ⊢
  have hmul : (s.unregistered w + 1) * (3 * (classes + 9) + 1) * (classes + 12) ≤
      (w.scanner.classNames.length + 1) * (3 * (classes + 9) + 1) * (classes + 12) :=
    Nat.mul_le_mul_right _ (Nat.mul_le_mul_right _ hregistered)
  have hsplit : (s.unregistered w + 1) * (3 * (classes + 9) + 1) * (classes + 12) =
      (s.unregistered w * (3 * (classes + 9) + 1) + 3 * (classes + 9)) * (classes + 12) +
        (classes + 12) := by
    have hone : (s.unregistered w + 1) * (3 * (classes + 9) + 1) =
        s.unregistered w * (3 * (classes + 9) + 1) + 3 * (classes + 9) + 1 := by
      rw [Nat.add_mul]
      omega
    rw [hone, Nat.add_mul _ 1, Nat.one_mul]
  right
  show (s.unregistered w * (3 * (classes + 9) + 1) + 3 * (classes + 9)) * (classes + 12) +
    (classes + 9 + 1) + 2 ≤ b
  omega

/-- Nothing is being processed, and nothing waits. -/
structure Rests (s : Run) : Prop where
  depth : s.depth = 0
  queue : s.queue = some []

section

variable {w : World} {s t : Run} {e : Failure}

/-- A seed is left with no more to do than the classes themselves. -/
theorem confines_of_seed (hscanner : w.scanner.Registers) (hw : w.IsDirect w.resolver.infos)
    {v : View} (hv : w.IsDirect [v.info]) :
    w.Confines (.over (v.info :: w.resolver.infos)) (classNames (v.info :: w.resolver.infos))
      (w.resolver.infos.length + 1) :=
  (hv.cons hw).confines hscanner (List.subset_cons_self _ _)

theorem parseDefinition_spares (hscanner : w.scanner.Registers)
    (hw : w.IsDirect w.resolver.infos) {d : Definition LoadedType} {beanName : String}
    (hview : ∀ v, w.resolver.ofDefinition d beanName = .ok v → w.IsDirect [v.info])
    (hdepth : w.depthBound ≤ w.maxDepth) (hs : s.depth = 0)
    (h : Step.parseDefinition w (stepsOf w) d beanName s = .error e t) :
    e.IsSpared (3 * w.depthBound ≤ w.fuel) := by
  obtain ⟨h, _⟩ | ⟨v, hv, h⟩ := ofExcept_bind_eq_error.1 h
  · exact .of_isPlain (w.resolver.tame_ofDefinition _ _ _ h)
  · have hconfines := confines_of_seed hscanner hw (hview v hv)
    obtain ⟨b, hb⟩ : ∃ b, w.depthBound = b + 1 := ⟨_, rfl⟩
    have hspared := (spares_steps hconfines w.fuel).enter (.inl List.mem_cons_self)
      (ConfigClass.isNew_explicit v _) (canEnter_of_depthBound hb) (by omega) h
    exact hspared.mono fun hfuel => by omega

/-- A seed that succeeds leaves nothing waiting. -/
theorem parseSeed_rests (hscanner : w.scanner.Registers) (hw : w.IsDirect w.resolver.infos)
    {seed : NamedDefinition}
    (hseed : ∀ v, w.resolver.ofDefinition seed.definition seed.beanName = .ok v →
      w.IsDirect [v.info])
    (h : parseSeed w seed s = .ok () t) (hs : s.Rests) : t.Rests := by
  have hdefinition := parseSeed_eq_ok h
  obtain ⟨v, hv, _⟩ := ofExcept_bind_eq_ok.1 hdefinition
  have hconfines := confines_of_seed hscanner hw (hseed v hv)
  have hmoves : Moves w (.over (v.info :: w.resolver.infos)) .entries
      ⟨.explicit .object none, s⟩ ⟨.explicit .object none, t⟩ := by
    refine Step.parseDefinition_moves (sound_steps hconfines.admits _) ?_ hdefinition
    intro u hu
    obtain rfl := Except.ok.inj (hv.symm.trans hu)
    exact .inl List.mem_cons_self
  have hqueue := hmoves.queue.resolve_right fun h => hconfines.selects h.1
  exact ⟨hmoves.continues.depth.trans hs.depth, hqueue.trans hs.queue⟩

theorem parseSeed_spares (hscanner : w.scanner.Registers) (hw : w.IsDirect w.resolver.infos)
    {seed : NamedDefinition}
    (hseed : ∀ v, w.resolver.ofDefinition seed.definition seed.beanName = .ok v →
      w.IsDirect [v.info])
    (hdepth : w.depthBound ≤ w.maxDepth) (hs : s.Rests)
    (h : parseSeed w seed s = .error e t) : e.IsSpared (3 * w.depthBound ≤ w.fuel) := by
  cases hname : seed.definition.className with
  | none =>
    rw [parseSeed, hname] at h
    obtain ⟨rfl, _⟩ := throw_eq_error.1 h
    exact .of_isNesting rfl
  | some name =>
    rw [parseSeed, hname] at h
    obtain ⟨cause, hcause, rfl⟩ := onFailure_eq_error.1 h
    exact (parseDefinition_spares hscanner hw hseed hdepth hs.depth hcause).within _ _

theorem resolveDeferred_of_rests (hs : s.Rests) : ∃ t, resolveDeferred w s = .ok () t := by
  obtain ⟨_, hqueue⟩ := hs
  exact ⟨s, resolveDeferred_of_empty hqueue⟩

/-- In a world without import selectors and conditions, whose scanner registers what it finds, no
call fails for its depth once the limit is as large as the bound, however its classes refer to each
other and however many seeds there are.  With room for three steps a level it does not run out
of steps either. -/
theorem parse_spares (hscanner : w.scanner.Registers) (hw : w.IsDirect w.resolver.infos)
    {seeds : List NamedDefinition}
    (hseeds : ∀ seed ∈ seeds, ∀ v,
      w.resolver.ofDefinition seed.definition seed.beanName = .ok v → w.IsDirect [v.info])
    (hdepth : w.depthBound ≤ w.maxDepth) (hs : s.Rests) (h : parse w seeds s = .error e t) :
    e.isTooDeep = false ∧ (3 * w.depthBound ≤ w.fuel → e.isExhausted = false) := by
  have hstep : ∀ seed ∈ seeds, ∀ {s t : Run}, parseSeed w seed s = .ok () t →
      s.Rests → t.Rests := fun seed hseed _ _ h => parseSeed_rests hscanner hw (hseeds seed hseed) h
  obtain h | ⟨_, u, hu, h⟩ := bind_eq_error.1 h
  · obtain ⟨seed, hseed, u, hu, hfail⟩ := forM_eq_error (R := fun s t : Run => s.Rests → t.Rests)
      (fun _ => id) (fun hst htu hs => htu (hst hs)) hstep h
    exact parseSeed_spares hscanner hw (hseeds seed hseed) hdepth (hu hs) hfail
  · have hrests : u.Rests := forM_induction (R := fun s t : Run => s.Rests → t.Rests)
      (fun _ => id) (fun hst htu hs => htu (hst hs)) hstep hu hs
    obtain ⟨v, hv⟩ := resolveDeferred_of_rests (w := w) hrests
    rw [hv] at h
    cases h

end

end Run

/-! ## A circle of imports, superclasses and scans -/

/-- A class imports its subclass, whose superclass is scanned for a class that imports the first
one again.  The world goes as deep as the bound allows, and ends at the first problem. -/
def tangle : World where
  resolver := { reader := { index := ⟨[
    { name := "app.A", tags := [.mk WellKnown.component [], .importing ["app.B"]],
      memberClasses := ["app.A$C"] },
    { name := "app.A$C", tags := [.mk WellKnown.component [], .importing ["app.B"]] },
    { name := "app.B", superClass := some "app.A", tags := [.scanning ["lib"]] },
    { name := "lib.D", tags := [.mk WellKnown.component [], .importing ["app.A"]] }]⟩ } }
  scanner := .reading ["lib.D"] true
  isFailFast := true
  maxDepth := depthBound 4 1
  fuel := 3 * depthBound 4 1

set_option maxRecDepth 100000 in
/-- The tangle fails, for a circular import and not for its depth. -/
theorem parse_spares_tangle :
    ∃ e t, Run.parse tangle (seedsOf ["app.A", "app.A"]) (Run.fresh {} {}) = .error e t ∧
      e.isTooDeep = false ∧ e.isExhausted = false := by
  have hdirect : tangle.resolver.infos.all tangle.resolver.looksDirect = true := by
    decide +kernel
  have hfails : succeedsWith (fun _ => true)
      (Run.parse tangle (seedsOf ["app.A", "app.A"]) (Run.fresh {} {})) = false := by
    decide +kernel
  have hw := World.isDirect_of_looksDirect (Resolver.coherent_of_no_types rfl) hdirect
  have hseeds : ∀ seed ∈ seedsOf ["app.A", "app.A"], ∀ v,
      tangle.resolver.ofDefinition seed.definition seed.beanName = .ok v →
        tangle.IsDirect [v.info] := by
    intro seed hseed v hv
    obtain ⟨name, _, rfl⟩ := List.mem_map.1 hseed
    exact hw.of_knows (Resolver.knows_ofName hv)
  obtain ⟨e, t, hparse⟩ := exists_of_not_succeedsWith hfails
  have hspared := Run.parse_spares (.inr ⟨_, rfl⟩) hw hseeds (Nat.le_refl _) ⟨rfl, rfl⟩ hparse
  exact ⟨e, t, hparse, hspared.1, hspared.2 (Nat.le_refl _)⟩

end Wiring
