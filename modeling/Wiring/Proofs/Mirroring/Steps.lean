import Wiring.Proofs.Mirroring

/-!
# Mirrored steps

One lemma for each step that collects on a record, over the steps one level deeper.  What entering
a class comes to depends on what the second run is for, and is not settled here.
-/

namespace Wiring

/-- The steps that lead into others are mirrored, while a record of the mirror is collected. -/
structure Steps.Mirrored (deeper : Steps) (M : Mirror) (w : World) (cs : List ClassInfo) :
    Prop where
  enter : ∀ {v : View} {f : NameFilter} {record current : ConfigClass} {s : Run},
    record.name = M.name → v.IsAmong cs →
    M.Mirrored (Collecting.mk current) (Step.enterImported deeper f record v) s
  climb : ∀ {v : View} {f : NameFilter} {s : Collecting}, v.IsAmong cs → M.Apart s →
    M.Mirrored id (deeper.climb v f) s
  imports : ∀ {current : View} {us : List View} {f : NameFilter} {checksCycles : Bool}
    {s : Collecting}, (∀ u ∈ us, w.resolver.Offers cs u) → (checksCycles = true → M.Apart s) →
    M.Mirrored id (deeper.imports current us f checksCycles) s

namespace Step

open Mirror

variable {w : World} {cs : List ClassInfo} {M : Mirror} {deeper : Steps}

theorem emit_mirrored {e : Event} {record : ConfigClass} {s : Run} :
    M.Mirrored (Collecting.mk record) (RunM.emit e) s :=
  .idle (fun _ => rfl) fun _ => by constructor <;> rfl

theorem report_mirrored {problem : Problem} {record : ConfigClass} {s : Run} :
    M.Mirrored (Collecting.mk record) (RunM.report w problem) s := by
  refine .andThen (.idle (fun _ => rfl) fun _ => by constructor <;> rfl) fun _ t _ => ?_
  split
  · exact .throw
  · exact .pure trivial

theorem reportCircular_mirrored {c : ClassInfo} {record : ConfigClass} {s : Run} :
    M.Mirrored (Collecting.mk record) (RunM.reportCircular w c) s := by
  refine .read (fun s' _ hrel => ?_) report_mirrored
  have hstack : s'.stack = s.stack := hrel.stack
  rw [hstack]

/-! ## Member classes -/

theorem enterMember_mirrored (hd : deeper.Mirrored M w cs) {f : NameFilter}
    {record current : ConfigClass} {m : View} {s : Run} (hrecord : record.name = M.name)
    (hm : m.IsAmong cs) :
    M.Mirrored (Collecting.mk current) (enterMember w deeper f record m) s := by
  refine .read (fun s' _ hrel => ?_) ?_
  · have hstack : s'.stack = s.stack := hrel.stack
    rw [hstack]
  split
  · exact reportCircular_mirrored
  · exact .stacked (c := record.info) hrecord (fun _ => rfl) (fun _ => rfl) (hd.enter hrecord hm)

theorem enterMembers_mirrored (hd : deeper.Mirrored M w cs) (hw : w.IsPrompt cs M.environment)
    {v : View} {f : NameFilter} {s : Collecting} (hname : s.record.name = M.name) :
    M.Mirrored id (enterMembers w deeper v f) s := by
  refine .record ?_
  split
  · refine .forM fun m hm t _ => .lift (enterMember_mirrored hd hname ?_)
    obtain ⟨hmember, _, _⟩ := mem_memberCandidates.1 hm
    obtain ⟨_, _, hrelated⟩ := Resolver.related_of_mem_members hmember
    exact hw.isAmong_of_related hrelated
  · exact .pure trivial

/-! ## Sources -/

/-- No property source is added, as the environment is read-only or no class declares one. -/
theorem addDeclaredSources_mirrored (hw : w.IsPrompt cs M.environment) {v : View}
    (hv : v.IsAmong cs) {record : ConfigClass} {s : Run} :
    M.Mirrored (Collecting.mk record) (RunM.addDeclaredSources w v.info) s := by
  refine .forM fun tag htag t _ ht => ?_
  have hfixed : M.environment.isReadOnly = true := by
    rcases hw.noSources with hfixed | hnone
    · exact hfixed
    · rcases hv with hbare | hv
      · rw [Resolver.repeatable_of_untagged (by rw [hbare])] at htag
        cases htag
      · rw [hnone _ hv] at htag
        cases htag
  have henv : t.environment = M.environment := ht.steady.environment
  refine Mirrors.read (fun t' _ hrel => ?_) ?_ ht
  · have hsame : t'.environment = M.environment := hrel.steady.environment
    rw [hsame, henv]
  · rw [henv, hfixed]
    exact .pure trivial

/-- Nothing is scanned for. -/
theorem enterAllScanned_mirrored (hw : w.IsPrompt cs M.environment) {v : View}
    (hv : v.IsAmong cs) {record : ConfigClass} {s : Run} :
    M.Mirrored (Collecting.mk record) (enterAllScanned w deeper v.info) s := by
  have hnone : w.resolver.repeatable v.info WellKnown.componentScan
      WellKnown.componentScans = [] := by
    rcases hv with hbare | hv
    · exact Resolver.repeatable_of_untagged (by rw [hbare]) _ _
    · exact hw.noScans _ hv
  rw [enterAllScanned, hnone]
  exact .pure trivial

theorem followImports_mirrored (hd : deeper.Mirrored M w cs) (hw : w.IsPrompt cs M.environment)
    {v : View} {f : NameFilter} {s : Collecting} (hapart : M.Apart s) :
    M.Mirrored id (followImports w deeper v f) s := by
  refine .ofExcept_bind fun us hus => hd.imports (fun u hu => ?_) fun _ => hapart
  obtain ⟨_, _, hrelated⟩ := Resolver.related_of_mem_imports hus u hu
  exact hw.offers_of_related hrelated

theorem addResources_mirrored {c : ClassInfo} {s : Collecting} :
    M.Mirrored id (addResources w c) s := by
  unfold addResources
  split
  · refine .forM fun location _ t _ ht => ?_
    have henv : t.run.environment = M.environment := ht.steady.environment
    refine Mirrors.read (fun t' _ hrel => ?_) ?_ ht
    · have hsame : t'.run.environment = M.environment := hrel.steady.environment
      rw [hsame, henv]
    · exact .ofExcept_bind fun resolved _ => .gather rfl rfl
  · exact .pure trivial

theorem collectMethods_mirrored {v : View} {s : Collecting} :
    M.Mirrored id (collectMethods w v) s := by
  refine .record (.ofExcept_bind fun gained hgained => ?_)
  obtain ⟨ms, _, rfl⟩ := Resolver.addAllMethods_eq_ok.1 hgained
  rw [ConfigClass.addMethods_eq]
  exact .gather rfl rfl

theorem takeSuperclass_mirrored (hw : w.IsPrompt cs M.environment) {v : View} {s : Collecting} :
    M.Mirrors id (takeSuperclass w v) s fun next => ∀ u, next = some u → u.IsAmong cs := by
  unfold takeSuperclass
  split
  · exact .pure (by simp)
  rename_i name hname
  cases hclaimed : w.resolver.isPlatform name || s.run.superclassOwners.contains name with
  | true =>
    refine .read (fun s' hahead hrel => ?_) ?_
    · have hclaimed' : (w.resolver.isPlatform name || s'.run.superclassOwners.contains name) =
          true := by
        rw [Bool.or_eq_true] at hclaimed ⊢
        exact hclaimed.imp_right (M.links_claimed hrel.links hahead)
      rw [hclaimed, hclaimed']
    · rw [hclaimed]
      exact .pure (by simp)
  | false =>
    intro hs next t h
    replace h := get_bind_eq.1 h
    rw [hclaimed] at h
    replace h := record_bind_eq.1 h
    replace h := modify_bind_eq.1 h
    obtain ⟨hnext, rfl⟩ := ofExcept_eq_ok.1 h
    obtain ⟨hplatform, hfree⟩ := Bool.or_eq_false_iff.1 hclaimed
    refine ⟨⟨hs.name, hs.steady.claiming _ _, hs.stacked, hs.isOpen⟩, .claiming s hfree, ?_, ?_⟩
    · rintro u rfl
      obtain ⟨_, hrelated⟩ := Resolver.related_of_superClass hnext
      exact hw.isAmong_of_related hrelated
    · intro hahead s' hrel
      have hname' : s.record.name = M.name := hs.name
      have hrecord : s'.record = s.record := hrel.record
      have hahead' : M.Ahead (s.run.claiming name M.name) := hname' ▸ hahead
      obtain ⟨hfree', hlinks⟩ := M.links_claiming hrel.links hahead' hfree
      replace hfree' : s'.run.superclassOwners.contains name = false := hfree'
      refine ⟨{ s' with run := s'.run.claiming name s'.record.name }, get_bind_eq.2 ?_, ?_⟩
      · rw [hplatform, hfree']
        exact record_bind_eq.2 (modify_bind_eq.2 (ofExcept_eq_ok.2 ⟨hnext, rfl⟩))
      · refine ⟨hrecord, ?_, hrel.stack, hrel.depth, hrel.steady.claiming _ _⟩
        show M.Links (s.run.claiming name s.record.name) (s'.run.claiming name s'.record.name)
        rw [hrecord, hname']
        exact hlinks

/-- What is left to collect of a source is mirrored, from its member classes on. -/
theorem processSource_mirrored (hd : deeper.Mirrored M w cs) (hw : w.IsPrompt cs M.environment)
    {v : View} {f : NameFilter} {s : Collecting} (hname : s.record.name = M.name)
    (hv : v.IsAmong cs) (hapart : M.Apart s) :
    M.Mirrors id (processSource w deeper v f) s fun next => ∀ u, next = some u → u.IsAmong cs := by
  refine .andThen (enterMembers_mirrored hd hw hname) fun _ s₁ h₁ => ?_
  refine .andThen (.lift (addDeclaredSources_mirrored hw hv)) fun _ s₂ h₂ => ?_
  refine .andThen (.lift (enterAllScanned_mirrored hw hv)) fun _ s₃ h₃ => ?_
  have hapart₃ : M.Apart s₃ := hapart.advance ((h₁.trans h₂).trans h₃)
  refine .andThen (followImports_mirrored hd hw hapart₃) fun _ s₄ _ => ?_
  refine .andThen addResources_mirrored fun _ s₅ _ => ?_
  exact .andThen collectMethods_mirrored fun _ s₆ _ => takeSuperclass_mirrored hw

theorem climb_mirrored (hd : deeper.Mirrored M w cs) (hw : w.IsPrompt cs M.environment)
    {v : View} {f : NameFilter} {s : Collecting} (hv : v.IsAmong cs) (hapart : M.Apart s) :
    M.Mirrored id (climb w deeper v f) s := by
  intro hs
  have hsource := processSource_mirrored hd hw (f := f) hs.name hv hapart
  refine Mirrors.bind hsource (fun next t ht hnext => ?_) hs
  cases next with
  | none => exact .pure trivial
  | some next => exact hd.climb (hnext next rfl) (hapart.advance ht)

/-! ## Candidates -/

/-- What a maker has made in the same surroundings is the same, and no deferred selector. -/
theorem produce_mirrored (hw : w.IsPrompt cs M.environment) {t : LoadedType}
    (ht : t ∈ w.resolver.types.types) {record : ConfigClass} {s : Run} :
    M.Mirrors (Collecting.mk record) (RunM.produce w t) s fun strategy =>
      ∀ d, strategy ≠ .deferredSelector d := by
  intro hs strategy u h
  obtain ⟨maker, hmaker, rfl, hmade⟩ := produce_eq_ok_iff.1 h
  have henv : s.environment = M.environment := hs.steady.environment
  have hkept := hw.noEffects t ht maker hmaker
  have hidle : s.Idles { s with
      events := s.events ++ [.created t.name]
      environment := s.environment.modifySources maker.effect } := by
    refine ⟨?_, rfl, rfl, rfl, rfl, rfl, rfl, rfl⟩
    show s.environment.modifySources maker.effect = s.environment
    rw [henv, hkept]
  refine ⟨hs.of_eq rfl hidle, .of_idles rfl rfl hidle, ?_, fun _ s' hrel => ?_⟩
  · rintro d rfl
    exact hw.noDeferral t ht maker hmaker _ d hmade
  · have henv' : s'.environment = M.environment := hrel.steady.environment
    have hregistry : s'.registry = s.registry :=
      hrel.steady.registry.trans (show s.registry = M.registry from hs.steady.registry).symm
    refine ⟨_, produce_eq_ok_iff.2 ⟨maker, hmaker, rfl, ?_⟩, ?_⟩
    · rw [RunM.surroundings] at hmade ⊢
      rw [henv', hregistry, ← henv]
      exact hmade
    · refine ⟨hrel.record, M.links_of_eq hrel.links rfl rfl rfl rfl, hrel.stack, hrel.depth, ?_⟩
      refine hrel.steady.of_eq ?_ rfl rfl rfl rfl
      show s'.environment.modifySources maker.effect = s'.environment
      rw [henv', hkept]

theorem produceRegistrar_mirrored (hw : w.IsPrompt cs M.environment) {t : LoadedType}
    (ht : t ∈ w.resolver.types.types) {record : ConfigClass} {s : Run} :
    M.Mirrored (Collecting.mk record) (RunM.produceRegistrar w t) s := by
  refine .bind (produce_mirrored hw ht) fun strategy t _ _ => ?_
  cases strategy with
  | registrar r => exact .pure trivial
  | _ => exact .throw

theorem importSelected_mirrored (hd : deeper.Mirrored M w cs) (hw : w.IsPrompt cs M.environment)
    {current : View} {f : NameFilter} {typeName : String} {selector : Selector} {s : Collecting} :
    M.Mirrored id (importSelected w deeper current f typeName selector) s := by
  refine .andThen (.lift emit_mirrored) fun _ t _ => .ofExcept_bind fun chosen hchosen => ?_
  refine .nested (hd.imports (fun u hu => ?_) (by simp))
  obtain ⟨_, _, hname⟩ := exists_of_mem_mapM_eq_ok hchosen u hu
  exact hw.offers_of_ofName hname

theorem importSelector_mirrored (hd : deeper.Mirrored M w cs) (hw : w.IsPrompt cs M.environment)
    {current v : View} {f : NameFilter} {s : Collecting} (hv : w.resolver.Offers cs v) :
    M.Mirrored id (importSelector w deeper current f v) s := by
  refine .ofExcept_bind fun t ht => .bind (.lift (produce_mirrored hw (hv.2 t ht))) ?_
  intro strategy u _ hprompt
  cases strategy with
  | selector selector =>
    exact .andThen (importSelected_mirrored hd hw) fun _ _ _ => .pure trivial
  | deferredSelector d => exact absurd rfl (hprompt d)
  | _ => exact .lift .throw

theorem importRegistrar_mirrored (hw : w.IsPrompt cs M.environment) {current v : View}
    {s : Collecting} (hv : w.resolver.Offers cs v) :
    M.Mirrored id (importRegistrar w current v) s := by
  refine .ofExcept_bind fun t ht => .andThen (.lift (produceRegistrar_mirrored hw (hv.2 t ht))) ?_
  exact fun registrar _ _ => .gather rfl rfl

theorem importClass_mirrored (hd : deeper.Mirrored M w cs) {current v : View} {f : NameFilter}
    {s : Collecting} (hv : v.IsAmong cs) : M.Mirrored id (importClass deeper current f v) s := by
  refine .andThen (.idle (fun _ => rfl) fun _ => by constructor <;> rfl) fun _ t _ ht => ?_
  exact Mirrors.record (.lift (hd.enter ht.name hv)) ht

theorem importEach_mirrored (hd : deeper.Mirrored M w cs) (hw : w.IsPrompt cs M.environment)
    {current : View} {f : NameFilter} {us : List View} {s : Collecting}
    (hus : ∀ u ∈ us, w.resolver.Offers cs u) :
    M.Mirrored id (importEach w deeper current f us) s := by
  induction us generalizing f s with
  | nil => exact .pure trivial
  | cons v vs ih =>
    have hv := hus v List.mem_cons_self
    have hvs : ∀ u ∈ vs, w.resolver.Offers cs u := fun u hu => hus u (List.mem_cons_of_mem _ hu)
    rw [importEach]
    split
    · exact .andThen (importSelector_mirrored hd hw hv) fun _ _ _ => ih hvs
    · split
      · exact .andThen (importRegistrar_mirrored hw hv) fun _ _ _ => ih hvs
      · split
        · exact .andThen (importClass_mirrored hd hv.1) fun _ _ _ => ih hvs
        · exact ih hvs

/-- Imports of a record whose class is apart are not circular, whoever imported whom before. -/
theorem imports_mirrored (hd : deeper.Mirrored M w cs) (hw : w.IsPrompt cs M.environment)
    {current : View} {us : List View} {f : NameFilter} {checksCycles : Bool} {s : Collecting}
    (hus : ∀ u ∈ us, w.resolver.Offers cs u) (hapart : checksCycles = true → M.Apart s) :
    M.Mirrored id (imports w deeper current us f checksCycles) s := by
  intro hs
  rw [imports]
  split
  · exact Mirrors.pure trivial hs
  · refine Mirrors.record (.read (fun s' hahead hrel => ?_) ?_) hs
    · have hstack : s'.run.stack = s.run.stack := hrel.stack
      have hsame : (checksCycles &&
          ImportStack.isCircular s'.run.stack s'.run.importers s.record.name) =
          (checksCycles && ImportStack.isCircular s.run.stack s.run.importers s.record.name) := by
        cases checksCycles with
        | false => rfl
        | true =>
          have hholds : ImportStack.holds s.run.stack s.record.name = false := by
            rw [show s.record.name = M.name from hs.name]
            exact hapart rfl hahead
          rw [ImportStack.isCircular, ImportStack.isCircular, hstack, hholds]
          rfl
      dsimp only
      rw [hsame]
    · dsimp only
      split
      · exact .lift reportCircular_mirrored
      · rw [onFailure_ensuring]
        exact .stacked (c := s.record.info) hs.name (fun _ => rfl) (fun _ => rfl)
          (.onFailure (importEach_mirrored hd hw hus))

end Step
end Wiring
