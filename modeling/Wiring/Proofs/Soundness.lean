import Wiring.Proofs.Resolving
import Wiring.Proofs.Steps

/-!
# Successful steps are moves

One lemma for each step, over the steps one level deeper, and from them an induction over how
deep the steps go.
-/

namespace Wiring

/-- What is in the scope leads only to what is in the scope. -/
structure World.Admits (w : World) (K : Scope) : Prop where
  own : ∀ {v : View} {f : NameFilter}, K.Enters v → (¬ K.Selects w → f = w.resolver.filter) →
    K.Reads v.info (v.filtered f)
  superClass : ∀ {c : ClassInfo} {v u : View} {name : String}, K.Reads c v →
    v.info.superClass = some name → w.resolver.isPlatform name = false →
    w.resolver.superClass v = .ok (some u) → K.Reads c u
  imports : ∀ {c : ClassInfo} {v : View} {us : List View}, K.Reads c v →
    w.resolver.imports v = .ok us → ∀ u ∈ us, w.resolver.IsPlain u → K.Enters u
  members : ∀ {c : ClassInfo} {v : View}, K.Reads c v →
    w.resolver.isTagged c WellKnown.component = true →
    ∀ m ∈ Step.memberCandidates w.resolver v c.name, K.Enters m
  /-- What a selector may choose. -/
  chosen : ∀ {u : View} {name : String} {f : NameFilter}, K.Selects w →
    w.resolver.ofName name f = .ok u → K.Enters u
  /-- What a scan on a source may find. -/
  scanned : ∀ {c : ClassInfo} {v u : View} {request : ScanRequest} {registry registry' : Registry}
    {found : List NamedDefinition} {d : NamedDefinition}, K.Reads c v →
    w.resolver.repeatable v.info WellKnown.componentScan WellKnown.componentScans ≠ [] →
    w.scanner.scan request w.resolver.reader registry = (.ok found, registry') → d ∈ found →
    w.resolver.ofDefinition (Step.scannedDefinition d) d.beanName = .ok u → K.Enters u

/-- The steps one level deeper are moves. -/
structure Steps.Sound (w : World) (K : Scope) (steps : Steps) : Prop where
  enter : ∀ {p : Part} {c : ConfigClass} {f : NameFilter} (record : ConfigClass) {s t : Run},
    K.Enters c.view → (¬ K.Selects w → f = w.resolver.filter) → c.IsNew →
    c.IsDue p ⟨record, s⟩ → steps.enter c f s = .ok () t →
    Moves w K p ⟨record, s⟩ ⟨record, t⟩ ∧ (w.NeverSkips c.info → t.Committed c.name ∧
      (s.Keyed → ∀ importer ∈ c.importedBy.keys, t.Notes c.name importer))
  climb : ∀ {v : View} {f : NameFilter} {s t : Collecting},
    K.Reads s.record.info v → (¬ K.Scans w → s.run.Grants s.record.name v) →
    (¬ K.Selects w → f = w.resolver.filter) →
    s.run.HasOpened s.record.name → steps.climb v f s = .ok () t →
    Moves w K .source s t ∧ v ∈ t.record.sources
  imports : ∀ {p : Part} {current : View} {us : List View} {f : NameFilter} {checksCycles : Bool}
    {s t : Collecting}, p ≠ .entries → (∀ u ∈ us, w.resolver.IsPlain u → K.Enters u) →
    (∀ u ∈ us, K.Imports w s.record.info current.info u) →
    (¬ K.Selects w → f = w.resolver.filter) →
    steps.imports current us f checksCycles s = .ok () t →
    Moves w K p s t ∧
      ((∀ u ∈ us, w.resolver.IsPlain u → w.NeverSkips u.info → t.run.Committed u.name) ∨
        ImportStack.holds t.run.stack t.record.name = true ∧
          t.run.HasReported t.record.name)

namespace Run

theorem grants_filtered (s : Run) (c : ConfigClass) (f : NameFilter) :
    s.Grants c.name (c.view.filtered f) := by
  rw [View.filtered]
  split
  · exact .inl rfl
  · exact .inr (.inl rfl)

theorem grants_claimed (s : Run) {r : Resolver} {v next : View} {name owner : String}
    (hname : v.info.superClass = some name) (hnext : r.superClass v = .ok (some next)) :
    Grants { s with superclassOwners := s.superclassOwners.insert name owner } owner next := by
  cases hexcluded : r.filter.excludes name with
  | true => exact .inl (Resolver.superClass_of_excludes hname hexcluded hnext)
  | false =>
    rw [Grants, Resolver.name_superClass hname hexcluded hnext]
    exact .inr (.inr (OrderedMap.get?_insert_self _ _ _))

end Run

namespace Step

variable {w : World} {K : Scope} {deeper : Steps}

theorem enter_moves (hd : deeper.Sound w K) (hK : w.Admits K) {p : Part} {c : ConfigClass}
    {f : NameFilter} {record : ConfigClass} {s t : Run} (hview : K.Enters c.view)
    (hf : ¬ K.Selects w → f = w.resolver.filter) (hnew : c.IsNew)
    (hdue : c.IsDue p ⟨record, s⟩) (h : enter w deeper c f s = .ok () t) :
    Moves w K p ⟨record, s⟩ ⟨record, t⟩ ∧ (w.NeverSkips c.info → t.Committed c.name ∧
      (s.Keyed → ∀ importer ∈ c.importedBy.keys, t.Notes c.name importer)) := by
  obtain hskip | ⟨s₁, hskip, h⟩ := enter_eq_ok h
  · refine ⟨.aside ((quiet_skips w _ _).ok hskip), fun hc => ?_⟩
    cases skips_eq_false hc hskip
  have hcourse : s.SameCourse s₁ := (quiet_skips w _ _).ok hskip
  have hside : Moves w K p ⟨record, s⟩ ⟨record, s₁⟩ := .aside hcourse
  replace hdue : c.IsDue p ⟨record, s₁⟩ := hdue.sameCourse hcourse
  obtain ⟨s₂, record', s₃, hroom, hprocess, rfl⟩ | ⟨himp, present, hpresent, hmerge⟩ := h
  · obtain ⟨hdepth, u, hclimb, rfl⟩ := process_eq_ok hprocess
    have hopen : (s₂.opening c).HasOpened c.name := ⟨c.isImported, List.mem_cons_self⟩
    obtain ⟨hinner, hsource⟩ := hd.climb (s := ⟨c, s₂.opening c⟩) (hK.own hview hf)
      (fun _ => Run.grants_filtered _ c f) hf hopen hclimb
    have hname : record'.name = c.name := hinner.continues.name
    refine ⟨hside.trans (.visit hview hf hnew hdue hroom hinner hsource), fun _ => ⟨?_, ?_⟩⟩
    · exact Run.committed_commit.2 (.inl hname.symm)
    · intro _ importer himporter
      refine ⟨record', hname ▸ OrderedMap.get?_insert_self _ _ _, fun _ => ?_⟩
      rw [show record'.importedBy = c.importedBy from hinner.continues.importedBy]
      exact himporter
  · have hpart := hdue.isImported_iff.1 himp
    obtain ⟨hp, rfl⟩ | ⟨hp, rfl⟩ := hmerge
    · refine ⟨hside.trans (.merge hpresent hp hpart hdue), fun _ => ⟨?_, ?_⟩⟩
      · exact Run.committed_commit.2 (.inr (Run.committed_of_get? hpresent))
      · intro hkeyed importer himporter
        exact Run.notes_merge (hkeyed.sameCourse hcourse) hpresent himporter
    · refine ⟨hside, fun _ => ⟨Run.committed_of_get? hpresent, fun _ importer _ => ?_⟩⟩
      exact ⟨present, hpresent, fun h => by cases hp.symm.trans h⟩

/-- A class that is entered as imported is imported on behalf of the record. -/
theorem enterImported_moves (hd : deeper.Sound w K) {p : Part} (hp : p ≠ .entries)
    {f : NameFilter} (hf : ¬ K.Selects w → f = w.resolver.filter) {record : ConfigClass} {v : View}
    {s t : Run} (hv : K.Enters v) (h : enterImported deeper f record v s = .ok () t) :
    Moves w K p ⟨record, s⟩ ⟨record, t⟩ ∧ (w.NeverSkips v.info → t.Committed v.name) := by
  replace h := modify_bind_eq.1 h
  have hdue : (ConfigClass.imported v record).IsDue p ⟨record, s.importing v.name record.name⟩ :=
    .inr ⟨hp, rfl, rfl⟩
  obtain ⟨hmoves, hall⟩ := hd.enter record hv hf (ConfigClass.isNew_imported v record) hdue h
  refine ⟨.imported (s := ⟨record, s⟩) hv hmoves fun hskips hkeyed => ?_, fun hskips => ?_⟩
  · exact (hall hskips).2 hkeyed record.name List.mem_cons_self
  · exact (hall hskips).1

/-! ## Member classes -/

theorem enterMember_moves (hd : deeper.Sound w K) {p : Part} (hp : p ≠ .entries) {f : NameFilter}
    (hf : ¬ K.Selects w → f = w.resolver.filter) {record : ConfigClass} {m : View} {s t : Run}
    (hm : K.Enters m) (hmembers : K.HasMembers w record.info)
    (h : enterMember w deeper f record m s = .ok () t) :
    Moves w K p ⟨record, s⟩ ⟨record, t⟩ ∧
      (w.NeverSkips m.info →
        t.Committed m.name ∨ ImportStack.holds t.stack record.name = true) := by
  rw [enterMember] at h
  replace h := get_bind_eq.1 h
  split at h
  · rename_i hholds
    obtain ⟨problem, hkind, _, rfl⟩ := reportCircular_eq_ok h
    exact ⟨.report (s := ⟨record, s⟩) problem hkind (.inr hmembers), fun _ => .inr hholds⟩
  · replace h := modify_bind_eq.1 h
    obtain ⟨u, hu, rfl⟩ := ensuring_eq_ok.1 h
    obtain ⟨hmoves, hcommitted⟩ := enterImported_moves (p := .candidates) hd (by simp) hf hm hu
    exact ⟨.stacked (s := ⟨record, s⟩) (t := ⟨record, u⟩) hp hmoves,
      fun hskips => .inl (hcommitted hskips)⟩

theorem enterMembers_moves (hd : deeper.Sound w K) (hK : w.Admits K) {v : View}
    {f : NameFilter} (hf : ¬ K.Selects w → f = w.resolver.filter) {s t : Collecting}
    (hv : K.Reads s.record.info v)
    (h : enterMembers w deeper v f s = .ok () t) :
    Moves w K .source s t ∧ (w.resolver.isTagged s.record.info WellKnown.component = true →
      ∀ m ∈ memberCandidates w.resolver v s.record.name, w.NeverSkips m.info →
        t.run.Committed m.name ∨ ImportStack.holds t.run.stack s.record.name = true) := by
  obtain ⟨record, run⟩ := s
  replace h := record_bind_eq.1 h
  split at h
  · rename_i htag
    have hms : ∀ m ∈ memberCandidates w.resolver v record.name,
        K.Enters m ∧ K.HasMembers w record.info :=
      fun m hm => ⟨hK.members hv htag m hm, v, m, hv, hm⟩
    have loop : ∀ (ms : List View) (s : Run),
        (∀ m ∈ ms, K.Enters m ∧ K.HasMembers w record.info) →
        ms.forM (fun m => (liftM (enterMember w deeper f record m) : RecordM Unit)) ⟨record, s⟩ =
          .ok () t →
        Moves w K .source ⟨record, s⟩ t ∧ ∀ m ∈ ms, w.NeverSkips m.info →
          t.run.Committed m.name ∨ ImportStack.holds t.run.stack record.name = true := by
      intro ms
      induction ms with
      | nil =>
        intro s _ h
        obtain ⟨_, rfl⟩ := pure_eq_ok.1 h
        exact ⟨.refl _, by simp⟩
      | cons m ms ih =>
        intro s hms h
        obtain ⟨_, _, hm, h⟩ := bind_eq_ok.1 h
        obtain ⟨u, hu, rfl⟩ := toRecordM_eq_ok.1 hm
        obtain ⟨henters, hmembers⟩ := hms m List.mem_cons_self
        obtain ⟨hfirst, hm⟩ := enterMember_moves (p := .source) hd (by simp) hf henters hmembers hu
        obtain ⟨hrest, hall⟩ := ih u (fun m hm => hms m (List.mem_cons_of_mem _ hm)) h
        refine ⟨hfirst.trans hrest, fun m' hm' hskips => ?_⟩
        obtain rfl | hm' := List.mem_cons.1 hm'
        · obtain hm | hm := hm hskips
          · exact .inl (hrest.continues.committed _ hm)
          · rw [hrest.continues.stack]
            exact .inr hm
        · exact hall m' hm' hskips
    obtain ⟨hmoves, hall⟩ := loop _ run hms h
    exact ⟨hmoves, fun _ => hall⟩
  · rename_i htag
    obtain ⟨_, rfl⟩ := pure_eq_ok.1 h
    exact ⟨.refl _, fun h => absurd h htag⟩

/-! ## Scans -/

theorem parseDefinition_moves (hd : deeper.Sound w K) {d : Definition LoadedType}
    {beanName : String} {record : ConfigClass} {s t : Run}
    (hview : ∀ u, w.resolver.ofDefinition d beanName = .ok u → K.Enters u)
    (h : parseDefinition w deeper d beanName s = .ok () t) :
    Moves w K .entries ⟨record, s⟩ ⟨record, t⟩ := by
  obtain ⟨view, hu, h⟩ := ofExcept_bind_eq_ok.1 h
  exact (hd.enter record (hview view hu) (fun _ => rfl) (ConfigClass.isNew_explicit view _)
    (.inl ⟨rfl, rfl⟩) h).1

theorem enterFound_moves (hd : deeper.Sound w K) {found : NamedDefinition} {record : ConfigClass}
    {s t : Run}
    (hview : ∀ u, w.resolver.ofDefinition (scannedDefinition found) found.beanName = .ok u →
      K.Enters u)
    (h : enterFound w deeper found s = .ok () t) :
    Moves w K .entries ⟨record, s⟩ ⟨record, t⟩ := by
  rw [enterFound] at h
  split at h
  · exact parseDefinition_moves hd hview h
  · obtain ⟨_, rfl⟩ := pure_eq_ok.1 h
    exact .refl _

theorem enterScanned_moves (hd : deeper.Sound w K) (hK : w.Admits K) {c : ClassInfo} {v : View}
    {scan : Tag} {p : Part} {record : ConfigClass} {s t : Run} (hv : K.Reads c v)
    (hscan : w.resolver.repeatable v.info WellKnown.componentScan WellKnown.componentScans ≠ [])
    (h : enterScanned w deeper v.info.name scan s = .ok () t) :
    Moves w K p ⟨record, s⟩ ⟨record, t⟩ := by
  replace h := get_bind_eq.1 h
  dsimp only at h
  generalize hanswer : w.scanner.scan (ScanRequest.ofTag scan v.info.name s.environment)
    w.resolver.reader s.registry = x at h
  obtain ⟨answer, registry⟩ := x
  replace h := set_bind_eq.1 h
  obtain ⟨found, rfl, h⟩ := ofExcept_bind_eq_ok.1 h
  refine .scan (s := ⟨record, s⟩) (t := ⟨record, t⟩) ⟨c, v, hv, hscan⟩ hanswer ?_ ?_
  · refine forM_induction (R := fun s t => Moves w K .entries ⟨record, s⟩ ⟨record, t⟩)
      (fun _ => .refl _) .trans (fun d hmem _ _ hfirst => ?_) h
    exact enterFound_moves hd (fun u hu => hK.scanned hv hscan hanswer hmem hu) hfirst
  · rintro rfl
    obtain ⟨_, rfl⟩ := pure_eq_ok.1 h
    rfl

theorem enterAllScanned_moves (hd : deeper.Sound w K) (hK : w.Admits K) {c : ClassInfo} {v : View}
    {p : Part} {record : ConfigClass} {s t : Run} (hv : K.Reads c v)
    (h : enterAllScanned w deeper v.info s = .ok () t) :
    Moves w K p ⟨record, s⟩ ⟨record, t⟩ := by
  rw [enterAllScanned] at h
  split at h
  · rename_i hscans
    have hne :
        w.resolver.repeatable v.info WellKnown.componentScan WellKnown.componentScans ≠ [] := by
      intro hnil
      rw [hnil] at hscans
      simp at hscans
    obtain ⟨skip, s₁, hskip, h⟩ := bind_eq_ok.1 h
    refine .trans (.aside ((quiet_skips w _ _).ok hskip)) ?_
    split at h
    · exact forM_induction (R := fun s t => Moves w K p ⟨record, s⟩ ⟨record, t⟩)
        (fun _ => .refl _) .trans (fun scan _ _ _ hs => enterScanned_moves hd hK hv hne hs) h
    · obtain ⟨_, rfl⟩ := pure_eq_ok.1 h
      exact .refl _
  · obtain ⟨_, rfl⟩ := pure_eq_ok.1 h
    exact .refl _

/-! ## Import candidates -/

theorem importRegistrar_moves {p : Part} {current v : View} {s t : Collecting}
    (h : importRegistrar w current v s = .ok () t) : Moves w K p s t := by
  obtain ⟨type, _, h⟩ := ofExcept_bind_eq_ok.1 h
  obtain ⟨registrar, s₁, hs, h⟩ := bind_eq_ok.1 h
  obtain ⟨run, hrun, rfl⟩ := toRecordM_eq_ok.1 hs
  obtain rfl := modify_eq_ok.1 h
  exact .trans (.aside ((quiet_produceRegistrar w type).ok hrun))
    (.gather ⟨rfl, rfl, rfl, rfl, rfl⟩)

theorem importClass_moves (hd : deeper.Sound w K) {p : Part} (hp : p ≠ .entries)
    {current v : View} {f : NameFilter} (hf : ¬ K.Selects w → f = w.resolver.filter)
    {s t : Collecting} (hv : K.Enters v) (himports : K.Imports w s.record.info current.info v)
    (hplain : w.resolver.IsPlain v) (h : importClass deeper current f v s = .ok () t) :
    Moves w K p s t ∧ (w.NeverSkips v.info → t.run.Committed v.name) := by
  replace h := modify_bind_eq.1 h
  replace h := record_bind_eq.1 h
  obtain ⟨run, hrun, rfl⟩ := toRecordM_eq_ok.1 h
  obtain ⟨hmoves, hcommitted⟩ := enterImported_moves hd hp hf hv hrun
  exact ⟨.register hv himports hplain hmoves hcommitted, hcommitted⟩

theorem importSelected_moves (hd : deeper.Sound w K) (hK : w.Admits K) (hselects : K.Selects w)
    {current : View} {f : NameFilter} {typeName : String} {selector : Selector} {s t : Collecting}
    (h : importSelected w deeper current f typeName selector s = .ok () t) :
    Moves w K .candidates s t := by
  obtain ⟨_, s₁, hs, h⟩ := bind_eq_ok.1 h
  obtain ⟨run, hrun, rfl⟩ := toRecordM_eq_ok.1 hs
  refine .trans (.aside ((quiet_emit _).ok hrun)) ?_
  obtain ⟨chosen, hchosen, h⟩ := ofExcept_bind_eq_ok.1 h
  obtain ⟨_, s₂, hs, h⟩ := bind_eq_ok.1 h
  obtain ⟨run', hrun', rfl⟩ := toRecordM_eq_ok.1 hs
  obtain ⟨_, rfl⟩ := descend_eq_ok.1 hrun'
  obtain ⟨u, hu, rfl⟩ := ensuring_eq_ok.1 h
  refine .nested (s := { s with run }) ?_
  refine (hd.imports (p := .candidates) (by simp) (fun u hu _ => ?_) (fun _ _ => .inl hselects)
    (absurd hselects) hu).1
  obtain ⟨name, _, hname⟩ := exists_of_mem_mapM_eq_ok hchosen u hu
  exact hK.chosen hselects hname

/-! ## Deferred selectors -/

/-- The view of an origin is of the class that it is kept under. -/
def WellNamed (origins : Origins) : Prop := ∀ e ∈ origins.entries, e.2.name = e.1

theorem wellNamed_ofDeferred (ds : List Deferred) : WellNamed (.ofDeferred ds) := by
  have step : ∀ (ds : List Deferred) (origins : Origins), WellNamed origins →
      WellNamed (ds.foldl (fun (m : OrderedMap String View) d => m.insertIfNew d.owner.name d.owner)
        origins) := by
    intro ds
    induction ds with
    | nil => exact fun _ h => h
    | cons d ds ih =>
      intro origins h
      refine ih _ fun e he => ?_
      dsimp only at he
      rw [OrderedMap.insertIfNew] at he
      split at he
      · exact h e he
      · obtain he | he := List.mem_append.1 he
        · exact h e he
        · rw [List.mem_singleton.1 he]
  exact step ds _ (fun e he => by cases he)

theorem scratchFor_eq_ok {s : Run} {origins : Origins} {name : String} {c : ConfigClass}
    (horigins : WellNamed origins) (h : scratchFor s origins name = .ok c) :
    c.IsNew ∧ (c.name = name ∨ ∃ present, s.classes.get? name = some present ∧
      c = present.detached) := by
  rw [scratchFor] at h
  split at h
  · rename_i present _ hpresent
    obtain rfl := Except.ok.inj h
    exact ⟨ConfigClass.isNew_detached _, .inr ⟨_, hpresent, rfl⟩⟩
  · rename_i origin _ horigin
    obtain rfl := Except.ok.inj h
    exact ⟨ConfigClass.isNew_explicit _ _,
      .inl (horigins _ (OrderedMap.mem_entries_of_get? horigin))⟩
  · cases h

theorem importEntry_moves (hd : deeper.Sound w K) (hK : w.Admits K) (hselects : K.Selects w)
    {f : NameFilter} {e : GroupEntry} {s t : Collecting}
    (h : importEntry w deeper f e s = .ok () t) : Moves w K .candidates s t := by
  replace h := record_bind_eq.1 h
  obtain ⟨candidate, hcandidate, h⟩ := ofExcept_bind_eq_ok.1 (onFailure_eq_ok.1 h)
  refine (hd.imports (by simp) (fun u hu _ => ?_) (fun _ _ => .inl hselects)
    (absurd hselects) h).1
  rw [List.mem_singleton.1 hu]
  exact hK.chosen hselects hcandidate

theorem importForClass_moves (hd : deeper.Sound w K) (hK : w.Admits K) (hselects : K.Selects w)
    {p : Part} {origins : Origins} (horigins : WellNamed origins) {f : NameFilter}
    {e : GroupEntry} {record : ConfigClass} {s t : Run}
    (h : importForClass w deeper origins f e s = .ok () t) :
    Moves w K p ⟨record, s⟩ ⟨record, t⟩ := by
  replace h := get_bind_eq.1 h
  obtain ⟨scratch, hscratch, h⟩ := ofExcept_bind_eq_ok.1 h
  obtain ⟨⟨scratch', result⟩, u, hu, h⟩ := bind_eq_ok.1 h
  replace h := modify_bind_eq.1 h
  obtain ⟨rfl, rfl⟩ := ofExcept_eq_ok.1 h
  obtain ⟨hnew, hname⟩ := scratchFor_eq_ok horigins hscratch
  have hentry := importEntry_moves hd hK hselects (on_eq_ok_ok.1 hu)
  exact .absorb (s := ⟨record, s⟩) (t := ⟨scratch', u⟩) hselects hnew hname hentry

theorem importForRecord_moves (hd : deeper.Sound w K) (hK : w.Admits K) (hselects : K.Selects w)
    {origins : Origins} (horigins : WellNamed origins) {f : NameFilter} {e : GroupEntry}
    {s t : Collecting} (h : importForRecord w deeper origins f e s = .ok () t) :
    Moves w K .candidates s t := by
  replace h := record_bind_eq.1 h
  split at h
  · exact importEntry_moves hd hK hselects h
  · obtain ⟨run, hrun, rfl⟩ := toRecordM_eq_ok.1 h
    exact importForClass_moves hd hK hselects horigins hrun

/-- Going through the entries of groups relates the states before and after, if the entries
and all quiet steps do. -/
theorem forEntries_induction {σ : Type} [MonadLiftT RunM (EStateM Failure σ)] {R : σ → σ → Prop}
    (refl : ∀ s, R s s) (trans : ∀ {s t u}, R s t → R t u → R s u)
    (quiet : ∀ {α : Type} {x : RunM α} {a : α} {s t : σ}, Quiet x →
      (liftM x : EStateM Failure σ α) s = .ok a t → R s t)
    {ds : List Deferred} {act : NameFilter → GroupEntry → EStateM Failure σ Unit}
    (step : ∀ {f e s t}, act f e s = .ok () t → R s t) {s t : σ}
    (h : forEntries w ds act s = .ok () t) : R s t := by
  obtain ⟨groupings, s₁, hs, h⟩ := bind_eq_ok.1 h
  refine trans (quiet (quiet_ofDeferred w ds) hs) ?_
  refine forM_induction refl trans (fun g _ s t hg => ?_) h
  obtain ⟨entries, s₂, hs, hg⟩ := bind_eq_ok.1 hg
  refine trans (quiet (quiet_entries g) hs) ?_
  exact forM_induction refl trans (fun e _ _ _ he => step he) hg

theorem defer_moves (hd : deeper.Sound w K) (hK : w.Admits K) (hselects : K.Selects w)
    {d : Deferred}
    {s t : Collecting} (h : defer w deeper d s = .ok () t) : Moves w K .candidates s t := by
  replace h := get_bind_eq.1 h
  cases hqueue : s.run.queue with
  | some queue =>
    rw [hqueue] at h
    obtain rfl := modify_eq_ok.1 h
    exact .enqueue d hselects hqueue
  | none =>
    rw [hqueue] at h
    refine forEntries_induction (R := Moves w K .candidates) (fun _ => .refl _) .trans ?_ ?_ h
    · intro α x a s t hx hs
      obtain ⟨run, hrun, rfl⟩ := toRecordM_eq_ok.1 hs
      exact .aside (hx.ok hrun)
    · intro f e s t hs
      exact importForRecord_moves hd hK hselects (wellNamed_ofDeferred _) hs

theorem resolveDeferred_moves (hd : deeper.Sound w K) (hK : w.Admits K) (hselects : K.Selects w)
    {p : Part} {ds : List Deferred} {record : ConfigClass} {s t : Run}
    (h : resolveDeferred w deeper ds s = .ok () t) : Moves w K p ⟨record, s⟩ ⟨record, t⟩ := by
  refine forEntries_induction (R := fun s t => Moves w K p ⟨record, s⟩ ⟨record, t⟩)
    (fun _ => .refl _) .trans ?_ ?_ h
  · intro α x a s t hx hs
    exact .aside (hx.ok hs)
  · intro f e s t hs
    exact importForClass_moves hd hK hselects (wellNamed_ofDeferred _) hs

/-- There is nothing to resolve in an empty queue. -/
theorem resolveDeferred_nil {s t : Run} (h : resolveDeferred w deeper [] s = .ok () t) : s = t :=
  (pure_eq_ok.1 h).2

/-! ## Importing -/

theorem importSelector_moves (hd : deeper.Sound w K) (hK : w.Admits K) (hselects : K.Selects w)
    {current v : View} {f f' : NameFilter} {s t : Collecting}
    (h : importSelector w deeper current f v s = .ok f' t) : Moves w K .candidates s t := by
  obtain ⟨type, _, h⟩ := ofExcept_bind_eq_ok.1 h
  obtain ⟨strategy, s₁, hs, h⟩ := bind_eq_ok.1 h
  obtain ⟨run, hrun, rfl⟩ := toRecordM_eq_ok.1 hs
  refine .trans (.aside ((quiet_produce w type).ok hrun)) ?_
  cases strategy with
  | selector selector =>
    obtain ⟨_, u, hu, h⟩ := bind_eq_ok.1 h
    obtain ⟨_, rfl⟩ := pure_eq_ok.1 h
    exact importSelected_moves hd hK hselects hu
  | deferredSelector selector =>
    replace h := record_bind_eq.1 h
    obtain ⟨_, u, hu, h⟩ := bind_eq_ok.1 h
    obtain ⟨_, rfl⟩ := pure_eq_ok.1 h
    exact defer_moves hd hK hselects hu
  | _ =>
    obtain ⟨_, hu, _⟩ := toRecordM_eq_ok.1 h
    exact absurd hu throw_ne_ok

theorem importEach_moves (hd : deeper.Sound w K) (hK : w.Admits K) {current : View}
    {f : NameFilter} {us : List View} {s t : Collecting}
    (hus : ∀ u ∈ us, w.resolver.IsPlain u → K.Enters u)
    (himports : ∀ u ∈ us, K.Imports w s.record.info current.info u)
    (hf : ¬ K.Selects w → f = w.resolver.filter)
    (h : importEach w deeper current f us s = .ok () t) :
    Moves w K .candidates s t ∧
      ∀ u ∈ us, w.resolver.IsPlain u → w.NeverSkips u.info → t.run.Committed u.name := by
  induction us generalizing f s with
  | nil =>
    obtain ⟨_, rfl⟩ := pure_eq_ok.1 h
    exact ⟨.refl _, by simp⟩
  | cons v vs ih =>
    have hvs : ∀ u ∈ vs, w.resolver.IsPlain u → K.Enters u := fun u hu =>
      hus u (List.mem_cons_of_mem _ hu)
    have hrest (s₁ : Collecting) (hfirst : Moves w K .candidates s s₁) :
        ∀ u ∈ vs, K.Imports w s₁.record.info current.info u := by
      rw [hfirst.continues.info]
      exact fun u hu => himports u (List.mem_cons_of_mem _ hu)
    rw [importEach] at h
    split at h
    · rename_i hselector
      have hselects := (himports v List.mem_cons_self).selects hselector
      obtain ⟨f', s₁, hs, h⟩ := bind_eq_ok.1 h
      have hfirst := importSelector_moves hd hK hselects hs
      obtain ⟨hmoves, hall⟩ := ih hvs (hrest s₁ hfirst) (absurd hselects) h
      refine ⟨hfirst.trans hmoves, fun u hu hplain => ?_⟩
      obtain rfl | hu := List.mem_cons.1 hu
      · cases hselector.symm.trans hplain.1
      · exact hall u hu hplain
    · rename_i hselector
      rw [Bool.not_eq_true] at hselector
      split at h
      · rename_i hregistrar
        obtain ⟨_, s₁, hs, h⟩ := bind_eq_ok.1 h
        have hfirst : Moves w K .candidates s s₁ := importRegistrar_moves hs
        obtain ⟨hmoves, hall⟩ := ih hvs (hrest s₁ hfirst) hf h
        refine ⟨hfirst.trans hmoves, fun u hu hplain => ?_⟩
        obtain rfl | hu := List.mem_cons.1 hu
        · cases hregistrar.symm.trans hplain.2.1
        · exact hall u hu hplain
      · rename_i hregistrar
        rw [Bool.not_eq_true] at hregistrar
        split at h
        · rename_i hobject
          have hplain : w.resolver.IsPlain v := ⟨hselector, hregistrar, by simpa using hobject⟩
          obtain ⟨_, s₁, hs, h⟩ := bind_eq_ok.1 h
          obtain ⟨hfirst, hcommitted⟩ := importClass_moves (p := .candidates) hd (by simp) hf
            (hus v List.mem_cons_self hplain) (himports v List.mem_cons_self) hplain hs
          obtain ⟨hmoves, hall⟩ := ih hvs (hrest s₁ hfirst) hf h
          refine ⟨hfirst.trans hmoves, fun u hu hplain hskips => ?_⟩
          obtain rfl | hu := List.mem_cons.1 hu
          · exact hmoves.continues.committed _ (hcommitted hskips)
          · exact hall u hu hplain hskips
        · rename_i hobject
          obtain ⟨hmoves, hall⟩ := ih hvs (hrest s (.refl s)) hf h
          refine ⟨hmoves, fun u hu hplain => ?_⟩
          obtain rfl | hu := List.mem_cons.1 hu
          · rw [hplain.2.2] at hobject
            exact absurd rfl hobject
          · exact hall u hu hplain

theorem imports_moves (hd : deeper.Sound w K) (hK : w.Admits K) {p : Part} {current : View}
    {us : List View} {f : NameFilter} {checksCycles : Bool} {s t : Collecting} (hp : p ≠ .entries)
    (hus : ∀ u ∈ us, w.resolver.IsPlain u → K.Enters u)
    (himports : ∀ u ∈ us, K.Imports w s.record.info current.info u)
    (hf : ¬ K.Selects w → f = w.resolver.filter)
    (h : imports w deeper current us f checksCycles s = .ok () t) :
    Moves w K p s t ∧
      ((∀ u ∈ us, w.resolver.IsPlain u → w.NeverSkips u.info → t.run.Committed u.name) ∨
        ImportStack.holds t.run.stack t.record.name = true ∧
          t.run.HasReported t.record.name) := by
  rcases imports_eq_ok h with
    ⟨rfl, rfl⟩ | ⟨hcircular, problem, hkind, hname, rfl⟩ | ⟨_, u, hu, rfl⟩
  · exact ⟨.refl _, .inl (by simp)⟩
  · have hholds : ImportStack.holds s.run.stack s.record.name = true := by
      rw [ImportStack.isCircular, Bool.and_eq_true] at hcircular
      exact hcircular.1
    refine ⟨.report problem hkind (.inl hcircular), .inr ⟨hholds, problem, ?_, hkind, hname⟩⟩
    exact List.mem_append_right _ (List.mem_singleton.2 rfl)
  · obtain ⟨hmoves, hall⟩ := importEach_moves hd hK hus (by exact himports) hf hu
    exact ⟨.stacked hp hmoves, .inl hall⟩

/-! ## Sources -/

theorem addResources_moves {p : Part} {c : ClassInfo} {s t : Collecting}
    (h : addResources w c s = .ok () t) : Moves w K p s t := by
  obtain ⟨record, hcore, rfl⟩ := addResources_eq_ok h
  exact .gather hcore

theorem processSource_moves (hd : deeper.Sound w K) (hK : w.Admits K) {v : View} {f : NameFilter}
    (hf : ¬ K.Selects w → f = w.resolver.filter) {next : Option View} {s t : Collecting}
    (hv : K.Reads s.record.info v) (hgrants : ¬ K.Scans w → s.run.Grants s.record.name v)
    (h : processSource w deeper v f s = .ok next t) :
    ∃ u, Moves w K .source s u ∧ v ∈ u.record.sources ∧ takeSuperclass w v u = .ok next t := by
  obtain ⟨_, s₁, h₁, h⟩ := bind_eq_ok.1 h
  obtain ⟨_, s₂, h₂, h⟩ := bind_eq_ok.1 h
  obtain ⟨_, s₃, h₃, h⟩ := bind_eq_ok.1 h
  obtain ⟨_, s₄, h₄, h⟩ := bind_eq_ok.1 h
  obtain ⟨_, s₅, h₅, h⟩ := bind_eq_ok.1 h
  obtain ⟨_, s₆, h₆, h⟩ := bind_eq_ok.1 h
  obtain ⟨m₁, hmembers⟩ := enterMembers_moves hd hK hf hv h₁
  obtain ⟨run₂, hsources, rfl⟩ := toRecordM_eq_ok.1 h₂
  have m₂ : Moves w K .source s₁ { s₁ with run := run₂ } :=
    .aside ((quiet_addDeclaredSources w v.info).ok hsources)
  obtain ⟨run₃, hscans, rfl⟩ := toRecordM_eq_ok.1 h₃
  have m₃ : Moves w K .source { s₁ with run := run₂ } { s₁ with run := run₃ } :=
    enterAllScanned_moves hd hK hv hscans
  obtain ⟨us, hus, h₄⟩ := ofExcept_bind_eq_ok.1 h₄
  have hread₃ : K.Reads s₁.record.info v := by
    rw [m₁.continues.info]
    exact hv
  obtain ⟨m₄, himports⟩ := hd.imports (p := .source) (by simp) (hK.imports hv hus)
    (by exact fun u hu => .inr ⟨v, us, hread₃, rfl, hus, hu⟩) hf h₄
  have m₅ : Moves w K .source s₄ s₅ := addResources_moves h₅
  obtain ⟨ms, hms, rfl⟩ := collectMethods_eq_ok h₆
  have hafter := ((m₂.trans m₃).trans m₄).trans m₅
  have hfollowed : Followed w v s₅ := by
    have hc := m₁.continues.trans hafter.continues
    refine ⟨fun htag m hm hskips => ?_, us, hus, ?_⟩
    · rw [hc.info] at htag
      rw [hc.name] at hm
      rw [hafter.continues.stack, hc.name]
      obtain hm | hm := hmembers htag m hm hskips
      · exact .inl (hafter.continues.committed _ hm)
      · exact .inr hm
    · obtain hall | ⟨hholds, problem, hproblem, hkind, hname⟩ := himports
      · exact .inl fun u hu hplain hskips => m₅.continues.committed _ (hall u hu hplain hskips)
      · refine .inr ⟨?_, problem, m₅.continues.problems hproblem, hkind, ?_⟩
        · rw [m₅.continues.stack, m₅.continues.name]
          exact hholds
        · rw [m₅.continues.name]
          exact hname
  have hread : K.Reads s₅.record.info v := by
    rw [(m₁.trans hafter).continues.info]
    exact hv
  have hgrants₅ : ¬ K.Scans w → s₅.run.Grants s₅.record.name v := fun hscans => by
    rw [(m₁.trans hafter).continues.name]
    exact (m₁.trans hafter).grants hscans (by simp) (hgrants hscans)
  refine ⟨_, (m₁.trans hafter).trans (.collect hread hgrants₅ hms hfollowed), ?_, h⟩
  exact List.mem_append_right _ (List.mem_singleton.2 rfl)

theorem climb_moves (hd : deeper.Sound w K) (hK : w.Admits K) {v : View} {f : NameFilter}
    (hf : ¬ K.Selects w → f = w.resolver.filter) {s t : Collecting} (hv : K.Reads s.record.info v)
    (hgrants : ¬ K.Scans w → s.run.Grants s.record.name v) (hopen : s.run.HasOpened s.record.name)
    (h : climb w deeper v f s = .ok () t) :
    Moves w K .source s t ∧ v ∈ t.record.sources := by
  obtain ⟨next, s₁, hs, h⟩ := bind_eq_ok.1 h
  obtain ⟨u, hmoves, hsource, htake⟩ := processSource_moves hd hK hf hv hgrants hs
  obtain ⟨rfl, rfl⟩ | ⟨name, next, hname, hplatform, hfree, hnext, rfl, rfl⟩ :=
    takeSuperclass_eq_ok htake
  · obtain ⟨_, rfl⟩ := pure_eq_ok.1 h
    exact ⟨hmoves, hsource⟩
  · have hopen' : u.run.HasOpened u.record.name := by
      rw [hmoves.continues.name]
      exact hopen.mono hmoves.continues.history.subset
    have hv' : K.Reads u.record.info v := by
      rw [hmoves.continues.info]
      exact hv
    obtain ⟨hrest, hmem⟩ := hd.climb (s := { u with run := { u.run with
      superclassOwners := u.run.superclassOwners.insert name u.record.name } })
      (hK.superClass hv' hname hplatform hnext) (fun _ => u.run.grants_claimed hname hnext) hf
      hopen' h
    refine ⟨hmoves.trans (.claim hopen' hname hfree hnext hrest hmem), ?_⟩
    exact hrest.continues.sources hsource

end Step

/-- The scope without limits. -/
def Scope.anything : Scope := ⟨fun _ => True, fun _ _ => True⟩

theorem World.admits_anything (w : World) : w.Admits .anything := by
  constructor <;> intros <;> trivial

namespace Run

/-- However deep they may go, the steps are moves. -/
theorem sound_steps {w : World} {K : Scope} (hK : w.Admits K) (fuel : Nat) :
    (steps w fuel).Sound w K := by
  induction fuel with
  | zero =>
    constructor
    · intro p c f record s t _ _ _ _ h
      exact absurd h throw_ne_ok
    · intro v f s t _ _ _ _ h
      exact absurd h throw_ne_ok
    · intro p current us f checksCycles s t _ _ _ _ h
      exact absurd h throw_ne_ok
  | succ fuel ih =>
    constructor
    · intro p c f record s t hview hf hnew hdue h
      exact Step.enter_moves ih hK hview hf hnew hdue h
    · intro v f s t hv hgrants hf hopen h
      exact Step.climb_moves ih hK hf hv hgrants hopen h
    · intro p current us f checksCycles s t hp hus himports hf h
      exact Step.imports_moves ih hK hp hus himports hf h

theorem parseSeed_eq_ok {w : World} {seed : NamedDefinition} {s t : Run}
    (h : parseSeed w seed s = .ok () t) :
    Step.parseDefinition w (stepsOf w) seed.definition seed.beanName s = .ok () t := by
  cases hname : seed.definition.className with
  | none =>
    rw [parseSeed, hname] at h
    exact absurd h throw_ne_ok
  | some name =>
    rw [parseSeed, hname] at h
    exact onFailure_eq_ok.1 h

theorem parseSeeds_moves {w : World} {K : Scope} (hK : w.Admits K)
    {seeds : List NamedDefinition} {record : ConfigClass} {s t : Run}
    (hseeds : ∀ seed ∈ seeds, ∀ u,
      w.resolver.ofDefinition seed.definition seed.beanName = .ok u → K.Enters u)
    (h : parseSeeds w seeds s = .ok () t) : Moves w K .entries ⟨record, s⟩ ⟨record, t⟩ := by
  refine forM_induction (R := fun s t => Moves w K .entries ⟨record, s⟩ ⟨record, t⟩)
    (fun _ => .refl _) .trans (fun seed hseed s t h => ?_) h
  exact Step.parseDefinition_moves (sound_steps hK _) (hseeds seed hseed) (parseSeed_eq_ok h)

/-- Every seed is committed, unless it is left out. -/
theorem parseSeeds_committed {w : World} {seeds : List NamedDefinition} {s t : Run}
    (h : parseSeeds w seeds s = .ok () t) :
    ∀ seed ∈ seeds, ∃ v, w.resolver.ofDefinition seed.definition seed.beanName = .ok v ∧
      (w.NeverSkips v.info → t.Committed v.name) := by
  induction seeds generalizing s with
  | nil =>
    intro seed hseed
    cases hseed
  | cons first rest ih =>
    obtain ⟨_, u, hfirst, hrest⟩ := bind_eq_ok.1 h
    intro seed hseed
    obtain rfl | hseed := List.mem_cons.1 hseed
    · have hmoves : Moves w .anything .entries ⟨.explicit .object none, u⟩
          ⟨.explicit .object none, t⟩ :=
        parseSeeds_moves w.admits_anything (fun _ _ _ _ => trivial) hrest
      obtain ⟨v, hv, henter⟩ := ofExcept_bind_eq_ok.1 (parseSeed_eq_ok hfirst)
      have hcommitted := ((sound_steps w.admits_anything _).enter (.explicit .object none)
        trivial (fun _ => rfl) (ConfigClass.isNew_explicit v _) (.inl ⟨rfl, rfl⟩) henter).2
      exact ⟨v, hv, fun hskips => hmoves.continues.committed _ (hcommitted hskips).1⟩
    · exact ih hrest seed hseed

theorem resolveDeferred_of_empty {w : World} {s : Run} (h : s.queue = some []) :
    resolveDeferred w s = .ok () s := by
  have hreopened : { s with queue := some [] } = s := by
    rw [← h]
  refine bind_eq_ok.2 ⟨s, s, rfl, ?_⟩
  rw [h]
  refine bind_eq_ok.2 ⟨(), { s with queue := none }, rfl, ?_⟩
  refine ensuring_eq_ok.2 ⟨{ s with queue := none }, ?_, hreopened⟩
  rw [List.mergeSort_nil]
  rfl

/-- A successful call parses the seeds with an open queue and then resolves what was queued,
without one. -/
theorem parse_moves {w : World} {K : Scope} (hK : w.Admits K)
    {seeds : List NamedDefinition} (record : ConfigClass) {s t : Run} (hqueue : s.queue = some [])
    (hseeds : ∀ seed ∈ seeds, ∀ u,
      w.resolver.ofDefinition seed.definition seed.beanName = .ok u → K.Enters u)
    (h : parse w seeds s = .ok () t) :
    ∃ u v, parseSeeds w seeds s = .ok () u ∧ Moves w K .entries ⟨record, s⟩ ⟨record, u⟩ ∧
      Moves w K .entries ⟨record, { u with queue := none }⟩ ⟨record, v⟩ ∧
      t = { v with queue := some [] } := by
  obtain ⟨_, u, hu, h⟩ := bind_eq_ok.1 h
  have hfirst : Moves w K .entries ⟨record, s⟩ ⟨record, u⟩ := parseSeeds_moves hK hseeds hu
  replace h := get_bind_eq.1 h
  cases hwaiting : u.queue with
  | none =>
    obtain heq | ⟨_, _, hopen⟩ := hfirst.queue
    · rw [hqueue, hwaiting] at heq
      cases heq
    · rw [hwaiting] at hopen
      cases hopen
  | some queue =>
    rw [hwaiting] at h
    replace h := modify_bind_eq.1 h
    obtain ⟨v, hv, rfl⟩ := ensuring_eq_ok.1 h
    refine ⟨u, v, hu, hfirst, ?_, rfl⟩
    obtain heq | ⟨hselects, _, _⟩ := hfirst.queue
    · rw [hqueue, hwaiting] at heq
      obtain rfl := Option.some.inj heq
      rw [List.mergeSort_nil] at hv
      rw [Step.resolveDeferred_nil hv]
      exact .refl _
    · exact Step.resolveDeferred_moves (sound_steps hK _) hK hselects hv

end Run
end Wiring
