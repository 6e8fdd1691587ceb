import Wiring.Proofs.Comparison.Aside

/-!
# The steps of two runs that are compared

Two worlds in which the same names mean the same may differ in how they report problems and in how
deep they let a run go.  Apart from these two, each step of a run in the one is alike to that of a
run in the other, also if the views that it is given only look alike.
-/

namespace Wiring

namespace Resolver

/-- Views that look the same through `f` can stand for each other. -/
structure Interchanges (r : Resolver) (f : View → View) : Prop extends r.Blind f where
  isAssignable : ∀ {v v' : View}, f v = f v' →
    ∀ target, r.isAssignable v target = r.isAssignable v' target
  load : ∀ {v v' : View}, f v = f v' → r.load v = r.load v'
  beanMethods : ∀ {v v' : View}, f v = f v' → r.beanMethods v = r.beanMethods v'

theorem interchanges_id (r : Resolver) : r.Interchanges id where
  info h := congrArg View.info h
  related h name := congrArg (fun v => (r.related v name).map id) h
  isAssignable h target := congrArg (r.isAssignable · target) h
  load h := congrArg r.load h
  beanMethods h := congrArg r.beanMethods h

namespace Interchanges

variable {r : Resolver} {f : View → View} {v v' : View} {c d : ConfigClass}

theorem name (hr : r.Interchanges f) (h : f v = f v') : v.name = v'.name := hr.toBlind.name h

theorem info_record (hr : r.Interchanges f) (h : mapViews f c = mapViews f d) : c.info = d.info :=
  hr.info (congrArg ConfigClass.view h)

theorem name_record (hr : r.Interchanges f) (h : mapViews f c = mapViews f d) : c.name = d.name :=
  hr.name (congrArg ConfigClass.view h)

theorem filtered (hr : r.Interchanges f) (h : f v = f v') (g : NameFilter) :
    f (v.filtered g) = f (v'.filtered g) := by
  rw [View.filtered, View.filtered, hr.name h]
  split
  · rfl
  · exact h

theorem isObject (hr : r.Interchanges f) (h : f v = f v') : v.isObject = v'.isObject := by
  rw [View.isObject, View.isObject, hr.name h]

theorem superClass_congr (hr : r.Interchanges f) (h : f v = f v') :
    mapViews f (r.superClass v) = mapViews f (r.superClass v') := by
  rw [superClass, superClass, hr.info h]
  split
  · rename_i name _
    have hoption (x : Except Failure View) : mapViews f (x.map some) = (x.map f).map some := by
      cases x <;> rfl
    rw [hoption, hoption, hr.related h name]
  · rfl

theorem interfaceMethods_congr (hr : r.Interchanges f) (depth : Nat) (seen : List String)
    (h : f v = f v') : r.interfaceMethods depth seen v = r.interfaceMethods depth seen v' := by
  induction depth generalizing seen v v' with
  | zero => rfl
  | succ depth ih =>
    have hinterfaces : (r.interfaces v).map (List.map f) = (r.interfaces v').map (List.map f) := by
      rw [interfaces, interfaces, hr.info h]
      exact exceptMapM_congr (hr.related h) _
    rw [interfaceMethods, interfaceMethods]
    refine (congrFun Except.map_id _).symm.trans (Eq.trans ?_ (congrFun Except.map_id _))
    refine exceptBind_congr hinterfaces fun us us' hus =>
      exceptFoldlM_congr (fun i i' st st' hi hst => ?_) hus rfl
    obtain rfl : st = st' := hst
    dsimp only
    rw [hr.name hi, ih _ hi, hr.beanMethods hi]

theorem allMethods_congr (hr : r.Interchanges f) (h : f v = f v') :
    r.allMethods v = r.allMethods v' := by
  rw [allMethods, allMethods, hr.interfaceMethods_congr _ _ h, hr.beanMethods h]

theorem memberCandidates_congr (hr : r.Interchanges f) (h : f v = f v') (name : String) :
    mapViews f (Step.memberCandidates r v name) =
      mapViews f (Step.memberCandidates r v' name) := by
  -- what is asked of a member can be asked of what `f` shows of it
  obtain ⟨info, hinfo⟩ : ∃ info, View.info = info ∘ f :=
    (Function.factorsThrough_iff View.info).1 fun _ _ h => hr.info h
  have hshown (us : List View) :
      ((us.filter fun m => r.isCandidate m.info && m.name != name).mergeSort
          fun a b => a.info.order ≤ b.info.order).map f =
        ((us.map f).filter fun y => r.isCandidate (info y) && (info y).name != name).mergeSort
          fun y z => (info y).order ≤ (info z).order := by
    simp only [View.name, hinfo, Function.comp_apply]
    rw [List.filter_map, List.map_mergeSort]
    · rfl
    · intro a _ b _
      rfl
  show List.map f _ = List.map f _
  rw [Step.memberCandidates, Step.memberCandidates, hshown, hshown, hr.members_congr h]

theorem addMethods_congr (hr : r.Interchanges f) (h : mapViews f c = mapViews f d)
    (ms : List Method) : mapViews f (c.addMethods ms) = mapViews f (d.addMethods ms) := by
  induction ms generalizing c d with
  | nil => exact h
  | cons m ms ih =>
    have hmethods : c.beanMethods = d.beanMethods := (congrArg ConfigClass.beanMethods h :)
    refine ih (c := c.addMethod m) (d := d.addMethod m) ?_
    rw [ConfigClass.addMethod, ConfigClass.addMethod, hmethods, hr.name_record h]
    exact congrArg (fun e : ConfigClass =>
      { e with beanMethods := d.beanMethods.insertIfNew m.key ⟨m, d.name⟩ }) h

theorem imported_congr (hr : r.Interchanges f) (hv : f v = f v')
    (hcd : mapViews f c = mapViews f d) :
    mapViews f (ConfigClass.imported v c) = mapViews f (ConfigClass.imported v' d) := by
  rw [ConfigClass.imported, ConfigClass.imported, hr.name_record hcd, hr.info_record hcd]
  exact congrArg (fun u => { view := u, importedBy := ⟨[(d.name, d.info)]⟩ : ConfigClass }) hv

end Interchanges
end Resolver

/-! ## Steps that lead into others -/

/-- The second world differs from the first only in how problems are reported and in how deep a run
may go, and the comparison covers that. -/
structure Comparison.Relates (K : Comparison) (w w' : World) : Prop where
  same : w' = { w with isFailFast := w'.isFailFast, maxDepth := w'.maxDepth }
  views : w.resolver.Interchanges K.view
  report : ∀ p, Alike K (RunM.report w p) (RunM.report w' p)
  descend : ∀ className, Alike K (RunM.descend w className) (RunM.descend w' className)

/-- The steps one level deeper are alike. -/
structure Steps.Agree (K : Comparison) (deeper deeper' : Steps) : Prop where
  enter : ∀ {c d : ConfigClass} (f : NameFilter), mapViews K.view c = mapViews K.view d →
    Alike K (deeper.enter c f) (deeper'.enter d f)
  climb : ∀ {v v' : View} (f : NameFilter), K.view v = K.view v' →
    Alike K (deeper.climb v f) (deeper'.climb v' f)
  imports : ∀ {v v' : View} {us us' : List View} (f : NameFilter) (checksCycles : Bool),
    K.view v = K.view v' → mapViews K.view us = mapViews K.view us' →
    Alike K (deeper.imports v us f checksCycles) (deeper'.imports v' us' f checksCycles)

variable {K : Comparison} {w w' : World} {deeper deeper' : Steps}

namespace Comparison.Relates

theorem closed (h : K.Relates w w') : K.closed.Relates w w' :=
  ⟨h.same, h.views, fun p => (h.report p).closed, fun className => (h.descend className).closed⟩

theorem resolver (h : K.Relates w w') : w'.resolver = w.resolver := by rw [h.same]

theorem scanner (h : K.Relates w w') : w'.scanner = w.scanner := by rw [h.same]

theorem fuel (h : K.Relates w w') : w'.fuel = w.fuel := by rw [h.same]

theorem skips (h : K.Relates w w') : RunM.skips w' = RunM.skips w := by
  rw [h.same]
  funext c phase
  rw [RunM.skips, RunM.skips, RunM.allHold_eq]
  rfl

theorem produce (h : K.Relates w w') : RunM.produce w' = RunM.produce w := by
  rw [h.same]
  rfl

theorem produceRegistrar (h : K.Relates w w') :
    RunM.produceRegistrar w' = RunM.produceRegistrar w := by
  rw [h.same]
  rfl

theorem addDeclaredSources (h : K.Relates w w') :
    RunM.addDeclaredSources w' = RunM.addDeclaredSources w := by
  rw [h.same]
  funext c
  simp only [RunM.addDeclaredSources, RunM.addTaggedSources, RunM.addLocations_eq]
  rfl

theorem ofDeferred (h : K.Relates w w') : Grouping.ofDeferred w' = Grouping.ofDeferred w := by
  rw [h.same]
  rfl

end Comparison.Relates

theorem Steps.Agree.closed (h : deeper.Agree K deeper') : deeper.Agree K.closed deeper' where
  enter f hcd := (h.enter f hcd).closed
  climb f hv := (h.climb f hv).closed
  imports f checksCycles hv hus := (h.imports f checksCycles hv hus).closed

theorem alike_mark (m : Milestone) : Alike K (RunM.mark m) (RunM.mark m) :=
  alike_modify (fun _ _ hs => congrArg (fun u : Run => { u with history := m :: u.history }) hs)
    fun _ => .of_eq rfl rfl rfl

theorem alike_push (c : ClassInfo) : Alike K (RunM.push c) (RunM.push c) :=
  alike_modify (fun _ _ hs => congrArg (fun u : Run => { u with stack := c :: u.stack }) hs)
    fun _ => .of_eq rfl rfl rfl

/-- The worlds report alike. -/
theorem alike_report (hw : w'.isFailFast = w.isFailFast)
    (hkeeps : ∀ (s : Run) (p : Problem), K.Keeps s { s with problems := s.problems ++ [p] })
    (p : Problem) : Alike K (RunM.report w p) (RunM.report w' p) := by
  have hreported : Alike K (modify fun s : Run => { s with problems := s.problems ++ [p] })
      (modify fun s : Run => { s with problems := s.problems ++ [p] }) := fun s s' hs _ =>
    .ok rfl (congrArg (fun u : Run => { u with problems := u.problems ++ [p] }) hs) (hkeeps s p)
  rw [RunM.report, RunM.report, hw]
  refine alike_bind_same hreported fun _ => ?_
  split
  · exact alike_throw _
  · exact alike_pure rfl

theorem descend_of_deep {className : String} {s : Run} (h : w.maxDepth ≤ s.depth) :
    RunM.descend w className s = .error (.tooDeep className w.maxDepth) s := by
  refine get_bind_eq.2 ?_
  rw [if_pos h]
  rfl

/-- The worlds let a run go equally deep. -/
theorem alike_descend (hw : w'.maxDepth = w.maxDepth) (className : String) :
    Alike K (RunM.descend w className) (RunM.descend w' className) := by
  intro s s' hs _
  have hdepth : s.depth = s'.depth := (congrArg Run.depth hs :)
  by_cases hdeep : w.maxDepth ≤ s.depth
  · rw [descend_of_deep hdeep, descend_of_deep (by rwa [hw, ← hdepth]), hw]
    exact .error hs (keeps_refl _)
  · have hlt : s.depth < w.maxDepth := Nat.lt_of_not_le hdeep
    rw [Step.descend_eq_ok.2 ⟨hlt, rfl⟩, Step.descend_eq_ok.2 ⟨by rwa [hw, ← hdepth], rfl⟩]
    exact .ok rfl (congrArg RunM.deepen hs) (K.keeps_tacit (.of_eq rfl rfl rfl))

namespace Step

/-! ### Entering -/

theorem alike_commit (h : K.Relates w w') {c d : ConfigClass}
    (hcd : mapViews K.view c = mapViews K.view d) : Alike K (commit c) (commit d) := by
  refine alike_modify (fun s s' hs => ?_) fun s => .of_eq rfl rfl rfl
  have hclasses : mapViews K.view (s.classes.insert c.name c) =
      mapViews K.view (s'.classes.insert d.name d) := by
    rw [OrderedMap.mapViews_insert, OrderedMap.mapViews_insert, hcd, h.views.name_record hcd,
      show mapViews K.view s.classes = mapViews K.view s'.classes from (congrArg Run.classes hs :)]
  exact congrArg₂ (fun (u : Run) m => { u with classes := m }) hs hclasses

theorem alike_withdraw (name : String) : Alike K (withdraw name) (withdraw name) := by
  refine alike_modify (fun s s' hs => ?_) fun s => .of_eq rfl rfl rfl
  have hclasses : mapViews K.view (s.classes.erase name) =
      mapViews K.view (s'.classes.erase name) := by
    rw [OrderedMap.mapViews_erase, OrderedMap.mapViews_erase,
      show mapViews K.view s.classes = mapViews K.view s'.classes from (congrArg Run.classes hs :)]
  exact congrArg₂ (fun (u : Run) m => { u with
    classes := m
    superclassOwners := ⟨u.superclassOwners.entries.filter (·.2 ≠ name)⟩ }) hs hclasses

theorem alike_enroll (h : K.Relates w w') {c d : ConfigClass}
    (hcd : mapViews K.view c = mapViews K.view d) : Alike K (enroll c) (enroll d) := by
  have himported : c.isImported = d.isImported := (congrArg ConfigClass.isImported hcd :)
  refine alike_bind alike_get fun s s' hs => ?_
  have hpresent := OrderedMap.get?_congr
    (show mapViews K.view s.classes = mapViews K.view s'.classes from (congrArg Run.classes hs :))
    d.name
  rw [h.views.name_record hcd, himported]
  generalize s.classes.get? d.name = present, s'.classes.get? d.name = present' at hpresent
  cases present with
  | none =>
    obtain rfl := Option.map_eq_none_iff.1 hpresent.symm
    exact alike_pure rfl
  | some present =>
    obtain ⟨present', rfl, heq⟩ := Option.map_eq_some_iff.1 hpresent.symm
    have hmerged : mapViews K.view (present.mergeImporters c) =
        mapViews K.view (present'.mergeImporters d) :=
      (congrArg₂ ConfigClass.mergeImporters heq.symm hcd :)
    have hisImported : present.isImported = present'.isImported :=
      (congrArg ConfigClass.isImported heq.symm :)
    dsimp only
    rw [hisImported]
    split
    · split
      · exact alike_bind_same (alike_commit h hmerged) fun _ => alike_pure rfl
      · exact alike_pure rfl
    · exact alike_bind_same (alike_withdraw d.name) fun _ => alike_pure rfl

theorem process_eq (c : ConfigClass) (f : NameFilter) :
    process w deeper c f = (do
      RunM.descend w c.name
      RunM.mark (.opened c.name c.isImported)
      Prod.fst <$> settle (fun _ => RunM.close) c (deeper.climb (c.view.filtered f) f)) := by
  simp only [process, map_fst_settle]

theorem alike_process (h : K.Relates w w') (hd : deeper.Agree K deeper') {c d : ConfigClass}
    (f : NameFilter) (hcd : mapViews K.view c = mapViews K.view d) :
    Alike K (process w deeper c f) (process w' deeper' d f) := by
  have himported : c.isImported = d.isImported := (congrArg ConfigClass.isImported hcd :)
  rw [process_eq, process_eq, h.views.name_record hcd, himported]
  refine alike_bind_same (h.descend _) fun _ => alike_bind_same (alike_mark _) fun _ => ?_
  have hview := h.views.filtered (congrArg ConfigClass.view hcd) f
  have hsettled := alike_settle (fun _ => RunM.close) (hd.climb f hview) hcd
    (fun _ _ _ _ _ hs => congrArg RunM.close hs) fun _ _ => .of_eq rfl rfl rfl
  rw [map_eq_pure_bind, map_eq_pure_bind]
  exact alike_bind hsettled fun a b hab => alike_pure (congrArg Prod.fst hab)

theorem alike_enter (h : K.Relates w w') (hd : deeper.Agree K deeper') {c d : ConfigClass}
    (f : NameFilter) (hcd : mapViews K.view c = mapViews K.view d) :
    Alike K (enter w deeper c f) (enter w' deeper' d f) := by
  rw [enter, enter, h.skips, h.views.info_record hcd]
  refine alike_bind_same (alike_skips _ _) fun skipped => ?_
  split
  · exact alike_pure rfl
  · refine alike_bind_same (alike_enroll h hcd) fun isNew => ?_
    split
    · exact alike_bind (alike_process h hd f hcd) fun _ _ hrecord => alike_commit h hrecord
    · exact alike_pure rfl

theorem alike_parseDefinition (h : K.Relates w w') (hd : deeper.Agree K deeper')
    {d d' : Definition LoadedType} {beanName : String}
    (hview : mapViews K.view (w.resolver.ofDefinition d beanName) =
      mapViews K.view (w.resolver.ofDefinition d' beanName)) :
    Alike K (parseDefinition w deeper d beanName) (parseDefinition w' deeper' d' beanName) := by
  rw [parseDefinition, parseDefinition, h.resolver]
  refine alike_bind (alike_ofExcept hview) fun v v' hv => hd.enter _ ?_
  exact congrArg (fun u => ConfigClass.explicit u (some beanName)) hv

/-! ### Sources -/

theorem alike_reportCircular (h : K.Relates w w') (c : ClassInfo) :
    Alike K (RunM.reportCircular w c) (RunM.reportCircular w' c) := by
  refine alike_bind alike_get fun s s' hs => ?_
  rw [show s.stack = s'.stack from (congrArg Run.stack hs :)]
  exact h.report _

theorem alike_enterImported (h : K.Relates w w') (hd : deeper.Agree K deeper') (f : NameFilter)
    {c d : ConfigClass} {v v' : View} (hcd : mapViews K.view c = mapViews K.view d)
    (hv : K.view v = K.view v') :
    Alike K (enterImported deeper f c v) (enterImported deeper' f d v') := by
  rw [enterImported, enterImported, h.views.name hv, h.views.name_record hcd]
  exact alike_bind_same (alike_mark _) fun _ => hd.enter f (h.views.imported_congr hv hcd)

theorem alike_enterMember (h : K.Relates w w') (hd : deeper.Agree K deeper') (f : NameFilter)
    {c d : ConfigClass} {m m' : View} (hcd : mapViews K.view c = mapViews K.view d)
    (hm : K.view m = K.view m') :
    Alike K (enterMember w deeper f c m) (enterMember w' deeper' f d m') := by
  rw [enterMember, enterMember, h.views.name_record hcd, h.views.info_record hcd]
  refine alike_bind alike_get fun s s' hs => ?_
  rw [show s.stack = s'.stack from (congrArg Run.stack hs :)]
  split
  · exact alike_reportCircular h _
  · refine alike_bind_same (alike_push _) fun _ => ?_
    exact alike_ensuring (alike_enterImported h hd f hcd hm) (fun _ _ => congrArg RunM.pop)
      fun _ => .of_eq rfl rfl rfl

theorem alike_enterMembers (h : K.Relates w w') (hd : deeper.Agree K deeper') {v v' : View}
    (f : NameFilter) (hv : K.view v = K.view v') :
    Alike K (enterMembers w deeper v f) (enterMembers w' deeper' v' f) := by
  refine alike_bind alike_record fun c d hcd => ?_
  rw [h.resolver, h.views.info_record hcd, h.views.name_record hcd]
  split
  · exact alike_forM (h.views.memberCandidates_congr hv _) fun m m' hm =>
      alike_toRecordM (alike_enterMember h hd f hcd hm)
  · exact alike_pure rfl

theorem alike_enterFound (h : K.Relates w w') (hd : deeper.Agree K deeper')
    (found : NamedDefinition) :
    Alike K (enterFound w deeper found) (enterFound w' deeper' found) := by
  rw [enterFound, enterFound, h.resolver]
  split
  · exact alike_parseDefinition h hd rfl
  · exact alike_pure rfl

theorem alike_enterScanned (h : K.Relates w w') (hd : deeper.Agree K deeper') (className : String)
    (scan : Tag) :
    Alike K (enterScanned w deeper className scan) (enterScanned w' deeper' className scan) := by
  -- what a scan finds depends on nothing in which the two runs may differ
  let scanned (s : Run) := w.scanner.scan (ScanRequest.ofTag scan className s.environment)
    w.resolver.reader s.registry
  have henter (w' : World) (hresolver : w'.resolver = w.resolver)
      (hscanner : w'.scanner = w.scanner) (deeper : Steps) :
      enterScanned w' deeper className scan = (do
        let s ← get
        set { s with registry := (scanned s).2 }
        (← ofExcept (scanned s).1).forM (enterFound w' deeper)) := by
    rw [enterScanned, hresolver, hscanner]
  rw [henter w rfl rfl deeper, henter w' h.resolver h.scanner deeper']
  refine alike_get_set (fun s s' hs => ?_) (fun s => .of_eq rfl rfl rfl) fun s s' hs => ?_
  · exact congrArg (fun u : Run => { u with registry := (scanned u).2 }) hs
  · rw [show scanned s = scanned s' from (congrArg scanned hs :)]
    exact alike_bind_list (alike_ofExcept rfl) (alike_forM_same (alike_enterFound h hd))

theorem alike_enterAllScanned (h : K.Relates w w') (hd : deeper.Agree K deeper') (c : ClassInfo) :
    Alike K (enterAllScanned w deeper c) (enterAllScanned w' deeper' c) := by
  rw [enterAllScanned, enterAllScanned, h.resolver, h.skips]
  split
  · refine alike_bind_same (alike_skips _ _) fun skipped => ?_
    split
    · exact alike_forM_same (alike_enterScanned h hd c.name) _
    · exact alike_pure rfl
  · exact alike_pure rfl

theorem alike_followImports (h : K.Relates w w') (hd : deeper.Agree K deeper') {v v' : View}
    (f : NameFilter) (hv : K.view v = K.view v') :
    Alike K (followImports w deeper v f) (followImports w' deeper' v' f) := by
  rw [followImports, followImports, h.resolver]
  exact alike_bind (alike_ofExcept (h.views.imports_congr hv)) fun us us' hus =>
    hd.imports f true hv hus

theorem alike_addResources (h : K.Relates w w') (c : ClassInfo) :
    Alike K (addResources w c) (addResources w' c) := by
  rw [addResources, addResources, h.resolver]
  split
  · refine alike_forM_same (fun location => alike_bind alike_get fun s s' hs => ?_) _
    obtain ⟨-, hrun⟩ := Collecting.mk.inj hs
    rw [Run.environment_congr hrun]
    refine alike_bind_same (alike_ofExcept rfl) fun resolved => ?_
    refine alike_modifyRecord fun c d hcd => ?_
    exact congrArg (fun e : ConfigClass => e.addResource _ _) hcd
  · exact alike_pure rfl

theorem alike_collectMethods (h : K.Relates w w') {v v' : View} (hv : K.view v = K.view v') :
    Alike K (collectMethods w v) (collectMethods w' v') := by
  rw [collectMethods, collectMethods, h.resolver]
  refine alike_bind alike_record fun c d hcd => ?_
  rw [Resolver.addAllMethods_eq, Resolver.addAllMethods_eq, h.views.allMethods_congr hv]
  have hadded : mapViews K.view ((w.resolver.allMethods v').map c.addMethods) =
      mapViews K.view ((w.resolver.allMethods v').map d.addMethods) := by
    cases w.resolver.allMethods v' with
    | ok ms => exact congrArg Except.ok (h.views.addMethods_congr hcd ms)
    | error e => rfl
  refine alike_bind (alike_ofExcept hadded) fun c d hcd => alike_modifyRecord fun _ _ _ => ?_
  have hsources : mapViews K.view (c.sources ++ [v]) = mapViews K.view (d.sources ++ [v']) := by
    show List.map _ (c.sources ++ [v]) = List.map _ (d.sources ++ [v'])
    rw [List.map_append, List.map_append]
    exact congrArg₂ (fun us u => us ++ [u]) (congrArg ConfigClass.sources hcd) hv
  exact congrArg₂ (fun (e : ConfigClass) us => { e with sources := us }) hcd hsources

theorem alike_takeSuperclass (h : K.Relates w w') {v v' : View} (hv : K.view v = K.view v') :
    Alike K (takeSuperclass w v) (takeSuperclass w' v') := by
  rw [takeSuperclass, takeSuperclass, h.resolver, h.views.info hv]
  split
  · exact alike_pure rfl
  · rename_i name _
    refine alike_bind alike_get fun s s' hs => ?_
    obtain ⟨-, hrun⟩ := Collecting.mk.inj hs
    rw [show s.run.superclassOwners = s'.run.superclassOwners from
      (congrArg Run.superclassOwners hrun :)]
    split
    · exact alike_pure rfl
    · refine alike_bind alike_record fun c d hcd => ?_
      dsimp only
      rw [h.views.name_record hcd]
      refine alike_bind_same (alike_modify (fun s s' hs => ?_) fun _ => .of_eq rfl rfl rfl) fun _ =>
        alike_ofExcept (h.views.superClass_congr hv)
      exact congrArg (fun u : Collecting => { u with run := { u.run with
        superclassOwners := u.run.superclassOwners.insert name d.name } }) hs

theorem alike_processSource (h : K.Relates w w') (hd : deeper.Agree K deeper') {v v' : View}
    (f : NameFilter) (hv : K.view v = K.view v') :
    Alike K (processSource w deeper v f) (processSource w' deeper' v' f) := by
  rw [processSource, processSource, h.views.info hv, h.addDeclaredSources]
  refine alike_bind_same (alike_enterMembers h hd f hv) fun _ => ?_
  refine alike_bind_same (alike_toRecordM (alike_addDeclaredSources _)) fun _ => ?_
  refine alike_bind_same (alike_toRecordM (alike_enterAllScanned h hd _)) fun _ => ?_
  refine alike_bind_same (alike_followImports h hd f hv) fun _ => ?_
  refine alike_bind_same (alike_addResources h _) fun _ => ?_
  exact alike_bind_same (alike_collectMethods h hv) fun _ => alike_takeSuperclass h hv

theorem alike_climb (h : K.Relates w w') (hd : deeper.Agree K deeper') {v v' : View}
    (f : NameFilter) (hv : K.view v = K.view v') :
    Alike K (climb w deeper v f) (climb w' deeper' v' f) := by
  refine alike_bind (alike_processSource h hd f hv) fun next next' hnext => ?_
  cases next with
  | none =>
    obtain rfl := Option.map_eq_none_iff.1 hnext.symm
    exact alike_pure rfl
  | some u =>
    obtain ⟨u', rfl, hu⟩ := Option.map_eq_some_iff.1 hnext.symm
    exact hd.climb f hu.symm

end Step
end Wiring
