import Wiring.Proofs.Comparison.Steps
import Wiring.Run

/-!
# Comparing whole runs

Importing candidates and resolving deferred selectors lead back to the steps one level deeper.  With
them all steps are alike, by induction on how deep a run may go, and so are the calls.
-/

namespace Wiring

variable {K : Comparison} {w w' : World} {deeper deeper' : Steps}

namespace Step

/-! ## Groups of deferred selectors -/

theorem classes_congr {f : View → View} {s s' : Run} (h : mapViews f s = mapViews f s') :
    mapViews f s.classes = mapViews f s'.classes := (congrArg Run.classes h :)

theorem absorb_congr {f : View → View} {c c' d d' : ConfigClass} (hc : mapViews f c = mapViews f c')
    (hd : mapViews f d = mapViews f d') :
    mapViews f (c.absorb d) = mapViews f (c'.absorb d') := by
  have habsorb (c d : ConfigClass) :
      mapViews f (c.absorb d) = (mapViews f c).absorb (mapViews f d) := by
    have hsources : (c.sources ++ d.sources).map (mapViews f) =
        c.sources.map (mapViews f) ++ d.sources.map (mapViews f) := List.map_append
    exact congrArg
      (fun us : List View => { (mapViews f c).absorb (mapViews f d) with sources := us }) hsources
  rw [habsorb, habsorb, hc, hd]

/-- What was collected on a scratch record goes to the committed class. -/
def absorbed (name : String) (scratch : ConfigClass) (s : Run) : Run :=
  { s with classes := s.classes.modify name (·.absorb scratch) }

theorem absorbed_congr {f : View → View} {c d : ConfigClass} {s s' : Run}
    (hcd : mapViews f c = mapViews f d) (hs : mapViews f s = mapViews f s') (name : String) :
    mapViews f (absorbed name c s) = mapViews f (absorbed name d s') := by
  have hclasses := OrderedMap.mapViews_modify_congr f (classes_congr hs)
    (fun _ _ h => absorb_congr h hcd) name
  exact (congrArg₂ (fun (u : Run) m => { u with classes := m }) hs hclasses :)

theorem alike_importEntry (h : K.Relates w w') (hd : deeper.Agree K deeper') (f : NameFilter)
    (e : GroupEntry) : Alike K (importEntry w deeper f e) (importEntry w' deeper' f e) := by
  refine alike_bind alike_record fun c d hcd => ?_
  rw [h.views.name_record hcd, h.resolver]
  refine alike_within _ _ (alike_bind (alike_ofExcept rfl) fun u u' hu => ?_)
  refine hd.imports f false (h.views.filtered (congrArg ConfigClass.view hcd) f) ?_
  exact congrArg (fun u => [u]) hu

theorem scratchFor_congr {f : View → View} {s s' : Run} {origins origins' : Origins}
    (hs : mapViews f s = mapViews f s') (horigins : mapViews f origins = mapViews f origins')
    (name : String) :
    mapViews f (scratchFor s origins name) = mapViews f (scratchFor s' origins' name) := by
  have hcommitted := OrderedMap.get?_congr (classes_congr hs) name
  have horigin := OrderedMap.get?_congr horigins name
  rw [scratchFor, scratchFor]
  generalize s.classes.get? name = c, s'.classes.get? name = c' at hcommitted
  generalize origins.get? name = v, origins'.get? name = v' at horigin
  cases c with
  | some c =>
    obtain ⟨c', rfl, hc⟩ := Option.map_eq_some_iff.1 hcommitted.symm
    exact (congrArg (fun e : ConfigClass => Except.ok (ε := Failure) e.detached) hc.symm :)
  | none =>
    obtain rfl := Option.map_eq_none_iff.1 hcommitted.symm
    cases v with
    | some v =>
      obtain ⟨v', rfl, hv⟩ := Option.map_eq_some_iff.1 horigin.symm
      exact (congrArg (fun u => Except.ok (ε := Failure) (ConfigClass.explicit u none)) hv.symm :)
    | none =>
      obtain rfl := Option.map_eq_none_iff.1 horigin.symm
      rfl

theorem importForClass_eq (origins : Origins) (f : NameFilter) (e : GroupEntry) :
    importForClass w deeper origins f e = (do
      let scratch ← ofExcept (scratchFor (← get) origins e.origin.name)
      Prod.snd <$> settle (absorbed e.origin.name) scratch (importEntry w deeper f e)) := by
  simp only [importForClass, map_snd_settle]
  rfl

theorem alike_importForClass (h : K.Relates w w') (hd : deeper.Agree K deeper')
    {origins origins' : Origins} (horigins : mapViews K.view origins = mapViews K.view origins')
    (f : NameFilter) (e : GroupEntry) :
    Alike K (importForClass w deeper origins f e) (importForClass w' deeper' origins' f e) := by
  rw [importForClass_eq, importForClass_eq]
  refine alike_bind alike_get fun s s' hs => ?_
  refine alike_bind (alike_ofExcept (scratchFor_congr hs horigins _)) fun c d hcd => ?_
  have hsettled := alike_settle (absorbed e.origin.name) (alike_importEntry h hd f e) hcd
    (fun _ _ _ _ hcd hs => absorbed_congr hcd hs _) fun _ _ => .of_eq rfl rfl rfl
  rw [map_eq_pure_bind, map_eq_pure_bind]
  exact alike_bind hsettled fun _ _ _ => alike_pure rfl

theorem alike_importForRecord (h : K.Relates w w') (hd : deeper.Agree K deeper')
    {origins origins' : Origins} (horigins : mapViews K.view origins = mapViews K.view origins')
    (f : NameFilter) (e : GroupEntry) :
    Alike K (importForRecord w deeper origins f e) (importForRecord w' deeper' origins' f e) := by
  refine alike_bind alike_record fun c d hcd => ?_
  rw [h.views.name_record hcd]
  split
  · exact alike_importEntry h hd f e
  · exact alike_toRecordM (alike_importForClass h hd horigins f e)

theorem alike_forEntries {σ : Type} [HasRun σ] [HasViews σ] [MonadLiftT RunM (EStateM Failure σ)]
    (hclosed : K.onlyClosed = true) (h : K.Relates w w')
    (hlift : ∀ {α : Type} [HasViews α] {x y : RunM α}, Alike K x y →
      Alike K (liftM x : EStateM Failure σ α) (liftM y))
    {ds ds' : List Deferred} (hds : mapViews K.view ds = mapViews K.view ds')
    {act act' : NameFilter → GroupEntry → EStateM Failure σ Unit}
    (hact : ∀ f e, Alike K (act f e) (act' f e)) :
    Alike K (forEntries w ds act) (forEntries w' ds' act') := by
  rw [forEntries, forEntries, h.ofDeferred, h.resolver]
  refine alike_bind (hlift (alike_ofDeferred hds)) fun gs gs' hgs => ?_
  refine alike_forM hgs fun g g' hg => ?_
  refine alike_bind_list (hlift (alike_entries hclosed h.views.toBlind hg)) fun entries => ?_
  rw [← Grouping.filter_mapViews (f := K.view) g, hg, Grouping.filter_mapViews]
  exact alike_forM_same (hact _) entries

theorem ofDeferred_congr {f : View → View} {r : Resolver} (hr : r.Blind f) {ds ds' : List Deferred}
    (h : mapViews f ds = mapViews f ds') :
    mapViews f (Origins.ofDeferred ds) = mapViews f (Origins.ofDeferred ds') := by
  have howners : (ds.map Deferred.owner).map f = (ds'.map Deferred.owner).map f := by
    have howners := congrArg (List.map Deferred.owner) (show List.map _ ds = List.map _ ds' from h)
    rw [List.map_map, List.map_map] at howners
    rw [List.map_map, List.map_map]
    exact howners
  have hshown := hr.shown_foldl_congr howners (rfl : Resolver.shown f {} = Resolver.shown f {})
  rw [List.foldl_map, List.foldl_map] at hshown
  exact congrArg OrderedMap.mk hshown

theorem alike_resolveDeferred (hclosed : K.onlyClosed = true) (h : K.Relates w w')
    (hd : deeper.Agree K deeper') {ds ds' : List Deferred}
    (hds : mapViews K.view ds = mapViews K.view ds') :
    Alike K (resolveDeferred w deeper ds) (resolveDeferred w' deeper' ds') :=
  alike_forEntries hclosed h (fun hxy => hxy) hds
    (alike_importForClass h hd (ofDeferred_congr h.views.toBlind hds))

theorem defer_of_open {d : Deferred} {s : Collecting} {queue : List Deferred}
    (h : s.run.queue = some queue) :
    defer w deeper d s = .ok () { s with run := { s.run with queue := some (queue ++ [d]) } } := by
  refine get_bind_eq.2 ?_
  rw [h]
  rfl

theorem defer_of_closed {d : Deferred} {s : Collecting} (h : s.run.queue = none) :
    defer w deeper d s = forEntries w [d] (importForRecord w deeper (.ofDeferred [d])) s := by
  refine get_bind_eq.2 ?_
  rw [h]

theorem alike_defer (h : K.Relates w w') (hd : deeper.Agree K deeper') {d d' : Deferred}
    (hdd : mapViews K.view d = mapViews K.view d') :
    Alike K (defer w deeper d) (defer w' deeper' d') := by
  intro s s' hs hstarts
  have hrun : mapViews K.view s.run = mapViews K.view s'.run := (congrArg Collecting.run hs :)
  have hqueue : mapViews K.view s.run.queue = mapViews K.view s'.run.queue :=
    (congrArg Run.queue hrun :)
  cases hopen : s.run.queue with
  | some queue =>
    rw [hopen] at hqueue
    obtain ⟨queue', hopen', hqueues⟩ := Option.map_eq_some_iff.1 hqueue.symm
    rw [defer_of_open hopen, defer_of_open hopen']
    have hgrown : mapViews K.view (queue ++ [d]) = mapViews K.view (queue' ++ [d']) := by
      show List.map _ (queue ++ [d]) = List.map _ (queue' ++ [d'])
      rw [List.map_append, List.map_append]
      exact congrArg₂ (fun ds e => ds ++ [e]) hqueues.symm hdd
    refine .ok rfl ?_ (K.keeps_tacit ⟨rfl, rfl, .inr ⟨queue, [d], hopen, rfl⟩⟩)
    exact congrArg₂ (fun (u : Collecting) ds => { u with run := { u.run with queue := some ds } })
      hs hgrown
  | none =>
    rw [hopen] at hqueue
    have hopen' := Option.map_eq_none_iff.1 hqueue.symm
    rw [defer_of_closed hopen, defer_of_closed hopen']
    -- the selector is asked at once, which is compared only because the queue is closed here
    have hds : mapViews K.view [d] = mapViews K.view [d'] := congrArg (fun e => [e]) hdd
    have hentries := alike_forEntries rfl h.closed (fun hxy => alike_toRecordM hxy) hds
      (alike_importForRecord h.closed hd.closed (ofDeferred_congr h.views.toBlind hds))
    exact (hentries s s' hs fun _ => hopen).of_closed

/-! ## Import candidates -/

theorem alike_importSelected (h : K.Relates w w') (hd : deeper.Agree K deeper') {v v' : View}
    (f : NameFilter) (typeName : String) (s : Selector) (hv : K.view v = K.view v') :
    Alike K (importSelected w deeper v f typeName s)
      (importSelected w' deeper' v' f typeName s) := by
  rw [importSelected, importSelected, h.views.name hv, h.views.info hv, h.resolver]
  refine alike_bind_same (alike_toRecordM (alike_emit (.inl rfl))) fun _ => ?_
  refine alike_bind (alike_ofExcept rfl) fun us us' hus => ?_
  refine alike_bind_same (alike_toRecordM (h.descend _)) fun _ => ?_
  refine alike_ensuring (hd.imports f false hv hus) (fun s s' hs => ?_) fun _ => .of_eq rfl rfl rfl
  exact congrArg (fun u : Collecting => { u with run := RunM.ascend u.run }) hs

theorem alike_importSelector (h : K.Relates w w') (hd : deeper.Agree K deeper') {v v' u u' : View}
    (f : NameFilter) (hv : K.view v = K.view v') (hu : K.view u = K.view u') :
    Alike K (importSelector w deeper v f u) (importSelector w' deeper' v' f u') := by
  rw [importSelector, importSelector, h.resolver, h.views.load hu, h.produce]
  refine alike_bind_same (alike_ofExcept rfl) fun t => ?_
  refine alike_bind_same (alike_toRecordM (alike_produce t)) fun s => ?_
  split
  · exact alike_bind_same (alike_importSelected h hd _ _ _ hv) fun _ => alike_pure rfl
  · rename_i s
    refine alike_bind alike_record fun c d hcd => ?_
    refine alike_bind_same (alike_defer h hd ?_) fun _ => alike_pure rfl
    exact congrArg (fun owner => Deferred.mk owner t.name s (s.order.getD t.info.order))
      (congrArg ConfigClass.view hcd)
  · exact alike_toRecordM (alike_mismatch _ _ _)

theorem alike_importRegistrar (h : K.Relates w w') {v v' u u' : View} (hv : K.view v = K.view v')
    (hu : K.view u = K.view u') : Alike K (importRegistrar w v u) (importRegistrar w' v' u') := by
  rw [importRegistrar, importRegistrar, h.resolver, h.views.load hu, h.views.info hv,
    h.produceRegistrar]
  refine alike_bind_same (alike_ofExcept rfl) fun t => ?_
  refine alike_bind_same (alike_toRecordM (alike_produceRegistrar t)) fun registrar => ?_
  exact alike_modifyRecord fun c d hcd =>
    congrArg (fun e : ConfigClass => e.attach ⟨t.name, registrar, v'.info⟩) hcd

theorem alike_importClass (h : K.Relates w w') (hd : deeper.Agree K deeper') {v v' u u' : View}
    (f : NameFilter) (hv : K.view v = K.view v') (hu : K.view u = K.view u') :
    Alike K (importClass deeper v f u) (importClass deeper' v' f u') := by
  rw [importClass, importClass, h.views.info hv, h.views.name hu]
  refine alike_bind_same (alike_modify (fun s s' hs => ?_) fun _ => .of_eq rfl rfl rfl) fun _ => ?_
  · exact congrArg (fun c : Collecting => { c with run := { c.run with
      importers := c.run.importers.register v'.info u'.name } }) hs
  · exact alike_bind alike_record fun c d hcd =>
      alike_toRecordM (alike_enterImported h hd f hcd hu)

theorem alike_importEach (h : K.Relates w w') (hd : deeper.Agree K deeper') {v v' : View}
    (f : NameFilter) {us us' : List View} (hv : K.view v = K.view v')
    (hus : mapViews K.view us = mapViews K.view us') :
    Alike K (importEach w deeper v f us) (importEach w' deeper' v' f us') := by
  replace hus := forall₂_of_mapViews hus
  induction hus generalizing f with
  | nil => exact alike_pure rfl
  | cons hu _ ih =>
    rw [importEach, importEach, h.resolver, h.views.isAssignable hu, h.views.isAssignable hu,
      h.views.isObject hu]
    split
    · exact alike_bind_same (alike_importSelector h hd f hv hu) fun f => ih f
    · dsimp only
      split
      · exact alike_bind_same (alike_importRegistrar h hv hu) fun _ => ih f
      · split
        · exact alike_bind_same (alike_importClass h hd f hv hu) fun _ => ih f
        · exact ih f

theorem alike_imports (h : K.Relates w w') (hd : deeper.Agree K deeper') {v v' : View}
    {us us' : List View} (f : NameFilter) (checksCycles : Bool) (hv : K.view v = K.view v')
    (hus : mapViews K.view us = mapViews K.view us') :
    Alike K (imports w deeper v us f checksCycles) (imports w' deeper' v' us' f checksCycles) := by
  have hempty : us.isEmpty = us'.isEmpty := by
    rw [← List.isEmpty_map, show us.map K.view = us'.map K.view from hus, List.isEmpty_map]
  rw [imports, imports, hempty]
  split
  · exact alike_pure rfl
  · refine alike_bind alike_record fun c d hcd => alike_bind alike_get fun s s' hs => ?_
    obtain ⟨-, hrun⟩ := Collecting.mk.inj hs
    dsimp only
    rw [show s.run.stack = s'.run.stack from (congrArg Run.stack hrun :),
      show s.run.importers = s'.run.importers from (congrArg Run.importers hrun :),
      h.views.name_record hcd, h.views.info_record hcd]
    split
    · exact alike_toRecordM (alike_reportCircular h _)
    · refine alike_bind_same (alike_toRecordM (alike_push _)) fun _ => alike_within _ _ ?_
      refine alike_ensuring (alike_importEach h hd f hv hus) (fun s s' hs => ?_)
        fun _ => .of_eq rfl rfl rfl
      exact congrArg (fun u : Collecting => { u with run := RunM.pop u.run }) hs

end Step

namespace Run

/-- By induction on how deep the steps may go. -/
theorem agree_steps (h : K.Relates w w') (fuel : Nat) : (steps w fuel).Agree K (steps w' fuel) := by
  induction fuel with
  | zero =>
    exact ⟨fun _ _ => alike_throw _, fun _ _ => alike_throw _, fun _ _ _ _ => alike_throw _⟩
  | succ fuel ih =>
    exact ⟨fun f hcd => Step.alike_enter h ih f hcd, fun f hv => Step.alike_climb h ih f hv,
      fun f checksCycles hv hus => Step.alike_imports h ih f checksCycles hv hus⟩

theorem agree_stepsOf (h : K.Relates w w') : (stepsOf w).Agree K (stepsOf w') := by
  rw [stepsOf, stepsOf, h.fuel]
  exact agree_steps h w.fuel

/-! ## Calls -/

/-- Two seeds stand for the same class, by views that look the same. -/
structure SameSeed (r : Resolver) (f : View → View) (seed seed' : NamedDefinition) : Prop where
  beanName : seed.beanName = seed'.beanName
  className : seed.definition.className = seed'.definition.className
  view : mapViews f (r.ofDefinition seed.definition seed.beanName) =
    mapViews f (r.ofDefinition seed'.definition seed'.beanName)

theorem sameSeeds_refl (r : Resolver) (f : View → View) (seeds : List NamedDefinition) :
    List.Forall₂ (SameSeed r f) seeds seeds :=
  List.forall₂_same.2 fun _ _ => ⟨rfl, rfl, rfl⟩

theorem alike_parseSeed (h : K.Relates w w') {seed seed' : NamedDefinition}
    (hseed : SameSeed w.resolver K.view seed seed') :
    Alike K (parseSeed w seed) (parseSeed w' seed') := by
  have hview := hseed.view
  rw [parseSeed, parseSeed, hseed.className, hseed.beanName]
  rw [hseed.beanName] at hview
  split
  · exact alike_throw _
  · exact alike_within _ _ (Step.alike_parseDefinition h (agree_stepsOf h) hview)

theorem alike_parseSeeds (h : K.Relates w w') {seeds seeds' : List NamedDefinition}
    (hseeds : List.Forall₂ (SameSeed w.resolver K.view) seeds seeds') :
    Alike K (parseSeeds w seeds) (parseSeeds w' seeds') := by
  induction hseeds with
  | nil => exact alike_pure rfl
  | cons hseed _ ih => exact alike_bind_same (alike_parseSeed h hseed) fun _ => ih

/-- Whatever is compared, the queue may be closed for a while. -/
structure Reopens (K : Comparison) : Prop where
  keeps : ∀ {s t : Run}, s.queue.isSome = true → K.Keeps { s with queue := none } t →
    K.Keeps s { t with queue := some [] }
  cuts : ∀ {s t t' : Run} {e : Failure}, s.queue.isSome = true →
    K.Cuts { s with queue := none } e t t' →
    K.Cuts s e { t with queue := some [] } { t' with queue := some [] }

theorem resolveDeferred_of_open {s : Run} {queue : List Deferred} (h : s.queue = some queue) :
    resolveDeferred w s = ensuring (fun s => { s with queue := some [] })
      (Step.resolveDeferred w (stepsOf w) (queue.mergeSort fun a b => a.order ≤ b.order))
      { s with queue := none } := by
  refine get_bind_eq.2 ?_
  rw [h]
  rfl

theorem resolveDeferred_of_closed {s : Run} (h : s.queue = none) :
    resolveDeferred w s = .ok () s := by
  refine get_bind_eq.2 ?_
  rw [h]
  rfl

theorem alike_resolveDeferred (hK : Reopens K) (h : K.Relates w w') :
    Alike K (resolveDeferred w) (resolveDeferred w') := by
  intro s s' hs _
  have hqueue : mapViews K.view s.queue = mapViews K.view s'.queue := (congrArg Run.queue hs :)
  cases hopen : s.queue with
  | none =>
    rw [hopen] at hqueue
    rw [resolveDeferred_of_closed hopen,
      resolveDeferred_of_closed (Option.map_eq_none_iff.1 hqueue.symm)]
    exact .ok rfl hs (keeps_refl _)
  | some queue =>
    rw [hopen] at hqueue
    obtain ⟨queue', hopen', hqueues⟩ := Option.map_eq_some_iff.1 hqueue.symm
    have hsome : s.queue.isSome = true := by rw [hopen]; rfl
    rw [resolveDeferred_of_open hopen, resolveDeferred_of_open hopen']
    have hsorted (ds : List Deferred) :
        mapViews K.view (ds.mergeSort fun a b => a.order ≤ b.order) =
          (mapViews K.view ds).mergeSort fun a b => a.order ≤ b.order :=
      List.map_mergeSort fun _ _ _ _ => rfl
    have hds : mapViews K.view (queue.mergeSort fun a b => a.order ≤ b.order) =
        mapViews K.view (queue'.mergeSort fun a b => a.order ≤ b.order) := by
      rw [hsorted, hsorted]
      exact congrArg (fun ds : List Deferred => ds.mergeSort fun a b => a.order ≤ b.order)
        hqueues.symm
    -- the queue is closed meanwhile, so these are steps of the comparison that begins closed
    have hresolve := Step.alike_resolveDeferred rfl h.closed (agree_stepsOf h.closed) hds
    have hmeets := hresolve { s with queue := none } { s' with queue := none }
      (congrArg (fun u : Run => { u with queue := none }) hs) fun _ => rfl
    unfold ensuring
    generalize Step.resolveDeferred w _ _ _ = rx at hmeets ⊢
    generalize Step.resolveDeferred w' _ _ _ = ry at hmeets ⊢
    cases hmeets with
    | ok hab ht hkeeps =>
      exact .ok hab (congrArg (fun u : Run => { u with queue := some [] }) ht)
        (hK.keeps hsome hkeeps)
    | error ht hkeeps =>
      exact .error (congrArg (fun u : Run => { u with queue := some [] }) ht)
        (hK.keeps hsome hkeeps)
    | cut hcuts =>
      refine .cut ?_
      cases rx with
      | ok a t => exact hK.cuts hsome hcuts
      | error e t => exact hK.cuts hsome hcuts

theorem alike_parse (hK : Reopens K) (h : K.Relates w w') {seeds seeds' : List NamedDefinition}
    (hseeds : List.Forall₂ (SameSeed w.resolver K.view) seeds seeds') :
    Alike K (parse w seeds) (parse w' seeds') :=
  alike_bind_same (alike_parseSeeds h hseeds) fun _ => alike_resolveDeferred hK h

end Run
end Wiring
