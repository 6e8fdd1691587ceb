import Wiring.Proofs.Comparison

/-!
# Comparing steps on the side

Asking conditions, producing strategies, adding property sources and grouping deferred selectors
are alike in all runs that are compared: none of them looks at a view, apart from the names and the
metadata, or at anything else in which the runs may differ.
-/

namespace Wiring

variable {K : Comparison} {w : World}

/-! ## Strategies -/

theorem alike_emit {e : Event} (he : e.isDeferral = false ∨ K.onlyClosed = true) :
    Alike K (RunM.emit e) (RunM.emit e) := by
  intro s s' hs hstarts
  refine .ok rfl ?_ (K.keeps_emit (he.imp_right hstarts))
  exact congrArg (fun u : Run => { u with events := u.events ++ [e] }) hs

theorem alike_produce (t : LoadedType) : Alike K (RunM.produce w t) (RunM.produce w t) := by
  rw [RunM.produce]
  split
  · exact alike_throw _
  · rename_i maker _
    refine alike_bind_same (alike_emit (.inl rfl)) fun _ => ?_
    refine alike_bind_same (alike_modify (fun s s' hs => ?_) fun _ => .of_eq rfl rfl rfl)
      fun _ => ?_
    · exact congrArg (fun u : Run =>
        { u with environment := u.environment.modifySources maker.effect }) hs
    · refine alike_bind alike_get fun s s' hs => ?_
      rw [RunM.surroundings_congr hs]
      split
      · exact alike_pure rfl
      · exact alike_throw _

theorem alike_loadType (className : String) :
    Alike K (RunM.loadType w className) (RunM.loadType w className) := by
  rw [RunM.loadType]
  split
  · exact alike_pure rfl
  · exact alike_throw _

theorem alike_mismatch {α : Type} [HasViews α] (className : String) (expected : StrategyKind)
    (s : Strategy) :
    Alike K (RunM.mismatch className expected s : RunM α) (RunM.mismatch className expected s) :=
  alike_throw _

theorem alike_produceRegistrar (t : LoadedType) :
    Alike K (RunM.produceRegistrar w t) (RunM.produceRegistrar w t) := by
  refine alike_bind_same (alike_produce t) fun s => ?_
  cases s with
  | registrar r => exact alike_pure rfl
  | _ => exact alike_mismatch _ _ _

theorem alike_produceGroup (className : String) :
    Alike K (RunM.produceGroup w className) (RunM.produceGroup w className) := by
  refine alike_bind_same (alike_loadType className) fun t => ?_
  refine alike_bind_same (alike_produce t) fun s => ?_
  cases s with
  | group g => exact alike_pure rfl
  | _ => exact alike_mismatch _ _ _

theorem alike_produceSourceFactory (className : String) :
    Alike K (RunM.produceSourceFactory w className) (RunM.produceSourceFactory w className) := by
  refine alike_bind_same (alike_loadType className) fun t => ?_
  refine alike_bind_same (alike_produce t) fun s => ?_
  cases s with
  | sourceFactory f => exact alike_pure rfl
  | _ => exact alike_mismatch _ _ _

theorem alike_produceCondition (className : String) :
    Alike K (RunM.produceCondition w className) (RunM.produceCondition w className) := by
  refine alike_bind_same (alike_loadType className) fun t => ?_
  refine alike_bind_same (alike_produce t) fun s => ?_
  cases s with
  | condition c => exact alike_pure rfl
  | _ => exact alike_mismatch _ _ _

theorem alike_allHold (c : ClassInfo) (phase : Phase) (os : List RunM.OrderedCondition) :
    Alike K (RunM.allHold w c phase os) (RunM.allHold w c phase os) := by
  induction os with
  | nil => exact alike_pure rfl
  | cons o os ih =>
    rw [RunM.allHold]
    split
    · refine alike_bind_same (alike_emit (.inl rfl)) fun _ => ?_
      refine alike_bind alike_get fun s s' hs => ?_
      rw [RunM.surroundings_congr hs]
      split
      · exact ih
      · exact alike_pure rfl
    · exact ih

/-- Conditions are asked whatever becomes of problems and however deep a run may go. -/
theorem RunM.allHold_eq (w : World) (isFailFast : Bool) (maxDepth : Nat) :
    allHold { w with isFailFast, maxDepth } = allHold w := by
  funext c phase os
  induction os with
  | nil => rfl
  | cons o os ih =>
    rw [allHold, allHold, ih]
    rfl

theorem alike_skips (c : ClassInfo) (phase : Phase) :
    Alike K (RunM.skips w c phase) (RunM.skips w c phase) := by
  rw [RunM.skips]
  split
  · exact alike_pure rfl
  · refine alike_bind alike_get fun s s' hs => ?_
    rw [Run.environment_congr hs]
    split
    · exact alike_pure rfl
    · refine alike_bind_list (alike_mapM rfl fun a b hab => ?_) fun conditions => ?_
      · obtain rfl : a = b := hab
        exact alike_produceCondition a
      · exact alike_bind_same (alike_allHold c phase _) fun _ => alike_pure rfl

/-! ## Property sources -/

theorem alike_addSource (source : PropertySource) :
    Alike K (RunM.addSource source) (RunM.addSource source) := by
  intro s s' hs _
  have hadded : s.addedSources = s'.addedSources := (congrArg Run.addedSources hs :)
  rw [RunM.addSource, get_bind_apply, get_bind_apply, Run.environment_congr hs, hadded]
  generalize s'.environment.sources.accumulate s'.addedSources source = grown
  obtain ⟨sources, added⟩ := grown
  cases added with
  | ok addedSources =>
    have hgrown := congrArg (fun u : Run =>
      { u with environment := { s'.environment with sources }, addedSources }) hs
    exact .ok rfl hgrown (K.keeps_tacit (.of_eq rfl rfl rfl))
  | error e =>
    have hgrown := congrArg (fun u : Run =>
      { u with
        environment := { s'.environment with sources }, addedSources := s'.addedSources }) hs
    exact .error hgrown (K.keeps_tacit (.of_eq rfl rfl rfl))

theorem alike_sourceLoader (className : Option String) :
    Alike K (RunM.sourceLoader w className) (RunM.sourceLoader w className) := by
  rw [RunM.sourceLoader]
  split
  · exact alike_bind_same (alike_produceSourceFactory _) fun _ => alike_pure rfl
  · exact alike_pure rfl

theorem alike_loadSource (loader : RunM.SourceLoader) (name encoding : Option String)
    (location : String) :
    Alike K (RunM.loadSource w loader name encoding location)
      (RunM.loadSource w loader name encoding location) := by
  refine alike_bind alike_get fun s s' hs => ?_
  rw [Run.environment_congr hs]
  refine alike_bind_same (alike_ofExcept rfl) fun resolved => ?_
  dsimp only
  split
  · exact alike_bind_same (alike_emit (.inl rfl)) fun _ => alike_ofExcept rfl
  · exact alike_ofExcept rfl

theorem alike_addLocations (loader : RunM.SourceLoader) (name encoding : Option String)
    (mayMiss : Bool) (locations : List String) :
    Alike K (RunM.addLocations w loader name encoding mayMiss locations)
      (RunM.addLocations w loader name encoding mayMiss locations) := by
  induction locations with
  | nil => exact alike_pure rfl
  | cons location locations ih =>
    rw [RunM.addLocations]
    -- a failure to load is none that ends the second run only
    have hload : Alike K.uncut _ _ := alike_loadSource (w := w) loader name encoding location
    refine alike_bind (alike_tryCatch (alike_map_same some hload) fun e => ?_) fun a b hab => ?_
    · split
      · exact alike_pure rfl
      · exact alike_throw e
    · obtain rfl : a = b := by simpa [mapViews] using hab
      split
      · exact alike_bind_same (alike_addSource _) fun _ => ih
      · exact ih

theorem RunM.addLocations_eq (w : World) (isFailFast : Bool) (maxDepth : Nat) :
    addLocations { w with isFailFast, maxDepth } = addLocations w := by
  funext loader name encoding mayMiss locations
  induction locations with
  | nil => rfl
  | cons location locations ih =>
    rw [addLocations, addLocations, ih]
    rfl

theorem alike_addTaggedSources (className : String) (t : Tag) :
    Alike K (RunM.addTaggedSources w className t) (RunM.addTaggedSources w className t) := by
  rw [RunM.addTaggedSources]
  dsimp only
  split
  · exact alike_bind_same (alike_throw _) fun _ =>
      alike_bind_same (alike_sourceLoader _) fun loader => alike_addLocations loader _ _ _ _
  · exact alike_bind_same (alike_sourceLoader _) fun loader => alike_addLocations loader _ _ _ _

theorem alike_addDeclaredSources (c : ClassInfo) :
    Alike K (RunM.addDeclaredSources w c) (RunM.addDeclaredSources w c) := by
  refine alike_forM_same (fun t => ?_) _
  refine alike_bind alike_get fun s s' hs => ?_
  rw [Run.environment_congr hs]
  split
  · exact alike_addTaggedSources c.name t
  · exact alike_pure rfl

/-! ## Groups of deferred selectors -/

namespace Grouping

variable {f : View → View}

theorem mapViews_join (g : Grouping) (d : Deferred) :
    mapViews f (g.join d) = (mapViews f g).join (mapViews f d) :=
  congrArg (Grouping.mk g.groupType g.group) List.map_append

theorem filter_mapViews (g : Grouping) (default : NameFilter) :
    (mapViews f g).filter default = g.filter default := List.foldl_map

end Grouping

theorem alike_createGroup (groupType : Option String) :
    Alike K (RunM.createGroup w groupType) (RunM.createGroup w groupType) := by
  cases groupType with
  | none => exact alike_pure rfl
  | some className => exact alike_produceGroup className

theorem alike_groupingAdd {gs gs' : Groupings} {d d' : Deferred}
    (hgs : mapViews K.view gs = mapViews K.view gs') (hd : mapViews K.view d = mapViews K.view d') :
    Alike K (Grouping.add w gs d) (Grouping.add w gs' d') := by
  have hselector : d.selector = d'.selector := (congrArg Deferred.selector hd :)
  rw [Grouping.add, Grouping.add, hselector, OrderedMap.size_congr hgs,
    OrderedMap.contains_congr hgs]
  split
  · refine alike_pure (OrderedMap.mapViews_modify_congr _ hgs (fun g g' hg => ?_) _)
    rw [Grouping.mapViews_join, Grouping.mapViews_join, hg, hd]
  · refine alike_bind_same (alike_createGroup _) fun group => alike_pure ?_
    rw [OrderedMap.mapViews_insert, OrderedMap.mapViews_insert, hgs]
    exact congrArg (fun e => (mapViews K.view gs').insert _ (Grouping.mk _ group [e])) hd

theorem alike_ofDeferred {ds ds' : List Deferred} (h : mapViews K.view ds = mapViews K.view ds') :
    Alike K (Grouping.ofDeferred w ds) (Grouping.ofDeferred w ds') :=
  alike_bind (alike_foldlM h (fun _ _ _ _ hd hgs => alike_groupingAdd hgs hd) rfl)
    fun _ _ hgs => alike_pure (OrderedMap.values_congr hgs)

/-- Deferred selectors are asked only while the queue is closed. -/
theorem alike_groupingProcess (hclosed : K.onlyClosed = true) {r : Resolver} (hr : r.Blind K.view)
    {g g' : Grouping} {d d' : Deferred} (hg : mapViews K.view g = mapViews K.view g')
    (calls : List GroupCall) (hd : mapViews K.view d = mapViews K.view d') :
    Alike K (g.process calls d) (g'.process calls d') := by
  have htype : g.groupType = g'.groupType := (congrArg Grouping.groupType hg :)
  have hgroup : g.group = g'.group := (congrArg Grouping.group hg :)
  have htypeName : d.typeName = d'.typeName := (congrArg Deferred.typeName hd :)
  have hselector : d.selector = d'.selector := (congrArg Deferred.selector hd :)
  have howner : d.owner.info = d'.owner.info := hr.info (congrArg Deferred.owner hd :)
  rw [Grouping.process, Grouping.process, htype, hgroup, htypeName, hselector, howner]
  exact alike_bind_same (alike_emit (.inr hclosed)) fun _ =>
    alike_bind_same (alike_forM_same (fun _ => alike_emit (.inr hclosed)) _) fun _ =>
      alike_pure rfl

theorem alike_entries (hclosed : K.onlyClosed = true) {r : Resolver} (hr : r.Blind K.view)
    {g g' : Grouping} (hg : mapViews K.view g = mapViews K.view g') :
    Alike K g.entries g'.entries := by
  have htype : g.groupType = g'.groupType := (congrArg Grouping.groupType hg :)
  have hgroup : g.group = g'.group := (congrArg Grouping.group hg :)
  have hmembers : mapViews K.view g.members = mapViews K.view g'.members :=
    (congrArg Grouping.members hg :)
  rw [Grouping.entries, Grouping.entries, htype, hgroup]
  refine alike_bind_list (alike_foldlM hmembers (fun _ _ calls calls' hd hcalls => ?_) rfl) ?_
  · obtain rfl : calls = calls' := by simpa [mapViews] using hcalls
    exact alike_groupingProcess hclosed hr hg calls hd
  · exact fun calls => alike_bind_same (alike_emit (.inr hclosed)) fun _ => alike_pure rfl

end Wiring
