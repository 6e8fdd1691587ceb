import Wiring.Proofs.Failures
import Wiring.Proofs.Outcome
import Wiring.Run.Deferred

/-!
# Steps on the side

Asking conditions, producing strategies and adding property sources do not touch the course of
a run: what is committed, claimed, queued, registered or in progress.
-/

namespace Wiring

/-- The runs differ at most in their environment, their events and the property sources they
added. -/
structure Run.SameCourse (s t : Run) : Prop where
  registry : t.registry = s.registry
  classes : t.classes = s.classes
  superclassOwners : t.superclassOwners = s.superclassOwners
  stack : t.stack = s.stack
  importers : t.importers = s.importers
  queue : t.queue = s.queue
  problems : t.problems = s.problems
  depth : t.depth = s.depth
  history : t.history = s.history
  levels : t.levels = s.levels

namespace Run.SameCourse

theorem refl (s : Run) : s.SameCourse s := by constructor <;> rfl

theorem trans {s t u : Run} (h : s.SameCourse t) (h' : t.SameCourse u) : s.SameCourse u where
  registry := h'.registry.trans h.registry
  classes := h'.classes.trans h.classes
  superclassOwners := h'.superclassOwners.trans h.superclassOwners
  stack := h'.stack.trans h.stack
  importers := h'.importers.trans h.importers
  queue := h'.queue.trans h.queue
  problems := h'.problems.trans h.problems
  depth := h'.depth.trans h.depth
  history := h'.history.trans h.history
  levels := h'.levels.trans h.levels

/-- What the runs differ in. -/
theorem eq_of_sameCourse {s t : Run} (h : s.SameCourse t) :
    t = { s with
      environment := t.environment, events := t.events, addedSources := t.addedSources } := by
  obtain ⟨registry, classes, owners, stack, importers, queue, problems, depth, history,
    levels⟩ := h
  cases t
  dsimp only at registry classes owners stack importers queue problems depth history levels
  subst registry classes owners stack importers queue problems depth history levels
  rfl

end Run.SameCourse

/-- The step stays on the course of the run, and if it fails, the failure is plain. -/
structure Quiet {α : Type} (act : RunM α) : Prop where
  ok : ∀ {s t : Run} {a : α}, act s = .ok a t → s.SameCourse t
  error : ∀ {s t : Run} {e : Failure}, act s = .error e t → s.SameCourse t ∧ e.isPlain = true

section

variable {α β : Type}

theorem quiet_pure (a : α) : Quiet (pure a : RunM α) where
  ok h := by
    obtain ⟨_, rfl⟩ := pure_eq_ok.1 h
    exact .refl _
  error h := absurd h pure_ne_error

theorem quiet_bind {x : RunM α} {f : α → RunM β} (hx : Quiet x) (hf : ∀ a, Quiet (f a)) :
    Quiet (x >>= f) where
  ok h := by
    obtain ⟨a, u, hu, ht⟩ := bind_eq_ok.1 h
    exact (hx.ok hu).trans ((hf a).ok ht)
  error h := by
    obtain hu | ⟨a, u, hu, ht⟩ := bind_eq_error.1 h
    · exact hx.error hu
    · have hrest := (hf a).error ht
      exact ⟨(hx.ok hu).trans hrest.1, hrest.2⟩

theorem quiet_map {x : RunM α} (f : α → β) (hx : Quiet x) : Quiet (f <$> x) where
  ok h := by
    obtain ⟨a, ht, _⟩ := map_eq_ok.1 h
    exact hx.ok ht
  error h := hx.error (map_eq_error.1 h)

theorem quiet_get : Quiet (get : RunM Run) where
  ok h := by
    obtain ⟨_, rfl⟩ := get_eq_ok.1 h
    exact .refl _
  error h := absurd h get_ne_error

theorem quiet_modify {f : Run → Run} (hf : ∀ s : Run, s.SameCourse (f s)) :
    Quiet (modify f : RunM Unit) where
  ok h := by
    rw [← modify_eq_ok.1 h]
    exact hf _
  error h := absurd h modify_ne_error

theorem quiet_throw {e : Failure} (he : e.isPlain = true) : Quiet (throw e : RunM α) where
  ok h := absurd h throw_ne_ok
  error h := by
    obtain ⟨rfl, rfl⟩ := throw_eq_error.1 h
    exact ⟨.refl _, he⟩

theorem quiet_ofExcept {x : Except Failure α} (hx : Tame x) :
    Quiet (ofExcept x : RunM α) := by
  cases x with
  | ok a => exact quiet_pure a
  | error e => exact quiet_throw (hx e rfl)

theorem quiet_tryCatch {x : RunM α} {f : Failure → RunM α} (hx : Quiet x)
    (hf : ∀ e, e.isPlain = true → Quiet (f e)) : Quiet (tryCatch x f) where
  ok h := by
    obtain ht | ⟨e, u, hu, ht⟩ := tryCatch_eq_ok.1 h
    · exact hx.ok ht
    · have hfirst := hx.error hu
      exact hfirst.1.trans ((hf e hfirst.2).ok ht)
  error h := by
    obtain ⟨e, u, hu, ht⟩ := tryCatch_eq_error.1 h
    have hfirst := hx.error hu
    have hrest := (hf e hfirst.2).error ht
    exact ⟨hfirst.1.trans hrest.1, hrest.2⟩

theorem quiet_forM {f : α → RunM PUnit} (hf : ∀ a, Quiet (f a)) (as : List α) :
    Quiet (as.forM f) := by
  induction as with
  | nil => exact quiet_pure _
  | cons a as ih => exact quiet_bind (hf a) fun _ => ih

theorem quiet_mapM {f : α → RunM β} (hf : ∀ a, Quiet (f a)) (as : List α) : Quiet (as.mapM f) := by
  induction as with
  | nil => exact quiet_pure _
  | cons a as ih =>
    rw [List.mapM_cons]
    exact quiet_bind (hf a) fun b => quiet_bind ih fun bs => quiet_pure _

theorem quiet_foldlM {f : β → α → RunM β} (hf : ∀ b a, Quiet (f b a)) (as : List α) (b : β) :
    Quiet (as.foldlM f b) := by
  induction as generalizing b with
  | nil => exact quiet_pure _
  | cons a as ih => exact quiet_bind (hf b a) fun b => ih b

end

/-! ## Strategies -/

theorem quiet_emit (e : Event) : Quiet (RunM.emit e) :=
  quiet_modify fun _ => by constructor <;> rfl

theorem quiet_produce (w : World) (t : LoadedType) : Quiet (RunM.produce w t) := by
  rw [RunM.produce]
  split
  · exact quiet_throw rfl
  · refine quiet_bind (quiet_emit _) fun _ => quiet_bind ?_ fun _ => ?_
    · exact quiet_modify fun _ => by constructor <;> rfl
    · refine quiet_bind quiet_get fun s => ?_
      split
      · exact quiet_pure _
      · exact quiet_throw rfl

theorem quiet_loadType (w : World) (className : String) : Quiet (RunM.loadType w className) := by
  rw [RunM.loadType]
  split
  · exact quiet_pure _
  · exact quiet_throw rfl

theorem quiet_mismatch {α : Type} (className : String) (expected : StrategyKind) (s : Strategy) :
    Quiet (RunM.mismatch className expected s : RunM α) :=
  quiet_throw rfl

theorem quiet_produceRegistrar (w : World) (t : LoadedType) :
    Quiet (RunM.produceRegistrar w t) := by
  refine quiet_bind (quiet_produce w t) fun s => ?_
  cases s with
  | registrar r => exact quiet_pure _
  | _ => exact quiet_mismatch _ _ _

theorem quiet_produceGroup (w : World) (className : String) :
    Quiet (RunM.produceGroup w className) := by
  refine quiet_bind (quiet_loadType w className) fun t => quiet_bind (quiet_produce w t) fun s => ?_
  cases s with
  | group g => exact quiet_pure _
  | _ => exact quiet_mismatch _ _ _

theorem quiet_produceSourceFactory (w : World) (className : String) :
    Quiet (RunM.produceSourceFactory w className) := by
  refine quiet_bind (quiet_loadType w className) fun t => quiet_bind (quiet_produce w t) fun s => ?_
  cases s with
  | sourceFactory f => exact quiet_pure _
  | _ => exact quiet_mismatch _ _ _

theorem quiet_produceCondition (w : World) (className : String) :
    Quiet (RunM.produceCondition w className) := by
  refine quiet_bind (quiet_loadType w className) fun t => quiet_bind (quiet_produce w t) fun s => ?_
  cases s with
  | condition c => exact quiet_pure _
  | _ => exact quiet_mismatch _ _ _

theorem quiet_allHold (w : World) (c : ClassInfo) (phase : Phase)
    (os : List RunM.OrderedCondition) :
    Quiet (RunM.allHold w c phase os) := by
  induction os with
  | nil => exact quiet_pure _
  | cons o os ih =>
    rw [RunM.allHold]
    split
    · refine quiet_bind (quiet_emit _) fun _ => quiet_bind quiet_get fun s => ?_
      split
      · exact ih
      · exact quiet_pure _
    · exact ih

theorem quiet_skips (w : World) (c : ClassInfo) (phase : Phase) : Quiet (RunM.skips w c phase) := by
  rw [RunM.skips]
  split
  · exact quiet_pure _
  · refine quiet_bind quiet_get fun s => ?_
    split
    · exact quiet_pure _
    · refine quiet_bind (quiet_mapM (quiet_produceCondition w) _) fun conditions => ?_
      exact quiet_bind (quiet_allHold w c phase _) fun _ => quiet_pure _

/-! ## Property sources -/

theorem RunM.addSource_eq {x : PropertySource} {s : Run} :
    RunM.addSource x s =
      match s.environment.sources.accumulate s.addedSources x with
      | (sources, .ok addedSources) =>
        .ok () { s with environment := { s.environment with sources }, addedSources }
      | (sources, .error e) =>
        .error (.propertySource e) { s with environment := { s.environment with sources } } := by
  show (_ : EStateM.Result Failure Run Unit) = _
  rw [RunM.addSource]
  refine get_bind_eq.2 ?_
  generalize s.environment.sources.accumulate s.addedSources x = result
  obtain ⟨sources, added⟩ := result
  refine set_bind_eq.2 ?_
  cases added <;> rfl

theorem quiet_addSource (source : PropertySource) : Quiet (RunM.addSource source) where
  ok h := by
    rw [RunM.addSource_eq] at h
    split at h
    · cases h
      constructor <;> rfl
    · cases h
  error h := by
    rw [RunM.addSource_eq] at h
    split at h
    · cases h
    · cases h
      exact ⟨by constructor <;> rfl, rfl⟩

theorem quiet_sourceLoader (w : World) (className : Option String) :
    Quiet (RunM.sourceLoader w className) := by
  rw [RunM.sourceLoader]
  split
  · exact quiet_bind (quiet_produceSourceFactory w _) fun _ => quiet_pure _
  · exact quiet_pure _

theorem mapError_eq_error {ε ε' α : Type} {x : Except ε α} {f : ε → ε'} {e : ε'}
    (h : x.mapError f = .error e) : ∃ cause, x = .error cause ∧ f cause = e := by
  cases x with
  | ok a => cases h
  | error cause => exact ⟨cause, rfl, Except.error.inj h⟩

/-- A failure that only wraps a cause of another kind is plain. -/
theorem quiet_ofExcept_mapError {ε α : Type} (x : Except ε α) {f : ε → Failure}
    (hf : ∀ cause, (f cause).isPlain = true) :
    Quiet (ofExcept (x.mapError f) : RunM α) := by
  refine quiet_ofExcept fun e he => ?_
  obtain ⟨cause, _, rfl⟩ := mapError_eq_error he
  exact hf cause

theorem quiet_loadSource (w : World) (loader : RunM.SourceLoader) (name encoding : Option String)
    (location : String) : Quiet (RunM.loadSource w loader name encoding location) := by
  rw [RunM.loadSource]
  refine quiet_bind quiet_get fun s => ?_
  refine quiet_bind (quiet_ofExcept_mapError _ fun _ => rfl) fun resolved => ?_
  split
  · exact quiet_bind (quiet_emit _) fun _ => quiet_ofExcept_mapError _ fun _ => rfl
  · exact quiet_ofExcept_mapError _ fun _ => rfl

theorem quiet_addLocations (w : World) (loader : RunM.SourceLoader) (name encoding : Option String)
    (mayMiss : Bool) (locations : List String) :
    Quiet (RunM.addLocations w loader name encoding mayMiss locations) := by
  induction locations with
  | nil => exact quiet_pure _
  | cons location locations ih =>
    rw [RunM.addLocations]
    have hload := quiet_loadSource w loader name encoding location
    refine quiet_bind (quiet_tryCatch (quiet_map _ hload) fun e he => ?_) fun source => ?_
    · split
      · exact quiet_pure _
      · exact quiet_throw he
    · split
      · exact quiet_bind (quiet_addSource _) fun _ => ih
      · exact ih

theorem quiet_addTaggedSources (w : World) (className : String) (t : Tag) :
    Quiet (RunM.addTaggedSources w className t) := by
  rw [RunM.addTaggedSources]
  dsimp only
  split
  · exact quiet_bind (quiet_throw rfl) fun _ =>
      quiet_bind (quiet_sourceLoader w _) fun loader => quiet_addLocations w loader _ _ _ _
  · exact quiet_bind (quiet_sourceLoader w _) fun loader => quiet_addLocations w loader _ _ _ _

theorem quiet_addDeclaredSources (w : World) (c : ClassInfo) :
    Quiet (RunM.addDeclaredSources w c) := by
  refine quiet_forM (fun t => quiet_bind quiet_get fun s => ?_) _
  split
  · exact quiet_addTaggedSources w c.name t
  · exact quiet_pure _

/-! ## Groups of deferred selectors -/

theorem quiet_createGroup (w : World) (groupType : Option String) :
    Quiet (RunM.createGroup w groupType) := by
  cases groupType with
  | none => exact quiet_pure _
  | some className => exact quiet_produceGroup w className

theorem quiet_groupingAdd (w : World) (gs : Groupings) (d : Deferred) :
    Quiet (Grouping.add w gs d) := by
  rw [Grouping.add]
  split
  · exact quiet_pure _
  · exact quiet_bind (quiet_createGroup w _) fun _ => quiet_pure _

theorem quiet_ofDeferred (w : World) (ds : List Deferred) : Quiet (Grouping.ofDeferred w ds) :=
  quiet_bind (quiet_foldlM (quiet_groupingAdd w) ds {}) fun _ => quiet_pure _

theorem quiet_groupingProcess (g : Grouping) (calls : List GroupCall) (d : Deferred) :
    Quiet (g.process calls d) :=
  quiet_bind (quiet_emit _) fun _ =>
    quiet_bind (quiet_forM (fun _ => quiet_emit _) _) fun _ => quiet_pure _

theorem quiet_entries (g : Grouping) : Quiet g.entries :=
  quiet_bind (quiet_foldlM (quiet_groupingProcess g) g.members []) fun _ =>
    quiet_bind (quiet_emit _) fun _ => quiet_pure _

end Wiring
