import Wiring.Proofs.Groups
import Wiring.Proofs.Steps

/-!
# Conduct

What a run does in each of its parts: a law says what relates the states before and after a part
that succeeds, and the states and the failure of one that fails.  The law is left open here.  From
what it has to admit it is carried through each step in turn, and through a whole run by induction
over how deep the steps go.
-/

namespace Wiring

/-- What relates the states before and after a step, whether it succeeds or fails. -/
structure Law (σ : Type) where
  ok : σ → σ → Prop
  error : σ → Failure → σ → Prop

/-- However the step ends, it obeys the law. -/
structure Obeys {σ α : Type} (R : Law σ) (act : EStateM Failure σ α) : Prop where
  ok : ∀ {s t : σ} {a : α}, act s = .ok a t → R.ok s t
  error : ∀ {s t : σ} {e : Failure}, act s = .error e t → R.error s e t

namespace Law

variable {σ : Type}

/-- Results and failures are related alike. -/
def both (R : σ → σ → Prop) : Law σ := ⟨R, fun s _ t => R s t⟩

/-- What is collected on a record obeys the law for its run, and stays with the class of the
record. -/
def collecting (R : Law Run) : Law Collecting where
  ok s t := R.ok s.run t.run ∧ t.record.view = s.record.view
  error s e t := R.error s.run e t.run

/-- Steps that obey obey one after the other, and failures may be attributed on their way out. -/
structure Composes (R : Law σ) : Prop where
  refl : ∀ s, R.ok s s
  trans : ∀ {s t u}, R.ok s t → R.ok t u → R.ok s u
  fail : ∀ s e, R.error s e s
  fail_after : ∀ {s t u e}, R.ok s t → R.error t e u → R.error s e u
  within : ∀ {s t e} activity name, R.error s e t → R.error s (e.within activity name) t

/-- With the way from `s` to `u` before it and `after` behind it, whatever is lawful is lawful as a
whole. -/
structure Brackets (R : Law σ) (s u : σ) (after : σ → σ) : Prop where
  ok : ∀ {t}, R.ok u t → R.ok s (after t)
  error : ∀ {e t}, R.error u e t → R.error s e (after t)

theorem Brackets.collecting {R : Law Run} {s u : Run} {after : Run → Run}
    (h : R.Brackets s u after) (record : ConfigClass) :
    R.collecting.Brackets ⟨record, s⟩ ⟨record, u⟩ fun t => { t with run := after t.run } :=
  ⟨fun ht => ⟨h.ok ht.1, ht.2⟩, fun ht => h.error ht⟩

theorem Composes.collecting {R : Law Run} (h : R.Composes) : R.collecting.Composes where
  refl s := ⟨h.refl s.run, rfl⟩
  trans hst htu := ⟨h.trans hst.1 htu.1, htu.2.trans hst.2⟩
  fail s e := h.fail s.run e
  fail_after hst htu := h.fail_after hst.1 htu
  within activity name hst := h.within activity name hst

end Law

/-! ## Rules -/

section

variable {σ α β : Type} {R : Law σ}

theorem Obeys.finalState {R : σ → σ → Prop} {act : EStateM Failure σ α}
    (h : Obeys (.both R) act) (s : σ) : R s (finalState (act s)) := by
  cases hact : act s with
  | ok a t => exact h.ok hact
  | error e t => exact h.error hact

theorem obeys_of_finalState {R : σ → σ → Prop} {act : EStateM Failure σ α}
    (h : ∀ s, R s (finalState (act s))) : Obeys (.both R) act where
  ok {s t a} hs := by
    have hend := h s
    rw [hs] at hend
    exact hend
  error {s t e} hs := by
    have hend := h s
    rw [hs] at hend
    exact hend

theorem obeys_modify {f : σ → σ} (hf : ∀ s, R.ok s (f s)) :
    Obeys R (modify f : EStateM Failure σ PUnit) where
  ok h := by
    rw [← modify_eq_ok.1 h]
    exact hf _
  error h := absurd h modify_ne_error

theorem obeys_map {x : EStateM Failure σ α} (f : α → β) (hx : Obeys R x) : Obeys R (f <$> x) where
  ok h := by
    obtain ⟨a, ht, _⟩ := map_eq_ok.1 h
    exact hx.ok ht
  error h := hx.error (map_eq_error.1 h)

theorem obeys_toRecordM {R : Law Run} {act : RunM α} (h : Obeys R act) :
    Obeys R.collecting (liftM act : RecordM α) where
  ok hs := by
    obtain ⟨run, hrun, rfl⟩ := toRecordM_eq_ok.1 hs
    exact ⟨h.ok hrun, rfl⟩
  error hs := by
    obtain ⟨run, hrun, rfl⟩ := toRecordM_eq_error.1 hs
    exact h.error hrun

/-- A step between something before it and something behind it. -/
theorem obeys_ensuring {before after : σ → σ} {x : EStateM Failure σ α} (hx : Obeys R x)
    (hbrackets : ∀ s, R.Brackets s (before s) after) :
    Obeys R (modify before >>= fun _ => ensuring after x) where
  ok {s t a} h := by
    obtain ⟨u, hu, rfl⟩ := ensuring_eq_ok.1 (modify_bind_eq.1 h)
    exact (hbrackets s).ok (hx.ok hu)
  error {s t e} h := by
    obtain ⟨u, hu, rfl⟩ := ensuring_eq_error.1 (modify_bind_eq.1 h)
    exact (hbrackets s).error (hx.error hu)

namespace Law.Composes

theorem pure (hR : R.Composes) (a : α) : Obeys R (pure a : EStateM Failure σ α) where
  ok h := by
    obtain ⟨_, rfl⟩ := pure_eq_ok.1 h
    exact hR.refl _
  error h := absurd h pure_ne_error

theorem throw (hR : R.Composes) (e : Failure) : Obeys R (throw e : EStateM Failure σ α) where
  ok h := absurd h throw_ne_ok
  error h := by
    obtain ⟨rfl, rfl⟩ := throw_eq_error.1 h
    exact hR.fail _ _

theorem ofExcept (hR : R.Composes) (x : Except Failure α) :
    Obeys R (ofExcept x : EStateM Failure σ α) := by
  cases x with
  | ok a => exact hR.pure a
  | error e => exact hR.throw e

theorem get (hR : R.Composes) : Obeys R (get : EStateM Failure σ σ) where
  ok h := by
    obtain ⟨_, rfl⟩ := get_eq_ok.1 h
    exact hR.refl _
  error h := absurd h get_ne_error

/-- The second part may rely on what the first one results in. -/
theorem bind_of_ok (hR : R.Composes) {x : EStateM Failure σ α} {f : α → EStateM Failure σ β}
    (hx : Obeys R x) (hf : ∀ s a t, x s = .ok a t → Obeys R (f a)) : Obeys R (x >>= f) where
  ok h := by
    obtain ⟨a, u, hu, ht⟩ := bind_eq_ok.1 h
    exact hR.trans (hx.ok hu) ((hf _ a u hu).ok ht)
  error h := by
    rcases bind_eq_error.1 h with hu | ⟨a, u, hu, ht⟩
    · exact hx.error hu
    · exact hR.fail_after (hx.ok hu) ((hf _ a u hu).error ht)

theorem bind (hR : R.Composes) {x : EStateM Failure σ α} {f : α → EStateM Failure σ β}
    (hx : Obeys R x) (hf : ∀ a, Obeys R (f a)) : Obeys R (x >>= f) :=
  hR.bind_of_ok hx fun _ a _ _ => hf a

theorem ofExcept_bind (hR : R.Composes) {x : Except Failure α} {f : α → EStateM Failure σ β}
    (hf : ∀ a, x = .ok a → Obeys R (f a)) : Obeys R (Wiring.ofExcept x >>= f) :=
  hR.bind_of_ok (hR.ofExcept x) fun _ a _ h => hf a (ofExcept_eq_ok.1 h).1

theorem forM (hR : R.Composes) {f : α → EStateM Failure σ PUnit} {as : List α}
    (hf : ∀ a ∈ as, Obeys R (f a)) : Obeys R (as.forM f) := by
  induction as with
  | nil => exact hR.pure _
  | cons a as ih =>
    exact hR.bind (hf a List.mem_cons_self) fun _ => ih fun a ha => hf a (List.mem_cons_of_mem _ ha)

theorem mapM (hR : R.Composes) {f : α → EStateM Failure σ β} (hf : ∀ a, Obeys R (f a))
    (as : List α) : Obeys R (as.mapM f) := by
  induction as with
  | nil => exact hR.pure _
  | cons a as ih =>
    rw [List.mapM_cons]
    exact hR.bind (hf a) fun b => hR.bind ih fun bs => hR.pure _

theorem foldlM (hR : R.Composes) {f : β → α → EStateM Failure σ β} (hf : ∀ b a, Obeys R (f b a))
    (as : List α) (b : β) : Obeys R (as.foldlM f b) := by
  induction as generalizing b with
  | nil => exact hR.pure _
  | cons a as ih => exact hR.bind (hf b a) fun b => ih b

/-- A failure that is handled leaves the state as lawfully as a result. -/
theorem tryCatch (hR : R.Composes) {x : EStateM Failure σ α} {f : Failure → EStateM Failure σ α}
    (hx : Obeys (.both R.ok) x) (hf : ∀ e, Obeys R (f e)) : Obeys R (tryCatch x f) where
  ok h := by
    obtain ht | ⟨e, u, hu, ht⟩ := tryCatch_eq_ok.1 h
    · exact hx.ok ht
    · exact hR.trans (hx.error hu) ((hf e).ok ht)
  error h := by
    obtain ⟨e, u, hu, ht⟩ := tryCatch_eq_error.1 h
    exact hR.fail_after (hx.error hu) ((hf e).error ht)

theorem onFailure (hR : R.Composes) (activity : Activity) (name : String)
    {x : EStateM Failure σ α} (hx : Obeys R x) :
    Obeys R (onFailure (Failure.within activity name) x) where
  ok h := hx.ok (onFailure_eq_ok.1 h)
  error h := by
    obtain ⟨e, he, rfl⟩ := onFailure_eq_error.1 h
    exact hR.within _ _ (hx.error he)

/-- A step that does from each state what some step does that obeys, up to what counts. -/
theorem of_eq (hR : R.Composes) {x : EStateM Failure σ α}
    (h : ∀ s, ∃ u y, R.ok s u ∧ Obeys R y ∧ x s = y u) : Obeys R x where
  ok {s t a} hs := by
    obtain ⟨u, y, hu, hy, heq⟩ := h s
    exact hR.trans hu (hy.ok (heq ▸ hs))
  error {s t e} hs := by
    obtain ⟨u, y, hu, hy, heq⟩ := h s
    exact hR.fail_after hu (hy.error (heq ▸ hs))

end Law.Composes
end

/-! ## Laws of runs -/

/-- The view loads from the table, if it loads at all. -/
def Resolver.LoadsOwn (r : Resolver) (v : View) : Prop := ∀ t, r.load v = .ok t → t ∈ r.types.types

/-- The steps that lead into others obey. -/
structure Steps.Obey (deeper : Steps) (w : World) (R : Law Run) : Prop where
  enter : ∀ c f, Obeys R (deeper.enter c f)
  climb : ∀ v f, Obeys R.collecting (deeper.climb v f)
  imports : ∀ {current : View} {us : List View} {f : NameFilter} {checksCycles : Bool},
    (∀ u ∈ us, w.resolver.LoadsOwn u) →
    Obeys R.collecting (deeper.imports current us f checksCycles)

/-- What a law has to admit, apart from how classes are entered. -/
structure Conduct (w : World) (R : Law Run) : Prop extends R.Composes where
  /-- What else may change does not matter. -/
  aside : ∀ {s t : Run}, t.environment = s.environment → t.addedSources = s.addedSources →
    t.stack = s.stack → t.depth = s.depth → t.queue.isSome = s.queue.isSome →
    t.levels = s.levels → t.classes = s.classes → t.history = s.history → R.ok s t
  importing : ∀ s name importer, R.ok s (s.importing name importer)
  produce : ∀ t ∈ w.resolver.types.types, Obeys R (RunM.produce w t)
  addSource : ∀ x, Obeys R (RunM.addSource x)
  /-- What is done on top of a class that is pushed. -/
  pop : ∀ (s : Run) (c : ClassInfo), R.Brackets s { s with stack := c :: s.stack } RunM.pop
  /-- What is done one level deeper. -/
  ascend : ∀ {s : Run}, s.depth < w.maxDepth → R.Brackets s (RunM.deepen s) RunM.ascend
  /-- What is done while the queue is closed. -/
  reopen : ∀ {s : Run}, s.queue.isSome = true →
    R.Brackets s { s with queue := none } fun t => { t with queue := some [] }
  /-- What is collected for a class that is committed goes there in the end. -/
  absorb : ∀ s name scratch,
    R.Brackets s s fun t => { t with classes := t.classes.modify name (·.absorb scratch) }

/-- What a law has to admit to hold of whole runs. -/
structure FullConduct (w : World) (R : Law Run) : Prop extends Conduct w R where
  enter : ∀ fuel, (Run.steps w fuel).Obey w R → ∀ c f,
    Obeys R (Step.enter w (Run.steps w fuel) c f)

namespace Conduct

variable {w : World} {R : Law Run}

theorem collects (hR : Conduct w R) : R.collecting.Composes := hR.toComposes.collecting

theorem record (hR : Conduct w R) : Obeys R.collecting RecordM.record :=
  hR.collects.bind hR.collects.get fun _ => hR.collects.pure _

theorem modifyRecord (hR : Conduct w R) {f : ConfigClass → ConfigClass}
    (hf : ∀ c, (f c).view = c.view) : Obeys R.collecting (RecordM.modifyRecord f) :=
  obeys_modify fun s => ⟨hR.refl s.run, hf s.record⟩

/-! ## Strategies -/

theorem emit (hR : Conduct w R) (e : Event) : Obeys R (RunM.emit e) :=
  obeys_modify fun _ => hR.aside rfl rfl rfl rfl rfl rfl rfl rfl

theorem mismatch (hR : Conduct w R) {α : Type} (className : String) (expected : StrategyKind)
    (s : Strategy) : Obeys R (RunM.mismatch className expected s : RunM α) :=
  hR.throw _

theorem produceRegistrar (hR : Conduct w R) {t : LoadedType} (ht : t ∈ w.resolver.types.types) :
    Obeys R (RunM.produceRegistrar w t) := by
  refine hR.bind (hR.produce t ht) fun s => ?_
  cases s with
  | registrar r => exact hR.pure _
  | _ => exact hR.mismatch _ _ _

/-- A type that is found by its name is one of the table. -/
theorem loadType_bind (hR : Conduct w R) {α : Type} (className : String) {f : LoadedType → RunM α}
    (hf : ∀ t ∈ w.resolver.types.types, Obeys R (f t)) :
    Obeys R (RunM.loadType w className >>= f) := by
  refine hR.bind_of_ok ?_ fun s t u h => hf t (TypeTable.mem_of_find? (loadType_eq_ok h).1)
  rw [RunM.loadType]
  split
  · exact hR.pure _
  · exact hR.throw _

theorem produceGroup (hR : Conduct w R) (className : String) :
    Obeys R (RunM.produceGroup w className) := by
  refine hR.loadType_bind className fun t ht => hR.bind (hR.produce t ht) fun s => ?_
  cases s with
  | group g => exact hR.pure _
  | _ => exact hR.mismatch _ _ _

theorem produceSourceFactory (hR : Conduct w R) (className : String) :
    Obeys R (RunM.produceSourceFactory w className) := by
  refine hR.loadType_bind className fun t ht => hR.bind (hR.produce t ht) fun s => ?_
  cases s with
  | sourceFactory f => exact hR.pure _
  | _ => exact hR.mismatch _ _ _

theorem produceCondition (hR : Conduct w R) (className : String) :
    Obeys R (RunM.produceCondition w className) := by
  refine hR.loadType_bind className fun t ht => hR.bind (hR.produce t ht) fun s => ?_
  cases s with
  | condition c => exact hR.pure _
  | _ => exact hR.mismatch _ _ _

theorem allHold (hR : Conduct w R) (c : ClassInfo) (phase : Phase)
    (os : List RunM.OrderedCondition) : Obeys R (RunM.allHold w c phase os) := by
  induction os with
  | nil => exact hR.pure _
  | cons o os ih =>
    rw [RunM.allHold]
    split
    · refine hR.bind (hR.emit _) fun _ => hR.bind hR.get fun s => ?_
      split
      · exact ih
      · exact hR.pure _
    · exact ih

theorem skips (hR : Conduct w R) (c : ClassInfo) (phase : Phase) :
    Obeys R (RunM.skips w c phase) := by
  rw [RunM.skips]
  split
  · exact hR.pure _
  · refine hR.bind hR.get fun s => ?_
    split
    · exact hR.pure _
    · refine hR.bind (hR.mapM hR.produceCondition _) fun conditions => ?_
      exact hR.bind (hR.allHold c phase _) fun _ => hR.pure _

/-! ## Property sources -/

theorem sourceLoader (hR : Conduct w R) (className : Option String) :
    Obeys R (RunM.sourceLoader w className) := by
  rw [RunM.sourceLoader]
  split
  · exact hR.bind (hR.produceSourceFactory _) fun _ => hR.pure _
  · exact hR.pure _

/-- Loading a source leaves the run as lawfully if it fails. -/
theorem loadSource (hR : Conduct w R) (loader : RunM.SourceLoader) (name encoding : Option String)
    (location : String) :
    Obeys (.both R.ok) (RunM.loadSource w loader name encoding location) where
  ok h := by
    rw [RunM.loadSource] at h
    obtain ⟨_, _, h⟩ := ofExcept_bind_eq_ok.1 (get_bind_eq.1 h)
    cases htype : loader.typeName with
    | some typeName =>
      rw [htype] at h
      obtain ⟨_, rfl⟩ := ofExcept_eq_ok.1 (modify_bind_eq.1 h)
      exact hR.aside rfl rfl rfl rfl rfl rfl rfl rfl
    | none =>
      rw [htype] at h
      obtain ⟨_, rfl⟩ := ofExcept_eq_ok.1 h
      exact hR.refl _
  error h := by
    rw [RunM.loadSource] at h
    obtain ⟨_, rfl⟩ | ⟨_, _, h⟩ := ofExcept_bind_eq_error.1 (get_bind_eq.1 h)
    · exact hR.refl _
    · cases htype : loader.typeName with
      | some typeName =>
        rw [htype] at h
        obtain ⟨_, rfl⟩ := ofExcept_eq_error.1 (modify_bind_eq.1 h)
        exact hR.aside rfl rfl rfl rfl rfl rfl rfl rfl
      | none =>
        rw [htype] at h
        obtain ⟨_, rfl⟩ := ofExcept_eq_error.1 h
        exact hR.refl _

theorem addLocations (hR : Conduct w R) (loader : RunM.SourceLoader)
    (name encoding : Option String) (mayMiss : Bool) (locations : List String) :
    Obeys R (RunM.addLocations w loader name encoding mayMiss locations) := by
  induction locations with
  | nil => exact hR.pure _
  | cons location locations ih =>
    rw [RunM.addLocations]
    have hload := obeys_map some (hR.loadSource loader name encoding location)
    refine hR.bind (hR.tryCatch hload fun e => ?_) fun source => ?_
    · split
      · exact hR.pure _
      · exact hR.throw _
    · split
      · exact hR.bind (hR.addSource _) fun _ => ih
      · exact ih

theorem addTaggedSources (hR : Conduct w R) (className : String) (t : Tag) :
    Obeys R (RunM.addTaggedSources w className t) := by
  rw [RunM.addTaggedSources]
  dsimp only
  split
  · exact hR.bind (hR.throw _) fun _ =>
      hR.bind (hR.sourceLoader _) fun loader => hR.addLocations loader _ _ _ _
  · exact hR.bind (hR.sourceLoader _) fun loader => hR.addLocations loader _ _ _ _

theorem addDeclaredSources (hR : Conduct w R) (c : ClassInfo) :
    Obeys R (RunM.addDeclaredSources w c) := by
  refine hR.forM fun t _ => hR.bind hR.get fun s => ?_
  split
  · exact hR.addTaggedSources c.name t
  · exact hR.pure _

/-! ## Groups of deferred selectors -/

theorem createGroup (hR : Conduct w R) (groupType : Option String) :
    Obeys R (RunM.createGroup w groupType) := by
  cases groupType with
  | none => exact hR.pure _
  | some className => exact hR.produceGroup className

theorem groupingAdd (hR : Conduct w R) (gs : Groupings) (d : Deferred) :
    Obeys R (Grouping.add w gs d) := by
  rw [Grouping.add]
  split
  · exact hR.pure _
  · exact hR.bind (hR.createGroup _) fun _ => hR.pure _

theorem ofDeferred (hR : Conduct w R) (ds : List Deferred) :
    Obeys R (Grouping.ofDeferred w ds) :=
  hR.bind (hR.foldlM hR.groupingAdd ds {}) fun _ => hR.pure _

theorem groupingProcess (hR : Conduct w R) (g : Grouping) (calls : List GroupCall) (d : Deferred) :
    Obeys R (g.process calls d) :=
  hR.bind (hR.emit _) fun _ => hR.bind (hR.forM fun _ _ => hR.emit _) fun _ => hR.pure _

theorem entries (hR : Conduct w R) (g : Grouping) : Obeys R g.entries :=
  hR.bind (hR.foldlM (hR.groupingProcess g) g.members []) fun _ =>
    hR.bind (hR.emit _) fun _ => hR.pure _

end Conduct

/-! ## Steps -/

namespace Step

variable {w : World} {R : Law Run} {deeper : Steps}

theorem obeys_parseDefinition (hR : Conduct w R) (hd : deeper.Obey w R) (d : Definition LoadedType)
    (beanName : String) : Obeys R (parseDefinition w deeper d beanName) :=
  hR.bind (hR.ofExcept _) fun _ => hd.enter _ _

theorem obeys_report (hR : Conduct w R) (problem : Problem) :
    Obeys R (RunM.report w problem) := by
  refine hR.bind (obeys_modify fun _ => hR.aside rfl rfl rfl rfl rfl rfl rfl rfl) fun _ => ?_
  split
  · exact hR.throw _
  · exact hR.pure _

theorem obeys_reportCircular (hR : Conduct w R) (c : ClassInfo) :
    Obeys R (RunM.reportCircular w c) :=
  hR.bind hR.get fun _ => obeys_report hR _

theorem obeys_enterImported (hR : Conduct w R) (hd : deeper.Obey w R) (f : NameFilter)
    (record : ConfigClass) (v : View) : Obeys R (enterImported deeper f record v) :=
  hR.bind (obeys_modify fun _ => hR.importing _ _ _) fun _ => hd.enter _ f

theorem obeys_enterMember (hR : Conduct w R) (hd : deeper.Obey w R) (f : NameFilter)
    (record : ConfigClass) (m : View) : Obeys R (enterMember w deeper f record m) := by
  refine hR.bind hR.get fun s => ?_
  split
  · exact obeys_reportCircular hR _
  · exact obeys_ensuring (obeys_enterImported hR hd f record m) fun s => hR.pop s record.info

theorem obeys_enterMembers (hR : Conduct w R) (hd : deeper.Obey w R) (v : View)
    (f : NameFilter) : Obeys R.collecting (enterMembers w deeper v f) := by
  refine hR.collects.bind hR.record fun record => ?_
  split
  · exact hR.collects.forM fun m _ => obeys_toRecordM (obeys_enterMember hR hd f record m)
  · exact hR.collects.pure _

theorem obeys_enterFound (hR : Conduct w R) (hd : deeper.Obey w R) (found : NamedDefinition) :
    Obeys R (enterFound w deeper found) := by
  unfold enterFound
  split
  · exact obeys_parseDefinition hR hd _ _
  · exact hR.pure _

theorem obeys_enterScanned (hR : Conduct w R) (hd : deeper.Obey w R) (className : String)
    (scan : Tag) : Obeys R (enterScanned w deeper className scan) := by
  refine hR.of_eq fun s => ?_
  obtain ⟨answer, hanswer⟩ : ∃ answer, answer = w.scanner.scan
    (ScanRequest.ofTag scan className s.environment) w.resolver.reader s.registry := ⟨_, rfl⟩
  refine ⟨{ s with registry := answer.2 },
    ofExcept answer.1 >>= fun found => found.forM (enterFound w deeper),
    hR.aside rfl rfl rfl rfl rfl rfl rfl rfl, ?_, ?_⟩
  · exact hR.bind (hR.ofExcept _) fun found => hR.forM fun d _ => obeys_enterFound hR hd d
  · rw [hanswer]
    rfl

theorem obeys_enterAllScanned (hR : Conduct w R) (hd : deeper.Obey w R) (c : ClassInfo) :
    Obeys R (enterAllScanned w deeper c) := by
  unfold enterAllScanned
  dsimp only
  split
  · refine hR.bind (hR.skips _ _) fun skip => ?_
    split
    · exact hR.forM fun scan _ => obeys_enterScanned hR hd _ scan
    · exact hR.pure _
  · exact hR.pure _

theorem obeys_followImports (hR : Conduct w R) (hd : deeper.Obey w R) (v : View)
    (f : NameFilter) : Obeys R.collecting (followImports w deeper v f) := by
  refine hR.collects.ofExcept_bind fun us hus => hd.imports fun u hu t ht => ?_
  obtain ⟨_, _, hrelated⟩ := Resolver.related_of_mem_imports hus u hu
  exact Resolver.mem_of_load_related hrelated ht

theorem obeys_addResources (hR : Conduct w R) (c : ClassInfo) :
    Obeys R.collecting (addResources w c) := by
  unfold addResources
  split
  · refine hR.collects.forM fun location _ => ?_
    refine hR.collects.bind hR.collects.get fun _ => hR.collects.ofExcept_bind fun _ _ => ?_
    exact hR.modifyRecord fun _ => rfl
  · exact hR.collects.pure _

theorem obeys_collectMethods (hR : Conduct w R) (v : View) :
    Obeys R.collecting (collectMethods w v) where
  ok {s t a} h := by
    obtain ⟨ms, _, rfl⟩ := collectMethods_eq_ok h
    refine ⟨hR.refl s.run, ?_⟩
    rw [ConfigClass.gained, ConfigClass.addMethods_eq]
  error h := by
    obtain ⟨_, rfl⟩ | ⟨_, _, h⟩ := ofExcept_bind_eq_error.1 (record_bind_eq.1 h)
    · exact hR.fail _ _
    · exact absurd h modify_ne_error

theorem obeys_takeSuperclass (hR : Conduct w R) (v : View) :
    Obeys R.collecting (takeSuperclass w v) := by
  unfold takeSuperclass
  split
  · exact hR.collects.pure _
  · refine hR.collects.bind hR.collects.get fun _ => ?_
    split
    · exact hR.collects.pure _
    · refine hR.collects.bind hR.record fun _ => hR.collects.bind ?_ fun _ => hR.collects.ofExcept _
      exact obeys_modify fun _ => ⟨hR.aside rfl rfl rfl rfl rfl rfl rfl rfl, rfl⟩

theorem obeys_processSource (hR : Conduct w R) (hd : deeper.Obey w R) (v : View)
    (f : NameFilter) : Obeys R.collecting (processSource w deeper v f) := by
  refine hR.collects.bind (obeys_enterMembers hR hd v f) fun _ => ?_
  refine hR.collects.bind (obeys_toRecordM (hR.addDeclaredSources v.info)) fun _ => ?_
  refine hR.collects.bind (obeys_toRecordM (obeys_enterAllScanned hR hd v.info)) fun _ => ?_
  refine hR.collects.bind (obeys_followImports hR hd v f) fun _ => ?_
  refine hR.collects.bind (obeys_addResources hR v.info) fun _ => ?_
  exact hR.collects.bind (obeys_collectMethods hR v) fun _ => obeys_takeSuperclass hR v

theorem obeys_climb (hR : Conduct w R) (hd : deeper.Obey w R) (v : View) (f : NameFilter) :
    Obeys R.collecting (climb w deeper v f) := by
  refine hR.collects.bind (obeys_processSource hR hd v f) fun next => ?_
  cases next with
  | none => exact hR.collects.pure _
  | some next => exact hd.climb next f

/-! ## Candidates -/

theorem obeys_importSelected (hR : Conduct w R) (hd : deeper.Obey w R) (current : View)
    (f : NameFilter) (typeName : String) (selector : Selector) :
    Obeys R.collecting (importSelected w deeper current f typeName selector) := by
  refine hR.collects.bind (obeys_toRecordM (hR.emit _)) fun _ => ?_
  refine hR.collects.ofExcept_bind fun chosen hchosen => ?_
  have hinner : Obeys R.collecting (deeper.imports current chosen f false) := by
    refine hd.imports fun u hu t ht => ?_
    obtain ⟨name, _, hname⟩ := exists_of_mem_mapM_eq_ok hchosen u hu
    exact Resolver.mem_of_load_ofName hname ht
  constructor
  · intro s t a h
    obtain ⟨_, _, hs, h⟩ := bind_eq_ok.1 h
    obtain ⟨run, hrun, rfl⟩ := toRecordM_eq_ok.1 hs
    obtain ⟨hdepth, rfl⟩ := descend_eq_ok.1 hrun
    obtain ⟨u, hu, rfl⟩ := ensuring_eq_ok.1 h
    exact ((hR.ascend hdepth).collecting s.record).ok (hinner.ok hu)
  · intro s t e h
    rcases bind_eq_error.1 h with hs | ⟨_, _, hs, h⟩
    · obtain ⟨run, hrun, rfl⟩ := toRecordM_eq_error.1 hs
      obtain ⟨_, rfl⟩ := descend_eq_error hrun
      exact hR.collects.fail _ _
    · obtain ⟨run, hrun, rfl⟩ := toRecordM_eq_ok.1 hs
      obtain ⟨hdepth, rfl⟩ := descend_eq_ok.1 hrun
      obtain ⟨u, hu, rfl⟩ := ensuring_eq_error.1 h
      exact ((hR.ascend hdepth).collecting s.record).error (hinner.error hu)

theorem obeys_importEntry (hR : Conduct w R) (hd : deeper.Obey w R) (f : NameFilter)
    (e : GroupEntry) : Obeys R.collecting (importEntry w deeper f e) := by
  refine hR.collects.bind hR.record fun _ => hR.collects.onFailure _ _ ?_
  refine hR.collects.ofExcept_bind fun v hv => ?_
  refine hd.imports fun u hu t ht => ?_
  obtain rfl := List.mem_singleton.1 hu
  exact Resolver.mem_of_load_ofName hv ht

theorem obeys_importForClass (hR : Conduct w R) (hd : deeper.Obey w R) (origins : Origins)
    (f : NameFilter) (e : GroupEntry) : Obeys R (importForClass w deeper origins f e) := by
  refine hR.bind hR.get fun s => hR.bind (hR.ofExcept _) fun scratch => ?_
  have hentry := obeys_importEntry hR hd f e
  constructor
  · intro s t a h
    obtain ⟨⟨record, result⟩, u, hon, h⟩ := bind_eq_ok.1 h
    obtain ⟨rfl, rfl⟩ := ofExcept_eq_ok.1 (modify_bind_eq.1 h)
    exact (hR.absorb s _ _).ok (hentry.ok (on_eq_ok_ok.1 hon)).1
  · intro s t e' h
    rcases bind_eq_error.1 h with h | ⟨⟨record, result⟩, u, hon, h⟩
    · exact absurd h on_ne_error
    · obtain ⟨rfl, rfl⟩ := ofExcept_eq_error.1 (modify_bind_eq.1 h)
      exact (hR.absorb s _ _).error (hentry.error (on_eq_ok_error.1 hon))

theorem obeys_importForRecord (hR : Conduct w R) (hd : deeper.Obey w R) (origins : Origins)
    (f : NameFilter) (e : GroupEntry) :
    Obeys R.collecting (importForRecord w deeper origins f e) := by
  refine hR.collects.bind hR.record fun record => ?_
  split
  · exact obeys_importEntry hR hd f e
  · exact obeys_toRecordM (obeys_importForClass hR hd origins f e)

/-- Deferred selectors are grouped and asked on the side. -/
theorem obeys_forEntries (hR : Conduct w R) {σ : Type} [MonadLiftT RunM (EStateM Failure σ)]
    {S : Law σ} (hS : S.Composes)
    (hlift : ∀ {α : Type} {act : RunM α}, Obeys R act →
      Obeys S (liftM act : EStateM Failure σ α))
    (ds : List Deferred) {act : NameFilter → GroupEntry → EStateM Failure σ Unit}
    (hact : ∀ f e, Obeys S (act f e)) : Obeys S (forEntries w ds act) := by
  refine hS.bind (hlift (hR.ofDeferred ds)) fun groupings => hS.forM fun g _ => ?_
  exact hS.bind (hlift (hR.entries g)) fun entries => hS.forM fun e _ => hact _ e

theorem obeys_resolveDeferred (hR : Conduct w R) (hd : deeper.Obey w R) (ds : List Deferred) :
    Obeys R (resolveDeferred w deeper ds) :=
  obeys_forEntries hR hR.toComposes (fun h => h) ds (obeys_importForClass hR hd _)

/-- A queue that is open stays open, and one that is closed stays closed. -/
theorem obeys_defer (hR : Conduct w R) (hd : deeper.Obey w R) (d : Deferred) :
    Obeys R.collecting (defer w deeper d) := by
  refine hR.collects.of_eq fun s => ?_
  cases hqueue : s.run.queue with
  | none =>
    refine ⟨s, forEntries w [d] (importForRecord w deeper (.ofDeferred [d])),
      hR.collects.refl _, ?_, ?_⟩
    · exact obeys_forEntries hR hR.collects obeys_toRecordM _ (obeys_importForRecord hR hd _)
    · refine get_bind_eq.2 ?_
      rw [hqueue]
  | some queue =>
    refine ⟨{ s with run := { s.run with queue := some (queue ++ [d]) } }, pure (),
      ⟨hR.aside rfl rfl rfl rfl (by rw [hqueue]; rfl) rfl rfl rfl, rfl⟩, hR.collects.pure _, ?_⟩
    refine get_bind_eq.2 ?_
    rw [hqueue]
    rfl

theorem obeys_importSelector (hR : Conduct w R) (hd : deeper.Obey w R) (current : View)
    (f : NameFilter) {v : View} (hv : w.resolver.LoadsOwn v) :
    Obeys R.collecting (importSelector w deeper current f v) := by
  refine hR.collects.ofExcept_bind fun t ht => ?_
  refine hR.collects.bind (obeys_toRecordM (hR.produce t (hv t ht))) fun s => ?_
  split
  · exact hR.collects.bind (obeys_importSelected hR hd _ _ _ _) fun _ => hR.collects.pure _
  · refine hR.collects.bind hR.record fun _ => ?_
    exact hR.collects.bind (obeys_defer hR hd _) fun _ => hR.collects.pure _
  · exact obeys_toRecordM (hR.mismatch _ _ _)

theorem obeys_importRegistrar (hR : Conduct w R) (current : View) {v : View}
    (hv : w.resolver.LoadsOwn v) : Obeys R.collecting (importRegistrar w current v) := by
  refine hR.collects.ofExcept_bind fun t ht => ?_
  exact hR.collects.bind (obeys_toRecordM (hR.produceRegistrar (hv t ht))) fun _ =>
    hR.modifyRecord fun _ => rfl

theorem obeys_importClass (hR : Conduct w R) (hd : deeper.Obey w R) (current : View)
    (f : NameFilter) (v : View) : Obeys R.collecting (importClass deeper current f v) := by
  refine hR.collects.bind (obeys_modify fun _ => ?_) fun _ => ?_
  · exact ⟨hR.aside rfl rfl rfl rfl rfl rfl rfl rfl, rfl⟩
  · exact hR.collects.bind hR.record fun record =>
      obeys_toRecordM (obeys_enterImported hR hd f record v)

theorem obeys_importEach (hR : Conduct w R) (hd : deeper.Obey w R) (current : View)
    (f : NameFilter) {vs : List View} (hvs : ∀ v ∈ vs, w.resolver.LoadsOwn v) :
    Obeys R.collecting (importEach w deeper current f vs) := by
  induction vs generalizing f with
  | nil => exact hR.collects.pure _
  | cons v vs ih =>
    have hv := hvs v List.mem_cons_self
    have hrest (f : NameFilter) := ih f fun v hv => hvs v (List.mem_cons_of_mem _ hv)
    unfold importEach
    split
    · exact hR.collects.bind (obeys_importSelector hR hd current f hv) hrest
    · split
      · exact hR.collects.bind (obeys_importRegistrar hR current hv) fun _ => hrest f
      · split
        · exact hR.collects.bind (obeys_importClass hR hd current f v) fun _ => hrest f
        · exact hrest f

theorem obeys_imports (hR : Conduct w R) (hd : deeper.Obey w R) (current : View)
    {candidates : List View} (hcandidates : ∀ u ∈ candidates, w.resolver.LoadsOwn u)
    (f : NameFilter) (checksCycles : Bool) :
    Obeys R.collecting (imports w deeper current candidates f checksCycles) := by
  unfold imports
  split
  · exact hR.collects.pure _
  · refine hR.collects.bind hR.record fun record => hR.collects.bind hR.collects.get fun s => ?_
    dsimp only
    split
    · exact obeys_toRecordM (obeys_reportCircular hR _)
    · have hpushed : Obeys R.collecting (
          modify (fun s : Collecting =>
            { s with run := { s.run with stack := record.info :: s.run.stack } }) >>= fun _ =>
          ensuring (fun s => { s with run := RunM.pop s.run })
            (importEach w deeper current f candidates)) :=
        obeys_ensuring (obeys_importEach hR hd current f hcandidates) fun s =>
          (hR.pop s.run record.info).collecting s.record
      exact hR.collects.onFailure _ _ hpushed

end Step

/-! ## Runs -/

namespace Run

variable {w : World} {R : Law Run}

/-- However deep they may go, the steps obey. -/
theorem obey_steps (hR : FullConduct w R) (fuel : Nat) : (steps w fuel).Obey w R := by
  induction fuel with
  | zero =>
    refine ⟨fun c f => hR.throw _, fun v f => hR.collects.throw _, fun _ => ?_⟩
    exact hR.collects.throw _
  | succ fuel ih =>
    constructor
    · intro c f
      exact hR.enter fuel ih c f
    · intro v f
      exact Step.obeys_climb hR.toConduct ih v f
    · intro current us f checksCycles hus
      exact Step.obeys_imports hR.toConduct ih current hus f checksCycles

theorem obeys_parseSeed (hR : FullConduct w R) (seed : NamedDefinition) :
    Obeys R (parseSeed w seed) := by
  unfold parseSeed
  split
  · exact hR.throw _
  · exact hR.onFailure _ _ (Step.obeys_parseDefinition hR.toConduct (obey_steps hR _) _ _)

theorem obeys_resolveDeferred (hR : FullConduct w R) : Obeys R (resolveDeferred w) := by
  have hsome (queue : List Deferred) :=
    Step.obeys_resolveDeferred hR.toConduct (obey_steps hR w.fuel)
      (queue.mergeSort fun a b => a.order ≤ b.order)
  constructor
  · intro s t a h
    replace h := get_bind_eq.1 h
    cases hqueue : s.queue with
    | none =>
      rw [hqueue] at h
      exact (hR.pure ()).ok h
    | some queue =>
      rw [hqueue] at h
      obtain ⟨u, hu, rfl⟩ := ensuring_eq_ok.1 (modify_bind_eq.1 h)
      exact (hR.reopen (Option.isSome_iff_exists.2 ⟨queue, hqueue⟩)).ok ((hsome queue).ok hu)
  · intro s t e h
    replace h := get_bind_eq.1 h
    cases hqueue : s.queue with
    | none =>
      rw [hqueue] at h
      exact (hR.pure ()).error h
    | some queue =>
      rw [hqueue] at h
      obtain ⟨u, hu, rfl⟩ := ensuring_eq_error.1 (modify_bind_eq.1 h)
      exact (hR.reopen (Option.isSome_iff_exists.2 ⟨queue, hqueue⟩)).error ((hsome queue).error hu)

theorem obeys_parse (hR : FullConduct w R) (seeds : List NamedDefinition) :
    Obeys R (parse w seeds) :=
  hR.bind (hR.forM fun seed _ => obeys_parseSeed hR seed) fun _ => obeys_resolveDeferred hR

end Run

/-! ## Laws that take results and failures alike -/

/-- The laws that carry a relation through the runs of a world, however its parts end and whatever
classes are entered. -/
structure EvenConduct (w : World) (R : Run → Run → Prop) : Prop where
  refl : ∀ s, R s s
  trans : ∀ {s t u}, R s t → R t u → R s u
  /-- What else may change does not matter. -/
  aside : ∀ {s t : Run}, t.environment = s.environment → t.addedSources = s.addedSources →
    t.stack = s.stack → t.depth = s.depth → t.queue.isSome = s.queue.isSome →
    t.levels = s.levels → R s t
  produce : ∀ t ∈ w.resolver.types.types, Obeys (.both R) (RunM.produce w t)
  addSource : ∀ x, Obeys (.both R) (RunM.addSource x)
  /-- What was done on top of a class that was pushed. -/
  pop : ∀ {s t : Run} {c : ClassInfo}, R { s with stack := c :: s.stack } t → R s (RunM.pop t)
  /-- What was done one level deeper. -/
  ascend : ∀ {s t : Run}, s.depth < w.maxDepth → R (RunM.deepen s) t → R s (RunM.ascend t)
  /-- What was done between opening and closing a class. -/
  close : ∀ {s t : Run} {c : ConfigClass}, s.depth < w.maxDepth → R (s.opening c) t →
    R s (RunM.close t)
  /-- What was done while the queue was closed. -/
  reopen : ∀ {s t : Run}, s.queue.isSome = true → R { s with queue := none } t →
    R s { t with queue := some [] }

namespace EvenConduct

variable {w : World} {R : Run → Run → Prop}

theorem conduct (hR : EvenConduct w R) : Conduct w (.both R) where
  refl := hR.refl
  trans := hR.trans
  fail s _ := hR.refl s
  fail_after := hR.trans
  within _ _ h := h
  aside environment added stack depth queue levels _ _ :=
    hR.aside environment added stack depth queue levels
  importing _ _ _ := hR.aside rfl rfl rfl rfl rfl rfl
  produce := hR.produce
  addSource := hR.addSource
  pop _ _ := ⟨hR.pop, hR.pop⟩
  ascend hdepth := ⟨hR.ascend hdepth, hR.ascend hdepth⟩
  reopen hopen := ⟨hR.reopen hopen, hR.reopen hopen⟩
  absorb _ _ _ := by
    constructor <;> intros <;> rename_i h <;>
      exact hR.trans h (hR.aside rfl rfl rfl rfl rfl rfl)

theorem commit (hR : EvenConduct w R) (c : ConfigClass) : Obeys (.both R) (Step.commit c) :=
  obeys_modify fun _ => hR.aside rfl rfl rfl rfl rfl rfl

theorem withdraw (hR : EvenConduct w R) (name : String) :
    Obeys (.both R) (Step.withdraw name) :=
  obeys_modify fun _ => hR.aside rfl rfl rfl rfl rfl rfl

theorem enroll (hR : EvenConduct w R) (c : ConfigClass) : Obeys (.both R) (Step.enroll c) := by
  have hw := hR.conduct
  refine hw.bind hw.get fun s => ?_
  split
  · exact hw.pure _
  · split
    · split
      · exact hw.bind (hR.commit _) fun _ => hw.pure _
      · exact hw.pure _
    · exact hw.bind (hR.withdraw _) fun _ => hw.pure _

variable {deeper : Steps}

/-- The level of the record is left whether its sources succeed or fail. -/
theorem process (hR : EvenConduct w R) (hd : deeper.Obey w (.both R)) (c : ConfigClass)
    (f : NameFilter) : Obeys (.both R) (Step.process w deeper c f) where
  ok h := by
    obtain ⟨hdepth, u, hclimb, rfl⟩ := Step.process_eq_ok h
    exact hR.close hdepth ((hd.climb _ _).ok hclimb).1
  error h := by
    rcases Step.process_eq_error h with ⟨_, rfl⟩ | ⟨hdepth, record, u, hclimb, rfl⟩
    · exact hR.refl _
    · exact hR.close hdepth ((hd.climb _ _).error hclimb)

theorem enter (hR : EvenConduct w R) (hd : deeper.Obey w (.both R)) (c : ConfigClass)
    (f : NameFilter) : Obeys (.both R) (Step.enter w deeper c f) := by
  have hw := hR.conduct
  refine hw.bind (hw.skips _ _) fun skip => ?_
  split
  · exact hw.pure _
  · refine hw.bind (hR.enroll c) fun enrolled => ?_
    split
    · exact hw.bind (hR.process hd c f) fun _ => hR.commit _
    · exact hw.pure _

theorem full (hR : EvenConduct w R) : FullConduct w (.both R) where
  toConduct := hR.conduct
  enter _ hd := hR.enter hd

end EvenConduct
end Wiring
