import Wiring.Proofs.Contributions
import Wiring.Proofs.Groups
import Wiring.Proofs.ImportedBy

/-!
# A run that mirrors another

Two runs take the same step from states that are linked.  If the first one succeeds, so does the
second, with the same result, and they come to states that are linked again.  Which states are
linked, and what is known of the end of the first run, is left open here: a record is collected in
the same way whatever the second run is for.
-/

namespace Wiring

/-! ## Worlds in which everything is done at once -/

/-- One of the classes, or bare. -/
def View.IsAmong (v : View) (cs : List ClassInfo) : Prop := v.IsBare ∨ v.info ∈ cs

/-- Over these classes nothing is skipped, scanned for or put off, and the environment stays as it
is. -/
structure World.IsPrompt (w : World) (cs : List ClassInfo) (env : Environment) : Prop where
  infos : w.resolver.infos ⊆ cs
  neverSkips : ∀ c ∈ cs, w.NeverSkips c
  noScans : ∀ c ∈ cs,
    w.resolver.repeatable c WellKnown.componentScan WellKnown.componentScans = []
  noSources : env.isReadOnly = true ∨ ∀ c ∈ cs,
    w.resolver.repeatable c WellKnown.propertySource WellKnown.propertySources = []
  noEffects : ∀ t ∈ w.resolver.types.types, ∀ maker, t.maker = some maker →
    env.modifySources maker.effect = env
  noDeferral : ∀ t ∈ w.resolver.types.types, ∀ maker, t.maker = some maker →
    ∀ around d, maker.make around ≠ .ok (.deferredSelector d)

/-- A candidate among the classes, which loads from the table if it loads at all. -/
def Resolver.Offers (r : Resolver) (cs : List ClassInfo) (v : View) : Prop :=
  v.IsAmong cs ∧ ∀ t, r.load v = .ok t → t ∈ r.types.types

theorem View.isAmong_filtered {v : View} {cs : List ClassInfo} (h : v.IsAmong cs)
    (f : NameFilter) : (v.filtered f).IsAmong cs := by
  rw [filtered]
  split
  · exact .inl rfl
  · exact h

namespace World.IsPrompt

variable {w : World} {cs : List ClassInfo} {env : Environment} {v u : View} {name : String}

theorem isAmong_of_knows (hw : w.IsPrompt cs env) (h : w.resolver.Knows v) : v.IsAmong cs :=
  h.symm.imp_right fun h => hw.infos h

theorem isAmong_of_related (hw : w.IsPrompt cs env) (h : w.resolver.related v name = .ok u) :
    u.IsAmong cs :=
  hw.isAmong_of_knows (Resolver.knows_related h)

theorem offers_of_related (hw : w.IsPrompt cs env) (h : w.resolver.related v name = .ok u) :
    w.resolver.Offers cs u :=
  ⟨hw.isAmong_of_related h, fun _ ht => Resolver.mem_of_load_related h ht⟩

theorem offers_of_ofName (hw : w.IsPrompt cs env) {f : NameFilter}
    (h : w.resolver.ofName name f = .ok u) : w.resolver.Offers cs u :=
  ⟨hw.isAmong_of_knows (Resolver.knows_ofName h), fun _ ht => Resolver.mem_of_load_ofName h ht⟩

theorem neverSkips_of_isAmong (hw : w.IsPrompt cs env) (h : v.IsAmong cs) :
    w.NeverSkips v.info := by
  obtain hbare | hv := h
  · rw [hbare]
    exact .inr ⟨rfl, rfl⟩
  · exact hw.neverSkips _ hv

end World.IsPrompt

/-! ## The states of the two runs -/

/-- No class is opened while it is still being processed. -/
def NeverReopens : List Milestone → Prop
  | [] => True
  | .opened name _ :: h => ¬ IsOpen name h ∧ NeverReopens h
  | _ :: h => NeverReopens h

instance decidableNeverReopens : (h : List Milestone) → Decidable (NeverReopens h)
  | [] => .isTrue trivial
  | .opened _ _ :: h => @instDecidableAnd _ _ _ (decidableNeverReopens h)
  | .imported _ _ :: h => decidableNeverReopens h
  | .closed :: h => decidableNeverReopens h

theorem NeverReopens.of_cons {m : Milestone} {h : List Milestone} (hm : NeverReopens (m :: h)) :
    NeverReopens h := by
  cases m with
  | opened name isImported => exact hm.2
  | _ => exact hm

theorem NeverReopens.of_suffix {a b : List Milestone} (hb : NeverReopens b) (hab : a <:+ b) :
    NeverReopens a := by
  induction b with
  | nil =>
    rw [List.suffix_nil.1 hab]
    trivial
  | cons m b ih =>
    rcases List.suffix_cons_iff.1 hab with rfl | hab
    · exact hb
    · exact ih hb.of_cons hab

/-- What is open stays open meanwhile, so it is not opened again. -/
theorem NeverReopens.not_opens {a b : List Milestone} {name : String} {isImported : Bool}
    (hb : NeverReopens b) (hab : Balanced a b) (hopen : IsOpen name a) :
    ¬ Opens name isImported a b := by
  rintro ⟨g, _, hag, hgb, rfl⟩
  have hbetween := hab.between g hag ((List.suffix_cons _ _).trans hgb)
  exact (hb.of_suffix hgb).1 ((hbetween.map _).subset hopen)

namespace Run

/-- Between two steps of a run in which everything is done at once. -/
structure IsSteady (s : Run) (env : Environment) (registry : Registry) : Prop where
  environment : s.environment = env
  registry : s.registry = registry
  queue : s.queue = some []
  keyed : s.Keyed
  classes : s.classes.keys.Nodup
  owners : s.superclassOwners.keys.Nodup

/-- The classes on the stack are being processed. -/
def IsStacked (s : Run) : Prop := ∀ c ∈ s.stack, IsOpen c.name s.history

/-- The runs differ at most in what is said of them. -/
structure Idles (s t : Run) : Prop where
  environment : t.environment = s.environment
  registry : t.registry = s.registry
  classes : t.classes = s.classes
  owners : t.superclassOwners = s.superclassOwners
  stack : t.stack = s.stack
  queue : t.queue = s.queue
  depth : t.depth = s.depth
  history : t.history = s.history

/-- What happened and was claimed or noted in the first run has been so in the second. -/
structure Remains (s t : Run) : Prop where
  history : s.history <:+ t.history
  owners : ∀ {source owner}, s.superclassOwners.get? source = some owner →
    t.superclassOwners.get? source = some owner
  notes : ∀ {name importer}, s.Notes name importer → t.Notes name importer

def claiming (s : Run) (source owner : String) : Run :=
  { s with superclassOwners := s.superclassOwners.insert source owner }

end Run

/-- What a part of the collecting of a record comes to.  Only the record itself and what is opened
meanwhile adds claims and commits classes. -/
structure Collecting.Advances (s t : Collecting) : Prop extends s.run.Remains t.run where
  name : t.record.name = s.record.name
  importedBy : t.record.importedBy = s.record.importedBy
  stack : t.run.stack = s.run.stack
  depth : t.run.depth = s.run.depth
  balanced : Balanced s.run.history t.run.history
  claims : ∀ {source owner}, t.run.superclassOwners.get? source = some owner →
    s.run.superclassOwners.get? source = some owner ∨ owner = s.record.name ∨
      ∃ isImported, Opens owner isImported s.run.history t.run.history
  commits : ∀ {name}, t.run.Committed name →
    s.run.Committed name ∨ ∃ isImported, Opens name isImported s.run.history t.run.history

namespace Run

variable {s t u : Run}

theorem Remains.trans (hst : s.Remains t) (htu : t.Remains u) : s.Remains u where
  history := hst.history.trans htu.history
  owners h := htu.owners (hst.owners h)
  notes h := htu.notes (hst.notes h)

theorem Remains.of_eq (classes : t.classes = s.classes)
    (owners : t.superclassOwners = s.superclassOwners) (history : t.history = s.history) :
    s.Remains t where
  history := history ▸ List.suffix_rfl
  owners h := owners ▸ h
  notes h := (notes_congr (by rw [classes])).2 h

theorem Idles.refl (s : Run) : s.Idles s := by constructor <;> rfl

theorem Idles.remains (h : s.Idles t) : s.Remains t := .of_eq h.classes h.owners h.history

theorem IsSteady.of_eq {env : Environment} {registry : Registry} (h : s.IsSteady env registry)
    (environment : t.environment = s.environment) (hregistry : t.registry = s.registry)
    (queue : t.queue = s.queue) (classes : t.classes = s.classes)
    (owners : t.superclassOwners = s.superclassOwners) : t.IsSteady env registry where
  environment := environment.trans h.environment
  registry := hregistry.trans h.registry
  queue := queue.trans h.queue
  keyed := by
    rw [Keyed, classes]
    exact h.keyed
  classes := classes ▸ h.classes
  owners := owners ▸ h.owners

theorem IsSteady.claiming {env : Environment} {registry : Registry} (h : s.IsSteady env registry)
    (source owner : String) : (s.claiming source owner).IsSteady env registry :=
  { h with owners := OrderedMap.nodup_keys_insert h.owners source owner }

end Run

namespace Collecting.Advances

variable {s t u : Collecting}

theorem of_idles (name : t.record.name = s.record.name)
    (importedBy : t.record.importedBy = s.record.importedBy) (h : s.run.Idles t.run) :
    s.Advances t where
  toRemains := h.remains
  name := name
  importedBy := importedBy
  stack := h.stack
  depth := h.depth
  balanced := h.history ▸ .refl _
  claims howner := .inl (h.owners ▸ howner)
  commits hcommitted := by
    rw [Run.Committed, h.classes] at hcommitted
    exact .inl hcommitted

theorem refl (s : Collecting) : s.Advances s := .of_idles rfl rfl (.refl _)

theorem trans (hst : s.Advances t) (htu : t.Advances u) : s.Advances u where
  toRemains := hst.toRemains.trans htu.toRemains
  name := htu.name.trans hst.name
  importedBy := htu.importedBy.trans hst.importedBy
  stack := htu.stack.trans hst.stack
  depth := htu.depth.trans hst.depth
  balanced := hst.balanced.trans htu.balanced
  claims {source owner} h := by
    rcases htu.claims h with h | h | ⟨isImported, h⟩
    · rcases hst.claims h with h | h | ⟨isImported, h⟩
      · exact .inl h
      · exact .inr (.inl h)
      · exact .inr (.inr ⟨isImported, (opens_trans_iff hst.history htu.history).2 (.inl h)⟩)
    · exact .inr (.inl (h.trans hst.name))
    · exact .inr (.inr ⟨isImported, (opens_trans_iff hst.history htu.history).2 (.inr h)⟩)
  commits {name} h := by
    rcases htu.commits h with h | ⟨isImported, h⟩
    · rcases hst.commits h with h | ⟨isImported, h⟩
      · exact .inl h
      · exact .inr ⟨isImported, (opens_trans_iff hst.history htu.history).2 (.inl h)⟩
    · exact .inr ⟨isImported, (opens_trans_iff hst.history htu.history).2 (.inr h)⟩

/-- Claiming a superclass for the record. -/
theorem claiming (s : Collecting) {source : String}
    (hfree : s.run.superclassOwners.contains source = false) :
    s.Advances { s with run := s.run.claiming source s.record.name } where
  history := List.suffix_rfl
  owners h := OrderedMap.get?_insert_of_free h hfree _
  notes h := h
  name := rfl
  importedBy := rfl
  stack := rfl
  depth := rfl
  balanced := .refl _
  claims {other owner} h := by
    by_cases hsource : source = other
    · subst hsource
      rw [Run.claiming, OrderedMap.get?_insert_self] at h
      exact .inr (.inl (Option.some.inj h).symm)
    · rw [Run.claiming, OrderedMap.get?_insert_of_ne _ hsource] at h
      exact .inl h
  commits h := .inl h

end Collecting.Advances

/-! ## Mirroring -/

/-- What the second run mirrors the first one for: while a record of that name is collected, the
states that are on the way to a certain end are linked to those of the second run. -/
structure Mirror where
  name : String
  environment : Environment
  registry : Registry
  /-- The state is on the way to the end. -/
  Ahead : Run → Prop
  /-- What is committed and claimed in the two runs fits. -/
  Links : Run → Run → Prop
  ahead_of_remains : ∀ {s t : Run}, s.Remains t → Ahead t → Ahead s
  links_of_eq : ∀ {s s' t t' : Run}, Links s s' → t.classes = s.classes →
    t.superclassOwners = s.superclassOwners → t'.classes = s'.classes →
    t'.superclassOwners = s'.superclassOwners → Links t t'
  links_claimed : ∀ {s s' : Run} {source : String}, Links s s' → Ahead s →
    s.superclassOwners.contains source = true → s'.superclassOwners.contains source = true
  links_claiming : ∀ {s s' : Run} {source : String}, Links s s' → Ahead (s.claiming source name) →
    s.superclassOwners.contains source = false →
    s'.superclassOwners.contains source = false ∧
      Links (s.claiming source name) (s'.claiming source name)

namespace Mirror

/-- A record of the name is being collected in the first run. -/
structure Holds (M : Mirror) (s : Collecting) : Prop where
  name : s.record.name = M.name
  steady : s.run.IsSteady M.environment M.registry
  stacked : s.run.IsStacked
  isOpen : IsOpen M.name s.run.history

/-- The same has been collected in the second run. -/
structure Matches (M : Mirror) (s s' : Collecting) : Prop where
  record : s'.record = s.record
  links : M.Links s.run s'.run
  stack : s'.run.stack = s.run.stack
  depth : s'.run.depth = s.run.depth
  steady : s'.run.IsSteady M.environment M.registry

/-- The record's class has nothing on the stack, if the end lies ahead. -/
def Apart (M : Mirror) (s : Collecting) : Prop :=
  M.Ahead s.run → ImportStack.holds s.run.stack M.name = false

/-- The step succeeds in the second run if it succeeds in the first one and the end still lies
ahead.  Its result, which meets `Q`, is the same. -/
def Mirrors (M : Mirror) {σ α : Type} (into : σ → Collecting) (act : EStateM Failure σ α) (s : σ)
    (Q : α → Prop) : Prop :=
  M.Holds (into s) → ∀ a t, act s = .ok a t →
    M.Holds (into t) ∧ (into s).Advances (into t) ∧ Q a ∧
      (M.Ahead (into t).run → ∀ s', M.Matches (into s) (into s') →
        ∃ t', act s' = .ok a t' ∧ M.Matches (into t) (into t'))

/-- The step is mirrored, whatever its result. -/
abbrev Mirrored (M : Mirror) {σ α : Type} (into : σ → Collecting) (act : EStateM Failure σ α)
    (s : σ) : Prop :=
  M.Mirrors into act s fun _ => True

theorem Apart.advance {M : Mirror} {s t : Collecting} (h : M.Apart s) (hst : s.Advances t) :
    M.Apart t := by
  intro hahead
  rw [hst.stack]
  exact h (M.ahead_of_remains hst.toRemains hahead)

theorem Holds.of_eq {M : Mirror} {s t : Collecting} (h : M.Holds s)
    (name : t.record.name = s.record.name) (hrun : s.run.Idles t.run) : M.Holds t where
  name := name.trans h.name
  steady := h.steady.of_eq hrun.environment hrun.registry hrun.queue hrun.classes hrun.owners
  stacked := by
    rw [Run.IsStacked, hrun.stack, hrun.history]
    exact h.stacked
  isOpen := hrun.history ▸ h.isOpen

theorem Matches.of_eq {M : Mirror} {s s' t t' : Collecting} (h : M.Matches s s')
    (hrecord : t'.record = t.record) (hrun : s.run.Idles t.run) (hrun' : s'.run.Idles t'.run) :
    M.Matches t t' where
  record := hrecord
  links := M.links_of_eq h.links hrun.classes hrun.owners hrun'.classes hrun'.owners
  stack := by rw [hrun.stack, hrun'.stack, h.stack]
  depth := by rw [hrun.depth, hrun'.depth, h.depth]
  steady := h.steady.of_eq hrun'.environment hrun'.registry hrun'.queue hrun'.classes hrun'.owners

namespace Mirrors

variable {M : Mirror} {σ α β : Type} {into : σ → Collecting} {s : σ} {Q : α → Prop} {R : β → Prop}

theorem pure {a : α} (h : Q a) : M.Mirrors into (pure a) s Q := by
  intro hs b t hb
  obtain ⟨rfl, rfl⟩ := pure_eq_ok.1 hb
  exact ⟨hs, .refl _, h, fun _ s' hrel => ⟨s', rfl, hrel⟩⟩

theorem throw {e : Failure} : M.Mirrors into (throw e) s Q :=
  fun _ _ _ h => absurd h throw_ne_ok

theorem bind {x : EStateM Failure σ α} {f : α → EStateM Failure σ β} (hx : M.Mirrors into x s Q)
    (hf : ∀ a t, (into s).Advances (into t) → Q a → M.Mirrors into (f a) t R) :
    M.Mirrors into (x >>= f) s R := by
  intro hs b u h
  obtain ⟨a, t, ha, hb⟩ := bind_eq_ok.1 h
  obtain ⟨ht, hst, hQ, hsecond⟩ := hx hs a t ha
  obtain ⟨hu, htu, hR, hrest⟩ := hf a t hst hQ ht b u hb
  refine ⟨hu, hst.trans htu, hR, fun hahead s' hrel => ?_⟩
  obtain ⟨t', ha', hrel⟩ := hsecond (M.ahead_of_remains htu.toRemains hahead) s' hrel
  obtain ⟨u', hb', hrel⟩ := hrest hahead t' hrel
  exact ⟨u', bind_eq_ok.2 ⟨a, t', ha', hb'⟩, hrel⟩

/-- A step whose result does not matter comes first. -/
theorem andThen {x : EStateM Failure σ α} {f : α → EStateM Failure σ β} (hx : M.Mirrored into x s)
    (hf : ∀ a t, (into s).Advances (into t) → M.Mirrors into (f a) t R) :
    M.Mirrors into (x >>= f) s R :=
  hx.bind fun a t ht _ => hf a t ht

theorem ofExcept_bind {x : Except Failure α} {f : α → EStateM Failure σ β}
    (hf : ∀ a, x = .ok a → M.Mirrors into (f a) s R) :
    M.Mirrors into (Wiring.ofExcept x >>= f) s R := by
  cases x with
  | ok a => exact hf a rfl
  | error e => exact fun _ _ _ h => absurd h throw_ne_ok

/-- The two states agree in what the step reads. -/
theorem read {f : σ → EStateM Failure σ β}
    (hf : ∀ s', M.Ahead (into s).run → M.Matches (into s) (into s') → f s' = f s)
    (h : M.Mirrors into (f s) s R) : M.Mirrors into (get >>= f) s R := by
  intro hs b t hb
  obtain ⟨ht, hst, hR, hsecond⟩ := h hs b t hb
  refine ⟨ht, hst, hR, fun hahead s' hrel => ?_⟩
  obtain ⟨t', hact, hrel'⟩ := hsecond hahead s' hrel
  refine ⟨t', ?_, hrel'⟩
  rw [← hf s' (M.ahead_of_remains hst.toRemains hahead) hrel] at hact
  exact hact

theorem record {f : ConfigClass → RecordM β} {s : Collecting}
    (h : M.Mirrors id (f s.record) s R) : M.Mirrors id (RecordM.record >>= f) s R :=
  read (f := fun s => f s.record) (fun _ _ hrel => congrArg f hrel.record) h

theorem forM {f : α → EStateM Failure σ PUnit} {as : List α}
    (h : ∀ a ∈ as, ∀ t, (into s).Advances (into t) → M.Mirrored into (f a) t) :
    M.Mirrored into (as.forM f) s := by
  induction as generalizing s with
  | nil => exact .pure trivial
  | cons a as ih =>
    refine .andThen (h a List.mem_cons_self s (.refl _)) fun _ t ht => ?_
    exact ih fun a ha u hu => h a (List.mem_cons_of_mem _ ha) u (ht.trans hu)

/-- Only what is said of the run changes. -/
theorem idle {f : σ → σ} (hrecord : ∀ s, (into (f s)).record = (into s).record)
    (hrun : ∀ s, (into s).run.Idles (into (f s)).run) :
    M.Mirrored into (modify f : EStateM Failure σ PUnit) s := by
  intro hs _ t h
  obtain rfl := modify_eq_ok.1 h
  have hidle := hrun s
  have hname : (into (f s)).record.name = (into s).record.name := congrArg (·.name) (hrecord s)
  have himportedBy : (into (f s)).record.importedBy = (into s).record.importedBy :=
    congrArg (·.importedBy) (hrecord s)
  refine ⟨hs.of_eq hname hidle, .of_idles hname himportedBy hidle, trivial,
    fun _ s' hrel => ⟨f s', rfl, hrel.of_eq ?_ hidle (hrun s')⟩⟩
  rw [hrecord, hrecord, hrel.record]

/-- Something is collected on the record. -/
theorem gather {f : ConfigClass → ConfigClass} {s : Collecting}
    (hname : (f s.record).name = s.record.name)
    (himportedBy : (f s.record).importedBy = s.record.importedBy) :
    M.Mirrored id (RecordM.modifyRecord f) s := by
  intro hs _ t h
  obtain rfl := modify_eq_ok.1 h
  refine ⟨hs.of_eq hname (.refl _), .of_idles hname himportedBy (.refl _), trivial,
    fun _ s' hrel => ⟨_, rfl, hrel.of_eq ?_ (.refl _) (.refl _)⟩⟩
  exact congrArg f hrel.record

theorem lift {act : RunM α} {s : Collecting} (h : M.Mirrors (Collecting.mk s.record) act s.run Q) :
    M.Mirrors id (liftM act : RecordM α) s Q := by
  intro hs a t hact
  obtain ⟨run, hrun, rfl⟩ := toRecordM_eq_ok.1 hact
  obtain ⟨ht, hst, hQ, hsecond⟩ := h hs a run hrun
  refine ⟨ht, hst, hQ, fun hahead s' hrel => ?_⟩
  obtain ⟨record', run'⟩ := s'
  obtain rfl : record' = s.record := hrel.record
  obtain ⟨t', hact', hrel'⟩ := hsecond hahead run' hrel
  exact ⟨⟨s.record, t'⟩, toRecordM_eq_ok.2 ⟨t', hact', rfl⟩, hrel'⟩

theorem onFailure {g : Failure → Failure} {act : EStateM Failure σ α}
    (h : M.Mirrors into act s Q) : M.Mirrors into (Wiring.onFailure g act) s Q := by
  intro hs a t hact
  obtain ⟨ht, hst, hQ, hsecond⟩ := h hs a t (onFailure_eq_ok.1 hact)
  refine ⟨ht, hst, hQ, fun hahead s' hrel => ?_⟩
  obtain ⟨t', hact', hrel'⟩ := hsecond hahead s' hrel
  exact ⟨t', onFailure_eq_ok.2 hact', hrel'⟩

/-- A step with a class of the name on the stack. -/
theorem stacked {c : ClassInfo} (hc : c.name = M.name) {push pop : σ → σ}
    {act : EStateM Failure σ PUnit}
    (hpush : ∀ s, into (push s) =
      { into s with run := { (into s).run with stack := c :: (into s).run.stack } })
    (hpop : ∀ s, into (pop s) = { into s with run := RunM.pop (into s).run })
    (hact : M.Mirrored into act (push s)) :
    M.Mirrored into (modify push >>= fun _ => ensuring pop act) s := by
  intro hs a t h
  replace h := modify_bind_eq.1 h
  obtain ⟨u, hu, rfl⟩ := ensuring_eq_ok.1 h
  have hpushed : M.Holds (into (push s)) := by
    rw [hpush]
    refine ⟨hs.name, hs.steady.of_eq rfl rfl rfl rfl rfl, ?_, hs.isOpen⟩
    intro d hd
    rcases List.mem_cons.1 hd with rfl | hd
    · rw [hc]
      exact hs.isOpen
    · exact hs.stacked d hd
  obtain ⟨hu', hsu, _, hsecond⟩ := hact hpushed a u hu
  rw [hpush] at hsu hsecond
  have hstack : (RunM.pop (into u).run).stack = (into s).run.stack := by
    rw [RunM.pop, hsu.stack]
    rfl
  rw [hpop]
  refine ⟨⟨hu'.name, hu'.steady.of_eq rfl rfl rfl rfl rfl, ?_, hu'.isOpen⟩, ?_, trivial, ?_⟩
  · -- what was open when the class was pushed is open again when it is popped
    intro d hd
    rw [hstack] at hd
    exact hsu.balanced.isOpen_iff.2 (hs.stacked d hd)
  · exact { hsu with stack := hstack }
  · intro hahead s' hrel
    have hlater : (into u).run.Remains (RunM.pop (into u).run) := .of_eq rfl rfl rfl
    obtain ⟨u', hu', hrel'⟩ := hsecond (M.ahead_of_remains hlater hahead) (push s') <| by
      rw [hpush]
      exact ⟨hrel.record, M.links_of_eq hrel.links rfl rfl rfl rfl,
        congrArg (c :: ·) hrel.stack, hrel.depth, hrel.steady.of_eq rfl rfl rfl rfl rfl⟩
    refine ⟨pop u', modify_bind_eq.2 (ensuring_eq_ok.2 ⟨u', hu', rfl⟩), ?_⟩
    rw [hpop]
    exact ⟨hrel'.record, M.links_of_eq hrel'.links rfl rfl rfl rfl,
      congrArg List.tail hrel'.stack, hrel'.depth, hrel'.steady.of_eq rfl rfl rfl rfl rfl⟩

/-- A step one level deeper. -/
theorem nested {w : World} {className : String} {act : RecordM PUnit} {s : Collecting}
    (hact : M.Mirrored id act { s with run := RunM.deepen s.run }) :
    M.Mirrored id (liftM (RunM.descend w className) >>= fun _ =>
      ensuring (fun s => { s with run := RunM.ascend s.run }) act) s := by
  intro hs a t h
  obtain ⟨_, _, hdescend, h⟩ := bind_eq_ok.1 h
  obtain ⟨run, hrun, rfl⟩ := toRecordM_eq_ok.1 hdescend
  obtain ⟨hdepth, rfl⟩ := Step.descend_eq_ok.1 hrun
  obtain ⟨u, hu, rfl⟩ := ensuring_eq_ok.1 h
  have hdeeper : M.Holds { s with run := RunM.deepen s.run } :=
    ⟨hs.name, hs.steady.of_eq rfl rfl rfl rfl rfl, hs.stacked, hs.isOpen⟩
  obtain ⟨hu', hsu, _, hsecond⟩ := hact hdeeper a u hu
  have hlevel : (RunM.ascend u.run).depth = s.run.depth := congrArg (· - 1) hsu.depth
  have hlater : u.run.Remains (RunM.ascend u.run) := .of_eq rfl rfl rfl
  refine ⟨⟨hu'.name, hu'.steady.of_eq rfl rfl rfl rfl rfl, hu'.stacked, hu'.isOpen⟩,
    { hsu with depth := hlevel }, trivial, fun hahead s' hrel => ?_⟩
  have hsame : s'.run.depth = s.run.depth := hrel.depth
  obtain ⟨u', hact', hrel'⟩ := hsecond (M.ahead_of_remains hlater hahead)
    { s' with run := RunM.deepen s'.run }
    ⟨hrel.record, M.links_of_eq hrel.links rfl rfl rfl rfl, hrel.stack,
      congrArg (· + 1) hsame, hrel.steady.of_eq rfl rfl rfl rfl rfl⟩
  refine ⟨{ u' with run := RunM.ascend u'.run }, bind_eq_ok.2 ⟨(), _, toRecordM_eq_ok.2
    ⟨_, Step.descend_eq_ok.2 ⟨?_, rfl⟩, rfl⟩, ensuring_eq_ok.2 ⟨u', hact', rfl⟩⟩, ?_⟩
  · rw [hsame]
    exact hdepth
  · exact ⟨hrel'.record, M.links_of_eq hrel'.links rfl rfl rfl rfl, hrel'.stack,
      congrArg (· - 1) hrel'.depth, hrel'.steady.of_eq rfl rfl rfl rfl rfl⟩

end Mirrors
end Mirror
end Wiring
