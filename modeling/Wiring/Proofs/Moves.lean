import Wiring.Proofs.Methods
import Wiring.Proofs.Quiet
import Wiring.Run

/-!
# What successful steps do

`Moves` says what a part of a run may have done when it succeeded: which records it opened,
committed and merged, what it claimed and what it imported, however deep.  Every successful
step is such a move.  What holds of all moves therefore holds of all successful runs, without
a look at the steps themselves.
-/

namespace Wiring

namespace Run

def Committed (s : Run) (name : String) : Prop := s.classes.contains name = true

def HasOpened (s : Run) (name : String) : Prop :=
  ∃ isImported, Milestone.opened name isImported ∈ s.history

/-- A circular import of the class has been reported. -/
def HasReported (s : Run) (name : String) : Prop :=
  ∃ problem ∈ s.problems, problem.kind = .circularImport ∧ problem.className = some name

/-- A run that has not begun, in an environment and with a registry that may hold anything. -/
def fresh (environment : Environment) (registry : Registry) : Run := { environment, registry }

def commit (s : Run) (c : ConfigClass) : Run := { s with classes := s.classes.insert c.name c }

def withdraw (s : Run) (name : String) : Run :=
  { s with
    classes := s.classes.erase name
    superclassOwners := ⟨s.superclassOwners.entries.filter (·.2 ≠ name)⟩ }

/-- The record begins to be processed. -/
def opening (s : Run) (c : ConfigClass) : Run :=
  { RunM.deepen s with history := .opened c.name c.isImported :: s.history }

/-- Every record is committed under the name of its class. -/
def Keyed (s : Run) : Prop := ∀ e ∈ s.classes.entries, e.2.name = e.1

/-- The class is imported on behalf of another one. -/
def importing (s : Run) (name importer : String) : Run :=
  { s with history := .imported name importer :: s.history }

/-- The class is committed, and with that importer unless it is explicit. -/
def Notes (s : Run) (name importer : String) : Prop :=
  ∃ c, s.classes.get? name = some c ∧ (c.isImported = true → importer ∈ c.importedBy.keys)

/-- There is room for the record after `s`, which becomes `t` by making it. -/
def Enrolls (s : Run) (c : ConfigClass) (t : Run) : Prop :=
  (¬ s.Committed c.name ∧ t = s) ∨
    (s.Committed c.name ∧ c.isImported = false ∧ t = s.withdraw c.name)

end Run

theorem Run.HasOpened.mono {s t : Run} {name : String} (h : s.HasOpened name)
    (hst : s.history ⊆ t.history) : t.HasOpened name := by
  obtain ⟨isImported, hmem⟩ := h
  exact ⟨isImported, hst hmem⟩

/-- An import is not an opening. -/
theorem Run.hasOpened_importing {s : Run} {name importer other : String} :
    (s.importing name importer).HasOpened other ↔ s.HasOpened other := by
  unfold HasOpened importing
  simp

namespace ConfigClass

/-- Nothing has been collected on the record yet. -/
structure IsNew (c : ConfigClass) : Prop where
  beanMethods : c.beanMethods = {}
  sources : c.sources = []

theorem isNew_explicit (v : View) (beanName : Option String) : (explicit v beanName).IsNew :=
  ⟨rfl, rfl⟩

theorem isNew_imported (v : View) (importer : ConfigClass) : (imported v importer).IsNew :=
  ⟨rfl, rfl⟩

theorem isNew_detached (c : ConfigClass) : c.detached.IsNew := ⟨rfl, rfl⟩

/-- The record after `v` has brought its bean methods. -/
def gained (c : ConfigClass) (v : View) (ms : List Method) : ConfigClass :=
  { c.addMethods ms with sources := c.sources ++ [v] }

/-- The records differ at most in what is collected besides bean methods. -/
structure SameCore (c d : ConfigClass) : Prop where
  view : d.view = c.view
  beanName : d.beanName = c.beanName
  importedBy : d.importedBy = c.importedBy
  beanMethods : d.beanMethods = c.beanMethods
  sources : d.sources = c.sources

theorem SameCore.refl (c : ConfigClass) : c.SameCore c := ⟨rfl, rfl, rfl, rfl, rfl⟩

theorem SameCore.trans {c d e : ConfigClass} (h : c.SameCore d) (h' : d.SameCore e) :
    c.SameCore e where
  view := h'.view.trans h.view
  beanName := h'.beanName.trans h.beanName
  importedBy := h'.importedBy.trans h.importedBy
  beanMethods := h'.beanMethods.trans h.beanMethods
  sources := h'.sources.trans h.sources

end ConfigClass

/-- The profiles and the conditions on the class leave it in, whatever they are asked for. -/
def World.NeverSkips (w : World) (c : ClassInfo) : Prop :=
  w.asksConditions = false ∨
    c.tag? WellKnown.profile = none ∧ c.tags.filter (·.typeName == WellKnown.conditional) = []

/-- A candidate that is entered as a class: neither a selector nor a registrar, and not the
empty view. -/
def Resolver.IsPlain (r : Resolver) (v : View) : Prop :=
  r.isAssignable v WellKnown.importSelector = false ∧
    r.isAssignable v WellKnown.registrar = false ∧ v.isObject = false

/-- The member classes and the imports of `v` have been entered on behalf of the record, or
else the record's class was on the stack already. -/
structure Followed (w : World) (v : View) (s : Collecting) : Prop where
  members : w.resolver.isTagged s.record.info WellKnown.component = true →
    ∀ m ∈ Step.memberCandidates w.resolver v s.record.name, w.NeverSkips m.info →
      s.run.Committed m.name ∨ ImportStack.holds s.run.stack s.record.name = true
  imports : ∃ us, w.resolver.imports v = .ok us ∧
    ((∀ u ∈ us, w.resolver.IsPlain u → w.NeverSkips u.info → s.run.Committed u.name) ∨
      ImportStack.holds s.run.stack s.record.name = true ∧ s.run.HasReported s.record.name)

/-- What a run may come to. -/
structure Scope where
  /-- A class may be entered with this view. -/
  Enters : View → Prop
  /-- The view may be processed as a source of a record with that metadata. -/
  Reads : ClassInfo → View → Prop

/-- Some source in the scope imports a selector. -/
def Scope.Selects (K : Scope) (w : World) : Prop :=
  ∃ c v us u, K.Reads c v ∧ w.resolver.imports v = .ok us ∧ u ∈ us ∧
    w.resolver.isAssignable u WellKnown.importSelector = true

/-- Some source in the scope declares a scan. -/
def Scope.Scans (K : Scope) (w : World) : Prop :=
  ∃ c v, K.Reads c v ∧
    w.resolver.repeatable v.info WellKnown.componentScan WellKnown.componentScans ≠ []

/-- The candidate is chosen by a selector, or imported by a source of that metadata. -/
def Scope.Imports (K : Scope) (w : World) (c importing : ClassInfo) (u : View) : Prop :=
  K.Selects w ∨ ∃ v us, K.Reads c v ∧ v.info = importing ∧ w.resolver.imports v = .ok us ∧ u ∈ us

/-- A source of that metadata has member classes. -/
def Scope.HasMembers (K : Scope) (w : World) (c : ClassInfo) : Prop :=
  ∃ v m, K.Reads c v ∧ m ∈ Step.memberCandidates w.resolver v c.name

/-- The parts that a run consists of. -/
inductive Part where
  /-- Sources are processed as part of a record. -/
  | source
  /-- Candidates are imported on behalf of a record. -/
  | candidates
  /-- Explicit classes are entered one after the other. -/
  | entries
deriving DecidableEq

/-- The record stands for what the part of a run has just come to: an explicit class among the
entries, or else a class that is being imported by the record of the part. -/
def ConfigClass.IsDue (c : ConfigClass) (p : Part) (s : Collecting) : Prop :=
  (p = .entries ∧ c.importedBy = {}) ∨
    (p ≠ .entries ∧ c.importedBy = ⟨[(s.record.name, s.record.info)]⟩ ∧
      s.run.history.head? = some (.imported c.name s.record.name))

/-- What the view brings is for the class of that name to collect: the view is empty, or it is the
class itself, or a superclass that is claimed for it. -/
def Run.Grants (s : Run) (name : String) (v : View) : Prop :=
  v = .object ∨ v.name = name ∨ s.superclassOwners.get? v.name = some name

/-- What a part of a run may do that succeeds, within the scope `K`. -/
inductive Moves (w : World) (K : Scope) : Part → Collecting → Collecting → Prop
  | refl {p : Part} (s : Collecting) : Moves w K p s s
  | trans {p : Part} {s t u : Collecting} : Moves w K p s t → Moves w K p t u → Moves w K p s u
  | aside {p : Part} {s : Collecting} {run : Run} : s.run.SameCourse run →
      Moves w K p s { s with run }
  | report {p : Part} {s : Collecting} (problem : Problem) :
      problem.kind = .circularImport →
      (ImportStack.isCircular s.run.stack s.run.importers s.record.name = true ∨
        K.HasMembers w s.record.info) →
      Moves w K p s
        { s with run := { s.run with problems := s.run.problems ++ [problem] } }
  /-- A scan answers, and what it found is entered. -/
  | scan {p : Part} {s t : Collecting} {request : ScanRequest} {found : List NamedDefinition}
      {registry : Registry} : K.Scans w →
      w.scanner.scan request w.resolver.reader s.run.registry = (.ok found, registry) →
      Moves w K .entries { s with run := { s.run with registry } } t →
      (found = [] → t = { s with run := { s.run with registry } }) →
      Moves w K p s t
  /-- A class is registered as imported and then entered. -/
  | register {p : Part} {s t : Collecting} {importing : ClassInfo} {v : View} :
      K.Enters v → K.Imports w s.record.info importing v → w.resolver.IsPlain v →
      Moves w K p
        { s with run := { s.run with importers := s.run.importers.register importing v.name } }
        t →
      (w.NeverSkips v.info → t.run.Committed v.name) →
      Moves w K p s t
  /-- A class is entered on behalf of the record. -/
  | imported {p : Part} {s t : Collecting} {v : View} :
      K.Enters v →
      Moves w K p { s with run := s.run.importing v.name s.record.name } t →
      (w.NeverSkips v.info → s.run.Keyed → t.run.Notes v.name s.record.name) →
      Moves w K p s t
  /-- A superclass is claimed for the record and then processed. -/
  | claim {s t : Collecting} {v next : View} {name : String} :
      s.run.HasOpened s.record.name →
      v.info.superClass = some name →
      s.run.superclassOwners.contains name = false →
      w.resolver.superClass v = .ok (some next) →
      Moves w K .source
        { s with run := { s.run with
          superclassOwners := s.run.superclassOwners.insert name s.record.name } } t →
      next ∈ t.record.sources →
      Moves w K .source s t
  | enqueue {p : Part} {s : Collecting} {queue : List Deferred} (d : Deferred) :
      K.Selects w → s.run.queue = some queue →
      Moves w K p s { s with run := { s.run with queue := some (queue ++ [d]) } }
  /-- Candidates or members are entered with the record's class on the stack. -/
  | stacked {p : Part} {s t : Collecting} : p ≠ .entries →
      Moves w K .candidates { s with run := { s.run with stack := s.record.info :: s.run.stack } }
        t →
      Moves w K p s { t with run := RunM.pop t.run }
  | nested {p : Part} {s t : Collecting} :
      Moves w K p { s with run := RunM.deepen s.run } t →
      Moves w K p s { t with run := RunM.ascend t.run }
  /-- A class that is committed as imported is imported again. -/
  | merge {p : Part} {s : Collecting} {c present : ConfigClass} :
      s.run.classes.get? c.name = some present → present.isImported = true →
      p ≠ .entries → c.IsDue p s →
      Moves w K p s { s with run := s.run.commit (present.mergeImporters c) }
  /-- A record is opened, processed, closed and committed. -/
  | visit {p : Part} {s t : Collecting} {c : ConfigClass} {f : NameFilter} {run : Run} :
      K.Enters c.view → (¬ K.Selects w → f = w.resolver.filter) →
      c.IsNew → c.IsDue p s →
      s.run.Enrolls c run →
      Moves w K .source ⟨c, run.opening c⟩ t →
      c.view.filtered f ∈ t.record.sources →
      Moves w K p s { s with run := (RunM.close t.run).commit t.record }
  /-- Something other than bean methods is collected. -/
  | gather {p : Part} {s : Collecting} {record : ConfigClass} : s.record.SameCore record →
      Moves w K p s { s with record }
  /-- The bean methods of a source are collected.  Scans may have released it meanwhile. -/
  | collect {s : Collecting} {v : View} {ms : List Method} : K.Reads s.record.info v →
      (¬ K.Scans w → s.run.Grants s.record.name v) → w.resolver.allMethods v = .ok ms →
      Followed w v s → Moves w K .source s { s with record := s.record.gained v ms }
  /-- What was collected on a new record goes to the committed class of that name. -/
  | absorb {p : Part} {s t : Collecting} {c : ConfigClass} {name : String} :
      K.Selects w → c.IsNew →
      (c.name = name ∨ ∃ present, s.run.classes.get? name = some present ∧ c = present.detached) →
      Moves w K .candidates ⟨c, s.run⟩ t →
      Moves w K p s { s with run := { t.run with
        classes := t.run.classes.modify name (·.absorb t.record) } }

namespace Run

theorem committed_of_get? {s : Run} {name : String} {c : ConfigClass}
    (h : s.classes.get? name = some c) : s.Committed name := by
  rw [Committed, OrderedMap.contains, h]
  rfl

theorem committed_commit {s : Run} {c : ConfigClass} {name : String} :
    (s.commit c).Committed name ↔ name = c.name ∨ s.Committed name :=
  OrderedMap.contains_insert_iff

theorem committed_withdraw_of_ne {s : Run} {name other : String} (h : other ≠ name) :
    (s.withdraw name).Committed other ↔ s.Committed other := by
  have hget := OrderedMap.get?_erase_of_ne s.classes h.symm
  rw [Committed, Committed, OrderedMap.contains, OrderedMap.contains, withdraw, hget]

theorem committed_modify {s : Run} {key name : String} {f : ConfigClass → ConfigClass} :
    Committed { s with classes := s.classes.modify key f } name ↔ s.Committed name := by
  rw [Committed, Committed, OrderedMap.contains_iff, OrderedMap.contains_iff,
    OrderedMap.keys_modify]

theorem Enrolls.committed {s t : Run} {c : ConfigClass} (h : s.Enrolls c t) {name : String}
    (hname : name ≠ c.name) : t.Committed name ↔ s.Committed name := by
  obtain ⟨_, rfl⟩ | ⟨_, _, rfl⟩ := h
  · rfl
  · exact committed_withdraw_of_ne hname

theorem Enrolls.classes_subset {s t : Run} {c : ConfigClass} (h : s.Enrolls c t) :
    t.classes.entries ⊆ s.classes.entries := by
  obtain ⟨_, rfl⟩ | ⟨_, _, rfl⟩ := h
  · exact fun _ he => he
  · exact List.eraseP_sublist.subset

theorem Enrolls.committed_of_committed {s t : Run} {c : ConfigClass} (h : s.Enrolls c t)
    {name : String} (hname : t.Committed name) : s.Committed name := by
  rw [Committed, OrderedMap.contains_iff] at hname ⊢
  exact List.map_subset _ h.classes_subset hname

theorem Enrolls.owners_subset {s t : Run} {c : ConfigClass} (h : s.Enrolls c t) :
    t.superclassOwners.entries ⊆ s.superclassOwners.entries := by
  obtain ⟨_, rfl⟩ | ⟨_, _, rfl⟩ := h
  · exact fun _ he => he
  · exact List.filter_subset_self _

end Run

/-- What a successful part of a run leaves as it was or only adds to. -/
structure Continues (s t : Collecting) : Prop where
  view : t.record.view = s.record.view
  importedBy : t.record.importedBy = s.record.importedBy
  sources : s.record.sources ⊆ t.record.sources
  stack : t.run.stack = s.run.stack
  depth : t.run.depth = s.run.depth
  history : s.run.history <:+ t.run.history
  problems : s.run.problems ⊆ t.run.problems
  committed : ∀ name, s.run.Committed name → t.run.Committed name
  nodup : s.run.classes.keys.Nodup → t.run.classes.keys.Nodup

namespace Continues

theorem refl (s : Collecting) : Continues s s :=
  ⟨rfl, rfl, fun _ h => h, rfl, rfl, List.suffix_rfl, fun _ h => h, fun _ h => h, id⟩

theorem trans {s t u : Collecting} (h : Continues s t) (h' : Continues t u) : Continues s u where
  view := h'.view.trans h.view
  importedBy := h'.importedBy.trans h.importedBy
  sources := fun _ hv => h'.sources (h.sources hv)
  stack := h'.stack.trans h.stack
  depth := h'.depth.trans h.depth
  history := h.history.trans h'.history
  problems := fun _ hp => h'.problems (h.problems hp)
  committed := fun name hn => h'.committed name (h.committed name hn)
  nodup := fun hs => h'.nodup (h.nodup hs)

theorem name {s t : Collecting} (h : Continues s t) : t.record.name = s.record.name := by
  rw [ConfigClass.name, ConfigClass.name, h.view]

theorem info {s t : Collecting} (h : Continues s t) : t.record.info = s.record.info := by
  rw [ConfigClass.info, ConfigClass.info, h.view]

/-- A step on the run keeps the record, and a step on the record keeps the run. -/
theorem of_run {s : Collecting} {run : Run} (stack : run.stack = s.run.stack)
    (depth : run.depth = s.run.depth) (history : s.run.history <:+ run.history)
    (problems : s.run.problems ⊆ run.problems) (classes : run.classes = s.run.classes) :
    Continues s { s with run } where
  view := rfl
  importedBy := rfl
  sources := fun _ h => h
  stack := stack
  depth := depth
  history := history
  problems := problems
  committed := fun name h => by
    rw [Run.Committed, classes]
    exact h
  nodup := fun h => by
    rw [classes]
    exact h

end Continues

theorem Run.Enrolls.continues {s t : Run} {c : ConfigClass} (h : s.Enrolls c t) :
    t.stack = s.stack ∧ t.depth = s.depth ∧ t.history = s.history ∧ t.problems = s.problems ∧
      (s.classes.keys.Nodup → t.classes.keys.Nodup) := by
  obtain ⟨_, rfl⟩ | ⟨_, _, rfl⟩ := h
  · exact ⟨rfl, rfl, rfl, rfl, id⟩
  · exact ⟨rfl, rfl, rfl, rfl, (OrderedMap.keys_erase_sublist _ _).nodup⟩

theorem ImportStack.holds_cons {c : ClassInfo} {stack : ImportStack} {name : String} :
    ImportStack.holds (c :: stack) name = true ↔
      name = c.name ∨ ImportStack.holds stack name = true := by
  rw [holds, List.any_cons, Bool.or_eq_true, beq_iff_eq, eq_comm, ← holds]

theorem ConfigClass.IsDue.isImported_iff {c : ConfigClass} {p : Part} {s : Collecting}
    (h : c.IsDue p s) : c.isImported = true ↔ p ≠ .entries := by
  obtain ⟨rfl, hby⟩ | ⟨hp, hby, _⟩ := h
  · rw [isImported, hby]
    simp [OrderedMap.isEmpty]
  · rw [isImported, hby]
    exact ⟨fun _ => hp, fun _ => rfl⟩

theorem ConfigClass.IsDue.sameCourse {c record : ConfigClass} {p : Part} {s t : Run}
    (h : c.IsDue p ⟨record, s⟩) (hst : s.SameCourse t) : c.IsDue p ⟨record, t⟩ := by
  unfold IsDue at h ⊢
  rw [hst.history]
  exact h

/-- What imports a selector selects. -/
theorem Scope.Imports.selects {K : Scope} {w : World} {c importing : ClassInfo} {u : View}
    (h : K.Imports w c importing u)
    (hu : w.resolver.isAssignable u WellKnown.importSelector = true) : K.Selects w := by
  obtain h | ⟨v, us, hread, _, hus, hmem⟩ := h
  · exact h
  · exact ⟨c, v, us, u, hread, hus, hmem, hu⟩

theorem Moves.continues {w : World} {K : Scope} {p : Part} {s t : Collecting}
    (h : Moves w K p s t) : Continues s t := by
  induction h with
  | refl s => exact .refl s
  | trans _ _ ih ih' => exact ih.trans ih'
  | aside h =>
    exact .of_run h.stack h.depth (h.history.symm ▸ List.suffix_rfl)
      (h.problems.symm ▸ List.Subset.refl _) h.classes
  | report _ _ _ =>
    exact .of_run rfl rfl List.suffix_rfl (fun _ hp => List.mem_append_left _ hp) rfl
  | scan _ _ _ _ ih =>
    refine Continues.trans ?_ ih
    exact .of_run rfl rfl List.suffix_rfl (fun _ hp => hp) rfl
  | register _ _ _ _ _ ih =>
    refine Continues.trans ?_ ih
    exact .of_run rfl rfl List.suffix_rfl (fun _ hp => hp) rfl
  | imported _ _ _ ih =>
    refine Continues.trans ?_ ih
    exact .of_run rfl rfl (List.suffix_cons _ _) (fun _ hp => hp) rfl
  | claim _ _ _ _ _ _ ih =>
    refine Continues.trans ?_ ih
    exact .of_run rfl rfl List.suffix_rfl (fun _ hp => hp) rfl
  | enqueue _ _ _ => exact .of_run rfl rfl List.suffix_rfl (fun _ hp => hp) rfl
  | stacked _ _ ih =>
    refine { ih with stack := ?_ }
    rw [RunM.pop, ih.stack]
    rfl
  | nested _ ih =>
    refine { ih with depth := ?_ }
    rw [RunM.ascend, ih.depth]
    rfl
  | @merge p s c present hpresent _ _ _ =>
    refine { Continues.refl s with committed := fun name hname => ?_, nodup := fun hs => ?_ }
    · exact Run.committed_commit.2 (.inr hname)
    · exact OrderedMap.nodup_keys_insert hs _ _
  | @visit p s t c f run _ _ _ _ hrun _ _ ih =>
    obtain ⟨hstack, hdepth, hhistory, hproblems, hnodup⟩ := hrun.continues
    refine { Continues.refl s with
      stack := ih.stack.trans hstack, depth := ?_, history := ?_, problems := ?_,
      committed := fun name hname => ?_, nodup := fun hs => ?_ }
    · show t.run.depth - 1 = s.run.depth
      rw [ih.depth, ← hdepth]
      rfl
    · show s.run.history <:+ .closed :: t.run.history
      have hopen : run.history <:+ t.run.history :=
        (List.suffix_cons _ _).trans ih.history
      rw [hhistory] at hopen
      exact hopen.trans (List.suffix_cons _ _)
    · show s.run.problems ⊆ t.run.problems
      rw [← hproblems]
      exact ih.problems
    · refine Run.committed_commit.2 ?_
      by_cases hc : name = c.name
      · exact .inl (hc.trans ih.name.symm)
      · exact .inr (ih.committed name ((hrun.committed hc).2 hname))
    · exact OrderedMap.nodup_keys_insert (ih.nodup (hnodup hs)) _ _
  | gather h =>
    refine { Continues.refl _ with view := h.view, importedBy := h.importedBy, sources := ?_ }
    rw [h.sources]
    exact fun _ hv => hv
  | @collect s v ms _ _ _ _ =>
    refine { Continues.refl s with view := ?_, importedBy := ?_, sources := ?_ }
    · rw [ConfigClass.gained, ConfigClass.addMethods_eq]
    · rw [ConfigClass.gained, ConfigClass.addMethods_eq]
    · exact List.subset_append_left _ _
  | @absorb p s t c name _ _ _ _ ih =>
    refine { Continues.refl s with
      stack := ih.stack, depth := ih.depth, history := ih.history, problems := ih.problems,
      committed := fun other hother => ?_, nodup := fun hs => ?_ }
    · exact Run.committed_modify.2 (ih.committed other hother)
    · show (t.run.classes.modify name _).keys.Nodup
      rw [OrderedMap.keys_modify]
      exact ih.nodup hs

theorem Run.Keyed.name_eq {s : Run} (h : s.Keyed) {name : String} {c : ConfigClass}
    (hc : s.classes.get? name = some c) : c.name = name :=
  h _ (OrderedMap.mem_entries_of_get? hc)

theorem Run.Keyed.commit {s : Run} (h : s.Keyed) (c : ConfigClass) : (s.commit c).Keyed := by
  intro e he
  obtain he | rfl := OrderedMap.mem_of_mem_put he
  · exact h e he
  · rfl

theorem Run.Keyed.sameCourse {s t : Run} (h : s.Keyed) (hst : s.SameCourse t) : t.Keyed := by
  unfold Keyed
  rw [hst.classes]
  exact h

theorem Run.Keyed.withdraw {s : Run} (h : s.Keyed) (name : String) : (s.withdraw name).Keyed :=
  fun e he => h e (List.eraseP_sublist.subset he)

theorem Run.Keyed.absorb {s : Run} (h : s.Keyed) (name : String) (scratch : ConfigClass) :
    Keyed { s with classes := s.classes.modify name (·.absorb scratch) } := by
  intro e he
  obtain he | ⟨c, hc, rfl⟩ := OrderedMap.mem_of_mem_modify he
  · exact h e he
  · have hname := h.name_eq hc
    exact hname

theorem Run.Keyed.enrolls {s t : Run} {c : ConfigClass} (h : s.Keyed) (hst : s.Enrolls c t) :
    t.Keyed := by
  obtain ⟨_, rfl⟩ | ⟨_, _, rfl⟩ := hst
  · exact h
  · exact h.withdraw _

theorem Moves.keyed {w : World} {K : Scope} {p : Part} {s t : Collecting}
    (h : Moves w K p s t) (hs : s.run.Keyed) : t.run.Keyed := by
  induction h with
  | refl _ => exact hs
  | trans _ _ ih ih' => exact ih' (ih hs)
  | aside h =>
    rw [Run.Keyed, h.classes]
    exact hs
  | report _ _ _ => exact hs
  | scan _ _ _ _ ih => exact ih hs
  | register _ _ _ _ _ ih => exact ih hs
  | imported _ _ _ ih => exact ih hs
  | claim _ _ _ _ _ _ ih => exact ih hs
  | enqueue _ _ _ => exact hs
  | stacked _ _ ih => exact ih hs
  | nested _ ih => exact ih hs
  | merge _ _ _ _ => exact hs.commit _
  | visit _ _ _ _ hrun _ _ ih =>
    have hopen := hs.enrolls hrun
    exact Run.Keyed.commit (ih hopen) _
  | gather _ => exact hs
  | collect _ _ _ _ => exact hs
  | absorb _ _ _ _ ih => exact (ih hs).absorb _ _

/-- A class that is imported again has the new importers as well. -/
theorem Run.notes_merge {s : Run} {c present : ConfigClass} {importer : String} (hs : s.Keyed)
    (hpresent : s.classes.get? c.name = some present) (himporter : importer ∈ c.importedBy.keys) :
    (s.commit (present.mergeImporters c)).Notes c.name importer := by
  have hname : present.name = c.name := hs.name_eq hpresent
  refine ⟨present.mergeImporters c, ?_, fun _ => ?_⟩
  · rw [← hname]
    exact OrderedMap.get?_insert_self _ _ _
  · exact OrderedMap.mem_keys_foldl_insertIfNew.2 (.inr himporter)

/-- The queue stays as it is, or it is open and something that a selector stands for has been
queued. -/
theorem Moves.queue {w : World} {K : Scope} {p : Part} {s t : Collecting}
    (h : Moves w K p s t) :
    t.run.queue = s.run.queue ∨
      K.Selects w ∧ s.run.queue.isSome = true ∧ t.run.queue.isSome = true := by
  induction h with
  | refl _ => exact .inl rfl
  | trans _ _ ih ih' =>
    obtain heq | ⟨hselects, hs, ht⟩ := ih
    · rw [← heq]
      exact ih'
    · obtain heq' | ⟨_, _, hu⟩ := ih'
      · exact .inr ⟨hselects, hs, heq' ▸ ht⟩
      · exact .inr ⟨hselects, hs, hu⟩
  | aside h => exact .inl h.queue
  | report _ _ _ => exact .inl rfl
  | scan _ _ _ _ ih => exact ih
  | register _ _ _ _ _ ih => exact ih
  | imported _ _ _ ih => exact ih
  | claim _ _ _ _ _ _ ih => exact ih
  | enqueue _ hselects hqueue =>
    rw [hqueue]
    exact .inr ⟨hselects, rfl, rfl⟩
  | stacked _ _ ih => exact ih
  | nested _ ih => exact ih
  | merge _ _ _ _ => exact .inl rfl
  | visit _ _ _ _ hrun _ _ ih => obtain ⟨_, rfl⟩ | ⟨_, _, rfl⟩ := hrun <;> exact ih
  | gather _ => exact .inl rfl
  | collect _ _ _ _ => exact .inl rfl
  | absorb _ _ _ _ ih => exact ih

/-- Without scans a claim is only released between explicit classes. -/
theorem Moves.keepsOwner {w : World} {K : Scope} {p : Part} {s t : Collecting}
    (h : Moves w K p s t) (hscans : ¬ K.Scans w) (hp : p ≠ .entries) {name owner : String}
    (hs : s.run.superclassOwners.get? name = some owner) :
    t.run.superclassOwners.get? name = some owner := by
  induction h with
  | refl _ => exact hs
  | trans _ _ ih ih' => exact ih' hp (ih hp hs)
  | aside h =>
    rw [h.superclassOwners]
    exact hs
  | report _ _ _ => exact hs
  | scan hscan _ _ _ _ => exact absurd hscan hscans
  | register _ _ _ _ _ ih => exact ih hp hs
  | imported _ _ _ ih => exact ih hp hs
  | claim _ _ hfree _ _ _ ih => exact ih hp (OrderedMap.get?_insert_of_free hs hfree _)
  | enqueue _ _ _ => exact hs
  | stacked _ _ ih => exact ih (by simp) hs
  | nested _ ih => exact ih hp hs
  | merge _ _ _ _ => exact hs
  | visit _ _ _ hdue hrun _ _ ih =>
    obtain ⟨_, rfl⟩ | ⟨_, hexplicit, _⟩ := hrun
    · exact ih (by simp) hs
    · rw [hdue.isImported_iff.2 hp] at hexplicit
      cases hexplicit
  | gather _ => exact hs
  | collect _ _ _ _ => exact hs
  | absorb _ _ _ _ ih => exact ih (by simp) hs

theorem Moves.grants {w : World} {K : Scope} {p : Part} {s t : Collecting} (h : Moves w K p s t)
    (hscans : ¬ K.Scans w) (hp : p ≠ .entries) {name : String} {v : View}
    (hs : s.run.Grants name v) : t.run.Grants name v :=
  hs.imp_right fun hs => hs.imp_right fun hs => h.keepsOwner hscans hp hs

end Wiring
