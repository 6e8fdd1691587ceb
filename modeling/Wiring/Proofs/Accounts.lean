import Wiring.Proofs.Precedence

/-!
# Where the content of records comes from

What a record holds is what its sources bring, and what its sources import has been opened.
This is so for the record that is being collected and for all that are committed, at any time.
-/

namespace Wiring

/-! ## What a record holds -/

/-- The class brings a bean method of that key, itself or by one of its interfaces. -/
def Resolver.Brings (r : Resolver) (v : View) (k : MethodKey) : Prop :=
  ∃ ms, r.allMethods v = .ok ms ∧ ∃ m ∈ ms, m.key = k

/-- The imports of `v` have been opened, unless a circular import of the class on whose behalf
that was done has been reported. -/
def Run.HasImported (s : Run) (w : World) (name : String) (v : View) : Prop :=
  ∃ us, w.resolver.imports v = .ok us ∧
    ((∀ u ∈ us, w.resolver.IsPlain u → w.NeverSkips u.info → s.HasOpened u.name) ∨
      s.HasReported name)

/-- The bean methods of the record are those that its sources bring, and the imports of its
sources have been opened. -/
structure ConfigClass.Accounted (c : ConfigClass) (w : World) (s : Run) : Prop where
  methods : ∀ k, k ∈ c.beanMethods.keys ↔ ∃ u ∈ c.sources, w.resolver.Brings u k
  collected : ∀ u ∈ c.sources, ∃ ms, w.resolver.allMethods u = .ok ms
  imports : ∀ u ∈ c.sources, s.HasImported w c.name u

theorem Run.HasImported.mono {s t : Run} {w : World} {name : String} {v : View}
    (h : s.HasImported w name v) (hhistory : s.history ⊆ t.history)
    (hproblems : s.problems ⊆ t.problems) : t.HasImported w name v := by
  obtain ⟨us, hus, hall⟩ := h
  refine ⟨us, hus, ?_⟩
  obtain hall | ⟨problem, hmem, hproblem⟩ := hall
  · exact .inl fun u hu hplain hskips => (hall u hu hplain hskips).mono hhistory
  · exact .inr ⟨problem, hproblems hmem, hproblem⟩

namespace ConfigClass

/-- The record holds every bean method that `v` declares. -/
def KeepsMethods (c : ConfigClass) (v : View) : Prop :=
  ∀ m ∈ v.info.taggedMethods WellKnown.bean, m.key ∈ c.beanMethods.keys

variable {w : World} {s t : Run}

theorem Accounted.keepsMethods {c : ConfigClass} (h : c.Accounted w s) {v : View}
    (hv : v ∈ c.sources) : c.KeepsMethods v := by
  intro m hm
  obtain ⟨ms, hms⟩ := h.collected v hv
  have hmem := Resolver.beanMethods_subset_of_allMethods hms (w.resolver.mem_beanMethods hm)
  exact (h.methods m.key).2 ⟨v, hv, ms, hms, m, hmem, rfl⟩

theorem Accounted.mono {c : ConfigClass} (h : c.Accounted w s) (hhistory : s.history ⊆ t.history)
    (hproblems : s.problems ⊆ t.problems) : c.Accounted w t :=
  ⟨h.methods, h.collected, fun u hu => (h.imports u hu).mono hhistory hproblems⟩

theorem IsNew.accounted {c : ConfigClass} (h : c.IsNew) (w : World) (s : Run) :
    c.Accounted w s := by
  constructor
  · intro k
    rw [h.beanMethods, h.sources]
    simp [OrderedMap.keys]
  · rw [h.sources]
    exact fun _ hu => by cases hu
  · rw [h.sources]
    exact fun _ hu => by cases hu

theorem SameCore.accounted {c d : ConfigClass} (h : c.SameCore d) (hc : c.Accounted w s) :
    d.Accounted w s := by
  constructor
  · rw [h.beanMethods, h.sources]
    exact hc.methods
  · rw [h.sources]
    exact hc.collected
  · rw [h.sources, name, h.view]
    exact hc.imports

theorem Accounted.gained {c : ConfigClass} (h : c.Accounted w s) {v : View} {ms : List Method}
    (hms : w.resolver.allMethods v = .ok ms) (himports : s.HasImported w c.name v) :
    (c.gained v ms).Accounted w s := by
  constructor
  · intro k
    have hbrings : w.resolver.Brings v k ↔ ∃ m ∈ ms, m.key = k := by
      rw [Resolver.Brings, hms]
      simp
    show k ∈ (c.addMethods ms).beanMethods.keys ↔ ∃ u ∈ c.sources ++ [v], _
    rw [mem_keys_addMethods, h.methods k, ← hbrings]
    simp [or_and_right, exists_or]
  · intro u hu
    obtain hu | hu := List.mem_append.1 hu
    · exact h.collected u hu
    · rw [List.mem_singleton.1 hu]
      exact ⟨ms, hms⟩
  · intro u hu
    have hname : (c.gained v ms).name = c.name := by
      rw [ConfigClass.gained, addMethods_eq]
      rfl
    rw [hname]
    obtain hu | hu := List.mem_append.1 hu
    · exact h.imports u hu
    · rw [List.mem_singleton.1 hu]
      exact himports

theorem Accounted.absorb {c scratch : ConfigClass} (hc : c.Accounted w s)
    (hscratch : scratch.Accounted w s) (hname : scratch.name = c.name) :
    (c.absorb scratch).Accounted w s := by
  constructor
  · intro k
    show k ∈ (scratch.beanMethods.entries.foldl _ c.beanMethods).keys ↔
      ∃ u ∈ c.sources ++ scratch.sources, _
    rw [OrderedMap.mem_keys_foldl_insertIfNew, hc.methods k]
    have hkeys := hscratch.methods k
    rw [OrderedMap.keys] at hkeys
    rw [hkeys]
    simp [or_and_right, exists_or]
  · intro u hu
    obtain hu | hu := List.mem_append.1 hu
    · exact hc.collected u hu
    · exact hscratch.collected u hu
  · intro u hu
    have himports : s.HasImported w c.name u := by
      obtain hu | hu := List.mem_append.1 hu
      · exact hc.imports u hu
      · rw [← hname]
        exact hscratch.imports u hu
    exact himports

end ConfigClass

/-- Everything that is committed, claimed or being collected has been opened and is accounted
for. -/
structure Collecting.Accounted (s : Collecting) (w : World) : Prop where
  keyed : s.run.Keyed
  opened : ∀ name, s.run.Committed name → s.run.HasOpened name
  owners : ∀ e ∈ s.run.superclassOwners.entries, s.run.HasOpened e.2
  classes : ∀ e ∈ s.run.classes.entries, e.2.Accounted w s.run
  record : s.record.Accounted w s.run

namespace Collecting.Accounted

variable {w : World} {s t : Collecting}

/-- A step that commits and claims nothing. -/
theorem of_eq (h : s.Accounted w) (classes : t.run.classes = s.run.classes)
    (owners : t.run.superclassOwners = s.run.superclassOwners)
    (history : t.run.history = s.run.history) (problems : s.run.problems ⊆ t.run.problems)
    (record : t.record = s.record) : t.Accounted w := by
  have hhistory : s.run.history ⊆ t.run.history := by
    rw [history]
    exact fun _ hm => hm
  constructor
  · rw [Run.Keyed, classes]
    exact h.keyed
  · intro name hname
    rw [Run.Committed, classes] at hname
    exact (h.opened name hname).mono hhistory
  · rw [owners]
    exact fun e he => (h.owners e he).mono hhistory
  · rw [classes]
    exact fun e he => (h.classes e he).mono hhistory problems
  · rw [record]
    exact h.record.mono hhistory problems

theorem importing (hs : s.Accounted w) {name importer : String} :
    Collecting.Accounted { s with run := s.run.importing name importer } w := by
  have hhistory : s.run.history ⊆ (s.run.importing name importer).history := fun _ hm =>
    List.mem_cons_of_mem _ hm
  refine ⟨hs.keyed, fun other hother => ?_, fun e he => ?_, fun e he => ?_, ?_⟩
  · exact (hs.opened other hother).mono hhistory
  · exact (hs.owners e he).mono hhistory
  · exact (hs.classes e he).mono hhistory fun _ hp => hp
  · exact hs.record.mono hhistory fun _ hp => hp

/-- A class that has been opened may claim a superclass. -/
theorem claim (hs : s.Accounted w) (hopen : s.run.HasOpened s.record.name) {source : String} :
    Collecting.Accounted { s with run := { s.run with
      superclassOwners := s.run.superclassOwners.insert source s.record.name } } w := by
  refine ⟨hs.keyed, hs.opened, fun e he => ?_, fun e he => ?_, ?_⟩
  · obtain he | rfl := OrderedMap.mem_of_mem_put he
    · exact hs.owners e he
    · exact hopen
  · exact (hs.classes e he).mono (fun _ hm => hm) fun _ hp => hp
  · exact hs.record.mono (fun _ hm => hm) fun _ hp => hp

/-- A new record begins with everything accounted for. -/
theorem collecting (hs : s.Accounted w) {c : ConfigClass} (hnew : c.IsNew) :
    Collecting.Accounted ⟨c, s.run⟩ w :=
  ⟨hs.keyed, hs.opened, hs.owners, hs.classes, hnew.accounted w _⟩

theorem opening (hs : s.Accounted w) {c : ConfigClass} {run : Run} (hnew : c.IsNew)
    (hrun : s.run.Enrolls c run) : Collecting.Accounted ⟨c, run.opening c⟩ w := by
  obtain ⟨_, _, hhistory, hproblems, _⟩ := hrun.continues
  have hopening : s.run.history ⊆ (run.opening c).history := by
    show s.run.history ⊆ _ :: run.history
    rw [hhistory]
    exact fun _ hm => List.mem_cons_of_mem _ hm
  have hkeyed : run.Keyed := hs.keyed.enrolls hrun
  refine ⟨hkeyed, fun name hname => ?_, fun e he => ?_, fun e he => ?_, hnew.accounted w _⟩
  · exact (hs.opened name (hrun.committed_of_committed hname)).mono hopening
  · exact (hs.owners e (hrun.owners_subset he)).mono hopening
  · refine (hs.classes e (hrun.classes_subset he)).mono hopening ?_
    show s.run.problems ⊆ run.problems
    rw [hproblems]
    exact fun _ hp => hp

/-- A class that is imported again brings nothing new. -/
theorem merge (hs : s.Accounted w) {c present : ConfigClass}
    (hpresent : s.run.classes.get? c.name = some present) :
    Collecting.Accounted { s with run := s.run.commit (present.mergeImporters c) } w := by
  refine ⟨hs.keyed.commit _, fun name hname => ?_, hs.owners, fun e he => ?_, ?_⟩
  · obtain rfl | hname := Run.committed_commit.1 hname
    · refine hs.opened present.name ?_
      rw [hs.keyed.name_eq hpresent]
      exact Run.committed_of_get? hpresent
    · exact hs.opened name hname
  · obtain he | rfl := OrderedMap.mem_of_mem_put he
    · exact (hs.classes e he).mono (fun _ hm => hm) fun _ hp => hp
    · have hpresent := hs.classes _ (OrderedMap.mem_entries_of_get? hpresent)
      exact ⟨hpresent.methods, hpresent.collected, hpresent.imports⟩
  · exact hs.record.mono (fun _ hm => hm) fun _ hp => hp

/-- The record of a class that has been visited is committed. -/
theorem commit (hs : s.Accounted w) (ht : t.Accounted w) (hopen : t.run.HasOpened t.record.name)
    (hhistory : s.run.history ⊆ (RunM.close t.run).history)
    (hproblems : s.run.problems ⊆ t.run.problems) :
    Collecting.Accounted { s with run := (RunM.close t.run).commit t.record } w := by
  have hclosed : t.run.history ⊆ (RunM.close t.run).history := fun _ hm =>
    List.mem_cons_of_mem _ hm
  refine ⟨Run.Keyed.commit ht.keyed _, fun name hname => ?_, fun e he => ?_, fun e he => ?_, ?_⟩
  · obtain rfl | hname := Run.committed_commit.1 hname
    · exact hopen.mono hclosed
    · exact (ht.opened name hname).mono hclosed
  · exact (ht.owners e he).mono hclosed
  · obtain he | rfl := OrderedMap.mem_of_mem_put he
    · exact (ht.classes e he).mono hclosed fun _ hp => hp
    · exact ht.record.mono hclosed fun _ hp => hp
  · exact hs.record.mono hhistory hproblems

/-- What was collected for a class goes to the record that is committed for it. -/
theorem absorb (hs : s.Accounted w) (ht : t.Accounted w) {name : String}
    (hname : t.record.name = name)
    (hkeyed : Run.Keyed { t.run with classes := t.run.classes.modify name (·.absorb t.record) })
    (hhistory : s.run.history ⊆ t.run.history) (hproblems : s.run.problems ⊆ t.run.problems) :
    Collecting.Accounted { s with run := { t.run with
      classes := t.run.classes.modify name (·.absorb t.record) } } w := by
  refine ⟨hkeyed, fun other hother => ht.opened other (Run.committed_modify.1 hother), ht.owners,
    fun e he => ?_, ?_⟩
  · refine ConfigClass.Accounted.mono (s := t.run) ?_ (fun _ hm => hm) fun _ hp => hp
    obtain he | ⟨present, hpresent, rfl⟩ := OrderedMap.mem_of_mem_modify he
    · exact ht.classes e he
    · refine (ht.classes _ (OrderedMap.mem_entries_of_get? hpresent)).absorb ht.record ?_
      rw [hname]
      exact (ht.keyed.name_eq hpresent).symm
  · have hrecord := hs.record.mono hhistory hproblems
    exact hrecord.mono (fun _ hm => hm) fun _ hp => hp

end Collecting.Accounted

theorem Run.accounted_fresh (w : World) (environment : Environment) (registry : Registry) :
    Collecting.Accounted ⟨.explicit .object none, Run.fresh environment registry⟩ w :=
  ⟨fun _ he => (by cases he), fun _ h => (by cases h), fun _ he => (by cases he),
    fun _ he => (by cases he), (ConfigClass.isNew_explicit _ _).accounted w _⟩

/-! ## All moves keep accounts -/

theorem Moves.accounted {w : World} {K : Scope} {p : Part} {s t : Collecting}
    (h : Moves w K p s t) (hs : s.Accounted w) : t.Accounted w := by
  induction h with
  | refl _ => exact hs
  | trans _ _ ih ih' => exact ih' (ih hs)
  | aside h =>
    exact hs.of_eq h.classes h.superclassOwners h.history (by rw [h.problems]; exact fun _ hp => hp)
      rfl
  | report _ _ _ => exact hs.of_eq rfl rfl rfl (fun _ hp => List.mem_append_left _ hp) rfl
  | scan _ _ _ _ ih => exact ih (hs.of_eq rfl rfl rfl (fun _ hp => hp) rfl)
  | register _ _ _ _ _ ih => exact ih (hs.of_eq rfl rfl rfl (fun _ hp => hp) rfl)
  | imported _ _ _ ih => exact ih hs.importing
  | claim hopen _ _ _ _ _ ih => exact ih (hs.claim hopen)
  | enqueue _ _ _ => exact hs.of_eq rfl rfl rfl (fun _ hp => hp) rfl
  | stacked _ _ ih =>
    exact (ih (hs.of_eq rfl rfl rfl (fun _ hp => hp) rfl)).of_eq rfl rfl rfl (fun _ hp => hp) rfl
  | nested _ ih =>
    exact (ih (hs.of_eq rfl rfl rfl (fun _ hp => hp) rfl)).of_eq rfl rfl rfl (fun _ hp => hp) rfl
  | merge hpresent _ _ _ => exact hs.merge hpresent
  | @visit p s t c f run hK hf hnew hp hrun hinner hsource ih =>
    have hwhole := (Moves.visit (w := w) hK hf hnew hp hrun hinner hsource).continues
    have hopening := hs.opening hnew hrun
    have hopen : t.run.HasOpened t.record.name := by
      rw [hinner.continues.name]
      exact ⟨c.isImported, hinner.continues.history.subset List.mem_cons_self⟩
    exact hs.commit (ih hopening) hopen hwhole.history.subset hwhole.problems
  | gather h =>
    exact ⟨hs.keyed, hs.opened, hs.owners, hs.classes, h.accounted hs.record⟩
  | @collect s v ms _ _ hms hfollowed =>
    refine ⟨hs.keyed, hs.opened, hs.owners, hs.classes, hs.record.gained hms ?_⟩
    obtain ⟨us, hus, hall⟩ := hfollowed.imports
    refine ⟨us, hus, ?_⟩
    obtain hall | ⟨_, hreported⟩ := hall
    · exact .inl fun u hu hplain hskips => hs.opened _ (hall u hu hplain hskips)
    · exact .inr hreported
  | @absorb p s t c name hselects hnew hname hinner ih =>
    have ht := ih (hs.collecting hnew)
    have hscratch : t.record.name = name := by
      rw [hinner.continues.name]
      obtain hname | ⟨present, hpresent, rfl⟩ := hname
      · exact hname
      · have hkey := hs.keyed.name_eq hpresent
        exact hkey
    have hwhole := Moves.absorb (K := K) (p := p) hselects hnew hname hinner
    exact hs.absorb ht hscratch (hwhole.keyed hs.keyed) hinner.continues.history.subset
      hinner.continues.problems

namespace Run

/-- A successful call leaves everything accounted for. -/
theorem parse_accounted {w : World} {seeds : List NamedDefinition} {environment : Environment}
    {registry : Registry} {t : Run} (h : parse w seeds (fresh environment registry) = .ok () t) :
    Collecting.Accounted ⟨.explicit .object none, t⟩ w := by
  obtain ⟨u, v, _, hu, hv, rfl⟩ :=
    parse_moves w.admits_anything (.explicit .object none) rfl (fun _ _ _ _ => trivial) h
  have hmid : Collecting.Accounted ⟨.explicit .object none, { u with queue := none }⟩ w :=
    (hu.accounted (accounted_fresh w environment registry)).of_eq rfl rfl rfl (fun _ hp => hp) rfl
  exact (hv.accounted hmid).of_eq rfl rfl rfl (fun _ hp => hp) rfl

/-- After a successful call exactly the classes that have been opened are committed. -/
theorem committed_iff_hasOpened {w : World} {seeds : List NamedDefinition}
    {environment : Environment} {registry : Registry} {t : Run}
    (h : parse w seeds (fresh environment registry) = .ok () t) {name : String} :
    t.Committed name ↔ t.HasOpened name := by
  obtain ⟨htracks, _, _⟩ := parse_tracks (idle_fresh environment registry) h
  constructor
  · exact (parse_accounted h).opened name
  · rintro ⟨isImported, hopened⟩
    exact htracks.opened name isImported (opens_of_mem hopened)

end Run
end Wiring
