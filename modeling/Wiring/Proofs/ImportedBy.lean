import Wiring.Proofs.CircularImports

/-!
# Who imported a class

An imported class should name everyone who imported it.  It does so only for the imports that
happen while the class is not being processed.  An import that comes upon the class while it is
being processed makes a second record of it, and the first one is committed over that in the end.
-/

namespace Wiring

/-- The class is being processed. -/
def IsOpen (name : String) (h : List Milestone) : Prop := name ∈ (inProgress h).map (·.1)

instance (name : String) (h : List Milestone) : Decidable (IsOpen name h) :=
  inferInstanceAs (Decidable (name ∈ _))

/-- The class is imported between the two histories, while it is not being processed. -/
def ImportsFreely (name importer : String) : List Milestone → List Milestone → Prop :=
  Happens fun h m => m = .imported name importer ∧ ¬ IsOpen name h

/-- The class is imported between the two histories. -/
def Imports (name importer : String) : List Milestone → List Milestone → Prop :=
  Happens fun _ m => m = .imported name importer

section

variable {name importer other : String} {isImported : Bool} {a b : List Milestone}

theorem isOpen_opened :
    IsOpen name (.opened other isImported :: a) ↔ name = other ∨ IsOpen name a := by
  unfold IsOpen
  rw [inProgress, List.map_cons, List.mem_cons]

theorem Balanced.isOpen_iff (h : Balanced a b) : IsOpen name b ↔ IsOpen name a := by
  rw [IsOpen, IsOpen, h.inProgress_eq]

/-- Inside a visit of the class nobody imports it freely. -/
theorem Balanced.not_importsFreely (h : Balanced (.opened name isImported :: a) b) :
    ¬ ImportsFreely name importer (.opened name isImported :: a) b := by
  rintro ⟨g, m, hag, hgb, _, hfree⟩
  have hopen := h.between g hag ((List.suffix_cons _ _).trans hgb)
  exact hfree (List.mem_map_of_mem (hopen.subset List.mem_cons_self))

/-- An import in the course of a visit is one that happens inside. -/
theorem importsFreely_visit_iff (h : .opened other isImported :: a <:+ b) :
    ImportsFreely name importer a (.closed :: b) ↔
      ImportsFreely name importer (.opened other isImported :: a) b := by
  rw [ImportsFreely, happens_visit_iff h]
  simp

theorem ImportsFreely.mono {before : List Milestone} (h : ImportsFreely name importer before a)
    (hba : before <:+ a) (hab : a <:+ b) : ImportsFreely name importer before b :=
  (happens_trans_iff hba hab).2 (.inl h)

theorem imports_of_mem (h : .imported name importer ∈ a) : Imports name importer [] a := by
  obtain ⟨later, earlier, rfl⟩ := List.append_of_mem h
  exact ⟨earlier, _, List.nil_suffix, List.suffix_append _ _, rfl⟩

end

/-! ## A free import is noted -/

theorem ConfigClass.name_mergeImporters (c other : ConfigClass) :
    (c.mergeImporters other).name = c.name := rfl

namespace Run

variable {s t : Run} {c : ConfigClass} {name importer : String}

theorem notes_congr (h : t.classes.get? name = s.classes.get? name) :
    t.Notes name importer ↔ s.Notes name importer := by
  rw [Notes, Notes, h]

theorem notes_commit_of_ne (h : name ≠ c.name) :
    (s.commit c).Notes name importer ↔ s.Notes name importer := by
  have hget : (s.commit c).classes.get? name = s.classes.get? name :=
    OrderedMap.get?_insert_of_ne _ h.symm _
  exact notes_congr hget

theorem get?_enrolls_of_ne (h : s.Enrolls c t) (hname : name ≠ c.name) :
    t.classes.get? name = s.classes.get? name := by
  rcases h with ⟨_, rfl⟩ | ⟨_, _, rfl⟩
  · rfl
  · exact OrderedMap.get?_erase_of_ne _ hname.symm

/-- An explicit class has nobody to name. -/
theorem notes_commit_explicit (h : c.isImported = false) : (s.commit c).Notes c.name importer := by
  refine ⟨c, OrderedMap.get?_insert_self _ _ _, fun himp => ?_⟩
  rw [h] at himp
  cases himp

theorem Notes.committed (h : s.Notes name importer) : s.Committed name := by
  obtain ⟨c, hc, _⟩ := h
  exact committed_of_get? hc

/-- Those who imported the class before are kept when it is imported again. -/
theorem Notes.merge {present : ConfigClass} (h : s.Notes name importer) (hs : s.Keyed)
    (hpresent : s.classes.get? c.name = some present) (himp : present.isImported = true) :
    (s.commit (present.mergeImporters c)).Notes name importer := by
  have hsame : (present.mergeImporters c).name = c.name := by
    rw [ConfigClass.name_mergeImporters, hs.name_eq hpresent]
  by_cases hname : name = c.name
  · obtain ⟨d, hd, hkeys⟩ := h
    rw [hname, hpresent] at hd
    obtain rfl := Option.some.inj hd
    refine ⟨present.mergeImporters c, ?_, fun _ => ?_⟩
    · rw [hname, ← hsame]
      exact OrderedMap.get?_insert_self _ _ _
    · exact OrderedMap.mem_keys_foldl_insertIfNew.2 (.inl (hkeys himp))
  · rw [← hsame] at hname
    exact (notes_commit_of_ne hname).2 h

theorem Notes.absorb {key : String} {scratch : ConfigClass} (h : s.Notes name importer) :
    Notes { s with classes := s.classes.modify key (·.absorb scratch) } name importer := by
  obtain ⟨c, hc, hkeys⟩ := h
  by_cases hname : key = name
  · subst hname
    refine ⟨c.absorb scratch, ?_, hkeys⟩
    rw [OrderedMap.get?_modify_self, hc]
    rfl
  · refine ⟨c, ?_, hkeys⟩
    rw [OrderedMap.get?_modify_of_ne _ hname]
    exact hc

/-- A visit keeps what is noted of the others.  Its own class was committed before only if the
visit is an explicit one. -/
theorem Notes.visit {run : Run} {record : ConfigClass} (h : s.Notes name importer)
    (hrun : s.Enrolls c run) (hname : record.name = c.name)
    (himp : record.isImported = c.isImported)
    (hinner : run.Notes name importer → t.Notes name importer) :
    ((RunM.close t).commit record).Notes name importer := by
  by_cases hsame : name = c.name
  · subst hsame
    rcases hrun with ⟨habsent, _⟩ | ⟨_, hexplicit, _⟩
    · exact absurd h.committed habsent
    · rw [← hname]
      exact notes_commit_explicit (himp.trans hexplicit)
  · have hbefore := (notes_congr (get?_enrolls_of_ne hrun hsame)).2 h
    have hafter : (RunM.close t).Notes name importer := hinner hbefore
    exact (notes_commit_of_ne (hname.symm ▸ hsame)).2 hafter

end Run

theorem Continues.isImported {s t : Collecting} (h : Continues s t) :
    t.record.isImported = s.record.isImported := by
  rw [ConfigClass.isImported, ConfigClass.isImported, h.importedBy]

/-- An importer that is noted stays so. -/
theorem Moves.notes {w : World} {K : Scope} {p : Part} {s t : Collecting} {name importer : String}
    (h : Moves w K p s t) (hs : s.run.Keyed) (hnotes : s.run.Notes name importer) :
    t.run.Notes name importer := by
  induction h with
  | refl _ => exact hnotes
  | trans hst _ ih ih' => exact ih' (hst.keyed hs) (ih hs hnotes)
  | aside h => exact (Run.notes_congr (by rw [h.classes])).2 hnotes
  | report _ _ _ => exact hnotes
  | scan _ _ _ _ ih => exact ih hs hnotes
  | register _ _ _ _ _ ih => exact ih hs hnotes
  | imported _ _ _ ih => exact ih hs hnotes
  | claim _ _ _ _ _ _ ih => exact ih hs hnotes
  | enqueue _ _ _ => exact hnotes
  | stacked _ _ ih => exact ih hs hnotes
  | nested _ ih => exact ih hs hnotes
  | merge hpresent himp _ _ => exact hnotes.merge hs hpresent himp
  | visit _ _ _ _ hrun hinner _ ih =>
    have hkeyed := hs.enrolls hrun
    exact hnotes.visit hrun hinner.continues.name hinner.continues.isImported (ih hkeyed)
  | gather _ => exact hnotes
  | collect _ _ _ _ => exact hnotes
  | absorb _ _ _ _ ih => exact (ih hs hnotes).absorb

/-- Where no class is skipped, an import of a class that is not being processed is noted. -/
theorem Moves.notes_of_importsFreely {w : World} {K : Scope} {p : Part} {s t : Collecting}
    {name importer : String} (hskips : ∀ v, K.Enters v → w.NeverSkips v.info)
    (h : Moves w K p s t) (hs : s.run.Keyed) (hclosed : ¬ IsOpen name s.run.history)
    (himports : ImportsFreely name importer s.run.history t.run.history) :
    t.run.Notes name importer := by
  induction h with
  | refl _ => exact absurd himports not_happens_self
  | trans hst htu ih ih' =>
    have hbalanced := (hst.tracks hs).balanced
    rcases (happens_trans_iff hbalanced.suffix htu.continues.history).1 himports with hfirst | hrest
    · exact htu.notes (hst.keyed hs) (ih hs hclosed hfirst)
    · exact ih' (hst.keyed hs) (hclosed ∘ hbalanced.isOpen_iff.1) hrest
  | aside h =>
    rw [ImportsFreely, h.history] at himports
    exact absurd himports not_happens_self
  | report _ _ _ => exact absurd himports not_happens_self
  | scan _ _ _ _ ih => exact ih hs hclosed himports
  | register _ _ _ _ _ ih => exact ih hs hclosed himports
  | imported henters hinner hnoted ih =>
    rcases (happens_trans_iff (List.suffix_cons _ _) hinner.continues.history).1 himports
      with hnow | hlater
    · obtain ⟨hsame, _⟩ := happens_cons_iff.1 hnow
      obtain ⟨rfl, rfl⟩ := Milestone.imported.inj hsame
      exact hnoted (hskips _ henters) hs
    · exact ih hs hclosed hlater
  | claim _ _ _ _ _ _ ih => exact ih hs hclosed himports
  | enqueue _ _ _ => exact absurd himports not_happens_self
  | stacked _ _ ih => exact ih hs hclosed himports
  | nested _ ih => exact ih hs hclosed himports
  | merge _ _ _ _ => exact absurd himports not_happens_self
  | @visit p s t c f run _ _ _ _ hrun hinner _ ih =>
    obtain ⟨_, _, hhistory, _, _⟩ := hrun.continues
    have hkeyed : run.Keyed := hs.enrolls hrun
    have hbalanced := (hinner.tracks hkeyed).balanced
    rw [← hhistory] at hclosed himports
    have hinside := (importsFreely_visit_iff hbalanced.suffix).1 himports
    -- The record that closes the visit is of another class, which leaves what is noted alone.
    have hne : name ≠ c.name := by
      rintro rfl
      exact hbalanced.not_importsFreely hinside
    have hnoted : (RunM.close t.run).Notes name importer :=
      ih hkeyed (fun hopen => (isOpen_opened.1 hopen).elim hne hclosed) hinside
    exact (Run.notes_commit_of_ne (hinner.continues.name.symm ▸ hne)).2 hnoted
  | gather _ => exact absurd himports not_happens_self
  | collect _ _ _ _ => exact absurd himports not_happens_self
  | absorb _ _ _ _ ih => exact (ih hs hclosed himports).absorb

/-! ## Whoever is named has imported freely -/

/-- Every importer that a committed class names has imported it while it was not being processed.
Nothing is said about a class that is just being processed. -/
def Run.Credits (s : Run) : Prop :=
  ∀ name c, s.classes.get? name = some c → ¬ IsOpen name s.history →
    ∀ importer ∈ c.importedBy.keys, ImportsFreely name importer [] s.history

/-- What a record that is due names has just imported the class. -/
theorem ConfigClass.IsDue.importsFreely {c : ConfigClass} {p : Part} {s : Collecting}
    (h : c.IsDue p s) (hclosed : ¬ IsOpen c.name s.run.history) {importer : String}
    (himporter : importer ∈ c.importedBy.keys) :
    ImportsFreely c.name importer [] s.run.history := by
  rcases h with ⟨_, hby⟩ | ⟨_, hby, hlast⟩
  · rw [hby] at himporter
    cases himporter
  · rw [hby] at himporter
    obtain rfl := List.mem_singleton.1 himporter
    obtain ⟨earlier, hhistory⟩ := List.head?_eq_some_iff.1 hlast
    rw [hhistory] at hclosed ⊢
    exact ⟨earlier, _, List.nil_suffix, List.suffix_rfl, rfl, hclosed⟩

namespace Run.Credits

variable {s t run : Run} {c : ConfigClass}

theorem of_eq (hs : s.Credits) (classes : t.classes = s.classes)
    (history : t.history = s.history) : t.Credits := by
  unfold Credits
  rw [classes, history]
  exact hs

theorem importing (hs : s.Credits) (name importer : String) :
    (s.importing name importer).Credits := fun other d hd hclosed by' hby =>
  (hs other d hd hclosed by' hby).mono List.nil_suffix (List.suffix_cons _ _)

/-- The class that is opened is being processed, and the others are as they were. -/
theorem opening (hs : s.Credits) (hrun : s.Enrolls c run) : (run.opening c).Credits := by
  intro name d hd hclosed importer himporter
  obtain ⟨_, _, hhistory, _, _⟩ := hrun.continues
  obtain ⟨hne, hclosed⟩ := not_or.1 (hclosed ∘ isOpen_opened.2)
  have hsame : run.classes.get? name = s.classes.get? name := get?_enrolls_of_ne hrun hne
  rw [hhistory] at hclosed
  have hfree := hs name d (hsame.symm.trans hd) hclosed importer himporter
  refine hfree.mono List.nil_suffix ?_
  rw [← hhistory]
  exact List.suffix_cons _ _

theorem merge (hs : s.Credits) (hkeyed : s.Keyed) {present : ConfigClass}
    (hpresent : s.classes.get? c.name = some present)
    (hfree : ¬ IsOpen c.name s.history → ∀ importer ∈ c.importedBy.keys,
      ImportsFreely c.name importer [] s.history) :
    (s.commit (present.mergeImporters c)).Credits := by
  intro name d hd hclosed importer himporter
  rw [commit, ConfigClass.name_mergeImporters, hkeyed.name_eq hpresent] at hd
  by_cases hname : name = c.name
  · subst hname
    rw [OrderedMap.get?_insert_self] at hd
    obtain rfl := Option.some.inj hd
    rcases OrderedMap.mem_keys_foldl_insertIfNew.1 himporter with hold | hnew
    · exact hs _ present hpresent hclosed importer hold
    · exact hfree hclosed importer hnew
  · rw [OrderedMap.get?_insert_of_ne _ (Ne.symm hname)] at hd
    exact hs name d hd hclosed importer himporter

/-- Closing a visit commits the importers that its record began with. -/
theorem close (ht : t.Credits) {record : ConfigClass}
    (hbalanced : Balanced (.opened record.name record.isImported :: s.history) t.history)
    (hfree : ¬ IsOpen record.name s.history → ∀ importer ∈ record.importedBy.keys,
      ImportsFreely record.name importer [] s.history) :
    ((RunM.close t).commit record).Credits := by
  intro name d hd hclosed importer himporter
  have hclosed : ¬ IsOpen name s.history := hclosed ∘ hbalanced.visit.isOpen_iff.2
  by_cases hname : name = record.name
  · subst hname
    rw [commit, OrderedMap.get?_insert_self] at hd
    obtain rfl := Option.some.inj hd
    exact (hfree hclosed importer himporter).mono List.nil_suffix hbalanced.visit.suffix
  · rw [commit, OrderedMap.get?_insert_of_ne _ (Ne.symm hname)] at hd
    have hinside : ¬ IsOpen name t.history := fun hopen =>
      (isOpen_opened.1 (hbalanced.isOpen_iff.1 hopen)).elim hname hclosed
    exact (ht name d hd hinside importer himporter).mono List.nil_suffix (List.suffix_cons _ _)

theorem absorb (ht : t.Credits) (key : String) (scratch : ConfigClass) :
    Credits { t with classes := t.classes.modify key (·.absorb scratch) } := by
  intro name d hd hclosed importer himporter
  by_cases hname : key = name
  · subst hname
    rw [OrderedMap.get?_modify_self, Option.map_eq_some_iff] at hd
    obtain ⟨present, hpresent, rfl⟩ := hd
    exact ht key present hpresent hclosed importer himporter
  · rw [OrderedMap.get?_modify_of_ne _ hname] at hd
    exact ht name d hd hclosed importer himporter

end Run.Credits

theorem Moves.credits {w : World} {K : Scope} {p : Part} {s t : Collecting}
    (h : Moves w K p s t) (hkeyed : s.run.Keyed) (hs : s.run.Credits) : t.run.Credits := by
  induction h with
  | refl _ => exact hs
  | trans hst _ ih ih' => exact ih' (hst.keyed hkeyed) (ih hkeyed hs)
  | aside h => exact hs.of_eq h.classes h.history
  | report _ _ _ => exact hs
  | scan _ _ _ _ ih => exact ih hkeyed hs
  | register _ _ _ _ _ ih => exact ih hkeyed hs
  | imported _ _ _ ih => exact ih hkeyed (hs.importing _ _)
  | claim _ _ _ _ _ _ ih => exact ih hkeyed hs
  | enqueue _ _ _ => exact hs
  | stacked _ _ ih => exact ih hkeyed hs
  | nested _ ih => exact ih hkeyed hs
  | merge hpresent _ _ hdue =>
    exact hs.merge hkeyed hpresent fun hclosed _ => hdue.importsFreely hclosed
  | @visit p s t c f run _ _ _ hdue hrun hinner _ ih =>
    obtain ⟨_, _, hhistory, _, _⟩ := hrun.continues
    have hkeyed' : run.Keyed := hkeyed.enrolls hrun
    have hbalanced := (hinner.tracks hkeyed').balanced
    have hname : t.record.name = c.name := hinner.continues.name
    have himp : t.record.isImported = c.isImported := hinner.continues.isImported
    have hby : t.record.importedBy = c.importedBy := hinner.continues.importedBy
    refine Run.Credits.close (s := s.run) (ih hkeyed' (hs.opening hrun)) ?_ ?_
    · rw [hname, himp, ← hhistory]
      exact hbalanced
    · rw [hname, hby]
      exact fun hclosed _ => hdue.importsFreely hclosed
  | gather _ => exact hs
  | collect _ _ _ _ => exact hs
  | absorb _ _ _ _ ih => exact (ih hkeyed hs).absorb _ _

/-! ## After a call -/

namespace Run

variable {w : World} {seeds : List NamedDefinition} {s t : Run} {name importer : String}

/-- Whoever a class names after a successful call has imported it freely. -/
theorem Credits.parse (hs : s.Credits) (hidle : s.Idle) (h : parse w seeds s = .ok () t) :
    t.Credits := by
  obtain ⟨u, v, _, hu, hv, rfl⟩ :=
    parse_moves w.admits_anything (.explicit .object none) hidle.queue
      (fun _ _ _ _ => trivial) h
  have hmid : Credits { u with queue := none } := hu.credits hidle.keyed hs
  exact hv.credits (hu.keyed hidle.keyed) hmid

/-- Where classes lead to others by plain imports only, a free import is noted. -/
theorem notes_of_importsFreely (hw : w.ImportsOnly) (hseeds : w.KnowsSeeds seeds) (hidle : s.Idle)
    (h : parse w seeds s = .ok () t) (himports : ImportsFreely name importer s.history t.history) :
    t.Notes name importer := by
  have hall : w.resolver.ImportClosed Set.univ := fun _ _ _ _ => trivial
  obtain ⟨u, v, _, hu, hv, rfl⟩ :=
    parse_moves (hw.admits hall) (.explicit .object none) hidle.queue
      (fun seed hseed v hv => ⟨trivial, hseeds seed hseed v hv⟩) h
  have hskips := fun v hv => hw.neverSkips_of_enters (S := Set.univ) (v := v) hv
  have hclosed : ¬ IsOpen name s.history := by
    rw [IsOpen, hidle.inProgress]
    exact List.not_mem_nil
  have hbalanced := (hu.tracks hidle.keyed).balanced
  have hkeyed : Keyed { u with queue := none } := hu.keyed hidle.keyed
  rcases (happens_trans_iff hbalanced.suffix hv.continues.history).1 himports with hfirst | hrest
  · have hmid : Notes { u with queue := none } name importer :=
      hu.notes_of_importsFreely hskips hidle.keyed hclosed hfirst
    exact hv.notes hkeyed hmid
  · exact hv.notes_of_importsFreely hskips hkeyed (hclosed ∘ hbalanced.isOpen_iff.1) hrest

/-- An imported class names exactly those that imported it at a moment when it was not being
processed. -/
theorem importedBy_iff_importsFreely (hw : w.ImportsOnly) (hseeds : w.KnowsSeeds seeds)
    {environment : Environment} {registry : Registry}
    (h : parse w seeds (fresh environment registry) = .ok () t) {c : ConfigClass}
    (hc : t.classes.get? name = some c) (himp : c.isImported = true) (importer : String) :
    importer ∈ c.importedBy.keys ↔ ImportsFreely name importer [] t.history := by
  have hidle := idle_fresh environment registry
  have hclosed : ¬ IsOpen name t.history := by
    rw [IsOpen, (hidle.parse h).inProgress]
    exact List.not_mem_nil
  have hfresh : (fresh environment registry).Credits := fun _ _ hget => by cases hget
  constructor
  · exact hfresh.parse hidle h name c hc hclosed importer
  · intro himports
    obtain ⟨d, hd, hkeys⟩ := notes_of_importsFreely hw hseeds hidle h himports
    rw [hc] at hd
    obtain rfl := Option.some.inj hd
    exact hkeys himp

end Run

/-! ## An importer lost to an outer record -/

set_option maxRecDepth 100000 in
/-- An imported class does not always name everyone who imported it.  In the ring the second class
imports the first, which is still being processed for the seed.  The record of that import is
committed at once, and the record of the seed's import is committed over it. -/
theorem not_forall_importedBy_of_imports :
    ¬ ∀ (w : World) (seeds : List NamedDefinition) (t : Run), w.ImportsOnly → w.KnowsSeeds seeds →
      Run.parse w seeds (Run.fresh {} {}) = .ok () t →
      ∀ name c, t.classes.get? name = some c → c.isImported = true →
        ∀ importer, Imports name importer [] t.history → importer ∈ c.importedBy.keys := by
  intro hall
  have hcheck : succeedsWith (fun t : Run =>
      decide (.imported "app.A" "app.B" ∈ t.history) &&
        (t.classes.get? "app.A").any (fun c => c.isImported && c.importedBy.keys == ["app.Root"]))
      (Run.parse ring (seedsOf ["app.Root"]) (Run.fresh {} {})) = true := by
    decide +kernel
  obtain ⟨t, hparse, ht⟩ := exists_of_succeedsWith hcheck
  rw [Bool.and_eq_true, decide_eq_true_eq, Option.any_eq_true] at ht
  obtain ⟨himported, c, hc, ht⟩ := ht
  obtain ⟨himp, hkeys⟩ := Bool.and_eq_true_iff.1 ht
  have hmem := hall ring _ t importsOnly_ring (ring.knowsSeeds_seedsOf _) hparse "app.A" c hc himp
    "app.B" (imports_of_mem himported)
  rw [eq_of_beq hkeys] at hmem
  exact absurd hmem (by decide)

set_option maxRecDepth 100000 in
/-- The second class of the ring, which is imported by the first and later by the seed. -/
theorem importedBy_iff_importsFreely_ring :
    ∃ t c, Run.parse ring (seedsOf ["app.Root"]) (Run.fresh {} {}) = .ok () t ∧
      t.classes.get? "app.B" = some c ∧ c.isImported = true ∧
      c.importedBy.keys = ["app.A", "app.Root"] ∧
      ∀ importer, importer ∈ c.importedBy.keys ↔ ImportsFreely "app.B" importer [] t.history := by
  have hcheck : succeedsWith (fun t : Run => (t.classes.get? "app.B").any fun c =>
      c.isImported && c.importedBy.keys == ["app.A", "app.Root"])
      (Run.parse ring (seedsOf ["app.Root"]) (Run.fresh {} {})) = true := by
    decide +kernel
  obtain ⟨t, hparse, ht⟩ := exists_of_succeedsWith hcheck
  rw [Option.any_eq_true] at ht
  obtain ⟨c, hc, ht⟩ := ht
  obtain ⟨himp, hkeys⟩ := Bool.and_eq_true_iff.1 ht
  exact ⟨t, c, hparse, hc, himp, eq_of_beq hkeys,
    Run.importedBy_iff_importsFreely importsOnly_ring (ring.knowsSeeds_seedsOf _) hparse hc himp⟩

end Wiring
