import Wiring.Proofs.Soundness

/-!
# Explicit classes and imported ones

A class that was registered explicitly should stay explicit, whoever imports it.  It does so
exactly if some explicit registration was opened while no import of the class was being
processed: the record that is committed last is the one that was opened first.
-/

namespace Wiring

/-! ## What is in progress -/

/-- The classes still open after a history, the innermost first, each with whether it was opened
as imported. -/
def inProgress : List Milestone → List (String × Bool)
  | [] => []
  | .imported _ _ :: h => inProgress h
  | .opened name isImported :: h => (name, isImported) :: inProgress h
  | .closed :: h => (inProgress h).tail

/-- Between the two histories there is a milestone of that kind, which may depend on what came
before the milestone. -/
def Happens (kind : List Milestone → Milestone → Prop) (before after : List Milestone) : Prop :=
  ∃ h m, before <:+ h ∧ m :: h <:+ after ∧ kind h m

section

variable {kind : List Milestone → Milestone → Prop} {a b c : List Milestone}

theorem not_happens_self : ¬ Happens kind a a := by
  rintro ⟨h, m, hah, hha, _⟩
  have := hah.length_le
  have := hha.length_le
  rw [List.length_cons] at this
  omega

theorem happens_trans_iff (hab : a <:+ b) (hbc : b <:+ c) :
    Happens kind a c ↔ Happens kind a b ∨ Happens kind b c := by
  constructor
  · rintro ⟨h, m, hah, hhc, hkind⟩
    obtain hb | hb := List.suffix_or_suffix_of_suffix hhc hbc
    · exact .inl ⟨h, m, hah, hb, hkind⟩
    · obtain rfl | hb := List.suffix_cons_iff.1 hb
      · exact .inl ⟨h, m, hah, List.suffix_rfl, hkind⟩
      · exact .inr ⟨h, m, hb, hhc, hkind⟩
  · rintro (⟨h, m, hah, hhb, hkind⟩ | ⟨h, m, hbh, hhc, hkind⟩)
    · exact ⟨h, m, hah, hhb.trans hbc, hkind⟩
    · exact ⟨h, m, hab.trans hbh, hhc, hkind⟩

theorem happens_cons_iff {m : Milestone} : Happens kind a (m :: a) ↔ kind a m := by
  constructor
  · rintro ⟨h, m', hah, hha, hkind⟩
    have hlen : (m' :: h).length = (m :: a).length := by
      have := hah.length_le
      have := hha.length_le
      simp only [List.length_cons] at this ⊢
      omega
    have heq := hha.eq_of_length hlen
    rw [List.cons.injEq] at heq
    obtain ⟨rfl, rfl⟩ := heq
    exact hkind
  · intro hkind
    exact ⟨a, m, List.suffix_rfl, List.suffix_rfl, hkind⟩

/-- From before the opening `m` of a class to after its closing: at the opening, inside, or at
the closing. -/
theorem happens_visit_iff {m : Milestone} (h : m :: a <:+ b) :
    Happens kind a (.closed :: b) ↔
      kind a m ∨ Happens kind (m :: a) b ∨ kind b .closed := by
  rw [happens_trans_iff (List.suffix_cons m a) (h.trans (List.suffix_cons _ _)),
    happens_cons_iff, happens_trans_iff h (List.suffix_cons _ _), happens_cons_iff]

end

/-- The class is opened between the two histories. -/
def Opens (name : String) (isImported : Bool) : List Milestone → List Milestone → Prop :=
  Happens fun _ m => m = .opened name isImported

/-- The class is opened explicitly between the two histories, while no import of it is in
progress. -/
def OpensFreely (name : String) : List Milestone → List Milestone → Prop :=
  Happens fun h m => m = .opened name false ∧ (name, true) ∉ inProgress h

theorem opens_trans_iff {name : String} {isImported : Bool} {a b c : List Milestone}
    (hab : a <:+ b) (hbc : b <:+ c) :
    Opens name isImported a c ↔ Opens name isImported a b ∨ Opens name isImported b c :=
  happens_trans_iff hab hbc

theorem opens_of_mem {name : String} {isImported : Bool} {after : List Milestone}
    (h : .opened name isImported ∈ after) : Opens name isImported [] after := by
  obtain ⟨later, earlier, rfl⟩ := List.append_of_mem h
  exact ⟨earlier, _, List.nil_suffix, List.suffix_append _ _, rfl⟩

/-- What was open before stays open in between, and nothing else is open afterwards. -/
structure Balanced (before after : List Milestone) : Prop where
  suffix : before <:+ after
  inProgress_eq : inProgress after = inProgress before
  between : ∀ h, before <:+ h → h <:+ after → inProgress before <:+ inProgress h

namespace Balanced

variable {a b c : List Milestone}

theorem refl (a : List Milestone) : Balanced a a where
  suffix := List.suffix_rfl
  inProgress_eq := rfl
  between h hah hha := by
    obtain rfl := hah.eq_of_length_le hha.length_le
    exact List.suffix_rfl

theorem trans (hab : Balanced a b) (hbc : Balanced b c) : Balanced a c where
  suffix := hab.suffix.trans hbc.suffix
  inProgress_eq := hbc.inProgress_eq.trans hab.inProgress_eq
  between h hah hhc := by
    obtain hb | hb := List.suffix_or_suffix_of_suffix hhc hbc.suffix
    · exact hab.between h hah hb
    · rw [← hab.inProgress_eq]
      exact hbc.between h hb hhc

/-- A class is imported, and then something balanced happens. -/
theorem imported {name importer : String} (h : Balanced (.imported name importer :: a) b) :
    Balanced a b where
  suffix := (List.suffix_cons _ _).trans h.suffix
  inProgress_eq := h.inProgress_eq
  between g hag hgb := by
    obtain hg | hg := List.suffix_or_suffix_of_suffix hgb h.suffix
    · obtain rfl | hg := List.suffix_cons_iff.1 hg
      · exact List.suffix_rfl
      · obtain rfl := hag.eq_of_length_le hg.length_le
        exact List.suffix_rfl
    · exact h.between g hg hgb

/-- A class is opened, something balanced happens, and the class is closed. -/
theorem visit {name : String} {isImported : Bool}
    (h : Balanced (.opened name isImported :: a) b) : Balanced a (.closed :: b) where
  suffix := (List.suffix_cons _ _).trans (h.suffix.trans (List.suffix_cons _ _))
  inProgress_eq := by
    rw [inProgress, h.inProgress_eq]
    rfl
  between g hag hgb := by
    obtain rfl | hgb := List.suffix_cons_iff.1 hgb
    · rw [inProgress, h.inProgress_eq]
      exact List.suffix_rfl
    · obtain hg | hg := List.suffix_or_suffix_of_suffix hgb h.suffix
      · obtain rfl | hg := List.suffix_cons_iff.1 hg
        · exact List.suffix_cons _ _
        · obtain rfl := hag.eq_of_length_le hg.length_le
          exact List.suffix_rfl
      · exact (List.suffix_cons _ _).trans (h.between g hg hgb)

/-- Inside an import of the class nothing opens it freely. -/
theorem not_opensFreely {name : String} (h : Balanced (.opened name true :: a) b) :
    ¬ OpensFreely name (.opened name true :: a) b := by
  rintro ⟨g, m, hag, hgb, _, hfree⟩
  have hopen := h.between g hag ((List.suffix_cons _ _).trans hgb)
  exact hfree (hopen.subset List.mem_cons_self)

end Balanced

/-! ## What is explicit -/

/-- The class is committed as one that was registered explicitly. -/
def Run.IsExplicit (s : Run) (name : String) : Prop :=
  ∃ c, s.classes.get? name = some c ∧ c.isImported = false

theorem ConfigClass.isImported_mergeImporters {c other : ConfigClass} (h : c.isImported = true) :
    (c.mergeImporters other).isImported = true := by
  have step : ∀ (es : List (String × ClassInfo)) (m : OrderedMap String ClassInfo),
      m.isEmpty = false → (es.foldl (fun m e => m.insertIfNew e.1 e.2) m).isEmpty = false := by
    intro es
    induction es with
    | nil => exact fun _ h => h
    | cons e es ih =>
      intro m hm
      refine ih _ ?_
      show (m.insertIfNew e.1 e.2).isEmpty = false
      rw [OrderedMap.insertIfNew]
      split
      · exact hm
      · rw [OrderedMap.isEmpty, List.isEmpty_eq_false_iff]
        simp
  rw [isImported, Bool.not_eq_true'] at h ⊢
  exact step _ _ h

namespace Run

theorem IsExplicit.committed {s : Run} {name : String} (h : s.IsExplicit name) :
    s.Committed name := by
  obtain ⟨c, hc, _⟩ := h
  exact committed_of_get? hc

theorem isExplicit_commit_self {s : Run} {c : ConfigClass} :
    (s.commit c).IsExplicit c.name ↔ c.isImported = false := by
  rw [IsExplicit, commit, OrderedMap.get?_insert_self]
  simp

theorem isExplicit_commit_of_ne {s : Run} {c : ConfigClass} {name : String} (h : name ≠ c.name) :
    (s.commit c).IsExplicit name ↔ s.IsExplicit name := by
  rw [IsExplicit, IsExplicit, commit, OrderedMap.get?_insert_of_ne _ h.symm]

theorem Enrolls.isExplicit {s t : Run} {c : ConfigClass} (h : s.Enrolls c t) {name : String}
    (hname : name ≠ c.name) : t.IsExplicit name ↔ s.IsExplicit name := by
  obtain ⟨_, rfl⟩ | ⟨_, _, rfl⟩ := h
  · rfl
  · rw [IsExplicit, IsExplicit, withdraw, OrderedMap.get?_erase_of_ne _ hname.symm]

theorem isExplicit_absorb {s : Run} {key name : String} {scratch : ConfigClass} :
    IsExplicit { s with classes := s.classes.modify key (·.absorb scratch) } name ↔
      s.IsExplicit name := by
  by_cases hname : name = key
  · rw [hname, IsExplicit, IsExplicit, OrderedMap.get?_modify_self]
    cases s.classes.get? key with
    | none => simp
    | some present =>
      simp only [Option.map_some, Option.some.injEq, exists_eq_left']
      exact Iff.rfl
  · rw [IsExplicit, IsExplicit, OrderedMap.get?_modify_of_ne _ (Ne.symm hname)]

/-- How the milestones between two runs tell what is explicit in the second. -/
structure Tracks (s t : Run) : Prop where
  balanced : Balanced s.history t.history
  opened : ∀ name isImported, Opens name isImported s.history t.history → t.Committed name
  committed : ∀ name, t.Committed name →
    s.Committed name ∨ ∃ isImported, Opens name isImported s.history t.history
  explicit : ∀ name, (name, true) ∉ inProgress s.history →
    (t.IsExplicit name ↔ s.IsExplicit name ∨ OpensFreely name s.history t.history)

namespace Tracks

/-- Nothing is opened or closed, and the same classes are committed, as explicit as before. -/
theorem of_eq {s t : Run} (history : t.history = s.history)
    (committed : ∀ name, t.Committed name → s.Committed name)
    (explicit : ∀ name, t.IsExplicit name ↔ s.IsExplicit name) : Tracks s t where
  balanced := by
    rw [history]
    exact .refl _
  opened name isImported h := by
    rw [history] at h
    exact absurd h not_happens_self
  committed name h := .inl (committed name h)
  explicit name _ := by
    rw [history, explicit name]
    constructor
    · exact .inl
    · rintro (h | h)
      · exact h
      · exact absurd h not_happens_self

theorem trans {s t u : Run} (hst : Tracks s t) (htu : Tracks t u)
    (hcommitted : ∀ name, t.Committed name → u.Committed name) : Tracks s u where
  balanced := hst.balanced.trans htu.balanced
  opened name isImported h := by
    obtain h | h := (happens_trans_iff hst.balanced.suffix htu.balanced.suffix).1 h
    · exact hcommitted name (hst.opened name isImported h)
    · exact htu.opened name isImported h
  committed name h := by
    have hsplit (isImported : Bool) : Opens name isImported s.history u.history ↔
        Opens name isImported s.history t.history ∨ Opens name isImported t.history u.history :=
      happens_trans_iff hst.balanced.suffix htu.balanced.suffix
    obtain h | ⟨isImported, h⟩ := htu.committed name h
    · obtain h | ⟨isImported, h⟩ := hst.committed name h
      · exact .inl h
      · exact .inr ⟨isImported, (hsplit isImported).2 (.inl h)⟩
    · exact .inr ⟨isImported, (hsplit isImported).2 (.inr h)⟩
  explicit name hname := by
    have ht : (name, true) ∉ inProgress t.history := by
      rw [hst.balanced.inProgress_eq]
      exact hname
    rw [htu.explicit name ht, hst.explicit name hname, or_assoc]
    exact or_congr Iff.rfl (happens_trans_iff hst.balanced.suffix htu.balanced.suffix).symm

/-- An import is not an opening. -/
theorem imported {s t : Run} {name importer : String}
    (h : (s.importing name importer).Tracks t) : s.Tracks t where
  balanced := h.balanced.imported
  opened other isImported hopens := by
    obtain hopens | hopens :=
      (happens_trans_iff (List.suffix_cons _ _) h.balanced.suffix).1 hopens
    · cases happens_cons_iff.1 hopens
    · exact h.opened other isImported hopens
  committed other hother := by
    obtain hother | ⟨isImported, hopens⟩ := h.committed other hother
    · exact .inl hother
    · exact .inr ⟨isImported,
        (happens_trans_iff (List.suffix_cons _ _) h.balanced.suffix).2 (.inr hopens)⟩
  explicit other hfree := by
    have hself : ¬ OpensFreely other s.history (.imported name importer :: s.history) := by
      intro hopens
      cases (happens_cons_iff.1 hopens).1
    have hsplit : OpensFreely other s.history t.history ↔ _ :=
      happens_trans_iff (List.suffix_cons _ _) h.balanced.suffix
    refine (h.explicit other hfree).trans (or_congr Iff.rfl ⟨fun hopens => ?_, fun hopens => ?_⟩)
    · exact hsplit.2 (.inr hopens)
    · exact (hsplit.1 hopens).resolve_left hself

/-- A class that is imported again stays imported. -/
theorem merge {s : Run} {c present : ConfigClass} (hs : s.Keyed)
    (hpresent : s.classes.get? c.name = some present) (himp : present.isImported = true) :
    s.Tracks (s.commit (present.mergeImporters c)) := by
  have hname : present.name = c.name := hs.name_eq hpresent
  have hmerge : (present.mergeImporters c).name = present.name := rfl
  refine .of_eq rfl (fun name h => ?_) fun name => ?_
  · obtain rfl | h := committed_commit.1 h
    · rw [hmerge, hname]
      exact committed_of_get? hpresent
    · exact h
  · by_cases hc : name = c.name
    · rw [hc, ← hname, ← hmerge, isExplicit_commit_self,
        ConfigClass.isImported_mergeImporters himp, hmerge, hname, IsExplicit, hpresent]
      simp [himp]
    · exact isExplicit_commit_of_ne fun h => hc (h.trans hname)

/-- What a class is after its own visit depends on how it was opened, and on what happened inside
only if it was not opened as imported. -/
theorem explicit_visit_self {s run t : Run} {c record : ConfigClass} (hrun : s.Enrolls c run)
    (hbalanced : Balanced (.opened c.name c.isImported :: s.history) t.history)
    (hname : record.name = c.name) (himp : record.isImported = c.isImported)
    (hfree : (c.name, true) ∉ inProgress s.history) :
    ((RunM.close t).commit record).IsExplicit c.name ↔
      s.IsExplicit c.name ∨ OpensFreely c.name s.history (.closed :: t.history) := by
  rw [OpensFreely, happens_visit_iff hbalanced.suffix, ← hname, isExplicit_commit_self, himp, hname]
  cases hcase : c.isImported with
  | false => simp [hfree]
  | true =>
    rw [hcase] at hbalanced
    have hnew : ¬ s.IsExplicit c.name := by
      intro hexplicit
      obtain ⟨habsent, _⟩ | ⟨_, hcase', _⟩ := hrun
      · exact habsent hexplicit.committed
      · cases hcase.symm.trans hcase'
    have hinside := hbalanced.not_opensFreely
    rw [OpensFreely] at hinside
    simp [hnew, hinside]

/-- The visit of one class changes nothing about another but what happens inside. -/
theorem explicit_visit_of_ne {s run t : Run} {c record : ConfigClass}
    (htracks : (run.opening c).Tracks t) (hrun : s.Enrolls c run) (hname : record.name = c.name)
    {name : String} (hc : name ≠ c.name) (hfree : (name, true) ∉ inProgress s.history) :
    ((RunM.close t).commit record).IsExplicit name ↔
      s.IsExplicit name ∨ OpensFreely name s.history (.closed :: t.history) := by
  obtain ⟨_, _, hhistory, _, _⟩ := hrun.continues
  have hsuffix := htracks.balanced.suffix
  have hfree' : (name, true) ∉ inProgress (run.opening c).history := by
    show (name, true) ∉ (c.name, c.isImported) :: inProgress run.history
    rw [hhistory, List.mem_cons, not_or]
    exact ⟨fun h => hc (Prod.mk.inj h).1, hfree⟩
  have hmid := htracks.explicit name hfree'
  have hrest : (run.opening c).IsExplicit name ↔ s.IsExplicit name := hrun.isExplicit hc
  have hout : ¬ (Milestone.opened c.name c.isImported = .opened name false) := by
    intro h
    exact hc (Milestone.opened.inj h).1.symm
  have hne : name ≠ record.name := fun h => hc (h.trans hname)
  rw [hrest] at hmid
  rw [← hhistory, OpensFreely, happens_visit_iff hsuffix, isExplicit_commit_of_ne hne]
  simp only [hout, reduceCtorEq, false_and, false_or, or_false]
  exact hmid

theorem visit {s run t : Run} {c record : ConfigClass} (htracks : (run.opening c).Tracks t)
    (hrun : s.Enrolls c run) (hname : record.name = c.name)
    (himp : record.isImported = c.isImported) : s.Tracks ((RunM.close t).commit record) := by
  obtain ⟨_, _, hhistory, _, _⟩ := hrun.continues
  have hbalanced : Balanced (.opened c.name c.isImported :: s.history) t.history := by
    rw [← hhistory]
    exact htracks.balanced
  have hsplit (name : String) (isImported : Bool) :
      Opens name isImported s.history (.closed :: t.history) ↔ _ :=
    happens_visit_iff hbalanced.suffix
  refine ⟨hbalanced.visit, fun name isImported h => ?_, fun name h => ?_, fun name hfree => ?_⟩
  · rw [committed_commit, hname]
    obtain h | h | h := (hsplit _ _).1 h
    · exact .inl (Milestone.opened.inj h).1.symm
    · rw [← hhistory] at h
      exact .inr (htracks.opened name isImported h)
    · cases h
  · obtain hc | h := committed_commit.1 h
    · exact .inr ⟨c.isImported, (hsplit _ _).2 (.inl (by rw [hc, hname]))⟩
    · obtain h | ⟨isImported, h⟩ := htracks.committed name h
      · by_cases hc : name = c.name
        · exact .inr ⟨c.isImported, (hsplit _ _).2 (.inl (by rw [hc]))⟩
        · exact .inl ((hrun.committed hc).1 h)
      · refine .inr ⟨isImported, (hsplit _ _).2 (.inr (.inl ?_))⟩
        rw [← hhistory]
        exact h
  · by_cases hc : name = c.name
    · subst hc
      exact explicit_visit_self hrun hbalanced hname himp hfree
    · exact htracks.explicit_visit_of_ne hrun hname hc hfree

end Tracks
end Run

theorem Moves.tracks {w : World} {K : Scope} {p : Part} {s t : Collecting}
    (h : Moves w K p s t) (hs : s.run.Keyed) : s.run.Tracks t.run := by
  induction h with
  | refl _ => exact .of_eq rfl (fun _ h => h) fun _ => Iff.rfl
  | trans hst htu ih ih' =>
    exact (ih hs).trans (ih' (hst.keyed hs)) htu.continues.committed
  | aside h =>
    refine .of_eq h.history (fun name hname => ?_) fun _ => ?_
    · rw [Run.Committed, h.classes] at hname
      exact hname
    · rw [Run.IsExplicit, h.classes]
      exact Iff.rfl
  | report _ _ _ => exact .of_eq rfl (fun _ h => h) fun _ => Iff.rfl
  | scan _ _ _ _ ih =>
    obtain ⟨balanced, opened, committed, explicit⟩ := ih hs
    exact ⟨balanced, opened, committed, explicit⟩
  | register _ _ _ _ _ ih =>
    obtain ⟨balanced, opened, committed, explicit⟩ := ih hs
    exact ⟨balanced, opened, committed, explicit⟩
  | imported _ _ _ ih => exact (ih hs).imported
  | claim _ _ _ _ _ _ ih =>
    obtain ⟨balanced, opened, committed, explicit⟩ := ih hs
    exact ⟨balanced, opened, committed, explicit⟩
  | enqueue _ _ _ => exact .of_eq rfl (fun _ h => h) fun _ => Iff.rfl
  | stacked _ _ ih =>
    obtain ⟨balanced, opened, committed, explicit⟩ := ih hs
    exact ⟨balanced, opened, committed, explicit⟩
  | nested _ ih =>
    obtain ⟨balanced, opened, committed, explicit⟩ := ih hs
    exact ⟨balanced, opened, committed, explicit⟩
  | merge hpresent himp _ _ => exact .merge hs hpresent himp
  | @visit p s t c f run _ _ _ _ hrun hinner _ ih =>
    have hkeyed := hs.enrolls hrun
    have himp : t.record.isImported = c.isImported := by
      rw [ConfigClass.isImported, ConfigClass.isImported, hinner.continues.importedBy]
    exact (ih hkeyed).visit hrun hinner.continues.name himp
  | gather _ => exact .of_eq rfl (fun _ h => h) fun _ => Iff.rfl
  | collect _ _ _ _ => exact .of_eq rfl (fun _ h => h) fun _ => Iff.rfl
  | @absorb p s t c name _ _ _ _ ih =>
    obtain ⟨balanced, opened, committed, explicit⟩ := ih hs
    refine ⟨balanced, fun other isImported h => Run.committed_modify.2 (opened other isImported h),
      fun other h => committed other (Run.committed_modify.1 h), fun other hfree => ?_⟩
    rw [Run.isExplicit_absorb]
    exact explicit other hfree

/-! ## Calls -/

namespace Run

/-- Between two calls the queue is open and empty and nothing is in progress. -/
structure Idle (s : Run) : Prop where
  queue : s.queue = some []
  keyed : s.Keyed
  inProgress : inProgress s.history = []

theorem idle_fresh (environment : Environment) (registry : Registry) :
    (fresh environment registry).Idle :=
  ⟨rfl, fun _ h => (by cases h), rfl⟩

/-- A successful call keeps track of what it opens. -/
theorem parse_tracks {w : World} {seeds : List NamedDefinition} {s t : Run} (hs : s.Idle)
    (h : parse w seeds s = .ok () t) :
    s.Tracks t ∧ t.Keyed ∧ ∀ name, s.Committed name → t.Committed name := by
  obtain ⟨u, v, _, hu, hv, rfl⟩ :=
    parse_moves w.admits_anything (.explicit .object none) hs.queue (fun _ _ _ _ => trivial) h
  have hkeyed : u.Keyed := hu.keyed hs.keyed
  have hfirst : s.Tracks u := hu.tracks hs.keyed
  obtain ⟨balanced, opened, committed, explicit⟩ : Tracks { u with queue := none } v :=
    hv.tracks hkeyed
  have hrest : u.Tracks { v with queue := some [] } := ⟨balanced, opened, committed, explicit⟩
  have hcommitted : ∀ name, u.Committed name → v.Committed name := hv.continues.committed
  exact ⟨hfirst.trans hrest hcommitted, hv.keyed hkeyed,
    fun name hname => hcommitted name (hu.continues.committed name hname)⟩

theorem Idle.parse {w : World} {seeds : List NamedDefinition} {s t : Run} (hs : s.Idle)
    (h : parse w seeds s = .ok () t) : t.Idle := by
  obtain ⟨htracks, hkeyed, _⟩ := parse_tracks hs h
  refine ⟨?_, hkeyed, htracks.balanced.inProgress_eq.trans hs.inProgress⟩
  obtain ⟨u, v, _, _, _, rfl⟩ :=
    parse_moves w.admits_anything (.explicit .object none) hs.queue (fun _ _ _ _ => trivial) h
  rfl

/-- A class that is opened explicitly is committed.  It ends up explicit exactly if it was
before, or if one of its explicit registrations was opened while no import of it was in
progress. -/
theorem isExplicit_iff_opensFreely {w : World} {seeds : List NamedDefinition} {s t : Run}
    (hs : s.Idle) (h : parse w seeds s = .ok () t) {name : String}
    (hopen : Opens name false s.history t.history) :
    ∃ c, t.classes.get? name = some c ∧
      (c.isImported = false ↔ s.IsExplicit name ∨ OpensFreely name s.history t.history) := by
  obtain ⟨htracks, _, _⟩ := parse_tracks hs h
  have hcommitted := htracks.opened name false hopen
  obtain ⟨c, hc⟩ := Option.isSome_iff_exists.1 hcommitted
  have hfree : (name, true) ∉ inProgress s.history := by
    rw [hs.inProgress]
    exact List.not_mem_nil
  refine ⟨c, hc, ?_⟩
  rw [← htracks.explicit name hfree, IsExplicit, hc]
  simp

end Run

/-! ## A class lost to an import -/

namespace Tag

def importing (names : List String) : Tag :=
  .mk WellKnown.importTag [("value", .array (names.map .classRef))]

def scanning (packages : List String) : Tag :=
  .mk WellKnown.componentScan [("basePackages", .array (packages.map .string))]

end Tag

/-- A definition for each class name, with that name as the name of its bean. -/
def seedsOf (names : List String) : List NamedDefinition :=
  names.map fun name => ⟨name, .ofClassName name⟩

/-- A leaf that is imported and whose superclass scans the package of the leaf. -/
def scanningSuperclass (scanner : Scanner) : World where
  resolver := { reader := { index := ⟨[
    { name := "app.Root", tags := [.importing ["lib.Leaf"]] },
    { name := "lib.Leaf", superClass := some "app.Base", tags := [.mk WellKnown.component []] },
    { name := "app.Base", tags := [.scanning ["lib"]] }]⟩ } }
  scanner

set_option maxRecDepth 100000 in
/-- An explicit registration does not always win over an import.  The scan of the superclass
registers the leaf while an import of the leaf is in progress, and the import is committed
last. -/
theorem not_forall_isExplicit_of_opens :
    ¬ ∀ (w : World) (seeds : List NamedDefinition) (s t : Run), s.Idle →
      Run.parse w seeds s = .ok () t →
      ∀ name, Opens name false s.history t.history → t.IsExplicit name := by
  intro hall
  have hcheck : succeedsWith (fun t : Run =>
      decide (.opened "lib.Leaf" false ∈ t.history) &&
        (t.classes.get? "lib.Leaf").any (·.isImported))
      (Run.parse (scanningSuperclass (.reading ["lib.Leaf"] false)) (seedsOf ["app.Root"])
        (Run.fresh {} {})) = true := by
    decide +kernel
  obtain ⟨t, hparse, ht⟩ := exists_of_succeedsWith hcheck
  rw [Bool.and_eq_true, decide_eq_true_eq, Option.any_eq_true] at ht
  obtain ⟨hopened, c, hc, himp⟩ := ht
  obtain ⟨c', hc', hexplicit⟩ :=
    hall _ _ _ _ (Run.idle_fresh {} {}) hparse "lib.Leaf" (opens_of_mem hopened)
  rw [hc] at hc'
  obtain rfl := Option.some.inj hc'
  rw [himp] at hexplicit
  cases hexplicit

set_option maxRecDepth 100000 in
/-- A leaf that is imported first and registered afterwards. -/
theorem isExplicit_iff_opensFreely_leaf :
    ∃ t, Run.parse (scanningSuperclass (.fixed [])) (seedsOf ["app.Root", "lib.Leaf"])
        (Run.fresh {} {}) = .ok () t ∧
      ∃ c, t.classes.get? "lib.Leaf" = some c ∧
        (c.isImported = false ↔ (Run.fresh {} {}).IsExplicit "lib.Leaf" ∨
          OpensFreely "lib.Leaf" (Run.fresh {} {}).history t.history) := by
  have hcheck : succeedsWith (fun t : Run => decide (.opened "lib.Leaf" false ∈ t.history))
      (Run.parse (scanningSuperclass (.fixed [])) (seedsOf ["app.Root", "lib.Leaf"])
        (Run.fresh {} {})) = true := by
    decide +kernel
  obtain ⟨t, hparse, ht⟩ := exists_of_succeedsWith hcheck
  rw [decide_eq_true_eq] at ht
  exact ⟨t, hparse,
    Run.isExplicit_iff_opensFreely (Run.idle_fresh {} {}) hparse (opens_of_mem ht)⟩

end Wiring
