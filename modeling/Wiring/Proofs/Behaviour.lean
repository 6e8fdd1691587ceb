import Wiring.Proofs.Bookkeeping
import Wiring.Proofs.Changes
import Wiring.Proofs.Groups

/-!
# How steps behave

However a step ends, it has made nothing but changes, and if it fails, the failure has been
attributed at most once, to a class that has been opened.  One lemma for each step, over the steps
one level deeper, and from them an induction over how deep the steps go.
-/

namespace Wiring

/-! ## Failures on their way out -/

/-- The failure of a part of a run that comes to `t`: it is bare, or a reported problem that ends
the run, or a bare cause attributed to a class that has been opened. -/
inductive Run.Attributes (w : World) (t : Run) : Failure → Prop
  | bare {e : Failure} : e.isBare = true → Attributes w t e
  | problem (p : Problem) : w.isFailFast = true → Attributes w t (.problem p)
  | attributed (activity : Activity) {name : String} {cause : Failure} :
      cause.isBare = true → t.HasOpened name → Attributes w t (.attributed activity name cause)

/-- A failure that has been attributed is no longer bare. -/
theorem Failure.isBare_within (activity : Activity) (className : String) (e : Failure) :
    (e.within activity className).isBare = false := by
  cases e <;> rfl

theorem Failure.within_of_isBare {e : Failure} (h : e.isBare = true) (activity : Activity)
    (className : String) : e.within activity className = .attributed activity className e := by
  cases e with
  | problem _ => cases h
  | attributed _ _ _ => cases h
  | _ => rfl

namespace Run.Attributes

variable {w : World} {s t : Run} {e : Failure}

theorem mono (h : s.Attributes w e) (hst : s.history ⊆ t.history) : t.Attributes w e := by
  cases h with
  | bare h => exact .bare h
  | problem p h => exact .problem p h
  | attributed activity h hname => exact .attributed activity h (hname.mono hst)

theorem within (h : t.Attributes w e) {name : String} (hname : t.HasOpened name)
    (activity : Activity) : t.Attributes w (e.within activity name) := by
  cases h with
  | bare h =>
    rw [Failure.within_of_isBare h]
    exact .attributed activity h hname
  | problem p h => exact .problem p h
  | attributed activity' h hname' => exact .attributed activity' h hname'

end Run.Attributes

/-! ## Rules -/

/-- However the step ends, it has made nothing but changes.  Its result meets `Q`, and its
failure has been attributed at most once. -/
def Behaves (w : World) (X : String → Prop) {σ α : Type} (into : σ → Collecting)
    (act : EStateM Failure σ α) (s : σ) (Q : α → σ → Prop) : Prop :=
  (into s).run.Sane X →
    Ends (act s) (fun a t => Changes X (into s) (into t) ∧ Q a t)
      fun e t => Changes X (into s) (into t) ∧ (into t).run.Attributes w e

/-- The step behaves, whatever its result. -/
abbrev Behaved (w : World) (X : String → Prop) {σ α : Type} (into : σ → Collecting)
    (act : EStateM Failure σ α) (s : σ) : Prop :=
  Behaves w X into act s fun _ _ => True

namespace Behaves

variable {w : World} {X : String → Prop} {σ α β : Type} {into : σ → Collecting} {s : σ}
  {Q : α → σ → Prop} {R : β → σ → Prop}

theorem imp {act : EStateM Failure σ α} {Q' : α → σ → Prop} (h : Behaves w X into act s Q)
    (hQ : ∀ a t, Changes X (into s) (into t) → Q a t → Q' a t) : Behaves w X into act s Q' :=
  fun hs => (h hs).imp (fun a t ht => ⟨ht.1, hQ a t ht.1 ht.2⟩) fun _ _ h => h

theorem pure {a : α} (h : Q a s) : Behaves w X into (pure a) s Q :=
  fun _ => ⟨.refl _, h⟩

theorem throw {e : Failure} (h : e.isBare = true) : Behaves w X into (throw e) s Q :=
  fun _ => ⟨.refl _, .bare h⟩

theorem ofExcept {x : Except Failure α} (hx : Tame x) (h : ∀ a, x = .ok a → Q a s) :
    Behaves w X into (ofExcept x) s Q := by
  intro _
  refine ends_ofExcept.2 ⟨fun a ha => ⟨.refl _, h a ha⟩, fun e he => ⟨.refl _, .bare ?_⟩⟩
  exact Failure.isBare_of_isPlain (hx e he)

theorem modify {f : σ → σ} (h : Changes X (into s) (into (f s))) :
    Behaved w X into (modify f : EStateM Failure σ PUnit) s :=
  fun _ => ⟨h, trivial⟩

theorem bind {x : EStateM Failure σ α} {f : α → EStateM Failure σ β} (hx : Behaves w X into x s Q)
    (hf : ∀ a t, Changes X (into s) (into t) → Q a t → Behaves w X into (f a) t R) :
    Behaves w X into (x >>= f) s R := by
  intro hs
  refine ends_bind.2 ((hx hs).imp (fun a t ht => ?_) fun _ _ h => h)
  refine (hf a t ht.1 ht.2 (ht.1.sane hs)).imp (fun _ _ hu => ?_) fun _ _ hu => ?_
  · exact ⟨ht.1.trans hu.1, hu.2⟩
  · exact ⟨ht.1.trans hu.1, hu.2⟩

/-- A step whose result does not matter comes first. -/
theorem andThen {x : EStateM Failure σ α} {f : α → EStateM Failure σ β} (hx : Behaved w X into x s)
    (hf : ∀ a t, Changes X (into s) (into t) → Behaves w X into (f a) t R) :
    Behaves w X into (x >>= f) s R :=
  hx.bind fun a t ht _ => hf a t ht

theorem get {f : σ → EStateM Failure σ β} (h : Behaves w X into (f s) s R) :
    Behaves w X into (get >>= f) s R :=
  h

theorem record {f : ConfigClass → RecordM β} {s : Collecting} {R : β → Collecting → Prop}
    (h : Behaves w X id (f s.record) s R) : Behaves w X id (RecordM.record >>= f) s R :=
  h

theorem ofExcept_bind {x : Except Failure α} {f : α → EStateM Failure σ β} (hx : Tame x)
    (hf : ∀ a, x = .ok a → Behaves w X into (f a) s R) :
    Behaves w X into (Wiring.ofExcept x >>= f) s R := by
  cases x with
  | ok a => exact hf a rfl
  | error e => exact fun _ => ⟨.refl _, .bare (Failure.isBare_of_isPlain (hx e rfl))⟩

theorem forM {f : α → EStateM Failure σ PUnit} {as : List α}
    (h : ∀ a ∈ as, ∀ t, Changes X (into s) (into t) → Behaved w X into (f a) t) :
    Behaved w X into (as.forM f) s := by
  induction as generalizing s with
  | nil => exact .pure trivial
  | cons a as ih =>
    refine .andThen (h a List.mem_cons_self s (.refl _)) fun _ t ht => ?_
    exact ih fun a ha u hu => h a (List.mem_cons_of_mem _ ha) u (ht.trans hu)

/-- A failure is attributed to a class that has been opened. -/
theorem within {x : EStateM Failure σ α} {name : String} (hname : (into s).run.HasOpened name)
    (activity : Activity) (hx : Behaves w X into x s Q) :
    Behaves w X into (onFailure (Failure.within activity name) x) s Q := by
  intro hs
  refine ends_onFailure.2 ((hx hs).imp (fun _ _ h => h) fun e t ht => ?_)
  exact ⟨ht.1, ht.2.within (ht.1.hasOpened hname) activity⟩

/-- A step with something before and after it. -/
theorem ensuring {after : σ → σ} {x : EStateM Failure σ α}
    (hafter : ∀ t, Changes X (into t) (into (after t))) (hx : Behaved w X into x s) :
    Behaved w X into (Wiring.ensuring after x) s := by
  intro hs
  refine ends_ensuring.2 ((hx hs).imp (fun a t ht => ?_) fun e t ht => ?_)
  · exact ⟨ht.1.trans (hafter t), trivial⟩
  · exact ⟨ht.1.trans (hafter t), ht.2.mono (hafter t).history_suffix.subset⟩

/-- The result of a step is its result. -/
theorem result {act : EStateM Failure σ α} (h : Behaved w X into act s) :
    Behaves w X into act s fun a t => act s = .ok a t :=
  fun hs => ends_of (fun _ _ hr => ⟨((h hs).of_ok hr).1, hr⟩) fun _ _ hr => (h hs).of_error hr

theorem quiet {act : RunM α} (h : Quiet act) {record : ConfigClass} {s : Run} :
    Behaved w X (Collecting.mk record) act s := by
  have haside {t : Run} (ht : s.SameCourse t) : Changes X ⟨record, s⟩ ⟨record, t⟩ :=
    .aside ht.classes ht.superclassOwners ht.queue ht.history
  refine fun _ => (h.ends s).imp (fun _ t ht => ⟨haside ht, trivial⟩) fun e t ht => ?_
  exact ⟨haside ht.1, .bare (Failure.isBare_of_isPlain ht.2)⟩

theorem lift {act : RunM α} {s : Collecting} (h : Behaved w X (Collecting.mk s.record) act s.run) :
    Behaved w X id (liftM act : RecordM α) s :=
  fun hs => ends_lift.2 (h hs)

theorem quietly {act : RunM α} (h : Quiet act) {s : Collecting} :
    Behaved w X id (liftM act : RecordM α) s :=
  .lift (.quiet h)

end Behaves

/-! ## Steps -/

/-- The steps that lead into others behave. -/
structure Steps.Behave (deeper : Steps) (w : World) (X : String → Prop) : Prop where
  enter : ∀ {c : ConfigClass} {f : NameFilter} {record : ConfigClass} {s : Run}, f.Covers X →
    (X c.name → c.IsInert) → Behaved w X (Collecting.mk record) (deeper.enter c f) s
  climb : ∀ {v : View} {f : NameFilter} {s : Collecting}, f.Covers X →
    (X s.record.name → v = .object) → s.run.HasOpened s.record.name →
    Behaved w X id (deeper.climb v f) s
  imports : ∀ {current : View} {us : List View} {f : NameFilter} {checksCycles : Bool}
    {s : Collecting}, f.Covers X → (∀ u ∈ us, u.IsOpen X) → (us ≠ [] → ¬ X s.record.name) →
    s.run.HasOpened s.record.name → Behaved w X id (deeper.imports current us f checksCycles) s

namespace Step

variable {w : World} {X : String → Prop} {deeper : Steps}

theorem commit_behaves {c record : ConfigClass} {s : Run} (hopen : s.HasOpened c.name)
    (hc : X c.name → c.IsInert) : Behaved w X (Collecting.mk record) (commit c) s :=
  .modify (.committed (s := ⟨record, s⟩) hopen hc)

theorem enroll_behaves {c record : ConfigClass} {s : Run} (hs : s.Sane X)
    (hc : X c.name → c.IsInert) : Behaved w X (Collecting.mk record) (enroll c) s := by
  refine .get ?_
  cases hpresent : s.classes.get? c.name with
  | none => exact .pure trivial
  | some present =>
    have hname : present.name = c.name := hs.keyed.name_eq hpresent
    have hopen : s.HasOpened present.name := by
      rw [hname]
      exact hs.opened _ (Run.committed_of_get? hpresent)
    dsimp only
    split
    · rename_i himported
      have hbarred : ¬ X c.name := by
        intro hX
        rw [(hc hX).isImported] at himported
        cases himported
      split
      · refine .andThen (commit_behaves (by exact hopen) fun hX => ?_) fun _ _ _ => .pure trivial
        rw [show (present.mergeImporters c).name = c.name from hname] at hX
        exact absurd hX hbarred
      · exact .pure trivial
    · refine .andThen ?_ fun _ _ _ => .pure trivial
      exact .modify (.withdrawn (s := ⟨record, s⟩) c.name)

theorem ends_descend {className : String} {s : Run} :
    Ends (RunM.descend w className s) (fun _ t => t = RunM.deepen s)
      fun e t => t = s ∧ e.isBare = true := by
  refine ends_of (fun _ t h => (descend_eq_ok.1 h).2.symm) fun e t h => ?_
  refine ⟨(descend_eq_error h).2.symm, ?_⟩
  rw [RunM.descend] at h
  replace h := get_bind_eq.1 h
  split at h
  · rcases bind_eq_error.1 h with hthrow | ⟨_, _, hthrow, _⟩
    · rw [← (throw_eq_error.1 hthrow).1]
      rfl
    · exact absurd hthrow throw_ne_ok
  · cases h

/-- The record comes back with its class opened, and still inert if it was. -/
theorem process_behaves (hd : deeper.Behave w X) {c record : ConfigClass} {f : NameFilter} {s : Run}
    (hf : f.Covers X) (hc : X c.name → c.IsInert) :
    Behaves w X (Collecting.mk record) (process w deeper c f) s fun c t =>
      t.HasOpened c.name ∧ (X c.name → c.IsInert) := by
  intro hs
  refine ends_bind.2 (ends_descend.imp (fun _ t ht => ?_) fun e t ht => ?_)
  swap
  · rw [ht.1]
    exact ⟨.refl _, .bare ht.2⟩
  subst ht
  -- once opened, the class is there for failures to be attributed to
  have hopened : Changes X ⟨record, s⟩ ⟨record, s.opening c⟩ :=
    .opened (s := ⟨record, s⟩) fun hX => (hc hX).isImported
  have hsource : X c.name → c.view.filtered f = .object := fun hX => by
    rw [View.filtered, show f.excludes c.view.name = true from hf _ hX]
    rfl
  have hclimb := hd.climb (s := ⟨c, s.opening c⟩) hf hsource ⟨c.isImported, List.mem_cons_self⟩
    (hopened.sane hs)
  have hleft {t : Collecting} (ht : Changes X ⟨c, s.opening c⟩ t) :
      Changes X ⟨record, s⟩ ⟨record, RunM.close t.run⟩ :=
    (hopened.trans (.inside ht)).trans (.closed ⟨record, t.run⟩)
  refine ends_bind.2 (ends_modify.2 (ends_bind.2 (ends_ensuring.2 (ends_on.2 ?_))))
  refine hclimb.imp (fun _ t ht => ?_) fun e t ht => ?_
  · refine ⟨hleft ht.1, ?_, ht.1.isBarred hc⟩
    have hopened := ht.1.hasOpened_record ⟨c.isImported, List.mem_cons_self⟩
    exact hopened.mono (List.subset_cons_self _ _)
  · exact ⟨hleft ht.1, ht.2.mono (List.subset_cons_self _ _)⟩

theorem enter_behaves (hd : deeper.Behave w X) {c record : ConfigClass} {f : NameFilter} {s : Run}
    (hf : f.Covers X) (hc : X c.name → c.IsInert) :
    Behaved w X (Collecting.mk record) (enter w deeper c f) s := by
  refine .andThen (.quiet (quiet_skips w _ _)) fun skip t _ => ?_
  split
  · exact .pure trivial
  · refine .andThen (fun ht => enroll_behaves ht hc ht) fun enrolled t _ => ?_
    split
    · refine (process_behaves hd hf hc).bind fun c t _ ht => ?_
      exact commit_behaves ht.1 ht.2
    · exact .pure trivial

theorem parseDefinition_behaves (hd : deeper.Behave w X) (hw : w.Bars X) {d : Definition LoadedType}
    {beanName : String} {record : ConfigClass} {s : Run} :
    Behaved w X (Collecting.mk record) (parseDefinition w deeper d beanName) s :=
  .ofExcept_bind (w.resolver.tame_ofDefinition _ _) fun v _ =>
    hd.enter (fun _ => hw.excludes) fun _ => ConfigClass.isInert_explicit v _

theorem report_behaves {problem : Problem} {record : ConfigClass} {s : Run} :
    Behaved w X (Collecting.mk record) (RunM.report w problem) s := by
  refine .andThen (.modify ?_) fun _ t _ => ?_
  · exact .aside (s := ⟨record, s⟩) rfl rfl rfl rfl
  · split
    · rename_i hfast
      exact fun _ => ⟨.refl _, .problem problem hfast⟩
    · exact .pure trivial

theorem reportCircular_behaves {c : ClassInfo} {record : ConfigClass} {s : Run} :
    Behaved w X (Collecting.mk record) (RunM.reportCircular w c) s :=
  .get report_behaves

theorem push_behaves {c : ClassInfo} {record : ConfigClass} {s : Run} :
    Behaved w X (Collecting.mk record) (RunM.push c) s :=
  .modify (.aside (s := ⟨record, s⟩) rfl rfl rfl rfl)

theorem enterImported_behaves (hd : deeper.Behave w X) {f : NameFilter}
    {importer record : ConfigClass} {v : View} {s : Run} (hf : f.Covers X)
    (himporter : ¬ X importer.name) (hv : ¬ X v.name) :
    Behaved w X (Collecting.mk record) (enterImported deeper f importer v) s := by
  refine .andThen (.modify ?_) fun _ t _ => hd.enter hf fun hX => absurd hX hv
  exact .imported (s := ⟨record, s⟩) hv himporter

/-! ### Member classes and scans -/

theorem enterMember_behaves (hd : deeper.Behave w X) {f : NameFilter}
    {importer record : ConfigClass} {m : View} {s : Run} (hf : f.Covers X)
    (himporter : ¬ X importer.name) (hm : ¬ X m.name) :
    Behaved w X (Collecting.mk record) (enterMember w deeper f importer m) s := by
  refine .get ?_
  split
  · exact reportCircular_behaves
  · refine .andThen push_behaves fun _ t _ => ?_
    refine .ensuring (fun t => ?_) (enterImported_behaves hd hf himporter hm)
    exact .aside (s := ⟨record, t⟩) rfl rfl rfl rfl

/-- The empty view, as which a barred class is processed, has no member classes. -/
theorem enterMembers_behaves (hd : deeper.Behave w X) (hw : w.Bars X) {v : View} {f : NameFilter}
    {s : Collecting} (hf : f.Covers X) (hv : X s.record.name → v = .object) :
    Behaved w X id (enterMembers w deeper v f) s := by
  refine .record ?_
  split
  · refine .forM fun m hm t ht => .lift ?_
    have hrecord : ¬ X s.record.name := by
      intro hX
      rw [hv hX] at hm
      obtain ⟨hmember, _, _⟩ := mem_memberCandidates.1 hm
      cases hmember
    have hopen : ¬ X m.name := Resolver.not_barred_memberCandidates (fun _ => hw.excludes) hm
    exact enterMember_behaves hd hf hrecord hopen
  · exact .pure trivial

theorem enterFound_behaves (hd : deeper.Behave w X) (hw : w.Bars X) {found : NamedDefinition}
    {record : ConfigClass} {s : Run} :
    Behaved w X (Collecting.mk record) (enterFound w deeper found) s := by
  unfold enterFound
  split
  · exact parseDefinition_behaves hd hw
  · exact .pure trivial

theorem enterScanned_behaves (hd : deeper.Behave w X) (hw : w.Bars X) {className : String}
    {scan : Tag} {record : ConfigClass} {s : Run} :
    Behaved w X (Collecting.mk record) (enterScanned w deeper className scan) s := by
  refine .get ?_
  dsimp only
  refine .andThen ?_ fun _ t _ => .ofExcept_bind (w.scanner.tame_scan _ _ _) fun found _ => ?_
  · exact .modify (.aside (s := ⟨record, s⟩) rfl rfl rfl rfl)
  · exact .forM fun d _ _ _ => enterFound_behaves hd hw

theorem enterAllScanned_behaves (hd : deeper.Behave w X) (hw : w.Bars X) {c : ClassInfo}
    {record : ConfigClass} {s : Run} :
    Behaved w X (Collecting.mk record) (enterAllScanned w deeper c) s := by
  unfold enterAllScanned
  dsimp only
  split
  · refine .andThen (.quiet (quiet_skips w _ _)) fun skip t _ => ?_
    split
    · exact .forM fun scan _ _ _ => enterScanned_behaves hd hw
    · exact .pure trivial
  · exact .pure trivial

/-! ### Sources -/

theorem followImports_behaves (hd : deeper.Behave w X) (hw : w.Bars X) {v : View} {f : NameFilter}
    {s : Collecting} (hf : f.Covers X) (hv : X s.record.name → v = .object)
    (hopen : s.run.HasOpened s.record.name) :
    Behaved w X id (followImports w deeper v f) s := by
  refine .ofExcept_bind (w.resolver.tame_imports v) fun us hus => ?_
  refine hd.imports hf (Resolver.isOpen_imports (fun _ => hw.excludes) hus) (fun hne hX => ?_) hopen
  rw [hv hX, Resolver.imports_of_untagged rfl] at hus
  exact hne (Except.ok.inj hus).symm

theorem addResources_behaves {v : View} {s : Collecting} (hv : X s.record.name → v = .object) :
    Behaved w X id (addResources w v.info) s := by
  unfold addResources
  split
  · rename_i t ht
    have hrecord : ¬ X s.record.name := by
      intro hX
      rw [hv hX, Resolver.findTag?_of_untagged rfl] at ht
      cases ht
    refine .forM fun location _ t ht => .get (.ofExcept_bind ?_ fun resolved _ => ?_)
    · intro e he
      obtain ⟨_, _, rfl⟩ := mapError_eq_error he
      rfl
    · have hname : t.record.name = s.record.name := ht.name_eq
      refine .modify (.gathered (s := t) ?_ rfl)
      rw [hname]
      exact hrecord
  · exact .pure trivial

theorem collectMethods_behaves {v : View} {s : Collecting} (hv : X s.record.name → v = .object) :
    Behaved w X id (collectMethods w v) s := by
  refine .record (.ofExcept_bind (w.resolver.tame_addAllMethods _ _) fun gained hgained => ?_)
  obtain ⟨ms, hms, rfl⟩ := Resolver.addAllMethods_eq_ok.1 hgained
  have hbrings : X s.record.name → v = .object ∧ ms = [] := by
    intro hX
    have hempty := hv hX
    rw [hempty, Resolver.allMethods_object] at hms
    exact ⟨hempty, (Except.ok.inj hms).symm⟩
  have hcollected := Changes.collected (X := X) hbrings
  rw [ConfigClass.gained, ConfigClass.addMethods_eq] at hcollected
  rw [ConfigClass.addMethods_eq]
  exact .modify hcollected

theorem takeSuperclass_behaves {v : View} {s : Collecting} (hv : X s.record.name → v = .object) :
    Behaves w X id (takeSuperclass w v) s fun next _ =>
      X s.record.name → next = none := by
  unfold takeSuperclass
  split
  · exact .pure fun _ => rfl
  · rename_i name hname
    have hrecord : ¬ X s.record.name := by
      intro hX
      rw [hv hX] at hname
      cases hname
    refine .get ?_
    split
    · exact .pure fun _ => rfl
    · refine .record (.andThen (.modify (.claimed (s := s) hrecord)) fun _ _ _ => ?_)
      exact .ofExcept (w.resolver.tame_superClass v) fun _ _ hX => absurd hX hrecord

theorem processSource_behaves (hd : deeper.Behave w X) (hw : w.Bars X) {v : View} {f : NameFilter}
    {s : Collecting} (hf : f.Covers X) (hv : X s.record.name → v = .object)
    (hopen : s.run.HasOpened s.record.name) :
    Behaves w X id (processSource w deeper v f) s fun next _ => X s.record.name → next = none := by
  have hv' {t : Collecting} (ht : Changes X s t) : X t.record.name → v = .object := by
    rw [ht.name_eq]
    exact hv
  refine .andThen (enterMembers_behaves hd hw hf hv) fun _ s₁ h₁ => ?_
  refine .andThen (.quietly (quiet_addDeclaredSources w v.info)) fun _ s₂ h₂ => ?_
  refine .andThen (.lift (enterAllScanned_behaves hd hw)) fun _ s₃ h₃ => ?_
  have h₃ : Changes X s s₃ := (h₁.trans h₂).trans h₃
  refine .andThen (followImports_behaves hd hw hf (hv' h₃) (h₃.hasOpened_record hopen))
    fun _ s₄ h₄ => ?_
  have h₄ : Changes X s s₄ := h₃.trans h₄
  refine .andThen (addResources_behaves (hv' h₄)) fun _ s₅ h₅ => ?_
  have h₅ : Changes X s s₅ := h₄.trans h₅
  refine .andThen (collectMethods_behaves (hv' h₅)) fun _ s₆ h₆ => ?_
  have h₆ : Changes X s s₆ := h₅.trans h₆
  refine (takeSuperclass_behaves (hv' h₆)).imp fun next t _ hnext hX => hnext ?_
  rw [h₆.name_eq]
  exact hX

theorem climb_behaves (hd : deeper.Behave w X) (hw : w.Bars X) {v : View} {f : NameFilter}
    {s : Collecting} (hf : f.Covers X) (hv : X s.record.name → v = .object)
    (hopen : s.run.HasOpened s.record.name) : Behaved w X id (climb w deeper v f) s := by
  refine (processSource_behaves hd hw hf hv hopen).bind fun next t ht hnext => ?_
  cases next with
  | none => exact .pure trivial
  | some next =>
    refine hd.climb hf (fun hX => ?_) (ht.hasOpened_record hopen)
    have hname : t.record.name = s.record.name := ht.name_eq
    have hX' : X s.record.name := by
      rw [← hname]
      exact hX
    cases hnext hX'

/-! ### Entries of groups -/

/-- The entries of a group come from classes whose selectors are in it, unless no name is barred. -/
theorem not_barred_chosen (hw : w.Bars X) {ds : List Deferred} {g : Grouping} (hg : g.IsFrom w ds)
    (hds : ∀ d ∈ ds, ¬ X d.owner.name) : ∀ e ∈ g.chosen, ¬ X e.origin.name := by
  intro e he hX
  have hkeeps : g.group.KeepsOrigins := by
    obtain hdefault | ⟨t, ht, maker, hmaker, around, hmade⟩ := hg.group
    · rw [hdefault]
      exact Group.keepsOrigins_default
    · exact hw.groups hX t ht maker hmaker around _ hmade
  obtain ⟨c, selector, hcall, horigin⟩ := hkeeps _ e he
  obtain ⟨d, hd, hcall⟩ := List.mem_map.1 hcall
  obtain ⟨rfl, -⟩ := GroupCall.process.inj hcall
  have hname : d.owner.name = e.origin.name := horigin
  exact hds d (hg.members hd) (hname ▸ hX)

/-- The origins are kept under their names and have been opened. -/
def AreOpened (origins : Origins) (s : Run) : Prop :=
  ∀ e ∈ origins.entries, e.2.name = e.1 ∧ s.HasOpened e.1

theorem areOpened_ofDeferred {ds : List Deferred} {s : Run}
    (h : ∀ d ∈ ds, s.HasOpened d.owner.name) : AreOpened (.ofDeferred ds) s := by
  intro e he
  have hname := wellNamed_ofDeferred ds e he
  rw [Origins.ofDeferred, ← List.foldl_map (g := fun (m : OrderedMap String View) v =>
    m.insertIfNew v.name v) (f := fun d : Deferred => d.owner)] at he
  refine ⟨hname, ?_⟩
  rcases OrderedMap.mem_of_mem_foldl_insertIfNew he with he | he
  · cases he
  · obtain ⟨d, hd, howner⟩ := List.mem_map.1 he
    rw [← hname, ← howner]
    exact h d hd

theorem scratchFor_opened {s : Run} {origins : Origins} {name : String} {c : ConfigClass}
    (hs : s.Sane X) (horigins : AreOpened origins s) (h : scratchFor s origins name = .ok c) :
    c.name = name ∧ s.HasOpened name := by
  rw [scratchFor] at h
  split at h
  · rename_i _ present hpresent
    obtain rfl := Except.ok.inj h
    have hname : present.name = name := hs.keyed.name_eq hpresent
    exact ⟨hname, hs.opened name (Run.committed_of_get? hpresent)⟩
  · rename_i origin _ horigin
    obtain rfl := Except.ok.inj h
    exact horigins _ (OrderedMap.mem_entries_of_get? horigin)
  · cases h

theorem tame_scratchFor (s : Run) (origins : Origins) (name : String) :
    Tame (scratchFor s origins name) := by
  rw [scratchFor]
  split
  · exact tame_ok _
  · exact tame_ok _
  · exact tame_error rfl

theorem importEntry_behaves (hd : deeper.Behave w X) {f : NameFilter} {e : GroupEntry}
    {s : Collecting} (hf : f.Covers X) (hrecord : ¬ X s.record.name)
    (hopen : s.run.HasOpened s.record.name) : Behaved w X id (importEntry w deeper f e) s := by
  refine .record (.within hopen _ (.ofExcept_bind (w.resolver.tame_ofName _ _) fun u hu => ?_))
  refine hd.imports hf (fun u' hu' => ?_) (fun _ => hrecord) hopen
  rw [List.mem_singleton.1 hu']
  exact Resolver.isOpen_ofName hf hu

theorem importForClass_behaves (hd : deeper.Behave w X) {origins : Origins} {f : NameFilter}
    {e : GroupEntry} {record : ConfigClass} {s : Run} (hf : f.Covers X)
    (horigins : AreOpened origins s) (he : ¬ X e.origin.name) :
    Behaved w X (Collecting.mk record) (importForClass w deeper origins f e) s := by
  refine .get (.ofExcept_bind (tame_scratchFor _ _ _) fun scratch hscratch hs => ?_)
  obtain ⟨hname, hopen⟩ := scratchFor_opened hs horigins hscratch
  rw [← hname] at he hopen
  have hentry := importEntry_behaves (e := e) (s := ⟨scratch, s⟩) hd hf he hopen hs
  have habsorbed {t : Collecting} (ht : Changes X ⟨scratch, s⟩ t) : Changes X ⟨record, s⟩
      ⟨record, { t.run with classes := t.run.classes.modify e.origin.name (·.absorb t.record) }⟩ :=
    .trans (.inside ht) (.absorbed (s := ⟨record, t.run⟩) (hname ▸ he))
  refine ends_bind.2 (ends_on.2 (hentry.imp (fun _ t ht => ?_) fun failure t ht => ?_))
  · exact ⟨habsorbed ht.1, trivial⟩
  · exact ⟨habsorbed ht.1, ht.2.mono fun _ h => h⟩

theorem importForRecord_behaves (hd : deeper.Behave w X) {origins : Origins} {f : NameFilter}
    {e : GroupEntry} {s : Collecting} (hf : f.Covers X) (horigins : AreOpened origins s.run)
    (he : ¬ X e.origin.name) (hopen : s.run.HasOpened s.record.name) :
    Behaved w X id (importForRecord w deeper origins f e) s := by
  refine .record ?_
  split
  · rename_i hname
    exact importEntry_behaves hd hf (by rw [hname]; exact he) hopen
  · exact .lift (importForClass_behaves hd hf horigins he)

theorem filter_covers {f : NameFilter} (hf : f.Covers X) (g : Grouping) :
    (g.filter f).Covers X := by
  rw [Grouping.filter]
  generalize g.members = ds
  induction ds generalizing f with
  | nil => exact hf
  | cons d ds ih => exact ih (hf.orElse? _)

/-- The selectors are grouped and asked on the side, and so only the entries matter. -/
theorem forEntries_behaves {σ : Type} [MonadLiftT RunM (EStateM Failure σ)] {into : σ → Collecting}
    (hlift : ∀ {α : Type} {act : RunM α} {s : σ}, Quiet act →
      Behaves w X into (liftM act : EStateM Failure σ α) s fun a _ => ∃ u v, act u = .ok a v)
    (hw : w.Bars X) {ds : List Deferred} (hds : ∀ d ∈ ds, ¬ X d.owner.name)
    {act : NameFilter → GroupEntry → EStateM Failure σ Unit} {s : σ}
    (hact : ∀ {f e t}, f.Covers X → ¬ X e.origin.name → Changes X (into s) (into t) →
      Behaved w X into (act f e) t) : Behaved w X into (forEntries w ds act) s := by
  refine (hlift (quiet_ofDeferred w ds)).bind fun gs s₁ h₁ ⟨_, _, hgs⟩ => ?_
  refine .forM fun g hg s₂ h₂ => (hlift (quiet_entries g)).bind fun es s₃ h₃ ⟨_, _, hes⟩ => ?_
  rw [g.entries_eq] at hes
  obtain ⟨rfl, -⟩ := EStateM.Result.ok.inj hes
  refine .forM fun e he t ht => ?_
  refine hact (filter_covers (fun _ => hw.excludes) g) ?_ (((h₁.trans h₂).trans h₃).trans ht)
  exact not_barred_chosen hw (isFrom_of_ofDeferred hgs g hg) hds e he

theorem resolveDeferred_behaves (hd : deeper.Behave w X) (hw : w.Bars X) {ds : List Deferred}
    {record : ConfigClass} {s : Run} (hds : ∀ d ∈ ds, ¬ X d.owner.name)
    (hopen : ∀ d ∈ ds, s.HasOpened d.owner.name) :
    Behaved w X (Collecting.mk record) (resolveDeferred w deeper ds) s := by
  refine forEntries_behaves (fun h => ?_) hw hds fun hf he ht => ?_
  · exact (Behaves.quiet h).result.imp fun _ _ _ hr => ⟨_, _, hr⟩
  refine importForClass_behaves hd hf (areOpened_ofDeferred fun d hd => ?_) he
  exact ht.hasOpened (hopen d hd)

/-- A deferred selector of the record waits, or its choices are imported on the spot. -/
theorem defer_behaves (hd : deeper.Behave w X) (hw : w.Bars X) {d : Deferred} {s : Collecting}
    (howner : d.owner = s.record.view) (hrecord : ¬ X s.record.name)
    (hopen : s.run.HasOpened s.record.name) : Behaved w X id (defer w deeper d) s := by
  have hname : d.owner.name = s.record.name := by
    rw [howner]
    rfl
  rw [← hname] at hrecord hopen
  refine .get ?_
  -- once the queue is closed, a deferred selector is resolved alone
  cases hqueue : s.run.queue with
  | some queue => exact .modify (.queued (s := s) hqueue hopen hrecord)
  | none =>
    have hds : ∀ d' ∈ [d], ¬ X d'.owner.name := by
      intro d' hd'
      rw [List.mem_singleton.1 hd']
      exact hrecord
    refine forEntries_behaves (fun h => ?_) hw hds fun {f e t} hf he ht => ?_
    · refine (Behaves.quietly h).result.imp fun _ _ _ hr => ?_
      obtain ⟨run, hrun, _⟩ := toRecordM_eq_ok.1 hr
      exact ⟨_, _, hrun⟩
    refine importForRecord_behaves hd hf (areOpened_ofDeferred fun d' hd' => ?_) he ?_
    · rw [List.mem_singleton.1 hd']
      exact ht.hasOpened hopen
    · have hsame : t.record.name = s.record.name := ht.name_eq
      rw [hsame, ← hname]
      exact ht.hasOpened hopen

/-! ### Candidates -/

theorem importSelected_behaves (hd : deeper.Behave w X) {current : View} {f : NameFilter}
    {typeName : String} {selector : Selector} {s : Collecting} (hf : f.Covers X)
    (hrecord : ¬ X s.record.name) (hopen : s.run.HasOpened s.record.name) :
    Behaved w X id (importSelected w deeper current f typeName selector) s := by
  refine .andThen (.quietly (quiet_emit _)) fun _ s₁ h₁ => ?_
  refine .ofExcept_bind (tame_mapM (fun _ => w.resolver.tame_ofName _ _) _) fun chosen hchosen => ?_
  have hname : s₁.record.name = s.record.name := h₁.name_eq
  have hdeeper : Behaved w X id (liftM (RunM.descend w typeName) : RecordM Unit) s₁ := by
    refine .lift fun _ => ends_descend.imp (fun _ t ht => ?_) fun e t ht => ?_
    · rw [ht]
      exact ⟨.aside (s := s₁) rfl rfl rfl rfl, trivial⟩
    · rw [ht.1]
      exact ⟨.refl _, .bare ht.2⟩
  refine .andThen hdeeper fun _ s₂ h₂ => .ensuring (fun t => ?_) ?_
  · exact .aside (s := t) rfl rfl rfl rfl
  · have hname₂ : s₂.record.name = s₁.record.name := h₂.name_eq
    refine hd.imports hf (fun u hu => ?_) (fun _ => ?_) ?_
    · obtain ⟨_, _, hu⟩ := exists_of_mem_mapM_eq_ok hchosen u hu
      exact Resolver.isOpen_ofName hf hu
    · rw [hname₂, hname]
      exact hrecord
    · exact (h₁.trans h₂).hasOpened_record hopen

/-- The filter comes back wider, so it still covers the barred names. -/
theorem importSelector_behaves (hd : deeper.Behave w X) (hw : w.Bars X) {current v : View}
    {f : NameFilter} {s : Collecting} (hf : f.Covers X) (hrecord : ¬ X s.record.name)
    (hopen : s.run.HasOpened s.record.name) :
    Behaves w X id (importSelector w deeper current f v) s fun f' _ => f'.Covers X := by
  refine .ofExcept_bind (w.resolver.tame_load v) fun type _ => ?_
  refine .andThen (.quietly (quiet_produce w type)) fun strategy s₁ h₁ => ?_
  have hname : s₁.record.name = s.record.name := h₁.name_eq
  have hopen₁ : s₁.run.HasOpened s₁.record.name := h₁.hasOpened_record hopen
  rw [← hname] at hrecord
  cases strategy with
  | selector selector =>
    refine .andThen (importSelected_behaves hd (hf.orElse? _) hrecord hopen₁) fun _ t _ => ?_
    exact .pure (hf.orElse? _)
  | deferredSelector selector =>
    refine .record (.andThen (defer_behaves hd hw rfl hrecord hopen₁) fun _ t _ => ?_)
    exact .pure (hf.orElse? _)
  | _ => exact fun _ => ends_lift.2 ⟨.refl _, .bare rfl⟩

theorem importRegistrar_behaves {current v : View} {s : Collecting} (hrecord : ¬ X s.record.name) :
    Behaved w X id (importRegistrar w current v) s := by
  refine .ofExcept_bind (w.resolver.tame_load v) fun type _ => ?_
  refine .andThen (.quietly (quiet_produceRegistrar w type)) fun registrar t ht => ?_
  have hname : t.record.name = s.record.name := ht.name_eq
  rw [← hname] at hrecord
  exact .modify (.gathered (s := t) hrecord rfl)

theorem importClass_behaves (hd : deeper.Behave w X) {current v : View} {f : NameFilter}
    {s : Collecting} (hf : f.Covers X) (hrecord : ¬ X s.record.name) (hv : ¬ X v.name) :
    Behaved w X id (importClass deeper current f v) s := by
  refine .andThen (.modify (.aside (s := s) rfl rfl rfl rfl)) fun _ t ht => .record (.lift ?_)
  have hname : t.record.name = s.record.name := ht.name_eq
  rw [← hname] at hrecord
  exact enterImported_behaves hd hf hrecord hv

theorem importEach_behaves (hd : deeper.Behave w X) (hw : w.Bars X) {current : View}
    {f : NameFilter} {us : List View} {s : Collecting} (hf : f.Covers X)
    (hus : ∀ u ∈ us, u.IsOpen X) (hrecord : ¬ X s.record.name)
    (hopen : s.run.HasOpened s.record.name) :
    Behaved w X id (importEach w deeper current f us) s := by
  induction us generalizing f s with
  | nil => exact .pure trivial
  | cons v vs ih =>
    have hvs : ∀ u ∈ vs, u.IsOpen X := fun u hu => hus u (List.mem_cons_of_mem _ hu)
    have hrest {f' : NameFilter} {t : Collecting} (hf' : f'.Covers X) (ht : Changes X s t) :
        Behaved w X id (importEach w deeper current f' vs) t := by
      refine ih hf' hvs ?_ (ht.hasOpened_record hopen)
      rw [ht.name_eq]
      exact hrecord
    rw [importEach]
    split
    · refine (importSelector_behaves hd hw hf hrecord hopen).bind fun f' t ht hf' => ?_
      exact hrest hf' ht
    · split
      · exact .andThen (importRegistrar_behaves hrecord) fun _ t ht => hrest hf ht
      · split
        · rename_i hobject
          have hv : ¬ X v.name := by
            rcases hus v List.mem_cons_self with rfl | hv
            · exact absurd hobject (by decide)
            · exact hv
          exact .andThen (importClass_behaves hd hf hrecord hv) fun _ t ht => hrest hf ht
        · exact hrest hf (.refl s)

theorem imports_behaves (hd : deeper.Behave w X) (hw : w.Bars X) {current : View}
    {us : List View} {f : NameFilter} {checksCycles : Bool} {s : Collecting} (hf : f.Covers X)
    (hus : ∀ u ∈ us, u.IsOpen X) (hrecord : us ≠ [] → ¬ X s.record.name)
    (hopen : s.run.HasOpened s.record.name) :
    Behaved w X id (imports w deeper current us f checksCycles) s := by
  rw [imports]
  split
  · exact .pure trivial
  · rename_i hne
    rw [List.isEmpty_iff] at hne
    refine .record (.get ?_)
    dsimp only
    split
    · exact .lift reportCircular_behaves
    · refine .andThen (.lift push_behaves) fun _ t ht => ?_
      have hname : t.record.name = s.record.name := ht.name_eq
      refine .within (ht.hasOpened hopen) _ (.ensuring (fun u => ?_) ?_)
      · exact .aside (s := u) rfl rfl rfl rfl
      · refine importEach_behaves hd hw hf hus ?_ (ht.hasOpened_record hopen)
        rw [hname]
        exact hrecord hne

end Step

/-! ## Calls -/

namespace Run

variable {w : World} {X : String → Prop}

/-- However deep they may go, the steps behave. -/
theorem behave_steps (hw : w.Bars X) (fuel : Nat) : (steps w fuel).Behave w X := by
  induction fuel with
  | zero =>
    constructor
    · intro c f record s _ _
      exact .throw rfl
    · intro v f s _ _ _
      exact .throw rfl
    · intro current us f checksCycles s _ _ _ _
      exact .throw rfl
  | succ fuel ih =>
    constructor
    · intro c f record s hf hc
      exact Step.enter_behaves ih hf hc
    · intro v f s hf hv hopen
      exact Step.climb_behaves ih hw hf hv hopen
    · intro current us f checksCycles s hf hus hrecord hopen
      exact Step.imports_behaves ih hw hf hus hrecord hopen

theorem resolveDeferred_behaves (hw : w.Bars X) (record : ConfigClass) {s : Run} :
    Behaved w X (Collecting.mk record) (resolveDeferred w) s := by
  intro hs
  refine Behaves.get ?_ hs
  cases hqueue : s.queue with
  | none => exact .pure trivial
  | some queue =>
    refine .andThen (.modify (.emptied (s := ⟨record, s⟩) (.inl rfl))) fun _ t ht => ?_
    refine .ensuring (fun u => .emptied (s := ⟨record, u⟩) (.inr rfl)) ?_
    have hqueued : ∀ d ∈ queue.mergeSort fun a b => a.order ≤ b.order,
        s.HasOpened d.owner.name ∧ ¬ X d.owner.name :=
      fun d hd => hs.queue queue hqueue d (List.mem_mergeSort.1 hd)
    refine Step.resolveDeferred_behaves (behave_steps hw _) hw (fun d hd => (hqueued d hd).2) ?_
    exact fun d hd => ht.hasOpened (hqueued d hd).1

end Run

/-- The failure of a seed that does not say which class it is for, or whose class fails. -/
inductive NamedDefinition.Fails (seed : NamedDefinition) : Failure → Prop
  | nameless : seed.definition.className = none → seed.Fails (.missingClassName seed.beanName)
  | parsing {name : String} {cause : Failure} : seed.definition.className = some name →
      cause.isBare = true → seed.Fails (.attributed .parsing name cause)

namespace Run

variable {w : World} {X : String → Prop}

theorem parseSeed_ends (hw : w.Bars X) {seed : NamedDefinition} (record : ConfigClass) {s : Run}
    (hs : s.Sane X) :
    Ends (parseSeed w seed s) (fun _ t => Changes X ⟨record, s⟩ ⟨record, t⟩) fun e t =>
      Changes X ⟨record, s⟩ ⟨record, t⟩ ∧
        (t.Attributes w e ∧ e.isBare = false ∨ seed.Fails e) := by
  rw [parseSeed]
  cases hname : seed.definition.className with
  | none => exact ⟨.refl _, .inr (.nameless hname)⟩
  | some name =>
    have hseed : Behaved w X (Collecting.mk record)
        (Step.parseDefinition w (stepsOf w) seed.definition seed.beanName) s :=
      Step.parseDefinition_behaves (behave_steps hw w.fuel) hw
    refine ends_onFailure.2 ((hseed hs).imp (fun _ t ht => ht.1) fun e t ht => ⟨ht.1, ?_⟩)
    cases ht.2 with
    | bare he =>
      rw [Failure.within_of_isBare he]
      exact .inr (.parsing hname he)
    | problem p hfast => exact .inl ⟨.problem p hfast, rfl⟩
    | attributed activity hcause hopened => exact .inl ⟨.attributed activity hcause hopened, rfl⟩

theorem parseSeeds_ends (hw : w.Bars X) (seeds : List NamedDefinition) (record : ConfigClass)
    {s : Run} (hs : s.Sane X) :
    Ends (parseSeeds w seeds s) (fun _ t => Changes X ⟨record, s⟩ ⟨record, t⟩) fun e t =>
      Changes X ⟨record, s⟩ ⟨record, t⟩ ∧
        (t.Attributes w e ∧ e.isBare = false ∨ ∃ seed ∈ seeds, seed.Fails e) := by
  refine ends_forM (fun seed hseed u hu => ?_) (.refl _)
  refine (parseSeed_ends hw record (hu.sane hs)).imp (fun _ t ht => hu.trans ht) ?_
  exact fun e t ht => ⟨hu.trans ht.1, ht.2.imp_right fun he => ⟨seed, hseed, he⟩⟩

/-- Whether it succeeds or fails, a call makes nothing but changes. -/
theorem Call.changes (hw : w.Bars X) (call : Call) (record : ConfigClass) {s : Run}
    (hs : s.Sane X) : Changes X ⟨record, s⟩ ⟨record, call.after w s⟩ := by
  have hsteps := behave_steps hw w.fuel
  have hfilter : w.resolver.filter.Covers X := fun _ => hw.excludes
  have hend {act : RunM Unit} (h : Behaved w X (Collecting.mk record) act s) :
      Changes X ⟨record, s⟩ ⟨record, finalState (act s)⟩ :=
    Ends.finalState (P := fun t => Changes X ⟨record, s⟩ ⟨record, t⟩)
      ((h hs).imp (fun _ _ ht => ht.1) fun _ _ ht => ht.1)
  cases call with
  | parse seeds =>
    refine Ends.finalState (P := fun t => Changes X ⟨record, s⟩ ⟨record, t⟩) ?_
    refine ends_bind.2 ((parseSeeds_ends hw seeds record hs).imp (fun _ u hu => ?_)
      fun _ _ hu => hu.1)
    exact (resolveDeferred_behaves hw record (hu.sane hs)).imp (fun _ _ ht => hu.trans ht.1)
      fun _ _ ht => hu.trans ht.1
  | className name beanName =>
    exact hend (.ofExcept_bind (w.resolver.tame_ofName _ _) fun v _ =>
      hsteps.enter hfilter fun _ => ConfigClass.isInert_explicit v _)
  | loaded type beanName =>
    exact hend (hsteps.enter hfilter fun _ => ConfigClass.isInert_explicit _ _)
  | info c beanName => exact hend (hsteps.enter hfilter fun _ => ConfigClass.isInert_explicit _ _)
  | deferred => exact hend (resolveDeferred_behaves hw record)

/-- The states that calls come to, one after the other, whether they succeed or fail, and those
between two seeds of a call. -/
inductive Reachable (w : World) : Run → Prop
  | fresh (environment : Environment) (registry : Registry) :
      Reachable w (fresh environment registry)
  | seed {s : Run} (seed : NamedDefinition) : Reachable w s →
      Reachable w (finalState (parseSeed w seed s))
  | after {s : Run} (call : Call) : Reachable w s → Reachable w (call.after w s)

/-- What changes keep of a sane run holds of every state. -/
theorem Reachable.induction {P : Run → Prop} {s : Run} (hw : w.Bars X) (h : Reachable w s)
    (fresh : ∀ environment registry, P (Run.fresh environment registry))
    (changes : ∀ {record : ConfigClass} {s t : Run}, P s → Changes X ⟨record, s⟩ ⟨record, t⟩ →
      P t) : s.Sane X ∧ P s := by
  have hnext {s t : Run} (hs : s.Sane X ∧ P s)
      (hst : Changes X ⟨.explicit .object none, s⟩ ⟨.explicit .object none, t⟩) :
      t.Sane X ∧ P t := ⟨hst.sane hs.1, changes hs.2 hst⟩
  induction h with
  | fresh environment registry => exact ⟨sane_fresh environment registry X, fresh _ _⟩
  | @seed s seed _ ih =>
    refine hnext ih (Ends.finalState (P := fun t => Changes X ⟨_, s⟩ ⟨_, t⟩) ?_)
    exact (parseSeed_ends hw _ ih.1).imp (fun _ _ ht => ht) fun _ _ ht => ht.1
  | after call _ ih => exact hnext ih (call.changes hw _ ih.1)

theorem Reachable.sane {s : Run} (hw : w.Bars X) (h : Reachable w s) : s.Sane X :=
  (h.induction (P := fun _ => True) hw (fun _ _ => trivial) fun _ _ => trivial).1

end Run
end Wiring
