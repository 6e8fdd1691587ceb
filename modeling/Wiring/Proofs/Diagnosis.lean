import Wiring.Proofs.Circles
import Wiring.Proofs.Contributions
import Wiring.Proofs.Moments

/-!
# Diagnosing circular imports

The frames of a moment say how the run came to it: who imported whom, and from which source.  The
register of imports is kept under the names of the sources and only its latest entries are
followed.  So the chain of latest importers of a class follows the frames as far as each class names
itself what it imports, and has not been committed meanwhile.  If it gets to the class again, that
is reported and the imports are left alone; beyond that point a circle may go unnoticed.
-/

namespace Wiring

/-! ## Worlds of plain imports -/

/-- From the classes a run comes to others only by plain imports and superclasses. -/
structure World.ImportsPlainly (w : World) (cs : List ClassInfo) : Prop extends w.IsDirect cs where
  infos : w.resolver.infos ⊆ cs
  noScans : ∀ c ∈ cs,
    w.resolver.repeatable c WellKnown.componentScan WellKnown.componentScans = []
  noMembers : ∀ c ∈ cs, c.memberClasses = []

theorem Resolver.isPlain_of_looksPlain {r : Resolver} {v : View} (h : r.looksPlain v = true) :
    r.IsPlain v := by
  rw [looksPlain, Bool.and_eq_true, Bool.and_eq_true] at h
  exact ⟨by simpa using h.1.1, by simpa using h.1.2, by simpa using h.2⟩

namespace World.ImportsPlainly

variable {w : World} {cs : List ClassInfo}

theorem of_all (hr : w.resolver.Coherent) (hinfos : w.resolver.infos ⊆ cs)
    (h : (cs.all fun c => w.resolver.looksDirect c && c.memberClasses.isEmpty &&
      (w.resolver.repeatable c WellKnown.componentScan WellKnown.componentScans).isEmpty) = true) :
    w.ImportsPlainly cs := by
  simp only [List.all_eq_true, Bool.and_eq_true, List.isEmpty_iff] at h
  have hdirect : w.IsDirect cs :=
    isDirect_of_looksDirect hr (List.all_eq_true.2 fun c hc => (h c hc).1.1)
  exact ⟨hdirect, hinfos, fun c hc => (h c hc).2, fun c hc => (h c hc).1.2⟩

theorem admits (hw : w.ImportsPlainly cs) : w.Admits (.over cs) :=
  admits_over hw.infos fun hc hdeclared _ _ _ => absurd (hw.noScans _ hc) hdeclared

theorem neverSkips_of_enters (hw : w.ImportsPlainly cs) (v : View)
    (hv : (Scope.over cs).Enters v) : w.NeverSkips v.info := by
  rcases hv with hv | hbare
  · exact hw.neverSkips _ hv
  · rw [hbare]
    exact .inr ⟨rfl, rfl⟩

theorem memberClasses_eq_nil (hw : w.ImportsPlainly cs) {c : ClassInfo} {v : View}
    (hv : (Scope.over cs).Reads c v) : v.info.memberClasses = [] := by
  rcases hv with hbare | ⟨hv, _⟩
  · rw [hbare]
  · exact hw.noMembers _ hv

theorem repeatable_eq_nil (hw : w.ImportsPlainly cs) {c : ClassInfo} {v : View}
    (hv : (Scope.over cs).Reads c v) :
    w.resolver.repeatable v.info WellKnown.componentScan WellKnown.componentScans = [] := by
  rcases hv with hbare | ⟨hv, _⟩
  · exact Resolver.repeatable_of_untagged (by rw [hbare]) _ _
  · exact hw.noScans _ hv

/-- Nothing but property sources comes before the imports of a source. -/
theorem beforeImports_eq_ok (hw : w.ImportsPlainly cs) {deeper : Steps} {v : View} {f : NameFilter}
    {s t : Collecting} (hv : (Scope.over cs).Reads s.record.info v)
    (h : Step.beforeImports w deeper v f s = .ok () t) :
    t.record = s.record ∧ s.run.SameCourse t.run := by
  obtain ⟨_, s₁, hmembers, h⟩ := bind_eq_ok.1 h
  obtain ⟨_, s₂, hsources, hscans⟩ := bind_eq_ok.1 h
  have hnone : s₁ = s := by
    replace hmembers := record_bind_eq.1 hmembers
    rw [Step.memberCandidates_of_no_members (hw.memberClasses_eq_nil hv)] at hmembers
    split at hmembers
    · exact (pure_eq_ok.1 hmembers).2.symm
    · exact (pure_eq_ok.1 hmembers).2.symm
  obtain ⟨run, hrun, rfl⟩ := toRecordM_eq_ok.1 hsources
  obtain ⟨run', hrun', rfl⟩ := toRecordM_eq_ok.1 hscans
  rw [Step.enterAllScanned, hw.repeatable_eq_nil hv] at hrun'
  obtain ⟨_, rfl⟩ := pure_eq_ok.1 hrun'
  rw [hnone] at hrun ⊢
  exact ⟨rfl, (quiet_addDeclaredSources w v.info).ok hrun⟩

end World.ImportsPlainly

/-! ## What the register keeps of the frames -/

namespace Frame

def name (fr : Frame) : String := fr.holder.name

/-- The class imports what it names itself, and it has not been committed. -/
structure IsLive (fr : Frame) (s : Run) : Prop where
  own : fr.IsOwn
  pending : ¬ s.Committed fr.name

theorem IsLive.mono {fr : Frame} {s t : Run} (h : fr.IsLive t)
    (hcommitted : ∀ name, s.Committed name → t.Committed name) : fr.IsLive s :=
  ⟨h.own, fun hs => h.pending (hcommitted _ hs)⟩

end Frame

/-- The stack holds the frames, and the latest importers of the class follow them as far as they
are live, and one frame further.  A class that has been committed may have other importers by then,
unless it is found in that frame: then it is noticed, and nothing is imported for it. -/
structure Run.Traces (s : Run) (name : String) (frames : List Frame) : Prop where
  stack : s.stack = frames.map (·.holder)
  linked : ∀ {above below : List Frame} {fr : Frame}, frames = above ++ fr :: below →
    (∀ x ∈ above, x.IsLive s) → fr.IsOwn → name ∉ above.map Frame.name →
    ¬ s.Committed name ∨ fr.name = name →
    (above.map Frame.name).Nodup ∧ s.importers.Linked name (above.map Frame.name ++ [fr.name])

namespace Run.Traces

variable {s t : Run} {name : String} {frames : List Frame}

theorem nil (h : s.stack = []) (name : String) : s.Traces name [] where
  stack := h
  linked hframes := by
    cases List.append_ne_nil_of_right_ne_nil _ (List.cons_ne_nil _ _) hframes.symm

/-- A class that is found in the frames again, behind none but live ones, is noticed. -/
theorem isCircular (h : s.Traces name frames) {above below : List Frame} {fr : Frame}
    (hframes : frames = above ++ fr :: below) (hlive : ∀ x ∈ above, x.IsLive s)
    (hown : fr.IsOwn) (hname : fr.name = name) :
    ImportStack.isCircular s.stack s.importers name = true := by
  by_cases hfirst : name ∈ above.map Frame.name
  · -- the latest importers lead to the first frame of the name
    obtain ⟨x, hx, hname'⟩ := List.mem_map.1 hfirst
    obtain ⟨before, after, habove⟩ := List.append_of_mem hx
    have hbefore : ∀ y ∈ before, y.IsLive s := fun y hy =>
      hlive y (habove ▸ List.mem_append_left _ hy)
    have hframes' : frames = before ++ x :: (after ++ fr :: below) := by
      rw [hframes, habove, List.append_assoc]
      rfl
    exact isCircular h hframes' hbefore (hlive x hx).own hname'
  · obtain ⟨-, hlinked⟩ := h.linked hframes hlive hown hfirst (.inr hname)
    rw [hname] at hlinked
    have hchained := Importers.isChained_of_linked hlinked List.mem_concat_self
    have hholds : ImportStack.holds s.stack name = true := by
      rw [ImportStack.holds, h.stack, hframes, List.any_eq_true]
      exact ⟨fr.holder, List.mem_map_of_mem (by simp), beq_iff_eq.2 hname⟩
    rw [ImportStack.isCircular, hholds, hchained]
    rfl
termination_by above.length
decreasing_by
  rw [habove, List.length_append, List.length_cons]
  omega

/-- What does not touch the register keeps the trace. -/
theorem congr (h : s.Traces name frames) (hstack : t.stack = s.stack)
    (hcommitted : ∀ y, s.Committed y → t.Committed y) (himporters : t.importers = s.importers) :
    t.Traces name frames where
  stack := hstack.trans h.stack
  linked hframes hlive hown hfresh hends := by
    rw [himporters]
    exact h.linked hframes (fun x hx => (hlive x hx).mono hcommitted) hown hfresh
      (hends.imp_left fun hpending hs => hpending (hcommitted _ hs))

theorem sameCourse (h : s.Traces name frames) (hst : s.SameCourse t) : t.Traces name frames := by
  refine h.congr hst.stack (fun y hy => ?_) hst.importers
  rw [Committed, hst.classes]
  exact hy

/-- What may be imported meanwhile is committed afterwards, so the trace is kept by what follows
if the class is not noticed. -/
theorem later (h : s.Traces name frames)
    (hcircular : ImportStack.isCircular s.stack s.importers name = false)
    (hstack : t.stack = s.stack) (hcommitted : ∀ y, s.Committed y → t.Committed y)
    (hlatest : ∀ y, ¬ t.Committed y → t.importers.latest? y = s.importers.latest? y) :
    t.Traces name frames where
  stack := hstack.trans h.stack
  linked {above below fr} hframes hlive hown hfresh hends := by
    have hlive' : ∀ x ∈ above, x.IsLive s := fun x hx => (hlive x hx).mono hcommitted
    -- a class that is found in the frame would have been noticed
    have hpending : ¬ t.Committed name := by
      refine hends.resolve_right fun hname => ?_
      rw [h.isCircular hframes hlive' hown hname] at hcircular
      cases hcircular
    obtain ⟨hnodup, hlinked⟩ := h.linked hframes hlive' hown hfresh
      (.inl fun hs => hpending (hcommitted _ hs))
    refine ⟨hnodup, hlinked.congr_snoc (hlatest _ hpending) fun y hy => ?_⟩
    obtain ⟨x, hx, rfl⟩ := List.mem_map.1 hy
    exact hlatest _ (hlive x hx).pending

/-- A class that is not noticed and goes on the stack leaves a trace of what it imports. -/
theorem entered {holder source : ClassInfo} {next : String} (h : s.Traces holder.name frames)
    (hcircular : ImportStack.isCircular s.stack s.importers holder.name = false)
    (hstack : t.stack = holder :: s.stack) (hcommitted : ∀ y, s.Committed y → t.Committed y)
    (hnext : t.importers.latest? next = some source)
    (hlatest : ∀ y, y ≠ next → ¬ t.Committed y →
      t.importers.latest? y = s.importers.latest? y) :
    t.Traces next (⟨holder, source⟩ :: frames) where
  stack := by
    rw [hstack, h.stack]
    rfl
  linked {above below fr} hframes hlive hown hfresh _ := by
    rcases List.cons_eq_append_iff.1 hframes with ⟨rfl, heq⟩ | ⟨above, rfl, hrest⟩
    · obtain ⟨rfl, _⟩ := List.cons.inj heq
      exact ⟨List.nodup_nil, ⟨source, hnext, hown⟩, trivial⟩
    · obtain ⟨htop, hlive⟩ := List.forall_mem_cons.1 hlive
      rw [List.map_cons, List.mem_cons, not_or] at hfresh
      have hlive' : ∀ x ∈ above, x.IsLive s := fun x hx => (hlive x hx).mono hcommitted
      -- nor is the class on top found below it
      have hholder : holder.name ∉ above.map Frame.name := by
        intro hmem
        obtain ⟨x, hx, hname⟩ := List.mem_map.1 hmem
        obtain ⟨before, after, rfl⟩ := List.append_of_mem hx
        rw [List.append_assoc] at hrest
        rw [h.isCircular hrest (fun y hy => hlive' y (List.mem_append_left _ hy))
          (hlive' x hx).own hname] at hcircular
        cases hcircular
      obtain ⟨hnodup, hlinked⟩ := h.linked hrest hlive' hown hholder
        (.inl (htop.mono hcommitted).pending)
      refine ⟨List.nodup_cons.2 ⟨hholder, hnodup⟩, ⟨source, hnext, htop.own⟩, ?_⟩
      refine hlinked.congr_snoc (hlatest _ (Ne.symm hfresh.1) htop.pending) fun y hy => ?_
      obtain ⟨x, hx, rfl⟩ := List.mem_map.1 hy
      exact hlatest _ (fun heq => hfresh.2 (heq ▸ hy)) (hlive x hx).pending

end Run.Traces

/-! ## Parts of processing a source -/

namespace Step

variable {w : World} {deeper : Steps}

/-- After its imports only what is collected from a source still changes. -/
theorem processSource_eq_ok {v : View} {f : NameFilter} {next : Option View} {s t : Collecting}
    (h : processSource w deeper v f s = .ok next t) :
    ∃ us s₁ s₂ record, beforeImports w deeper v f s = .ok () s₁ ∧
      w.resolver.imports v = .ok us ∧ deeper.imports v us f true s₁ = .ok () s₂ ∧
      record.view = s₂.record.view ∧ takeSuperclass w v { s₂ with record } = .ok next t := by
  obtain ⟨_, s₁, hmembers, h⟩ := bind_eq_ok.1 h
  obtain ⟨_, s₂, hsources, h⟩ := bind_eq_ok.1 h
  obtain ⟨_, s₃, hscans, h⟩ := bind_eq_ok.1 h
  obtain ⟨_, s₄, himports, h⟩ := bind_eq_ok.1 h
  obtain ⟨_, s₅, hresources, h⟩ := bind_eq_ok.1 h
  obtain ⟨_, s₆, hmethods, h⟩ := bind_eq_ok.1 h
  obtain ⟨us, hus, himports⟩ := ofExcept_bind_eq_ok.1 himports
  obtain ⟨record, hcore, rfl⟩ := addResources_eq_ok hresources
  obtain ⟨ms, _, rfl⟩ := collectMethods_eq_ok hmethods
  have hgained : (record.gained v ms).view = record.view := by
    rw [ConfigClass.gained, ConfigClass.addMethods_eq]
  refine ⟨us, s₃, s₄, record.gained v ms, ?_, hus, himports, hgained.trans hcore.view, h⟩
  exact bind_eq_ok.2 ⟨(), s₁, hmembers, bind_eq_ok.2 ⟨(), s₂, hsources, hscans⟩⟩

end Step

/-! ## What holds of the moments -/

/-- The moment is of the classes alone, and the run has a trace of how it came to it. -/
def Moment.Holds (w : World) (cs : List ClassInfo) : Moment → Prop
  | .enter frames c f s => (Scope.over cs).Enters c.view ∧ f = w.resolver.filter ∧
      (c.isImported = true ∨ frames = []) ∧ s.Traces c.name frames
  | .climb frames v f s => (Scope.over cs).Reads s.record.info v ∧ f = w.resolver.filter ∧
      s.run.Traces s.record.name frames
  | .imports frames current us f s => (Scope.over cs).Reads s.record.info current ∧
      w.resolver.imports current = .ok us ∧ f = w.resolver.filter ∧
      s.run.Traces s.record.name frames

namespace World.ImportsPlainly

variable {w : World} {cs : List ClassInfo} {fuel : Nat} {frames : List Frame} {f : NameFilter}
  {m : Moment}

theorem holds_next_enter (hw : w.ImportsPlainly cs) {c : ConfigClass} {s : Run} {deeper : Steps}
    (h : (Moment.enter frames c f s).Holds w cs)
    (hm : m ∈ (Moment.enter frames c f s).next w deeper) : m.Holds w cs := by
  obtain ⟨hview, rfl, himported, htraces⟩ := h
  rw [Moment.next] at hm
  split at hm
  · rename_i s₁ hskip
    split at hm
    · rename_i s₂ henroll
      split at hm
      · obtain rfl := List.mem_singleton.1 hm
        refine ⟨hw.admits.own hview fun _ => rfl, rfl, ?_⟩
        have htraces₁ := htraces.sameCourse ((quiet_skips w _ _).ok hskip)
        rcases Step.enroll_eq_ok henroll with ⟨_, ⟨_, rfl⟩ | ⟨_, hexplicit, rfl⟩⟩ | ⟨hfalse, _⟩
        · exact htraces₁.congr rfl (fun _ hy => hy) rfl
        · rw [hexplicit] at himported
          obtain rfl := himported.resolve_left Bool.false_ne_true
          exact .nil (s := (s₁.withdraw c.name).opening c) htraces₁.stack _
        · cases hfalse
      · cases hm
    · cases hm
  · cases hm

/-- The trace is kept by all that is imported for a source. -/
theorem traces_imports (hw : w.ImportsPlainly cs) {v : View} {us : List View} {s t : Collecting}
    (hread : (Scope.over cs).Reads s.record.info v) (hus : w.resolver.imports v = .ok us)
    (htraces : s.run.Traces s.record.name frames)
    (h : (Run.steps w (fuel + 1)).imports v us w.resolver.filter true s = .ok () t) :
    t.record.view = s.record.view ∧ t.run.Traces s.record.name frames := by
  have hmoves : Moves w (.over cs) .source s t :=
    ((Run.sound_steps hw.admits (fuel + 1)).imports (by simp) (hw.admits.imports hread hus)
      (fun u hu => .inr ⟨v, us, hread, rfl, hus, hu⟩) (fun _ => rfl) h).1
  have hcontinues := hmoves.continues
  refine ⟨hcontinues.view, ?_⟩
  rcases Step.imports_eq_ok h with ⟨_, rfl⟩ | ⟨_, problem, _, _, rfl⟩ | ⟨hcircular, _⟩
  · exact htraces
  · exact htraces.congr rfl (fun _ hy => hy) rfl
  · exact htraces.later hcircular hcontinues.stack hcontinues.committed
      fun y hy => hmoves.keepsLatest hw.neverSkips_of_enters hy

theorem holds_next_climb (hw : w.ImportsPlainly cs) {v : View} {s : Collecting}
    (h : (Moment.climb frames v f s).Holds w cs)
    (hm : m ∈ (Moment.climb frames v f s).next w (Run.steps w (fuel + 1))) : m.Holds w cs := by
  obtain ⟨hread, rfl, htraces⟩ := h
  rw [Moment.next] at hm
  rcases List.mem_append.1 hm with hm | hm
  · split at hm
    · rename_i s₁ us hbefore hus
      obtain rfl := List.mem_singleton.1 hm
      obtain ⟨hrecord, hcourse⟩ := hw.beforeImports_eq_ok hread hbefore
      refine ⟨?_, hus, rfl, ?_⟩
      · rw [hrecord]
        exact hread
      · rw [hrecord]
        exact htraces.sameCourse hcourse
    · cases hm
  · split at hm
    · rename_i superclass t hprocess
      obtain rfl := List.mem_singleton.1 hm
      obtain ⟨us, s₁, s₂, record, hbefore, hus, himports, hview, htake⟩ :=
        Step.processSource_eq_ok hprocess
      obtain ⟨hrecord, hcourse⟩ := hw.beforeImports_eq_ok hread hbefore
      obtain ⟨hview₂, htraces₂⟩ := hw.traces_imports (by rw [hrecord]; exact hread) hus
        (by rw [hrecord]; exact htraces.sameCourse hcourse) himports
      rw [hrecord] at hview₂ htraces₂
      rcases Step.takeSuperclass_eq_ok htake with
        ⟨hnone, _⟩ | ⟨name, next, hname, hplatform, _, hnext, heq, rfl⟩
      · cases hnone
      · obtain rfl := Option.some.inj heq
        have hview' : record.view = s.record.view := hview.trans hview₂
        refine ⟨?_, rfl, ?_⟩
        · rw [show record.info = s.record.info from congrArg View.info hview']
          exact hw.admits.superClass hread hname hplatform hnext
        · rw [show record.name = s.record.name from congrArg View.name hview']
          exact htraces₂.congr rfl (fun _ hy => hy) rfl
    · cases hm

theorem holds_next_imports (hw : w.ImportsPlainly cs) {current : View} {us : List View}
    {s : Collecting} (h : (Moment.imports frames current us f s).Holds w cs)
    (hm : m ∈ (Moment.imports frames current us f s).next w (Run.steps w (fuel + 1))) :
    m.Holds w cs := by
  obtain ⟨hread, hus, rfl, htraces⟩ := h
  rw [Moment.next] at hm
  split at hm
  · cases hm
  · rename_i hcircular
    rw [Bool.not_eq_true] at hcircular
    obtain ⟨⟨before, u⟩, hsplit, hnext⟩ := List.mem_flatMap.1 hm
    obtain ⟨after, rfl⟩ := mem_splits.1 hsplit
    dsimp only at hnext
    split at hnext
    · cases hnext
    · rename_i hplain
      split at hnext
      · rename_i t himport
        obtain rfl := List.mem_singleton.1 hnext
        have hbefore : ∀ x ∈ before, x ∈ before ++ u :: after := fun x hx =>
          List.mem_append_left _ hx
        have henters := hw.admits.imports hread hus
        have hmoves : Moves w (.over cs) .candidates
            { s with run := { s.run with stack := s.record.info :: s.run.stack } } t :=
          (Step.importEach_moves (Run.sound_steps hw.admits (fuel + 1)) hw.admits
            (fun x hx => henters x (hbefore x hx))
            (by exact fun x hx => .inr ⟨current, _, hread, rfl, hus, hbefore x hx⟩)
            (fun _ => rfl) himport).1
        have hcontinues := hmoves.continues
        have hplain : w.resolver.IsPlain u := by
          rw [Bool.or_eq_true, not_or] at hplain
          exact Resolver.isPlain_of_looksPlain (by simpa using hplain.2)
        refine ⟨henters u (List.mem_append_right _ List.mem_cons_self) hplain, rfl, .inl rfl, ?_⟩
        rw [show t.record.info = s.record.info from hcontinues.info]
        refine htraces.entered (t := t.importing current u) hcircular hcontinues.stack
          hcontinues.committed (Importers.latest?_register_self _ _ _) fun y hy hpending => ?_
        exact (Importers.latest?_register_of_ne _ _ (Ne.symm hy)).trans
          (hmoves.keepsLatest hw.neverSkips_of_enters hpending)
      · cases hnext

end World.ImportsPlainly

theorem Run.Reachable.stack_eq_nil {w : World} {s : Run} (h : Reachable w s) : s.stack = [] := by
  have hw := conduct_restored w
  induction h with
  | fresh environment registry => rfl
  | seed seed _ ih => exact ((obeys_parseSeed hw seed).finalState _).stack.trans ih
  | after call _ ih => exact (call.restores.finalState _).stack.trans ih

/-- Runs from the seeds are of their classes alone, and leave a trace of how they came to where they
are. -/
theorem Comes.holds {w : World} {seeds : List NamedDefinition} {n : Nat} {m : Moment}
    (hw : w.ImportsPlainly (w.infosFrom seeds)) (h : Comes w seeds n m) :
    m.Holds w (w.infosFrom seeds) := by
  induction h with
  | begins _ hs hseed hv =>
    exact ⟨.inl (World.mem_infosFrom hseed hv), rfl, .inr rfl, .nil hs.stack_eq_nil _⟩
  | @next n m m' _ hm ih =>
    cases m with
    | enter frames c f s => exact hw.holds_next_enter ih hm
    | climb frames v f s => exact hw.holds_next_climb ih hm
    | imports frames current us f s => exact hw.holds_next_imports ih hm

/-! ## Circular imports -/

/-- The problem is reported, and nothing else is done. -/
def Collecting.reporting (s : Collecting) (problem : Problem) : Collecting :=
  { s with run := { s.run with problems := s.run.problems ++ [problem] } }

/-- A circular import is reported for the class instead of following its imports. -/
def Step.Diagnoses (w : World) (s : Collecting) (r : EStateM.Result Failure Collecting Unit) :
    Prop :=
  ∃ problem : Problem, problem.kind = .circularImport ∧
    problem.className = some s.record.name ∧
    r = if w.isFailFast then .error (.problem problem) (s.reporting problem)
      else .ok () (s.reporting problem)

/-- A class that is noticed is diagnosed if it imports anything. -/
theorem Step.diagnoses_imports {w : World} {deeper : Steps} {current : View} {us : List View}
    {f : NameFilter} {s : Collecting} (hus : us ≠ [])
    (h : ImportStack.isCircular s.run.stack s.run.importers s.record.name = true) :
    Step.Diagnoses w s (Step.imports w deeper current us f true s) := by
  have himports : Step.imports w deeper current us f true s =
      RunM.toRecordM (RunM.reportCircular w s.record.info) s := by
    rw [Step.imports, if_neg (by simpa using hus)]
    refine record_bind_eq.2 (get_bind_eq.2 ?_)
    rw [h]
    rfl
  obtain ⟨problem, hkind, hname, hreport⟩ := Step.reportCircular_eq w s.record.info s.run
  refine ⟨problem, hkind, hname, ?_⟩
  rw [himports, RunM.toRecordM, hreport, Step.report_eq]
  cases w.isFailFast <;> rfl

/-- In a world of plain imports, a class that is found on the stack again and imports anything is
diagnosed, if each class from there on imports the next one itself and none of them has been
committed meanwhile. -/
theorem Comes.diagnoses_circle {w : World} {seeds : List NamedDefinition} {n : Nat}
    {frames above below : List Frame} {fr : Frame} {current : View} {us : List View}
    {f : NameFilter} {s : Collecting} (hw : w.ImportsPlainly (w.infosFrom seeds))
    (h : Comes w seeds n (.imports frames current us f s)) (hus : us ≠ [])
    (hframes : frames = above ++ fr :: below) (hlive : ∀ x ∈ above, x.IsLive s.run)
    (hown : fr.IsOwn) (hname : fr.name = s.record.name) :
    s.run.stack = frames.map (·.holder) ∧
      Step.Diagnoses w s (Step.imports w (Run.steps w n) current us f true s) := by
  obtain ⟨_, _, _, htraces⟩ := h.holds hw
  exact ⟨htraces.stack,
    Step.diagnoses_imports hus (htraces.isCircular hframes hlive hown hname)⟩

/-- The moments that the first seed comes to in `k` steps, in a run that begins with it. -/
def World.momentsAfter (w : World) (k : Nat) (seeds : List NamedDefinition) : List Moment :=
  match seeds.head? with
  | some seed =>
    match w.resolver.ofDefinition seed.definition seed.beanName with
    | .ok v => (Moment.enter [] (.explicit v (some seed.beanName)) w.resolver.filter
        (Run.fresh {} {})).after w k (w.fuel - 1)
    | .error _ => []
  | none => []

theorem comes_of_mem_momentsAfter {w : World} {k : Nat} {seeds : List NamedDefinition} {m : Moment}
    (hfuel : w.fuel ≠ 0) (hm : m ∈ w.momentsAfter k seeds) :
    Comes w seeds (w.fuel - 1 - k) m := by
  rw [World.momentsAfter] at hm
  split at hm
  · rename_i seed hseed
    split at hm
    · rename_i v hv
      refine Comes.after (.begins (by omega) (.fresh {} {}) (List.mem_of_mem_head? hseed) hv) hm
    · cases hm
  · cases hm

/-- A class and its superclass import other classes, and one of these imports the class. -/
def inheriting (own inherited : String) : World where
  resolver := { reader := { index := ⟨[
    { name := "app.A", superClass := some "app.S", tags := [.importing [own]] },
    { name := "app.S", tags := [.importing [inherited]] },
    { name := "app.B", tags := [.importing ["app.A"]] },
    { name := "app.X" }]⟩ } }

theorem importsPlainly_inheriting (own inherited : String)
    (h : ((inheriting own inherited).infosFrom (seedsOf ["app.A"])).all (fun c =>
      (inheriting own inherited).resolver.looksDirect c && c.memberClasses.isEmpty &&
        ((inheriting own inherited).resolver.repeatable c WellKnown.componentScan
          WellKnown.componentScans).isEmpty) = true) :
    (inheriting own inherited).ImportsPlainly
      ((inheriting own inherited).infosFrom (seedsOf ["app.A"])) :=
  .of_all (Resolver.coherent_of_no_types rfl) (List.subset_append_right _ _) h

/-- The moment is one of importing for a class that is found in the frames again, behind none but
live ones. -/
def Moment.closesCircle : Moment → Bool
  | .imports frames _ us _ s => !us.isEmpty && (splits frames).any fun (above, fr) =>
      fr.name == s.record.name && fr.source.name == fr.holder.name &&
        above.all fun x => x.source.name == x.holder.name && !s.run.classes.contains x.name
  | _ => false

set_option maxRecDepth 100000 in
/-- The class imports the other one itself, and is diagnosed when that one imports it. -/
theorem Comes.diagnoses_circle_inheriting :
    ∃ n frames current us f s,
      Comes (inheriting "app.B" "app.X") (seedsOf ["app.A"]) n (.imports frames current us f s) ∧
        us ≠ [] ∧ (∃ above fr below, frames = above ++ fr :: below ∧
          (∀ x ∈ above, x.IsLive s.run) ∧ fr.IsOwn ∧ fr.name = s.record.name) ∧
        s.run.stack = frames.map (·.holder) ∧
        Step.Diagnoses (inheriting "app.B" "app.X") s
          (Step.imports (inheriting "app.B" "app.X")
            (Run.steps (inheriting "app.B" "app.X") n) current us f true s) := by
  have hw := importsPlainly_inheriting "app.B" "app.X" (by decide +kernel)
  have hcheck : ((inheriting "app.B" "app.X").momentsAfter 8 (seedsOf ["app.A"])).any
      Moment.closesCircle = true := by
    decide +kernel
  obtain ⟨m, hm, hcloses⟩ := List.any_eq_true.1 hcheck
  have hcomes := comes_of_mem_momentsAfter (by decide) hm
  cases m with
  | imports frames current us f s =>
    rw [Moment.closesCircle, Bool.and_eq_true, List.any_eq_true] at hcloses
    obtain ⟨hus, ⟨above, fr⟩, hsplit, hfr⟩ := hcloses
    obtain ⟨below, hframes⟩ := mem_splits.1 hsplit
    simp only [Bool.and_eq_true, beq_iff_eq, List.all_eq_true, Bool.not_eq_true'] at hfr
    obtain ⟨⟨hname, hown⟩, hall⟩ := hfr
    have hlive : ∀ x ∈ above, x.IsLive s.run := fun x hx =>
      ⟨(hall x hx).1, by rw [Run.Committed, (hall x hx).2]; simp⟩
    have hus' : us ≠ [] := by simpa using hus
    obtain ⟨hstack, hdiagnoses⟩ :=
      Comes.diagnoses_circle hw hcomes hus' hframes hlive hown hname
    exact ⟨_, frames, current, us, f, s, hcomes, hus',
      ⟨above, fr, below, hframes, hlive, hown, hname⟩, hstack, hdiagnoses⟩
  | _ => cases hcloses

/-- The moment is one of importing for a class that was imported and is on the stack, and nothing is
reported. -/
def Moment.goesUnnoticed (w : World) (n : Nat) : Moment → Bool
  | .imports _ current us f s => s.record.isImported &&
      ImportStack.holds s.run.stack s.record.name && !us.isEmpty &&
      succeedsWith (fun t : Collecting => t.run.problems.isEmpty)
        (Step.imports w (Run.steps w n) current us f true s)
  | _ => false

set_option maxRecDepth 100000 in
/-- An imported class that is on the stack may go undiagnosed: here it imports the other one by its
superclass, under whose name the register keeps the import. -/
theorem not_forall_diagnoses_circle :
    ¬ ∀ (w : World) (seeds : List NamedDefinition) (n : Nat) (frames : List Frame) (current : View)
      (us : List View) (f : NameFilter) (s : Collecting), w.ImportsPlainly (w.infosFrom seeds) →
      Comes w seeds n (.imports frames current us f s) → s.record.isImported = true →
      ImportStack.holds s.run.stack s.record.name = true → us ≠ [] →
      Step.Diagnoses w s (Step.imports w (Run.steps w n) current us f true s) := by
  intro hall
  have hw := importsPlainly_inheriting "app.X" "app.B" (by decide +kernel)
  have hcheck : ((inheriting "app.X" "app.B").momentsAfter 9 (seedsOf ["app.A"])).any
      (Moment.goesUnnoticed (inheriting "app.X" "app.B") 999990) = true := by
    decide +kernel
  obtain ⟨m, hm, hunnoticed⟩ := List.any_eq_true.1 hcheck
  have hcomes := comes_of_mem_momentsAfter (by decide) hm
  cases m with
  | imports frames current us f s =>
    rw [Moment.goesUnnoticed, Bool.and_eq_true, Bool.and_eq_true, Bool.and_eq_true] at hunnoticed
    obtain ⟨⟨⟨himported, hholds⟩, hus⟩, hruns⟩ := hunnoticed
    obtain ⟨t, hrun, hnone⟩ := exists_of_succeedsWith hruns
    obtain ⟨problem, _, _, hreported⟩ :=
      hall _ _ 999990 frames current us f s hw hcomes himported hholds (by simpa using hus)
    rw [hrun] at hreported
    obtain ⟨_, rfl⟩ := EStateM.Result.ok.inj hreported
    rw [Collecting.reporting, List.isEmpty_iff] at hnone
    exact List.append_ne_nil_of_right_ne_nil _ (List.cons_ne_nil _ _) hnone
  | _ => cases hunnoticed

end Wiring
