import Wiring.Proofs.Moves

/-!
# What single steps come to

The results and the failures of the steps that do not lead into others, and of processing a
record.
-/

namespace Wiring
namespace Step

variable {w : World} {deeper : Steps}

/-! ## Entering -/

/-- A class that is never skipped leaves the run alone when it is asked. -/
theorem skips_of_neverSkips {c : ClassInfo} (hc : w.NeverSkips c) (phase : Phase) (s : Run) :
    RunM.skips w c phase s = .ok false s := by
  rw [RunM.skips]
  obtain hasks | ⟨hprofile, hconditional⟩ := hc
  · rw [hasks]
    rfl
  · split
    · rfl
    · rw [get_bind_apply, RunM.isOutsideProfiles, hprofile, hconditional]
      simp only [Bool.false_eq_true, if_false, List.flatMap_nil, List.mapM_nil, pure_bind,
        List.mergeSort_nil]
      rfl

theorem skips_eq_false {c : ClassInfo} {phase : Phase} {s t : Run} {b : Bool}
    (hc : w.NeverSkips c) (h : RunM.skips w c phase s = .ok b t) : b = false := by
  rw [skips_of_neverSkips hc] at h
  exact (EStateM.Result.ok.inj h).1.symm

theorem descend_eq_ok {className : String} {s t : Run} :
    RunM.descend w className s = .ok () t ↔
      s.depth < w.maxDepth ∧ RunM.deepen s = t := by
  rw [RunM.descend]
  constructor
  · intro h
    replace h := get_bind_eq.1 h
    split at h
    · obtain ⟨_, _, hs, _⟩ := bind_eq_ok.1 h
      exact absurd hs throw_ne_ok
    · rename_i hlt
      exact ⟨Nat.lt_of_not_le hlt, set_eq_ok.1 h⟩
  · rintro ⟨hlt, rfl⟩
    refine bind_eq_ok.2 ⟨s, s, rfl, ?_⟩
    rw [if_neg (Nat.not_le.2 hlt)]
    rfl

theorem descend_eq_error {className : String} {s t : Run} {e : Failure}
    (h : RunM.descend w className s = .error e t) : w.maxDepth ≤ s.depth ∧ s = t := by
  rw [RunM.descend] at h
  replace h := get_bind_eq.1 h
  split at h
  · rename_i hle
    rcases bind_eq_error.1 h with hthrow | ⟨_, _, hthrow, _⟩
    · exact ⟨hle, (throw_eq_error.1 hthrow).2⟩
    · exact absurd hthrow throw_ne_ok
  · cases h

theorem enroll_eq_ok {c : ConfigClass} {s t : Run} {b : Bool} (h : enroll c s = .ok b t) :
    (b = true ∧ s.Enrolls c t) ∨
      b = false ∧ c.isImported = true ∧ ∃ present, s.classes.get? c.name = some present ∧
        ((present.isImported = true ∧ t = s.commit (present.mergeImporters c)) ∨
          present.isImported = false ∧ t = s) := by
  replace h := get_bind_eq.1 h
  cases hget : s.classes.get? c.name with
  | none =>
    rw [hget] at h
    obtain ⟨rfl, rfl⟩ := pure_eq_ok.1 h
    refine .inl ⟨rfl, .inl ⟨?_, rfl⟩⟩
    rw [Run.Committed, OrderedMap.contains, hget]
    simp
  | some present =>
    rw [hget] at h
    dsimp only at h
    split at h
    · rename_i himp
      refine .inr ?_
      split at h
      · rename_i hp
        replace h := modify_bind_eq.1 h
        obtain ⟨rfl, rfl⟩ := pure_eq_ok.1 h
        exact ⟨rfl, himp, present, rfl, .inl ⟨hp, rfl⟩⟩
      · rename_i hp
        obtain ⟨rfl, rfl⟩ := pure_eq_ok.1 h
        exact ⟨rfl, himp, present, rfl, .inr ⟨by simpa using hp, rfl⟩⟩
    · rename_i himp
      replace h := modify_bind_eq.1 h
      obtain ⟨rfl, rfl⟩ := pure_eq_ok.1 h
      exact .inl ⟨rfl, .inr ⟨Run.committed_of_get? hget, by simpa using himp, rfl⟩⟩

theorem enroll_ne_error {c : ConfigClass} {s t : Run} {e : Failure} :
    enroll c s ≠ .error e t := by
  intro h
  replace h := get_bind_eq.1 h
  cases hget : s.classes.get? c.name with
  | none =>
    rw [hget] at h
    exact pure_ne_error h
  | some present =>
    rw [hget] at h
    dsimp only at h
    split at h
    · split at h
      · replace h := modify_bind_eq.1 h
        exact pure_ne_error h
      · exact pure_ne_error h
    · replace h := modify_bind_eq.1 h
      exact pure_ne_error h

theorem process_eq_ok {c record : ConfigClass} {f : NameFilter} {s t : Run}
    (h : process w deeper c f s = .ok record t) :
    s.depth < w.maxDepth ∧ ∃ u,
      deeper.climb (c.view.filtered f) f ⟨c, s.opening c⟩ = .ok () ⟨record, u⟩ ∧
      RunM.close u = t := by
  rw [process] at h
  obtain ⟨_, s₁, hs, h⟩ := bind_eq_ok.1 h
  obtain ⟨hdepth, rfl⟩ := descend_eq_ok.1 hs
  replace h := modify_bind_eq.1 h
  obtain ⟨⟨record', result⟩, s₃, hs, h⟩ := bind_eq_ok.1 h
  obtain ⟨u, hon, rfl⟩ := ensuring_eq_ok.1 hs
  obtain ⟨_, rfl, h⟩ := ofExcept_bind_eq_ok.1 h
  obtain ⟨rfl, rfl⟩ := pure_eq_ok.1 h
  exact ⟨hdepth, u, on_eq_ok_ok.1 hon, rfl⟩

/-- A record that cannot be processed was too deep, or its sources failed and its level was left. -/
theorem process_eq_error {c : ConfigClass} {f : NameFilter} {s t : Run} {e : Failure}
    (h : process w deeper c f s = .error e t) :
    (w.maxDepth ≤ s.depth ∧ s = t) ∨ s.depth < w.maxDepth ∧ ∃ record u,
      deeper.climb (c.view.filtered f) f ⟨c, s.opening c⟩ = .error e ⟨record, u⟩ ∧
      RunM.close u = t := by
  rw [process] at h
  obtain h | ⟨_, s₁, hs, h⟩ := bind_eq_error.1 h
  · exact .inl (descend_eq_error h)
  obtain ⟨hdepth, rfl⟩ := descend_eq_ok.1 hs
  replace h := modify_bind_eq.1 h
  obtain h | ⟨⟨record, result⟩, s₃, hs, h⟩ := bind_eq_error.1 h
  · obtain ⟨_, h, _⟩ := ensuring_eq_error.1 h
    exact absurd h on_ne_error
  obtain ⟨u, hon, rfl⟩ := ensuring_eq_ok.1 hs
  obtain ⟨rfl, rfl⟩ | ⟨_, _, h⟩ := ofExcept_bind_eq_error.1 h
  · exact .inr ⟨hdepth, record, u, on_eq_ok_error.1 hon, rfl⟩
  · exact absurd h pure_ne_error

/-! ### Entering as a whole -/

theorem enroll_of_enrolls {c : ConfigClass} {s t : Run} (h : s.Enrolls c t) :
    enroll c s = .ok true t := by
  rw [enroll, get_bind_apply]
  rcases h with ⟨habsent, rfl⟩ | ⟨hcommitted, hexplicit, rfl⟩
  · rw [Run.Committed, OrderedMap.contains, Bool.not_eq_true, Option.isSome_eq_false_iff,
      Option.isNone_iff_eq_none] at habsent
    rw [habsent]
    rfl
  · obtain ⟨present, hpresent⟩ := Option.isSome_iff_exists.1 hcommitted
    rw [show s.classes.get? c.name = some present from hpresent]
    dsimp only
    rw [hexplicit]
    rfl

theorem enroll_of_present {c present : ConfigClass} {s : Run} (himported : c.isImported = true)
    (hpresent : s.classes.get? c.name = some present) :
    enroll c s =
      .ok false (if present.isImported then s.commit (present.mergeImporters c) else s) := by
  rw [enroll, get_bind_apply, hpresent]
  dsimp only
  rw [himported]
  cases present.isImported <;> rfl

theorem process_of_climb {c record : ConfigClass} {f : NameFilter} {s u : Run}
    (hdepth : s.depth < w.maxDepth)
    (hclimb : deeper.climb (c.view.filtered f) f ⟨c, s.opening c⟩ = .ok () ⟨record, u⟩) :
    process w deeper c f s = .ok record (RunM.close u) := by
  rw [process]
  refine bind_eq_ok.2 ⟨(), _, descend_eq_ok.2 ⟨hdepth, rfl⟩, modify_bind_eq.2 ?_⟩
  refine bind_eq_ok.2 ⟨(record, .ok ()), _, ensuring_eq_ok.2 ⟨u, on_eq_ok_ok.2 hclimb, rfl⟩, ?_⟩
  exact ofExcept_bind_eq_ok.2 ⟨(), rfl, rfl⟩

/-- The ways in which a class is entered: it is skipped, or there is room for its record, which is
processed and committed, or its record is merged into the committed one or dropped. -/
theorem enter_eq_ok {c : ConfigClass} {f : NameFilter} {s t : Run}
    (h : enter w deeper c f s = .ok () t) :
    RunM.skips w c.info .parse s = .ok true t ∨
      ∃ run, RunM.skips w c.info .parse s = .ok false run ∧
        ((∃ room record u, run.Enrolls c room ∧ process w deeper c f room = .ok record u ∧
          u.commit record = t) ∨
        c.isImported = true ∧ ∃ present, run.classes.get? c.name = some present ∧
          ((present.isImported = true ∧ t = run.commit (present.mergeImporters c)) ∨
            present.isImported = false ∧ t = run)) := by
  obtain ⟨skip, run, hskip, h⟩ := bind_eq_ok.1 h
  cases skip with
  | true =>
    obtain ⟨_, rfl⟩ := pure_eq_ok.1 h
    exact .inl hskip
  | false =>
    refine .inr ⟨run, hskip, ?_⟩
    obtain ⟨enrolled, room, henroll, h⟩ := bind_eq_ok.1 h
    obtain ⟨rfl, hroom⟩ | ⟨rfl, himported, hpresent⟩ := enroll_eq_ok henroll
    · obtain ⟨record, u, hprocess, h⟩ := bind_eq_ok.1 h
      exact .inl ⟨room, record, u, hroom, hprocess, modify_eq_ok.1 h⟩
    · obtain ⟨_, rfl⟩ := pure_eq_ok.1 h
      exact .inr ⟨himported, hpresent⟩

/-- A class cannot be entered if its conditions fail, or if its record cannot be processed once
there is room for it. -/
theorem enter_eq_error {c : ConfigClass} {f : NameFilter} {s t : Run} {e : Failure}
    (h : enter w deeper c f s = .error e t) :
    RunM.skips w c.info .parse s = .error e t ∨
      ∃ run room, RunM.skips w c.info .parse s = .ok false run ∧ run.Enrolls c room ∧
        process w deeper c f room = .error e t := by
  obtain h | ⟨skip, run, hskip, h⟩ := bind_eq_error.1 h
  · exact .inl h
  cases skip with
  | true => exact absurd h pure_ne_error
  | false =>
    obtain h | ⟨enrolled, room, henroll, h⟩ := bind_eq_error.1 h
    · exact absurd h enroll_ne_error
    obtain ⟨rfl, hroom⟩ | ⟨rfl, _⟩ := enroll_eq_ok henroll
    · obtain h | ⟨_, _, _, h⟩ := bind_eq_error.1 h
      · exact .inr ⟨run, room, hskip, hroom, h⟩
      · exact absurd h modify_ne_error
    · exact absurd h pure_ne_error

/-- A class that is never skipped is entered in one of two ways: there is room for its record, which
is processed and committed, or its record is merged into the committed one. -/
theorem enter_eq_ok_iff {c : ConfigClass} (hc : w.NeverSkips c.info) {f : NameFilter} {s t : Run} :
    enter w deeper c f s = .ok () t ↔
      (∃ run record u, s.Enrolls c run ∧ run.depth < w.maxDepth ∧
        deeper.climb (c.view.filtered f) f ⟨c, run.opening c⟩ = .ok () ⟨record, u⟩ ∧
        (RunM.close u).commit record = t) ∨
      c.isImported = true ∧ ∃ present, s.classes.get? c.name = some present ∧
        (if present.isImported then s.commit (present.mergeImporters c) else s) = t := by
  constructor
  · intro h
    obtain hskip | ⟨_, hskip, h⟩ := enter_eq_ok h
    · cases skips_eq_false hc hskip
    rw [skips_of_neverSkips hc] at hskip
    obtain ⟨_, rfl⟩ := EStateM.Result.ok.inj hskip
    obtain ⟨room, record, _, hroom, hprocess, ht⟩ | ⟨himported, present, hpresent, hmerge⟩ := h
    · obtain ⟨hdepth, u, hclimb, rfl⟩ := process_eq_ok hprocess
      exact .inl ⟨room, record, u, hroom, hdepth, hclimb, ht⟩
    · refine .inr ⟨himported, present, hpresent, ?_⟩
      rcases hmerge with ⟨hp, rfl⟩ | ⟨hp, rfl⟩
      · rw [hp, if_pos rfl]
      · rw [hp, if_neg (by simp)]
  · intro h
    refine bind_eq_ok.2 ⟨false, s, skips_of_neverSkips hc _ _, ?_⟩
    rcases h with ⟨run, record, u, hroom, hdepth, hclimb, rfl⟩ | ⟨himported, present, hpresent, rfl⟩
    · refine bind_eq_ok.2 ⟨true, run, enroll_of_enrolls hroom, ?_⟩
      exact bind_eq_ok.2 ⟨record, _, process_of_climb hdepth hclimb, rfl⟩
    · exact bind_eq_ok.2 ⟨false, _, enroll_of_present himported hpresent, rfl⟩

/-! ## Reports -/

/-- A report is a failure in a fail-fast world. -/
theorem report_eq (w : World) (problem : Problem) (s : Run) :
    RunM.report w problem s =
      if w.isFailFast then .error (.problem problem) { s with problems := s.problems ++ [problem] }
      else .ok () { s with problems := s.problems ++ [problem] } := by
  refine modify_bind_eq.2 ?_
  split <;> rfl

theorem reportCircular_eq (w : World) (c : ClassInfo) (s : Run) :
    ∃ problem : Problem, problem.kind = .circularImport ∧ problem.className = some c.name ∧
      RunM.reportCircular w c s = RunM.report w problem s :=
  ⟨_, rfl, rfl, rfl⟩

theorem reportCircular_eq_ok {c : ClassInfo} {s t : Run}
    (h : RunM.reportCircular w c s = .ok () t) :
    ∃ problem : Problem, problem.kind = .circularImport ∧ problem.className = some c.name ∧
      { s with problems := s.problems ++ [problem] } = t := by
  obtain ⟨problem, hkind, hname, hreport⟩ := reportCircular_eq w c s
  rw [hreport, report_eq] at h
  split at h
  · cases h
  · exact ⟨problem, hkind, hname, (EStateM.Result.ok.inj h).2⟩

/-! ## Imports -/

/-- Candidates are imported with the record's class on the stack, unless there are none, or the
class is noticed, which is reported instead. -/
theorem imports_eq_ok {current : View} {us : List View} {f : NameFilter} {checksCycles : Bool}
    {s t : Collecting} (h : imports w deeper current us f checksCycles s = .ok () t) :
    us = [] ∧ s = t ∨
      (ImportStack.isCircular s.run.stack s.run.importers s.record.name = true ∧
        ∃ problem : Problem, problem.kind = .circularImport ∧
          problem.className = some s.record.name ∧
          { s with run := { s.run with problems := s.run.problems ++ [problem] } } = t) ∨
      (checksCycles && ImportStack.isCircular s.run.stack s.run.importers s.record.name) = false ∧
        ∃ u, importEach w deeper current f us
            { s with run := { s.run with stack := s.record.info :: s.run.stack } } = .ok () u ∧
          { u with run := RunM.pop u.run } = t := by
  rw [imports] at h
  split at h
  · rename_i hempty
    obtain ⟨_, rfl⟩ := pure_eq_ok.1 h
    exact .inl ⟨List.isEmpty_iff.1 hempty, rfl⟩
  · replace h := record_bind_eq.1 h
    replace h := get_bind_eq.1 h
    split at h
    · rename_i hcircular
      obtain ⟨run, hrun, rfl⟩ := toRecordM_eq_ok.1 h
      obtain ⟨problem, hkind, hname, rfl⟩ := reportCircular_eq_ok hrun
      rw [Bool.and_eq_true] at hcircular
      exact .inr (.inl ⟨hcircular.2, problem, hkind, hname, rfl⟩)
    · rename_i hcircular
      obtain ⟨_, s₁, hs, h⟩ := bind_eq_ok.1 h
      obtain ⟨run, hrun, rfl⟩ := toRecordM_eq_ok.1 hs
      obtain rfl := modify_eq_ok.1 hrun
      obtain ⟨u, hu, rfl⟩ := ensuring_eq_ok.1 (onFailure_eq_ok.1 h)
      exact .inr (.inr ⟨by simpa using hcircular, u, hu, rfl⟩)

/-! ## Sources -/

theorem mem_memberCandidates {r : Resolver} {v m : View} {name : String} :
    m ∈ memberCandidates r v name ↔
      m ∈ r.members v ∧ r.isCandidate m.info = true ∧ m.name ≠ name := by
  rw [memberCandidates, List.mem_mergeSort, List.mem_filter]
  simp

theorem memberCandidates_of_no_members {r : Resolver} {v : View} (h : v.info.memberClasses = [])
    (name : String) : memberCandidates r v name = [] := by
  rw [memberCandidates, Resolver.members, h]
  exact List.mergeSort_nil

/-- Resources go to the record, besides its bean methods. -/
theorem addResources_eq_ok {c : ClassInfo} {s t : Collecting}
    (h : addResources w c s = .ok () t) :
    ∃ record, s.record.SameCore record ∧ { s with record } = t := by
  rw [addResources] at h
  cases htag : w.resolver.findTag? c WellKnown.importResource with
  | none =>
    rw [htag] at h
    obtain ⟨_, rfl⟩ := pure_eq_ok.1 h
    exact ⟨s.record, .refl _, rfl⟩
  | some tag =>
    rw [htag] at h
    refine forM_induction (R := fun s t : Collecting =>
      ∃ record, s.record.SameCore record ∧ { s with record } = t)
      (fun s => ⟨s.record, .refl _, rfl⟩) ?_ (fun _ _ s t h => ?_) h
    · rintro s _ _ ⟨record, hst, rfl⟩ ⟨record', htu, rfl⟩
      exact ⟨record', hst.trans htu, rfl⟩
    · replace h := get_bind_eq.1 h
      obtain ⟨resolved, _, h⟩ := ofExcept_bind_eq_ok.1 h
      obtain rfl := modify_eq_ok.1 h
      exact ⟨s.record.addResource resolved (tag.classRef? "reader"), ⟨rfl, rfl, rfl, rfl, rfl⟩, rfl⟩

theorem collectMethods_eq_ok {v : View} {s t : Collecting} (h : collectMethods w v s = .ok () t) :
    ∃ ms, w.resolver.allMethods v = .ok ms ∧ { s with record := s.record.gained v ms } = t := by
  replace h := record_bind_eq.1 h
  obtain ⟨gained, hgained, h⟩ := ofExcept_bind_eq_ok.1 h
  obtain ⟨ms, hms, rfl⟩ := Resolver.addAllMethods_eq_ok.1 hgained
  obtain rfl := modify_eq_ok.1 h
  refine ⟨ms, hms, ?_⟩
  rw [ConfigClass.gained, ConfigClass.addMethods_eq]

theorem takeSuperclass_eq_ok {v : View} {next : Option View} {s t : Collecting}
    (h : takeSuperclass w v s = .ok next t) :
    (next = none ∧ s = t) ∨
      ∃ name u, v.info.superClass = some name ∧ w.resolver.isPlatform name = false ∧
        s.run.superclassOwners.contains name = false ∧ w.resolver.superClass v = .ok (some u) ∧
        next = some u ∧
        { s with run := { s.run with
          superclassOwners := s.run.superclassOwners.insert name s.record.name } } = t := by
  rw [takeSuperclass] at h
  cases hname : v.info.superClass with
  | none =>
    rw [hname] at h
    obtain ⟨rfl, rfl⟩ := pure_eq_ok.1 h
    exact .inl ⟨rfl, rfl⟩
  | some name =>
    rw [hname] at h
    replace h := get_bind_eq.1 h
    split at h
    · obtain ⟨rfl, rfl⟩ := pure_eq_ok.1 h
      exact .inl ⟨rfl, rfl⟩
    · rename_i hclaim
      rw [Bool.not_eq_true, Bool.or_eq_false_iff] at hclaim
      replace h := record_bind_eq.1 h
      replace h := modify_bind_eq.1 h
      obtain ⟨hnext, rfl⟩ := ofExcept_eq_ok.1 h
      have hsome : ∃ u, next = some u := by
        rw [Resolver.superClass, hname] at hnext
        obtain ⟨u, _, hu⟩ := exceptMap_eq_ok.1 hnext
        exact ⟨u, hu.symm⟩
      obtain ⟨u, rfl⟩ := hsome
      exact .inr ⟨name, u, rfl, hclaim.1, hclaim.2, hnext, rfl, rfl⟩

end Step
end Wiring
