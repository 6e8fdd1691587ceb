import Wiring.Proofs.Behaviour

/-!
# What a failed call leaves committed

A call that fails keeps what it has done so far, and takes back nothing.  What was committed before
stays committed, with one exception.  An explicit registration first withdraws the class, so if it
fails on its way, the class is gone, and with it every class around it whose own registration that
failure ends.
-/

namespace Wiring

/-- The failure without the class that it has been attributed to. -/
def Failure.cause : Failure → Failure
  | .attributed _ _ cause => cause
  | e => e

theorem Failure.cause_within (activity : Activity) (className : String) (e : Failure) :
    (e.within activity className).cause = e.cause := by
  cases e <;> rfl

namespace Run

variable {w : World} {s s' t t' u : Run} {e e' : Failure} {name : String}

/-- Between `s` and `t` a failure goes on outwards: levels are left, and committed classes take what
has been collected for them. -/
structure Unwinds (s t : Run) : Prop where
  environment : t.environment = s.environment
  registry : t.registry = s.registry
  events : t.events = s.events
  superclassOwners : t.superclassOwners = s.superclassOwners
  addedSources : t.addedSources = s.addedSources
  importers : t.importers = s.importers
  problems : t.problems = s.problems
  committed : ∀ name, t.Committed name ↔ s.Committed name
  history : ∃ levels, t.history = List.replicate levels .closed ++ s.history

theorem Unwinds.refl (s : Run) : s.Unwinds s :=
  ⟨rfl, rfl, rfl, rfl, rfl, rfl, rfl, fun _ => .rfl, 0, rfl⟩

theorem Unwinds.trans (h : s.Unwinds t) (h' : t.Unwinds u) : s.Unwinds u where
  environment := h'.environment.trans h.environment
  registry := h'.registry.trans h.registry
  events := h'.events.trans h.events
  superclassOwners := h'.superclassOwners.trans h.superclassOwners
  addedSources := h'.addedSources.trans h.addedSources
  importers := h'.importers.trans h.importers
  problems := h'.problems.trans h.problems
  committed name := (h'.committed name).trans (h.committed name)
  history := by
    obtain ⟨inner, hinner⟩ := h.history
    obtain ⟨outer, houter⟩ := h'.history
    refine ⟨outer + inner, ?_⟩
    rw [houter, hinner, ← List.append_assoc, List.replicate_append_replicate]

theorem Unwinds.suffix (h : s.Unwinds t) : s.history <:+ t.history := by
  obtain ⟨levels, hlevels⟩ := h.history
  exact ⟨_, hlevels.symm⟩

/-- Between `s` and `t` the class is registered explicitly while it is committed.  That fails with
the class withdrawn, and all that comes after is that the failure goes on outwards. -/
def FailsToRegister (w : World) (name : String) (s : Run) (e : Failure) (t : Run) : Prop :=
  ∃ (fuel : Nat) (c : ConfigClass) (f : NameFilter) (before after : Run) (inner : Failure),
    c.name = name ∧ c.isImported = false ∧ s.history <:+ before.history ∧ before.Committed name ∧
      (steps w fuel).enter c f before = .error inner after ∧ ¬ after.Committed name ∧
      after.Unwinds t ∧ e.cause = inner.cause

theorem FailsToRegister.mono (h : FailsToRegister w name s e t) (hs : s'.history <:+ s.history)
    (ht : t.Unwinds t') (he : e'.cause = e.cause) : FailsToRegister w name s' e' t' := by
  obtain ⟨fuel, c, f, before, after, inner, hname, hexplicit, hbefore, hcommitted, henter, hlost,
    hafter, hcause⟩ := h
  exact ⟨fuel, c, f, before, after, inner, hname, hexplicit, hs.trans hbefore, hcommitted, henter,
    hlost, hafter.trans ht, he.trans hcause⟩

/-- What is committed stays committed, unless a failure keeps it from being registered again. -/
def survival (w : World) : Law Run where
  ok s t := (∀ name, s.Committed name → t.Committed name) ∧ s.history <:+ t.history
  error s e t := ∀ name, s.Committed name → t.Committed name ∨ FailsToRegister w name s e t

theorem survival_of_eq (hclasses : t.classes = s.classes) (hhistory : t.history = s.history) :
    (survival w).ok s t := by
  refine ⟨fun name h => ?_, hhistory ▸ List.suffix_rfl⟩
  rw [Committed, hclasses]
  exact h

theorem survival_of_sameCourse (h : s.SameCourse t) : (survival w).ok s t :=
  survival_of_eq h.classes h.history

/-- A part of a run that commits and withdraws nothing. -/
theorem survival_quiet {α : Type} {act : RunM α} (h : Quiet act) : Obeys (survival w) act where
  ok hs := survival_of_sameCourse (h.ok hs)
  error hs name hname := .inl ((survival_of_sameCourse (w := w) (h.error hs).1).1 name hname)

/-- What is around a part of a run only changes what does not matter, and unwinds. -/
theorem survival_brackets {after : Run → Run} (hclasses : u.classes = s.classes)
    (hhistory : s.history <:+ u.history) (hafter : ∀ t : Run, t.Unwinds (after t)) :
    (survival w).Brackets s u after where
  ok {t} ht := by
    refine ⟨fun name hname => ?_, hhistory.trans (ht.2.trans (hafter t).suffix)⟩
    rw [Committed, ← hclasses] at hname
    exact ((hafter t).committed name).2 (ht.1 name hname)
  error {e t} ht name hname := by
    rw [Committed, ← hclasses] at hname
    rcases ht name hname with hname | hfails
    · exact .inl (((hafter t).committed name).2 hname)
    · exact .inr (hfails.mono hhistory (hafter t) rfl)

theorem unwinds_close (t : Run) : t.Unwinds (RunM.close t) :=
  ⟨rfl, rfl, rfl, rfl, rfl, rfl, rfl, fun _ => .rfl, 1, rfl⟩

theorem conduct_survival (w : World) : Conduct w (survival w) where
  refl _ := survival_of_eq rfl rfl
  trans hst htu := ⟨fun name hname => htu.1 name (hst.1 name hname), hst.2.trans htu.2⟩
  fail _ _ _ hname := .inl hname
  fail_after hst htu name hname :=
    (htu name (hst.1 name hname)).imp_right fun h => h.mono hst.2 (.refl _) rfl
  within activity className hst name hname :=
    (hst name hname).imp_right fun h => h.mono List.suffix_rfl (.refl _)
      (Failure.cause_within activity className _)
  aside _ _ _ _ _ _ hclasses hhistory := survival_of_eq hclasses hhistory
  importing _ _ _ := ⟨fun _ hname => hname, List.suffix_cons _ _⟩
  produce t _ := survival_quiet (quiet_produce w t)
  addSource x := survival_quiet (quiet_addSource x)
  pop _ _ := survival_brackets rfl List.suffix_rfl fun _ =>
    ⟨rfl, rfl, rfl, rfl, rfl, rfl, rfl, fun _ => .rfl, 0, rfl⟩
  ascend _ := survival_brackets rfl List.suffix_rfl fun _ =>
    ⟨rfl, rfl, rfl, rfl, rfl, rfl, rfl, fun _ => .rfl, 0, rfl⟩
  reopen _ := survival_brackets rfl List.suffix_rfl fun _ =>
    ⟨rfl, rfl, rfl, rfl, rfl, rfl, rfl, fun _ => .rfl, 0, rfl⟩
  absorb _ _ _ := survival_brackets rfl List.suffix_rfl fun _ =>
    ⟨rfl, rfl, rfl, rfl, rfl, rfl, rfl, fun _ => committed_modify, 0, rfl⟩

/-! ## Entering a class -/

theorem Enrolls.history {c : ConfigClass} (h : s.Enrolls c t) : t.history = s.history := by
  obtain ⟨_, rfl⟩ | ⟨_, _, rfl⟩ := h <;> rfl

/-- The level of a class that is processed. -/
theorem survival_opening (w : World) (s : Run) (c : ConfigClass) :
    (survival w).Brackets s (s.opening c) RunM.close :=
  survival_brackets rfl (List.suffix_cons _ _) unwinds_close

end Run

namespace Step

variable {w : World} {deeper : Steps}

open Run

theorem process_survives (hd : deeper.Obey w (survival w)) (c : ConfigClass) (f : NameFilter) :
    Obeys (survival w) (process w deeper c f) where
  ok {s t record} h := by
    obtain ⟨_, u, hclimb, rfl⟩ := process_eq_ok h
    exact (survival_opening w s c).ok ((hd.climb _ _).ok hclimb).1
  error {s t e} h := by
    obtain ⟨_, rfl⟩ | ⟨_, record, u, hclimb, rfl⟩ := process_eq_error h
    · exact (conduct_survival w).fail _ _
    · exact (survival_opening w s c).error ((hd.climb _ _).error hclimb)

theorem process_name (hd : deeper.Obey w (survival w)) {c record : ConfigClass} {f : NameFilter}
    {s t : Run} (h : process w deeper c f s = .ok record t) : record.name = c.name := by
  obtain ⟨_, u, hclimb, _⟩ := process_eq_ok h
  exact congrArg View.name ((hd.climb _ _).ok hclimb).2

/-- A record that has been enrolled is committed in the end, so that no class is lost. -/
theorem commit_processed_survives (hd : deeper.Obey w (survival w)) {c record : ConfigClass}
    {f : NameFilter} {s t u : Run} (hroom : s.Enrolls c t)
    (h : process w deeper c f t = .ok record u) : (survival w).ok s (u.commit record) := by
  have hprocess := (process_survives hd c f).ok h
  refine ⟨fun name hname => committed_commit.2 ?_, hroom.history ▸ hprocess.2⟩
  rw [process_name hd h]
  by_cases hsame : name = c.name
  · exact .inl hsame
  · exact .inr (hprocess.1 name ((hroom.committed hsame).2 hname))

theorem enter_survives {fuel : Nat} (hd : (steps w fuel).Obey w (survival w)) (c : ConfigClass)
    (f : NameFilter) : Obeys (survival w) (enter w (steps w fuel) c f) where
  ok {s t _} h := by
    have hskips {b : Bool} {u : Run} (h : RunM.skips w c.info .parse s = .ok b u) :
        (survival w).ok s u := survival_of_sameCourse ((quiet_skips w _ _).ok h)
    obtain hskip | ⟨s₁, hskip, h⟩ := enter_eq_ok h
    · exact hskips hskip
    refine (conduct_survival w).trans (hskips hskip) ?_
    obtain ⟨s₂, record, u, hroom, hprocess, rfl⟩ | ⟨_, present, _, hmerge⟩ := h
    · exact commit_processed_survives hd hroom hprocess
    · obtain ⟨_, rfl⟩ | ⟨_, rfl⟩ := hmerge
      · exact ⟨fun name hname => committed_commit.2 (.inr hname), List.suffix_rfl⟩
      · exact (conduct_survival w).refl _
  error {s t e} henter := by
    intro name hname
    obtain hskip | ⟨s₁, s₂, hskip, hroom, hprocess⟩ := enter_eq_error henter
    · exact (survival_quiet (quiet_skips w _ _)).error hskip name hname
    have hs := survival_of_sameCourse (w := w) ((quiet_skips w _ _).ok hskip)
    have hname₁ := hs.1 name hname
    by_cases hsame : name = c.name
    · -- the class itself had to make room, so it was explicit
      subst hsame
      obtain ⟨hnone, _⟩ | ⟨_, hexplicit, _⟩ := hroom
      · exact absurd hname₁ hnone
      by_cases hkept : t.Committed c.name
      · exact .inl hkept
      · exact .inr ⟨fuel + 1, c, f, s, t, e, rfl, hexplicit, List.suffix_rfl, hname, henter, hkept,
          .refl t, rfl⟩
    · have hkept := (process_survives hd c f).error hprocess name ((hroom.committed hsame).2 hname₁)
      exact hkept.imp_right fun h => h.mono (hroom.history ▸ hs.2) (.refl t) rfl

end Step

namespace Run

theorem fullConduct_survival (w : World) : FullConduct w (survival w) where
  toConduct := conduct_survival w
  enter _ hd := Step.enter_survives hd

/-- A call that fails leaves every class committed that was, except for one that it was registering
explicitly when it failed. -/
theorem Call.committed_or_failsToRegister {w : World} {call : Call} {s t : Run} {e : Failure}
    (h : call.run w s = .error e t) {name : String} (hname : s.Committed name) :
    t.Committed name ∨ FailsToRegister w name s e t :=
  (call.obeys (fullConduct_survival w)).error h name hname

end Run

/-- Two classes, which seeds register. -/
def overridden : World where
  resolver := { reader := { index := ⟨[{ name := "app.A" }, { name := "app.B" }]⟩ } }

def overridden.registered : Run :=
  (Run.Call.parse (seedsOf ["app.A", "app.B"])).after overridden (Run.fresh {} {})

/-- The first class with other metadata, which import a class that is not there. -/
def overridden.replacement : Run.Call :=
  .info { name := "app.A", tags := [.importing ["app.Missing"]] } "a"

set_option maxRecDepth 100000 in
theorem overridden.committed_registered :
    overridden.registered.Committed "app.A" ∧ overridden.registered.Committed "app.B" := by
  rw [Run.Committed, Run.Committed]
  decide +kernel

set_option maxRecDepth 100000 in
/-- The replacement fails after the class has made room for it. -/
theorem overridden.exists_error : ∃ e t,
    overridden.replacement.run overridden overridden.registered = .error e t ∧
      ¬ t.Committed "app.A" ∧ t.Committed "app.B" := by
  have hcheck : failsWith (fun t : Run => !t.classes.contains "app.A" && t.classes.contains "app.B")
      (overridden.replacement.run overridden overridden.registered) = true := by
    decide +kernel
  obtain ⟨e, t, hrun, ht⟩ := exists_of_failsWith hcheck
  exact ⟨e, t, hrun, by simpa [Run.Committed] using ht⟩

/-- The class that was to be replaced is lost, and the other one is kept. -/
theorem committed_or_failsToRegister_overridden :
    overridden.registered.Committed "app.A" ∧ overridden.registered.Committed "app.B" ∧ ∃ e t,
      overridden.replacement.run overridden overridden.registered = .error e t ∧
        ¬ t.Committed "app.A" ∧
        Run.FailsToRegister overridden "app.A" overridden.registered e t ∧
        t.Committed "app.B" := by
  obtain ⟨hA, hB⟩ := overridden.committed_registered
  obtain ⟨e, t, hrun, hlost, hkept⟩ := overridden.exists_error
  have hfails := (Run.Call.committed_or_failsToRegister hrun hA).resolve_left hlost
  exact ⟨hA, hB, e, t, hrun, hlost, hfails, hkept⟩

/-- So a failing call may lose a class. -/
theorem not_forall_committed_of_error :
    ¬ ∀ (w : World) (s t : Run) (call : Run.Call) (e : Failure) (name : String),
      Run.Reachable w s → call.run w s = .error e t → s.Committed name → t.Committed name := by
  intro h
  obtain ⟨e, t, hrun, hlost, -⟩ := overridden.exists_error
  have hreachable : Run.Reachable overridden overridden.registered := .after _ (.fresh {} {})
  exact hlost (h _ _ t _ e "app.A" hreachable hrun overridden.committed_registered.1)

end Wiring
