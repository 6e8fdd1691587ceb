import Wiring.Proofs.Behaviour

/-!
# What a failed call says

A failure should say which configuration class it arose in, and say so once.  While the seeds are
parsed every failure does.  Of the failures after that, when deferred selectors are resolved, two
kinds get out without a class: a group that cannot be produced, and an entry from a class that
nobody knows.
-/

namespace Wiring

/-- The failure is a reported problem that ends the run, or the lack of a class name of a seed, or
it is attributed to a class that is a seed or has been opened, and its cause is neither attributed
nor a problem. -/
inductive Run.Explains (w : World) (seeds : List NamedDefinition) (t : Run) : Failure → Prop
  | problem (p : Problem) : w.isFailFast = true → Explains w seeds t (.problem p)
  | nameless {seed : NamedDefinition} : seed ∈ seeds → seed.definition.className = none →
      Explains w seeds t (.missingClassName seed.beanName)
  | attributed (activity : Activity) {name : String} {cause : Failure} : cause.isBare = true →
      (t.HasOpened name ∨ ∃ seed ∈ seeds, seed.definition.className = some name) →
      Explains w seeds t (.attributed activity name cause)

/-- The failure lacks a group that one of the selectors declares, or the class of an entry, which
is neither committed nor an importer of one of the selectors. -/
inductive Failure.IsStray (ds : List Deferred) (t : Run) : Failure → Prop
  | group {e : Failure} {d : Deferred} {type : String} : d ∈ ds → d.selector.group = some type →
      e.IsWithoutGroup type → e.IsStray ds t
  | origin {name : String} : ¬ t.Committed name → (∀ d ∈ ds, d.owner.name ≠ name) →
      IsStray ds t (.unknownOrigin name)

section

variable {w : World} {seeds : List NamedDefinition} {s t : Run} {e : Failure}

theorem Run.Attributes.explains (h : t.Attributes w e) (he : e.isBare = false) :
    t.Explains w seeds e := by
  cases h with
  | bare h => cases he.symm.trans h
  | problem p hfast => exact .problem p hfast
  | attributed activity hcause hopened => exact .attributed activity hcause (.inl hopened)

theorem NamedDefinition.Fails.explains {seed : NamedDefinition} (h : seed.Fails e)
    (hseed : seed ∈ seeds) : t.Explains w seeds e := by
  cases h with
  | nameless hname => exact .nameless hseed hname
  | parsing hname hcause => exact .attributed _ hcause (.inr ⟨seed, hseed, hname⟩)

/-- What is explained is no stray failure. -/
theorem Run.Explains.not_isStray (h : t.Explains w seeds e) {ds : List Deferred} {u : Run} :
    ¬ e.IsStray ds u := by
  intro hstray
  cases h with
  | problem _ _ =>
    cases hstray with
    | group _ _ hgroup => cases hgroup
  | nameless _ _ =>
    cases hstray with
    | group _ _ hgroup => cases hgroup
  | attributed _ _ _ =>
    cases hstray with
    | group _ _ hgroup => cases hgroup

end

namespace Step

variable {w : World} {deeper : Steps}

theorem contains_ofDeferred {ds : List Deferred} {d : Deferred} (hd : d ∈ ds) :
    (Origins.ofDeferred ds).contains d.owner.name = true := by
  rw [OrderedMap.contains_iff, Origins.ofDeferred,
    ← List.foldl_map (g := fun (m : OrderedMap String View) e => m.insertIfNew e.1 e.2)
      (f := fun d : Deferred => (d.owner.name, d.owner)), OrderedMap.mem_keys_foldl_insertIfNew]
  exact .inr (List.mem_map.2 ⟨_, List.mem_map.2 ⟨d, hd, rfl⟩, rfl⟩)

theorem scratchFor_eq_error {s : Run} {origins : Origins} {name : String} {e : Failure}
    (h : scratchFor s origins name = .error e) :
    e = .unknownOrigin name ∧ ¬ s.Committed name ∧ origins.contains name = false := by
  rw [scratchFor] at h
  split at h
  · cases h
  · cases h
  · rename_i hclass horigin
    rw [Run.Committed, OrderedMap.contains, OrderedMap.contains, hclass, horigin]
    exact ⟨(Except.error.inj h).symm, by simp, rfl⟩

/-- An entry fails without a class only because its class is unknown. -/
theorem importForClass_eq_bare {origins : Origins} {f : NameFilter} {entry : GroupEntry}
    {s t : Run} {e : Failure} (he : e.isBare = true)
    (h : importForClass w deeper origins f entry s = .error e t) :
    e = .unknownOrigin entry.origin.name ∧ ¬ t.Committed entry.origin.name ∧
      origins.contains entry.origin.name = false := by
  replace h := get_bind_eq.1 h
  rcases ofExcept_bind_eq_error.1 h with ⟨hscratch, rfl⟩ | ⟨scratch, _, h⟩
  · exact scratchFor_eq_error hscratch
  rcases bind_eq_error.1 h with h | ⟨⟨scratch', result⟩, u, hu, h⟩
  · exact absurd h on_ne_error
  replace h := modify_bind_eq.1 h
  obtain ⟨rfl, _⟩ := ofExcept_eq_error.1 h
  have hentry := record_bind_eq.1 (on_eq_ok_error.1 hu)
  obtain ⟨cause, _, rfl⟩ := onFailure_eq_error.1 hentry
  rw [Failure.isBare_within] at he
  cases he

theorem resolveDeferred_eq_bare {ds : List Deferred} {s t : Run} {e : Failure}
    (he : e.isBare = true) (h : resolveDeferred w deeper ds s = .error e t) : e.IsStray ds t := by
  rcases bind_eq_error.1 h with h | ⟨gs, u, _, h⟩
  · obtain ⟨d, hd, type, htype, hgroup⟩ := ofDeferred_eq_error h
    exact .group hd htype hgroup
  obtain ⟨g, _, v, _, h⟩ := forM_eq_error (R := fun _ _ => True) (fun _ => trivial)
    (fun _ _ => trivial) (fun _ _ _ _ _ => trivial) h
  rcases bind_eq_error.1 h with h | ⟨entries, v', _, h⟩
  · have hentries : g.entries v = .error e t := h
    rw [g.entries_eq] at hentries
    cases hentries
  obtain ⟨entry, _, x, _, h⟩ := forM_eq_error (R := fun _ _ => True) (fun _ => trivial)
    (fun _ _ => trivial) (fun _ _ _ _ _ => trivial) h
  obtain ⟨rfl, hclass, horigin⟩ := importForClass_eq_bare he h
  refine .origin hclass fun d hd hname => ?_
  rw [← hname, contains_ofDeferred hd] at horigin
  cases horigin

end Step

namespace Run

variable {w : World} {seeds : List NamedDefinition} {s t : Run} {e : Failure}

theorem resolveDeferred_eq_bare (he : e.isBare = true)
    (h : resolveDeferred w s = .error e t) : ∃ queue, s.queue = some queue ∧ e.IsStray queue t := by
  replace h := get_bind_eq.1 h
  cases hqueue : s.queue with
  | none =>
    rw [hqueue] at h
    exact absurd h pure_ne_error
  | some queue =>
    rw [hqueue] at h
    replace h := modify_bind_eq.1 h
    obtain ⟨u, hu, rfl⟩ := ensuring_eq_error.1 h
    refine ⟨queue, rfl, ?_⟩
    cases Step.resolveDeferred_eq_bare he hu with
    | group hd htype hgroup => exact .group (List.mem_mergeSort.1 hd) htype hgroup
    | origin hclass horigins =>
      exact .origin hclass fun d hd => horigins d (List.mem_mergeSort.2 hd)

/-- A failed call is explained, with one attribution, unless the seeds have been parsed and what
is wrong is a group of the selectors that wait, or the class of an entry. -/
theorem explains_iff (hs : Reachable w s) (h : parse w seeds s = .error e t) :
    t.Explains w seeds e ↔ ¬ ∃ u queue, parseSeeds w seeds s = .ok () u ∧
      u.queue = some queue ∧ e.IsStray queue t := by
  have hsane := hs.sane w.bars_nothing
  have hseeds := parseSeeds_ends w.bars_nothing seeds (.explicit .object none) hsane
  constructor
  · rintro hexplains ⟨u, queue, _, _, hstray⟩
    exact hexplains.not_isStray hstray
  · intro hnone
    -- while the seeds are parsed every failure is explained, later only what is not bare
    rcases bind_eq_error.1 h with h | ⟨_, u, hu, h⟩
    · rcases (hseeds.of_error h).2 with ⟨hattributes, he⟩ | ⟨seed, hseed, hfails⟩
      · exact hattributes.explains he
      · exact hfails.explains hseed
    · have hsane' := (hseeds.of_ok hu).sane hsane
      have hdeferred := resolveDeferred_behaves w.bars_nothing (.explicit .object none) hsane'
      have hattributes := (hdeferred.of_error h).2
      cases hbare : e.isBare with
      | false => exact hattributes.explains hbare
      | true =>
        obtain ⟨queue, hqueue, hstray⟩ := resolveDeferred_eq_bare hbare h
        exact absurd ⟨u, queue, hu, hqueue, hstray⟩ hnone

end Run

/-! ## A group that is missing -/

/-- A class imports a deferred selector.  Its group type is not loaded, or has no group. -/
def withSelector (group : Option String) : World where
  resolver := {
    reader := { index := ⟨[{ name := "app.Root", tags := [.importing ["app.Selector"]] },
      { name := "app.Leaf", tags := [.mk WellKnown.propertySource []] }]⟩ }
    types := ⟨[deferredType "app.Selector" "app.Leaf" 0 group]⟩ }

set_option maxRecDepth 100000 in
/-- A failure is not always explained: that of a missing group names no configuration class. -/
theorem not_forall_explains :
    ¬ ∀ (w : World) (seeds : List NamedDefinition) (s t : Run) (e : Failure), Run.Reachable w s →
      Run.parse w seeds s = .error e t → t.Explains w seeds e := by
  intro hall
  have hfails : failure? (Run.parse (withSelector (some "app.Group")) (seedsOf ["app.Root"])
      (Run.fresh {} {})) = some (.classNotFound "app.Group") := by
    decide +kernel
  obtain ⟨t, hparse⟩ := exists_of_failure? hfails
  exact nomatch hall _ _ _ t _ (.fresh {} {}) hparse

set_option maxRecDepth 100000 in
/-- Without a group type the choice of the selector is imported, and what is wrong with it is
attributed to the class that imports it. -/
theorem explains_iff_leaf :
    ∃ t, Run.parse (withSelector none) (seedsOf ["app.Root"]) (Run.fresh {} {}) =
        .error (.attributed .importingCandidates "app.Root" (.missingLocation "app.Leaf")) t ∧
      (t.Explains (withSelector none) (seedsOf ["app.Root"])
          (.attributed .importingCandidates "app.Root" (.missingLocation "app.Leaf")) ↔
        ¬ ∃ u queue, Run.parseSeeds (withSelector none) (seedsOf ["app.Root"])
            (Run.fresh {} {}) = .ok () u ∧ u.queue = some queue ∧
          (Failure.attributed .importingCandidates "app.Root"
            (.missingLocation "app.Leaf")).IsStray queue t) := by
  have hfails : failure? (Run.parse (withSelector none) (seedsOf ["app.Root"])
      (Run.fresh {} {})) =
        some (.attributed .importingCandidates "app.Root" (.missingLocation "app.Leaf")) := by
    decide +kernel
  obtain ⟨t, hparse⟩ := exists_of_failure? hfails
  exact ⟨t, hparse, Run.explains_iff (.fresh {} {}) hparse⟩

end Wiring
