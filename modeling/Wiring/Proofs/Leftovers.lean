import Wiring.Proofs.Schedule

/-!
# What a failed call leaves queued

A call that fails while it resolves deferred selectors leaves an empty queue.  One that fails before
that leaves all that its seeds had queued, and whatever resolves deferred selectors next asks them,
on behalf of classes that may never have been committed.
-/

namespace Wiring
namespace Run

variable {w : World} {seeds before after : List NamedDefinition} {s t u : Run} {e : Failure}

theorem parseSeeds_append : parseSeeds w (before ++ after) =
    parseSeeds w before >>= fun _ => parseSeeds w after :=
  List.forM_append

/-- While seeds are parsed, what has been queued waits. -/
theorem postpones_parseSeeds (w : World) (seeds : List NamedDefinition) (s : Run) :
    s.Postpones (finalState (parseSeeds w seeds s)) :=
  (alike_parseSeeds (Comparison.postponed_relates w)
    (sameSeeds_refl w.resolver id seeds)).postpones_finalState s

theorem isSome_queue_parseSeeds (w : World) (seeds : List NamedDefinition)
    (hopen : s.queue = some []) :
    (finalState (parseSeeds w seeds s)).queue.isSome = true := by
  rw [(postpones_parseSeeds w seeds s).queue, hopen]
  rfl

/-- The seeds that come later take nothing out of the queue. -/
theorem queue_eq_nil_of_append (hopen : s.queue = some [])
    (h : (finalState (parseSeeds w (before ++ after) s)).queue = some []) :
    (finalState (parseSeeds w before s)).queue = some [] := by
  rw [parseSeeds_append] at h
  cases hbefore : parseSeeds w before s with
  | error e u => rwa [bind_eq_error.2 (.inl hbefore)] at h
  | ok x u =>
    obtain ⟨ds, hds⟩ : ∃ ds, u.queue = some ds := by
      have hsome := isSome_queue_parseSeeds w before hopen
      rw [hbefore] at hsome
      exact Option.isSome_iff_exists.1 hsome
    obtain ⟨more, hmore⟩ := (postpones_parseSeeds w after u).waiting ds hds
    have hend : finalState ((parseSeeds w before >>= fun _ => parseSeeds w after) s) =
        finalState (parseSeeds w after u) := by
      show finalState (EStateM.bind _ _ s) = _
      rw [EStateM.bind, hbefore]
    rw [hend, hmore, Option.some.injEq, List.append_eq_nil_iff] at h
    rw [finalState, hds, h.1]

/-- With an empty queue there is nothing to resolve.  Else the queue is empty afterwards. -/
theorem resolveDeferred_eq_self_iff (hopen : t.queue.isSome = true) :
    resolveDeferred w t = .ok () t ↔ t.queue = some [] := by
  obtain ⟨queue, hqueue⟩ := Option.isSome_iff_exists.1 hopen
  rw [resolveDeferred_of_open hqueue]
  constructor
  · intro h
    obtain ⟨v, _, hv⟩ := ensuring_eq_ok.1 h
    rw [← hv]
  · intro hempty
    rw [hqueue] at hempty
    obtain rfl := Option.some.inj hempty
    rw [List.mergeSort_nil, ensuring_eq_ok]
    exact ⟨{ t with queue := none }, rfl, by rw [← hqueue]⟩

/-- A call that fails leaves an open queue.  It is empty if and only if all seeds had been parsed or
none of those that were tried had queued a selector; and if and only if it is, resolving deferred
selectors next does nothing. -/
theorem queue_of_failed_parse (hopen : s.queue = some []) (h : parse w seeds s = .error e t) :
    t.queue.isSome = true ∧
      (t.queue = some [] ↔ (∃ u, parseSeeds w seeds s = .ok () u) ∨
        ∀ before, before <+: seeds → (finalState (parseSeeds w before s)).queue = some []) ∧
      (resolveDeferred w t = .ok () t ↔ t.queue = some []) := by
  obtain hseeds | ⟨_, u, hseeds, hresolved⟩ := bind_eq_error.1 h
  · have hsome := isSome_queue_parseSeeds w seeds hopen
    rw [hseeds] at hsome
    refine ⟨hsome, ⟨fun hempty => .inr fun before ⟨after, hafter⟩ => ?_, ?_⟩,
      resolveDeferred_eq_self_iff hsome⟩
    · have hall : (finalState (parseSeeds w (before ++ after) s)).queue = some [] := by
        rw [hafter, hseeds]
        exact hempty
      exact queue_eq_nil_of_append hopen hall
    · rintro (⟨u, hu⟩ | hnone)
      · rw [hseeds] at hu
        cases hu
      · have hall := hnone seeds (List.prefix_refl seeds)
        rwa [hseeds] at hall
  · have hsome := isSome_queue_parseSeeds w seeds hopen
    rw [hseeds] at hsome
    obtain ⟨queue, hqueue⟩ := Option.isSome_iff_exists.1 hsome
    rw [finalState] at hqueue
    rw [resolveDeferred_of_open hqueue] at hresolved
    obtain ⟨v, _, rfl⟩ := ensuring_eq_error.1 hresolved
    exact ⟨rfl, ⟨fun _ => .inl ⟨u, hseeds⟩, fun _ => rfl⟩, resolveDeferred_eq_self_iff rfl⟩

end Run

/-- A class that imports a deferred selector. -/
def interrupted : World where
  resolver := {
    reader := { index := ⟨[{ name := "app.A", tags := [.importing ["app.Selector"]] },
      { name := "app.X" }]⟩ }
    types := ⟨[deferredType "app.Selector" "app.X" 0 none]⟩ }

set_option maxRecDepth 100000 in
/-- The first seed is parsed and the second one cannot be found: the selector waits. -/
theorem queue_of_failed_parse_interrupted :
    ∃ e t, Run.parse interrupted (seedsOf ["app.A", "app.Missing"]) (Run.fresh {} {}) = .error e t ∧
      t.queue.map (·.map (·.typeName)) = some ["app.Selector"] ∧
      t.queue.isSome = true ∧
      (t.queue = some [] ↔
        (∃ u, Run.parseSeeds interrupted (seedsOf ["app.A", "app.Missing"]) (Run.fresh {} {}) =
          .ok () u) ∨
        ∀ before, before <+: seedsOf ["app.A", "app.Missing"] →
          (finalState (Run.parseSeeds interrupted before (Run.fresh {} {}))).queue = some []) ∧
      (Run.resolveDeferred interrupted t = .ok () t ↔ t.queue = some []) := by
  have hcheck : failsWith
      (fun t : Run => decide (t.queue.map (·.map (·.typeName)) = some ["app.Selector"]))
      (Run.parse interrupted (seedsOf ["app.A", "app.Missing"]) (Run.fresh {} {})) = true := by
    decide +kernel
  obtain ⟨e, t, hparse, ht⟩ := exists_of_failsWith hcheck
  exact ⟨e, t, hparse, of_decide_eq_true ht, Run.queue_of_failed_parse rfl hparse⟩

set_option maxRecDepth 100000 in
/-- So a failed call may leave something queued. -/
theorem not_forall_queue_eq_nil :
    ¬ ∀ (w : World) (seeds : List NamedDefinition) (environment : Environment)
      (registry : Registry) (e : Failure) (t : Run),
      Run.parse w seeds (Run.fresh environment registry) = .error e t →
        t.queue = some [] ∧ Run.resolveDeferred w t = .ok () t := by
  intro h
  have hcheck : failsWith (fun t : Run => t.queue.any (!·.isEmpty))
      (Run.parse interrupted (seedsOf ["app.A", "app.Missing"]) (Run.fresh {} {})) = true := by
    decide +kernel
  obtain ⟨e, t, hparse, ht⟩ := exists_of_failsWith hcheck
  rw [(h interrupted _ {} {} e t hparse).1] at ht
  cases ht

end Wiring
