import Wiring.Proofs.Bookkeeping
import Wiring.Proofs.Comparison.Runs

/-!
# Runs that are cut off

A fail-fast run is the run that collects its problems, up to the first of them.  A run that may not
go deep is the run that may go deeper, unless it fails for being too deep.
-/

namespace Wiring

/-! ## Fail-fast runs -/

/-- Outcomes of the run that collects its problems, and of the one that fails with the first: they
are the same as long as nothing is reported. -/
def IsCutAtFirst (s : Run) (collected failed : EStateM.Result Failure Run Unit) : Prop :=
  ∃ reported, (finalState collected).problems = s.problems ++ reported ∧
    match reported with
    | [] => failed = collected
    | p :: _ => ∃ t, failed = .error (.problem p) t ∧ t.problems = s.problems ++ [p]

namespace Comparison

/-- The second run ends with the first problem that is reported. -/
def failFast : Comparison where
  view := id
  onlyClosed := false
  Keeps s t := t.problems = s.problems ∧ t.queue.isSome = s.queue.isSome
  Cuts s e t t' := t.queue.isSome = s.queue.isSome ∧
    ∃ p, e = .problem p ∧ t'.problems = s.problems ++ [p] ∧ s.problems ++ [p] <+: t.problems
  keeps_tacit h := ⟨h.problems, h.isSome_queue⟩
  keeps_emit _ := ⟨rfl, rfl⟩
  keeps_trans h h' := ⟨h'.1.trans h.1, h'.2.trans h.2⟩
  keeps_queue h := h.2
  cuts_queue h := h.1
  cuts_after := by
    rintro s t u u' e ⟨hproblems, hqueue⟩ ⟨hqueue', hcut⟩
    rw [hproblems] at hcut
    exact ⟨hqueue'.trans hqueue, hcut⟩
  cuts_goesOn := by
    rintro s t t' u e ⟨hqueue, p, rfl, hend, hfirst⟩
      (⟨hproblems, hqueue'⟩ | ⟨_, _, hqueue', q, -, -, hmore⟩)
    · exact ⟨hqueue'.trans hqueue, p, rfl, hend, by rwa [hproblems]⟩
    · -- the first run goes on to report more, after the problem that ended the second
      have hall : t.problems <+: u.problems := (List.prefix_append _ _).trans hmore
      exact ⟨hqueue'.trans hqueue, p, rfl, hend, hfirst.trans hall⟩
  cuts_tacit := by
    rintro s t t' u u' e ⟨hqueue, p, rfl, hend, hfirst⟩ htacit htacit'
    exact ⟨htacit.isSome_queue.trans hqueue, p, rfl, htacit'.problems.trans hend,
      by rwa [htacit.problems]⟩
  cuts_within := by
    rintro s t t' e activity className ⟨hqueue, p, rfl, hcut⟩
    exact ⟨hqueue, p, rfl, hcut⟩

theorem failFast_relates (w : World) :
    failFast.Relates { w with isFailFast := false } { w with isFailFast := true } where
  same := rfl
  views := Resolver.interchanges_id _
  report p s s' hs _ := by
    obtain rfl := Run.eq_of_mapViews_id hs
    exact .cut ⟨rfl, p, rfl, rfl, List.prefix_rfl⟩
  descend := alike_descend rfl

theorem failFast_reopens : Run.Reopens failFast where
  keeps hs h := ⟨h.1, hs.symm⟩
  cuts hs := by
    rintro ⟨-, hcut⟩
    exact ⟨hs.symm, hcut⟩

theorem isCutAtFirst_of_alike {x y : RunM Unit} (h : Alike failFast x y) (s : Run) :
    IsCutAtFirst s (x s) (y s) := by
  obtain ⟨heq, hproblems, -⟩ | ⟨e, t', herror, -, p, rfl, hend, rest, hrest⟩ :=
    h.eq_or_cuts rfl (s := s) (fun hclosed => nomatch hclosed)
  · exact ⟨[], by rw [hproblems, List.append_nil], heq.symm⟩
  · exact ⟨p :: rest, by rw [← hrest, List.append_assoc]; rfl, t', herror, hend⟩

end Comparison

namespace Run

/-- The run that fails with the first problem comes to the same as the one that collects them, if
that reports none.  Otherwise it fails with the first one as it is, and adds no other.  A validation
of the same classes is cut off in the same way. -/
theorem failFast_isCutAtFirst (w : World) (seeds : List NamedDefinition) (s t : Run) :
    IsCutAtFirst s (parse { w with isFailFast := false } seeds s)
        (parse { w with isFailFast := true } seeds s) ∧
      IsCutAtFirst t (validate { w with isFailFast := false } t)
        (validate { w with isFailFast := true } t) := by
  have hrelates := Comparison.failFast_relates w
  have hseeds := sameSeeds_refl w.resolver id seeds
  have hparse := alike_parse Comparison.failFast_reopens hrelates hseeds
  have hvalidate : Alike .failFast (validate { w with isFailFast := false })
      (validate { w with isFailFast := true }) := by
    refine alike_bind alike_get fun u u' hu => ?_
    obtain rfl := eq_of_mapViews_id hu
    exact alike_forM_same hrelates.report _
  exact ⟨Comparison.isCutAtFirst_of_alike hparse s, Comparison.isCutAtFirst_of_alike hvalidate t⟩

end Run

/-! ## Limited runs -/

/-- The failure is that of a class beyond the limit, as it is or attributed to another class. -/
def Failure.IsBeyond (limit : Nat) (e : Failure) : Prop :=
  ∃ className, e = .tooDeep className limit ∨
    ∃ activity name, e = .attributed activity name (.tooDeep className limit)

theorem Failure.IsBeyond.within {limit : Nat} {e : Failure} (h : e.IsBeyond limit)
    (activity : Activity) (className : String) : (e.within activity className).IsBeyond limit := by
  obtain ⟨deep, rfl | ⟨activity', name, rfl⟩⟩ := h
  · exact ⟨deep, .inr ⟨activity, className, rfl⟩⟩
  · exact ⟨deep, .inr ⟨activity', name, rfl⟩⟩

namespace Comparison

/-- The second run ends at the first class beyond the limit. -/
def limited (limit : Nat) : Comparison := { upTo id with
  Cuts s e t _ := t.queue.isSome = s.queue.isSome ∧ e.IsBeyond limit
  cuts_queue h := h.1
  cuts_after h h' := ⟨h'.1.trans h, h'.2⟩
  cuts_goesOn := by
    rintro s t t' u e ⟨hqueue, he⟩ (hqueue' | ⟨_, _, hqueue', -⟩)
    · exact ⟨hqueue'.trans hqueue, he⟩
    · exact ⟨hqueue'.trans hqueue, he⟩
  cuts_tacit h htacit _ := ⟨htacit.isSome_queue.trans h.1, h.2⟩
  cuts_within activity className h := ⟨h.1, h.2.within activity className⟩ }

theorem limited_relates (w : World) {limit deeper : Nat} (hle : limit ≤ deeper) :
    (limited limit).Relates { w with maxDepth := deeper } { w with maxDepth := limit } where
  same := rfl
  views := Resolver.interchanges_id _
  report := alike_report rfl fun _ _ => rfl
  descend className s s' hs _ := by
    obtain rfl := Run.eq_of_mapViews_id hs
    by_cases hdeep : limit ≤ s.depth
    · rw [descend_of_deep (w := { w with maxDepth := limit }) hdeep]
      refine .cut ⟨?_, className, .inl rfl⟩
      -- the first run may go on, which leaves the queue alone
      by_cases hdeeper : deeper ≤ s.depth
      · rw [descend_of_deep (w := { w with maxDepth := deeper }) hdeeper]
        rfl
      · rw [Step.descend_eq_ok.2 ⟨Nat.lt_of_not_le hdeeper, rfl⟩]
        rfl
    · have hlt : s.depth < limit := Nat.lt_of_not_le hdeep
      rw [Step.descend_eq_ok.2 ⟨Nat.lt_of_lt_of_le hlt hle, rfl⟩, Step.descend_eq_ok.2 ⟨hlt, rfl⟩]
      exact .ok rfl rfl rfl

theorem limited_reopens (limit : Nat) : Run.Reopens (limited limit) where
  keeps hs _ := hs.symm
  cuts hs h := ⟨hs.symm, h.2⟩

end Comparison

namespace Run

/-- With a lower limit on the depth a run fails at that limit, or else it comes to the same as with
the higher one, in every respect. -/
theorem parse_isBeyond_or_eq (w : World) {limit deeper : Nat} (hle : limit ≤ deeper)
    (seeds : List NamedDefinition) (s : Run) :
    (∃ e t, parse { w with maxDepth := limit } seeds s = .error e t ∧ e.IsBeyond limit) ∨
      parse { w with maxDepth := limit } seeds s = parse { w with maxDepth := deeper } seeds s := by
  have hparse := alike_parse (Comparison.limited_reopens limit)
    (Comparison.limited_relates w hle) (sameSeeds_refl w.resolver id seeds)
  obtain ⟨heq, -⟩ | ⟨e, t, herror, -, he⟩ :=
    hparse.eq_or_cuts rfl (s := s) (fun hclosed => nomatch hclosed)
  · exact .inr heq.symm
  · exact .inl ⟨e, t, herror, he⟩

end Run

set_option maxRecDepth 100000 in
/-- A class that imports another one goes two levels deep: one is too few, and a third changes
nothing. -/
theorem parse_isBeyond_or_eq_shallow :
    (∃ e t, Run.parse { shallow with maxDepth := 1 } (seedsOf ["app.A"]) {} = .error e t ∧
        e.IsBeyond 1) ∧
      Run.parse { shallow with maxDepth := 2 } (seedsOf ["app.A"]) {} =
        Run.parse { shallow with maxDepth := 3 } (seedsOf ["app.A"]) {} := by
  have htwo : succeedsWith (fun _ => true)
      (Run.parse { shallow with maxDepth := 2 } (seedsOf ["app.A"]) {}) = true := by
    decide +kernel
  have hone : succeedsWith (fun _ => true)
      (Run.parse { shallow with maxDepth := 1 } (seedsOf ["app.A"]) {}) = false := by
    decide +kernel
  constructor
  · obtain hbeyond | heq :=
      Run.parse_isBeyond_or_eq shallow (show 1 ≤ 2 by decide) (seedsOf ["app.A"]) {}
    · exact hbeyond
    · rw [heq, htwo] at hone
      cases hone
  · obtain ⟨e, t, herror, -⟩ | heq :=
      Run.parse_isBeyond_or_eq shallow (show 2 ≤ 3 by decide) (seedsOf ["app.A"]) {}
    · rw [herror] at htwo
      cases htwo
    · exact heq

end Wiring
