import Wiring.Proofs.Behaviour

/-!
# Moments of a run

A step tells only in which state it ends.  The moments are what it comes to on the way: a class is
about to be entered, a source to be processed as part of a record, candidates to be imported for
it.  What a moment leads to is found by carrying out what comes before it, so a run has its moments
also if it fails later.
-/

namespace Wiring

/-- A class on the stack, with the source whose candidates are being imported for it: itself or a
superclass. -/
structure Frame where
  holder : ClassInfo
  source : ClassInfo

/-- The class is importing what it names itself. -/
def Frame.IsOwn (fr : Frame) : Prop := fr.source.name = fr.holder.name

inductive Moment where
  /-- A class is about to be entered. -/
  | enter (frames : List Frame) (c : ConfigClass) (f : NameFilter) (s : Run)
  /-- A source is about to be processed as part of a record. -/
  | climb (frames : List Frame) (v : View) (f : NameFilter) (s : Collecting)
  /-- The candidates that a source names are about to be imported. -/
  | imports (frames : List Frame) (current : View) (us : List View) (f : NameFilter)
      (s : Collecting)

/-- What is done for a source before its imports are followed. -/
def Step.beforeImports (w : World) (deeper : Steps) (v : View) (f : NameFilter) :
    RecordM Unit := do
  enterMembers w deeper v f
  RunM.addDeclaredSources w v.info
  enterAllScanned w deeper v.info

def Resolver.looksPlain (r : Resolver) (v : View) : Bool :=
  !r.isAssignable v WellKnown.importSelector && !r.isAssignable v WellKnown.registrar &&
    !v.isObject

/-- The elements of a list, each with those before it. -/
def splits {α : Type} : List α → List (List α × α)
  | [] => []
  | a :: as => ([], a) :: (splits as).map fun (before, b) => (a :: before, b)

theorem mem_splits {α : Type} {as before : List α} {a : α} :
    (before, a) ∈ splits as ↔ ∃ after, as = before ++ a :: after := by
  induction as generalizing before with
  | nil => simp [splits]
  | cons b as ih =>
    rw [splits, List.mem_cons, List.mem_map]
    constructor
    · rintro (h | ⟨⟨before', c⟩, hmem, heq⟩)
      · cases h
        exact ⟨as, rfl⟩
      · cases heq
        obtain ⟨after, rfl⟩ := ih.1 hmem
        exact ⟨after, rfl⟩
    · rintro ⟨after, heq⟩
      cases before with
      | nil =>
        obtain ⟨rfl, rfl⟩ := List.cons.inj heq
        exact .inl rfl
      | cons c before =>
        obtain ⟨rfl, rfl⟩ := List.cons.inj heq
        exact .inr ⟨(before, a), ih.2 ⟨after, rfl⟩, rfl⟩

/-- The state in which a class is entered for the record, after the candidates before it. -/
def Collecting.importing (s : Collecting) (current : View) (u : View) : Run :=
  Run.importing { s.run with importers := s.run.importers.register current.info u.name } u.name
    s.record.name

namespace Moment

/-- The moments that follow, in the order in which a run comes to them.  The filter stays as it is
only up to the first selector, so classes behind one are left out. -/
def next (w : World) (deeper : Steps) : Moment → List Moment
  | enter frames c f s =>
    match RunM.skips w c.info .parse s with
    | .ok false s =>
      match Step.enroll c s with
      | .ok true s =>
        if s.depth < w.maxDepth then [climb frames (c.view.filtered f) f ⟨c, s.opening c⟩] else []
      | _ => []
    | _ => []
  | climb frames v f s =>
    (match Step.beforeImports w deeper v f s, w.resolver.imports v with
      | .ok _ s, .ok us => [imports frames v us f s]
      | _, _ => []) ++
    (match Step.processSource w deeper v f s with
      | .ok (some superclass) s => [climb frames superclass f s]
      | _ => [])
  | imports frames current us f s =>
    if ImportStack.isCircular s.run.stack s.run.importers s.record.name then []
    else (splits us).flatMap fun (before, u) =>
      if before.any (w.resolver.isAssignable · WellKnown.importSelector) ||
          !w.resolver.looksPlain u then []
      else
        match Step.importEach w deeper current f before
            { s with run := { s.run with stack := s.record.info :: s.run.stack } } with
        | .ok _ s => [enter (⟨s.record.info, current.info⟩ :: frames) (.imported u s.record) f
            (s.importing current u)]
        | .error _ _ => []

/-- The moments that follow in `k` steps, for a moment whose step goes `n` levels deep. -/
def after (w : World) : (k n : Nat) → Moment → List Moment
  | 0, _, m => [m]
  | _ + 1, 0, _ => []
  | k + 1, n + 1, m => (m.next w (Run.steps w (n + 1))).flatMap (after w k n)

end Moment

/-- The moments that runs from the seeds come to by imports and superclasses, each with the number
of levels that its step may go deep. -/
inductive Comes (w : World) (seeds : List NamedDefinition) : Nat → Moment → Prop
  | begins {n : Nat} {s : Run} {seed : NamedDefinition} {v : View} : n + 1 = w.fuel →
      Run.Reachable w s → seed ∈ seeds →
      w.resolver.ofDefinition seed.definition seed.beanName = .ok v →
      Comes w seeds n (.enter [] (.explicit v (some seed.beanName)) w.resolver.filter s)
  | next {n : Nat} {m m' : Moment} : Comes w seeds (n + 1) m →
      m' ∈ m.next w (Run.steps w (n + 1)) → Comes w seeds n m'

theorem Comes.after {w : World} {seeds : List NamedDefinition} {k n : Nat} {m m' : Moment}
    (h : Comes w seeds n m) (hm : m' ∈ m.after w k n) : Comes w seeds (n - k) m' := by
  induction k generalizing n m with
  | zero =>
    rw [Moment.after, List.mem_singleton] at hm
    rwa [hm]
  | succ k ih =>
    cases n with
    | zero => cases hm
    | succ n =>
      rw [Moment.after, List.mem_flatMap] at hm
      obtain ⟨m₁, hnext, hm⟩ := hm
      rw [Nat.succ_sub_succ]
      exact ih (.next h hnext) hm

end Wiring
