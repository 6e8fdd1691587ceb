import Mathlib.Logic.Relation
import Wiring.Proofs.Accumulation
import Wiring.Proofs.Conduct

/-!
# Values that a run keeps

A run puts its sources behind those that the environment had, so what one of these answers stays
in front of whatever is added.  The exception is a name: adding a source takes out the one that
bears its name.
-/

namespace Wiring

/-- Making a strategy leaves the property sources as they are. -/
def World.LeavesSources (w : World) : Prop :=
  ∀ t ∈ w.resolver.types.types, ∀ maker, t.maker = some maker → ∀ ps, maker.effect ps = ps

/-- A moment of a run and the next, between which at most one property source is added. -/
inductive Run.Adds (s t : Run) : Prop
  | nothing : t.environment = s.environment → t.addedSources = s.addedSources → Adds s t
  | source (x : PropertySource) :
      t.environment = (finalState (RunM.addSource x s)).environment →
      t.addedSources = (finalState (RunM.addSource x s)).addedSources → Adds s t

/-! ## A run adds its sources one by one -/

theorem World.LeavesSources.modifySources {w : World} (hw : w.LeavesSources) {t : LoadedType}
    (ht : t ∈ w.resolver.types.types) {maker : Maker} (hmaker : t.maker = some maker)
    (env : Environment) : env.modifySources maker.effect = env := by
  rw [Environment.modifySources, hw t ht maker hmaker]
  split <;> rfl

namespace Run

variable {s s' t t' : Run}

/-- Only what is in the environment and what was added counts. -/
theorem reaches_congr (h : Relation.ReflTransGen Adds s t) (hs : s.environment = s'.environment)
    (hsadded : s.addedSources = s'.addedSources) (ht : t'.environment = t.environment)
    (htadded : t'.addedSources = t.addedSources) : Relation.ReflTransGen Adds s' t' :=
  .head (.nothing hs hsadded) (h.tail (.nothing ht htadded))

theorem evenConduct_adds {w : World} (hw : w.LeavesSources) :
    EvenConduct w (Relation.ReflTransGen Adds) where
  refl _ := .refl
  trans h h' := h.trans h'
  aside environment added _ _ _ _ := .single (.nothing environment added)
  produce t ht := by
    constructor
    · intro s u strategy h
      obtain ⟨maker, hmaker, rfl, _⟩ := produce_eq_ok_iff.1 h
      exact .single (.nothing (hw.modifySources ht hmaker _) rfl)
    · intro s u e h
      obtain ⟨_, rfl | ⟨maker, hmaker, rfl⟩⟩ := produce_eq_error h
      · exact .refl
      · exact .single (.nothing (hw.modifySources ht hmaker _) rfl)
  addSource x := obeys_of_finalState fun s => .single (.source x rfl rfl)
  pop h := reaches_congr h rfl rfl rfl rfl
  ascend _ h := reaches_congr h rfl rfl rfl rfl
  close _ h := reaches_congr h rfl rfl rfl rfl
  reopen _ h := reaches_congr h rfl rfl rfl rfl

theorem conduct_adds {w : World} (hw : w.LeavesSources) :
    FullConduct w (.both (Relation.ReflTransGen Adds)) :=
  (evenConduct_adds hw).full

end Run

/-! ## What is in front of the added sources -/

/-- The sources before and after one that has the key.  Those before do not have it, no name that
may be added is there twice, and what has been added is behind. -/
structure Shelters (key : String) (names added : List String)
    (before after : List PropertySource) : Prop where
  lacks : ∀ p ∈ before, p.get? key = none
  once : ∀ n ∈ names, (before.map (·.name)).count n ≤ 1
  behind : ∀ n ∈ added, n ∉ before.map (·.name) ∧ n ∈ after.map (·.name)

theorem notMem_map_name_eraseP {name : String} {ss : List PropertySource}
    (h : (ss.map (·.name)).count name ≤ 1) :
    name ∉ (ss.eraseP (·.name == name)).map (·.name) := by
  rw [PropertySources.map_name_eraseP, ← List.count_eq_zero, List.count_erase_self]
  omega

/-- A name that may be added can be taken out in front. -/
theorem Shelters.erase {key name : String} {names added added' : List String}
    {before after after' : List PropertySource} (h : Shelters key names added before after)
    (hname : name ∈ names)
    (hadded : ∀ n ∈ added', (n = name ∨ n ∈ added) ∧ n ∈ after'.map (·.name)) :
    Shelters key names added' (before.eraseP (·.name == name)) after' where
  lacks p hp := h.lacks p (List.mem_of_mem_eraseP hp)
  once n hn := Nat.le_trans ((List.eraseP_sublist.map _).count_le n) (h.once n hn)
  behind n hn := by
    refine ⟨fun hbefore => ?_, (hadded n hn).2⟩
    obtain rfl | hold := (hadded n hn).1
    · exact notMem_map_name_eraseP (h.once _ hname) hbefore
    · exact (h.behind n hold).1 ((List.eraseP_sublist.map _).subset hbefore)

namespace PropertySource

/-- What sources answer, the first of them that has the key does. -/
theorem firstOf_eq_some_iff {key value : String} {ss : List PropertySource} :
    firstOf key ss = some value ↔ ∃ before keeper after, ss = before ++ keeper :: after ∧
      (∀ p ∈ before, p.get? key = none) ∧ keeper.get? key = some value := by
  induction ss with
  | nil => simp [firstOf]
  | cons s ss ih =>
    rw [firstOf_cons]
    cases hs : s.get? key with
    | some v =>
      constructor
      · intro h
        exact ⟨[], s, ss, rfl, by simp, hs.trans h⟩
      · rintro ⟨_ | ⟨p, before⟩, keeper, after, heq, hbefore, hkeeper⟩
        · obtain ⟨rfl, rfl⟩ := List.cons.inj heq
          exact hs.symm.trans hkeeper
        · obtain ⟨rfl, rfl⟩ := List.cons.inj heq
          exact absurd (hbefore s List.mem_cons_self) (by simp [hs])
    | none =>
      rw [Option.none_or, ih]
      constructor
      · rintro ⟨before, keeper, after, rfl, hbefore, hkeeper⟩
        refine ⟨s :: before, keeper, after, rfl, fun p hp => ?_, hkeeper⟩
        obtain rfl | hp := List.mem_cons.1 hp
        · exact hs
        · exact hbefore p hp
      · rintro ⟨_ | ⟨p, before⟩, keeper, after, heq, hbefore, hkeeper⟩
        · obtain ⟨rfl, rfl⟩ := List.cons.inj heq
          exact absurd hkeeper (by simp [hs])
        · obtain ⟨rfl, rfl⟩ := List.cons.inj heq
          exact ⟨before, keeper, after, rfl, fun p hp => hbefore p (List.mem_cons_of_mem _ hp),
            hkeeper⟩

end PropertySource

namespace PropertySources

section

variable {name key value : String} {names added : List String} {keeper x : PropertySource}
  {before after : List PropertySource}

theorem mem_map_name_splice_before {anchor n : String} {ss : List PropertySource}
    (hanchor : anchor ∈ ss.map (·.name)) (hn : n = x.name ∨ n ∈ ss.map (·.name)) :
    n ∈ (splice anchor (fun a => [x, a]) ss).map (·.name) := by
  induction ss with
  | nil => cases hanchor
  | cons s ss ih =>
    rw [splice]
    by_cases hs : s.name = anchor
    · rw [if_pos (beq_iff_eq.2 hs)]
      exact List.mem_cons.2 hn
    · rw [if_neg (by simpa using hs), List.map_cons, List.mem_cons]
      rw [List.map_cons, List.mem_cons] at hanchor
      have hanchor := hanchor.resolve_left (Ne.symm hs)
      obtain rfl | hn := hn
      · exact .inr (ih hanchor (.inl rfl))
      · rw [List.map_cons, List.mem_cons] at hn
        exact hn.imp_right fun hn => ih hanchor (.inr hn)

/-- Taking out a name that is not the keeper's leaves the keeper in its place. -/
theorem erase_sheltered (before after : List PropertySource) (hname : name ≠ keeper.name) :
    ∃ before' after', (⟨before ++ keeper :: after⟩ : PropertySources).erase name =
        ⟨before' ++ keeper :: after'⟩ ∧
      before' = before.eraseP (·.name == name) ∧
      ∀ n, n ≠ name → n ∈ after.map (·.name) → n ∈ after'.map (·.name) := by
  have hkeeper : (keeper :: after).eraseP (·.name == name) =
      keeper :: after.eraseP (·.name == name) := by
    rw [List.eraseP_cons, beq_eq_false_iff_ne.2 hname.symm, cond_false]
  rw [erase]
  by_cases hbefore : before.any (·.name == name) = true
  · refine ⟨_, after, congrArg PropertySources.mk ?_, rfl, fun n _ hn => hn⟩
    rw [List.eraseP_append, if_pos hbefore]
  · refine ⟨_, after.eraseP (·.name == name), congrArg PropertySources.mk ?_, rfl,
      fun n hne hn => mem_map_name_eraseP hne hn⟩
    have hnone : before.eraseP (·.name == name) = before :=
      List.eraseP_of_forall_not fun p hp hpname => hbefore (List.any_eq_true.2 ⟨p, hp, hpname⟩)
    rw [List.eraseP_append, if_neg hbefore, hkeeper, hnone]

/-- One more source finds what was added before, so it goes in.  Unless it takes the keeper's name,
it goes behind the keeper. -/
theorem accumulate_sheltered (h : Shelters key names added before after)
    (hadded : ∀ n ∈ added, n ≠ keeper.name) :
    ∃ ps added', (⟨before ++ keeper :: after⟩ : PropertySources).accumulate added x =
        (ps, .ok added') ∧ x.name ∈ added' ∧
      (x.name ∈ names → x.name ≠ keeper.name → ∃ before' after',
        ps = ⟨before' ++ keeper :: after'⟩ ∧ Shelters key names added' before' after') := by
  by_cases hx : x.name ∈ added
  · obtain ⟨present, hpresent⟩ : ∃ present,
        (⟨before ++ keeper :: after⟩ : PropertySources).get? x.name = some present := by
      refine Option.ne_none_iff_exists'.1 (mt get?_eq_none_iff.1 (not_not.2 ?_))
      show x.name ∈ (before ++ keeper :: after).map (·.name)
      rw [List.map_append, List.map_cons]
      exact List.mem_append_right _ (List.mem_cons_of_mem _ (h.behind _ hx).2)
    have hname : present.name = x.name := name_of_get? hpresent
    refine ⟨_, added, accumulate_of_present hx hpresent, hx, fun _ hne => ?_⟩
    refine ⟨before, splice x.name (fun _ => [present.joined x]) after,
      congrArg PropertySources.mk ?_, h.lacks, h.once, fun n hn => ⟨(h.behind n hn).1, ?_⟩⟩
    · rw [splice_append_of_notMem (h.behind _ hx).1, splice,
        if_neg (by simpa using hne.symm)]
    · have hjoined : ∀ p : PropertySource, p.name = x.name → (present.joined x).name = x.name :=
        fun _ _ => hname
      rw [map_name_splice hjoined]
      exact (h.behind n hn).2
  · have hnew (ps : PropertySources) : x.name ∈ added → ps.get? x.name = none :=
      fun h => absurd h hx
    rw [accumulate_of_absent (hnew _)]
    cases hlast : added.getLast? with
    | none =>
      obtain rfl := List.getLast?_eq_none_iff.1 hlast
      refine ⟨_, _, rfl, by simp, fun hmay hne => ?_⟩
      obtain ⟨before', after', herase, rfl, _⟩ := erase_sheltered before after hne
      refine ⟨_, after' ++ [x], ?_, h.erase hmay (by simp)⟩
      rw [addLast, herase, List.append_assoc, List.cons_append]
    | some last =>
      have hmem : last ∈ added := List.mem_of_getLast? hlast
      have hbehind := h.behind last hmem
      have hother : last ≠ x.name := fun hsame => hx (hsame ▸ hmem)
      have hanchor : last ∈ (⟨before ++ keeper :: after⟩ : PropertySources).names := by
        show last ∈ (before ++ keeper :: after).map (·.name)
        rw [List.map_append, List.map_cons]
        exact List.mem_append_right _ (List.mem_cons_of_mem _ hbehind.2)
      simp only [addBefore_of_mem hother hanchor]
      refine ⟨_, _, rfl, by simp, fun hmay hne => ?_⟩
      obtain ⟨before', after', herase, rfl, hafter⟩ := erase_sheltered before after hne
      have hlast' : last ∈ after'.map (·.name) := hafter _ hother hbehind.2
      refine ⟨_, splice last (fun a => [x, a]) after', congrArg PropertySources.mk ?_,
        h.erase hmay fun n hn => ?_⟩
      · have hnone : last ∉ (before.eraseP (·.name == x.name)).map (·.name) := fun hin =>
          hbehind.1 ((List.eraseP_sublist.map _).subset hin)
        rw [herase, splice_append_of_notMem hnone, splice,
          if_neg (by simpa using (hadded last hmem).symm)]
      · have hn : n = x.name ∨ n ∈ added := by simpa [or_comm] using hn
        refine ⟨hn, mem_map_name_splice_before hlast' (hn.imp_right fun hold => ?_)⟩
        exact hafter n (fun hsame => hx (hsame ▸ hold)) (h.behind n hold).2

end

end PropertySources

/-! ## Runs -/

namespace Run

theorem accumulate_subset {ps ps' : PropertySources} {added added' : List String}
    {x : PropertySource} (h : ps.accumulate added x = (ps', .ok added')) : added ⊆ added' := by
  rw [PropertySources.accumulate] at h
  split at h
  · cases h
    exact List.Subset.refl _
  · split at h
    · cases h
      exact List.subset_append_left _ _
    · split at h
      · cases h
        exact List.subset_append_left _ _
      · cases h

/-- The names of the sources added so far only become more. -/
theorem addedSources_subset {s t : Run} (h : Relation.ReflTransGen Adds s t) :
    s.addedSources ⊆ t.addedSources := by
  induction h with
  | refl => exact List.Subset.refl _
  | @tail u v _ h ih =>
    refine List.Subset.trans ih ?_
    cases h with
    | nothing _ hadded => rw [hadded]; exact List.Subset.refl _
    | source x _ hadded =>
      rw [hadded, RunM.addSource_eq]
      split
      · exact accumulate_subset ‹_›
      · exact List.Subset.refl _

section

variable {key value : String} {names : List String} {keeper : PropertySource} {s t : Run}

/-- The keeper is the first source that has the key, in front of what has been added. -/
def Keeps (s : Run) (key : String) (names : List String) (keeper : PropertySource) : Prop :=
  ∃ before after, s.environment.sources = ⟨before ++ keeper :: after⟩ ∧
    Shelters key names s.addedSources before after

theorem Keeps.property? (h : s.Keeps key names keeper) (hvalue : keeper.get? key = some value) :
    s.environment.property? key = some value := by
  obtain ⟨before, after, hsources, h⟩ := h
  rw [Environment.property?, PropertySources.property?, hsources]
  exact PropertySource.firstOf_eq_some_iff.2 ⟨before, keeper, after, rfl, h.lacks, hvalue⟩

theorem Keeps.adds (h : s.Keeps key names keeper) (hst : s.Adds t) (hnames : t.addedSources ⊆ names)
    (hkeeper : keeper.name ∉ names) : t.Keeps key names keeper := by
  obtain ⟨before, after, hsources, h⟩ := h
  have hadded : s.addedSources ⊆ names := fun n hn =>
    hnames (addedSources_subset (.single hst) hn)
  have hother : ∀ n ∈ names, n ≠ keeper.name := fun n hn hsame => hkeeper (hsame ▸ hn)
  cases hst with
  | nothing henv hsame => exact ⟨before, after, henv ▸ hsources, hsame ▸ h⟩
  | source x henv hsame =>
    obtain ⟨ps, added, haccumulate, hx, hkept⟩ := PropertySources.accumulate_sheltered (x := x) h
      fun n hn => hother n (hadded hn)
    have hend : RunM.addSource x s = .ok () { s with
        environment := { s.environment with sources := ps }, addedSources := added } := by
      rw [RunM.addSource_eq, hsources, haccumulate]
    rw [hend] at henv hsame
    have hxnames : x.name ∈ names := hnames (hsame ▸ hx)
    obtain ⟨before', after', rfl, hafter⟩ := hkept hxnames (hother _ hxnames)
    exact ⟨before', after', congrArg Environment.sources henv, hsame ▸ hafter⟩

/-- The environment keeps the value of a key through every moment of a run, whatever the run adds,
unless it adds a source under the name of the one that answers the key, or under a name that two
sources in front of that one share. -/
theorem parse_keeps_value {w : World} {seeds : List NamedDefinition} (hw : w.LeavesSources)
    (hnone : s.addedSources = []) (hvalue : s.environment.property? key = some value) :
    ∃ before keeper after, s.environment.sources.sources = before ++ keeper :: after ∧
      (∀ p ∈ before, p.get? key = none) ∧ keeper.get? key = some value ∧
      ((∀ n ∈ (finalState (parse w seeds s)).addedSources,
          n ≠ keeper.name ∧ (before.map (·.name)).count n ≤ 1) →
        Relation.ReflTransGen (fun u v => u.Adds v ∧ v.environment.property? key = some value) s
          (finalState (parse w seeds s))) := by
  obtain ⟨before, keeper, after, hsources, hbefore, hkeeper⟩ :=
    PropertySource.firstOf_eq_some_iff.1 hvalue
  refine ⟨before, keeper, after, hsources, hbefore, hkeeper, fun hnames => ?_⟩
  have hruns : Relation.ReflTransGen Adds s (finalState (parse w seeds s)) :=
    (obeys_parse (conduct_adds hw) seeds).finalState s
  generalize finalState (parse w seeds s) = t at hnames hruns
  have hother : keeper.name ∉ t.addedSources := fun h => (hnames _ h).1 rfl
  have hkeeps : s.Keeps key t.addedSources keeper := by
    refine ⟨before, after, congrArg PropertySources.mk hsources, hbefore,
      fun n hn => (hnames n hn).2, ?_⟩
    rw [hnone]
    exact fun _ hn => nomatch hn
  -- what is left of the run adds only names that it has added at its end
  clear hnone hvalue hsources
  induction hruns using Relation.ReflTransGen.head_induction_on with
  | refl => exact .refl
  | head hstep hrest ih =>
    have hnext := hkeeps.adds hstep (addedSources_subset hrest) hother
    exact .head ⟨hstep, hnext.property? hkeeper⟩ (ih hnext)

end

end Run

/-- A class declares a property source of the name `app` for a resource that gives `k` the
value 2. -/
def declaring : World where
  resolver := {
    reader := { index := ⟨[{ name := "app.A", tags := [
      .mk WellKnown.propertySource
        [("name", .string "app"), ("value", .string "a.properties")]] }]⟩ } }
  resources := Resources.insert {} "a.properties" "k=2".toUTF8.data.toList

/-- A run in an environment with one source, which gives `k` the value 1. -/
def withValue (name : String) : Run :=
  Run.fresh { sources := ⟨[oneProperty name "k" "1"]⟩ } {}

set_option maxRecDepth 100000 in
/-- A source that is declared under the name of one in the environment takes its place. -/
theorem not_forall_parse_keeps_value :
    ¬ ∀ (w : World) (seeds : List NamedDefinition) (s : Run) (key value : String),
      w.LeavesSources → s.addedSources = [] → s.environment.isReadOnly = false →
      s.environment.property? key = some value →
      (finalState (Run.parse w seeds s)).environment.property? key = some value := by
  intro hall
  have hcheck : (finalState (Run.parse declaring (seedsOf ["app.A"])
      (withValue "app"))).environment.property? "k" = some "2" := by
    decide +kernel
  have hkept := hall declaring (seedsOf ["app.A"]) (withValue "app") "k" "1"
    (fun _ ht => nomatch ht) rfl rfl (by decide +kernel)
  rw [hcheck] at hkept
  exact nomatch hkept

set_option maxRecDepth 100000 in
/-- Under another name it comes behind. -/
theorem parse_keeps_value_base :
    (finalState (Run.parse declaring (seedsOf ["app.A"]) (withValue "base"))).addedSources =
        ["app"] ∧
      Relation.ReflTransGen
        (fun u v : Run => u.Adds v ∧ v.environment.property? "k" = some "1") (withValue "base")
        (finalState (Run.parse declaring (seedsOf ["app.A"]) (withValue "base"))) := by
  have hadded : (finalState (Run.parse declaring (seedsOf ["app.A"])
      (withValue "base"))).addedSources = ["app"] := by
    decide +kernel
  obtain ⟨before, keeper, after, hsources, _, _, hkept⟩ :=
    @Run.parse_keeps_value "k" "1" (withValue "base") declaring (seedsOf ["app.A"])
      (fun _ ht => nomatch ht) rfl (by decide +kernel)
  refine ⟨hadded, hkept fun n hn => ?_⟩
  rw [hadded, List.mem_singleton] at hn
  -- there is only one source that can be the first with the key
  obtain ⟨rfl, rfl, rfl⟩ : before = [] ∧ keeper = oneProperty "base" "k" "1" ∧ after = [] := by
    cases before with
    | nil =>
      obtain ⟨rfl, rfl⟩ := List.cons.inj hsources
      exact ⟨rfl, rfl, rfl⟩
    | cons p before => exact absurd (List.cons.inj hsources).2 (by simp)
  subst hn
  decide

end Wiring
