import Wiring.Proofs.Accounts
import Wiring.Proofs.DepthBound

/-!
# Whom a superclass contributes to

A class is collected from itself and from the superclasses that are claimed for it.  As long as
nothing is scanned for, a claim lasts while its owner is being collected, and it is released only
together with the record of its owner.  So what a superclass brings is held by its owner alone.
-/

namespace Wiring

/-! ## What records are collected from -/

/-- What the record has been collected from was read for it and was its own to collect. -/
def ConfigClass.IsRightful (c : ConfigClass) (K : Scope) (s : Run) : Prop :=
  ∀ v ∈ c.sources, (∃ d, K.Reads d v) ∧ s.Grants c.name v

namespace Run

/-- The records that are committed have been collected from what was their own. -/
structure IsRightful (s : Run) (K : Scope) : Prop where
  keyed : s.Keyed
  nodup : s.classes.keys.Nodup
  classes : ∀ e ∈ s.classes.entries, e.2.IsRightful K s

theorem isRightful_fresh (K : Scope) (environment : Environment) (registry : Registry) :
    (fresh environment registry).IsRightful K :=
  ⟨fun _ he => (by cases he), List.nodup_nil, fun _ he => (by cases he)⟩

end Run

namespace ConfigClass

variable {K : Scope} {s t : Run}

theorem IsRightful.mono {c : ConfigClass} (h : c.IsRightful K s)
    (hst : ∀ v, s.Grants c.name v → t.Grants c.name v) : c.IsRightful K t :=
  fun v hv => ⟨(h v hv).1, hst v (h v hv).2⟩

theorem IsNew.isRightful {c : ConfigClass} (h : c.IsNew) (K : Scope) (s : Run) :
    c.IsRightful K s := by
  intro v hv
  rw [h.sources] at hv
  cases hv

theorem SameCore.isRightful {c d : ConfigClass} (h : c.SameCore d) (hc : c.IsRightful K s) :
    d.IsRightful K s := by
  rw [IsRightful, h.sources, name, h.view]
  exact hc

theorem IsRightful.gained {c : ConfigClass} (h : c.IsRightful K s) {v : View} {d : ClassInfo}
    (hread : K.Reads d v) (hgrants : s.Grants c.name v) (ms : List Method) :
    (c.gained v ms).IsRightful K s := by
  have hname : (c.gained v ms).name = c.name := by
    rw [ConfigClass.gained, addMethods_eq]
    rfl
  intro u hu
  rw [hname]
  obtain hu | hu := List.mem_append.1 hu
  · exact h u hu
  · obtain rfl := List.mem_singleton.1 hu
    exact ⟨⟨d, hread⟩, hgrants⟩

theorem IsRightful.absorb {c scratch : ConfigClass} (hc : c.IsRightful K s)
    (hscratch : scratch.IsRightful K s) (hname : scratch.name = c.name) :
    (c.absorb scratch).IsRightful K s := by
  intro v hv
  obtain hv | hv := List.mem_append.1 hv
  · exact hc v hv
  · have hgranted := hscratch v hv
    rw [hname] at hgranted
    exact hgranted

end ConfigClass

namespace Run

theorem Grants.claim {s : Run} {name other : String} {v : View} (h : s.Grants other v)
    (hfree : s.superclassOwners.contains name = false) (owner : String) :
    Grants { s with superclassOwners := s.superclassOwners.insert name owner } other v :=
  h.imp_right fun h => h.imp_right fun h => OrderedMap.get?_insert_of_free h hfree owner

/-- Only the claims of the class that is withdrawn are released. -/
theorem Grants.withdraw {s : Run} {name other : String} {v : View} (h : s.Grants other v)
    (hne : other ≠ name) : (s.withdraw name).Grants other v := by
  refine h.imp_right fun h => h.imp_right fun h => ?_
  exact OrderedMap.get?_filter h (by simpa using hne)

namespace IsRightful

variable {K : Scope} {s t : Run}

/-- A step that neither commits nor claims. -/
theorem of_eq (h : s.IsRightful K) (classes : t.classes = s.classes)
    (owners : t.superclassOwners = s.superclassOwners) : t.IsRightful K := by
  refine ⟨?_, ?_, ?_⟩
  · rw [Keyed, classes]
    exact h.keyed
  · rw [classes]
    exact h.nodup
  · rw [classes]
    refine fun e he => (h.classes e he).mono fun v hv => ?_
    rw [Grants, owners]
    exact hv

theorem claim (h : s.IsRightful K) {name owner : String}
    (hfree : s.superclassOwners.contains name = false) :
    IsRightful { s with superclassOwners := s.superclassOwners.insert name owner } K :=
  ⟨h.keyed, h.nodup, fun e he => (h.classes e he).mono fun _ hv => hv.claim hfree owner⟩

theorem withdraw (h : s.IsRightful K) (name : String) : (s.withdraw name).IsRightful K := by
  refine ⟨h.keyed.withdraw name, (OrderedMap.keys_erase_sublist _ _).nodup h.nodup, ?_⟩
  intro e he
  have hmem : e ∈ s.classes.entries := List.eraseP_sublist.subset he
  have hne : e.2.name ≠ name := by
    rw [h.keyed e hmem]
    exact OrderedMap.ne_of_mem_erase h.nodup he
  exact (h.classes e hmem).mono fun _ hv => hv.withdraw hne

theorem enrolls (h : s.IsRightful K) {c : ConfigClass} (hst : s.Enrolls c t) :
    t.IsRightful K := by
  obtain ⟨_, rfl⟩ | ⟨_, _, rfl⟩ := hst
  · exact h
  · exact h.withdraw _

theorem commit (h : s.IsRightful K) {c : ConfigClass} (hc : c.IsRightful K s) :
    (s.commit c).IsRightful K := by
  refine ⟨h.keyed.commit c, OrderedMap.nodup_keys_insert h.nodup _ _, fun e he => ?_⟩
  obtain he | rfl := OrderedMap.mem_of_mem_put he
  · exact h.classes e he
  · exact hc

theorem absorb (h : s.IsRightful K) {scratch : ConfigClass} (hscratch : scratch.IsRightful K s)
    {name : String} (hname : scratch.name = name) :
    IsRightful { s with classes := s.classes.modify name (·.absorb scratch) } K := by
  rw [OrderedMap.modify]
  cases hpresent : s.classes.get? name with
  | none => exact h
  | some present =>
    have hkey := h.keyed.name_eq hpresent
    have hrecord : present.IsRightful K s :=
      h.classes _ (OrderedMap.mem_entries_of_get? hpresent)
    have habsorbed := hrecord.absorb hscratch (hname.trans hkey.symm)
    have hcommit := h.commit habsorbed
    rw [Run.commit, show (present.absorb scratch).name = name from hkey] at hcommit
    exact hcommit

end IsRightful
end Run

/-! ## Moves without scans -/

section Moves

variable {w : World} {K : Scope} {p : Part} {s t : Collecting}

theorem Moves.keepsRightful (h : Moves w K p s t) (hscans : ¬ K.Scans w) (hp : p ≠ .entries)
    {c : ConfigClass} (hc : c.IsRightful K s.run) : c.IsRightful K t.run :=
  hc.mono fun _ hv => h.grants hscans hp hv

/-- The record that is being collected takes only what is its own. -/
theorem Moves.isRightful_record (h : Moves w K p s t) (hscans : ¬ K.Scans w) (hp : p ≠ .entries)
    (hs : s.record.IsRightful K s.run) : t.record.IsRightful K t.run := by
  induction h with
  | refl _ => exact hs
  | trans _ _ ih ih' => exact ih' hp (ih hp hs)
  | @aside p s run h => exact Moves.keepsRightful (s := s) (.aside h) hscans hp hs
  | report _ _ _ => exact hs
  | scan hscan _ _ _ _ => exact absurd hscan hscans
  | register _ _ _ _ _ ih => exact ih hp hs
  | imported _ _ _ ih => exact ih hp hs
  | claim _ _ hfree _ _ _ ih => exact ih hp (hs.mono fun _ hv => hv.claim hfree _)
  | enqueue _ _ _ => exact hs
  | stacked _ _ ih => exact ih (by simp) hs
  | nested _ ih => exact ih hp hs
  | merge _ _ _ _ => exact hs
  | @visit p s t c f run hview hf hnew hdue hrun hmoves hsource _ =>
    have hwhole : Moves w K p s _ := .visit hview hf hnew hdue hrun hmoves hsource
    exact hwhole.keepsRightful hscans hp hs
  | gather h => exact h.isRightful hs
  | collect hread hgrants _ _ => exact hs.gained hread (hgrants hscans) _
  | @absorb p s t c name hselects hnew hname hmoves _ =>
    have hwhole : Moves w K p s _ := .absorb hselects hnew hname hmoves
    exact hwhole.keepsRightful hscans hp hs

theorem Moves.isRightful (h : Moves w K p s t) (hscans : ¬ K.Scans w)
    (hs : s.run.IsRightful K) : t.run.IsRightful K := by
  induction h with
  | refl _ => exact hs
  | trans _ _ ih ih' => exact ih' (ih hs)
  | aside h => exact hs.of_eq h.classes h.superclassOwners
  | report _ _ _ => exact hs.of_eq rfl rfl
  | scan hscan _ _ _ _ => exact absurd hscan hscans
  | register _ _ _ _ _ ih => exact ih (hs.of_eq rfl rfl)
  | imported _ _ _ ih => exact ih (hs.of_eq rfl rfl)
  | claim _ _ hfree _ _ _ ih => exact ih (hs.claim hfree)
  | enqueue _ _ _ => exact hs.of_eq rfl rfl
  | stacked _ _ ih => exact (ih (hs.of_eq rfl rfl)).of_eq rfl rfl
  | nested _ ih => exact (ih (hs.of_eq rfl rfl)).of_eq rfl rfl
  | merge hpresent _ _ _ =>
    have hrecord := hs.classes _ (OrderedMap.mem_entries_of_get? hpresent)
    exact hs.commit hrecord
  | @visit p s t c f run _ _ hnew _ hrun hmoves _ ih =>
    have hrecord : t.record.IsRightful K t.run :=
      hmoves.isRightful_record hscans (by simp) (hnew.isRightful K _)
    have hclosed : (RunM.close t.run).IsRightful K :=
      (ih ((hs.enrolls hrun).of_eq rfl rfl)).of_eq rfl rfl
    exact hclosed.commit hrecord
  | gather _ => exact hs
  | collect _ _ _ _ => exact hs
  | @absorb p s t c name _ hnew hname hmoves ih =>
    have hrecord : t.record.IsRightful K t.run :=
      hmoves.isRightful_record hscans (by simp) (hnew.isRightful K _)
    refine (ih hs).absorb hrecord ?_
    rw [hmoves.continues.name]
    obtain hname | ⟨present, hpresent, rfl⟩ := hname
    · exact hname
    · have hkey := hs.keyed.name_eq hpresent
      exact hkey

end Moves

/-! ## Who declares what a class brings -/

namespace World

/-- The metadata that a run from the seeds can come to. -/
def infosFrom (w : World) (seeds : List NamedDefinition) : List ClassInfo :=
  seeds.filterMap (fun seed =>
    (w.resolver.ofDefinition seed.definition seed.beanName).toOption.map (·.info)) ++
    w.resolver.infos

theorem mem_infosFrom {w : World} {seeds : List NamedDefinition} {seed : NamedDefinition}
    {v : View} (hseed : seed ∈ seeds)
    (hv : w.resolver.ofDefinition seed.definition seed.beanName = .ok v) :
    v.info ∈ w.infosFrom seeds := by
  refine List.mem_append_left _ (List.mem_filterMap.2 ⟨seed, hseed, ?_⟩)
  rw [hv]
  rfl

end World

namespace Resolver

variable {r : Resolver} {cs : List ClassInfo} {v : View}

theorem declaringClass_eq (hmethods : ∀ c ∈ cs, ∀ m ∈ c.methods, m.declaringClass = c.name)
    (hv : v.IsBare ∨ v.info ∈ cs) {m : Method} (hm : m ∈ r.beanMethods v) :
    m.declaringClass = v.name := by
  have hmem : m ∈ v.info.methods := (List.mem_filter.1 (r.beanMethods_subset v hm)).1
  obtain hbare | hv := hv
  · rw [hbare] at hmem
    cases hmem
  · exact hmethods _ hv m hmem

/-- What a class brings is declared by the class itself or by an interface. -/
theorem declaringClass_of_brings (hinfos : r.infos ⊆ cs)
    (hmethods : ∀ c ∈ cs, ∀ m ∈ c.methods, m.declaringClass = c.name)
    (hv : v.IsBare ∨ v.info ∈ cs) {k : MethodKey} (h : r.Brings v k) :
    k.1 = v.name ∨ ∃ c ∈ cs, k.1 ∈ c.interfaces := by
  have hrelated {y i : View} {name : String} (hi : r.related y name = .ok i) :
      i.IsBare ∨ i.info ∈ cs := (knows_related hi).symm.imp_right fun hi => hinfos hi
  obtain ⟨ms, hms, m, hm, rfl⟩ := h
  obtain ⟨x, hx, rfl⟩ := exceptMap_eq_ok.1 hms
  obtain hm | hm := List.mem_append.1 hm
  · exact .inl (declaringClass_eq hmethods hv hm)
  · obtain ⟨y, i, name, hy, hname, hi, hm⟩ :=
      mem_of_interfaceMethods (fun _ _ hi => hrelated hi) hx hv hm
    right
    obtain hbare | hy := hy
    · rw [hbare] at hname
      cases hname
    refine ⟨y.info, hy, ?_⟩
    cases hexcluded : r.filter.excludes name with
    | true =>
      rw [related_of_excludes hexcluded hi] at hm
      cases r.beanMethods_subset .object hm
    | false =>
      have hdeclared : m.declaringClass = name :=
        (declaringClass_eq hmethods (hrelated hi) hm).trans (name_related hexcluded hi)
      rw [show m.key.1 = name from hdeclared]
      exact hname

end Resolver

/-! ## One class at most -/

namespace Run

/-- The committed record of the class holds a bean method that `source` declares. -/
def HoldsMethodOf (s : Run) (name source : String) : Prop :=
  ∃ c, s.classes.get? name = some c ∧ ∃ k ∈ c.beanMethods.keys, k.1 = source

variable {w : World} {seeds : List NamedDefinition} {environment : Environment}
  {registry : Registry} {t : Run}

/-- Without scans a successful call commits only what has been collected from what was its own. -/
theorem parse_isRightful (hscans : ∀ c ∈ w.infosFrom seeds,
      w.resolver.repeatable c WellKnown.componentScan WellKnown.componentScans = [])
    (h : parse w seeds (fresh environment registry) = .ok () t) :
    t.IsRightful (.over (w.infosFrom seeds)) := by
  have hscansNot : ¬ (Scope.over (w.infosFrom seeds)).Scans w := by
    rintro ⟨c, v, hread, hdeclared⟩
    obtain hbare | ⟨hv, _⟩ := hread
    · exact hdeclared (Resolver.repeatable_of_untagged (by rw [hbare]) _ _)
    · exact hdeclared (hscans _ hv)
  have hadmits : w.Admits (.over (w.infosFrom seeds)) :=
    World.admits_over (List.subset_append_right _ _)
      fun hc hdeclared _ _ _ => absurd (hscans _ hc) hdeclared
  obtain ⟨u, v, _, hu, hv, rfl⟩ :=
    parse_moves hadmits (.explicit .object none) rfl
      (fun seed hseed u hu => .inl (World.mem_infosFrom hseed hu)) h
  have hseeds := hu.isRightful hscansNot (isRightful_fresh _ environment registry)
  exact (hv.isRightful hscansNot (hseeds.of_eq rfl rfl)).of_eq rfl rfl

/-- A superclass that is not a configuration class itself contributes to one class at most. -/
theorem contributes_to_one (hscans : ∀ c ∈ w.infosFrom seeds,
      w.resolver.repeatable c WellKnown.componentScan WellKnown.componentScans = [])
    (hmethods : ∀ c ∈ w.infosFrom seeds, ∀ m ∈ c.methods, m.declaringClass = c.name)
    (h : parse w seeds (fresh environment registry) = .ok () t) {source : String}
    (hcommitted : ¬ t.Committed source)
    (hinterface : ∀ c ∈ w.infosFrom seeds, source ∉ c.interfaces) :
    {name | t.HoldsMethodOf name source}.Subsingleton := by
  have hrightful := parse_isRightful hscans h
  -- who holds a method of the superclass has claimed it, and a claim has one owner
  have howner : ∀ name, t.HoldsMethodOf name source →
      t.superclassOwners.get? source = some name := by
    rintro name ⟨c, hc, k, hk, rfl⟩
    have hentry := OrderedMap.mem_entries_of_get? hc
    obtain ⟨v, hv, hbrings⟩ := (((parse_accounted h).classes _ hentry).methods k).1 hk
    obtain ⟨⟨d, hread⟩, hgrants⟩ := hrightful.classes _ hentry v hv
    have hname : c.name = name := hrightful.keyed.name_eq hc
    have hdeclares := Resolver.declaringClass_of_brings (List.subset_append_right _ _) hmethods
      (hread.imp_right And.left) hbrings
    have hsource : k.1 = v.name := hdeclares.resolve_right fun ⟨c, hc, hmem⟩ =>
      hinterface c hc hmem
    -- the record was collected from the empty view, the class itself or a claimed superclass
    obtain rfl | hown | hclaimed := hgrants
    · obtain ⟨ms, hms, m, hm, _⟩ := hbrings
      obtain rfl := Except.ok.inj (w.resolver.allMethods_object.symm.trans hms)
      cases hm
    · rw [hsource, show v.name = name from hown.trans hname] at hcommitted
      exact absurd (committed_of_get? hc) hcommitted
    · rw [hsource, ← hname]
      exact hclaimed
  intro name hname other hother
  exact Option.some.inj ((howner name hname).symm.trans (howner other hother))

end Run

/-- Two classes with one superclass that import each other. -/
def siblings : World where
  resolver := { reader := { index := ⟨[
    { name := "app.A", superClass := some "app.S", tags := [.importing ["app.B"]] },
    { name := "app.B", superClass := some "app.S", tags := [.importing ["app.A"]] },
    { name := "app.S", methods := [
      { name := "s", declaringClass := "app.S", tags := [.mk WellKnown.bean []] }] }]⟩ } }

set_option maxRecDepth 100000 in
/-- However often the siblings are registered, only one of them has the method. -/
theorem contributes_to_one_siblings :
    ∃ t, Run.parse siblings (seedsOf ["app.A", "app.B", "app.A"]) (Run.fresh {} {}) = .ok () t ∧
      t.Committed "app.B" ∧ t.HoldsMethodOf "app.A" "app.S" ∧
      {name | t.HoldsMethodOf name "app.S"}.Subsingleton := by
  have hinfos : (siblings.infosFrom (seedsOf ["app.A", "app.B", "app.A"])).all (fun c =>
      (siblings.resolver.repeatable c WellKnown.componentScan WellKnown.componentScans).isEmpty &&
        c.methods.all (fun m => decide (m.declaringClass = c.name)) &&
        decide ("app.S" ∉ c.interfaces)) = true := by
    decide +kernel
  simp only [List.all_eq_true, Bool.and_eq_true, List.isEmpty_iff, decide_eq_true_eq] at hinfos
  have hcheck : succeedsWith (fun t : Run =>
      decide (t.classes.keys = ["app.B", "app.A"]) &&
        (t.classes.get? "app.A").any (·.beanMethods.keys.any (·.1 == "app.S")))
      (Run.parse siblings (seedsOf ["app.A", "app.B", "app.A"]) (Run.fresh {} {})) = true := by
    decide +kernel
  obtain ⟨t, hparse, ht⟩ := exists_of_succeedsWith hcheck
  simp only [Bool.and_eq_true, decide_eq_true_eq, Option.any_eq_true, List.any_eq_true,
    beq_iff_eq] at ht
  obtain ⟨hkeys, hholds⟩ := ht
  have hcommitted (name : String) : t.Committed name ↔ name ∈ ["app.B", "app.A"] := by
    rw [Run.Committed, OrderedMap.contains_iff, hkeys]
  refine ⟨t, hparse, (hcommitted _).2 (by decide), hholds, ?_⟩
  exact Run.contributes_to_one (fun c hc => (hinfos c hc).1.1) (fun c hc => (hinfos c hc).1.2)
    hparse (by rw [hcommitted]; decide) (fun c hc => (hinfos c hc).2)

end Wiring
