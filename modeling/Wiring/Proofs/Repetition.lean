import Wiring.Proofs.Comparison.Runs
import Wiring.Proofs.Mirroring.Twins

/-!
# Repeated seeds

A seed that is registered again is processed again, against what has been committed meanwhile.  The
classes that it leads to are there already, so the second pass only merges what the first one has
merged, and the superclasses that it released are there to be claimed again.  What is put off goes
wrong: the deferred selectors of both passes wait, and both bring their registrars.
-/

namespace Wiring

/-- The second run collects the class of that name again, after the first one has come to `u`.  It
has what `u` has, apart from what the class claimed and has not come to again yet. -/
structure Run.Repeats (u : Run) (name : String) (s s' : Run) : Prop where
  absent : ¬ s.Committed name
  classes : ∀ other, other ≠ name → s'.classes.get? other = u.classes.get? other
  owners : ∀ source owner, s'.superclassOwners.get? source = some owner ↔
    (owner ≠ name ∧ u.superclassOwners.get? source = some owner) ∨
      (owner = name ∧ s.superclassOwners.get? source = some name)

namespace Run.Repeats

variable {u s s' : Run} {name source : String}

theorem claimed (h : u.Repeats name s s') (hu : s.Remains u)
    (hclaimed : s.superclassOwners.contains source = true) :
    s'.superclassOwners.contains source = true := by
  obtain ⟨owner, howner⟩ := Option.isSome_iff_exists.1 hclaimed
  rw [OrderedMap.contains, Option.isSome_iff_exists]
  refine ⟨owner, (h.owners source owner).2 ?_⟩
  by_cases hname : owner = name
  · exact .inr ⟨hname, hname ▸ howner⟩
  · exact .inl ⟨hname, hu.owners howner⟩

/-- What the class claims for the first time in the first run is free in the second one as well. -/
theorem claiming (h : u.Repeats name s s') (hu : (s.claiming source name).Remains u)
    (hfree : s.superclassOwners.contains source = false) :
    s'.superclassOwners.contains source = false ∧
      u.Repeats name (s.claiming source name) (s'.claiming source name) := by
  have hclaimed : u.superclassOwners.get? source = some name :=
    hu.owners (OrderedMap.get?_insert_self _ _ _)
  have hnone : s.superclassOwners.get? source = none := by
    rw [OrderedMap.contains, Option.isSome_eq_false_iff, Option.isNone_iff_eq_none] at hfree
    exact hfree
  refine ⟨?_, h.absent, h.classes, fun other owner => ?_⟩
  · rw [OrderedMap.contains, Option.isSome_eq_false_iff, Option.isNone_iff_eq_none,
      Option.eq_none_iff_forall_ne_some]
    intro owner howner
    rcases (h.owners source owner).1 howner with ⟨hne, howner⟩ | ⟨_, howner⟩
    · exact hne (Option.some.inj (howner.symm.trans hclaimed))
    · rw [hnone] at howner
      cases howner
  · rw [Run.claiming, Run.claiming]
    by_cases hsource : source = other
    · subst hsource
      rw [OrderedMap.get?_insert_self, OrderedMap.get?_insert_self, hclaimed]
      constructor
      · intro howner
        exact .inr ⟨(Option.some.inj howner).symm, rfl⟩
      · rintro (⟨hne, howner⟩ | ⟨rfl, _⟩)
        · exact absurd (Option.some.inj howner).symm hne
        · rfl
    · rw [OrderedMap.get?_insert_of_ne _ hsource, OrderedMap.get?_insert_of_ne _ hsource]
      exact h.owners other owner

end Run.Repeats

/-- The second run mirrors what has led the first one to `u`. -/
def Mirror.repeating (u : Run) (env : Environment) (registry : Registry) (name : String) :
    Mirror where
  name := name
  environment := env
  registry := registry
  Ahead s := s.Remains u
  Links := u.Repeats name
  ahead_of_remains h hu := h.trans hu
  links_of_eq {s s' t t'} h classes owners classes' owners' := by
    refine ⟨?_, fun other hother => ?_, fun source owner => ?_⟩
    · rw [Run.Committed, classes]
      exact h.absent
    · rw [classes', h.classes other hother]
    · rw [owners', owners]
      exact h.owners source owner
  links_claimed h hu := h.claimed hu
  links_claiming h hu := h.claiming hu

/-- A record that has the importer already is left as it is. -/
theorem ConfigClass.mergeImporters_imported {c importer : ConfigClass} (v : View)
    (h : importer.name ∈ c.importedBy.keys) : c.mergeImporters (.imported v importer) = c := by
  have hsame : c.importedBy.insertIfNew importer.name importer.info = c.importedBy := by
    rw [OrderedMap.insertIfNew, if_pos (OrderedMap.contains_iff.2 h)]
  exact congrArg (fun m => { c with importedBy := m }) hsame

theorem OrderedMap.get?_insert_of_get? {α β : Type} [DecidableEq α] {m : OrderedMap α β} {k : α}
    {b : β} (h : m.get? k = some b) (k' : α) : (m.insert k b).get? k' = m.get? k' := by
  by_cases hk : k = k'
  · rw [← hk, get?_insert_self, h]
  · exact get?_insert_of_ne m hk b

namespace Run

variable {w : World} {cs : List ClassInfo} {env : Environment} {registry : Registry} {s t u : Run}

/-- A class that is committed with the importer is entered for it again in vain. -/
theorem enter_imported_again (deeper : Steps) (f : NameFilter) {record : ConfigClass} {v : View}
    (hv : w.NeverSkips v.info) (hs : s.IsSteady env registry) (h : s.Notes v.name record.name) :
    ∃ t, Step.enter w deeper (.imported v record) f s = .ok () t ∧ IsTwin env registry s t := by
  obtain ⟨present, hpresent, hkeys⟩ := h
  refine ⟨_, (Step.enter_eq_ok_iff hv).2 (.inr ⟨rfl, present, hpresent, rfl⟩), ?_⟩
  split
  · rename_i himported
    rw [ConfigClass.mergeImporters_imported v (hkeys himported)]
    have hname : present.name = v.name := hs.keyed.name_eq hpresent
    refine ⟨⟨?_, fun _ => rfl⟩, rfl, rfl, hs.commit present⟩
    exact OrderedMap.get?_insert_of_get? (hname ▸ hpresent)
  · exact ⟨⟨fun _ => rfl, fun _ => rfl⟩, rfl, rfl, hs⟩

/-- A class that the record leads to in the first run is there in the second one, with the record
among its importers. -/
theorem enterImported_repeating (hw : w.IsPrompt cs env) (hu : NeverReopens u.history) (fuel : Nat)
    {name : String} {record current : ConfigClass} {v : View} {f : NameFilter}
    (hrecord : record.name = name) (hv : v.IsAmong cs) :
    (Mirror.repeating u env registry name).Mirrored (Collecting.mk current)
      (Step.enterImported (steps w fuel) f record v) s := by
  intro hs _ t h
  have htwin : (Mirror.twin env registry name).Mirrored (Collecting.mk current)
      (Step.enterImported (steps w fuel) f record v) s :=
    (mirrored_twin hw fuel name).enter hrecord hv
  obtain ⟨ht, hadvances, _, _⟩ := htwin ⟨hs.name, hs.steady, hs.stacked, hs.isOpen⟩ () t h
  refine ⟨⟨ht.name, ht.steady, ht.stacked, ht.isOpen⟩, hadvances, trivial, fun hahead s' hrel => ?_⟩
  cases fuel with
  | zero =>
    replace h := modify_bind_eq.1 h
    exact absurd h throw_ne_ok
  | succ fuel =>
    replace h : Step.enter w (steps w fuel) (.imported v record) f
        (s.importing v.name record.name) = .ok () t := modify_bind_eq.1 h
    have hsteady : (s.importing v.name record.name).IsSteady env registry :=
      hs.steady.of_eq rfl rfl rfl rfl rfl
    have hstacked : (s.importing v.name record.name).IsStacked := fun c hc => hs.stacked c hc
    have hreceived := (Step.enter_twin (mirrored_twin hw fuel) hw (c := .imported v record) hv
      hsteady hstacked h).1
    have hlinks : u.Repeats name s s' := hrel.links
    have hfinal : NeverReopens t.history := hu.of_suffix hahead.history
    -- the record's class is still being processed, so it is neither committed nor opened meanwhile
    have habsent : ¬ t.Committed name := by
      intro hcommitted
      rcases hadvances.commits hcommitted with hcommitted | ⟨_, hopens⟩
      · exact hlinks.absent hcommitted
      · exact hfinal.not_opens hadvances.balanced hs.isOpen hopens
    have hnotes : t.Notes v.name record.name := hreceived.notes record.name List.mem_cons_self
    have hne : v.name ≠ name := by
      rintro rfl
      exact habsent hnotes.committed
    -- and as only its own processing claims for it, nothing is claimed for it meanwhile
    have hclaims {source : String} :
        t.superclassOwners.get? source = some name ↔
          s.superclassOwners.get? source = some name := by
      refine ⟨fun howner => ?_, hadvances.owners⟩
      have hinner := hreceived.advances rfl (.imported v record)
      rcases hinner.claims howner with howner | hsame | ⟨_, hopens⟩
      · exact howner
      · exact absurd hsame.symm hne
      · exact absurd hopens (hfinal.not_opens hinner.balanced hs.isOpen)
    have hagain : (s'.importing v.name record.name).Notes v.name record.name :=
      (notes_congr (hlinks.classes v.name hne)).2 (hahead.notes hnotes)
    have hsteady' : (s'.importing v.name record.name).IsSteady env registry :=
      hrel.steady.of_eq rfl rfl rfl rfl rfl
    obtain ⟨t', ht', htwin⟩ := enter_imported_again (steps w fuel) f
      (hw.neverSkips_of_isAmong hv) hsteady' hagain
    refine ⟨t', modify_bind_eq.2 ht', rfl,
      ⟨habsent, fun other hother => ?_, fun source owner => ?_⟩, ?_, ?_, htwin.steady⟩
    · exact (htwin.classes other).trans (hlinks.classes other hother)
    · rw [htwin.owners, hclaims]
      exact hlinks.owners source owner
    · exact htwin.stack.trans (hrel.stack.trans hadvances.stack.symm)
    · exact htwin.depth.trans (hrel.depth.trans hadvances.depth.symm)

theorem mirrored_repeating (hw : w.IsPrompt cs env) (hu : NeverReopens u.history) (fuel : Nat)
    (name : String) : (steps w fuel).Mirrored (.repeating u env registry name) w cs := by
  induction fuel with
  | zero =>
    refine ⟨fun hrecord hv => enterImported_repeating hw hu 0 hrecord hv, fun _ _ => .throw,
      fun _ _ => .throw⟩
  | succ fuel ih =>
    constructor
    · exact fun hrecord hv => enterImported_repeating hw hu (fuel + 1) hrecord hv
    · exact fun hv hapart => Step.climb_mirrored ih hw hv hapart
    · exact fun hus hapart => Step.imports_mirrored ih hw hus hapart

/-! ## The second pass -/

/-- Superclasses belong to committed classes. -/
def OwnersCommitted (s : Run) : Prop :=
  ∀ source owner, s.superclassOwners.get? source = some owner → s.Committed owner

theorem Enrolls.not_committed {c : ConfigClass} (h : s.Enrolls c t) (hs : s.classes.keys.Nodup) :
    ¬ t.Committed c.name := by
  rcases h with ⟨habsent, rfl⟩ | ⟨_, _, rfl⟩
  · exact habsent
  · rw [Committed, OrderedMap.contains,
      show (s.withdraw c.name).classes.get? c.name = none from OrderedMap.get?_erase_self hs c.name]
    exact Bool.false_ne_true

theorem Enrolls.unclaimed {c : ConfigClass} (h : s.Enrolls c t)
    (hs : s.superclassOwners.keys.Nodup) (howners : s.OwnersCommitted) (source : String) :
    t.superclassOwners.get? source ≠ some c.name := by
  rcases h with ⟨habsent, rfl⟩ | ⟨_, _, rfl⟩
  · exact fun howner => habsent (howners source c.name howner)
  · rw [owners_withdraw hs]
    intro howner
    obtain ⟨_, hne⟩ := Option.filter_eq_some_iff.1 howner
    exact (of_decide_eq_true hne) rfl

/-- The second pass begins with what the first one has come to, without the class itself. -/
theorem Repeats.withdraw {name : String} (hu : u.superclassOwners.keys.Nodup)
    (habsent : ¬ s.Committed name)
    (hunclaimed : ∀ source, s.superclassOwners.get? source ≠ some name) :
    u.Repeats name s (u.withdraw name) where
  absent := habsent
  classes other hother := OrderedMap.get?_erase_of_ne _ hother.symm
  owners source owner := by
    rw [owners_withdraw hu, Option.filter_eq_some_iff, decide_eq_true_eq]
    constructor
    · rintro ⟨howner, hne⟩
      exact .inl ⟨hne, howner⟩
    · rintro (⟨hne, howner⟩ | ⟨_, howner⟩)
      · exact ⟨howner, hne⟩
      · exact absurd howner (hunclaimed source)

/-- When the record has been collected again and is committed, all is as before. -/
theorem Repeats.commit {record : ConfigClass} {s' : Run}
    (h : (s.commit record).Repeats record.name s s') :
    (s.commit record).Agrees (s'.commit record) where
  classes other := by
    by_cases hother : record.name = other
    · subst hother
      exact (OrderedMap.get?_insert_self _ _ _).trans (OrderedMap.get?_insert_self _ _ _).symm
    · exact (OrderedMap.get?_insert_of_ne _ hother _).trans (h.classes other (Ne.symm hother))
  owners source := by
    refine Option.ext fun owner => (h.owners source owner).trans ?_
    show _ ↔ s.superclassOwners.get? source = some owner
    constructor
    · rintro (⟨_, howner⟩ | ⟨rfl, howner⟩)
      · exact howner
      · exact howner
    · intro howner
      by_cases hname : owner = record.name
      · exact .inr ⟨hname, hname ▸ howner⟩
      · exact .inl ⟨hname, howner⟩

/-- An explicit class that has been entered can be entered again at once, and nothing changes. -/
theorem enter_explicit_again (hw : w.IsPrompt cs env) {fuel : Nat} {c : ConfigClass}
    {f : NameFilter} (hc : c.view.IsAmong cs) (hexplicit : c.isImported = false)
    (hs : s.IsSteady env registry) (hstacked : s.IsStacked) (howners : s.OwnersCommitted)
    (h : Step.enter w (steps w fuel) c f s = .ok () t) (ht : NeverReopens t.history) :
    ∃ t', Step.enter w (steps w fuel) c f t = .ok () t' ∧ IsTwin env registry t t' := by
  have hskips := hw.neverSkips_of_isAmong hc
  rcases (Step.enter_eq_ok_iff hskips).1 h with ⟨run, record, u, hroom, hdepth, hclimb, htu⟩ |
    ⟨himported, _⟩
  swap
  · rw [himported] at hexplicit
    cases hexplicit
  have hrun : run.IsSteady env registry := hs.enrolls hroom
  obtain ⟨hstack, hlevel, hhistory, _, _⟩ := hroom.continues
  have hrunStacked : run.IsStacked := hstacked.of_eq hstack hhistory
  obtain ⟨hu, hadvances, _, hsecond⟩ :=
    (mirrored_repeating hw ht fuel c.name).climb (View.isAmong_filtered hc f)
      (Step.apart_opening rfl hrunStacked fun hahead => ht.of_suffix hahead.history)
      (Step.holds_opening rfl hrun hrunStacked) () _ hclimb
  have hname : record.name = c.name := hadvances.name
  have hreturns : s.Returns t := htu ▸ hadvances.returns hroom
  have hsteady : t.IsSteady env registry := by
    have hclosed : (RunM.close u).IsSteady env registry :=
      IsSteady.of_eq (s := u) hu.steady rfl rfl rfl rfl rfl
    exact htu ▸ hclosed.commit record
  have habsent : ¬ run.Committed c.name := hroom.not_committed hs.classes
  have hahead : u.Remains t := by
    subst htu
    refine ⟨List.suffix_cons _ _, fun howner => howner, fun {name importer} hnotes => ?_⟩
    have hne : name ≠ record.name := by
      rintro rfl
      rcases hadvances.commits (hname ▸ hnotes.committed) with hcommitted | ⟨_, hopens⟩
      · exact habsent hcommitted
      · exact NeverReopens.not_opens (b := u.history) ht hadvances.balanced
          (isOpen_opened.2 (.inl rfl)) hopens
    exact (notes_commit_of_ne (s := RunM.close u) hne).2 hnotes
  -- the second pass begins where the first one has ended, without the class
  have hlinks : t.Repeats c.name run (t.withdraw c.name) :=
    .withdraw hsteady.owners habsent (hroom.unclaimed hs.owners howners)
  obtain ⟨⟨record', u'⟩, hclimb', hmatches⟩ := hsecond hahead ⟨c, (t.withdraw c.name).opening c⟩
    ⟨rfl, ⟨hlinks.absent, hlinks.classes, hlinks.owners⟩, hreturns.stack.trans hstack.symm,
      congrArg (· + 1) (hreturns.depth.trans hlevel.symm),
      (hsteady.withdraw c.name).of_eq rfl rfl rfl rfl rfl⟩
  obtain rfl : record' = record := hmatches.record
  have hcommitted : t.Committed c.name := by
    rw [← htu]
    exact committed_commit.2 (.inl hname.symm)
  refine ⟨(RunM.close u').commit record', (Step.enter_eq_ok_iff hskips).2 (.inl
    ⟨t.withdraw c.name, record', u', .inr ⟨hcommitted, hexplicit, rfl⟩, ?_, hclimb', rfl⟩), ?_⟩
  · show t.depth < w.maxDepth
    rw [hreturns.depth, ← hlevel]
    exact hdepth
  · subst htu
    have hend : ((RunM.close u).commit record').Repeats record'.name (RunM.close u)
        (RunM.close u') :=
      hname ▸ ⟨hmatches.links.absent, hmatches.links.classes, hmatches.links.owners⟩
    have hclosed : (RunM.close u').IsSteady env registry :=
      hmatches.steady.of_eq rfl rfl rfl rfl rfl
    exact ⟨hend.commit, hmatches.stack, congrArg (· - 1) hmatches.depth, hclosed.commit record'⟩

theorem parseSeed_again (hw : w.IsPrompt cs env) {seed : NamedDefinition}
    (hseed : ∀ v, w.resolver.ofDefinition seed.definition seed.beanName = .ok v → v.info ∈ cs)
    (hs : s.IsSteady env registry) (hstacked : s.IsStacked) (howners : s.OwnersCommitted)
    (h : parseSeed w seed s = .ok () t) (ht : NeverReopens t.history) :
    ∃ t', parseSeed w seed t = .ok () t' ∧ IsTwin env registry t t' := by
  obtain ⟨hnamed, v, fuel, hv, hfuel, h⟩ := parseSeed_eq_ok_iff.1 h
  obtain ⟨t', ht', htwin⟩ := enter_explicit_again (c := .explicit v (some seed.beanName)) hw
    (.inr (hseed v hv)) rfl hs hstacked howners h ht
  exact ⟨t', parseSeed_eq_ok_iff.2 ⟨hnamed, v, fuel, hv, hfuel, ht'⟩, htwin⟩

/-! ## After a call -/

theorem isSteady_fresh (env : Environment) (registry : Registry) :
    (fresh env registry).IsSteady env registry :=
  ⟨rfl, rfl, rfl, fun _ he => (by cases he), .nil, .nil⟩

theorem ownersCommitted_of_parseSeeds {seeds : List NamedDefinition}
    (h : parseSeeds w seeds (fresh env registry) = .ok () s) : s.OwnersCommitted := by
  have hmoves : Moves w .anything .entries ⟨.explicit .object none, fresh env registry⟩
      ⟨.explicit .object none, s⟩ := parseSeeds_moves w.admits_anything (fun _ _ _ _ => trivial) h
  intro source owner howner
  obtain ⟨isImported, hopened⟩ := (hmoves.accounted (accounted_fresh w env registry)).owners _
    (OrderedMap.mem_entries_of_get? howner)
  exact (hmoves.tracks (idle_fresh env registry).keyed).opened owner isImported
    (opens_of_mem hopened)

/-- A seed that is registered twice in a row comes to the same as one that is registered once, where
nothing is skipped, scanned for, put off or added to the environment, and no class is opened while
it is still being processed. -/
theorem repeated_seed_changes_nothing (pre post : List NamedDefinition) (seed : NamedDefinition)
    (hw : w.IsPrompt (w.infosFrom (pre ++ seed :: post)) env)
    (h : parse w (pre ++ seed :: post) (fresh env registry) = .ok () t)
    (ht : NeverReopens t.history) :
    ∃ t', parse w (pre ++ seed :: seed :: post) (fresh env registry) = .ok () t' ∧
      ∀ name, t'.classes.get? name = t.classes.get? name := by
  have hseeds : ∀ d ∈ pre ++ seed :: post, ∀ v,
      w.resolver.ofDefinition d.definition d.beanName = .ok v →
      v.info ∈ w.infosFrom (pre ++ seed :: post) := fun d hd v hv => World.mem_infosFrom hd hv
  have hpre := fun d hd => hseeds d (List.mem_append_left _ hd)
  have hseed := hseeds seed (List.mem_append_right _ List.mem_cons_self)
  have hpost := fun d hd => hseeds d (List.mem_append_right _ (List.mem_cons_of_mem _ hd))
  have hstacked : (fresh env registry).IsStacked := fun c hc => by cases hc
  -- the first run: before the seed, after it and at the end
  obtain ⟨_, x, hx, hresolve⟩ := bind_eq_ok.1 h
  obtain ⟨s, hs, hrest⟩ := parseSeeds_append_eq_ok.1 hx
  obtain ⟨_, u, hu, hux⟩ := bind_eq_ok.1 hrest
  obtain ⟨hs₁, hreturns₁, _⟩ := parseSeeds_twin hw hpre (isSteady_fresh env registry) hstacked hs
  obtain ⟨hu₁, hreturns₂, _⟩ := parseSeed_twin hw hseed hs₁ (hreturns₁.isStacked hstacked) hu
  obtain ⟨hx₁, hreturns₃, hlater⟩ := parseSeeds_twin hw hpost hu₁
    (hreturns₂.isStacked (hreturns₁.isStacked hstacked)) hux
  obtain rfl : x = t := by
    rw [resolveDeferred_of_empty hx₁.queue] at hresolve
    exact (EStateM.Result.ok.inj hresolve).2
  -- the second run: the seed again, and then the rest
  obtain ⟨u', hu', htwin⟩ := parseSeed_again hw hseed hs₁ (hreturns₁.isStacked hstacked)
    (ownersCommitted_of_parseSeeds hs) hu (ht.of_suffix hreturns₃.balanced.suffix)
  obtain ⟨x', hx', htwin'⟩ := hlater ht u' htwin
  have hseconds : parseSeeds w (pre ++ seed :: seed :: post) (fresh env registry) = .ok () x' :=
    parseSeeds_append_eq_ok.2 ⟨s, hs, bind_eq_ok.2 ⟨(), u, hu, bind_eq_ok.2 ⟨(), u', hu', hx'⟩⟩⟩
  refine ⟨x', bind_eq_ok.2 ⟨(), x', hseconds, ?_⟩, htwin'.classes⟩
  exact resolveDeferred_of_empty htwin'.steady.queue

end Run

/-! ## Registrars that come twice -/

/-- As much has been collected on the two records, registrars counted by who imports them. -/
structure ConfigClass.Resembles (c d : ConfigClass) : Prop where
  importedBy : d.importedBy = c.importedBy
  beanMethods : d.beanMethods = c.beanMethods
  resources : d.resources = c.resources
  registrars : ∀ importing, d.registrars.countP (·.importing.name = importing) =
    c.registrars.countP (·.importing.name = importing)

/-- The same classes are committed, with records that resemble each other. -/
structure Run.Resembles (s t : Run) : Prop where
  committed : ∀ name, t.Committed name ↔ s.Committed name
  classes : ∀ name c d, s.classes.get? name = some c → t.classes.get? name = some d →
    c.Resembles d

def registrarType (name : String) : LoadedType where
  info := { name, interfaces := [WellKnown.registrar] }
  maker := some { make := fun _ => .ok (.registrar ⟨fun _ registry => registry⟩) }

/-- A class with a superclass imports a registrar, or whatever else brings one. -/
def registering (imports : List String) (types : List LoadedType) : World where
  asksConditions := false
  resolver := {
    reader := { index := ⟨[
      { name := "app.Root", superClass := some "app.Base", tags := [.importing imports] },
      { name := "app.Base", methods := [
        { name := "base", declaringClass := "app.Base", tags := [.mk WellKnown.bean []] }] }]⟩ }
    types := ⟨registrarType "app.Registrar" :: types⟩ }

/-- Deferred selectors that have been queued in their order are resolved in it. -/
theorem succeedsWith_parse {w : World} {seeds : List NamedDefinition} {s : Run}
    {check : Run → Bool}
    (h : succeedsWith (fun s : Run => s.queue.any fun ds =>
      decide (ds.Pairwise fun a b => a.order ≤ b.order) &&
        succeedsWith check (ensuring (fun s => { s with queue := some [] })
          (Step.resolveDeferred w (Run.stepsOf w) ds) { s with queue := none }))
      (Run.parseSeeds w seeds s) = true) : succeedsWith check (Run.parse w seeds s) = true := by
  obtain ⟨t, hseeds, ht⟩ := exists_of_succeedsWith h
  rw [Option.any_eq_true] at ht
  obtain ⟨ds, hqueue, ht⟩ := ht
  rw [Bool.and_eq_true, decide_eq_true_eq] at ht
  obtain ⟨hordered, ht⟩ := ht
  have hparse : Run.parse w seeds s = Run.resolveDeferred w t := by
    show EStateM.bind (Run.parseSeeds w seeds) _ s = _
    rw [EStateM.bind, hseeds]
  rw [hparse, Run.resolveDeferred_of_open hqueue,
    List.mergeSort_of_pairwise (by simpa only [decide_eq_true_eq] using hordered)]
  exact ht

/-- What the class imports puts the registrar off. -/
def deferring : World :=
  registering ["app.Selector"] [deferredType "app.Selector" "app.Registrar" 0 none]

set_option maxRecDepth 100000 in
/-- A repeated seed may change something, also without conditions.  The deferred selectors of both
passes wait until the end, and so the class gets the registrar that they choose twice. -/
theorem not_forall_resembles :
    ¬ ∀ (w : World) (pre post : List NamedDefinition) (seed : NamedDefinition) (t t' : Run),
      w.asksConditions = false → Run.parse w (pre ++ seed :: post) (Run.fresh {} {}) = .ok () t →
      Run.parse w (pre ++ seed :: seed :: post) (Run.fresh {} {}) = .ok () t' → t.Resembles t' := by
  intro hall
  have honce : succeedsWith (fun t : Run => (t.classes.get? "app.Root").any fun c =>
      c.registrars.countP (·.importing.name = "app.Root") == 1)
      (Run.parse deferring (seedsOf ["app.Root"]) (Run.fresh {} {})) = true :=
    succeedsWith_parse (by decide +kernel)
  have htwice : succeedsWith (fun t : Run => (t.classes.get? "app.Root").any fun c =>
      c.registrars.countP (·.importing.name = "app.Root") == 2)
      (Run.parse deferring (seedsOf ["app.Root", "app.Root"]) (Run.fresh {} {})) = true :=
    succeedsWith_parse (by decide +kernel)
  obtain ⟨t, hparse, ht⟩ := exists_of_succeedsWith honce
  obtain ⟨t', hparse', ht'⟩ := exists_of_succeedsWith htwice
  rw [Option.any_eq_true] at ht ht'
  obtain ⟨c, hc, hone⟩ := ht
  obtain ⟨d, hd, htwo⟩ := ht'
  have hresembles := hall deferring [] [] ⟨"app.Root", .ofClassName "app.Root"⟩ t t' rfl hparse
    hparse'
  have hsame := (hresembles.classes _ c d hc hd).registrars "app.Root"
  rw [eq_of_beq hone, eq_of_beq htwo] at hsame
  cases hsame

/-- Nothing is put off where the registrar is imported by itself. -/
theorem isPrompt_registering (seeds : List NamedDefinition)
    (hcheck : ((registering ["app.Registrar"] []).infosFrom seeds).all (fun c =>
      ((registering ["app.Registrar"] []).resolver.repeatable c WellKnown.componentScan
          WellKnown.componentScans).isEmpty &&
        ((registering ["app.Registrar"] []).resolver.repeatable c WellKnown.propertySource
          WellKnown.propertySources).isEmpty) = true) :
    (registering ["app.Registrar"] []).IsPrompt
      ((registering ["app.Registrar"] []).infosFrom seeds) {} where
  infos := List.subset_append_right _ _
  neverSkips _ _ := .inl rfl
  noScans c hc := by
    rw [List.all_eq_true] at hcheck
    exact List.isEmpty_iff.1 (Bool.and_eq_true_iff.1 (hcheck c hc)).1
  noSources := by
    rw [List.all_eq_true] at hcheck
    exact .inr fun c hc => List.isEmpty_iff.1 (Bool.and_eq_true_iff.1 (hcheck c hc)).2
  noEffects t ht maker hmaker := by
    obtain rfl := List.mem_singleton.1 ht
    obtain rfl := Option.some.inj hmaker
    rfl
  noDeferral t ht maker hmaker around d hmade := by
    obtain rfl := List.mem_singleton.1 ht
    obtain rfl := Option.some.inj hmaker
    cases hmade

set_option maxRecDepth 100000 in
/-- Two seeds, the first of which imports a registrar. -/
theorem repeated_seed_changes_nothing_root :
    ∃ t t', Run.parse (registering ["app.Registrar"] []) (seedsOf ["app.Root", "app.Base"])
        (Run.fresh {} {}) = .ok () t ∧
      Run.parse (registering ["app.Registrar"] []) (seedsOf ["app.Root", "app.Root", "app.Base"])
        (Run.fresh {} {}) = .ok () t' ∧
      ∀ name, t'.classes.get? name = t.classes.get? name := by
  have hprompt := isPrompt_registering (seedsOf ["app.Root", "app.Base"]) (by decide +kernel)
  have hcheck : succeedsWith (fun t : Run => decide (NeverReopens t.history))
      (Run.parse (registering ["app.Registrar"] []) (seedsOf ["app.Root", "app.Base"])
        (Run.fresh {} {})) = true := by
    decide +kernel
  obtain ⟨t, hparse, ht⟩ := exists_of_succeedsWith hcheck
  obtain ⟨t', hparse', hsame⟩ := Run.repeated_seed_changes_nothing [] (seedsOf ["app.Base"])
    ⟨"app.Root", .ofClassName "app.Root"⟩ hprompt hparse (of_decide_eq_true ht)
  exact ⟨t, t', hparse, hparse', hsame⟩

end Wiring
