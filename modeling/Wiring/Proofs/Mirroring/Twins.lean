import Wiring.Proofs.Mirroring.Steps

/-!
# Twins

Two runs that have committed and claimed the same go on in the same way, in whatever order they came
to it, as long as no class is opened while it is still being processed.
-/

namespace Wiring

/-- The same is committed and claimed in the two runs. -/
structure Run.Agrees (s s' : Run) : Prop where
  classes : ∀ name, s'.classes.get? name = s.classes.get? name
  owners : ∀ source, s'.superclassOwners.get? source = s.superclassOwners.get? source

theorem OrderedMap.get?_insert_congr {α β : Type} [DecidableEq α] {m m' : OrderedMap α β}
    (h : ∀ k, m'.get? k = m.get? k) (k : α) (b : β) (k' : α) :
    (m'.insert k b).get? k' = (m.insert k b).get? k' := by
  by_cases hk : k = k'
  · subst hk
    rw [get?_insert_self, get?_insert_self]
  · rw [get?_insert_of_ne _ hk, get?_insert_of_ne _ hk, h]

namespace Run

variable {s s' t : Run} {c : ConfigClass} {env : Environment} {registry : Registry}

theorem Agrees.committed_iff (h : s.Agrees s') {name : String} :
    s'.Committed name ↔ s.Committed name := by
  rw [Committed, Committed, OrderedMap.contains, OrderedMap.contains, h.classes]

theorem Agrees.commit (h : s.Agrees s') (c : ConfigClass) : (s.commit c).Agrees (s'.commit c) where
  classes := OrderedMap.get?_insert_congr h.classes c.name c
  owners := h.owners

theorem owners_withdraw (hs : s.superclassOwners.keys.Nodup) (name source : String) :
    (s.withdraw name).superclassOwners.get? source =
      (s.superclassOwners.get? source).filter (· ≠ name) :=
  OrderedMap.get?_filter_of_nodup hs _ _

theorem Agrees.withdraw (h : s.Agrees s') (hs : s.IsSteady env registry)
    (hs' : s'.IsSteady env registry) (name : String) :
    (s.withdraw name).Agrees (s'.withdraw name) where
  classes other := by
    by_cases hother : name = other
    · subst hother
      exact (OrderedMap.get?_erase_self hs'.classes name).trans
        (OrderedMap.get?_erase_self hs.classes name).symm
    · exact (OrderedMap.get?_erase_of_ne _ hother).trans
        ((h.classes other).trans (OrderedMap.get?_erase_of_ne _ hother).symm)
  owners source := by
    rw [owners_withdraw hs.owners, owners_withdraw hs'.owners, h.owners]

/-! ## States between two steps -/

theorem IsSteady.commit (h : s.IsSteady env registry) (c : ConfigClass) :
    (s.commit c).IsSteady env registry :=
  { h with
    keyed := h.keyed.commit c
    classes := OrderedMap.nodup_keys_insert h.classes c.name c }

theorem IsSteady.withdraw (h : s.IsSteady env registry) (name : String) :
    (s.withdraw name).IsSteady env registry :=
  { h with
    keyed := h.keyed.withdraw name
    classes := (OrderedMap.keys_erase_sublist _ _).nodup h.classes
    owners := (List.filter_sublist.map _).nodup h.owners }

theorem IsSteady.enrolls (h : s.IsSteady env registry) (hst : s.Enrolls c t) :
    t.IsSteady env registry := by
  rcases hst with ⟨_, rfl⟩ | ⟨_, _, rfl⟩
  · exact h
  · exact h.withdraw c.name

theorem IsStacked.of_eq (h : s.IsStacked) (stack : t.stack = s.stack)
    (history : t.history = s.history) : t.IsStacked := by
  rw [IsStacked, stack, history]
  exact h

/-- What is not being processed is not on the stack. -/
theorem IsStacked.holds_eq_false (h : s.IsStacked) {name : String}
    (hclosed : ¬ IsOpen name s.history) : ImportStack.holds s.stack name = false := by
  rw [ImportStack.holds, List.any_eq_false]
  intro c hc hname
  exact hclosed (eq_of_beq hname ▸ h c hc)

/-- The run has come back to where it was. -/
structure Returns (s t : Run) : Prop where
  stack : t.stack = s.stack
  depth : t.depth = s.depth
  balanced : Balanced s.history t.history

theorem Returns.trans {u : Run} (hst : s.Returns t) (htu : t.Returns u) : s.Returns u where
  stack := htu.stack.trans hst.stack
  depth := htu.depth.trans hst.depth
  balanced := hst.balanced.trans htu.balanced

theorem Returns.isStacked (h : s.Returns t) (hs : s.IsStacked) : t.IsStacked := by
  intro c hc
  rw [h.stack] at hc
  exact h.balanced.isOpen_iff.2 (hs c hc)

/-- The two runs stand at the same place and have committed and claimed the same. -/
structure IsTwin (env : Environment) (registry : Registry) (s s' : Run) : Prop
    extends s.Agrees s' where
  stack : s'.stack = s.stack
  depth : s'.depth = s.depth
  steady : s'.IsSteady env registry

theorem IsTwin.enrolls (h : IsTwin env registry s s') (hs : s.IsSteady env registry)
    (hst : s.Enrolls c t) : ∃ t', s'.Enrolls c t' ∧ IsTwin env registry t t' := by
  rcases hst with ⟨habsent, rfl⟩ | ⟨hcommitted, hexplicit, rfl⟩
  · exact ⟨s', .inl ⟨habsent ∘ h.committed_iff.1, rfl⟩, h⟩
  · refine ⟨s'.withdraw c.name, .inr ⟨h.committed_iff.2 hcommitted, hexplicit, rfl⟩, ?_⟩
    exact ⟨h.toAgrees.withdraw hs h.steady c.name, h.stack, h.depth, h.steady.withdraw c.name⟩

end Run

/-- The record's class is opened between two runs. -/
theorem opens_visit {name : String} {isImported : Bool} {a b : List Milestone}
    (h : .opened name isImported :: a <:+ b) : Opens name isImported a (.closed :: b) :=
  (happens_visit_iff h).2 (.inl rfl)

theorem Opens.visit {name other : String} {isImported isImported' : Bool} {a b : List Milestone}
    (hopens : Opens name isImported (.opened other isImported' :: a) b)
    (h : .opened other isImported' :: a <:+ b) : Opens name isImported a (.closed :: b) :=
  (happens_visit_iff h).2 (.inr (.inl hopens))

/-! ## Visits -/

section

variable {s run : Run} {c : ConfigClass} {t : Collecting}

theorem Collecting.Advances.returns (h : Collecting.Advances ⟨c, run.opening c⟩ t)
    (hroom : s.Enrolls c run) : s.Returns ((RunM.close t.run).commit t.record) := by
  obtain ⟨hstack, hdepth, hhistory, _, _⟩ := hroom.continues
  refine ⟨h.stack.trans hstack, ?_, ?_⟩
  · show t.run.depth - 1 = s.depth
    rw [h.depth, ← hdepth]
    rfl
  · rw [← hhistory]
    exact h.balanced.visit

/-- A visit of a class that has not been committed, in the course of collecting another record. -/
theorem Collecting.Advances.visit (h : Collecting.Advances ⟨c, s.opening c⟩ t)
    (habsent : ¬ s.Committed c.name) (current : ConfigClass) :
    Collecting.Advances ⟨current, s⟩ ⟨current, (RunM.close t.run).commit t.record⟩ := by
  have hname : t.record.name = c.name := h.name
  have hreturns : s.Returns ((RunM.close t.run).commit t.record) := h.returns (.inl ⟨habsent, rfl⟩)
  have hopened : .opened c.name c.isImported :: s.history <:+ t.run.history := h.history
  refine ⟨⟨hreturns.balanced.suffix, h.owners, fun {name importer} hnotes => ?_⟩, rfl,
    rfl, hreturns.stack, hreturns.depth, hreturns.balanced, fun {source owner} howner => ?_,
    fun {name} hcommitted => ?_⟩
  · have hne : name ≠ t.record.name := by
      rintro rfl
      exact habsent (hname ▸ hnotes.committed)
    have hinner : (RunM.close t.run).Notes name importer := h.notes hnotes
    exact (Run.notes_commit_of_ne hne).2 hinner
  · rcases h.claims howner with howner | rfl | ⟨isImported, hopens⟩
    · exact .inl howner
    · exact .inr (.inr ⟨c.isImported, opens_visit hopened⟩)
    · exact .inr (.inr ⟨isImported, hopens.visit hopened⟩)
  · rcases Run.committed_commit.1 hcommitted with rfl | hcommitted
    · rw [hname]
      exact .inr ⟨c.isImported, opens_visit hopened⟩
    · rcases h.commits hcommitted with hcommitted | ⟨isImported, hopens⟩
      · exact .inl hcommitted
      · exact .inr ⟨isImported, hopens.visit hopened⟩

theorem Collecting.Advances.importing (current : ConfigClass) (s : Run) (name importer : String) :
    Collecting.Advances ⟨current, s⟩ ⟨current, s.importing name importer⟩ where
  history := List.suffix_cons _ _
  owners h := h
  notes h := h
  name := rfl
  importedBy := rfl
  stack := rfl
  depth := rfl
  balanced := Balanced.imported (.refl _)
  claims h := .inl h
  commits h := .inl h

theorem Collecting.Advances.merge (current : ConfigClass) {present : ConfigClass} (hs : s.Keyed)
    (hpresent : s.classes.get? c.name = some present) (himported : present.isImported = true) :
    Collecting.Advances ⟨current, s⟩ ⟨current, s.commit (present.mergeImporters c)⟩ where
  history := List.suffix_rfl
  owners h := h
  notes h := h.merge hs hpresent himported
  name := rfl
  importedBy := rfl
  stack := rfl
  depth := rfl
  balanced := .refl _
  claims h := .inl h
  commits h := by
    rcases Run.committed_commit.1 h with rfl | h
    · refine .inl ?_
      rw [ConfigClass.name_mergeImporters, hs.name_eq hpresent]
      exact Run.committed_of_get? hpresent
    · exact .inl h

end

/-- What entering a class comes to.  If it was imported, then in the course of collecting another
record. -/
structure Run.Receives (env : Environment) (registry : Registry) (s : Run) (c : ConfigClass)
    (t : Run) : Prop where
  steady : t.IsSteady env registry
  returns : s.Returns t
  advances : c.isImported = true →
    ∀ current, Collecting.Advances ⟨current, s⟩ ⟨current, t⟩
  notes : ∀ importer ∈ c.importedBy.keys, t.Notes c.name importer

/-! ## The same steps -/

/-- The second run mirrors the first one in everything. -/
def Mirror.twin (env : Environment) (registry : Registry) (name : String) : Mirror where
  name := name
  environment := env
  registry := registry
  Ahead s := NeverReopens s.history
  Links := Run.Agrees
  ahead_of_remains h ht := ht.of_suffix h.history
  links_of_eq h classes owners classes' owners' := by
    refine ⟨fun name => ?_, fun source => ?_⟩
    · rw [classes, classes', h.classes]
    · rw [owners, owners', h.owners]
  links_claimed {s s' source} h _ hclaimed := by
    rw [OrderedMap.contains, h.owners, ← OrderedMap.contains]
    exact hclaimed
  links_claiming {s s' source} h _ hfree := by
    refine ⟨?_, h.classes, OrderedMap.get?_insert_congr h.owners source name⟩
    rw [OrderedMap.contains, h.owners, ← OrderedMap.contains]
    exact hfree

namespace Step

variable {w : World} {cs : List ClassInfo} {deeper : Steps} {env : Environment}
  {registry : Registry} {c : ConfigClass} {f : NameFilter} {s t : Run}

theorem holds_opening {M : Mirror} (hname : c.name = M.name)
    (hs : s.IsSteady M.environment M.registry) (hstacked : s.IsStacked) :
    M.Holds ⟨c, s.opening c⟩ where
  name := hname
  steady := hs.of_eq rfl rfl rfl rfl rfl
  stacked := fun d hd => isOpen_opened.2 (.inr (hstacked d hd))
  isOpen := isOpen_opened.2 (.inl hname.symm)

theorem apart_opening {M : Mirror} (hname : c.name = M.name) (hstacked : s.IsStacked)
    (hahead : M.Ahead (s.opening c) → NeverReopens (s.opening c).history) :
    M.Apart ⟨c, s.opening c⟩ := by
  intro h
  rw [← hname]
  exact hstacked.holds_eq_false (hahead h).1

/-- What entering a class comes to, and that a twin comes to the same. -/
theorem enter_twin (hd : ∀ name, deeper.Mirrored (.twin env registry name) w cs)
    (hw : w.IsPrompt cs env) (hc : c.view.IsAmong cs) (hs : s.IsSteady env registry)
    (hstacked : s.IsStacked) (h : enter w deeper c f s = .ok () t) :
    s.Receives env registry c t ∧
      (NeverReopens t.history → ∀ s', Run.IsTwin env registry s s' →
        ∃ t', enter w deeper c f s' = .ok () t' ∧ Run.IsTwin env registry t t') := by
  have hskips := hw.neverSkips_of_isAmong hc
  -- a record is collected, or an import comes to a class that is committed already
  rcases (enter_eq_ok_iff hskips).1 h with ⟨run, record, u, hroom, hdepth, hclimb, rfl⟩ |
    ⟨himported, present, hpresent, rfl⟩
  · have hrun : run.IsSteady env registry := hs.enrolls hroom
    obtain ⟨hstack, _, hhistory, _, _⟩ := hroom.continues
    have hrunStacked : run.IsStacked := hstacked.of_eq hstack hhistory
    obtain ⟨hu, hadvances, _, hsecond⟩ := (hd c.name).climb (View.isAmong_filtered hc f)
      (apart_opening rfl hrunStacked id) (holds_opening rfl hrun hrunStacked) () _ hclimb
    have hu' : u.IsSteady env registry := hu.steady
    have hclosed : (RunM.close u).IsSteady env registry := hu'.of_eq rfl rfl rfl rfl rfl
    refine ⟨⟨hclosed.commit record, hadvances.returns hroom, fun himported current => ?_,
      fun importer himporter => ?_⟩, fun hnever s' hrel => ?_⟩
    · rcases hroom with ⟨habsent, rfl⟩ | ⟨_, hexplicit, _⟩
      · exact hadvances.visit habsent current
      · rw [himported] at hexplicit
        cases hexplicit
    · have hname : record.name = c.name := hadvances.name
      have himportedBy : record.importedBy = c.importedBy := hadvances.importedBy
      refine ⟨record, hname ▸ OrderedMap.get?_insert_self _ _ _, fun _ => ?_⟩
      rw [himportedBy]
      exact himporter
    · obtain ⟨run', hroom', hrel'⟩ := hrel.enrolls hs hroom
      obtain ⟨⟨record', u'⟩, hclimb', hmatches⟩ := hsecond hnever ⟨c, run'.opening c⟩
        ⟨rfl, ⟨hrel'.classes, hrel'.owners⟩, hrel'.stack, congrArg (· + 1) hrel'.depth,
          hrel'.steady.of_eq rfl rfl rfl rfl rfl⟩
      obtain rfl : record' = record := hmatches.record
      have hagrees : (RunM.close u).Agrees (RunM.close u') :=
        ⟨hmatches.links.classes, hmatches.links.owners⟩
      have hsteady : (RunM.close u').IsSteady env registry :=
        hmatches.steady.of_eq rfl rfl rfl rfl rfl
      refine ⟨_, (enter_eq_ok_iff hskips).2
        (.inl ⟨run', record', u', hroom', ?_, hclimb', rfl⟩), ?_⟩
      · rw [hrel'.depth]
        exact hdepth
      · exact ⟨hagrees.commit record', hmatches.stack, congrArg (· - 1) hmatches.depth,
          hsteady.commit record'⟩
  · have hsecond {s' : Run} (hrel : Run.IsTwin env registry s s') :
        enter w deeper c f s' =
          .ok () (if present.isImported then s'.commit (present.mergeImporters c) else s') :=
      (enter_eq_ok_iff hskips).2
        (.inr ⟨himported, present, (hrel.classes c.name).trans hpresent, rfl⟩)
    -- only a record that is imported itself gets further importers
    cases hmerged : present.isImported with
    | true =>
      rw [hmerged] at hsecond
      refine ⟨⟨hs.commit _, ⟨rfl, rfl, .refl _⟩, fun _ current => ?_, fun importer himporter => ?_⟩,
        fun _ s' hrel => ?_⟩
      · exact .merge current hs.keyed hpresent hmerged
      · exact Run.notes_merge hs.keyed hpresent himporter
      · exact ⟨_, hsecond hrel, hrel.toAgrees.commit _, hrel.stack, hrel.depth,
          hrel.steady.commit _⟩
    | false =>
      rw [hmerged] at hsecond
      refine ⟨⟨hs, ⟨rfl, rfl, .refl _⟩, fun _ current => .refl _, fun importer _ => ?_⟩,
        fun _ s' hrel => ⟨s', hsecond hrel, hrel⟩⟩
      refine ⟨present, hpresent, fun himp => ?_⟩
      rw [hmerged] at himp
      cases himp

/-- Members and imports are entered by twins in the same way. -/
theorem enterImported_twin (hd : ∀ name, deeper.Mirrored (.twin env registry name) w cs)
    (hw : w.IsPrompt cs env) {steps : Steps} (hsteps : steps.enter = enter w deeper) {name : String}
    {record current : ConfigClass} {v : View} (hv : v.IsAmong cs) :
    (Mirror.twin env registry name).Mirrored (Collecting.mk current)
      (enterImported steps f record v) s := by
  intro hs _ t h
  have hsecond {s t : Run} : enterImported steps f record v s = .ok () t ↔
      enter w deeper (.imported v record) f (s.importing v.name record.name) = .ok () t := by
    rw [enterImported, hsteps]
    exact modify_bind_eq
  have hsteady : (s.importing v.name record.name).IsSteady env registry :=
    hs.steady.of_eq rfl rfl rfl rfl rfl
  obtain ⟨ht, htwin⟩ := enter_twin hd hw (c := .imported v record) hv hsteady
    (fun c hc => hs.stacked c hc) (hsecond.1 h)
  have hadvances : Collecting.Advances ⟨current, s⟩ ⟨current, t⟩ :=
    (Collecting.Advances.importing current s v.name record.name).trans (ht.advances rfl current)
  have hopen : IsOpen name t.history := hadvances.balanced.isOpen_iff.2 hs.isOpen
  refine ⟨⟨hs.name, ht.steady, ?_, hopen⟩, hadvances, trivial, ?_⟩
  · exact ht.returns.isStacked fun c hc => hs.stacked c hc
  · intro hnever s' hmatches
    obtain ⟨t', ht', hrel⟩ := htwin hnever (s'.importing v.name record.name)
      ⟨⟨hmatches.links.classes, hmatches.links.owners⟩, hmatches.stack, hmatches.depth,
        hmatches.steady.of_eq rfl rfl rfl rfl rfl⟩
    exact ⟨t', hsecond.2 ht', rfl, hrel.toAgrees, hrel.stack, hrel.depth, hrel.steady⟩

end Step

namespace Run

variable {w : World} {cs : List ClassInfo} {env : Environment} {registry : Registry} {s t : Run}

theorem mirrored_twin (hw : w.IsPrompt cs env) (fuel : Nat) (name : String) :
    (steps w fuel).Mirrored (.twin env registry name) w cs := by
  induction fuel generalizing name with
  | zero =>
    constructor
    · intro v f record current s _ _ _ _ t h
      replace h := modify_bind_eq.1 h
      exact absurd h throw_ne_ok
    · intro v f s _ _
      exact .throw
    · intro current us f checksCycles s _ _
      exact .throw
  | succ fuel ih =>
    constructor
    · intro v f record current s _ hv
      exact Step.enterImported_twin ih hw rfl hv
    · intro v f s hv hapart
      exact Step.climb_mirrored (ih name) hw hv hapart
    · intro current us f checksCycles s hus hapart
      exact Step.imports_mirrored (ih name) hw hus hapart

theorem parseSeed_eq_ok_iff {seed : NamedDefinition} :
    parseSeed w seed s = .ok () t ↔ seed.definition.className.isSome = true ∧ ∃ v fuel,
      w.resolver.ofDefinition seed.definition seed.beanName = .ok v ∧ w.fuel = fuel + 1 ∧
      Step.enter w (steps w fuel) (.explicit v (some seed.beanName)) w.resolver.filter s =
        .ok () t := by
  rw [parseSeed]
  cases seed.definition.className with
  | none => simp [throw_ne_ok]
  | some name =>
    rw [onFailure_eq_ok, Step.parseDefinition, ofExcept_bind_eq_ok, stepsOf]
    cases w.fuel with
    | zero => simp [steps, throw_ne_ok]
    | succ fuel => simp [steps]

/-- A seed is parsed by twins in the same way. -/
theorem parseSeed_twin (hw : w.IsPrompt cs env) {seed : NamedDefinition}
    (hseed : ∀ v, w.resolver.ofDefinition seed.definition seed.beanName = .ok v → v.info ∈ cs)
    (hs : s.IsSteady env registry) (hstacked : s.IsStacked) (h : parseSeed w seed s = .ok () t) :
    t.IsSteady env registry ∧ s.Returns t ∧
      (NeverReopens t.history → ∀ s', IsTwin env registry s s' →
        ∃ t', parseSeed w seed s' = .ok () t' ∧ IsTwin env registry t t') := by
  obtain ⟨hnamed, v, fuel, hv, hfuel, h⟩ := parseSeed_eq_ok_iff.1 h
  obtain ⟨ht, hsecond⟩ := Step.enter_twin (mirrored_twin hw fuel) hw
    (c := .explicit v (some seed.beanName)) (.inr (hseed v hv)) hs hstacked h
  refine ⟨ht.steady, ht.returns, fun hnever s' hrel => ?_⟩
  obtain ⟨t', ht', hrel'⟩ := hsecond hnever s' hrel
  exact ⟨t', parseSeed_eq_ok_iff.2 ⟨hnamed, v, fuel, hv, hfuel, ht'⟩, hrel'⟩

theorem parseSeeds_append_eq_ok {seeds more : List NamedDefinition} :
    parseSeeds w (seeds ++ more) s = .ok () t ↔
      ∃ u, parseSeeds w seeds s = .ok () u ∧ parseSeeds w more u = .ok () t := by
  induction seeds generalizing s with
  | nil =>
    constructor
    · exact fun h => ⟨s, rfl, h⟩
    · rintro ⟨_, hs, h⟩
      obtain ⟨_, rfl⟩ := pure_eq_ok.1 hs
      exact h
  | cons seed seeds ih =>
    constructor
    · intro h
      obtain ⟨_, x, hx, h⟩ := bind_eq_ok.1 h
      obtain ⟨u, hu, h⟩ := ih.1 h
      exact ⟨u, bind_eq_ok.2 ⟨(), x, hx, hu⟩, h⟩
    · rintro ⟨u, hu, h⟩
      obtain ⟨_, x, hx, hu⟩ := bind_eq_ok.1 hu
      exact bind_eq_ok.2 ⟨(), x, hx, ih.2 ⟨u, hu, h⟩⟩

/-- Twins stay twins as long as seeds follow. -/
theorem parseSeeds_twin (hw : w.IsPrompt cs env) {seeds : List NamedDefinition}
    (hseeds : ∀ seed ∈ seeds, ∀ v,
      w.resolver.ofDefinition seed.definition seed.beanName = .ok v → v.info ∈ cs)
    (hs : s.IsSteady env registry) (hstacked : s.IsStacked) (h : parseSeeds w seeds s = .ok () t) :
    t.IsSteady env registry ∧ s.Returns t ∧
      (NeverReopens t.history → ∀ s', IsTwin env registry s s' →
        ∃ t', parseSeeds w seeds s' = .ok () t' ∧ IsTwin env registry t t') := by
  induction seeds generalizing s with
  | nil =>
    obtain ⟨_, rfl⟩ := pure_eq_ok.1 h
    exact ⟨hs, ⟨rfl, rfl, .refl _⟩, fun _ s' hrel => ⟨s', rfl, hrel⟩⟩
  | cons seed seeds ih =>
    obtain ⟨_, u, hfirst, hrest⟩ := bind_eq_ok.1 h
    obtain ⟨hu, hsu, hsecond⟩ :=
      parseSeed_twin hw (hseeds seed List.mem_cons_self) hs hstacked hfirst
    obtain ⟨ht, hut, hlater⟩ := ih (fun seed hseed => hseeds seed (List.mem_cons_of_mem _ hseed)) hu
      (hsu.isStacked hstacked) hrest
    refine ⟨ht, hsu.trans hut, fun hnever s' hrel => ?_⟩
    obtain ⟨u', hu', hrel'⟩ := hsecond (hnever.of_suffix hut.balanced.suffix) s' hrel
    obtain ⟨t', ht', hrel''⟩ := hlater hnever u' hrel'
    exact ⟨t', bind_eq_ok.2 ⟨(), u', hu', ht'⟩, hrel''⟩

end Run
end Wiring
