import Wiring.Proofs.Accounts
import Wiring.Proofs.Resolving

/-!
# Claimed superclasses

A superclass is processed once, as part of the first class that comes to it, which claims it.
What a committed record holds is what its sources bring, so a claimed superclass is kept if it
is among the sources of the record that is committed for its owner in the end.  That need not
be the record that made the claim.
-/

namespace Wiring

/-! ## Who keeps a claimed superclass -/

/-- How often the class has been opened. -/
def openings (name : String) (h : List Milestone) : Nat :=
  h.countP fun
    | .opened other _ => other = name
    | _ => false

/-- The class is committed with a source of that name. -/
def Run.HasSource (s : Run) (name source : String) : Prop :=
  ∃ c, s.classes.get? name = some c ∧ ∃ u ∈ c.sources, u.name = source

theorem Run.HasSource.committed {s : Run} {name source : String} (h : s.HasSource name source) :
    s.Committed name := by
  obtain ⟨c, hc, _⟩ := h
  exact Run.committed_of_get? hc

theorem Run.Enrolls.hasSource {s t : Run} {c : ConfigClass} (h : s.Enrolls c t)
    {name source : String} (hname : name ≠ c.name) (hsource : s.HasSource name source) :
    t.HasSource name source := by
  obtain ⟨_, rfl⟩ | ⟨_, _, rfl⟩ := h
  · exact hsource
  · obtain ⟨d, hd, hd'⟩ := hsource
    exact ⟨d, (OrderedMap.get?_erase_of_ne _ hname.symm).trans hd, hd'⟩

theorem Run.HasSource.commit {s : Run} {c : ConfigClass} {name source : String}
    (h : s.HasSource name source) (hname : name ≠ c.name) :
    (s.commit c).HasSource name source := by
  obtain ⟨d, hd, hd'⟩ := h
  exact ⟨d, (OrderedMap.get?_insert_of_ne _ hname.symm _).trans hd, hd'⟩

theorem Run.HasSource.absorb {s : Run} {key : String} {scratch : ConfigClass}
    {name source : String} (h : s.HasSource name source) :
    Run.HasSource { s with classes := s.classes.modify key (·.absorb scratch) } name source := by
  obtain ⟨d, hd, u, hu, hname⟩ := h
  by_cases hkey : name = key
  · subst hkey
    refine ⟨d.absorb scratch, ?_, u, List.mem_append_left _ hu, hname⟩
    exact (OrderedMap.get?_modify_self _ _ _).trans (by rw [hd]; rfl)
  · exact ⟨d, (OrderedMap.get?_modify_of_ne _ (Ne.symm hkey) _).trans hd, u, hu, hname⟩

theorem openings_mono (name : String) {a b : List Milestone} (h : a <:+ b) :
    openings name a ≤ openings name b := h.sublist.countP_le

theorem openings_of_hasOpened {s : Run} {name : String} (h : s.HasOpened name) :
    1 ≤ openings name s.history := by
  obtain ⟨isImported, hmem⟩ := h
  exact List.countP_pos_iff.2 ⟨_, hmem, by simp⟩

theorem openings_opening {s : Run} {c : ConfigClass} :
    openings c.name (s.opening c).history = openings c.name s.history + 1 :=
  List.countP_cons_of_pos (by simp)

/-- Another opening between the two histories counts. -/
theorem openings_lt_of_opens {name : String} {isImported : Bool} {a b : List Milestone}
    (h : Opens name isImported a b) : openings name a < openings name b := by
  obtain ⟨h, m, hah, hhb, rfl⟩ := h
  have hone : openings name (.opened name isImported :: h) = openings name h + 1 :=
    List.countP_cons_of_pos (by simp)
  have := openings_mono name hah
  have := openings_mono name hhb
  omega

theorem Run.HasSource.merge {s : Run} {c present : ConfigClass} (hs : s.Keyed)
    (hpresent : s.classes.get? c.name = some present) {name source : String}
    (h : s.HasSource name source) :
    (s.commit (present.mergeImporters c)).HasSource name source := by
  obtain ⟨d, hd, u, hu, hname⟩ := h
  have hkey := hs.name_eq hpresent
  by_cases hc : name = c.name
  · subst hc
    rw [hpresent] at hd
    obtain rfl := Option.some.inj hd
    refine ⟨present.mergeImporters c, ?_, u, hu, hname⟩
    rw [← hkey]
    exact OrderedMap.get?_insert_self _ _ _
  · have hne : (present.mergeImporters c).name ≠ name := fun h => hc (h.symm.trans hkey)
    exact ⟨d, (OrderedMap.get?_insert_of_ne _ hne _).trans hd, u, hu, hname⟩

/-- A class that is committed while it is being visited has been opened before. -/
theorem Moves.two_le_openings {w : World} {K : Scope} {s t : Collecting} {c : ConfigClass}
    {run : Run} (h : Moves w K .source ⟨c, run.opening c⟩ t) (hs : s.Accounted w)
    (hrun : s.run.Enrolls c run) (ht : t.run.Committed c.name) :
    2 ≤ openings c.name t.run.history := by
  have hopen : openings c.name (run.opening c).history ≤ openings c.name t.run.history :=
    openings_mono _ h.continues.history
  rw [openings_opening] at hopen
  obtain ⟨habsent, rfl⟩ | ⟨hpresent, _, rfl⟩ := hrun
  · obtain hcommitted | ⟨_, hopens⟩ := (h.tracks hs.keyed).committed _ ht
    · exact absurd hcommitted habsent
    · have := openings_lt_of_opens hopens
      rw [openings_opening] at this
      omega
  · have hbefore : 1 ≤ openings c.name (s.run.withdraw c.name).history :=
      openings_of_hasOpened (hs.opened _ hpresent)
    omega

/-- Only another opening of a class takes a source away from its record. -/
theorem Moves.hasSource {w : World} {K : Scope} {p : Part} {s t : Collecting}
    (h : Moves w K p s t) (hs : s.Accounted w) {name source : String}
    (hsource : s.run.HasSource name source) :
    t.run.HasSource name source ∨ 2 ≤ openings name t.run.history := by
  induction h with
  | refl _ => exact .inl hsource
  | trans hst htu ih ih' =>
    obtain hsource | htwice := ih hs hsource
    · exact ih' (hst.accounted hs) hsource
    · exact .inr (Nat.le_trans htwice (openings_mono _ htu.continues.history))
  | aside h =>
    rw [Run.HasSource, h.classes]
    exact .inl hsource
  | report _ _ _ => exact .inl hsource
  | scan _ _ _ _ ih => exact ih (hs.of_eq rfl rfl rfl (fun _ hp => hp) rfl) hsource
  | register _ _ _ _ _ ih => exact ih (hs.of_eq rfl rfl rfl (fun _ hp => hp) rfl) hsource
  | imported _ _ _ ih => exact ih hs.importing hsource
  | claim hopen _ _ _ _ _ ih => exact ih (hs.claim hopen) hsource
  | enqueue _ _ _ => exact .inl hsource
  | stacked _ _ ih => exact ih (hs.of_eq rfl rfl rfl (fun _ hp => hp) rfl) hsource
  | nested _ ih => exact ih (hs.of_eq rfl rfl rfl (fun _ hp => hp) rfl) hsource
  | merge hpresent _ _ _ => exact .inl (hsource.merge hs.keyed hpresent)
  | @visit p s t c f run _ _ hnew _ hrun hinner _ ih =>
    have hgrows : (run.opening c).history <:+ (RunM.close t.run).history :=
      hinner.continues.history.trans (List.suffix_cons _ _)
    by_cases hc : name = c.name
    · subst hc
      refine .inr (Nat.le_trans ?_ (openings_mono _ hgrows))
      obtain ⟨_, _, hhistory, _, _⟩ := hrun.continues
      rw [openings_opening, hhistory]
      have := openings_of_hasOpened (hs.opened _ hsource.committed)
      omega
    · have hstart : (run.opening c).HasSource name source := hrun.hasSource hc hsource
      have hne : name ≠ t.record.name := fun h => hc (h.trans hinner.continues.name)
      obtain ht | htwice := ih (hs.opening hnew hrun) hstart
      · exact .inl (Run.HasSource.commit ht hne)
      · exact .inr (Nat.le_trans htwice (openings_mono _ (List.suffix_cons _ _)))
  | gather _ => exact .inl hsource
  | collect _ _ _ _ => exact .inl hsource
  | @absorb p s t c key _ hnew _ hinner ih =>
    obtain ht | htwice := ih (hs.collecting hnew) hsource
    · exact .inl ht.absorb
    · exact .inr htwice

/-- A claimed superclass is a source of the record that is being collected, or of the one that
is committed for its owner, unless the owner has been opened again. -/
theorem Moves.claimed {w : World} {K : Scope} {p : Part} {s t : Collecting}
    (h : Moves w K p s t) (hs : s.Accounted w) {name source : String}
    (hfilter : w.resolver.filter.excludes source = false)
    (hclaim : (source, name) ∈ t.run.superclassOwners.entries) :
    (source, name) ∈ s.run.superclassOwners.entries ∨
      (p = .source ∧ name = s.record.name ∧ ∃ u ∈ t.record.sources, u.name = source) ∨
      t.run.HasSource name source ∨ 2 ≤ openings name t.run.history := by
  induction h with
  | refl _ => exact .inl hclaim
  | trans hst htu ih ih' =>
    obtain hclaim | ⟨hp, hname, hmem⟩ | hrest := ih' (hst.accounted hs) hclaim
    · obtain hclaim | ⟨hp, hname, u, hu, husource⟩ | hsource | htwice := ih hs hclaim
      · exact .inl hclaim
      · exact .inr (.inl ⟨hp, hname, u, htu.continues.sources hu, husource⟩)
      · exact .inr (.inr (htu.hasSource (hst.accounted hs) hsource))
      · exact .inr (.inr (.inr (Nat.le_trans htwice (openings_mono _ htu.continues.history))))
    · rw [hst.continues.name] at hname
      exact .inr (.inl ⟨hp, hname, hmem⟩)
    · exact .inr (.inr hrest)
  | aside h =>
    rw [h.superclassOwners] at hclaim
    exact .inl hclaim
  | report _ _ _ => exact .inl hclaim
  | scan _ _ _ _ ih =>
    obtain hclaim | ⟨hp, _⟩ | hrest := ih (hs.of_eq rfl rfl rfl (fun _ hp => hp) rfl) hclaim
    · exact .inl hclaim
    · cases hp
    · exact .inr (.inr hrest)
  | register _ _ _ _ _ ih => exact ih (hs.of_eq rfl rfl rfl (fun _ hp => hp) rfl) hclaim
  | imported _ _ _ ih => exact ih hs.importing hclaim
  | @claim s t v next claimed hopen hsuper _ hnext _ hmem ih =>
    obtain hclaim | hrest := ih (hs.claim hopen) hclaim
    · obtain hclaim | hclaim := OrderedMap.mem_of_mem_put hclaim
      · exact .inl hclaim
      · obtain ⟨rfl, rfl⟩ := Prod.mk.inj hclaim
        exact .inr (.inl ⟨rfl, rfl, next, hmem, Resolver.name_superClass hsuper hfilter hnext⟩)
    · exact .inr hrest
  | enqueue _ _ _ => exact .inl hclaim
  | stacked _ _ ih =>
    obtain hclaim | ⟨hp, _⟩ | hrest := ih (hs.of_eq rfl rfl rfl (fun _ hp => hp) rfl) hclaim
    · exact .inl hclaim
    · cases hp
    · exact .inr (.inr hrest)
  | nested _ ih => exact ih (hs.of_eq rfl rfl rfl (fun _ hp => hp) rfl) hclaim
  | merge _ _ _ _ => exact .inl hclaim
  | @visit p s t c f run _ _ hnew _ hrun hinner _ ih =>
    have hclose : t.run.history <:+ (RunM.close t.run).history := List.suffix_cons _ _
    have hname := hinner.continues.name
    obtain hclaim | ⟨_, rfl, hmem⟩ | ht | htwice := ih (hs.opening hnew hrun) hclaim
    · exact .inl (hrun.owners_subset hclaim)
    · refine .inr (.inr (.inl ⟨t.record, ?_, hmem⟩))
      exact hname ▸ OrderedMap.get?_insert_self _ _ _
    · by_cases hc : name = c.name
      · subst hc
        have htwice := hinner.two_le_openings hs hrun ht.committed
        exact .inr (.inr (.inr (Nat.le_trans htwice (openings_mono _ hclose))))
      · exact .inr (.inr (.inl (Run.HasSource.commit ht fun h => hc (h.trans hname))))
    · exact .inr (.inr (.inr (Nat.le_trans htwice (openings_mono _ hclose))))
  | gather _ => exact .inl hclaim
  | collect _ _ _ _ => exact .inl hclaim
  | absorb _ hnew _ _ ih =>
    obtain hclaim | ⟨hp, _⟩ | ht | htwice := ih (hs.collecting hnew) hclaim
    · exact .inl hclaim
    · cases hp
    · exact .inr (.inr (.inl ht.absorb))
    · exact .inr (.inr (.inr htwice))

/-! ## After a call -/

namespace Run

/-- The plain imports of `v` are committed. -/
def KeepsImports (s : Run) (w : World) (v : View) : Prop :=
  ∀ us, w.resolver.imports v = .ok us → ∀ u ∈ us, w.resolver.IsPlain u → s.Committed u.name

/-- After a successful call no claim is lost, unless its owner has been opened again. -/
theorem parse_claimed {w : World} {seeds : List NamedDefinition} {environment : Environment}
    {registry : Registry} {t : Run} (h : parse w seeds (fresh environment registry) = .ok () t)
    {source name : String} (hfilter : w.resolver.filter.excludes source = false)
    (hclaim : (source, name) ∈ t.superclassOwners.entries) :
    t.HasSource name source ∨ 2 ≤ openings name t.history := by
  obtain ⟨u, v, _, hu, hv, rfl⟩ :=
    parse_moves w.admits_anything (.explicit .object none) rfl (fun _ _ _ _ => trivial) h
  have hfresh := accounted_fresh w environment registry
  have hmid : Collecting.Accounted ⟨.explicit .object none, { u with queue := none }⟩ w :=
    (hu.accounted hfresh).of_eq rfl rfl rfl (fun _ hp => hp) rfl
  obtain hclaim | ⟨hp, _⟩ | hrest := hv.claimed hmid hfilter hclaim
  · obtain hclaim | ⟨hp, _⟩ | hsource | htwice := hu.claimed hfresh hfilter hclaim
    · cases hclaim
    · cases hp
    · exact hv.hasSource hmid hsource
    · exact .inr (Nat.le_trans htwice (openings_mono _ hv.continues.history))
  · cases hp
  · exact hrest

/-- The owner of a claimed superclass is committed.  The superclass is kept exactly if its bean
methods are brought by what the committed record was collected from, and its imports have been
opened.  Both hold for each source of the record, up to a circular import that is reported; and
the superclass is such a source if its owner has been opened only once. -/
theorem claimed_superclass_kept_iff {w : World} {seeds : List NamedDefinition}
    {environment : Environment} {registry : Registry} {t : Run}
    (h : parse w seeds (fresh environment registry) = .ok () t) {source name : String}
    (hclaim : t.superclassOwners.get? source = some name) :
    ∃ c, t.classes.get? name = some c ∧
      (∀ v, v.name = source → (c.KeepsMethods v ∧ t.KeepsImports w v ↔
        (∀ m ∈ v.info.taggedMethods WellKnown.bean,
          ∃ u ∈ c.sources, w.resolver.Brings u m.key) ∧
        ∀ us, w.resolver.imports v = .ok us → ∀ u ∈ us, w.resolver.IsPlain u →
          t.HasOpened u.name)) ∧
      (∀ v ∈ c.sources, c.KeepsMethods v ∧
        ((∀ us, w.resolver.imports v = .ok us → ∀ u ∈ us, w.NeverSkips u.info) →
          t.KeepsImports w v ∨ t.HasReported name)) ∧
      (openings name t.history = 1 → w.resolver.filter.excludes source = false →
        ∃ v ∈ c.sources, v.name = source) := by
  have haccounted := parse_accounted h
  have hcommitted (other : String) : t.Committed other ↔ t.HasOpened other :=
    committed_iff_hasOpened h
  have hmem := OrderedMap.mem_entries_of_get? hclaim
  obtain ⟨c, hc⟩ := Option.isSome_iff_exists.1 ((hcommitted name).2 (haccounted.owners _ hmem))
  have hrecord := haccounted.classes _ (OrderedMap.mem_entries_of_get? hc)
  refine ⟨c, hc, fun v _ => ?_, fun v hv => ⟨hrecord.keepsMethods hv, fun hskips => ?_⟩,
    fun honce hfilter => ?_⟩
  · simp only [ConfigClass.KeepsMethods, KeepsImports, hrecord.methods, hcommitted]
  · obtain ⟨us, hus, hall | hreported⟩ := hrecord.imports v hv
    · refine .inl fun us' hus' u hu hplain => (hcommitted _).2 ?_
      obtain rfl := Except.ok.inj (hus.symm.trans hus')
      exact hall u hu hplain (hskips us hus u hu)
    · rw [haccounted.keyed.name_eq hc] at hreported
      exact .inr hreported
  · obtain ⟨d, hd, hsource⟩ | htwice := parse_claimed h hfilter hmem
    · rw [hc] at hd
      obtain rfl := Option.some.inj hd
      exact hsource
    · omega

end Run

/-! ## A superclass lost to an outer record -/

/-- A class whose scan finds a component that imports the class again. -/
def scanningSubclass (scanner : Scanner) : World where
  resolver := { reader := { index := ⟨[
    { name := "app.A", superClass := some "app.S", tags := [.scanning ["lib"]] },
    { name := "lib.B", tags := [.mk WellKnown.component [], .importing ["app.A"]] },
    { name := "app.S", methods := [
      { name := "s", declaringClass := "app.S", tags := [.mk WellKnown.bean []] }] }]⟩ } }
  scanner

set_option maxRecDepth 100000 in
/-- A claimed superclass is not always kept.  The import inside the scan claims the superclass
and is committed first; the record that is committed last finds the superclass taken and does
without it. -/
theorem not_forall_claimed_superclass_kept :
    ¬ ∀ (w : World) (seeds : List NamedDefinition) (t : Run),
      (∀ c ∈ w.resolver.reader.index.classes, w.NeverSkips c) → w.resolver.types.types = [] →
      (∀ name, w.resolver.filter.excludes name = false) →
      Run.parse w seeds (Run.fresh {} {}) = .ok () t →
      ∀ source name, t.superclassOwners.get? source = some name →
        ∃ c, t.classes.get? name = some c ∧ ∀ v, w.resolver.ofName source .none = .ok v →
          c.KeepsMethods v ∧ t.KeepsImports w v := by
  intro hall
  have hcheck : succeedsWith (fun t : Run =>
      decide (t.superclassOwners.get? "app.S" = some "app.A") &&
        (t.classes.get? "app.A").any (·.beanMethods.entries.isEmpty))
      (Run.parse (scanningSubclass (.reading ["lib.B"] true)) (seedsOf ["app.A"])
        (Run.fresh {} {})) = true := by
    decide +kernel
  obtain ⟨t, hparse, ht⟩ := exists_of_succeedsWith hcheck
  rw [Bool.and_eq_true, decide_eq_true_eq, Option.any_eq_true] at ht
  obtain ⟨hclaim, c, hc, hempty⟩ := ht
  have hskips : ∀ c ∈ (scanningSubclass (.reading ["lib.B"] true)).resolver.reader.index.classes,
      (scanningSubclass (.reading ["lib.B"] true)).NeverSkips c := by
    intro c hc
    simp only [scanningSubclass, List.mem_cons, List.not_mem_nil, or_false] at hc
    obtain rfl | rfl | rfl := hc <;> exact .inr ⟨rfl, rfl⟩
  obtain ⟨c', hc', hkeeps⟩ :=
    hall _ _ t hskips rfl (fun _ => rfl) hparse "app.S" "app.A" hclaim
  rw [hc] at hc'
  obtain rfl := Option.some.inj hc'
  have hmem := (hkeeps _ rfl).1 _ List.mem_cons_self
  rw [OrderedMap.keys, List.isEmpty_iff.1 hempty] at hmem
  cases hmem

set_option maxRecDepth 100000 in
/-- The same class when the scan finds nothing. -/
theorem claimed_superclass_kept_iff_scanningSubclass :
    ∃ t, Run.parse (scanningSubclass (.fixed [])) (seedsOf ["app.A"]) (Run.fresh {} {}) = .ok () t ∧
      t.superclassOwners.get? "app.S" = some "app.A" ∧
      ∃ c, t.classes.get? "app.A" = some c ∧
        (∀ v, v.name = "app.S" →
          (c.KeepsMethods v ∧ t.KeepsImports (scanningSubclass (.fixed [])) v ↔
            (∀ m ∈ v.info.taggedMethods WellKnown.bean,
              ∃ u ∈ c.sources, (scanningSubclass (.fixed [])).resolver.Brings u m.key) ∧
            ∀ us, (scanningSubclass (.fixed [])).resolver.imports v = .ok us → ∀ u ∈ us,
              (scanningSubclass (.fixed [])).resolver.IsPlain u → t.HasOpened u.name)) ∧
        (∀ v ∈ c.sources, c.KeepsMethods v ∧
          ((∀ us, (scanningSubclass (.fixed [])).resolver.imports v = .ok us → ∀ u ∈ us,
            (scanningSubclass (.fixed [])).NeverSkips u.info) →
            t.KeepsImports (scanningSubclass (.fixed [])) v ∨ t.HasReported "app.A")) ∧
        (openings "app.A" t.history = 1 →
          (scanningSubclass (.fixed [])).resolver.filter.excludes "app.S" = false →
          ∃ v ∈ c.sources, v.name = "app.S") := by
  have hcheck : succeedsWith (fun t : Run =>
      decide (t.superclassOwners.get? "app.S" = some "app.A"))
      (Run.parse (scanningSubclass (.fixed [])) (seedsOf ["app.A"]) (Run.fresh {} {})) = true := by
    decide +kernel
  obtain ⟨t, hparse, ht⟩ := exists_of_succeedsWith hcheck
  have hclaim := of_decide_eq_true ht
  exact ⟨t, hparse, hclaim, Run.claimed_superclass_kept_iff hparse hclaim⟩

end Wiring
