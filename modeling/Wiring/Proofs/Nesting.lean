import Wiring.Proofs.Resolving
import Wiring.Proofs.Trails

/-!
# How deep a run nests

Without import selectors and conditions, and with a scanner that registers what it finds, a run
nests only so deep, however the classes refer to each other: a record that is opened inside
another one has less to go on with.  So a limit of the right size is never reached.
-/

namespace Wiring

/-- The failure does not come from too many classes inside each other, nor from too many steps if
there was room for `enough` of them. -/
def Failure.IsSpared (e : Failure) (enough : Prop) : Prop :=
  e.isTooDeep = false ∧ (enough → e.isExhausted = false)

namespace Failure.IsSpared

variable {e : Failure} {p q : Prop}

theorem of_isNesting (h : e.isNesting = false) : e.IsSpared p := by
  rw [isNesting, Bool.or_eq_false_iff] at h
  exact ⟨h.1, fun _ => h.2⟩

theorem of_isPlain (h : e.isPlain = true) : e.IsSpared p := of_isNesting (isNesting_of_isPlain h)

theorem mono (h : e.IsSpared q) (hpq : p → q) : e.IsSpared p := ⟨h.1, fun hp => h.2 (hpq hp)⟩

theorem within (h : e.IsSpared p) (activity : Activity) (className : String) :
    (e.within activity className).IsSpared p := by
  rw [IsSpared, isTooDeep_within, isExhausted_within]
  exact h

end Failure.IsSpared

/-- What is in the scope is bare or one of at most `m` classes, none of which selects imports or
is left out, and the scanner registers what it finds. -/
structure World.Confines (w : World) (K : Scope) (U : Finset String) (m : Nat) : Prop where
  admits : w.Admits K
  scanner : w.scanner.Registers
  selects : ¬ K.Selects w
  neverSkips : ∀ v, K.Enters v → w.NeverSkips v.info
  card : U.card ≤ m
  known : ∀ {c : ClassInfo} {v : View}, K.Reads c v → v.IsBare ∨ c.name ∈ U
  superClass : ∀ {c : ClassInfo} {v u : View} {name : String}, K.Reads c v →
    v.info.superClass = some name → w.resolver.superClass v = .ok (some u) → u.IsBare ∨ name ∈ U

/-- The run can afford to enter the record: an explicit one whatever its superclasses are, an
imported one with its trail. -/
def Run.CanEnter (s : Run) (w : World) (U : Finset String) (m : Nat) (c : ConfigClass) (b : Nat) :
    Prop :=
  (c.isImported = true ∧ (s.Committed c.name ∨ ∃ chain k, s.Trail U c.name chain ∧
    (c.name ∈ chain ∨ m + 1 ≤ k + chain.length) ∧ s.cost w U m k ≤ b)) ∨
    (s.unregistered w * (3 * m + 1) + 3 * m) * (m + 3) + (m + 1) + 2 ≤ b

theorem Run.CanEnter.sameCourse {s t : Run} {w : World} {U : Finset String} {m b : Nat}
    {c : ConfigClass} (h : s.CanEnter w U m c b) (hst : s.SameCourse t) :
    t.CanEnter w U m c b := by
  rw [hst.eq_of_sameCourse]
  obtain ⟨himported, hcommitted | ⟨chain, k, htrail, hlength, hcost⟩⟩ | hcost := h
  · exact .inl ⟨himported, .inl hcommitted⟩
  · refine .inl ⟨himported, .inr ⟨chain, k, ?_, hlength, hcost⟩⟩
    exact ⟨htrail.linked, htrail.nodup, htrail.known, htrail.pending, htrail.stacked⟩
  · exact .inr hcost

/-- An import costs nothing by itself. -/
theorem Run.CanEnter.importing {s : Run} {w : World} {U : Finset String} {m b : Nat}
    {c : ConfigClass} (h : s.CanEnter w U m c b) (name importer : String) :
    (s.importing name importer).CanEnter w U m c b := by
  obtain ⟨himported, hcommitted | ⟨chain, k, htrail, hlength, hcost⟩⟩ | hcost := h
  · exact .inl ⟨himported, .inl hcommitted⟩
  · refine .inl ⟨himported, .inr ⟨chain, k, ?_, hlength, hcost⟩⟩
    exact ⟨htrail.linked, htrail.nodup, htrail.known, htrail.pending, htrail.stacked⟩
  · exact .inr hcost

/-- The run can afford to process the view as a source of the record.  Only the record's own class
goes on with its trail. -/
def Collecting.CanProcess (s : Collecting) (w : World) (U : Finset String) (m : Nat) (v : View)
    (b : Nat) : Prop :=
  s.record.name ∈ U ∧ s.run.Affords w U m s.record.name
    (fun chain k => v.name = s.record.name ∧
      (s.record.name ∈ chain ∨ m + 1 ≤ k + chain.length)) b

/-- The run can afford to import candidates on behalf of the record, which is on the stack.  If the
candidates belong to its own class, they go on with its trail, which does not come back. -/
structure Collecting.CanImport (s : Collecting) (w : World) (U : Finset String) (m : Nat)
    (current : View) (b : Nat) : Prop where
  known : s.record.name ∈ U
  stacked : ImportStack.holds s.run.stack s.record.name = true
  affords : s.run.Affords w U m s.record.name (fun chain k => current.name = s.record.name ∧
    s.record.name ∉ chain ∧ m + 1 ≤ k + chain.length) b

/-- What has been done as part of a record leaves enough for the rest. -/
theorem Collecting.CanProcess.advance {w : World} {K : Scope} {U : Finset String} {m b : Nat}
    {v : View} {s t : Collecting} (h : s.CanProcess w U m v b) (hw : w.Confines K U m)
    (hst : Moves w K .source s t) : t.CanProcess w U m v b := by
  obtain ⟨hname, hafford⟩ := h
  rw [CanProcess, hst.continues.name]
  refine ⟨hname, hafford.advance hw.card hname ?_⟩
  exact hst.advances hw.scanner hw.selects hw.neverSkips (by simp)

theorem Collecting.CanImport.advance {w : World} {K : Scope} {U : Finset String} {m b : Nat}
    {current : View} {s t : Collecting} (h : s.CanImport w U m current b)
    (hw : w.Confines K U m) (hst : Moves w K .candidates s t) : t.CanImport w U m current b := by
  obtain ⟨hname, hstacked, hafford⟩ := h
  constructor
  · rw [hst.continues.name]
    exact hname
  · rw [hst.continues.name, hst.continues.stack]
    exact hstacked
  · rw [hst.continues.name]
    refine hafford.advance hw.card hname ?_
    exact hst.advances hw.scanner hw.selects hw.neverSkips (by simp)

/-- Putting the record's class on the stack costs nothing, and pays for a whole trail if it was not
there.  If it was, its trail does not come back, or its imports would be left alone. -/
theorem Collecting.CanProcess.push {w : World} {U : Finset String} {m b : Nat} {current : View}
    {s : Collecting} (h : s.CanProcess w U m current b)
    (hcircular : ImportStack.isCircular s.run.stack s.run.importers s.record.name = false) :
    Collecting.CanImport
      { s with run := { s.run with stack := s.record.info :: s.run.stack } } w U m current b := by
  obtain ⟨hname, hafford⟩ := h
  refine ⟨hname, ImportStack.holds_cons.2 (.inl rfl), ?_⟩
  cases hholds : ImportStack.holds s.run.stack s.record.name with
  | false =>
    have hlt : Run.rank { s.run with stack := s.record.info :: s.run.stack } w U m <
        s.run.rank w U m := Run.rank_push_lt hname hholds
    exact .inr (Nat.le_of_succ_le (Run.cost_lt_of_rank_lt hlt hafford.rank_lt))
  | true =>
    have hle : Run.rank { s.run with stack := s.record.info :: s.run.stack } w U m * (m + 3) ≤
        s.run.rank w U m * (m + 3) := Nat.mul_le_mul_right _ (Run.rank_push_le _)
    obtain ⟨chain, k, hpending, htrail, ⟨hown, hlength⟩, hcost⟩ | hcost := hafford
    · have hfresh : s.record.name ∉ chain := by
        intro hmem
        rw [htrail.isCircular hmem] at hcircular
        cases hcircular
      refine .inl ⟨chain, k, hpending, htrail.push _, ⟨hown, hfresh, ?_⟩, ?_⟩
      · exact hlength.resolve_left hfresh
      · rw [Run.cost] at hcost ⊢
        exact Nat.le_trans (Nat.add_le_add_right hle (k + 1)) hcost
    · rw [Run.cost] at hcost
      right
      rw [Run.cost]
      dsimp only at hle ⊢
      omega

/-- An imported class gets a trail that is one longer, for one less. -/
theorem Collecting.CanImport.canEnter {w : World} {U : Finset String} {m b : Nat}
    {current v : View} {s : Collecting} (hU : U.card ≤ m) (h : s.CanImport w U m current b) :
    1 ≤ b ∧ Run.CanEnter { s.run with importers := s.run.importers.register current.info v.name }
      w U m (.imported v s.record) (b - 1) := by
  obtain ⟨hname, hstacked, ⟨chain, k, hpending, htrail, ⟨hown, hfresh, hlength⟩, hcost⟩ | hcost⟩ :=
    h
  · obtain ⟨chain', htrail', hchain'⟩ :=
      htrail.register hname hpending hstacked hfresh hown v.name
    have hshort := htrail.length_le
    rw [Run.cost] at hcost
    refine ⟨by omega, .inl ⟨rfl, .inr ⟨chain', k - 1, htrail', ?_, ?_⟩⟩⟩
    · obtain hmem | hlonger := hchain'
      · exact .inl hmem
      · right
        omega
    · show s.run.rank w U m * (m + 3) + (k - 1) + 1 ≤ b - 1
      omega
  · refine ⟨by omega, .inl ⟨rfl, .inr ⟨[], m + 1, Run.trail_nil, .inr (Nat.le_refl _), ?_⟩⟩⟩
    show s.run.cost w U m (m + 1) ≤ b - 1
    omega

/-- Steps that may go `fuel` levels deep do not fail for nesting, within the depth and the budget
that they are given. -/
structure Steps.Spares (w : World) (K : Scope) (U : Finset String) (m fuel : Nat) (steps : Steps) :
    Prop where
  enter : ∀ {c : ConfigClass} {b : Nat} {s t : Run} {e : Failure}, K.Enters c.view → c.IsNew →
    s.CanEnter w U m c b → s.depth + b + 1 ≤ w.maxDepth →
    steps.enter c w.resolver.filter s = .error e t → e.IsSpared (3 * b + 3 ≤ fuel)
  climb : ∀ {v : View} {b : Nat} {s t : Collecting} {e : Failure}, K.Reads s.record.info v →
    (¬ K.Scans w → s.run.Grants s.record.name v) → s.run.HasOpened s.record.name →
    v.IsBare ∨ s.CanProcess w U m v b → s.run.depth + b ≤ w.maxDepth →
    steps.climb v w.resolver.filter s = .error e t → e.IsSpared (3 * b + 2 ≤ fuel)
  imports : ∀ {current : View} {us : List View} {b : Nat} {s t : Collecting} {e : Failure},
    (∀ u ∈ us, w.resolver.IsPlain u → K.Enters u) →
    (∀ u ∈ us, K.Imports w s.record.info current.info u) →
    us = [] ∨ s.CanProcess w U m current b → s.run.depth + b ≤ w.maxDepth →
    steps.imports current us w.resolver.filter true s = .error e t →
    e.IsSpared (3 * b + 1 ≤ fuel)

namespace Step

variable {w : World} {K : Scope} {U : Finset String} {m fuel b : Nat} {deeper : Steps}
  {e : Failure}

/-! ## Entering -/

/-- Whatever the record can be entered with, it can be processed with. -/
theorem canProcess_opening (hw : w.Confines K U m) {c : ConfigClass} {s t : Run}
    (hcan : s.CanEnter w U m c b) (henrolls : s.Enrolls c t) (hU : c.name ∈ U)
    {v : View} (hv : v = c.view) :
    Collecting.CanProcess ⟨c, t.opening c⟩ w U m v b := by
  refine ⟨hU, ?_⟩
  obtain ⟨himported, hroom⟩ | hcost := hcan
  · obtain ⟨hpending, rfl⟩ | ⟨_, hexplicit, _⟩ := henrolls
    · obtain hcommitted | ⟨chain, k, htrail, hlength, hcost⟩ := hroom
      · exact absurd hcommitted hpending
      · have htrail' : (t.opening c).Trail U c.name chain :=
          ⟨htrail.linked, htrail.nodup, htrail.known, htrail.pending, htrail.stacked⟩
        exact .inl ⟨chain, k, hpending, htrail', ⟨by rw [hv]; rfl, hlength⟩, hcost⟩
    · rw [himported] at hexplicit
      cases hexplicit
  · right
    have hunset : (t.opening c).unset U ≤ 3 * m := Run.unset_le hw.card
    have hregistered : (t.opening c).unregistered w = s.unregistered w := henrolls.unregistered
    have hmul : (t.opening c).rank w U m * (m + 3) ≤
        (s.unregistered w * (3 * m + 1) + 3 * m) * (m + 3) := by
      refine Nat.mul_le_mul_right _ ?_
      rw [Run.rank, hregistered]
      omega
    show (t.opening c).cost w U m (m + 1) + 1 ≤ b
    rw [Run.cost]
    omega

theorem enter_spares (hs : deeper.Spares w K U m fuel) (hw : w.Confines K U m)
    {c : ConfigClass} {s t : Run} (hview : K.Enters c.view) (hcan : s.CanEnter w U m c b)
    (hdepth : s.depth + b + 1 ≤ w.maxDepth)
    (h : enter w deeper c w.resolver.filter s = .error e t) :
    e.IsSpared (3 * b + 3 ≤ fuel + 1) := by
  obtain h | ⟨s₁, s₂, hskip, henrolls, h⟩ := enter_eq_error h
  · exact .of_isPlain ((quiet_skips w _ _).error h).2
  have hcourse := (quiet_skips w _ _).ok hskip
  obtain ⟨_, hdepth₂, _, _, _⟩ := henrolls.continues
  have hdepth₁ : s₂.depth + b + 1 ≤ w.maxDepth := by
    rw [hdepth₂, hcourse.depth]
    exact hdepth
  obtain ⟨hlimit, _⟩ | ⟨_, record, u, hclimb, _⟩ := process_eq_error h
  · omega
  have hread := hw.admits.own hview fun _ => rfl
  have hcan₁ : s₁.CanEnter w U m c b := hcan.sameCourse hcourse
  have hprocess : (c.view.filtered w.resolver.filter).IsBare ∨
      Collecting.CanProcess ⟨c, s₂.opening c⟩ w U m (c.view.filtered w.resolver.filter) b := by
    obtain hbare | hU := hw.known hread
    · exact .inl hbare
    · rw [View.filtered]
      split
      · exact .inl rfl
      · exact .inr (canProcess_opening hw hcan₁ henrolls hU rfl)
  have hopen : (s₂.opening c).HasOpened c.name := ⟨c.isImported, List.mem_cons_self⟩
  have hspared := hs.climb (s := ⟨c, s₂.opening c⟩) hread
    (fun _ => Run.grants_filtered _ c _) hopen hprocess
    (by show s₂.depth + 1 + b ≤ w.maxDepth; omega) hclimb
  exact hspared.mono fun hfuel => by omega

/-! ## Member classes -/

theorem reportCircular_eq_error {c : ClassInfo} {s t : Run}
    (h : RunM.reportCircular w c s = .error e t) : e.isNesting = false := by
  obtain ⟨problem, _, _, hreport⟩ := reportCircular_eq w c s
  rw [hreport, report_eq] at h
  split at h
  · obtain ⟨rfl, _⟩ := EStateM.Result.error.inj h
    rfl
  · cases h

/-- An imported record may begin a new trail. -/
theorem canEnter_imported {s : Run} {v : View} {record : ConfigClass}
    (hcost : s.cost w U m (m + 1) ≤ b) : s.CanEnter w U m (.imported v record) b :=
  .inl ⟨rfl, .inr ⟨[], m + 1, Run.trail_nil, .inr (Nat.le_refl _), hcost⟩⟩

theorem enterImported_spares (hs : deeper.Spares w K U m fuel) {record : ConfigClass} {v : View}
    {s t : Run} (hv : K.Enters v) (hcan : s.CanEnter w U m (.imported v record) b)
    (hdepth : s.depth + b + 1 ≤ w.maxDepth)
    (h : enterImported deeper w.resolver.filter record v s = .error e t) :
    e.IsSpared (3 * b + 3 ≤ fuel) := by
  replace h := modify_bind_eq.1 h
  exact hs.enter hv (ConfigClass.isNew_imported v record) (hcan.importing v.name record.name)
    hdepth h

theorem enterMember_spares (hs : deeper.Spares w K U m fuel) {record : ConfigClass} {v : View}
    {s t : Run} (hv : K.Enters v) (hU : record.name ∈ U) (hrank : s.rank w U m * (m + 3) < b)
    (hdepth : s.depth + b ≤ w.maxDepth)
    (h : enterMember w deeper w.resolver.filter record v s = .error e t) :
    e.IsSpared (3 * b ≤ fuel) := by
  replace h := get_bind_eq.1 h
  split at h
  · exact .of_isNesting (reportCircular_eq_error h)
  · rename_i hholds
    rw [Bool.not_eq_true] at hholds
    replace h := modify_bind_eq.1 h
    obtain ⟨u, hu, _⟩ := ensuring_eq_error.1 h
    have hlt : Run.rank { s with stack := record.info :: s.stack } w U m < s.rank w U m :=
      Run.rank_push_lt hU hholds
    have hcost := Run.cost_lt_of_rank_lt hlt hrank
    have hcan : Run.CanEnter { s with stack := record.info :: s.stack } w U m
        (.imported v record) (b - 1) := canEnter_imported (by omega)
    have hspared := enterImported_spares hs hv hcan
      (by show s.depth + (b - 1) + 1 ≤ w.maxDepth; omega) hu
    exact hspared.mono fun hfuel => by omega

theorem enterMembers_spares (hd : deeper.Sound w K) (hs : deeper.Spares w K U m fuel)
    (hw : w.Confines K U m) {v : View} {s t : Collecting} (hread : K.Reads s.record.info v)
    (hroom : v.IsBare ∨ s.CanProcess w U m v b) (hdepth : s.run.depth + b ≤ w.maxDepth)
    (h : enterMembers w deeper v w.resolver.filter s = .error e t) :
    e.IsSpared (3 * b ≤ fuel) := by
  obtain ⟨record, run⟩ := s
  replace h := record_bind_eq.1 h
  split at h
  · rename_i htag
    have henters : ∀ u ∈ memberCandidates w.resolver v record.name, K.Enters u :=
      hw.admits.members hread htag
    obtain ⟨u, hu, mid, hmid, hfail⟩ := forM_eq_error
      (R := fun s t : Collecting => s.record = record → t.record = record ∧ Moves w K .source s t)
      (fun s hs => ⟨hs, .refl s⟩)
      (fun hst htu hs => ⟨(htu (hst hs).1).1, (hst hs).2.trans (htu (hst hs).1).2⟩)
      (fun u hu s t hstep hs => by
        obtain ⟨run', hrun, rfl⟩ := toRecordM_eq_ok.1 hstep
        subst hs
        exact ⟨rfl, (enterMember_moves hd (by simp) (fun _ => rfl) (henters u hu)
          ⟨v, u, hread, hu⟩ hrun).1⟩) h
    obtain ⟨hrecord, hmoves⟩ := hmid rfl
    obtain ⟨run', hrun, _⟩ := toRecordM_eq_error.1 hfail
    obtain hbare | hcan := hroom
    · obtain ⟨hmember, _⟩ := mem_memberCandidates.1 hu
      obtain ⟨name, hname, _⟩ := Resolver.related_of_mem_members hmember
      rw [hbare] at hname
      cases hname
    · have hrank := (hcan.advance hw hmoves).2.rank_lt
      have hdepth' : mid.run.depth + b ≤ w.maxDepth := by
        rw [hmoves.continues.depth]
        exact hdepth
      exact enterMember_spares hs (henters u hu) hcan.1 hrank hdepth' hrun
  · exact absurd h pure_ne_error

/-! ## Scans -/

/-- A class that has just been registered may be entered whatever its superclasses are. -/
theorem enterFound_spares (hs : deeper.Spares w K U m fuel) {found : NamedDefinition} {s t : Run}
    (hview : ∀ u, w.resolver.ofDefinition (scannedDefinition found) found.beanName = .ok u →
      K.Enters u)
    (hcost : (s.unregistered w * (3 * m + 1) + 3 * m) * (m + 3) + (m + 1) + 3 ≤ b)
    (hdepth : s.depth + b ≤ w.maxDepth) (h : enterFound w deeper found s = .error e t) :
    e.IsSpared (3 * b ≤ fuel) := by
  rw [enterFound] at h
  split at h
  · obtain ⟨h, _⟩ | ⟨view, hu, h⟩ := ofExcept_bind_eq_error.1 h
    · exact .of_isPlain (w.resolver.tame_ofDefinition _ _ _ h)
    have hcan : s.CanEnter w U m (.explicit view (some found.beanName)) (b - 1) :=
      .inr (by omega)
    have hspared := hs.enter (hview view hu) (ConfigClass.isNew_explicit view _) hcan (by omega) h
    exact hspared.mono fun hfuel => by omega
  · exact absurd h pure_ne_error

theorem enterScanned_spares (hd : deeper.Sound w K) (hs : deeper.Spares w K U m fuel)
    (hw : w.Confines K U m) {c : ClassInfo} {v : View} {scan : Tag} {s t : Run}
    (hread : K.Reads c v)
    (hscan : w.resolver.repeatable v.info WellKnown.componentScan WellKnown.componentScans ≠ [])
    (hrank : s.rank w U m * (m + 3) < b) (hdepth : s.depth + b ≤ w.maxDepth)
    (h : enterScanned w deeper v.info.name scan s = .error e t) : e.IsSpared (3 * b ≤ fuel) := by
  replace h := get_bind_eq.1 h
  dsimp only at h
  have htame := w.scanner.tame_scan (ScanRequest.ofTag scan v.info.name s.environment)
    w.resolver.reader s.registry
  generalize hanswer : w.scanner.scan (ScanRequest.ofTag scan v.info.name s.environment)
    w.resolver.reader s.registry = x at h htame
  obtain ⟨answer, registry⟩ := x
  replace h := set_bind_eq.1 h
  obtain ⟨h, _⟩ | ⟨found, rfl, h⟩ := ofExcept_bind_eq_error.1 h
  · exact .of_isPlain (htame _ h)
  have hview : ∀ d ∈ found, ∀ u,
      w.resolver.ofDefinition (scannedDefinition d) d.beanName = .ok u → K.Enters u :=
    fun d hd u hu => hw.admits.scanned hread hscan hanswer hd hu
  obtain ⟨d, hmem, u, hmoves, hfail⟩ := forM_eq_error
    (R := fun s t => Moves w K .entries ⟨.explicit .object none, s⟩ ⟨.explicit .object none, t⟩)
    (fun _ => .refl _) .trans
    (fun d hmem _ _ hstep => enterFound_moves hd (hview d hmem) hstep) h
  obtain ⟨rfl, _⟩ | hlt := Scanner.unregistered_scan hw.scanner hanswer
  · cases hmem
  · have hfewer : u.unregistered w < s.unregistered w :=
      Nat.lt_of_le_of_lt (hmoves.unregistered_le hw.scanner) hlt
    have hbelow := Run.rank_lt_of_unregistered (U := U) (m := m) hfewer
    have hmul : (u.unregistered w * (3 * m + 1) + 3 * m + 1) * (m + 3) ≤
        s.rank w U m * (m + 3) := Nat.mul_le_mul_right _ hbelow
    rw [Nat.add_mul _ 1] at hmul
    have hdepth' : u.depth = s.depth := hmoves.continues.depth
    exact enterFound_spares hs (hview d hmem) (by omega) (by omega) hfail

theorem enterAllScanned_spares (hd : deeper.Sound w K) (hs : deeper.Spares w K U m fuel)
    (hw : w.Confines K U m) {v : View} {s : Collecting} {t : Run} (hread : K.Reads s.record.info v)
    (hroom : v.IsBare ∨ s.CanProcess w U m v b) (hdepth : s.run.depth + b ≤ w.maxDepth)
    (h : enterAllScanned w deeper v.info s.run = .error e t) : e.IsSpared (3 * b ≤ fuel) := by
  rw [enterAllScanned] at h
  split at h
  · rename_i hscans
    have hne : w.resolver.repeatable v.info WellKnown.componentScan WellKnown.componentScans ≠
        [] := by
      intro hnil
      rw [hnil] at hscans
      cases hscans
    obtain h | ⟨skip, s₁, hskip, h⟩ := bind_eq_error.1 h
    · exact .of_isPlain ((quiet_skips w _ _).error h).2
    cases skip with
    | true => exact absurd h pure_ne_error
    | false =>
      obtain ⟨scan, _, u, hmoves, hfail⟩ := forM_eq_error
        (R := fun run run' => Moves w K .source { s with run } { s with run := run' })
        (fun _ => .refl _) .trans
        (fun scan _ _ _ hstep => enterScanned_moves hd hw.admits hread hne hstep) h
      have hmoves' : Moves w K .source s { s with run := u } :=
        .trans (.aside ((quiet_skips w _ _).ok hskip)) hmoves
      obtain hbare | hcan := hroom
      · refine absurd (Resolver.repeatable_of_untagged ?_ _ _) hne
        rw [hbare]
      · have hrank := (hcan.advance hw hmoves').2.rank_lt
        have hdepth' : u.depth + b ≤ w.maxDepth := by
          rw [hmoves'.continues.depth]
          exact hdepth
        exact enterScanned_spares hd hs hw hread hne hrank hdepth' hfail
  · exact absurd h pure_ne_error

/-! ## Importing -/

theorem importRegistrar_eq_error {current v : View} {s t : Collecting}
    (h : importRegistrar w current v s = .error e t) : e.isPlain = true := by
  obtain ⟨h, _⟩ | ⟨type, _, h⟩ := ofExcept_bind_eq_error.1 h
  · exact w.resolver.tame_load v _ h
  obtain h | ⟨_, _, _, h⟩ := bind_eq_error.1 h
  · obtain ⟨_, h, _⟩ := toRecordM_eq_error.1 h
    exact ((quiet_produceRegistrar w type).error h).2
  · exact absurd h modify_ne_error

theorem importClass_spares (hs : deeper.Spares w K U m fuel) (hw : w.Confines K U m)
    {current v : View} {s t : Collecting} (hv : K.Enters v) (hcan : s.CanImport w U m current b)
    (hdepth : s.run.depth + b ≤ w.maxDepth)
    (h : importClass deeper current w.resolver.filter v s = .error e t) :
    e.IsSpared (3 * b ≤ fuel) := by
  replace h := modify_bind_eq.1 h
  replace h := record_bind_eq.1 h
  obtain ⟨run, hrun, _⟩ := toRecordM_eq_error.1 h
  obtain ⟨hb, henter⟩ := hcan.canEnter (v := v) hw.card
  have hspared := enterImported_spares hs hv henter
    (by show s.run.depth + (b - 1) + 1 ≤ w.maxDepth; omega) hrun
  exact hspared.mono fun hfuel => by omega

theorem importEach_spares (hd : deeper.Sound w K) (hs : deeper.Spares w K U m fuel)
    (hw : w.Confines K U m) {current : View} {us : List View} {s t : Collecting}
    (hus : ∀ u ∈ us, w.resolver.IsPlain u → K.Enters u)
    (himports : ∀ u ∈ us, K.Imports w s.record.info current.info u)
    (hcan : s.CanImport w U m current b) (hdepth : s.run.depth + b ≤ w.maxDepth)
    (h : importEach w deeper current w.resolver.filter us s = .error e t) :
    e.IsSpared (3 * b ≤ fuel) := by
  induction us generalizing s with
  | nil => exact absurd h pure_ne_error
  | cons v vs ih =>
    have hvs : ∀ u ∈ vs, w.resolver.IsPlain u → K.Enters u := fun u hu =>
      hus u (List.mem_cons_of_mem _ hu)
    have hrest {s₁ : Collecting} (hmoves : Moves w K .candidates s s₁)
        (h : importEach w deeper current w.resolver.filter vs s₁ = .error e t) :
        e.IsSpared (3 * b ≤ fuel) := by
      refine ih hvs (fun u hu => ?_) (hcan.advance hw hmoves) ?_ h
      · rw [hmoves.continues.info]
        exact himports u (List.mem_cons_of_mem _ hu)
      · rw [hmoves.continues.depth]
        exact hdepth
    have hselector : w.resolver.isAssignable v WellKnown.importSelector = false := by
      rw [← Bool.not_eq_true]
      exact fun hselector => hw.selects ((himports v List.mem_cons_self).selects hselector)
    rw [importEach, if_neg (by simp [hselector])] at h
    split at h
    · obtain h | ⟨_, s₁, hs', h⟩ := bind_eq_error.1 h
      · exact .of_isPlain (importRegistrar_eq_error h)
      · exact hrest (importRegistrar_moves hs') h
    · rename_i hregistrar
      rw [Bool.not_eq_true] at hregistrar
      split at h
      · rename_i hobject
        have hplain : w.resolver.IsPlain v := ⟨hselector, hregistrar, by simpa using hobject⟩
        have hv := hus v List.mem_cons_self hplain
        obtain h | ⟨_, s₁, hs', h⟩ := bind_eq_error.1 h
        · exact importClass_spares hs hw hv hcan hdepth h
        · exact hrest (importClass_moves hd (by simp) (fun _ => rfl) hv
            (himports v List.mem_cons_self) hplain hs').1 h
      · exact hrest (.refl s) h

theorem imports_spares (hd : deeper.Sound w K) (hs : deeper.Spares w K U m fuel)
    (hw : w.Confines K U m) {current : View} {us : List View} {s t : Collecting}
    (hus : ∀ u ∈ us, w.resolver.IsPlain u → K.Enters u)
    (himports : ∀ u ∈ us, K.Imports w s.record.info current.info u)
    (hroom : us = [] ∨ s.CanProcess w U m current b) (hdepth : s.run.depth + b ≤ w.maxDepth)
    (h : imports w deeper current us w.resolver.filter true s = .error e t) :
    e.IsSpared (3 * b + 1 ≤ fuel + 1) := by
  rw [imports] at h
  split at h
  · exact absurd h pure_ne_error
  · rename_i hempty
    obtain rfl | hcan := hroom
    · exact absurd rfl hempty
    replace h := record_bind_eq.1 h
    replace h := get_bind_eq.1 h
    split at h
    · obtain ⟨run, hrun, _⟩ := toRecordM_eq_error.1 h
      exact .of_isNesting (reportCircular_eq_error hrun)
    · rename_i hcircular
      rw [Bool.true_and, Bool.not_eq_true] at hcircular
      obtain h | ⟨_, s₁, hs', h⟩ := bind_eq_error.1 h
      · obtain ⟨_, h, _⟩ := toRecordM_eq_error.1 h
        exact absurd h modify_ne_error
      obtain ⟨run, hrun, rfl⟩ := toRecordM_eq_ok.1 hs'
      obtain rfl := modify_eq_ok.1 hrun
      obtain ⟨cause, hcause, rfl⟩ := onFailure_eq_error.1 h
      obtain ⟨u, hu, _⟩ := ensuring_eq_error.1 hcause
      have hspared := importEach_spares hd hs hw hus (by exact himports) (hcan.push hcircular)
        hdepth hu
      exact (hspared.within _ _).mono fun hfuel => by omega

/-! ## Sources -/

theorem addResources_eq_error {c : ClassInfo} {s t : Collecting}
    (h : addResources w c s = .error e t) : e.isPlain = true := by
  rw [addResources] at h
  cases htag : w.resolver.findTag? c WellKnown.importResource with
  | none =>
    rw [htag] at h
    exact absurd h pure_ne_error
  | some tag =>
    rw [htag] at h
    obtain ⟨location, _, u, _, hfail⟩ := forM_eq_error (R := fun _ _ => True)
      (fun _ => trivial) (fun _ _ => trivial) (fun _ _ _ _ _ => trivial) h
    replace hfail := get_bind_eq.1 hfail
    obtain ⟨hfail, _⟩ | ⟨_, _, hfail⟩ := ofExcept_bind_eq_error.1 hfail
    · obtain ⟨cause, _, rfl⟩ := mapError_eq_error hfail
      rfl
    · exact absurd hfail modify_ne_error

theorem collectMethods_eq_error {v : View} {s t : Collecting}
    (h : collectMethods w v s = .error e t) : e.isPlain = true := by
  replace h := record_bind_eq.1 h
  obtain ⟨h, _⟩ | ⟨_, _, h⟩ := ofExcept_bind_eq_error.1 h
  · exact w.resolver.tame_addAllMethods _ v _ h
  · exact absurd h modify_ne_error

theorem takeSuperclass_eq_error {v : View} {s t : Collecting}
    (h : takeSuperclass w v s = .error e t) : e.isPlain = true := by
  rw [takeSuperclass] at h
  cases hname : v.info.superClass with
  | none =>
    rw [hname] at h
    exact absurd h pure_ne_error
  | some name =>
    rw [hname] at h
    replace h := get_bind_eq.1 h
    split at h
    · exact absurd h pure_ne_error
    · replace h := record_bind_eq.1 h
      replace h := modify_bind_eq.1 h
      obtain ⟨h, _⟩ := ofExcept_eq_error.1 h
      exact w.resolver.tame_superClass v _ h

theorem followImports_spares (hs : deeper.Spares w K U m fuel) (hw : w.Confines K U m) {v : View}
    {s t : Collecting} (hread : K.Reads s.record.info v)
    (hroom : v.IsBare ∨ s.CanProcess w U m v b) (hdepth : s.run.depth + b ≤ w.maxDepth)
    (h : followImports w deeper v w.resolver.filter s = .error e t) :
    e.IsSpared (3 * b + 1 ≤ fuel) := by
  obtain ⟨h, _⟩ | ⟨us, hus, h⟩ := ofExcept_bind_eq_error.1 h
  · exact .of_isPlain (w.resolver.tame_imports v _ h)
  · have himports : ∀ u ∈ us, K.Imports w s.record.info v.info u := fun u hu =>
      .inr ⟨v, us, hread, rfl, hus, hu⟩
    refine hs.imports (hw.admits.imports hread hus) himports (hroom.imp_left fun hbare => ?_)
      hdepth h
    have hnone : w.resolver.imports v = .ok [] := Resolver.imports_of_untagged (by rw [hbare])
    exact Except.ok.inj (hus.symm.trans hnone)

theorem processSource_spares (hd : deeper.Sound w K) (hs : deeper.Spares w K U m fuel)
    (hw : w.Confines K U m) {v : View} {s t : Collecting} (hread : K.Reads s.record.info v)
    (hroom : v.IsBare ∨ s.CanProcess w U m v b) (hdepth : s.run.depth + b ≤ w.maxDepth)
    (h : processSource w deeper v w.resolver.filter s = .error e t) :
    e.IsSpared (3 * b + 2 ≤ fuel + 1) := by
  obtain h | ⟨_, s₁, h₁, h⟩ := bind_eq_error.1 h
  · exact (enterMembers_spares hd hs hw hread hroom hdepth h).mono fun hfuel => by omega
  have m₁ := (enterMembers_moves hd hw.admits (fun _ => rfl) hread h₁).1
  obtain h | ⟨_, s₂, h₂, h⟩ := bind_eq_error.1 h
  · obtain ⟨_, h, _⟩ := toRecordM_eq_error.1 h
    exact .of_isPlain ((quiet_addDeclaredSources w v.info).error h).2
  obtain ⟨run₂, hsources, rfl⟩ := toRecordM_eq_ok.1 h₂
  have m₂ : Moves w K .source s { s₁ with run := run₂ } :=
    .trans m₁ (.aside ((quiet_addDeclaredSources w v.info).ok hsources))
  have hread₁ : K.Reads s₁.record.info v := by
    rw [m₁.continues.info]
    exact hread
  have hroom₂ : v.IsBare ∨ Collecting.CanProcess { s₁ with run := run₂ } w U m v b :=
    hroom.imp_right fun hcan => hcan.advance hw m₂
  have hdepth₂ : run₂.depth + b ≤ w.maxDepth := by
    have := m₂.continues.depth
    dsimp only at this
    omega
  obtain h | ⟨_, s₃, h₃, h⟩ := bind_eq_error.1 h
  · obtain ⟨_, h, _⟩ := toRecordM_eq_error.1 h
    have hspared := enterAllScanned_spares (s := { s₁ with run := run₂ }) hd hs hw hread₁ hroom₂
      hdepth₂ h
    exact hspared.mono fun hfuel => by omega
  obtain ⟨run₃, hscans, rfl⟩ := toRecordM_eq_ok.1 h₃
  have m₃ : Moves w K .source s { s₁ with run := run₃ } :=
    m₂.trans (enterAllScanned_moves hd hw.admits hread₁ hscans)
  obtain h | ⟨_, s₄, h₄, h⟩ := bind_eq_error.1 h
  · have hroom₃ : v.IsBare ∨ Collecting.CanProcess { s₁ with run := run₃ } w U m v b :=
      hroom.imp_right fun hcan => hcan.advance hw m₃
    have hdepth₃ : run₃.depth + b ≤ w.maxDepth := by
      have := m₃.continues.depth
      dsimp only at this
      omega
    have hspared := followImports_spares (s := { s₁ with run := run₃ }) hs hw hread₁ hroom₃
      hdepth₃ h
    exact hspared.mono fun hfuel => by omega
  obtain h | ⟨_, s₅, _, h⟩ := bind_eq_error.1 h
  · exact .of_isPlain (addResources_eq_error h)
  obtain h | ⟨_, s₆, _, h⟩ := bind_eq_error.1 h
  · exact .of_isPlain (collectMethods_eq_error h)
  · exact .of_isPlain (takeSuperclass_eq_error h)

theorem climb_spares (hd : deeper.Sound w K) (hs : deeper.Spares w K U m fuel)
    (hw : w.Confines K U m) {v : View} {s t : Collecting} (hread : K.Reads s.record.info v)
    (hgrants : ¬ K.Scans w → s.run.Grants s.record.name v) (hopen : s.run.HasOpened s.record.name)
    (hroom : v.IsBare ∨ s.CanProcess w U m v b) (hdepth : s.run.depth + b ≤ w.maxDepth)
    (h : climb w deeper v w.resolver.filter s = .error e t) :
    e.IsSpared (3 * b + 2 ≤ fuel + 1) := by
  obtain h | ⟨next, s₁, hnext, h⟩ := bind_eq_error.1 h
  · exact processSource_spares hd hs hw hread hroom hdepth h
  obtain ⟨u, hmoves, _, htake⟩ :=
    processSource_moves hd hw.admits (fun _ => rfl) hread hgrants hnext
  obtain ⟨rfl, rfl⟩ | ⟨source, next, hname, hplatform, hfree, hsuper, rfl, rfl⟩ :=
    takeSuperclass_eq_ok htake
  · exact absurd h pure_ne_error
  · have hcan : s.CanProcess w U m v b := by
      obtain hbare | hcan := hroom
      · rw [hbare] at hname
        cases hname
      · exact hcan
    have hafter := hcan.advance hw hmoves
    have hread' : K.Reads u.record.info next := by
      rw [hmoves.continues.info]
      exact hw.admits.superClass hread hname hplatform hsuper
    have hopen' : u.run.HasOpened u.record.name := by
      rw [hmoves.continues.name]
      exact hopen.mono hmoves.continues.history.subset
    obtain hbare | hsource := hw.superClass hread hname hsuper
    · have hspared := hs.climb (b := 0) (s := { u with run := { u.run with
        superclassOwners := u.run.superclassOwners.insert source u.record.name } })
        hread' (fun _ => u.run.grants_claimed hname hsuper) hopen' (.inl hbare) (by
          have := hmoves.continues.depth
          dsimp only
          omega) h
      have hb := hafter.2.rank_lt
      exact hspared.mono fun hfuel => by omega
    · -- The claim pays for a whole trail and for one more step.
      have hlt : Run.rank { u.run with
          superclassOwners := u.run.superclassOwners.insert source u.record.name } w U m <
            u.run.rank w U m := Run.rank_claim_lt hsource hfree
      have hcost := Run.cost_lt_of_rank_lt hlt hafter.2.rank_lt
      have hspared := hs.climb (s := { u with run := { u.run with
        superclassOwners := u.run.superclassOwners.insert source u.record.name } }) (b := b - 1)
        hread' (fun _ => u.run.grants_claimed hname hsuper) hopen'
        (.inr ⟨hafter.1, .inr (Nat.le_sub_one_of_lt hcost)⟩) (by
          have := hmoves.continues.depth
          dsimp only
          omega) h
      exact hspared.mono fun hfuel => by omega

end Step

/-- However many steps they may take, the steps do not fail for nesting, within what they are
given. -/
theorem Run.spares_steps {w : World} {K : Scope} {U : Finset String} {m : Nat}
    (hw : w.Confines K U m) (fuel : Nat) : (Run.steps w fuel).Spares w K U m fuel := by
  induction fuel with
  | zero =>
    constructor
    · intro c b s t e _ _ _ _ h
      obtain ⟨rfl, _⟩ := throw_eq_error.1 h
      exact ⟨rfl, fun hfuel => by omega⟩
    · intro v b s t e _ _ _ _ _ h
      obtain ⟨rfl, _⟩ := throw_eq_error.1 h
      exact ⟨rfl, fun hfuel => by omega⟩
    · intro current us b s t e _ _ _ _ h
      obtain ⟨rfl, _⟩ := throw_eq_error.1 h
      exact ⟨rfl, fun hfuel => by omega⟩
  | succ fuel ih =>
    have hd := sound_steps hw.admits fuel
    constructor
    · intro c b s t e hview _ hcan hdepth h
      exact Step.enter_spares ih hw hview hcan hdepth h
    · intro v b s t e hread hgrants hopen hroom hdepth h
      exact Step.climb_spares hd ih hw hread hgrants hopen hroom hdepth h
    · intro current us b s t e hus himports hroom hdepth h
      exact Step.imports_spares hd ih hw hus himports hroom hdepth h

end Wiring
