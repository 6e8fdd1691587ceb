import Wiring.Proofs.Quiet
import Wiring.Proofs.Resolving

/-!
# Groups of deferred selectors

Producing groups can fail, for want of a group type.  Asking a group for its entries always
succeeds: it is handed each of its selectors once and then gives its entries.  A group that has been
put together has its selectors from those that were to be put into groups, and is the default group
or has been produced by a loaded type.
-/

namespace Wiring

/-! ## Producing a strategy -/

/-- A strategy is made in the surroundings that the effect of its maker leaves. -/
theorem produce_eq_ok_iff {w : World} {t : LoadedType} {strategy : Strategy} {s u : Run} :
    RunM.produce w t s = .ok strategy u ↔ ∃ maker, t.maker = some maker ∧
      u = { s with
        events := s.events ++ [.created t.name]
        environment := s.environment.modifySources maker.effect } ∧
      maker.make (RunM.surroundings w u) = .ok strategy := by
  rw [RunM.produce]
  cases t.maker with
  | none =>
    constructor
    · intro h
      exact absurd h throw_ne_ok
    · rintro ⟨_, hmaker, _⟩
      cases hmaker
  | some maker =>
    constructor
    · intro h
      replace h := modify_bind_eq.1 h
      replace h := modify_bind_eq.1 h
      replace h := get_bind_eq.1 h
      generalize hmade : maker.make _ = made at h
      cases made with
      | error message => exact absurd h throw_ne_ok
      | ok strategy =>
        obtain ⟨rfl, rfl⟩ := pure_eq_ok.1 h
        exact ⟨maker, rfl, rfl, hmade⟩
    · rintro ⟨_, hmaker, rfl, hmade⟩
      obtain rfl := Option.some.inj hmaker
      refine modify_bind_eq.2 (modify_bind_eq.2 (get_bind_eq.2 ?_))
      rw [hmade]
      rfl

theorem produce_eq_ok {w : World} {t : LoadedType} {strategy : Strategy} {s u : Run}
    (h : RunM.produce w t s = .ok strategy u) :
    (∃ maker, t.maker = some maker ∧ ∃ around, maker.make around = .ok strategy) ∧
      u.events = s.events ++ [.created t.name] := by
  obtain ⟨maker, hmaker, rfl, hmade⟩ := produce_eq_ok_iff.1 h
  exact ⟨⟨maker, hmaker, _, hmade⟩, rfl⟩

/-- Producing a strategy has the effect of its maker, also if it fails then. -/
theorem produce_eq_error {w : World} {t : LoadedType} {s u : Run} {e : Failure}
    (h : RunM.produce w t s = .error e u) : (∃ message, e = .instantiation t.name message) ∧
      (u = s ∨ ∃ maker, t.maker = some maker ∧
        u = { s with
          events := s.events ++ [.created t.name]
          environment := s.environment.modifySources maker.effect }) := by
  rw [RunM.produce] at h
  cases hmaker : t.maker with
  | none =>
    rw [hmaker] at h
    obtain ⟨rfl, rfl⟩ := throw_eq_error.1 h
    exact ⟨⟨_, rfl⟩, .inl rfl⟩
  | some maker =>
    rw [hmaker] at h
    replace h := modify_bind_eq.1 h
    replace h := modify_bind_eq.1 h
    replace h := get_bind_eq.1 h
    generalize maker.make _ = made at h
    cases made with
    | error message =>
      obtain ⟨rfl, rfl⟩ := throw_eq_error.1 h
      exact ⟨⟨message, rfl⟩, .inr ⟨maker, rfl, rfl⟩⟩
    | ok strategy => exact absurd h pure_ne_error

theorem loadType_eq_ok {w : World} {className : String} {t : LoadedType} {s u : Run}
    (h : RunM.loadType w className s = .ok t u) :
    w.resolver.types.find? className = some t ∧ s = u := by
  rw [RunM.loadType] at h
  cases ht : w.resolver.types.find? className with
  | none =>
    rw [ht] at h
    exact absurd h throw_ne_ok
  | some t' =>
    rw [ht] at h
    obtain ⟨rfl, rfl⟩ := pure_eq_ok.1 h
    exact ⟨rfl, rfl⟩

theorem loadType_eq_error {w : World} {className : String} {s u : Run} {e : Failure}
    (h : RunM.loadType w className s = .error e u) : e = .classNotFound className := by
  rw [RunM.loadType] at h
  cases ht : w.resolver.types.find? className with
  | none =>
    rw [ht] at h
    exact (throw_eq_error.1 h).1.symm
  | some t =>
    rw [ht] at h
    exact absurd h pure_ne_error

/-- The group comes from a loaded type. -/
def World.Produces (w : World) (g : Group) : Prop :=
  ∃ t ∈ w.resolver.types.types, ∃ maker, t.maker = some maker ∧
    ∃ around, maker.make around = .ok (.group g)

theorem produceGroup_eq_ok {w : World} {type : String} {group : Group} {s u : Run}
    (h : RunM.produceGroup w type s = .ok group u) :
    w.Produces group ∧ u.events = s.events ++ [.created type] := by
  rw [RunM.produceGroup] at h
  obtain ⟨t, s', hload, h⟩ := bind_eq_ok.1 h
  obtain ⟨strategy, u', hproduce, h⟩ := bind_eq_ok.1 h
  obtain ⟨hfind, rfl⟩ := loadType_eq_ok hload
  obtain ⟨⟨maker, hmaker, around, hmade⟩, hevents⟩ := produce_eq_ok hproduce
  cases strategy with
  | group g =>
    obtain ⟨rfl, rfl⟩ := pure_eq_ok.1 h
    rw [TypeTable.name_of_find? hfind] at hevents
    exact ⟨⟨t, TypeTable.mem_of_find? hfind, maker, hmaker, around, hmade⟩, hevents⟩
  | _ => exact absurd h throw_ne_ok

theorem createGroup_eq_ok {w : World} {groupType : Option String} {group : Group} {s u : Run}
    (h : RunM.createGroup w groupType s = .ok group u) :
    (group = .default ∨ w.Produces group) ∧
      u.events = s.events ++ groupType.toList.map .created := by
  cases groupType with
  | none =>
    obtain ⟨rfl, rfl⟩ := pure_eq_ok.1 h
    exact ⟨.inl rfl, (List.append_nil _).symm⟩
  | some type => exact (produceGroup_eq_ok h).imp_left .inr

/-- The failure says that no group comes from the type. -/
inductive Failure.IsWithoutGroup (type : String) : Failure → Prop
  | classNotFound : IsWithoutGroup type (.classNotFound type)
  | instantiation (message : String) : IsWithoutGroup type (.instantiation type message)
  | strategyMismatch (actual : StrategyKind) :
      IsWithoutGroup type (.strategyMismatch type .group actual)

theorem produceGroup_eq_error {w : World} {type : String} {s u : Run} {e : Failure}
    (h : RunM.produceGroup w type s = .error e u) : e.IsWithoutGroup type := by
  rw [RunM.produceGroup] at h
  rcases bind_eq_error.1 h with hload | ⟨t, s', hload, h⟩
  · rw [loadType_eq_error hload]
    exact .classNotFound
  rcases bind_eq_error.1 h with hproduce | ⟨strategy, u', hproduce, h⟩
  · obtain ⟨⟨message, rfl⟩, _⟩ := produce_eq_error hproduce
    rw [TypeTable.name_of_find? (loadType_eq_ok hload).1]
    exact .instantiation message
  cases strategy with
  | group g => exact absurd h pure_ne_error
  | _ =>
    obtain ⟨rfl, -⟩ := throw_eq_error.1 h
    exact .strategyMismatch _

theorem createGroup_eq_error {w : World} {groupType : Option String} {s u : Run} {e : Failure}
    (h : RunM.createGroup w groupType s = .error e u) :
    ∃ type, groupType = some type ∧ e.IsWithoutGroup type := by
  cases groupType with
  | none => exact absurd h pure_ne_error
  | some type => exact ⟨type, rfl, produceGroup_eq_error h⟩

/-! ## Putting selectors into groups -/

/-- The selectors are among those, and the group is produced by a loaded type or the default. -/
structure Grouping.IsFrom (g : Grouping) (w : World) (ds : List Deferred) : Prop where
  members : g.members ⊆ ds
  group : g.group = .default ∨ w.Produces g.group

theorem isFrom_of_add {w : World} {ds : List Deferred} {gs gs' : Groupings} {d : Deferred}
    {s t : Run} (hgs : ∀ e ∈ gs.entries, e.2.IsFrom w ds) (hd : d ∈ ds)
    (h : Grouping.add w gs d s = .ok gs' t) : ∀ e ∈ gs'.entries, e.2.IsFrom w ds := by
  have hsingle : [d] ⊆ ds := List.cons_subset.2 ⟨hd, List.nil_subset _⟩
  rw [Grouping.add] at h
  split at h
  · obtain ⟨rfl, rfl⟩ := pure_eq_ok.1 h
    intro e he
    obtain he | ⟨g, hg, rfl⟩ := OrderedMap.mem_of_mem_modify he
    · exact hgs e he
    · have hfrom := hgs _ (OrderedMap.mem_entries_of_get? hg)
      exact ⟨List.append_subset.2 ⟨hfrom.members, hsingle⟩, hfrom.group⟩
  · obtain ⟨group, u, hgroup, h⟩ := bind_eq_ok.1 h
    obtain ⟨rfl, rfl⟩ := pure_eq_ok.1 h
    intro e he
    obtain he | rfl := OrderedMap.mem_of_mem_put he
    · exact hgs e he
    · exact ⟨hsingle, (createGroup_eq_ok hgroup).1⟩

theorem isFrom_of_foldlM {w : World} {all : List Deferred} : ∀ {ds : List Deferred}
    {gs gs' : Groupings} {s t : Run}, ds ⊆ all → (∀ e ∈ gs.entries, e.2.IsFrom w all) →
    ds.foldlM (Grouping.add w) gs s = .ok gs' t → ∀ e ∈ gs'.entries, e.2.IsFrom w all
  | [], _, _, _, _, _, hgs, h => by
    obtain ⟨rfl, _⟩ := pure_eq_ok.1 h
    exact hgs
  | d :: ds, _, _, _, _, hall, hgs, h => by
    obtain ⟨_, _, hadd, h⟩ := bind_eq_ok.1 h
    rw [List.cons_subset] at hall
    exact isFrom_of_foldlM hall.2 (isFrom_of_add hgs hall.1 hadd) h

theorem isFrom_of_ofDeferred {w : World} {ds : List Deferred} {gs : List Grouping} {s t : Run}
    (h : Grouping.ofDeferred w ds s = .ok gs t) : ∀ g ∈ gs, g.IsFrom w ds := by
  obtain ⟨m, _, hm, h⟩ := bind_eq_ok.1 h
  obtain ⟨rfl, rfl⟩ := pure_eq_ok.1 h
  intro g hg
  obtain ⟨e, he, rfl⟩ := List.mem_map.1 hg
  exact isFrom_of_foldlM (List.Subset.refl _) (fun _ he => absurd he List.not_mem_nil) hm e he

theorem add_eq_error {w : World} {gs : Groupings} {d : Deferred} {s t : Run} {e : Failure}
    (h : Grouping.add w gs d s = .error e t) :
    ∃ type, d.selector.group = some type ∧ e.IsWithoutGroup type := by
  rw [Grouping.add] at h
  split at h
  · exact absurd h pure_ne_error
  · rcases bind_eq_error.1 h with hgroup | ⟨_, _, _, h⟩
    · exact createGroup_eq_error hgroup
    · exact absurd h pure_ne_error

theorem foldlM_add_eq_error {w : World} : ∀ {ds : List Deferred} {gs : Groupings} {s t : Run}
    {e : Failure}, ds.foldlM (Grouping.add w) gs s = .error e t →
    ∃ d ∈ ds, ∃ type, d.selector.group = some type ∧ e.IsWithoutGroup type
  | [], _, _, _, _, h => absurd h pure_ne_error
  | d :: _, _, _, _, _, h => by
    rcases bind_eq_error.1 h with hadd | ⟨_, _, _, h⟩
    · exact ⟨d, List.mem_cons_self, add_eq_error hadd⟩
    · obtain ⟨d', hd', htype⟩ := foldlM_add_eq_error h
      exact ⟨d', List.mem_cons_of_mem _ hd', htype⟩

/-- Putting selectors into groups fails only for want of a group that one of them declares. -/
theorem ofDeferred_eq_error {w : World} {ds : List Deferred} {s t : Run} {e : Failure}
    (h : Grouping.ofDeferred w ds s = .error e t) :
    ∃ d ∈ ds, ∃ type, d.selector.group = some type ∧ e.IsWithoutGroup type := by
  rcases bind_eq_error.1 h with hadd | ⟨_, _, _, h⟩
  · exact foldlM_add_eq_error hadd
  · exact absurd h pure_ne_error

/-! ## Asking a group -/

/-- The call that hands over the selector. -/
def Deferred.call (d : Deferred) : GroupCall := .process d.owner.info d.selector

namespace Grouping

/-- What is said when the group is handed a selector after the calls, and asks it. -/
def handed (g : Grouping) (calls : List GroupCall) (d : Deferred) : List Event :=
  .processed g.groupType d.owner.name ::
    (g.group.asks calls d.owner.info d.selector).map fun c => .deferredSelected d.typeName c.name

/-- What is said when the group is handed one selector after the other. -/
def handing (g : Grouping) : List GroupCall → List Deferred → List Event
  | _, [] => []
  | calls, d :: ds => g.handed calls d ++ g.handing (calls ++ [d.call]) ds

/-- What is said while the group is asked: it is handed each of its selectors, and then gives its
entries. -/
def asked (g : Grouping) : List Event :=
  g.handing [] g.members ++ [.entriesTaken g.groupType]

/-- What the group gives when each of its selectors has been handed to it, once and in order, and
nothing else has been asked of it. -/
def chosen (g : Grouping) : List GroupEntry := g.group.entries (g.members.map Deferred.call)

theorem forM_emit_eq {α : Type} (f : α → Event) (as : List α) (s : Run) :
    (as.forM fun a => RunM.emit (f a)) s = .ok () { s with events := s.events ++ as.map f } := by
  induction as generalizing s with
  | nil =>
    rw [List.map_nil, List.append_nil]
    rfl
  | cons a as ih =>
    rw [List.map_cons, List.append_cons]
    exact bind_eq_ok.2 ⟨(), _, rfl, ih _⟩

theorem process_eq (g : Grouping) (calls : List GroupCall) (d : Deferred) (s : Run) :
    g.process calls d s =
      .ok (calls ++ [d.call]) { s with events := s.events ++ g.handed calls d } := by
  rw [handed, List.append_cons s.events]
  exact bind_eq_ok.2 ⟨(), _, rfl, bind_eq_ok.2 ⟨(), _, forM_emit_eq _ _ _, rfl⟩⟩

theorem foldlM_process_eq (g : Grouping) (ds : List Deferred) (calls : List GroupCall) (s : Run) :
    ds.foldlM g.process calls s = .ok (calls ++ ds.map Deferred.call)
      { s with events := s.events ++ g.handing calls ds } := by
  induction ds generalizing calls s with
  | nil =>
    rw [handing, List.append_nil, List.map_nil, List.append_nil]
    rfl
  | cons d ds ih =>
    rw [handing, List.map_cons, List.append_cons, ← List.append_assoc]
    exact bind_eq_ok.2 ⟨_, _, g.process_eq calls d s, ih _ _⟩

/-- Asking a group always succeeds. -/
theorem entries_eq (g : Grouping) (s : Run) :
    g.entries s = .ok g.chosen { s with events := s.events ++ g.asked } := by
  rw [asked, ← List.append_assoc]
  exact bind_eq_ok.2 ⟨_, _, g.foldlM_process_eq g.members [] s, rfl⟩

end Grouping

/-! ## A type for worlds of examples -/

/-- A loaded deferred selector that always chooses the same class. -/
def deferredType (name choice : String) (order : Int) (group : Option String) : LoadedType :=
  let selector : DeferredSelector := { select := fun _ => [choice], group, order := some order }
  { info := { name, interfaces := [WellKnown.deferredImportSelector] }
    maker := some { make := fun _ => .ok (.deferredSelector selector) } }

end Wiring
