import Mathlib.Data.List.Induction
import Mathlib.Data.List.Sort
import Wiring.Proofs.Comparison.Runs
import Wiring.Proofs.Groups
import Wiring.Proofs.Precedence

/-!
# When deferred selectors are asked

Deferred selectors wait until all seeds have been parsed.  Then they are put into groups, and one
group is asked after the other: each is handed its selectors, gives its entries once, and the
entries have been imported before the next group is asked.
-/

namespace Wiring

/-! ## Batches -/

/-- Selectors with the same group type, or one without. -/
structure Batch where
  groupType : Option String
  members : List Deferred

namespace Deferred

/-- Those that declare the group type. -/
def sharing (type : String) (ds : List Deferred) : List Deferred :=
  ds.filter (·.selector.group == some type)

/-- Those that do not. -/
def others (type : String) (ds : List Deferred) : List Deferred :=
  ds.filter (·.selector.group != some type)

end Deferred

/-- The batches of selectors that wait in that order.  The first batch is that of the first
selector, with the others of its group type in their order, and the rest follows. -/
def batches : List Deferred → List Batch
  | [] => []
  | d :: ds =>
    match d.selector.group with
    | none => ⟨none, [d]⟩ :: batches ds
    | some type => ⟨some type, d :: Deferred.sharing type ds⟩ :: batches (Deferred.others type ds)
termination_by ds => ds.length
decreasing_by
  · exact Nat.lt_succ_self _
  · exact Nat.lt_succ_of_le (List.length_filter_le _ _)

theorem batches_nil : batches [] = [] := by rw [batches]

theorem batches_cons_none {d : Deferred} (h : d.selector.group = none) (ds : List Deferred) :
    batches (d :: ds) = ⟨none, [d]⟩ :: batches ds := by
  rw [batches, h]

theorem batches_cons_some {d : Deferred} {type : String} (h : d.selector.group = some type)
    (ds : List Deferred) :
    batches (d :: ds) = ⟨some type, d :: Deferred.sharing type ds⟩ ::
      batches (Deferred.others type ds) := by
  rw [batches, h]

/-- Every selector is in one batch, once. -/
theorem perm_batches (ds : List Deferred) : ((batches ds).flatMap (·.members)).Perm ds := by
  induction ds using batches.induct with
  | case1 =>
    rw [batches_nil]
    exact .nil
  | case2 d ds h ih =>
    rw [batches_cons_none h]
    exact ih.cons d
  | case3 d ds type h ih =>
    rw [batches_cons_some h, List.flatMap_cons, List.cons_append]
    exact .cons d ((ih.append_left _).trans (List.filter_append_perm _ ds))

/-- The selectors of the batch declare its group type, and one without is alone. -/
structure Batch.IsFrom (ds : List Deferred) (b : Batch) : Prop where
  nonempty : b.members ≠ []
  sublist : b.members.Sublist ds
  declared : ∀ d ∈ b.members, d.selector.group = b.groupType
  alone : b.groupType = none → b.members.length = 1

theorem isFrom_of_mem_batches {ds : List Deferred} : ∀ b ∈ batches ds, b.IsFrom ds := by
  induction ds using batches.induct with
  | case1 =>
    rw [batches_nil]
    exact fun b hb => nomatch hb
  | case2 d ds h ih =>
    rw [batches_cons_none h, List.forall_mem_cons]
    refine ⟨⟨List.cons_ne_nil _ _, ?_, fun e he => ?_, fun _ => rfl⟩, fun b hb => ?_⟩
    · exact (List.nil_sublist ds).cons_cons d
    · obtain rfl := List.mem_singleton.1 he
      exact h
    · exact { ih b hb with sublist := (ih b hb).sublist.cons d }
  | case3 d ds type h ih =>
    rw [batches_cons_some h, List.forall_mem_cons]
    refine ⟨⟨List.cons_ne_nil _ _, ?_, fun e he => ?_, fun hnone => nomatch hnone⟩, fun b hb => ?_⟩
    · exact List.filter_sublist.cons_cons d
    · obtain rfl | he := List.mem_cons.1 he
      · exact h
      · exact eq_of_beq (List.mem_filter.1 he).2
    · have hsublist := (ih b hb).sublist.trans List.filter_sublist
      exact { ih b hb with sublist := hsublist.cons d }

/-- No selector of the type is left among the others. -/
theorem groupType_ne_of_mem_batches_others {ds : List Deferred} {type : String} :
    ∀ b ∈ batches (Deferred.others type ds), b.groupType ≠ some type := by
  intro b hb htype
  have hfrom := isFrom_of_mem_batches b hb
  obtain ⟨d, hd⟩ := List.exists_mem_of_ne_nil _ hfrom.nonempty
  have hother := (List.mem_filter.1 (hfrom.sublist.mem hd)).2
  rw [hfrom.declared d hd, htype, bne_self_eq_false] at hother
  cases hother

theorem nodup_batches (ds : List Deferred) : ((batches ds).filterMap (·.groupType)).Nodup := by
  induction ds using batches.induct with
  | case1 =>
    rw [batches_nil]
    exact List.nodup_nil
  | case2 d ds h ih =>
    rw [batches_cons_none h]
    exact ih
  | case3 d ds type h ih =>
    rw [batches_cons_some h]
    refine List.nodup_cons.2 ⟨fun hmem => ?_, ih⟩
    obtain ⟨b, hb, htype⟩ := List.mem_filterMap.1 hmem
    exact groupType_ne_of_mem_batches_others b hb htype

/-- Adds a selector that comes after all the others. -/
def join (bs : List Batch) (d : Deferred) : List Batch :=
  match d.selector.group with
  | none => bs ++ [⟨none, [d]⟩]
  | some type =>
    if bs.any (·.groupType == some type) then
      bs.map fun b => if b.groupType == some type then { b with members := b.members ++ [d] } else b
    else bs ++ [⟨some type, [d]⟩]

theorem join_of_any {bs : List Batch} {d : Deferred} {type : String}
    (hd : d.selector.group = some type) (h : ∃ b ∈ bs, b.groupType = some type) :
    join bs d = bs.map fun b =>
      if b.groupType == some type then { b with members := b.members ++ [d] } else b := by
  obtain ⟨b, hb, htype⟩ := h
  rw [join, hd]
  exact if_pos (List.any_eq_true.2 ⟨b, hb, by rw [htype, beq_self_eq_true]⟩)

theorem join_of_new {bs : List Batch} {d : Deferred}
    (h : ∀ type, d.selector.group = some type → ¬ ∃ b ∈ bs, b.groupType = some type) :
    join bs d = bs ++ [⟨d.selector.group, [d]⟩] := by
  rw [join]
  split
  · rename_i hnone
    rw [hnone]
  · rename_i type htype
    rw [htype]
    refine if_neg fun hany => h type htype ?_
    obtain ⟨b, hb, hb'⟩ := List.any_eq_true.1 hany
    exact ⟨b, hb, eq_of_beq hb'⟩

theorem join_cons_of_ne {b : Batch} {bs : List Batch} {d : Deferred}
    (h : ∀ type, d.selector.group = some type → b.groupType ≠ some type) :
    join (b :: bs) d = b :: join bs d := by
  rw [join, join]
  split
  · rfl
  · rename_i type htype
    have hne : (b.groupType == some type) = false := beq_false_of_ne (h type htype)
    rw [List.any_cons, hne, Bool.false_or, List.map_cons, hne]
    split
    · rfl
    · rfl

theorem join_cons_of_eq {b : Batch} {bs : List Batch} {d : Deferred} {type : String}
    (hd : d.selector.group = some type) (hb : b.groupType = some type)
    (hbs : ∀ b ∈ bs, b.groupType ≠ some type) :
    join (b :: bs) d = { b with members := b.members ++ [d] } :: bs := by
  have hothers : bs.map (fun b =>
      if b.groupType == some type then { b with members := b.members ++ [d] } else b) = bs := by
    refine (List.map_congr_left fun b hb => ?_).trans (List.map_id bs)
    rw [if_neg (by simpa using hbs b hb), id]
  rw [join, hd]
  simp only [List.any_cons, hb, beq_self_eq_true, Bool.true_or, if_true, List.map_cons]
  rw [hothers]

theorem batches_concat (ds : List Deferred) (d : Deferred) :
    batches (ds ++ [d]) = join (batches ds) d := by
  induction ds using batches.induct with
  | case1 =>
    rw [List.nil_append, batches_nil, join]
    split
    · rename_i hd
      rw [batches_cons_none hd, batches_nil]
      rfl
    · rename_i type hd
      rw [batches_cons_some hd]
      simp [Deferred.sharing, Deferred.others, batches_nil]
  | case2 x ds h ih =>
    rw [List.cons_append, batches_cons_none h, batches_cons_none h, ih]
    exact (join_cons_of_ne fun type _ htype => Option.some_ne_none type htype.symm).symm
  | case3 x ds type h ih =>
    rw [List.cons_append, batches_cons_some h, batches_cons_some h]
    -- the last selector joins the first batch or passes on to the others
    by_cases hd : d.selector.group = some type
    · have hsharing : Deferred.sharing type (ds ++ [d]) = Deferred.sharing type ds ++ [d] := by
        simp [Deferred.sharing, hd]
      have hothers : Deferred.others type (ds ++ [d]) = Deferred.others type ds := by
        simp [Deferred.others, hd]
      rw [hsharing, hothers, join_cons_of_eq hd rfl groupType_ne_of_mem_batches_others]
      rfl
    · have hsharing : Deferred.sharing type (ds ++ [d]) = Deferred.sharing type ds := by
        simp [Deferred.sharing, hd]
      have hothers : Deferred.others type (ds ++ [d]) = Deferred.others type ds ++ [d] := by
        simp [Deferred.others, hd]
      rw [hsharing, hothers, ih]
      refine (join_cons_of_ne fun type' hd' htype => hd ?_).symm
      rw [hd', ← htype]

/-! ## Groups -/

namespace Grouping

def batch (g : Grouping) : Batch := ⟨g.groupType, g.members⟩

/-- The group types that are produced, in that order. -/
def types (gs : List Grouping) : List String := gs.filterMap (·.groupType)

theorem exists_batch_iff {gs : List Grouping} {type : String} :
    (∃ b ∈ gs.map batch, b.groupType = some type) ↔ ∃ g ∈ gs, g.groupType = some type := by
  simp [batch]

end Grouping

namespace Groupings

/-- Each group is kept under a key of its own: one with a type under that type, and one without
under the number of groups that there were before it. -/
structure Keyed (gs : Groupings) : Prop where
  nodup : gs.keys.Nodup
  typed : ∀ e ∈ gs.entries, ∀ type, e.1 = .type type ↔ e.2.groupType = some type
  below : ∀ n, .own n ∈ gs.keys → n < gs.size

theorem keyed_empty : Keyed {} where
  nodup := List.nodup_nil
  typed _ he := absurd he List.not_mem_nil
  below _ hn := absurd hn List.not_mem_nil

namespace Keyed

variable {gs : Groupings}

/-- The key of a selector without a group type is not taken: no other selector shares its group. -/
theorem own_not_mem (h : gs.Keyed) : .own gs.size ∉ gs.keys :=
  fun hmem => Nat.lt_irrefl _ (h.below _ hmem)

theorem exists_type (h : gs.Keyed) {groupType : Option String}
    (hkey : .of gs.size groupType ∈ gs.keys) : ∃ type, groupType = some type := by
  cases groupType with
  | none => exact absurd hkey h.own_not_mem
  | some type => exact ⟨type, rfl⟩

theorem mem_keys_iff (h : gs.Keyed) {type : String} :
    .type type ∈ gs.keys ↔ ∃ g ∈ gs.values, g.groupType = some type := by
  rw [OrderedMap.keys, List.mem_map]
  constructor
  · rintro ⟨e, he, hkey⟩
    exact ⟨e.2, List.mem_map_of_mem he, (h.typed e he type).1 hkey⟩
  · rintro ⟨g, hg, htype⟩
    obtain ⟨e, he, rfl⟩ := List.mem_map.1 hg
    exact ⟨e, he, (h.typed e he type).2 htype⟩

theorem join (h : gs.Keyed) (key : GroupKey) (d : Deferred) :
    Keyed (gs.modify key (·.join d)) where
  nodup := by
    rw [OrderedMap.keys_modify]
    exact h.nodup
  typed e he := by
    obtain he | ⟨g, hg, rfl⟩ := OrderedMap.mem_of_mem_modify he
    · exact h.typed e he
    · exact h.typed (key, g) (OrderedMap.mem_entries_of_get? hg)
  below := by
    rw [OrderedMap.keys_modify, OrderedMap.size_modify]
    exact h.below

theorem insert (h : gs.Keyed) {groupType : Option String}
    (hkey : .of gs.size groupType ∉ gs.keys) (group : Group) (ds : List Deferred) :
    Keyed (gs.insert (.of gs.size groupType) ⟨groupType, group, ds⟩) where
  nodup := OrderedMap.nodup_keys_insert h.nodup _ _
  typed e he := by
    rw [OrderedMap.entries_insert_of_not_mem hkey, List.mem_append, List.mem_singleton] at he
    obtain he | rfl := he
    · exact h.typed e he
    · cases groupType with
      | none => simp [GroupKey.of]
      | some type => simp [GroupKey.of]
  below n hn := by
    rw [OrderedMap.keys_insert, if_neg hkey, List.mem_append, List.mem_singleton] at hn
    rw [OrderedMap.size_insert_of_not_mem hkey]
    obtain hn | hn := hn
    · exact Nat.lt_succ_of_lt (h.below n hn)
    · cases groupType with
      | none =>
        obtain rfl := GroupKey.own.inj hn
        exact Nat.lt_succ_self _
      | some type => cases hn

theorem values_join (h : gs.Keyed) (type : String) (d : Deferred) :
    (gs.modify (.type type) (·.join d)).values =
      gs.values.map fun g => if g.groupType == some type then g.join d else g := by
  rw [OrderedMap.values, OrderedMap.entries_modify h.nodup, OrderedMap.values, List.map_map,
    List.map_map]
  refine List.map_congr_left fun e he => ?_
  have hkey := h.typed e he type
  by_cases htype : e.2.groupType = some type
  · simp [hkey.2 htype, htype]
  · simp [mt hkey.1 htype, htype]

theorem map_batch_join (h : gs.Keyed) {d : Deferred} {type : String}
    (htype : d.selector.group = some type) (hkey : .type type ∈ gs.keys) :
    (gs.modify (.type type) (·.join d)).values.map Grouping.batch =
      Wiring.join (gs.values.map Grouping.batch) d := by
  rw [join_of_any htype (Grouping.exists_batch_iff.2 (h.mem_keys_iff.1 hkey)), h.values_join,
    List.map_map, List.map_map]
  exact List.map_congr_left fun g _ => apply_ite Grouping.batch _ _ _

theorem types_join (h : gs.Keyed) (type : String) (d : Deferred) :
    Grouping.types (gs.modify (.type type) (·.join d)).values = Grouping.types gs.values := by
  rw [h.values_join, Grouping.types, Grouping.types, List.filterMap_map]
  exact List.filterMap_congr fun g _ => (apply_ite Grouping.groupType _ _ _).trans (ite_self _)

theorem map_batch_insert (h : gs.Keyed) {d : Deferred}
    (hkey : .of gs.size d.selector.group ∉ gs.keys) (group : Group) :
    (gs.insert (.of gs.size d.selector.group)
        ⟨d.selector.group, group, [d]⟩).values.map Grouping.batch =
      Wiring.join (gs.values.map Grouping.batch) d := by
  have hnew (type : String) (htype : d.selector.group = some type) :
      ¬ ∃ b ∈ gs.values.map Grouping.batch, b.groupType = some type := by
    rw [htype, GroupKey.of, h.mem_keys_iff] at hkey
    rwa [Grouping.exists_batch_iff]
  rw [join_of_new hnew, OrderedMap.values_insert_of_not_mem hkey, List.map_append]
  rfl

end Keyed

theorem types_insert {gs : Groupings} {key : GroupKey} (h : key ∉ gs.keys) (g : Grouping) :
    Grouping.types (gs.insert key g).values = Grouping.types gs.values ++ g.groupType.toList := by
  rw [OrderedMap.values_insert_of_not_mem h, Grouping.types, List.filterMap_append]
  cases hg : g.groupType with
  | none => simp [Grouping.types, hg]
  | some type => simp [Grouping.types, hg]

end Groupings

/-- A selector joins the group of its type, or has a group made for it. -/
theorem groupingAdd_eq_ok {w : World} {gs gs' : Groupings} {d : Deferred} {s u : Run}
    (hgs : gs.Keyed) (h : Grouping.add w gs d s = .ok gs' u) :
    gs'.Keyed ∧ gs'.values.map Grouping.batch = join (gs.values.map Grouping.batch) d ∧
      ∃ new, Grouping.types gs'.values = Grouping.types gs.values ++ new ∧
        u.events = s.events ++ new.map .created := by
  rw [Grouping.add] at h
  split at h
  · rename_i hkey
    obtain ⟨rfl, rfl⟩ := pure_eq_ok.1 h
    rw [OrderedMap.contains_iff] at hkey
    obtain ⟨type, htype⟩ := hgs.exists_type hkey
    rw [htype, GroupKey.of] at hkey ⊢
    refine ⟨hgs.join _ _, hgs.map_batch_join htype hkey, [], ?_, (List.append_nil _).symm⟩
    rw [hgs.types_join, List.append_nil]
  · rename_i hkey
    obtain ⟨group, u', hgroup, h⟩ := bind_eq_ok.1 h
    obtain ⟨rfl, rfl⟩ := pure_eq_ok.1 h
    rw [OrderedMap.contains_iff] at hkey
    exact ⟨hgs.insert hkey _ _, hgs.map_batch_insert hkey group, _, Groupings.types_insert hkey _,
      (createGroup_eq_ok hgroup).2⟩

theorem foldlM_groupingAdd_eq_ok {w : World} {ds : List Deferred} {gs : Groupings} {s u : Run}
    (h : ds.foldlM (Grouping.add w) {} s = .ok gs u) :
    gs.Keyed ∧ gs.values.map Grouping.batch = batches ds ∧
      u.events = s.events ++ (Grouping.types gs.values).map .created := by
  induction ds using List.reverseRecOn generalizing gs u with
  | nil =>
    obtain ⟨rfl, rfl⟩ := pure_eq_ok.1 h
    exact ⟨Groupings.keyed_empty, by rw [batches_nil]; rfl, (List.append_nil _).symm⟩
  | append_singleton ds d ih =>
    rw [List.foldlM_append] at h
    obtain ⟨gs', s', hfirst, h⟩ := bind_eq_ok.1 h
    obtain ⟨hkeyed, hbatches, hevents⟩ := ih hfirst
    obtain ⟨gs'', s'', hlast, h⟩ := bind_eq_ok.1 h
    obtain ⟨rfl, rfl⟩ := pure_eq_ok.1 h
    obtain ⟨hkeyed', hadded, new, htypes, hcreated⟩ := groupingAdd_eq_ok hkeyed hlast
    rw [hadded, hbatches, batches_concat, hcreated, hevents, htypes, List.map_append,
      List.append_assoc]
    exact ⟨hkeyed', rfl, rfl⟩

/-- The groups have the selectors of the batches, and each group type is produced once. -/
theorem ofDeferred_eq_ok {w : World} {ds : List Deferred} {gs : List Grouping} {s u : Run}
    (h : Grouping.ofDeferred w ds s = .ok gs u) :
    gs.map Grouping.batch = batches ds ∧
      u.events = s.events ++ (Grouping.types gs).map .created := by
  obtain ⟨m, s', hm, h⟩ := bind_eq_ok.1 h
  obtain ⟨rfl, rfl⟩ := pure_eq_ok.1 h
  exact (foldlM_groupingAdd_eq_ok hm).2

/-- The groups are served in turn.  Each is handed its selectors in order, each of them once, and
then gives its entries, once.  These have all been imported before the next group is asked; what is
said of the imports comes in between. -/
inductive Served (w : World) (deeper : Steps) (origins : Origins) :
    List Grouping → Run → Run → Prop
  | nil (s : Run) : Served w deeper origins [] s s
  | cons {g : Grouping} {gs : List Grouping} {s u t : Run} {new : List Event} :
      g.chosen.forM (Step.importForClass w deeper origins (g.filter w.resolver.filter))
        { s with events := s.events ++ g.asked } = .ok () u →
      u.events = s.events ++ g.asked ++ new → Served w deeper origins gs u t →
      Served w deeper origins (g :: gs) s t

/-! ## Phases -/

/-- From `s` to `t` deferred selectors wait: none is asked while the queue is open, and those that
wait keep their places. -/
structure Run.Postpones (s t : Run) : Prop where
  queue : t.queue.isSome = s.queue.isSome
  waiting : ∀ ds, s.queue = some ds → ∃ more, t.queue = some (ds ++ more)
  events : ∃ new, t.events = s.events ++ new ∧
    (s.queue.isSome = true → ∀ e ∈ new, e.isDeferral = false)

namespace Run.Postpones

variable {s t u : Run}

theorem report (s : Run) (p : Problem) :
    s.Postpones { s with problems := s.problems ++ [p] } where
  queue := rfl
  waiting ds hds := ⟨[], by rw [List.append_nil]; exact hds⟩
  events := ⟨[], (List.append_nil _).symm, fun _ _ he => nomatch he⟩

theorem of_tacit (h : s.Tacit t) : s.Postpones t where
  queue := h.isSome_queue
  waiting ds hds := by
    obtain heq | ⟨ds', more, hs, ht⟩ := h.queue
    · exact ⟨[], by rw [heq, hds, List.append_nil]⟩
    · rw [hds] at hs
      obtain rfl := Option.some.inj hs
      exact ⟨more, ht⟩
  events := ⟨[], by rw [h.events, List.append_nil], fun _ _ he => nomatch he⟩

theorem emit {e : Event} (he : e.isDeferral = false ∨ s.queue = none) :
    s.Postpones { s with events := s.events ++ [e] } where
  queue := rfl
  waiting ds hds := ⟨[], by rw [List.append_nil]; exact hds⟩
  events := by
    refine ⟨[e], rfl, fun hopen e' he' => ?_⟩
    obtain rfl := List.mem_singleton.1 he'
    obtain he | hclosed := he
    · exact he
    · rw [hclosed] at hopen
      cases hopen

theorem trans (h : s.Postpones t) (h' : t.Postpones u) : s.Postpones u where
  queue := h'.queue.trans h.queue
  waiting ds hds := by
    obtain ⟨more, ht⟩ := h.waiting ds hds
    obtain ⟨more', hu⟩ := h'.waiting _ ht
    exact ⟨more ++ more', by rw [hu, List.append_assoc]⟩
  events := by
    obtain ⟨new, hnew, hquiet⟩ := h.events
    obtain ⟨new', hnew', hquiet'⟩ := h'.events
    refine ⟨new ++ new', by rw [hnew', hnew, List.append_assoc], fun hopen e he => ?_⟩
    obtain he | he := List.mem_append.1 he
    · exact hquiet hopen e he
    · exact hquiet' (h.queue.trans hopen) e he

end Run.Postpones

/-- A run is compared with itself, for what holds of it from step to step. -/
def Comparison.postponed : Comparison :=
  .keeping id false Run.Postpones .of_tacit .emit .trans fun h => h.queue

theorem Comparison.postponed_relates (w : World) : postponed.Relates w w where
  same := rfl
  views := Resolver.interchanges_id _
  report := alike_report rfl .report
  descend := alike_descend rfl

/-- However the step ends. -/
theorem Alike.postpones_finalState {x : RunM Unit} (h : Alike .postponed x x) (s : Run) :
    s.Postpones (finalState (x s)) := by
  obtain hkeeps | ⟨_, _, hcuts⟩ := (h s s rfl fun hclosed => nomatch hclosed).keeps_or_cuts
  · exact hkeeps
  · exact hcuts.elim

theorem Alike.postpones {x : RunM Unit} (h : Alike .postponed x x) {s t : Run}
    (hx : x s = .ok () t) : s.Postpones t := by
  have hpostpones := h.postpones_finalState s
  rw [hx] at hpostpones
  exact hpostpones

/-- The groups in order, as they are asked. -/
theorem served_of_forM {w : World} {origins : Origins} {gs : List Grouping} {s t : Run}
    (h : (gs.forM fun g => do
        let entries ← g.entries
        entries.forM (Step.importForClass w (Run.stepsOf w) origins (g.filter w.resolver.filter)) :
      RunM Unit) s = .ok () t) : Served w (Run.stepsOf w) origins gs s t := by
  induction gs generalizing s with
  | nil =>
    obtain ⟨-, rfl⟩ := pure_eq_ok.1 h
    exact .nil s
  | cons g gs ih =>
    obtain ⟨_, u, hfirst, h⟩ := bind_eq_ok.1 h
    obtain ⟨entries, s', hasked, himported⟩ := bind_eq_ok.1 hfirst
    rw [g.entries_eq] at hasked
    obtain ⟨rfl, rfl⟩ := EStateM.Result.ok.inj hasked
    have hrelates := Comparison.postponed_relates w
    have himports : Alike .postponed
        (g.chosen.forM (Step.importForClass w (Run.stepsOf w) origins (g.filter w.resolver.filter)))
        (g.chosen.forM
          (Step.importForClass w (Run.stepsOf w) origins (g.filter w.resolver.filter))) :=
      alike_forM_same (Step.alike_importForClass hrelates (Run.agree_stepsOf hrelates) rfl _) _
    obtain ⟨new, hnew, -⟩ := (himports.postpones himported).events
    exact .cons himported hnew (ih h)

/-- The groups share out the selectors that wait: those of one group type are in one group, one
without a group type is in a group of its own, and both groups and their members are in order. -/
structure Partitions (ds : List Deferred) (gs : List Grouping) : Prop where
  ordered : gs.map Grouping.batch = batches ds
  once : (gs.flatMap (·.members)).Perm ds
  declared : ∀ g ∈ gs, ∀ d ∈ g.members, d.selector.group = g.groupType
  shared : (Grouping.types gs).Nodup
  alone : ∀ g ∈ gs, g.groupType = none → g.members.length = 1
  inOrder : ∀ g ∈ gs, g.members.Sublist ds

theorem partitions_of_batches {ds : List Deferred} {gs : List Grouping}
    (h : gs.map Grouping.batch = batches ds) : Partitions ds gs := by
  have hfrom : ∀ g ∈ gs, g.batch.IsFrom ds := fun g hg =>
    isFrom_of_mem_batches _ (h ▸ List.mem_map_of_mem hg)
  have hperm := perm_batches ds
  have hnodup := nodup_batches ds
  rw [← h, List.flatMap_map] at hperm
  rw [← h, List.filterMap_map] at hnodup
  exact ⟨h, hperm, fun g hg => (hfrom g hg).declared, hnodup, fun g hg => (hfrom g hg).alone,
    fun g hg => (hfrom g hg).sublist⟩

namespace Run

/-- Lowest order first.  Those of the same order stay as they were. -/
def byOrder (ds : List Deferred) : List Deferred := ds.mergeSort fun a b => a.order ≤ b.order

/-- Deferred selectors wait until all seeds have been parsed, in the order in which they were
queued.  They are then put into groups by their orders, each group type is produced once, and the
groups are served in turn. -/
theorem parse_schedules {w : World} {seeds : List NamedDefinition} {start t : Run}
    {earlier : List Deferred} (hopen : start.queue = some earlier)
    (h : parse w seeds start = .ok () t) :
    ∃ s queued, parseSeeds w seeds start = .ok () s ∧ s.queue = some (earlier ++ queued) ∧
      (∃ new, s.events = start.events ++ new ∧ ∀ e ∈ new, e.isDeferral = false) ∧
      ∃ gs u v, Partitions (byOrder (earlier ++ queued)) gs ∧
        Grouping.ofDeferred w (byOrder (earlier ++ queued)) { s with queue := none } = .ok gs u ∧
        u.events = s.events ++ (Grouping.types gs).map .created ∧
        Served w (stepsOf w) (.ofDeferred (byOrder (earlier ++ queued))) gs u v ∧
        t = { v with queue := some [] } := by
  obtain ⟨_, s, hseeds, hresolved⟩ := bind_eq_ok.1 h
  have hrelates := Comparison.postponed_relates w
  -- the queue is open while seeds are parsed, so no deferred selector is asked meanwhile
  have halike : Alike .postponed (parseSeeds w seeds) (parseSeeds w seeds) :=
    alike_parseSeeds hrelates (sameSeeds_refl w.resolver id seeds)
  have hpostpones := halike.postpones hseeds
  obtain ⟨queued, hqueue⟩ := hpostpones.waiting earlier hopen
  obtain ⟨new, hnew, hquiet⟩ := hpostpones.events
  rw [resolveDeferred_of_open hqueue] at hresolved
  obtain ⟨v, hentries, rfl⟩ := ensuring_eq_ok.1 hresolved
  obtain ⟨gs, u, hgroups, hserved⟩ := bind_eq_ok.1 hentries
  obtain ⟨hbatches, hevents⟩ := ofDeferred_eq_ok hgroups
  refine ⟨s, queued, hseeds, hqueue, ⟨new, hnew, hquiet (by rw [hopen]; rfl)⟩, gs, u, v,
    partitions_of_batches hbatches, hgroups, hevents, served_of_forM hserved, rfl⟩

end Run

/-! ## Three selectors, two of which share a group -/

/-- The selectors are imported in another order than they are to be asked in. -/
def threeSelectors : World where
  resolver := {
    reader := { index := ⟨[
      { name := "app.Root", tags := [.importing ["app.Late", "app.Alone", "app.Early"]] },
      { name := "app.A" }, { name := "app.B" }, { name := "app.C" }]⟩ }
    types := ⟨[deferredType "app.Late" "app.C" 3 (some "app.Group"),
      deferredType "app.Alone" "app.B" 2 none,
      deferredType "app.Early" "app.A" 1 (some "app.Group"),
      { info := { name := "app.Group" }
        maker := some { make := fun _ => .ok (.group .default) } }]⟩ }

/-- What is said when the class is parsed. -/
def threeSelectorsLog : List Event := [
  .created "app.Late", .created "app.Alone", .created "app.Early",
  .created "app.Group",
  .processed (some "app.Group") "app.Root", .deferredSelected "app.Early" "app.Root",
  .processed (some "app.Group") "app.Root", .deferredSelected "app.Late" "app.Root",
  .entriesTaken (some "app.Group"),
  .processed none "app.Root", .deferredSelected "app.Alone" "app.Root",
  .entriesTaken none]

/-- Selectors of different orders are sorted by inserting one after the other. -/
theorem byOrder_eq_insertionSort {ds : List Deferred} (h : (ds.map (·.order)).Nodup) :
    Run.byOrder ds = ds.insertionSort fun a b => a.order ≤ b.order := by
  have htotal : Std.Total fun a b : Deferred => a.order ≤ b.order := ⟨fun _ _ => Int.le_total _ _⟩
  have htrans : IsTrans Deferred fun a b => a.order ≤ b.order := ⟨fun _ _ _ => Int.le_trans⟩
  have hsorted := ds.mergeSort_perm fun a b => a.order ≤ b.order
  refine List.Perm.eq_of_pairwise (fun a b ha hb hab hba => ?_)
    (List.pairwise_mergeSort' (fun a b : Deferred => a.order ≤ b.order) ds)
    (List.pairwise_insertionSort _ ds) (hsorted.trans (List.perm_insertionSort _ ds).symm)
  have hinj := List.inj_on_of_nodup_map h
  exact hinj (hsorted.mem_iff.1 ha) ((List.mem_insertionSort _).1 hb) (Int.le_antisymm hab hba)

set_option maxRecDepth 100000 in
/-- The group of the first selector is asked with both of its members, and what they choose is
imported, before the other one is asked. -/
theorem parse_schedules_threeSelectors :
    ∃ t, Run.parse threeSelectors (seedsOf ["app.Root"]) (Run.fresh {} {}) = .ok () t ∧
      t.events = threeSelectorsLog ∧
      t.classes.keys = ["app.Root", "app.A", "app.C", "app.B"] ∧
      ∃ s queued gs u v,
        Run.parseSeeds threeSelectors (seedsOf ["app.Root"]) (Run.fresh {} {}) = .ok () s ∧
        s.queue = some queued ∧ Partitions (Run.byOrder queued) gs ∧
        Served threeSelectors (Run.stepsOf threeSelectors) (.ofDeferred (Run.byOrder queued))
          gs u v ∧
        t = { v with queue := some [] } := by
  -- `mergeSort` does not evaluate, so the run is checked with the selectors sorted by insertion
  have hcheck : succeedsWith (fun s : Run => s.queue.any fun ds =>
      decide (ds.map (·.order)).Nodup && succeedsWith (fun t : Run =>
        t.events == threeSelectorsLog && t.classes.keys == ["app.Root", "app.A", "app.C", "app.B"])
      (ensuring (fun s => { s with queue := some [] })
        (Step.resolveDeferred threeSelectors (Run.stepsOf threeSelectors)
          (ds.insertionSort fun a b => a.order ≤ b.order)) { s with queue := none }))
      (Run.parseSeeds threeSelectors (seedsOf ["app.Root"]) (Run.fresh {} {})) = true := by
    decide +kernel
  obtain ⟨s, hseeds, hs⟩ := exists_of_succeedsWith hcheck
  rw [Option.any_eq_true] at hs
  obtain ⟨ds, hqueue, hs⟩ := hs
  rw [Bool.and_eq_true, decide_eq_true_eq] at hs
  obtain ⟨hnodup, hresolved⟩ := hs
  rw [← byOrder_eq_insertionSort hnodup, Run.byOrder,
    ← Run.resolveDeferred_of_open hqueue] at hresolved
  obtain ⟨t, hresolved, ht⟩ := exists_of_succeedsWith hresolved
  have hparse : Run.parse threeSelectors (seedsOf ["app.Root"]) (Run.fresh {} {}) = .ok () t :=
    bind_eq_ok.2 ⟨(), s, hseeds, hresolved⟩
  have hopen : (Run.fresh {} {}).queue = some [] := rfl
  obtain ⟨s, queued, hseeds, hqueue, -, gs, u, v, hgs, -, -, hserved, hend⟩ :=
    Run.parse_schedules hopen hparse
  rw [Bool.and_eq_true] at ht
  exact ⟨t, hparse, eq_of_beq ht.1, eq_of_beq ht.2, s, queued, gs, u, v, hseeds, hqueue, hgs,
    hserved, hend⟩

end Wiring
