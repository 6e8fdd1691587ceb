import Wiring.Proofs.Outcome
import Wiring.Resolver.Candidate
import Wiring.Resolver.Imports

/-!
# What names resolve to

A name resolves to a view of that name, or to the empty view if it is excluded.
-/

namespace Wiring

theorem TypeTable.name_of_find? {ts : TypeTable} {name : String} {t : LoadedType}
    (h : ts.find? name = some t) : t.name = name := by
  have := List.find?_some h
  exact eq_of_beq this

theorem TypeTable.mem_of_find? {ts : TypeTable} {name : String} {t : LoadedType}
    (h : ts.find? name = some t) : t ∈ ts.types :=
  List.mem_reverse.1 (List.mem_of_find?_eq_some h)

theorem name_of_builtin? {name : String} {c : ClassInfo} (h : builtin? name = some c) :
    c.name = name := by
  have := List.find?_some h
  exact eq_of_beq this

theorem mem_of_builtin? {name : String} {c : ClassInfo} (h : builtin? name = some c) :
    c ∈ builtins :=
  List.mem_of_find?_eq_some h

theorem Reader.find?_of_read {r : Reader} {name : String} {c : ClassInfo}
    (h : r.read name = .ok c) : r.index.find? name = some c := by
  rw [Reader.read] at h
  split at h
  · cases h
  · rw [Index.read] at h
    split at h
    · rename_i hfind
      rw [hfind, Except.ok.inj h]
    · cases h

theorem Reader.name_of_read {r : Reader} {name : String} {c : ClassInfo}
    (h : r.read name = .ok c) : c.name = name := by
  have := List.find?_some (Reader.find?_of_read h)
  exact eq_of_beq this

theorem Reader.mem_of_read {r : Reader} {name : String} {c : ClassInfo}
    (h : r.read name = .ok c) : c ∈ r.index.classes :=
  List.mem_of_find?_eq_some (Reader.find?_of_read h)

theorem View.filtered_of_not_excludes {v : View} {f : NameFilter} (h : f.excludes v.name = false) :
    v.filtered f = v := by
  rw [View.filtered, h]
  rfl

namespace Resolver

/-- Where a name is found.  Only a name of the platform can be found nowhere, and is a class then
of which nothing else is known. -/
inductive Locates (r : Resolver) (name : String) : View → Prop
  | loaded {t : LoadedType} (ht : r.types.find? name = some t) : r.Locates name (.loaded t)
  | read {c : ClassInfo} (hc : r.reader.read name = .ok c) : r.Locates name (.read c)
  | builtin {c : ClassInfo} (ht : r.types.find? name = none) (hc : builtin? name = some c) :
      r.Locates name (.read c)
  | platform (ht : r.types.find? name = none) (hplatform : r.isPlatform name = true) :
      r.Locates name (.read { name })

theorem locates_platformView {r : Resolver} {name : String} (h : r.isPlatform name = true) :
    r.Locates name (r.platformView name) := by
  rw [platformView]
  split
  · exact .loaded ‹_›
  · exact .platform ‹_› h

theorem locates_of_unreadView? {r : Resolver} {name : String} {v : View}
    (h : r.unreadView? name = some v) : r.Locates name v := by
  rw [unreadView?] at h
  split at h
  · obtain rfl := Option.some.inj h
    exact .loaded ‹_›
  · obtain ⟨c, hc, rfl⟩ := Option.map_eq_some_iff.1 h
    exact .builtin ‹_› hc

theorem locates_of_ofName {r : Resolver} {name : String} {f : NameFilter} {v : View}
    (hf : f.excludes name = false) (h : r.ofName name f = .ok v) : r.Locates name v := by
  rw [ofName, hf, if_neg Bool.false_ne_true] at h
  split at h
  · obtain rfl := Except.ok.inj h
    exact locates_platformView ‹_›
  · split at h
    · obtain rfl := Except.ok.inj h
      exact .read ‹_›
    · split at h
      · rename_i u hu
        obtain rfl := Except.ok.inj h
        exact locates_of_unreadView? (Option.ite_none_right_eq_some.1 hu).2
      · cases h

theorem ofName_of_excludes {name : String} {f : NameFilter} (hf : f.excludes name = true)
    (r : Resolver) : r.ofName name f = .ok .object := by
  rw [ofName, if_pos hf]

/-- A reference is looked up as the name is, or leads to the loaded type. -/
theorem related_cases {r : Resolver} {v u : View} {name : String} (h : r.related v name = .ok u) :
    r.ofName name r.filter = .ok u ∨
      ∃ t, r.types.find? name = some t ∧ u = (View.loaded t).filtered r.filter := by
  rw [related] at h
  split at h
  · rename_i t ht
    exact .inr ⟨t, (Option.ite_none_right_eq_some.1 ht).2, (Except.ok.inj h).symm⟩
  · exact .inl h

theorem locates_of_related {r : Resolver} {v u : View} {name : String}
    (hf : r.filter.excludes name = false) (h : r.related v name = .ok u) : r.Locates name u := by
  obtain hname | ⟨t, ht, rfl⟩ := related_cases h
  · exact locates_of_ofName hf hname
  · have hview : (View.loaded t).name = name := TypeTable.name_of_find? ht
    rw [View.filtered_of_not_excludes (by rw [hview, hf])]
    exact .loaded ht

/-- An excluded name leads to the empty view. -/
theorem related_of_excludes {r : Resolver} {v u : View} {name : String}
    (hf : r.filter.excludes name = true) (h : r.related v name = .ok u) : u = .object := by
  obtain hname | ⟨t, ht, rfl⟩ := related_cases h
  · rw [ofName_of_excludes hf] at hname
    exact (Except.ok.inj hname).symm
  · have hview : (View.loaded t).name = name := TypeTable.name_of_find? ht
    rw [View.filtered, hview, if_pos hf]

theorem Locates.name_eq {r : Resolver} {v : View} {name : String} (h : r.Locates name v) :
    v.name = name := by
  cases h with
  | loaded ht => exact TypeTable.name_of_find? ht
  | read hc => exact Reader.name_of_read hc
  | builtin _ hc => exact name_of_builtin? hc
  | platform => rfl

theorem name_ofName {r : Resolver} {name : String} {f : NameFilter} {v : View}
    (hf : f.excludes name = false) (h : r.ofName name f = .ok v) : v.name = name :=
  (locates_of_ofName hf h).name_eq

theorem name_related {r : Resolver} {v u : View} {name : String}
    (hf : r.filter.excludes name = false) (h : r.related v name = .ok u) : u.name = name :=
  (locates_of_related hf h).name_eq

theorem name_superClass {r : Resolver} {v u : View} {name : String}
    (hv : v.info.superClass = some name) (hf : r.filter.excludes name = false)
    (h : r.superClass v = .ok (some u)) : u.name = name := by
  rw [superClass, hv] at h
  obtain ⟨u', hu, hsome⟩ := exceptMap_eq_ok.1 h
  obtain rfl := Option.some.inj hsome
  exact name_related hf hu

theorem ofName_eq_of_not_excludes {r : Resolver} {name : String} {f g : NameFilter}
    (hf : f.excludes name = false) (hg : g.excludes name = false) :
    r.ofName name f = r.ofName name g := by
  rw [ofName, ofName, hf, hg]

theorem superClass_of_excludes {r : Resolver} {v u : View} {name : String}
    (hv : v.info.superClass = some name) (hf : r.filter.excludes name = true)
    (h : r.superClass v = .ok (some u)) : u = .object := by
  rw [superClass, hv] at h
  obtain ⟨u', hu, hsome⟩ := exceptMap_eq_ok.1 h
  obtain rfl := Option.some.inj hsome
  exact related_of_excludes hf hu

/-! ## What a resolver knows -/

/-- The metadata that a resolver can come to. -/
def infos (r : Resolver) : List ClassInfo :=
  r.reader.index.classes ++ r.types.types.map (·.info) ++ builtins

theorem mem_infos {r : Resolver} {c : ClassInfo} : c ∈ r.infos ↔
    (c ∈ r.reader.index.classes ∨ c ∈ r.types.types.map (·.info)) ∨ c ∈ builtins := by
  rw [infos, List.mem_append, List.mem_append]

end Resolver

/-- Nothing but its name is known of the class. -/
def View.IsBare (v : View) : Prop := v.info = { name := v.name }

namespace Resolver

/-- The view is one of the resolver's classes, or bare. -/
def Knows (r : Resolver) (v : View) : Prop := v.info ∈ r.infos ∨ v.IsBare

theorem knows_read {r : Resolver} {c : ClassInfo} (h : c ∈ r.reader.index.classes) :
    r.Knows (.read c) :=
  .inl (mem_infos.2 (.inl (.inl h)))

theorem knows_object (r : Resolver) : r.Knows .object := .inr rfl

/-- Only the platform has classes that are made up. -/
theorem Locates.mem_infos_or_isBare {r : Resolver} {v : View} {name : String}
    (h : r.Locates name v) : v.info ∈ r.infos ∨ r.isPlatform name = true ∧ v.IsBare := by
  rw [mem_infos]
  cases h with
  | loaded ht => exact .inl (.inl (.inr (List.mem_map_of_mem (TypeTable.mem_of_find? ht))))
  | read hc => exact .inl (.inl (.inl (Reader.mem_of_read hc)))
  | builtin _ hc => exact .inl (.inr (mem_of_builtin? hc))
  | platform _ hplatform => exact .inr ⟨hplatform, rfl⟩

theorem Locates.knows {r : Resolver} {v : View} {name : String} (h : r.Locates name v) :
    r.Knows v :=
  h.mem_infos_or_isBare.imp_right And.right

theorem knows_ofName {r : Resolver} {name : String} {f : NameFilter} {v : View}
    (h : r.ofName name f = .ok v) : r.Knows v := by
  cases hf : f.excludes name with
  | true =>
    rw [ofName_of_excludes hf] at h
    rw [← Except.ok.inj h]
    exact r.knows_object
  | false => exact (locates_of_ofName hf h).knows

theorem knows_related {r : Resolver} {v u : View} {name : String}
    (h : r.related v name = .ok u) : r.Knows u := by
  cases hf : r.filter.excludes name with
  | true =>
    rw [related_of_excludes hf h]
    exact r.knows_object
  | false => exact (locates_of_related hf h).knows

theorem mem_infos_of_related {r : Resolver} {v u : View} {name : String}
    (hf : r.filter.excludes name = false) (hplatform : r.isPlatform name = false)
    (h : r.related v name = .ok u) : u.info ∈ r.infos := by
  obtain hmem | ⟨hyes, _⟩ := (locates_of_related hf h).mem_infos_or_isBare
  · exact hmem
  · cases hplatform.symm.trans hyes

theorem related_of_superClass {r : Resolver} {v u : View} (h : r.superClass v = .ok (some u)) :
    ∃ name, r.related v name = .ok u := by
  rw [superClass] at h
  split at h
  · rename_i name _
    obtain ⟨u', hu, hsome⟩ := exceptMap_eq_ok.1 h
    obtain rfl := Option.some.inj hsome
    exact ⟨name, hu⟩
  · cases h

theorem related_of_mem_members {r : Resolver} {v u : View} (h : u ∈ r.members v) :
    ∃ name ∈ v.info.memberClasses, r.related v name = .ok u := by
  obtain ⟨name, hname, hu⟩ := List.mem_filterMap.1 h
  refine ⟨name, hname, ?_⟩
  cases hrelated : r.related v name with
  | error e =>
    rw [hrelated] at hu
    cases hu
  | ok u' =>
    rw [hrelated] at hu
    rw [Option.some.inj hu]

end Resolver

theorem OrderedMap.mem_of_mem_foldl_insertIfNew {us : List View} {m : OrderedMap String View}
    {e : String × View}
    (h : e ∈ (us.foldl (fun (m : OrderedMap String View) v => m.insertIfNew v.name v) m).entries) :
    e ∈ m.entries ∨ e.2 ∈ us := by
  induction us generalizing m with
  | nil => exact .inl h
  | cons u us ih =>
    obtain he | he := ih h
    · obtain he | rfl := mem_of_mem_insertIfNew he
      · exact .inl he
      · exact .inr List.mem_cons_self
    · exact .inr (List.mem_cons_of_mem _ he)

/-- Views are kept under their names, each name once. -/
def OrderedMap.IsNamed (m : OrderedMap String View) : Prop :=
  m.keys = m.values.map View.name ∧ m.keys.Nodup

theorem OrderedMap.IsNamed.insertIfNew {m : OrderedMap String View} (h : m.IsNamed) (v : View) :
    (m.insertIfNew v.name v).IsNamed := by
  refine ⟨?_, nodup_keys_insertIfNew h.2⟩
  rw [OrderedMap.insertIfNew]
  split
  · exact h.1
  · have hkeys : OrderedMap.keys ⟨m.entries ++ [(v.name, v)]⟩ = m.keys ++ [v.name] :=
      List.map_append
    have hvalues : OrderedMap.values ⟨m.entries ++ [(v.name, v)]⟩ = m.values ++ [v] :=
      List.map_append
    rw [hkeys, hvalues, List.map_append, h.1]
    rfl

theorem OrderedMap.IsNamed.foldl {us : List View} {m : OrderedMap String View} (h : m.IsNamed) :
    (us.foldl (fun (m : OrderedMap String View) v => m.insertIfNew v.name v) m).IsNamed := by
  induction us generalizing m with
  | nil => exact h
  | cons u us ih => exact ih (h.insertIfNew u)

namespace Resolver

theorem related_of_mem_attributeClasses {r : Resolver} {v : View} {typeName field : String}
    {us : List View} (h : r.attributeClasses v typeName field = .ok us) :
    ∀ u ∈ us, ∃ name, r.related v name = .ok u := by
  rw [attributeClasses] at h
  split at h
  · obtain rfl := Except.ok.inj h
    intro u hu
    cases hu
  · rename_i t _
    cases hviews : (t.classRefs field).mapM (r.related v) with
    | error e =>
      rw [hviews] at h
      cases h
    | ok views =>
      rw [hviews] at h
      obtain rfl := Except.ok.inj h
      intro u hu
      obtain ⟨e, he, rfl⟩ := List.mem_map.1 hu
      obtain he | he := OrderedMap.mem_of_mem_foldl_insertIfNew he
      · cases he
      · obtain ⟨name, _, hname⟩ := exists_of_mem_mapM_eq_ok hviews _ he
        exact ⟨name, hname⟩

/-- What is collected is related to some class. -/
theorem related_of_mem_collect {r : Resolver} {depth : Nat} {st st' : Collected} {v : View}
    (h : r.collect depth st v = .ok st') :
    ∀ e ∈ st'.imports.entries, e ∈ st.imports.entries ∨ ∃ x name, r.related x name = .ok e.2 := by
  induction depth generalizing st st' v with
  | zero =>
    obtain rfl := Except.ok.inj h
    exact fun e he => .inl he
  | succ depth ih =>
    rw [collect] at h
    split at h
    · obtain rfl := Except.ok.inj h
      exact fun e he => .inl he
    · obtain ⟨mid, hmid, h⟩ := exceptBind_eq_ok.1 h
      obtain ⟨own, hown, h⟩ := exceptBind_eq_ok.1 h
      obtain rfl := Except.ok.inj h
      have htypes := exceptFoldlM_induction (R := fun a b : Collected =>
          ∀ e ∈ b.imports.entries, e ∈ a.imports.entries ∨ ∃ x name, r.related x name = .ok e.2)
        (fun _ _ he => .inl he)
        (fun hab hbc e he => (hbc e he).elim (hab e) .inr)
        (fun t _ a b hstep => by
          split at hstep
          · obtain rfl := Except.ok.inj hstep
            exact fun e he => .inl he
          · exact ih hstep) hmid
      intro e he
      obtain he | he := OrderedMap.mem_of_mem_foldl_insertIfNew he
      · exact htypes e he
      · exact .inr ⟨v, related_of_mem_attributeClasses hown e.2 he⟩

/-- Every import of a class is related to some class. -/
theorem related_of_mem_imports {r : Resolver} {v : View} {us : List View}
    (h : r.imports v = .ok us) : ∀ u ∈ us, ∃ x name, r.related x name = .ok u := by
  obtain ⟨st, hst, rfl⟩ := exceptMap_eq_ok.1 h
  intro u hu
  obtain ⟨e, he, rfl⟩ := List.mem_map.1 hu
  obtain he | he := related_of_mem_collect hst e he
  · cases he
  · exact he

theorem isNamed_collect {r : Resolver} {depth : Nat} {st st' : Collected} {v : View}
    (h : r.collect depth st v = .ok st') (hst : st.imports.IsNamed) : st'.imports.IsNamed := by
  induction depth generalizing st st' v with
  | zero =>
    obtain rfl := Except.ok.inj h
    exact hst
  | succ depth ih =>
    rw [collect] at h
    split at h
    · obtain rfl := Except.ok.inj h
      exact hst
    · obtain ⟨mid, hmid, h⟩ := exceptBind_eq_ok.1 h
      obtain ⟨own, _, h⟩ := exceptBind_eq_ok.1 h
      obtain rfl := Except.ok.inj h
      have htypes := exceptFoldlM_induction
        (R := fun a b : Collected => a.imports.IsNamed → b.imports.IsNamed) (fun _ ha => ha)
        (fun hab hbc ha => hbc (hab ha))
        (fun t _ a b hstep ha => by
          split at hstep
          · obtain rfl := Except.ok.inj hstep
            exact ha
          · exact ih hstep ha) hmid
      exact (htypes hst).foldl

/-- No import is listed twice. -/
theorem nodup_imports {r : Resolver} {v : View} {us : List View} (h : r.imports v = .ok us) :
    (us.map View.name).Nodup := by
  obtain ⟨st, hst, rfl⟩ := exceptMap_eq_ok.1 h
  obtain ⟨hnames, hnodup⟩ := isNamed_collect hst ⟨rfl, List.nodup_nil⟩
  rw [← hnames]
  exact hnodup

/-! ## What loads -/

theorem mem_of_load_read {r : Resolver} {c : ClassInfo} {t : LoadedType}
    (h : r.load (.read c) = .ok t) : t ∈ r.types.types := by
  rw [load] at h
  split at h
  · rename_i ht
    obtain rfl := Except.ok.inj h
    exact TypeTable.mem_of_find? ht
  · cases h

theorem Locates.mem_of_load {r : Resolver} {v : View} {name : String} {t : LoadedType}
    (hv : r.Locates name v) (h : r.load v = .ok t) : t ∈ r.types.types := by
  cases hv with
  | loaded ht =>
    rw [← Except.ok.inj h]
    exact TypeTable.mem_of_find? ht
  | read | builtin | platform => exact mem_of_load_read h

/-- What a name leads to loads from the table. -/
theorem mem_of_load_ofName {r : Resolver} {name : String} {f : NameFilter} {v : View}
    {t : LoadedType} (hv : r.ofName name f = .ok v) (h : r.load v = .ok t) :
    t ∈ r.types.types := by
  cases hf : f.excludes name with
  | true =>
    rw [ofName_of_excludes hf] at hv
    rw [← Except.ok.inj hv] at h
    exact mem_of_load_read h
  | false => exact (locates_of_ofName hf hv).mem_of_load h

theorem mem_of_load_related {r : Resolver} {v u : View} {name : String} {t : LoadedType}
    (hu : r.related v name = .ok u) (h : r.load u = .ok t) : t ∈ r.types.types := by
  cases hf : r.filter.excludes name with
  | true =>
    rw [related_of_excludes hf hu] at h
    exact mem_of_load_read h
  | false => exact (locates_of_related hf hu).mem_of_load h

/-! ## Classes without tags -/

theorem findTag?_of_untagged {r : Resolver} {c : ClassInfo} (hc : c.tags = []) (typeName : String) :
    r.findTag? c typeName = none := by
  have hmeta : r.metaTypes c = [] := by
    rw [metaTypes]
    dsimp only
    rw [hc]
    rfl
  rw [findTag?, hmeta]
  simp [ClassInfo.tag?, Tag.find?, hc]

theorem repeatable_of_untagged {r : Resolver} {c : ClassInfo} (hc : c.tags = [])
    (typeName container : String) : r.repeatable c typeName container = [] := by
  have hdirect : c.repeatable typeName container = [] := by
    rw [ClassInfo.repeatable, hc]
    rfl
  rw [repeatable, hdirect, findTag?_of_untagged hc, findTag?_of_untagged hc]
  rfl

theorem imports_of_untagged {r : Resolver} {v : View} (hv : v.info.tags = []) :
    r.imports v = .ok [] := by
  have htypes : r.tagTypes v = [] := by
    rw [tagTypes, hv]
    rfl
  have hown : r.attributeClasses v WellKnown.importTag "value" = .ok [] := by
    rw [attributeClasses, ClassInfo.tag?, hv]
    rfl
  have hcollect (depth : Nat) : r.collect (depth + 1) {} v = .ok { seen := [v.name] } := by
    rw [collect, htypes, hown]
    rfl
  rw [imports, maxDepth, hcollect]
  rfl

theorem not_isCandidate_object {r : Resolver} : r.isCandidate View.object.info = false := by
  have hnone (typeName : String) : r.isTagged View.object.info typeName = false := by
    rw [isTagged, findTag?_of_untagged rfl]
    rfl
  have hfun : r.isTagged View.object.info = fun _ => false := funext hnone
  rw [isCandidate, hfun]
  simp [View.object, View.info, ClassInfo.taggedMethods]

end Resolver
end Wiring
