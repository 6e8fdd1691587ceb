import Wiring.Proofs.Closure
import Wiring.Proofs.Tours

/-!
# The closure of imports

What a class imports is collected along its tag types, their tag types and so on: a tour of views,
each of which adds what its own import tag names once its tag types are through.  Views are told
apart by their names on the way.  Where classes of the same name are the same class, the collection
comes to all that can be reached, fails if and only if something named there cannot be resolved,
and lists what the class alone names last.
-/

namespace Wiring

open Relation

section

variable {ε α β : Type}

theorem exceptBind_eq_error {x : Except ε α} {f : α → Except ε β} {e : ε} :
    (x >>= f) = .error e ↔ x = .error e ∨ ∃ a, x = .ok a ∧ f a = .error e := by
  cases x with
  | ok a => simp [bind, Except.bind]
  | error e => simp [bind, Except.bind]

/-- A fold that fails does so at one of its steps. -/
theorem exceptFoldlM_eq_error {f : β → α → Except ε β} {as : List α} {b : β} {e : ε}
    (h : as.foldlM f b = .error e) : ∃ a ∈ as, ∃ c, f c a = .error e := by
  induction as generalizing b with
  | nil => cases h
  | cons a as ih =>
    obtain h | ⟨c, _, h⟩ := exceptBind_eq_error.1 h
    · exact ⟨a, List.mem_cons_self, b, h⟩
    · obtain ⟨a', ha', hfail⟩ := ih h
      exact ⟨a', List.mem_cons_of_mem a ha', hfail⟩

theorem exists_of_mapM_eq_error {f : α → Except ε β} {as : List α} {e : ε}
    (h : as.mapM f = .error e) : ∃ a ∈ as, f a = .error e := by
  induction as with
  | nil => cases h
  | cons a as ih =>
    rw [List.mapM_cons] at h
    obtain h | ⟨b, _, h⟩ := exceptBind_eq_error.1 h
    · exact ⟨a, List.mem_cons_self, h⟩
    · obtain h | ⟨_, _, h⟩ := exceptBind_eq_error.1 h
      · obtain ⟨a', ha', hfail⟩ := ih h
        exact ⟨a', List.mem_cons_of_mem a ha', hfail⟩
      · cases h

theorem forall_of_mapM_eq_ok {f : α → Except ε β} {as : List α} {bs : List β}
    (h : as.mapM f = .ok bs) : ∀ a ∈ as, ∃ b ∈ bs, f a = .ok b := by
  induction as generalizing bs with
  | nil => simp
  | cons a as ih =>
    rw [List.mapM_cons] at h
    obtain ⟨b, hb, h⟩ := exceptBind_eq_ok.1 h
    obtain ⟨bs', hbs', h⟩ := exceptBind_eq_ok.1 h
    obtain rfl := Except.ok.inj h
    intro a' ha'
    obtain rfl | ha' := List.mem_cons.1 ha'
    · exact ⟨b, List.mem_cons_self, hb⟩
    · obtain ⟨b', hb', hf⟩ := ih hbs' a' ha'
      exact ⟨b', List.mem_cons_of_mem b hb', hf⟩

end

theorem OrderedMap.mem_keys_foldl_named {us : List View} {m : OrderedMap String View}
    {name : String} :
    name ∈ (us.foldl (fun (m : OrderedMap String View) v => m.insertIfNew v.name v) m).keys ↔
      name ∈ m.keys ∨ name ∈ us.map View.name := by
  induction us generalizing m with
  | nil => simp
  | cons u us ih =>
    rw [List.foldl_cons, ih, mem_keys_insertIfNew, List.map_cons, List.mem_cons, or_assoc]

theorem OrderedMap.prefix_foldl_named {us : List View} {m : OrderedMap String View} :
    m.entries <+:
      (us.foldl (fun (m : OrderedMap String View) v => m.insertIfNew v.name v) m).entries := by
  induction us generalizing m with
  | nil => exact List.prefix_rfl
  | cons u us ih => exact prefix_insertIfNew.trans (ih (m := m.insertIfNew u.name u))

/-- What the first import tag on the view names. -/
def View.importNames (v : View) : List String :=
  match v.info.tag? WellKnown.importTag with
  | some t => t.classRefs "value"
  | none => []

namespace Resolver

/-- A tag on the view that counts has that type: it is outside the platform, not excluded, and not
the import tag itself. -/
def ImportsThrough (r : Resolver) (v t : View) : Prop :=
  ∃ tag ∈ v.info.tags, r.isPlatform tag.typeName = false ∧
    r.filter.excludes tag.typeName = false ∧ tag.typeName ≠ WellKnown.importTag ∧
    r.related v tag.typeName = .ok t

/-- The first import tag on the view names a class of that name, which can be resolved. -/
def Contributes (r : Resolver) (v : View) (className : String) : Prop :=
  ∃ name ∈ v.importNames, ∃ u, r.related v name = .ok u ∧ u.name = className

/-- The tag types whose imports are collected with those of the view.  Excluded ones are among them
as the empty view. -/
def importingTypes (r : Resolver) (v : View) : List View :=
  (r.tagTypes v).filter (·.name ≠ WellKnown.importTag)

/-- A collection for the first view comes to the second one. -/
def Meets (r : Resolver) : View → View → Prop := ReflTransGen (Edge r.importingTypes)

variable {r : Resolver} {u v t : View} {name : String}

/-! ## The import tag of a single view -/

theorem attributeClasses_eq : r.attributeClasses v WellKnown.importTag "value" =
    (v.importNames.mapM (r.related v)).map fun us =>
      (us.foldl (fun (m : OrderedMap String View) v => m.insertIfNew v.name v) {}).values := by
  rw [attributeClasses, View.importNames]
  cases v.info.tag? WellKnown.importTag with
  | none => rfl
  | some t => rfl

/-- The import tag fails to give its classes if and only if one of them cannot be resolved. -/
theorem attributeClasses_fails_iff :
    (∃ e, r.attributeClasses v WellKnown.importTag "value" = .error e) ↔
      ∃ name ∈ v.importNames, ∃ e, r.related v name = .error e := by
  rw [attributeClasses_eq]
  cases hviews : v.importNames.mapM (r.related v) with
  | ok us =>
    refine ⟨fun ⟨e, h⟩ => (by cases h), fun ⟨name, hname, e, he⟩ => ?_⟩
    obtain ⟨u, _, hu⟩ := forall_of_mapM_eq_ok hviews name hname
    rw [he] at hu
    cases hu
  | error e =>
    obtain ⟨name, hname, hfail⟩ := exists_of_mapM_eq_error hviews
    exact ⟨fun _ => ⟨name, hname, e, hfail⟩, fun _ => ⟨e, rfl⟩⟩

variable {own : List View}

theorem exists_of_mem_own (h : r.attributeClasses v WellKnown.importTag "value" = .ok own) :
    ∀ x ∈ own, ∃ name ∈ v.importNames, r.related v name = .ok x := by
  rw [attributeClasses_eq] at h
  obtain ⟨us, hus, rfl⟩ := exceptMap_eq_ok.1 h
  intro x hx
  obtain ⟨e, he, rfl⟩ := List.mem_map.1 hx
  obtain he | he := OrderedMap.mem_of_mem_foldl_insertIfNew he
  · cases he
  · exact exists_of_mem_mapM_eq_ok hus _ he

theorem mem_own_names (h : r.attributeClasses v WellKnown.importTag "value" = .ok own) :
    name ∈ own.map View.name ↔ r.Contributes v name := by
  constructor
  · intro hname
    obtain ⟨x, hx, rfl⟩ := List.mem_map.1 hname
    obtain ⟨source, hsource, hrelated⟩ := exists_of_mem_own h x hx
    exact ⟨source, hsource, x, hrelated, rfl⟩
  · rintro ⟨source, hsource, x, hrelated, rfl⟩
    rw [attributeClasses_eq] at h
    obtain ⟨us, hus, rfl⟩ := exceptMap_eq_ok.1 h
    have hnamed : OrderedMap.IsNamed
        (us.foldl (fun (m : OrderedMap String View) v => m.insertIfNew v.name v) {}) :=
      OrderedMap.IsNamed.foldl ⟨rfl, List.nodup_nil⟩
    obtain ⟨x', hx', hrelated'⟩ := forall_of_mapM_eq_ok hus source hsource
    obtain rfl := Except.ok.inj (hrelated.symm.trans hrelated')
    rw [← hnamed.1, OrderedMap.mem_keys_foldl_named]
    exact .inr (List.mem_map_of_mem hx')

/-! ## What is added on the way -/

/-- The views on the way add what their import tags name, all of which can be resolved. -/
structure Adds (r : Resolver) (us : List View) (m m' : OrderedMap String View) : Prop where
  resolves : ∀ u ∈ us, ∀ name ∈ u.importNames, ∃ x, r.related u name = .ok x
  keys : ∀ name, name ∈ m'.keys ↔ name ∈ m.keys ∨ ∃ u ∈ us, r.Contributes u name
  resolved : ∀ x ∈ m'.values, x ∈ m.values ∨
    ∃ u ∈ us, ∃ name ∈ u.importNames, r.related u name = .ok x

namespace Adds

variable {us vs : List View} {m m' m'' : OrderedMap String View}

theorem nil (m : OrderedMap String View) : r.Adds [] m m where
  resolves := by simp
  keys := by simp
  resolved _ hx := .inl hx

theorem append (h : r.Adds us m m') (h' : r.Adds vs m' m'') : r.Adds (us ++ vs) m m'' where
  resolves u hu := (List.mem_append.1 hu).elim (h.resolves u) (h'.resolves u)
  keys name := by
    rw [h'.keys, h.keys, or_assoc]
    simp only [List.mem_append, or_and_right, exists_or]
  resolved x hx := by
    obtain hx | ⟨u, hu, hx⟩ := h'.resolved x hx
    · exact (h.resolved x hx).imp_right fun ⟨u, hu, hx⟩ => ⟨u, List.mem_append_left _ hu, hx⟩
    · exact .inr ⟨u, List.mem_append_right _ hu, hx⟩

/-- In which order the views are listed does not matter. -/
theorem perm (h : r.Adds us m m') (hperm : us.Perm vs) : r.Adds vs m m' where
  resolves u hu := h.resolves u (hperm.mem_iff.2 hu)
  keys name := by
    rw [h.keys]
    simp only [hperm.mem_iff]
  resolved x hx := (h.resolved x hx).imp_right fun ⟨u, hu, hx⟩ => ⟨u, hperm.mem_iff.1 hu, hx⟩

theorem of_attributeClasses {own : List View}
    (h : r.attributeClasses v WellKnown.importTag "value" = .ok own) :
    r.Adds [v] m
      (own.foldl (fun (m : OrderedMap String View) v => m.insertIfNew v.name v) m) where
  resolves u hu name hname := by
    obtain rfl := List.mem_singleton.1 hu
    cases hrelated : r.related u name with
    | ok x => exact ⟨x, rfl⟩
    | error e =>
      obtain ⟨e', he'⟩ := attributeClasses_fails_iff.2 ⟨name, hname, e, hrelated⟩
      rw [h] at he'
      cases he'
  keys name := by
    rw [OrderedMap.mem_keys_foldl_named, mem_own_names h]
    simp
  resolved x hx := by
    obtain ⟨e, he, rfl⟩ := List.mem_map.1 hx
    refine (OrderedMap.mem_of_mem_foldl_insertIfNew he).imp List.mem_map_of_mem fun hmem => ?_
    obtain ⟨name, hname, hrelated⟩ := exists_of_mem_own h _ hmem
    exact ⟨v, List.mem_singleton_self v, name, hname, hrelated⟩

end Adds

/-! ## A collection is a tour -/

theorem collect_eq {depth : Nat} {st : Collected} (hfresh : v.name ∉ st.seen) :
    r.collect (depth + 1) st v = (do
      let st ← (r.importingTypes v).foldlM (r.collect depth) { st with seen := v.name :: st.seen }
      let own ← r.attributeClasses v WellKnown.importTag "value"
      return { st with imports := own.foldl (fun m v => m.insertIfNew v.name v) st.imports }) := by
  rw [collect, if_neg hfresh, importingTypes, List.foldlM_filter]
  congr 2
  funext st t
  by_cases ht : t.name = WellKnown.importTag <;> simp [ht, pure, Except.pure]

theorem mem_importingTypes : t ∈ r.importingTypes v ↔
    (∃ tag ∈ v.info.tags, r.isPlatform tag.typeName = false ∧ r.related v tag.typeName = .ok t) ∧
      t.name ≠ WellKnown.importTag := by
  simp only [importingTypes, tagTypes, List.mem_filter, List.mem_filterMap, List.mem_eraseDups,
    List.mem_map, exceptToOption_eq_some, decide_eq_true_eq, Bool.not_eq_true']
  refine and_congr_left fun _ => ⟨?_, ?_⟩
  · rintro ⟨_, ⟨⟨tag, htag, rfl⟩, hplatform⟩, ht⟩
    exact ⟨tag, htag, hplatform, ht⟩
  · rintro ⟨tag, htag, hplatform, ht⟩
    exact ⟨tag.typeName, ⟨⟨tag, htag, rfl⟩, hplatform⟩, ht⟩

/-- A tag type is the empty view, or one that a tag has which counts. -/
theorem importsThrough_of_mem (h : t ∈ r.importingTypes v) :
    t = .object ∨ r.ImportsThrough v t := by
  obtain ⟨⟨tag, htag, hplatform, ht⟩, hname⟩ := mem_importingTypes.1 h
  cases hfilter : r.filter.excludes tag.typeName with
  | true => exact .inl (related_of_excludes hfilter ht)
  | false =>
    rw [name_related hfilter ht] at hname
    exact .inr ⟨tag, htag, hplatform, hfilter, hname, ht⟩

theorem ImportsThrough.mem (h : r.ImportsThrough v t) : t ∈ r.importingTypes v := by
  obtain ⟨tag, htag, hplatform, hfilter, hname, ht⟩ := h
  rw [← name_related hfilter ht] at hname
  exact mem_importingTypes.2 ⟨⟨tag, htag, hplatform, ht⟩, hname⟩

theorem importingTypes_object : r.importingTypes .object = [] := rfl

/-- Nothing follows the empty view, so excluded tag types lead nowhere. -/
theorem Meets.eq_object_or (h : r.Meets v u) : u = .object ∨ ReflTransGen r.ImportsThrough v u := by
  induction h with
  | refl => exact .inr .refl
  | tail _ hstep ih =>
    obtain rfl | hpath := ih
    · rw [Edge, importingTypes_object] at hstep
      cases hstep
    · exact (importsThrough_of_mem hstep).imp_right hpath.tail

theorem meets_of_path (h : ReflTransGen r.ImportsThrough v u) : r.Meets v u :=
  ReflTransGen.mono (fun _ _ => ImportsThrough.mem) _ _ h

/-- The names of the views that a collection for `v` can come to. -/
def namesMet (r : Resolver) (v : View) : Finset String :=
  insert v.name (insert View.object.name r.knownNames)

theorem unseen_namesMet_lt {seen : List String} : unseen (r.namesMet v) seen < r.maxDepth := by
  have hunseen : unseen (r.namesMet v) seen ≤ (r.namesMet v).card := unseen_le_card
  have hcard : (r.namesMet v).card ≤ r.knownNames.card + 2 :=
    (Finset.card_insert_le _ _).trans (Nat.succ_le_succ (Finset.card_insert_le _ _))
  have hdepth := r.card_knownNames_lt
  omega

theorem name_mem_namesMet {x : View} (ht : t ∈ r.importingTypes x) : t.name ∈ r.namesMet v := by
  refine Finset.mem_insert_of_mem ?_
  obtain rfl | ⟨tag, _, hplatform, hfilter, _, hrelated⟩ := importsThrough_of_mem ht
  · exact Finset.mem_insert_self _ _
  · exact Finset.mem_insert_of_mem
      (mem_knownNames (mem_infos_of_related hfilter hplatform hrelated))

section

variable {U : Finset String} {depth depth' : Nat} {st st' : Collected}

theorem foldlM_tour {f : Collected → View → Except Failure Collected} {ts : List View}
    (step : ∀ {t : View} {st st' : Collected}, t.name ∈ U → unseen U st.seen < depth →
      f st t = .ok st' → ∃ us, Tour View.name r.importingTypes st.seen [t] us st'.seen ∧
        r.Adds us st.imports st'.imports)
    (hts : ∀ t ∈ ts, t.name ∈ U) (hdepth : unseen U st.seen < depth)
    (h : ts.foldlM f st = .ok st') :
    ∃ us, Tour View.name r.importingTypes st.seen ts us st'.seen ∧
      r.Adds us st.imports st'.imports := by
  induction ts generalizing st with
  | nil =>
    obtain rfl := Except.ok.inj h
    exact ⟨[], .done _, .nil _⟩
  | cons t ts ih =>
    obtain ⟨mid, hfirst, h⟩ := exceptBind_eq_ok.1 h
    obtain ⟨us, htour, hadds⟩ := step (hts t List.mem_cons_self) hdepth hfirst
    obtain ⟨vs, htour', hadds'⟩ := ih (fun t ht => hts t (List.mem_cons_of_mem _ ht))
      (Nat.lt_of_le_of_lt (unseen_le htour.seen_subset) hdepth) h
    exact ⟨us ++ vs, htour.append htour', hadds.append hadds'⟩

/-- A collection that may go deep enough and succeeds is a tour, and the views entered add their
imports. -/
theorem collect_tour (hU : ∀ {v t : View}, t ∈ r.importingTypes v → t.name ∈ U)
    (hv : v.name ∈ U) (hdepth : unseen U st.seen < depth) (h : r.collect depth st v = .ok st') :
    ∃ us, Tour View.name r.importingTypes st.seen [v] us st'.seen ∧
      r.Adds us st.imports st'.imports := by
  induction depth generalizing st st' v with
  | zero => cases hdepth
  | succ depth ih =>
    by_cases hseen : v.name ∈ st.seen
    · rw [collect, if_pos hseen] at h
      obtain rfl := Except.ok.inj h
      exact ⟨[], .pass hseen (.done _), .nil _⟩
    · rw [collect_eq hseen] at h
      obtain ⟨mid, hmid, h⟩ := exceptBind_eq_ok.1 h
      obtain ⟨own, hown, h⟩ := exceptBind_eq_ok.1 h
      obtain rfl := Except.ok.inj h
      have hbelow : unseen U (Collected.seen { st with seen := v.name :: st.seen }) < depth :=
        Nat.lt_of_lt_of_le (unseen_cons_lt hv hseen) (Nat.le_of_lt_succ hdepth)
      obtain ⟨us, htour, hadds⟩ := foldlM_tour ih (fun _ => hU) hbelow hmid
      refine ⟨v :: (us ++ []), .enter hseen htour (.done _), ?_⟩
      rw [List.append_nil]
      exact (hadds.append (.of_attributeClasses hown)).perm (List.perm_append_singleton v us)

theorem foldlM_collect_congr (hU : ∀ {v t : View}, t ∈ r.importingTypes v → t.name ∈ U)
    (heq : ∀ {t : View} {st : Collected}, t.name ∈ U → unseen U st.seen < depth →
      unseen U st.seen < depth' → r.collect depth st t = r.collect depth' st t)
    {ts : List View} (hts : ∀ t ∈ ts, t.name ∈ U) (hdepth : unseen U st.seen < depth)
    (hdepth' : unseen U st.seen < depth') :
    ts.foldlM (r.collect depth) st = ts.foldlM (r.collect depth') st := by
  induction ts generalizing st with
  | nil => rfl
  | cons t ts ih =>
    rw [List.foldlM_cons, List.foldlM_cons, ← heq (hts t List.mem_cons_self) hdepth hdepth']
    cases hfirst : r.collect depth st t with
    | error e => rfl
    | ok mid =>
      obtain ⟨us, htour, _⟩ := collect_tour hU (hts t List.mem_cons_self) hdepth hfirst
      have hless : unseen U mid.seen ≤ unseen U st.seen := unseen_le htour.seen_subset
      exact ih (fun t ht => hts t (List.mem_cons_of_mem _ ht))
        (Nat.lt_of_le_of_lt hless hdepth) (Nat.lt_of_le_of_lt hless hdepth')

/-- Going deeper than that changes nothing. -/
theorem collect_eq_of_lt (hU : ∀ {v t : View}, t ∈ r.importingTypes v → t.name ∈ U)
    (hv : v.name ∈ U) (hdepth : unseen U st.seen < depth) (hdepth' : unseen U st.seen < depth') :
    r.collect depth st v = r.collect depth' st v := by
  induction depth generalizing depth' st v with
  | zero => cases hdepth
  | succ depth ih =>
    cases depth' with
    | zero => cases hdepth'
    | succ depth' =>
      by_cases hseen : v.name ∈ st.seen
      · rw [collect, if_pos hseen, collect, if_pos hseen]
      · have hless : unseen U (Collected.seen { st with seen := v.name :: st.seen }) <
            unseen U st.seen := unseen_cons_lt hv hseen
        rw [collect_eq hseen, collect_eq hseen, foldlM_collect_congr hU ih (fun _ => hU)
          (Nat.lt_of_lt_of_le hless (Nat.le_of_lt_succ hdepth))
          (Nat.lt_of_lt_of_le hless (Nat.le_of_lt_succ hdepth'))]

end

/-- A collection fails at the import tag of a view that it comes to. -/
theorem exists_met_of_collect_error {depth : Nat} {st : Collected} {e : Failure}
    (h : r.collect depth st v = .error e) :
    ∃ u, r.Meets v u ∧ r.attributeClasses u WellKnown.importTag "value" = .error e := by
  induction depth generalizing st v with
  | zero => cases h
  | succ depth ih =>
    by_cases hseen : v.name ∈ st.seen
    · rw [collect, if_pos hseen] at h
      cases h
    · rw [collect_eq hseen] at h
      obtain h | ⟨mid, _, h⟩ := exceptBind_eq_error.1 h
      · obtain ⟨t, ht, st', hfail⟩ := exceptFoldlM_eq_error h
        obtain ⟨u, hmeets, hu⟩ := ih hfail
        exact ⟨u, .head ht hmeets, hu⟩
      · obtain h | ⟨_, _, h⟩ := exceptBind_eq_error.1 h
        · exact ⟨v, .refl, h⟩
        · cases h

/-! ## Views of one class -/

/-- The loader and the reader agree on every class that both know, and all that the reader fails to
read is not there. -/
structure Agrees (r : Resolver) : Prop where
  same : ∀ name t c, r.types.find? name = some t → r.reader.read name = .ok c → c = t.info
  notFound : ∀ name e, r.reader.read name = .error e → e.isNotFound = true

theorem agrees_of_plain (htypes : r.types.types = []) (hreader : r.reader.failures = []) :
    r.Agrees where
  same name t c ht := by
    rw [TypeTable.find?, htypes] at ht
    cases ht
  notFound name e he := by
    rw [Reader.read, hreader] at he
    have he : r.reader.index.read name = .error e := he
    rw [Index.read] at he
    split at he
    · cases he
    · rw [← Except.error.inj he]
      rfl

theorem Agrees.coherent (hr : r.Agrees) : r.Coherent := by
  intro name t ht
  cases hread : r.reader.read name with
  | ok c =>
    rw [hr.same name t c ht hread]
    exact .inl rfl
  | error e => exact .inr ⟨e, rfl, hr.notFound name e hread⟩

/-- Among the views that a collection for `v` comes to, the name of a class settles its metadata. -/
def TellsApart (r : Resolver) (v : View) : Prop :=
  ∀ a b, r.Meets v a → r.Meets v b → a.name = b.name → a.info = b.info

/-- It is so if the view is what its name stands for and the platform's root class is bare. -/
theorem tellsApart_of_matches (hr : r.Coherent) (hv : r.Matches v) (hobject : r.Matches .object) :
    r.TellsApart v := by
  have hmatches {u : View} (hu : r.Meets v u) : r.Matches u := by
    induction hu with
    | refl => exact hv
    | tail _ hstep _ =>
      obtain rfl | ⟨tag, _, _, _, _, hrelated⟩ := importsThrough_of_mem hstep
      · exact hobject
      · obtain rfl | hstands := stands_of_related hr hrelated
        · exact hobject
        · exact hstands.2
  intro a b ha hb hname
  obtain ⟨x, hx, hxa⟩ := hmatches ha
  obtain ⟨y, hy, hyb⟩ := hmatches hb
  rw [hname, hy] at hx
  rw [← hxa, ← hyb, Except.ok.inj hx]

theorem Coherent.importingTypes_congr (hr : r.Coherent) (h : u.info = v.info) :
    (r.importingTypes u).map View.info = (r.importingTypes v).map View.info := by
  have hfilter (vs : List View) : (vs.filter (·.name ≠ WellKnown.importTag)).map View.info =
      (vs.map View.info).filter (·.name ≠ WellKnown.importTag) := by
    rw [List.filter_map]
    rfl
  rw [importingTypes, importingTypes, hfilter, hfilter, hr.blind.tagTypes_congr h]

theorem importNames_congr (h : u.info = v.info) : u.importNames = v.importNames := by
  rw [View.importNames, View.importNames, h]

theorem Coherent.related_eq_ok (hr : r.Coherent) {x : View} (h : r.related u name = .ok x)
    (v : View) : ∃ y, r.related v name = .ok y ∧ y.info = x.info := by
  have hinfo := (hr.info_related v name).trans (hr.info_related u name).symm
  rw [h] at hinfo
  exact exceptMap_eq_ok.1 hinfo

theorem Contributes.congr (hr : r.Coherent) (h : u.info = v.info) (hu : r.Contributes u name) :
    r.Contributes v name := by
  obtain ⟨source, hsource, x, hx, rfl⟩ := hu
  obtain ⟨y, hy, hyx⟩ := hr.related_eq_ok hx v
  rw [importNames_congr h] at hsource
  exact ⟨source, hsource, y, hy, congrArg ClassInfo.name hyx⟩

theorem not_contributes_object : ¬ r.Contributes .object name := by
  rintro ⟨_, hname, _⟩
  cases hname

/-! ## The result -/

/-- What the class imports: each class once that is named by an import tag on the way, those that a
tag type names before those that only the class itself does. -/
structure IsImportClosure (r : Resolver) (v : View) (us : List View) : Prop where
  nodup : (us.map View.name).Nodup
  resolved : ∀ x ∈ us, ∃ u, ReflTransGen r.ImportsThrough v u ∧
    ∃ name ∈ u.importNames, r.related u name = .ok x
  complete : ∀ u, ReflTransGen r.ImportsThrough v u → ∀ name, r.Contributes u name →
    name ∈ us.map View.name
  ordered : ∃ metas own, us = metas ++ own ∧
    (∀ name, name ∈ metas.map View.name ↔
      ∃ u, TransGen r.ImportsThrough v u ∧ u.name ≠ v.name ∧ r.Contributes u name) ∧
    ∀ name ∈ own.map View.name, r.Contributes v name

/-- The collection of the imports of a class comes to an end, fails if and only if something that
is named on the way cannot be resolved, and gives the closure otherwise. -/
structure CollectsClosure (r : Resolver) (v : View) : Prop where
  ends : ∀ depth, r.maxDepth ≤ depth → r.collect depth {} v = r.collect r.maxDepth {} v
  fails_iff : (∃ e, r.imports v = .error e) ↔
    ∃ u, ReflTransGen r.ImportsThrough v u ∧ ∃ name ∈ u.importNames, ∃ e,
      r.related u name = .error e
  closure : ∀ us, r.imports v = .ok us → r.IsImportClosure v us

/-- A tour from the view enters the views listed after it, and what they add is kept in `metas`.
Then the view adds its own imports, and all that has been added is in `all`. -/
structure Gathers (r : Resolver) (v : View) (entered : List View)
    (metas all : OrderedMap String View) : Prop where
  tour : ∃ seen, Tour View.name r.importingTypes [] [v] (v :: entered) seen
  others : ∀ u ∈ entered, u.name ≠ v.name
  adds : r.Adds entered {} metas
  own : r.Adds [v] metas all
  named : all.IsNamed
  starts : metas.entries <+: all.entries

theorem exists_gathers {us : List View} (h : r.imports v = .ok us) :
    ∃ entered metas all, r.Gathers v entered metas all ∧ us = all.values := by
  obtain ⟨st, hst, rfl⟩ := exceptMap_eq_ok.1 h
  have hnamed : st.imports.IsNamed := isNamed_collect hst ⟨rfl, List.nodup_nil⟩
  have hfresh : v.name ∉ ({} : Collected).seen := List.not_mem_nil
  obtain ⟨depth, hdepth⟩ : ∃ depth, r.maxDepth = depth + 1 := ⟨_, rfl⟩
  rw [hdepth, collect_eq hfresh] at hst
  obtain ⟨mid, hmid, hst⟩ := exceptBind_eq_ok.1 hst
  obtain ⟨own, hown, hst⟩ := exceptBind_eq_ok.1 hst
  obtain rfl := Except.ok.inj hst
  have hless : unseen (r.namesMet v) (Collected.seen { ({} : Collected) with seen := [v.name] }) <
      depth := by
    have hcons : unseen (r.namesMet v) [v.name] < unseen (r.namesMet v) [] :=
      unseen_cons_lt (Finset.mem_insert_self _ _) List.not_mem_nil
    have hmax : unseen (r.namesMet v) [] < r.maxDepth := unseen_namesMet_lt
    show unseen (r.namesMet v) [v.name] < depth
    omega
  obtain ⟨entered, htour, hadds⟩ := foldlM_tour
    (collect_tour fun ht => name_mem_namesMet ht) (fun _ => name_mem_namesMet) hless hmid
  refine ⟨entered, mid.imports, _, ⟨⟨mid.seen, ?_⟩, fun u hu heq => ?_, hadds,
    .of_attributeClasses hown, hnamed, OrderedMap.prefix_foldl_named⟩, rfl⟩
  · have hwhole := Tour.enter List.not_mem_nil htour (.done mid.seen)
    rwa [List.append_nil] at hwhole
  · refine htour.key_not_mem u hu ?_
    rw [heq]
    exact List.mem_cons_self

namespace Gathers

variable {entered : List View} {metas all : OrderedMap String View}

theorem meets (h : r.Gathers v entered metas all) : ∀ u ∈ v :: entered, r.Meets v u := by
  obtain ⟨seen, htour⟩ := h.tour
  intro u hu
  obtain ⟨start, hstart, hpath⟩ := htour.exists_path u hu
  obtain rfl := List.mem_singleton.1 hstart
  exact hpath

/-- All that can be reached is entered: the tour starts with nothing seen. -/
theorem exists_entered (h : r.Gathers v entered metas all) (hr : r.Coherent)
    (hv : r.TellsApart v) (hu : r.Meets v u) : ∃ e ∈ v :: entered, e.info = u.info := by
  obtain ⟨seen, htour⟩ := h.tour
  refine htour.exists_entered (p := View.info) hr.importingTypes_congr ?_ List.mem_cons_self hu
  intro a b m n hm ha hn hb
  obtain rfl := List.mem_singleton.1 hm
  obtain rfl := List.mem_singleton.1 hn
  exact hv a b ha hb

theorem mem_metas_iff (h : r.Gathers v entered metas all) (hr : r.Coherent)
    (hv : r.TellsApart v) : name ∈ metas.keys ↔
      ∃ u, TransGen r.ImportsThrough v u ∧ u.name ≠ v.name ∧ r.Contributes u name := by
  rw [h.adds.keys]
  constructor
  · rintro (hname | ⟨u, hu, hcontributes⟩)
    · cases hname
    · obtain rfl | hpath := (h.meets u (List.mem_cons_of_mem v hu)).eq_object_or
      · exact absurd hcontributes not_contributes_object
      · have hother := h.others u hu
        refine ⟨u, ?_, hother, hcontributes⟩
        obtain rfl | hpath := reflTransGen_iff_eq_or_transGen.1 hpath
        · exact absurd rfl hother
        · exact hpath
  · rintro ⟨u, hpath, hother, hcontributes⟩
    obtain ⟨e, he, heu⟩ := h.exists_entered hr hv (meets_of_path hpath.to_reflTransGen)
    obtain rfl | he := List.mem_cons.1 he
    · exact absurd (congrArg ClassInfo.name heu).symm hother
    · exact .inr ⟨e, he, hcontributes.congr hr heu.symm⟩

theorem resolves (h : r.Gathers v entered metas all) (hr : r.Coherent) (hv : r.TellsApart v)
    (hu : r.Meets v u) (hname : name ∈ u.importNames) : ∃ x, r.related u name = .ok x := by
  obtain ⟨e, he, heu⟩ := h.exists_entered hr hv hu
  rw [← importNames_congr heu] at hname
  have hresolved : ∃ x, r.related e name = .ok x := by
    obtain rfl | he := List.mem_cons.1 he
    · exact h.own.resolves e (List.mem_singleton_self e) name hname
    · exact h.adds.resolves e he name hname
  obtain ⟨x, hx⟩ := hresolved
  obtain ⟨y, hy, _⟩ := hr.related_eq_ok hx u
  exact ⟨y, hy⟩

theorem resolved (h : r.Gathers v entered metas all) {x : View} (hx : x ∈ all.values) :
    ∃ u, ReflTransGen r.ImportsThrough v u ∧ ∃ name ∈ u.importNames, r.related u name = .ok x := by
  obtain ⟨u, hu, name, hname, hrelated⟩ : ∃ u ∈ v :: entered, ∃ name ∈ u.importNames,
      r.related u name = .ok x := by
    obtain hx | ⟨u, hu, hx⟩ := h.own.resolved x hx
    · obtain hx | ⟨u, hu, hx⟩ := h.adds.resolved x hx
      · cases hx
      · exact ⟨u, List.mem_cons_of_mem v hu, hx⟩
    · exact ⟨u, List.mem_cons.2 (.inl (List.mem_singleton.1 hu)), hx⟩
  obtain rfl | hpath := (h.meets u hu).eq_object_or
  · cases hname
  · exact ⟨u, hpath, name, hname, hrelated⟩

theorem mem_keys (h : r.Gathers v entered metas all) (hr : r.Coherent) (hv : r.TellsApart v)
    (hpath : ReflTransGen r.ImportsThrough v u) (hu : r.Contributes u name) : name ∈ all.keys := by
  obtain ⟨e, he, heu⟩ := h.exists_entered hr hv (meets_of_path hpath)
  have hadded := hu.congr hr heu.symm
  rw [h.own.keys]
  obtain rfl | he := List.mem_cons.1 he
  · exact .inr ⟨e, List.mem_singleton_self e, hadded⟩
  · exact .inl ((h.adds.keys name).2 (.inr ⟨e, he, hadded⟩))

/-- What no tag type has brought is the view's own. -/
theorem contributes_of_new (h : r.Gathers v entered metas all) (hname : name ∈ all.keys)
    (hnew : name ∉ metas.keys) : r.Contributes v name := by
  obtain hold | ⟨u, hu, hcontributes⟩ := (h.own.keys name).1 hname
  · exact absurd hold hnew
  · rwa [List.mem_singleton.1 hu] at hcontributes

theorem isImportClosure (h : r.Gathers v entered metas all) (hr : r.Coherent)
    (hv : r.TellsApart v) : r.IsImportClosure v all.values := by
  obtain ⟨hkeys, hnodup⟩ := h.named
  obtain ⟨rest, hsplit⟩ := h.starts
  have hall : all.keys = metas.keys ++ rest.map (·.1) := by
    rw [OrderedMap.keys, ← hsplit, List.map_append, OrderedMap.keys]
  have hvalues : all.values = metas.values ++ rest.map (·.2) := by
    rw [OrderedMap.values, ← hsplit, List.map_append, OrderedMap.values]
  -- so the names of either part are its keys
  have hparts : metas.values.map View.name = metas.keys ∧
      (rest.map (·.2)).map View.name = rest.map (·.1) := by
    rw [hall, hvalues, List.map_append] at hkeys
    have hlength : metas.keys.length = (metas.values.map View.name).length := by
      simp [OrderedMap.keys, OrderedMap.values]
    obtain ⟨hmetas, hrest⟩ := List.append_inj hkeys hlength
    exact ⟨hmetas.symm, hrest.symm⟩
  constructor
  · rw [← hkeys]
    exact hnodup
  · exact fun x hx => h.resolved hx
  · intro u hpath name hu
    rw [← hkeys]
    exact h.mem_keys hr hv hpath hu
  · refine ⟨metas.values, rest.map (·.2), hvalues, fun name => ?_, fun name hname => ?_⟩
    · rw [hparts.1]
      exact h.mem_metas_iff hr hv
    · rw [hparts.2] at hname
      rw [hall] at hnodup
      refine h.contributes_of_new (hall ▸ List.mem_append_right _ hname) fun hold => ?_
      exact (List.nodup_append.1 hnodup).2.2 name hold name hname rfl

end Gathers

/-- Where the names of classes tell them apart, collecting imports computes a closure, however the
tag types tag each other. -/
theorem collectsClosure (hr : r.Agrees) (hv : r.TellsApart v) : r.CollectsClosure v where
  ends depth hdepth :=
    collect_eq_of_lt (fun ht => name_mem_namesMet ht) (Finset.mem_insert_self _ _)
      (Nat.lt_of_lt_of_le unseen_namesMet_lt hdepth) unseen_namesMet_lt
  fails_iff := by
    constructor
    · rintro ⟨e, he⟩
      have hcollect : r.collect r.maxDepth {} v = .error e := by
        rw [imports] at he
        cases hst : r.collect r.maxDepth {} v with
        | ok st =>
          rw [hst] at he
          cases he
        | error e' =>
          rw [hst] at he
          rw [Except.error.inj he]
      obtain ⟨u, hmeets, hu⟩ := exists_met_of_collect_error hcollect
      obtain ⟨name, hname, hfail⟩ := attributeClasses_fails_iff.1 ⟨e, hu⟩
      obtain rfl | hpath := hmeets.eq_object_or
      · cases hname
      · exact ⟨u, hpath, name, hname, hfail⟩
    · rintro ⟨u, hpath, name, hname, e, hfail⟩
      cases himports : r.imports v with
      | error e => exact ⟨e, rfl⟩
      | ok us =>
        obtain ⟨entered, metas, all, hgathers, _⟩ := exists_gathers himports
        obtain ⟨x, hx⟩ := hgathers.resolves hr.coherent hv (meets_of_path hpath) hname
        rw [hfail] at hx
        cases hx
  closure us hus := by
    obtain ⟨entered, metas, all, hgathers, rfl⟩ := exists_gathers hus
    exact hgathers.isImportClosure hr.coherent hv

/-- Two tag types that tag each other, and a class with an import of its own. -/
def loopingImports : Resolver where
  reader.index.classes := [
    { name := "lib.A", isTagType := true, tags := [.mk "lib.B" [], .importing ["lib.X"]] },
    { name := "lib.B", isTagType := true, tags := [.mk "lib.A" [], .importing ["lib.Y"]] },
    { name := "app.App", tags := [.importing ["lib.X", "app.Z"], .mk "lib.A" []] },
    { name := "lib.X" }, { name := "lib.Y" }, { name := "app.Z" }]

def loopingApp : View :=
  .read { name := "app.App", tags := [.importing ["lib.X", "app.Z"], .mk "lib.A" []] }

set_option maxRecDepth 100000 in
theorem collectsClosure_loopingApp : loopingImports.CollectsClosure loopingApp ∧
    (loopingImports.imports loopingApp).toOption.map (·.map View.name) =
      some ["lib.Y", "lib.X", "app.Z"] := by
  have hagrees : loopingImports.Agrees := agrees_of_plain rfl rfl
  have hmatches : loopingImports.Matches loopingApp := ⟨loopingApp, rfl, rfl⟩
  have hobject : loopingImports.Matches .object := ⟨.object, rfl, rfl⟩
  have happart := tellsApart_of_matches hagrees.coherent hmatches hobject
  exact ⟨collectsClosure hagrees happart, by decide +kernel⟩

/-- A tag type imports a class, and the view at hand is an older version of it that does not. -/
def renewedStereo : Resolver where
  reader.index.classes := [
    { name := "lib.Meta", isTagType := true, tags := [.mk "lib.Stereo" []] },
    { name := "lib.Stereo", isTagType := true, tags := [.importing ["lib.X"]] },
    { name := "lib.X" }]

def olderStereo : View := .read { name := "lib.Stereo", tags := [.mk "lib.Meta" []] }

set_option maxRecDepth 100000 in
/-- A tag type of the same name as the view is taken for the view itself. -/
theorem not_forall_collectsClosure :
    ¬ ∀ (r : Resolver) (v : View), r.Agrees → r.CollectsClosure v := by
  intro h
  have hcollects := h renewedStereo olderStereo (agrees_of_plain rfl rfl)
  obtain ⟨us, hus, hnames⟩ : ∃ us, renewedStereo.imports olderStereo = .ok us ∧
      us.map View.name = [] := by
    have hcheck : (renewedStereo.imports olderStereo).toOption.map (·.map View.name) =
        some [] := by
      decide +kernel
    cases himports : renewedStereo.imports olderStereo with
    | ok us =>
      rw [himports] at hcheck
      exact ⟨us, rfl, Option.some.inj hcheck⟩
    | error e =>
      rw [himports] at hcheck
      cases hcheck
  have hpath : ReflTransGen renewedStereo.ImportsThrough olderStereo
      (.read { name := "lib.Stereo", isTagType := true, tags := [.importing ["lib.X"]] }) :=
    .head (b := .read { name := "lib.Meta", isTagType := true, tags := [.mk "lib.Stereo" []] })
      ⟨_, List.mem_singleton_self _, by decide +kernel, by decide +kernel, by decide +kernel, rfl⟩
      (.single ⟨_, List.mem_singleton_self _, by decide +kernel, by decide +kernel,
        by decide +kernel, rfl⟩)
  have hmem := (hcollects.closure us hus).complete _ hpath "lib.X"
    ⟨"lib.X", List.mem_singleton_self _, .read { name := "lib.X" }, rfl, rfl⟩
  rw [hnames] at hmem
  cases hmem

end Resolver
end Wiring
