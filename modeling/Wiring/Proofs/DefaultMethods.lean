import Wiring.Proofs.Soundness
import Wiring.Proofs.Tours

/-!
# Bean methods with a body on interfaces

The interfaces of a class and theirs are a graph in which several ways may lead to one interface, or
back to it.  Collecting the bean methods with a body that they declare is a tour of it.  Where every
interface on the way can be resolved, and a type is loaded as it would be read, the tour ends
without a failure, and the record has each of these methods once.
-/

namespace Wiring

open Relation

theorem exceptMapM_eq_filterMap {ε α β : Type} {f : α → Except ε β} {as : List α}
    (h : ∀ a ∈ as, ∃ b, f a = .ok b) :
    as.mapM f = .ok (as.filterMap fun a => (f a).toOption) := by
  induction as with
  | nil => rfl
  | cons a as ih =>
    obtain ⟨b, hb⟩ := h a List.mem_cons_self
    rw [List.mapM_cons, ih fun a ha => h a (List.mem_cons_of_mem _ ha), List.filterMap_cons, hb]
    rfl

/-! ## Adding bean methods -/

/-- The bean methods stand under their own keys, each key once. -/
structure OrderedMap.KeepsKeys (m : OrderedMap MethodKey BeanMethod) : Prop where
  nodup : m.keys.Nodup
  keyed : ∀ e ∈ m.entries, e.1 = e.2.method.key

namespace OrderedMap

variable {m : OrderedMap MethodKey BeanMethod}

theorem keepsKeys_empty : KeepsKeys {} := ⟨List.nodup_nil, fun _ he => by cases he⟩

theorem KeepsKeys.insertIfNew (h : m.KeepsKeys) {e : MethodKey × BeanMethod}
    (he : e.1 = e.2.method.key) : (m.insertIfNew e.1 e.2).KeepsKeys where
  nodup := nodup_keys_insertIfNew h.nodup
  keyed x hx := by
    obtain hx | rfl := mem_of_mem_insertIfNew hx
    · exact h.keyed x hx
    · exact he

theorem KeepsKeys.foldl_insertIfNew {es : List (MethodKey × BeanMethod)} (h : m.KeepsKeys)
    (hes : ∀ e ∈ es, e.1 = e.2.method.key) :
    (es.foldl (fun m e => m.insertIfNew e.1 e.2) m).KeepsKeys := by
  induction es generalizing m with
  | nil => exact h
  | cons e es ih =>
    exact ih (h.insertIfNew (hes e List.mem_cons_self))
      fun e he => hes e (List.mem_cons_of_mem _ he)

theorem KeepsKeys.map_values (h : m.KeepsKeys) : m.values.map (·.method.key) = m.keys := by
  rw [values, List.map_map, keys]
  exact List.map_congr_left fun e he => (h.keyed e he).symm

end OrderedMap

namespace ConfigClass

variable {c : ConfigClass} {ms : List Method}

theorem keepsKeys_addMethods (h : c.beanMethods.KeepsKeys) (ms : List Method) :
    (c.addMethods ms).beanMethods.KeepsKeys := by
  induction ms generalizing c with
  | nil => exact h
  | cons m ms ih => exact ih (c := c.addMethod m) (h.insertIfNew (e := (m.key, ⟨m, c.name⟩)) rfl)

theorem prefix_addMethods :
    c.beanMethods.entries <+: (c.addMethods ms).beanMethods.entries := by
  induction ms generalizing c with
  | nil => exact List.prefix_rfl
  | cons m ms ih => exact OrderedMap.prefix_insertIfNew.trans (ih (c := c.addMethod m))

theorem mem_of_mem_addMethods {x : BeanMethod} (h : x ∈ (c.addMethods ms).beanMethods.values) :
    x ∈ c.beanMethods.values ∨ ∃ m ∈ ms, x = ⟨m, c.name⟩ := by
  induction ms generalizing c with
  | nil => exact .inl h
  | cons m ms ih =>
    obtain hx | ⟨m', hm', hx⟩ := ih (c := c.addMethod m) h
    · obtain ⟨e, he, rfl⟩ := List.mem_map.1 hx
      obtain he | rfl := OrderedMap.mem_of_mem_insertIfNew he
      · exact .inl (List.mem_map_of_mem he)
      · exact .inr ⟨m, List.mem_cons_self, rfl⟩
    · exact .inr ⟨m', List.mem_cons_of_mem m hm', hx⟩

end ConfigClass

/-! ## The records of a run -/

/-- The committed records keep the keys of their bean methods, and so does the one that is being
collected. -/
structure Collecting.KeepsKeys (s : Collecting) : Prop where
  classes : ∀ e ∈ s.run.classes.entries, e.2.beanMethods.KeepsKeys
  record : s.record.beanMethods.KeepsKeys

/-- No part of a run records a bean method under a key that is not its own. -/
theorem Moves.keepsKeys {w : World} {K : Scope} {p : Part} {s t : Collecting} (h : Moves w K p s t)
    (hs : s.KeepsKeys) : t.KeepsKeys := by
  induction h with
  | refl _ => exact hs
  | trans _ _ ih ih' => exact ih' (ih hs)
  | aside h => exact ⟨by rw [h.classes]; exact hs.classes, hs.record⟩
  | report _ _ _ => exact ⟨hs.classes, hs.record⟩
  | scan _ _ _ _ ih => exact ih ⟨hs.classes, hs.record⟩
  | register _ _ _ _ _ ih => exact ih ⟨hs.classes, hs.record⟩
  | imported _ _ _ ih => exact ih ⟨hs.classes, hs.record⟩
  | claim _ _ _ _ _ _ ih => exact ih ⟨hs.classes, hs.record⟩
  | enqueue _ _ _ => exact ⟨hs.classes, hs.record⟩
  | stacked _ _ ih =>
    have ht := ih ⟨hs.classes, hs.record⟩
    exact ⟨ht.classes, ht.record⟩
  | nested _ ih =>
    have ht := ih ⟨hs.classes, hs.record⟩
    exact ⟨ht.classes, ht.record⟩
  | merge hpresent _ _ _ =>
    have hkept := hs.classes _ (OrderedMap.mem_entries_of_get? hpresent)
    refine ⟨fun e he => ?_, hs.record⟩
    obtain he | rfl := OrderedMap.mem_of_mem_put he
    · exact hs.classes e he
    · exact hkept
  | @visit p s t c f run _ _ hnew _ hrun _ _ ih =>
    have hempty : c.beanMethods.KeepsKeys := hnew.beanMethods ▸ OrderedMap.keepsKeys_empty
    have ht := ih ⟨fun e he => hs.classes e (hrun.classes_subset he), hempty⟩
    refine ⟨fun e he => ?_, hs.record⟩
    obtain he | rfl := OrderedMap.mem_of_mem_put he
    · exact ht.classes e he
    · exact ht.record
  | gather h => exact ⟨hs.classes, h.beanMethods ▸ hs.record⟩
  | collect _ _ _ _ => exact ⟨hs.classes, ConfigClass.keepsKeys_addMethods hs.record _⟩
  | @absorb p s t c name _ hnew _ _ ih =>
    have hempty : c.beanMethods.KeepsKeys := hnew.beanMethods ▸ OrderedMap.keepsKeys_empty
    have ht := ih ⟨hs.classes, hempty⟩
    refine ⟨fun e he => ?_, hs.record⟩
    obtain he | ⟨present, hpresent, rfl⟩ := OrderedMap.mem_of_mem_modify he
    · exact ht.classes e he
    · have hkept := ht.classes _ (OrderedMap.mem_entries_of_get? hpresent)
      exact hkept.foldl_insertIfNew ht.record.keyed

/-- What a successful call commits has each of its bean methods once, under its own key. -/
theorem Run.parse_keepsKeys {w : World} {seeds : List NamedDefinition} {environment : Environment}
    {registry : Registry} {t : Run} (h : parse w seeds (fresh environment registry) = .ok () t) :
    ∀ e ∈ t.classes.entries, e.2.beanMethods.KeepsKeys := by
  obtain ⟨u, v, _, hu, hv, rfl⟩ :=
    parse_moves w.admits_anything (.explicit .object none) rfl (fun _ _ _ _ => trivial) h
  have hseeds := hu.keepsKeys ⟨fun _ he => (by cases he), OrderedMap.keepsKeys_empty⟩
  exact (hv.keepsKeys ⟨hseeds.classes, OrderedMap.keepsKeys_empty⟩).classes

namespace Resolver

variable {r : Resolver} {u v i j : View} {name : String}

/-! ## The graph of interfaces -/

/-- The second view is what the name of an interface of the first one resolves to.  A platform
interface that is not loaded is bare and has no methods. -/
def Implements (r : Resolver) (v i : View) : Prop :=
  ∃ name ∈ v.info.interfaces, r.related v name = .ok i

/-- The interfaces of a view without those that cannot be resolved. -/
def knownInterfaces (r : Resolver) (v : View) : List View :=
  v.info.interfaces.filterMap fun name => (r.related v name).toOption

/-- A type is loaded as the reader would read it. -/
def LoadsAsRead (r : Resolver) : Prop :=
  ∀ name t c, r.types.find? name = some t → r.reader.read name = .ok c → c = t.info

/-- No name of an interface that the class leads to is excluded, and each can be resolved. -/
def ResolvesInterfaces (r : Resolver) (v : View) : Prop :=
  ∀ u, ReflTransGen r.Implements v u → ∀ name ∈ u.info.interfaces,
    r.filter.excludes name = false ∧ ∃ i, r.related u name = .ok i

theorem mem_knownInterfaces : i ∈ r.knownInterfaces v ↔ r.Implements v i := by
  rw [knownInterfaces, List.mem_filterMap, Implements]
  refine exists_congr fun name => and_congr_right fun _ => ?_
  cases r.related v name <;> simp [Except.toOption]

theorem ResolvesInterfaces.of_implements (h : r.ResolvesInterfaces v) (hi : r.Implements v i) :
    r.ResolvesInterfaces i :=
  fun u hu => h u (.head hi hu)

theorem ResolvesInterfaces.interfaces_eq (h : r.ResolvesInterfaces v) :
    r.interfaces v = .ok (r.knownInterfaces v) :=
  exceptMapM_eq_filterMap fun name hname => (h v .refl name hname).2

theorem related_eq_ofName (h : r.types.find? name = none) :
    r.related v name = r.ofName name r.filter := by
  rw [related, h, ite_self]

theorem LoadsAsRead.info_of_locates (hr : r.LoadsAsRead) {t : LoadedType}
    (ht : r.types.find? name = some t) (hi : r.Locates name i) : i.info = t.info := by
  cases hi with
  | loaded ht' => rw [Option.some.inj (ht.symm.trans ht'), View.info]
  | read hc => exact hr name t _ ht hc
  | builtin hnone | platform hnone => cases ht.symm.trans hnone

theorem LoadsAsRead.info_related (hr : r.LoadsAsRead) {t : LoadedType}
    (ht : r.types.find? name = some t) (hfilter : r.filter.excludes name = false)
    (hi : r.related v name = .ok i) : i.info = t.info :=
  hr.info_of_locates ht (locates_of_related hfilter hi)

/-- What a name resolves to is settled by the name, as far as metadata goes. -/
theorem LoadsAsRead.info_congr (hr : r.LoadsAsRead) (hfilter : r.filter.excludes name = false)
    (hi : r.related u name = .ok i) (hj : r.related v name = .ok j) : i.info = j.info := by
  cases ht : r.types.find? name with
  | some t => rw [hr.info_related ht hfilter hi, hr.info_related ht hfilter hj]
  | none =>
    rw [related_eq_ofName ht] at hi hj
    rw [Except.ok.inj (hi.symm.trans hj)]

/-! ## The tour of the interfaces -/

/-- The bean methods with a body that an interface declares. -/
def defaultMethods (r : Resolver) (i : View) : List Method :=
  (r.beanMethods i).filter (!·.isAbstract)

theorem mem_defaultMethods {m : Method} : m ∈ r.defaultMethods i ↔
    m ∈ i.info.taggedMethods WellKnown.bean ∧ m.isAbstract = false := by
  rw [defaultMethods, List.mem_filter, (r.beanMethods_perm i).mem_iff]
  simp

/-- A view of which nothing is known but its name leads nowhere. -/
theorem knownInterfaces_of_isBare (h : v.IsBare) : r.knownInterfaces v = [] := by
  rw [knownInterfaces, h, List.filterMap_nil]

theorem interfaceMethods_of_isBare (h : v.IsBare) (depth : Nat) (seen : List String) :
    r.interfaceMethods depth seen v = .ok (seen, []) := by
  cases depth with
  | zero => rfl
  | succ depth =>
    rw [interfaceMethods, interfaces, h]
    rfl

/-- An interface is entered unless its name has been seen. -/
def enterInterface (r : Resolver) (depth : Nat) (st : List String × List Method) (i : View) :
    Except Failure (List String × List Method) :=
  if i.name ∈ st.1 then .ok st
  else (r.interfaceMethods depth (i.name :: st.1) i).map fun x =>
    (x.1, st.2 ++ r.defaultMethods i ++ x.2)

theorem ResolvesInterfaces.interfaceMethods_succ (h : r.ResolvesInterfaces v) (depth : Nat)
    (seen : List String) : r.interfaceMethods (depth + 1) seen v =
      (r.knownInterfaces v).foldlM (r.enterInterface depth) (seen, []) := by
  rw [interfaceMethods, h.interfaces_eq]
  rfl

section

variable {depth : Nat} {seen : List String}

/-- What the tour below each interface gives is put together. -/
theorem foldlM_enterInterface {is : List View} (hdepth : unseen r.knownNames seen ≤ depth)
    (below : ∀ i ∈ is, ∀ seen : List String, i.name ∉ seen → unseen r.knownNames seen ≤ depth →
      ∃ us mid, Tour View.name r.knownInterfaces (i.name :: seen) (r.knownInterfaces i) us mid ∧
        r.interfaceMethods depth (i.name :: seen) i = .ok (mid, us.flatMap r.defaultMethods))
    (ms : List Method) :
    ∃ us seen', Tour View.name r.knownInterfaces seen is us seen' ∧
      is.foldlM (r.enterInterface depth) (seen, ms) =
        .ok (seen', ms ++ us.flatMap r.defaultMethods) := by
  induction is generalizing seen ms with
  | nil =>
    refine ⟨[], seen, .done seen, ?_⟩
    rw [List.flatMap_nil, List.append_nil]
    rfl
  | cons i is ih =>
    have below' := fun j hj => below j (List.mem_cons_of_mem i hj)
    rw [List.foldlM_cons, enterInterface]
    by_cases hseen : i.name ∈ seen
    · obtain ⟨us, seen', htour, hrest⟩ := ih hdepth below' ms
      rw [if_pos hseen]
      exact ⟨us, seen', .pass hseen htour, hrest⟩
    · obtain ⟨us, mid, htour, hmethods⟩ := below i List.mem_cons_self seen hseen hdepth
      have hmid : unseen r.knownNames mid ≤ depth :=
        (unseen_le (List.subset_of_cons_subset htour.seen_subset)).trans hdepth
      obtain ⟨vs, seen', htour', hrest⟩ :=
        ih hmid below' (ms ++ r.defaultMethods i ++ us.flatMap r.defaultMethods)
      refine ⟨i :: (us ++ vs), seen', .enter hseen htour htour', ?_⟩
      rw [if_neg hseen, hmethods, List.flatMap_cons, List.flatMap_append, ← List.append_assoc,
        ← List.append_assoc]
      exact hrest

/-- Collecting that may go deep enough is a tour of the interfaces, and gathers the methods of those
that are entered. -/
theorem interfaceMethods_tour (hv : r.ResolvesInterfaces v)
    (hdepth : unseen r.knownNames seen < depth) :
    ∃ us seen', Tour View.name r.knownInterfaces seen (r.knownInterfaces v) us seen' ∧
      r.interfaceMethods depth seen v = .ok (seen', us.flatMap r.defaultMethods) := by
  induction depth generalizing seen v with
  | zero => cases hdepth
  | succ depth ih =>
    rw [hv.interfaceMethods_succ]
    refine foldlM_enterInterface (Nat.le_of_lt_succ hdepth) (fun i hi seen hseen hless => ?_) []
    have hi : r.Implements v i := mem_knownInterfaces.1 hi
    have ⟨_, _, hrelated⟩ := hi
    -- a class that the resolver has counts as seen from here on, and any other ends the tour
    obtain hknown | hbare := knows_related hrelated
    · exact ih (hv.of_implements hi)
        (Nat.lt_of_lt_of_le (unseen_cons_lt (mem_knownNames hknown) hseen) hless)
    · rw [knownInterfaces_of_isBare hbare, interfaceMethods_of_isBare hbare]
      exact ⟨[], _, .done _, rfl⟩

end

/-! ## What is collected -/

/-- Among the interfaces that the class leads to, the name settles the metadata. -/
theorem LoadsAsRead.info_of_transGen (hr : r.LoadsAsRead) (hv : r.ResolvesInterfaces v)
    (hi : TransGen r.Implements v i) (hj : TransGen r.Implements v j) (hname : i.name = j.name) :
    i.info = j.info := by
  obtain ⟨x, hx, xname, hxname, hxi⟩ := TransGen.tail'_iff.1 hi
  obtain ⟨y, hy, yname, hyname, hyj⟩ := TransGen.tail'_iff.1 hj
  have hfilterx := (hv x hx xname hxname).1
  have hfiltery := (hv y hy yname hyname).1
  have hnames : xname = yname := by
    rw [← name_related hfilterx hxi, hname, name_related hfiltery hyj]
  subst hnames
  exact hr.info_congr hfilterx hxi hyj

/-- Views of one class that the first view leads to have interfaces of the same classes. -/
theorem LoadsAsRead.knownInterfaces_congr (hr : r.LoadsAsRead) (hv : r.ResolvesInterfaces v)
    (hi : ReflTransGen r.Implements v i) (hj : ReflTransGen r.Implements v j)
    (hinfo : i.info = j.info) :
    (r.knownInterfaces i).map View.info = (r.knownInterfaces j).map View.info := by
  rw [knownInterfaces, knownInterfaces, List.map_filterMap, List.map_filterMap, ← hinfo]
  refine List.filterMap_congr fun name hname => ?_
  obtain ⟨hfilter, x, hx⟩ := hv i hi name hname
  obtain ⟨_, y, hy⟩ := hv j hj name (hinfo ▸ hname)
  rw [hx, hy]
  exact congrArg some (hr.info_congr hfilter hx hy)

theorem edge_knownInterfaces : Edge r.knownInterfaces = r.Implements := by
  funext a b
  exact propext mem_knownInterfaces

theorem transGen_implements_iff : TransGen r.Implements v i ↔
    ∃ n ∈ r.knownInterfaces v, ReflTransGen (Edge r.knownInterfaces) n i := by
  rw [TransGen.head'_iff, edge_knownInterfaces]
  simp only [mem_knownInterfaces]

/-- The tour enters every interface that the class leads to, as far as metadata goes. -/
theorem exists_entered_interface {us : List View} {seen : List String} (hr : r.LoadsAsRead)
    (hv : r.ResolvesInterfaces v)
    (h : Tour View.name r.knownInterfaces [] (r.knownInterfaces v) us seen)
    (hi : TransGen r.Implements v i) : ∃ u ∈ us, u.info = i.info := by
  obtain ⟨n, hn, hpath⟩ := transGen_implements_iff.1 hi
  exact h.exists_entered_within (P := TransGen r.Implements v)
    (fun n hn => .single (mem_knownInterfaces.1 hn))
    (fun ha hedge => ha.tail (mem_knownInterfaces.1 hedge))
    (fun ha hb => hr.knownInterfaces_congr hv ha.to_reflTransGen hb.to_reflTransGen)
    (hr.info_of_transGen hv) hn hpath

/-- What the interfaces that `v` leads to make of a record: each of their bean methods with a body
is there once under its key, behind what was there before, and nothing else has changed. -/
structure CollectsDefaults (r : Resolver) (v : View) (before after : ConfigClass) : Prop where
  keys : after.beanMethods.KeepsKeys
  kept : before.beanMethods.entries <+: after.beanMethods.entries
  rest : after = { before with beanMethods := after.beanMethods }
  complete : ∀ i, TransGen r.Implements v i → ∀ m ∈ i.info.taggedMethods WellKnown.bean,
    m.isAbstract = false → (after.beanMethods.values.map (·.method.key)).count m.key = 1
  only : ∀ x ∈ after.beanMethods.values, x ∈ before.beanMethods.values ∨
    x.owner = before.name ∧ x.method.isAbstract = false ∧
      ∃ i, TransGen r.Implements v i ∧ x.method ∈ i.info.taggedMethods WellKnown.bean

theorem collectsDefaults_addMethods {record : ConfigClass} {us : List View} {seen : List String}
    (hr : r.LoadsAsRead) (hv : r.ResolvesInterfaces v) (hrecord : record.beanMethods.KeepsKeys)
    (h : Tour View.name r.knownInterfaces [] (r.knownInterfaces v) us seen) :
    r.CollectsDefaults v record (record.addMethods (us.flatMap r.defaultMethods)) where
  keys := ConfigClass.keepsKeys_addMethods hrecord _
  kept := ConfigClass.prefix_addMethods
  rest := record.addMethods_eq _
  complete i hi m hm hbody := by
    have hkeys := ConfigClass.keepsKeys_addMethods hrecord (us.flatMap r.defaultMethods)
    obtain ⟨u, hu, hinfo⟩ := exists_entered_interface hr hv h hi
    have hgathered : m ∈ us.flatMap r.defaultMethods :=
      List.mem_flatMap.2 ⟨u, hu, mem_defaultMethods.2 ⟨by rw [hinfo]; exact hm, hbody⟩⟩
    rw [hkeys.map_values]
    exact List.count_eq_one_of_mem hkeys.nodup
      (ConfigClass.mem_keys_addMethods.2 (.inr ⟨m, hgathered, rfl⟩))
  only x hx := by
    obtain hold | ⟨m, hm, rfl⟩ := ConfigClass.mem_of_mem_addMethods hx
    · exact .inl hold
    · obtain ⟨u, hu, hmu⟩ := List.mem_flatMap.1 hm
      obtain ⟨hbean, hbody⟩ := mem_defaultMethods.1 hmu
      exact .inr ⟨rfl, hbody, u, transGen_implements_iff.2 (h.exists_path u hu), hbean⟩

/-- The bean methods with a body of all interfaces that a class leads to are collected, whatever
ways lead to them, if each of the interfaces can be resolved.  Going deeper changes nothing. -/
theorem addInterfaceMethods_collects {record : ConfigClass} (hr : r.LoadsAsRead)
    (hv : r.ResolvesInterfaces v) (hrecord : record.beanMethods.KeepsKeys) :
    ∃ seen after, (∀ depth, r.maxDepth ≤ depth →
        r.addInterfaceMethods depth ([], record) v = .ok (seen, after)) ∧
      r.CollectsDefaults v record after := by
  have hless : unseen r.knownNames [] < r.maxDepth := r.unseen_knownNames_lt
  obtain ⟨us, seen, htour, _⟩ := interfaceMethods_tour hv hless
  refine ⟨seen, record.addMethods (us.flatMap r.defaultMethods), fun depth hdepth => ?_,
    collectsDefaults_addMethods hr hv hrecord htour⟩
  obtain ⟨us', seen', htour', hmethods⟩ :=
    interfaceMethods_tour hv (Nat.lt_of_lt_of_le hless hdepth)
  obtain ⟨rfl, rfl⟩ := htour.unique htour'
  rw [addInterfaceMethods_eq, hmethods]
  rfl

/-! ## Two ways to one interface, and a way back -/

theorem loadsAsRead_of_types
    (h : ∀ t ∈ r.types.types, ∀ c, r.reader.read t.name = .ok c → c = t.info) : r.LoadsAsRead := by
  intro name t c ht hc
  obtain rfl := TypeTable.name_of_find? ht
  exact h t (TypeTable.mem_of_find? ht) c hc

/-- No name of an interface that the class or any other lists is excluded, and each can be
resolved. -/
def looksResolvable (r : Resolver) (v : View) : Bool :=
  (v.info :: r.infos).all fun c => c.interfaces.all fun name =>
    !r.filter.excludes name && (r.ofName name r.filter).toOption.isSome

theorem exists_related_of_ofName (h : r.ofName name r.filter = .ok i) (v : View) :
    ∃ j, r.related v name = .ok j := by
  rw [related]
  split
  · exact ⟨_, rfl⟩
  · exact ⟨i, h⟩

theorem resolvesInterfaces_of_looksResolvable (h : r.looksResolvable v = true) :
    r.ResolvesInterfaces v := by
  intro u hu name hname
  have hlisted : u.info ∈ v.info :: r.infos := by
    obtain rfl | ⟨_, _, _, _, hrelated⟩ := ReflTransGen.cases_tail hu
    · exact List.mem_cons_self
    · obtain hknown | hbare := knows_related hrelated
      · exact List.mem_cons_of_mem _ hknown
      · rw [hbare] at hname
        cases hname
  have hchecked := List.all_eq_true.1 (List.all_eq_true.1 h u.info hlisted) name hname
  rw [Bool.and_eq_true, Bool.not_eq_true'] at hchecked
  obtain ⟨hfilter, hsome⟩ := hchecked
  refine ⟨hfilter, ?_⟩
  cases hi : r.ofName name r.filter with
  | ok i => exact exists_related_of_ofName hi u
  | error e =>
    rw [hi] at hsome
    cases hsome

def beanOf (declaringClass name : String) : Method :=
  { name, declaringClass, tags := [.mk WellKnown.bean []] }

/-- It leads back to an interface that leads to it, and it is loaded as well. -/
def diamondBase : ClassInfo :=
  { name := "app.Base", isInterface := true, interfaces := ["app.Left"],
    methods := [beanOf "app.Base" "base"] }

def diamond : Resolver where
  reader.index.classes := [
    { name := "app.Left", isInterface := true, interfaces := ["app.Base"],
      methods := [beanOf "app.Left" "left"] },
    { name := "app.Right", isInterface := true, interfaces := ["app.Base"],
      methods := [{ beanOf "app.Right" "open" with isAbstract := true },
        beanOf "app.Right" "right"] },
    diamondBase]
  types.types := [{ info := diamondBase }]

def diamondApp : View :=
  .read { name := "app.App", interfaces := ["app.Left", "java.io.Serializable", "app.Right"] }

/-- One of the methods has been recorded before. -/
def diamondRecord : ConfigClass :=
  (ConfigClass.explicit diamondApp none).addMethods
    [beanOf "app.App" "own", beanOf "app.Left" "left"]

set_option maxRecDepth 100000 in
theorem addInterfaceMethods_collects_diamond :
    ∃ seen after, (∀ depth, diamond.maxDepth ≤ depth →
        diamond.addInterfaceMethods depth ([], diamondRecord) diamondApp = .ok (seen, after)) ∧
      diamond.CollectsDefaults diamondApp diamondRecord after ∧
      after.beanMethods.values.map (·.method.name) = ["own", "left", "base", "right"] := by
  have hloads : diamond.LoadsAsRead := by
    refine loadsAsRead_of_types fun t ht c hc => ?_
    obtain rfl := List.mem_singleton.1 ht
    have hread : diamond.reader.read "app.Base" = .ok diamondBase := rfl
    exact Except.ok.inj (hc.symm.trans hread)
  have hresolves : diamond.ResolvesInterfaces diamondApp :=
    resolvesInterfaces_of_looksResolvable (by decide +kernel)
  have hrecord : diamondRecord.beanMethods.KeepsKeys :=
    ConfigClass.keepsKeys_addMethods OrderedMap.keepsKeys_empty _
  obtain ⟨seen, after, hends, hcollects⟩ :=
    addInterfaceMethods_collects hloads hresolves hrecord
  refine ⟨seen, after, hends, hcollects, ?_⟩
  have hcheck : (diamond.addInterfaceMethods diamond.maxDepth ([], diamondRecord)
      diamondApp).toOption.map (·.2.beanMethods.values.map (·.method.name)) =
        some ["own", "left", "base", "right"] := by
    decide +kernel
  rw [hends _ (Nat.le_refl _)] at hcheck
  exact Option.some.inj hcheck

end Resolver
end Wiring
