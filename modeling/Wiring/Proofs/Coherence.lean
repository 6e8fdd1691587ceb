import Wiring.Proofs.Resolving
import Wiring.Proofs.Soundness

/-!
# Loaded and read views

A class that is loaded and read has two views, and which of them a name leads to depends on who
asks.  If loading says of each class what reading it says, that makes no difference: whatever a
view leads to depends on its metadata only.
-/

namespace Wiring

/-! ## Results alike up to a projection -/

section

variable {ε α β γ δ : Type}

theorem exceptMap_congr {x y : Except ε α} {p : α → γ} {q : γ → δ} (h : x.map p = y.map p) :
    x.map (fun a => q (p a)) = y.map fun a => q (p a) := by
  have hmap (x : Except ε α) : x.map (fun a => q (p a)) = (x.map p).map q := by
    cases x <;> rfl
  rw [hmap, hmap, h]

/-- Steps that take alike values to alike results do so after alike results. -/
theorem exceptBind_congr {x y : Except ε α} {p : α → γ} {f g : α → Except ε β} {q : β → δ}
    (hxy : x.map p = y.map p) (hfg : ∀ a b, p a = p b → (f a).map q = (g b).map q) :
    (x >>= f).map q = (y >>= g).map q := by
  cases x with
  | error e =>
    cases y with
    | error e' =>
      obtain rfl := Except.error.inj hxy
      rfl
    | ok b => cases hxy
  | ok a =>
    cases y with
    | error e => cases hxy
    | ok b => exact hfg a b (Except.ok.inj hxy)

theorem exceptFoldlM_congr {f : β → α → Except ε β} {p : α → γ} {q : β → δ}
    (hf : ∀ a a' b b', p a = p a' → q b = q b' → (f b a).map q = (f b' a').map q)
    {as as' : List α} (has : as.map p = as'.map p) {b b' : β} (hb : q b = q b') :
    (as.foldlM f b).map q = (as'.foldlM f b').map q := by
  induction as generalizing as' b b' with
  | nil =>
    rw [List.map_nil, eq_comm, List.map_eq_nil_iff] at has
    subst has
    show Except.ok (q b) = Except.ok (q b')
    rw [hb]
  | cons a as ih =>
    rw [List.map_cons, eq_comm] at has
    obtain ⟨a', as', rfl, ha, has⟩ := List.map_eq_cons_iff.1 has
    rw [List.foldlM_cons, List.foldlM_cons]
    exact exceptBind_congr (hf a a' b b' ha.symm hb) fun c c' hc => ih has.symm hc

theorem exceptMapM_congr {f g : α → Except ε β} {p : β → γ}
    (hfg : ∀ a, (f a).map p = (g a).map p) (as : List α) :
    (as.mapM f).map (·.map p) = (as.mapM g).map (·.map p) := by
  induction as with
  | nil => rfl
  | cons a as ih =>
    rw [List.mapM_cons, List.mapM_cons]
    refine exceptBind_congr (hfg a) fun b b' hb => exceptBind_congr ih fun bs bs' hbs => ?_
    show Except.ok ((b :: bs).map p) = Except.ok ((b' :: bs').map p)
    rw [List.map_cons, List.map_cons, hb, hbs]

end

namespace Resolver

/-- What loading says of a class is what reading says of it, unless it cannot be read. -/
def Coherent (r : Resolver) : Prop :=
  ∀ name t, r.types.find? name = some t →
    r.reader.read name = .ok t.info ∨ ∃ e, r.reader.read name = .error e ∧ e.isNotFound = true

/-- What `p` shows of a view settles its metadata, and what `p` shows of the classes that it refers
to. -/
structure Blind (r : Resolver) {γ : Type} (p : View → γ) : Prop where
  info : ∀ {v v' : View}, p v = p v' → v.info = v'.info
  related : ∀ {v v' : View}, p v = p v' →
    ∀ name, (r.related v name).map p = (r.related v' name).map p

variable {r : Resolver} {v v' : View} {γ : Type} {p : View → γ}

theorem coherent_of_no_types (h : r.types.types = []) : r.Coherent := by
  intro name t ht
  rw [TypeTable.find?, h] at ht
  cases ht

/-- Each loaded type can be read as well, as what it was loaded as. -/
theorem coherent_of_read (h : ∀ t ∈ r.types.types, r.reader.read t.name = .ok t.info) :
    r.Coherent := by
  intro name t ht
  rw [← TypeTable.name_of_find? ht]
  exact .inl (h t (TypeTable.mem_of_find? ht))

/-- A name that is loaded leads to the loaded type, or to what was read of it. -/
theorem Coherent.map_ofName (hr : r.Coherent) {name : String} {t : LoadedType} {f : NameFilter}
    (ht : r.types.find? name = some t) (hf : f.excludes name = false)
    (hp : p (.read t.info) = p (.loaded t)) :
    (r.ofName name f).map p = .ok (p (.loaded t)) := by
  rw [ofName, hf]
  -- a name of the platform leads to the loaded type at once, any other name is read first
  cases r.isPlatform name with
  | true =>
    simp only [platformView, ht]
    rfl
  | false =>
    obtain hread | ⟨e, hread, hnotFound⟩ := hr name t ht
    · rw [hread]
      exact congrArg Except.ok hp
    · simp only [hread, hnotFound, unreadView?, ht]
      rfl

/-- Who refers to a class makes no difference to one who cannot tell loaded from read. -/
theorem Coherent.map_related (hr : r.Coherent)
    (hp : ∀ t, r.types.find? t.name = some t → p (.read t.info) = p (.loaded t)) (v : View)
    (name : String) : (r.related v name).map p = (r.ofName name r.filter).map p := by
  rw [related]
  split
  · rename_i t ht
    replace ht := (Option.ite_none_right_eq_some.1 ht).2
    have hview : (View.loaded t).name = name := TypeTable.name_of_find? ht
    rw [View.filtered, hview]
    cases hf : r.filter.excludes name with
    | true =>
      rw [ofName_of_excludes hf]
      rfl
    | false =>
      exact (hr.map_ofName ht hf (hp t (by rw [TypeTable.name_of_find? ht, ht]))).symm
  · rfl

theorem Coherent.info_related (hr : r.Coherent) (v : View) (name : String) :
    (r.related v name).map View.info = (r.ofName name r.filter).map View.info :=
  hr.map_related (fun _ _ => rfl) v name

/-- If loading and reading agree, no more than the metadata of a view counts. -/
theorem Coherent.blind (hr : r.Coherent) : r.Blind View.info where
  info h := h
  related {v v'} _ name := (hr.info_related v name).trans (hr.info_related v' name).symm

theorem Blind.name (hr : r.Blind p) (hv : p v = p v') : v.name = v'.name :=
  congrArg ClassInfo.name (hr.info hv)

/-- Those of the named classes that can be resolved. -/
theorem Blind.filterMap_related_congr (hr : r.Blind p) (hv : p v = p v') (names : List String) :
    (names.filterMap fun name => (r.related v name).toOption).map p =
      (names.filterMap fun name => (r.related v' name).toOption).map p := by
  rw [List.map_filterMap, List.map_filterMap]
  congr 1
  funext name
  have hoption (x : Except Failure View) : x.toOption.map p = (x.map p).toOption := by
    cases x <;> rfl
  rw [hoption, hoption, hr.related hv name]

theorem Blind.tagTypes_congr (hr : r.Blind p) (hv : p v = p v') :
    (r.tagTypes v).map p = (r.tagTypes v').map p := by
  rw [tagTypes, tagTypes, hr.info hv]
  exact hr.filterMap_related_congr hv _

theorem Blind.members_congr (hr : r.Blind p) (hv : p v = p v') :
    (r.members v).map p = (r.members v').map p := by
  rw [members, members, hr.info hv]
  exact hr.filterMap_related_congr hv _

theorem Coherent.memberCandidates_congr (hr : r.Coherent) (hv : v.info = v'.info)
    {name : String} {m : View} (hm : m ∈ Step.memberCandidates r v name) :
    ∃ m' ∈ Step.memberCandidates r v' name, m'.info = m.info := by
  obtain ⟨hmem, hcandidate, hname⟩ := Step.mem_memberCandidates.1 hm
  have hinfo : m.info ∈ (r.members v').map View.info := by
    rw [← hr.blind.members_congr hv]
    exact List.mem_map_of_mem hmem
  obtain ⟨m', hm', heq⟩ := List.mem_map.1 hinfo
  refine ⟨m', Step.mem_memberCandidates.2 ⟨hm', ?_, ?_⟩, heq⟩
  · rw [heq]
    exact hcandidate
  · rw [View.name, heq]
    exact hname

/-! ## Supertypes -/

theorem Coherent.hierarchy?_congr (hr : r.Coherent) (b : Bool) (name : String) :
    r.hierarchy? b name = r.hierarchy? false name := by
  cases b with
  | false => rfl
  | true =>
    cases ht : r.types.find? name with
    | none => simp [hierarchy?, ht]
    | some t =>
      obtain hread | ⟨e, hread, hnotFound⟩ := hr name t ht
      · simp [hierarchy?, ht, hread]
      · simp [hierarchy?, ht, hread, hnotFound]

theorem Coherent.supertypes_congr (hr : r.Coherent) (hv : v.info = v'.info) :
    r.supertypes v = r.supertypes v' := by
  have hname : v.name = v'.name := congrArg ClassInfo.name hv
  have hresolve : r.hierarchy? v.isLoaded = r.hierarchy? v'.isLoaded := by
    funext name
    rw [hr.hierarchy?_congr, hr.hierarchy?_congr v'.isLoaded]
  rw [supertypes, supertypes, hname, hv, hresolve]

theorem Coherent.isAssignable_congr (hr : r.Coherent) (hv : v.info = v'.info) (target : String) :
    r.isAssignable v target = r.isAssignable v' target := by
  have hname : v.name = v'.name := congrArg ClassInfo.name hv
  rw [isAssignable, isAssignable, hname, hv, hr.supertypes_congr hv]

theorem Coherent.isPlain_congr (hr : r.Coherent) (hv : v.info = v'.info) :
    r.IsPlain v ↔ r.IsPlain v' := by
  have hname : v.name = v'.name := congrArg ClassInfo.name hv
  rw [IsPlain, IsPlain, hr.isAssignable_congr hv, hr.isAssignable_congr hv, View.isObject,
    View.isObject, hname]

/-! ## Imports -/

/-- What `p` shows of the views in a map. -/
def shown (p : View → γ) (m : OrderedMap String View) : List (String × γ) :=
  m.entries.map fun e => (e.1, p e.2)

/-- What `p` shows of what has been collected. -/
def Collected.shown (p : View → γ) (st : Collected) : List String × List (String × γ) :=
  (st.seen, Resolver.shown p st.imports)

theorem keys_eq (p : View → γ) (m : OrderedMap String View) :
    m.keys = (shown p m).map Prod.fst := by
  rw [shown, List.map_map]
  rfl

theorem map_values (p : View → γ) (m : OrderedMap String View) :
    m.values.map p = (shown p m).map Prod.snd := by
  rw [shown, OrderedMap.values, List.map_map, List.map_map]
  rfl

theorem Blind.shown_insertIfNew_congr (hr : r.Blind p) {m m' : OrderedMap String View}
    (hm : shown p m = shown p m') (hv : p v = p v') :
    shown p (m.insertIfNew v.name v) = shown p (m'.insertIfNew v'.name v') := by
  have hname : v.name = v'.name := hr.name hv
  have hcontains : m.contains v.name = m'.contains v'.name := by
    rw [Bool.eq_iff_iff, OrderedMap.contains_iff, OrderedMap.contains_iff, keys_eq p, keys_eq p m',
      hm, hname]
  rw [OrderedMap.insertIfNew, OrderedMap.insertIfNew, hcontains]
  split
  · exact hm
  · rw [shown, shown] at hm ⊢
    rw [List.map_append, List.map_append, hm, List.map_singleton, List.map_singleton, hname, hv]

theorem Blind.shown_foldl_congr (hr : r.Blind p) {us us' : List View}
    (hus : us.map p = us'.map p) {m m' : OrderedMap String View} (hm : shown p m = shown p m') :
    shown p (us.foldl (fun (m : OrderedMap String View) v => m.insertIfNew v.name v) m) =
      shown p (us'.foldl (fun (m : OrderedMap String View) v => m.insertIfNew v.name v) m') := by
  induction us generalizing us' m m' with
  | nil =>
    rw [List.map_nil, eq_comm, List.map_eq_nil_iff] at hus
    subst hus
    exact hm
  | cons u us ih =>
    rw [List.map_cons, eq_comm] at hus
    obtain ⟨u', us', rfl, hu, hus⟩ := List.map_eq_cons_iff.1 hus
    exact ih hus.symm (hr.shown_insertIfNew_congr hm hu.symm)

theorem Blind.attributeClasses_congr (hr : r.Blind p) (hv : p v = p v')
    (typeName field : String) :
    (r.attributeClasses v typeName field).map (·.map p) =
      (r.attributeClasses v' typeName field).map (·.map p) := by
  rw [attributeClasses, attributeClasses, hr.info hv]
  split
  · rfl
  · refine exceptBind_congr (exceptMapM_congr (hr.related hv) _) fun us us' hus => ?_
    have hshown := hr.shown_foldl_congr hus (rfl : shown p {} = shown p {})
    show Except.ok (List.map p (OrderedMap.values _)) = Except.ok (List.map p (OrderedMap.values _))
    rw [map_values, map_values, hshown]

theorem Blind.collect_congr (hr : r.Blind p) (depth : Nat) {a b : Collected}
    (hab : a.shown p = b.shown p) (hv : p v = p v') :
    (r.collect depth a v).map (Collected.shown p) =
      (r.collect depth b v').map (Collected.shown p) := by
  induction depth generalizing a b v v' with
  | zero => exact congrArg Except.ok hab
  | succ depth ih =>
    obtain ⟨hseen, himports⟩ := Prod.mk.inj hab
    have hname : v.name = v'.name := hr.name hv
    rw [collect, collect, hname, hseen]
    split
    · exact congrArg Except.ok hab
    · refine exceptBind_congr (p := Collected.shown p) ?_
        fun c d hcd => exceptBind_congr (hr.attributeClasses_congr hv _ _) fun us us' hus => ?_
      · refine exceptFoldlM_congr (fun t t' c d ht hcd => ?_) (hr.tagTypes_congr hv) ?_
        · have htname : t.name = t'.name := hr.name ht
          rw [htname]
          split
          · exact congrArg Except.ok hcd
          · exact ih hcd ht
        · exact Prod.ext rfl himports
      · obtain ⟨hseen', himports'⟩ := Prod.mk.inj hcd
        exact congrArg Except.ok (Prod.ext hseen' (hr.shown_foldl_congr hus himports'))

theorem Blind.imports_congr (hr : r.Blind p) (hv : p v = p v') :
    (r.imports v).map (·.map p) = (r.imports v').map (·.map p) := by
  have hcollected := hr.collect_congr r.maxDepth (a := {}) (b := {}) rfl hv
  have hshown := exceptMap_congr (q := fun x => x.2.map Prod.snd) hcollected
  have himports (v : View) : (r.imports v).map (·.map p) =
      (r.collect r.maxDepth {} v).map fun st => (st.shown p).2.map Prod.snd := by
    rw [imports]
    cases r.collect r.maxDepth {} v with
    | error e => rfl
    | ok st => exact congrArg Except.ok (map_values p st.imports)
  rw [himports, himports]
  exact hshown

theorem Coherent.exists_import (hr : r.Coherent) (hv : v.info = v'.info) {us : List View}
    (hus : r.imports v = .ok us) :
    ∃ us', r.imports v' = .ok us' ∧ ∀ u ∈ us, ∃ u' ∈ us', u'.info = u.info := by
  have hmap := hr.blind.imports_congr hv
  rw [hus] at hmap
  obtain ⟨us', hus', hinfos⟩ := exceptMap_eq_ok.1 hmap.symm
  refine ⟨us', hus', fun u hu => ?_⟩
  have hmem : u.info ∈ us'.map View.info := by
    rw [hinfos]
    exact List.mem_map_of_mem hu
  exact List.mem_map.1 hmem

end Resolver

/-! ## Worlds without selectors -/

/-- None of the classes is left out, and none imports a selector. -/
structure World.IsDirect (w : World) (cs : List ClassInfo) : Prop where
  neverSkips : ∀ c ∈ cs, w.NeverSkips c
  noSelectors : ∀ v us u, v.info ∈ cs → w.resolver.imports v = .ok us → u ∈ us →
    w.resolver.isAssignable u WellKnown.importSelector = false

/-- Says of a class whether it is never left out and imports no selector. -/
def Resolver.looksDirect (r : Resolver) (c : ClassInfo) : Bool :=
  (c.tag? WellKnown.profile).isNone &&
    (c.tags.filter (·.typeName == WellKnown.conditional)).isEmpty &&
    match r.imports (.read c) with
    | .ok us => us.all fun u => !r.isAssignable u WellKnown.importSelector
    | .error _ => true

namespace World

variable {w : World} {cs : List ClassInfo}

theorem isDirect_of_looksDirect (hr : w.resolver.Coherent)
    (h : cs.all w.resolver.looksDirect = true) : w.IsDirect cs := by
  rw [List.all_eq_true] at h
  constructor
  · intro c hc
    have hlooks := h c hc
    rw [Resolver.looksDirect, Bool.and_eq_true, Bool.and_eq_true, Option.isNone_iff_eq_none,
      List.isEmpty_iff] at hlooks
    exact .inr hlooks.1
  · intro v us u hv hus hu
    have hlooks := h v.info hv
    rw [Resolver.looksDirect, Bool.and_eq_true] at hlooks
    have hread : v.info = (View.read v.info).info := rfl
    obtain ⟨us', hus', hall⟩ := hr.exists_import hread hus
    rw [hus'] at hlooks
    obtain ⟨u', hu', hinfo⟩ := hall u hu
    have hselector := List.all_eq_true.1 hlooks.2 u' hu'
    rw [← hr.isAssignable_congr hinfo]
    simpa using hselector

/-- A class that the world knows is never left out and imports no selector. -/
theorem IsDirect.of_knows (hw : w.IsDirect w.resolver.infos) {v : View}
    (hv : w.resolver.Knows v) : w.IsDirect [v.info] := by
  obtain hv | hbare := hv
  · constructor
    · intro c hc
      obtain rfl := List.mem_singleton.1 hc
      exact hw.neverSkips _ hv
    · intro v' us u hv' hus hu
      refine hw.noSelectors v' us u ?_ hus hu
      rwa [List.mem_singleton.1 hv']
  · constructor
    · intro c hc
      rw [List.mem_singleton.1 hc, hbare]
      exact .inr ⟨rfl, rfl⟩
    · intro v' us u hv' hus hu
      have hnone : w.resolver.imports v' = .ok [] :=
        Resolver.imports_of_untagged (by rw [List.mem_singleton.1 hv', hbare])
      obtain rfl := Except.ok.inj (hnone.symm.trans hus)
      cases hu

theorem IsDirect.cons {c : ClassInfo} (hc : w.IsDirect [c]) (hw : w.IsDirect cs) :
    w.IsDirect (c :: cs) := by
  constructor
  · intro d hd
    obtain rfl | hd := List.mem_cons.1 hd
    · exact hc.neverSkips _ List.mem_cons_self
    · exact hw.neverSkips d hd
  · intro v us u hv hus hu
    obtain hv | hv := List.mem_cons.1 hv
    · exact hc.noSelectors v us u (by rw [hv]; exact List.mem_cons_self) hus hu
    · exact hw.noSelectors v us u hv hus hu

end World
end Wiring
