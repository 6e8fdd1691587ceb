import Wiring.Proofs.Comparison.Runs
import Wiring.Proofs.DeclarationOrder
import Wiring.Proofs.Precedence

/-!
# Seeds that are loaded or only named

If loading says of each class what reading it says, it makes no difference whether a seed is handed
in as a loaded type or by its name: both runs come to the same, up to the form of the views.  The
runs meet different views all the way down, so they are compared up to the view that stands for both
forms of a class.
-/

namespace Wiring

/-! ## Bean methods in the order of declaration -/

namespace Resolver

variable {r : Resolver}

theorem taggedMethods_builtin {name : String} {c : ClassInfo} (h : builtin? name = some c) :
    c.taggedMethods WellKnown.bean = [] := by
  have hnone : ∀ c ∈ builtins, c.methods = [] := by simp [builtins]
  rw [ClassInfo.taggedMethods, hnone c (List.mem_of_find?_eq_some h)]
  rfl

/-- What is read of a loaded class is what was loaded, or else it has no bean methods. -/
theorem Coherent.taggedMethods_of_readStatic (hr : r.Coherent) {t : LoadedType} {c : ClassInfo}
    (ht : r.types.find? t.name = some t) (hc : r.readStatic t.name = .ok c) :
    c.taggedMethods WellKnown.bean = [] ∨ c = t.info := by
  rw [readStatic] at hc
  obtain hread | ⟨e, hread, hnotFound⟩ := hr t.name t ht
  · rw [hread] at hc
    exact .inr (Except.ok.inj hc).symm
  · simp only [hread, hnotFound, if_true] at hc
    split at hc
    · rename_i b hb
      obtain rfl := Except.ok.inj hc
      exact .inl (taggedMethods_builtin hb)
    · cases hc

/-- A type that is loaded brings the same bean methods in the same order as if it were read. -/
theorem Coherent.beanMethods_loaded (hr : r.Coherent) {t : LoadedType}
    (ht : r.types.find? t.name = some t) :
    r.beanMethods (.loaded t) = r.beanMethods (.read t.info) := by
  have hread : r.beanMethods (.read t.info) = t.info.taggedMethods WellKnown.bean := by
    rw [beanMethods]
    exact if_pos (Bool.or_true _)
  rw [hread]
  obtain h | ⟨c, hc, h, hlength⟩ := r.beanMethods_cases (.loaded t)
  · exact h
  · rw [h] at hlength ⊢
    obtain hnone | rfl := hr.taggedMethods_of_readStatic ht hc
    · rw [hnone] at hlength ⊢
      exact (List.eq_nil_of_length_eq_zero hlength.symm).symm
    · exact matchDeclared_self hlength

/-! ## The view that stands for both -/

open Classical in
/-- The loaded type in place of what was read of it. -/
noncomputable def canonical (r : Resolver) : View → View
  | .loaded t => .loaded t
  | .read c =>
    match r.types.find? c.name with
    | some t => if t.info = c then .loaded t else .read c
    | none => .read c

theorem canonical_read_eq_or (r : Resolver) (c : ClassInfo) : r.canonical (.read c) = .read c ∨
    ∃ t, r.types.find? t.name = some t ∧ t.info = c ∧ r.canonical (.read c) = .loaded t := by
  rw [canonical]
  split
  · rename_i t ht
    split
    · rename_i hinfo
      obtain rfl := hinfo
      exact .inr ⟨t, ht, rfl, rfl⟩
    · exact .inl rfl
  · exact .inl rfl

theorem info_canonical (r : Resolver) (v : View) : (r.canonical v).info = v.info := by
  cases v with
  | loaded t => rfl
  | read c =>
    obtain hsame | ⟨t, -, rfl, hloaded⟩ := r.canonical_read_eq_or c
    · rw [hsame]
    · rw [hloaded]
      rfl

theorem canonical_read {t : LoadedType} (ht : r.types.find? t.name = some t) :
    r.canonical (.read t.info) = .loaded t := by
  have hfind : r.types.find? t.info.name = some t := ht
  rw [canonical, hfind]
  exact if_pos rfl

theorem load_read {t : LoadedType} (ht : r.types.find? t.name = some t) :
    r.load (.read t.info) = .ok t := by
  have hfind : r.types.find? t.info.name = some t := ht
  simp only [load, hfind]

/-- Views that stand for the same are the same, or one is loaded and the other one is what was read
of it. -/
theorem eq_or_read_of_canonical {v v' : View} (h : r.canonical v = r.canonical v') :
    v = v' ∨ ∃ t, r.types.find? t.name = some t ∧
      (v = .loaded t ∧ v' = .read t.info ∨ v = .read t.info ∧ v' = .loaded t) := by
  cases v with
  | loaded t =>
    cases v' with
    | loaded t' => exact .inl h
    | read c =>
      obtain hsame | ⟨u, hu, rfl, hloaded⟩ := r.canonical_read_eq_or c
      · rw [hsame] at h
        cases h
      · rw [hloaded] at h
        obtain rfl := View.loaded.inj h
        exact .inr ⟨t, hu, .inl ⟨rfl, rfl⟩⟩
  | read c =>
    have hinfo := r.info_canonical v'
    rw [← h, r.info_canonical] at hinfo
    cases v' with
    | loaded t =>
      obtain rfl : c = t.info := hinfo
      obtain hsame | ⟨u, hu, -, hloaded⟩ := r.canonical_read_eq_or t.info
      · rw [hsame] at h
        cases h
      · rw [hloaded] at h
        obtain rfl := View.loaded.inj h
        exact .inr ⟨u, hu, .inr ⟨rfl, rfl⟩⟩
    | read c' =>
      obtain rfl : c = c' := hinfo
      exact .inl rfl

theorem Coherent.interchanges (hr : r.Coherent) : r.Interchanges r.canonical where
  info {v v'} h := by rw [← r.info_canonical v, h, r.info_canonical]
  related {v v'} _ name := (hr.map_related (fun _ => canonical_read) v name).trans
    (hr.map_related (fun _ => canonical_read) v' name).symm
  isAssignable {v v'} h := hr.isAssignable_congr (by rw [← r.info_canonical v, h, r.info_canonical])
  load h := by
    obtain rfl | ⟨t, ht, ⟨rfl, rfl⟩ | ⟨rfl, rfl⟩⟩ := eq_or_read_of_canonical h
    · rfl
    · exact (load_read ht).symm
    · exact load_read ht
  beanMethods h := by
    obtain rfl | ⟨t, ht, ⟨rfl, rfl⟩ | ⟨rfl, rfl⟩⟩ := eq_or_read_of_canonical h
    · rfl
    · exact hr.beanMethods_loaded ht
    · exact (hr.beanMethods_loaded ht).symm

end Resolver

/-! ## Runs up to the form of the views -/

/-- What is left of a view if it does not matter whether it is loaded. -/
def View.untagged (v : View) : View := .read v.info

theorem upTo_canonical_relates {w : World} (hr : w.resolver.Coherent) :
    (Comparison.upTo w.resolver.canonical).Relates w w where
  same := rfl
  views := hr.interchanges
  report := alike_report rfl fun _ _ => rfl
  descend := alike_descend rfl

theorem upTo_canonical_reopens (r : Resolver) : Run.Reopens (.upTo r.canonical) where
  keeps hs _ := hs.symm
  cuts _ h := h

/-- The types, each with the name of its bean, as seeds that are loaded. -/
def loadedSeeds (types : List (String × LoadedType)) : List NamedDefinition :=
  types.map fun x => ⟨x.1, .ofLoaded x.2.name x.2⟩

/-- The same types as seeds that are known by name only. -/
def namedSeeds (types : List (String × LoadedType)) : List NamedDefinition :=
  types.map fun x => ⟨x.1, .ofClassName x.2.name⟩

namespace Run

theorem sameSeed_loaded {r : Resolver} (hr : r.Coherent) {t : LoadedType}
    (ht : r.types.find? t.name = some t) (beanName : String) :
    SameSeed r r.canonical ⟨beanName, .ofLoaded t.name t⟩ ⟨beanName, .ofClassName t.name⟩ where
  beanName := rfl
  className := rfl
  view := (hr.map_ofName ht rfl (Resolver.canonical_read ht)).symm

/-- Outcomes that are alike up to the form of the views. -/
theorem untagged_eq_of_meets {r : Resolver} {s : Run} {x y : EStateM.Result Failure Run Unit}
    (h : (Comparison.upTo r.canonical).Meets s x y) :
    mapViews View.untagged x = mapViews View.untagged y := by
  have hcanonical : View.untagged ∘ r.canonical = View.untagged :=
    funext fun v => congrArg View.read (r.info_canonical v)
  have hstate {t t' : Run} (ht : mapViews r.canonical t = mapViews r.canonical t') :
      mapViews View.untagged t = mapViews View.untagged t' := by
    rw [← hcanonical, ← mapViews_mapViews, ht, mapViews_mapViews]
  cases h with
  | ok _ ht _ => exact congrArg (EStateM.Result.ok ()) (hstate ht)
  | @error e t t' ht _ => exact congrArg (EStateM.Result.error e) (hstate ht)
  | cut hcuts => exact hcuts.elim

/-- Whether the seeds are handed in as loaded types or by their names, the run comes to the same,
whether it succeeds or fails: the failure, the classes and whatever was collected for them, their
importers, the problems and the rest of the state.  Only the form of the views may differ. -/
theorem parse_loadedSeeds_eq_namedSeeds {w : World} (hr : w.resolver.Coherent)
    {types : List (String × LoadedType)}
    (htypes : ∀ x ∈ types, w.resolver.types.find? x.2.name = some x.2) (s : Run) :
    mapViews View.untagged (parse w (loadedSeeds types) s) =
      mapViews View.untagged (parse w (namedSeeds types) s) := by
  have hseeds : List.Forall₂ (SameSeed w.resolver w.resolver.canonical)
      (loadedSeeds types) (namedSeeds types) := by
    rw [loadedSeeds, namedSeeds, List.forall₂_map_left_iff, List.forall₂_map_right_iff,
      List.forall₂_same]
    exact fun x hx => sameSeed_loaded hr (htypes x hx) x.1
  have hparse := alike_parse (upTo_canonical_reopens _) (upTo_canonical_relates hr) hseeds
  exact untagged_eq_of_meets (hparse s s rfl fun hclosed => nomatch hclosed)

end Run

/-! ## A class with two bean methods -/

/-- A class with two bean methods, which imports another one. -/
def twoMethods : ClassInfo where
  name := "app.Root"
  tags := [.importing ["app.Leaf"]]
  methods := [
    { name := "first", declaringClass := "app.Root", tags := [.mk WellKnown.bean []] },
    { name := "second", declaringClass := "app.Root", tags := [.mk WellKnown.bean []] }]

/-- Both classes are loaded and described. -/
def describedAndLoaded : World where
  resolver := {
    reader := { index := ⟨[twoMethods, { name := "app.Leaf" }]⟩ }
    types := ⟨[{ info := twoMethods }, { info := { name := "app.Leaf" } }]⟩ }

theorem coherent_describedAndLoaded : describedAndLoaded.resolver.Coherent := by
  refine Resolver.coherent_of_read fun t ht => ?_
  obtain rfl | rfl : t = { info := twoMethods } ∨ t = { info := { name := "app.Leaf" } } := by
    simpa [describedAndLoaded] using ht
  · rfl
  · rfl

set_option maxRecDepth 100000 in
/-- The views of the seed differ in form, and nothing else does. -/
theorem parse_loadedSeeds_eq_namedSeeds_describedAndLoaded :
    mapViews View.untagged
        (Run.parse describedAndLoaded (loadedSeeds [("root", { info := twoMethods })]) {}) =
      mapViews View.untagged
        (Run.parse describedAndLoaded (namedSeeds [("root", { info := twoMethods })]) {}) ∧
    succeedsWith (fun t : Run => (t.classes.get? "app.Root").any (·.view.isLoaded))
      (Run.parse describedAndLoaded (loadedSeeds [("root", { info := twoMethods })]) {}) = true ∧
    succeedsWith (fun t : Run => (t.classes.get? "app.Root").any (!·.view.isLoaded))
      (Run.parse describedAndLoaded (namedSeeds [("root", { info := twoMethods })]) {}) = true := by
  refine ⟨?_, by decide +kernel, by decide +kernel⟩
  refine Run.parse_loadedSeeds_eq_namedSeeds coherent_describedAndLoaded (fun x hx => ?_) {}
  obtain rfl := List.mem_singleton.1 hx
  rfl

end Wiring
