import Mathlib.Data.List.Induction
import Mathlib.Data.List.Nodup
import Wiring.Proofs.Methods

/-!
# The order of declaration

A loaded type loses the order in which its class declares its bean methods.  Where the class can be
read as well, the order is taken from there, by the names of the methods: each declared method takes
the first bean method of its name.  That brings back the order if the names tell the bean methods
apart.  Of two bean methods of one name the second is never taken, and then all of them stay in the
order in which they were loaded, whatever the class declares.
-/

namespace Wiring

/-- Each of the methods can be matched with a different one of the `declared` methods, of the same
name. -/
def CoveredBy (methods declared : List Method) : Prop :=
  (methods.map (·.name)).Subperm (declared.map (·.name))

/-- The methods can be matched so that the `declared` ones come in the same order. -/
def Follows (methods declared : List Method) : Prop :=
  (methods.map (·.name)).Sublist (declared.map (·.name))

instance (methods declared : List Method) : Decidable (CoveredBy methods declared) :=
  inferInstanceAs (Decidable (List.Subperm _ _))

instance (methods declared : List Method) : Decidable (Follows methods declared) :=
  inferInstanceAs (Decidable (List.Sublist _ _))

/-- The names that the list has in common with `known`, once each and in the order of the list. -/
structure Picks (known list picked : List String) : Prop where
  sublist : picked.Sublist list
  nodup : picked.Nodup
  mem_iff : ∀ {name}, name ∈ picked ↔ name ∈ list ∧ name ∈ known

section

variable {methods declared : List Method} {st : List Nat × List Method}

theorem Matched.mem_iff (h : Matched methods st) {m : Method} :
    m ∈ st.2 ↔ ∃ i ∈ st.1, methods[i]? = some m := by
  have hmem : m ∈ st.2 ↔ some m ∈ st.2.map some := by simp
  rw [hmem, h.ordered]
  simp

/-- A name is among those of the ordered methods once its first position is taken. -/
theorem Matched.mem_taken_iff (h : Matched methods st) {name : String} {i : Nat}
    (hi : methods.findIdx? (·.name == name) = some i) :
    i ∈ st.1 ↔ name ∈ st.2.map (·.name) := by
  constructor
  · intro htaken
    obtain ⟨m, hm, rfl⟩ := exists_of_findIdx? hi
    exact List.mem_map_of_mem (h.mem_iff.2 ⟨i, htaken, hm⟩)
  · intro hname
    obtain ⟨m, hm, rfl⟩ := List.mem_map.1 hname
    obtain ⟨j, hj, hget⟩ := h.mem_iff.1 hm
    obtain rfl := Option.some.inj ((h.first j hj m hget).symm.trans hi)
    exact hj

theorem Matched.names_next (h : Matched methods st) (d : Method) :
    (matchNext methods st d).2.map (·.name) =
      if d.name ∈ methods.map (·.name) ∧ d.name ∉ st.2.map (·.name) then
        st.2.map (·.name) ++ [d.name]
      else st.2.map (·.name) := by
  rw [matchNext]
  cases hi : methods.findIdx? (·.name == d.name) with
  | none =>
    have hunknown : d.name ∉ methods.map (·.name) := by
      simpa [List.findIdx?_eq_none_iff] using hi
    rw [if_neg fun h => hunknown h.1]
  | some i =>
    obtain ⟨m, hm, hname⟩ := exists_of_findIdx? hi
    have hknown : d.name ∈ methods.map (·.name) :=
      List.mem_map.2 ⟨m, List.mem_of_getElem? hm, hname⟩
    by_cases htaken : i ∈ st.1
    · have hold := (h.mem_taken_iff hi).1 htaken
      rw [if_neg fun h => h.2 hold]
      simp [htaken]
    · have hnew := mt (h.mem_taken_iff hi).2 htaken
      rw [if_pos ⟨hknown, hnew⟩]
      simp [htaken, hm, hname]

theorem picks_matchDeclared (methods declared : List Method) :
    Picks (methods.map (·.name)) (declared.map (·.name))
      ((matchDeclared methods declared).2.map (·.name)) := by
  induction declared using List.reverseRecOn with
  | nil => exact ⟨List.Sublist.refl _, List.nodup_nil, by simp [matchDeclared]⟩
  | append_singleton ds d ih =>
    have hstep : matchDeclared methods (ds ++ [d]) =
        matchNext methods (matchDeclared methods ds) d := List.foldl_append
    rw [hstep, (matched_matchDeclared methods ds).names_next, List.map_append, List.map_singleton]
    generalize (matchDeclared methods ds).2.map (·.name) = picked at ih ⊢
    have hmem := @ih.mem_iff
    split
    · rename_i hd
      obtain ⟨hknown, hnew⟩ := hd
      refine ⟨ih.sublist.append (List.Sublist.refl _), ?_, ?_⟩
      · exact List.nodup_append.2 ⟨ih.nodup, by simp, by grind⟩
      · grind
    · rename_i hd
      refine ⟨ih.sublist.trans (List.sublist_append_left _ _), ih.nodup, ?_⟩
      grind

/-- If all the methods find their places among themselves, they stay in their order. -/
theorem matchDeclared_self (h : (matchDeclared methods methods).2.length = methods.length) :
    (matchDeclared methods methods).2 = methods := by
  have hpicks := picks_matchDeclared methods methods
  have hnames : (matchDeclared methods methods).2.map (·.name) = methods.map (·.name) :=
    hpicks.sublist.eq_of_length (by simpa using h)
  have hperm := (matched_matchDeclared methods methods).perm h
  have hinjective := List.inj_on_of_nodup_map (hnames ▸ hpicks.nodup)
  refine List.ext_getElem h fun i hi hi' => ?_
  have hname := List.getElem_of_eq hnames (by simpa using hi)
  rw [List.getElem_map, List.getElem_map] at hname
  exact hinjective (hperm.mem_iff.1 (List.getElem_mem hi)) (List.getElem_mem hi') hname

/-- All methods find their places if and only if their names tell them apart. -/
theorem length_matchDeclared_iff (h : CoveredBy methods declared) :
    (matchDeclared methods declared).2.length = methods.length ↔
      (methods.map (·.name)).Nodup := by
  have hpicks := picks_matchDeclared methods declared
  constructor
  · intro hlength
    have hperm := (matched_matchDeclared methods declared).perm hlength
    exact (hperm.map (·.name)).nodup_iff.1 hpicks.nodup
  · intro hnodup
    have hperm : ((matchDeclared methods declared).2.map (·.name)).Perm (methods.map (·.name)) := by
      refine (List.perm_ext_iff_of_nodup hpicks.nodup hnodup).2 fun name => ?_
      rw [hpicks.mem_iff]
      exact and_iff_right_of_imp (h.subset ·)
    simpa using hperm.length_eq

end

namespace Resolver

variable {r : Resolver} {v : View} {c : ClassInfo}

/-- All bean methods come back, with the metadata of the view.  Either their order is the one that
the view has, or it is that of declared bean methods of the same names. -/
theorem beanMethods_reordered (r : Resolver) (v : View) :
    (r.beanMethods v).Perm (v.info.taggedMethods WellKnown.bean) ∧
      (r.beanMethods v = v.info.taggedMethods WellKnown.bean ∨
        ∃ c, r.readStatic v.name = .ok c ∧
          Follows (r.beanMethods v) (c.taggedMethods WellKnown.bean)) := by
  refine ⟨r.beanMethods_perm v, (r.beanMethods_cases v).imp_right ?_⟩
  rintro ⟨c, hc, h, _⟩
  rw [h]
  exact ⟨c, hc, (picks_matchDeclared _ _).sublist⟩

theorem beanMethods_of_loaded (hloaded : v.isLoaded = true)
    (hmany : 2 ≤ (v.info.taggedMethods WellKnown.bean).length)
    (hc : r.readStatic v.name = .ok c)
    (hcovered : CoveredBy (v.info.taggedMethods WellKnown.bean)
      (c.taggedMethods WellKnown.bean)) :
    r.beanMethods v =
      if ((v.info.taggedMethods WellKnown.bean).map (·.name)).Nodup then
        (matchDeclared (v.info.taggedMethods WellKnown.bean) (c.taggedMethods WellKnown.bean)).2
      else v.info.taggedMethods WellKnown.bean := by
  have henough : (v.info.taggedMethods WellKnown.bean).length ≤
      (c.taggedMethods WellKnown.bean).length := by
    simpa using hcovered.length_le
  have hnotFew : ¬ (v.info.taggedMethods WellKnown.bean).length ≤ 1 := by omega
  rw [beanMethods, hc]
  simp only [← length_matchDeclared_iff hcovered, View.hasStableOrder, hloaded,
    Nat.not_lt.2 henough, hnotFew, decide_false, Bool.not_true, Bool.or_self, if_false,
    Bool.false_eq_true]

/-- Where declared methods cover the bean methods of a loaded type, their order is brought back if
and only if the names tell the bean methods apart, unless these are in order already.  Otherwise the
order of the loaded type stays. -/
theorem beanMethods_follow_iff (hloaded : v.isLoaded = true)
    (hmany : 2 ≤ (v.info.taggedMethods WellKnown.bean).length)
    (hc : r.readStatic v.name = .ok c)
    (hcovered : CoveredBy (v.info.taggedMethods WellKnown.bean)
      (c.taggedMethods WellKnown.bean)) :
    (r.beanMethods v).Perm (v.info.taggedMethods WellKnown.bean) ∧
      (Follows (r.beanMethods v) (c.taggedMethods WellKnown.bean) ↔
        ((v.info.taggedMethods WellKnown.bean).map (·.name)).Nodup ∨
          Follows (v.info.taggedMethods WellKnown.bean) (c.taggedMethods WellKnown.bean)) ∧
      (¬ ((v.info.taggedMethods WellKnown.bean).map (·.name)).Nodup →
        r.beanMethods v = v.info.taggedMethods WellKnown.bean) := by
  refine ⟨r.beanMethods_perm v, ?_, ?_⟩
  · rw [beanMethods_of_loaded hloaded hmany hc hcovered]
    split
    · rename_i hnodup
      exact iff_of_true (picks_matchDeclared _ _).sublist (.inl hnodup)
    · rename_i hrepeated
      rw [or_iff_right hrepeated]
  · intro hrepeated
    rw [beanMethods_of_loaded hloaded hmany hc hcovered, if_neg hrepeated]

/-- A bean method; the descriptor tells overloads apart. -/
def loadedBean (name descriptor : String) : Method :=
  { name, descriptor, declaringClass := "app.Loaded", tags := [.mk WellKnown.bean []] }

/-- A class that can be read, with these methods in the order of their declaration. -/
def declaring (methods : List Method) : ClassInfo := { name := "app.Loaded", methods }

/-- The class as it is loaded, with these methods in some order. -/
def loadedWith (methods : List Method) : View := .loaded { info := declaring methods }

/-- Two methods out of order, among declared ones of which one is overloaded and one unrelated. -/
theorem beanMethods_follow_iff_swapped :
    let c := declaring [loadedBean "a" "()I", loadedBean "b" "()I", loadedBean "c" "()I",
      loadedBean "a" "()J"]
    let v := loadedWith [loadedBean "c" "()I", loadedBean "b" "()I"]
    let r : Resolver := { reader.index.classes := [c] }
    v.isLoaded = true ∧ 2 ≤ (v.info.taggedMethods WellKnown.bean).length ∧
      r.readStatic v.name = .ok c ∧
      CoveredBy (v.info.taggedMethods WellKnown.bean) (c.taggedMethods WellKnown.bean) ∧
      ¬ Follows (v.info.taggedMethods WellKnown.bean) (c.taggedMethods WellKnown.bean) ∧
      Follows (r.beanMethods v) (c.taggedMethods WellKnown.bean) := by
  intro c v r
  have hmany : 2 ≤ (v.info.taggedMethods WellKnown.bean).length := by decide +kernel
  have hcovered : CoveredBy (v.info.taggedMethods WellKnown.bean)
      (c.taggedMethods WellKnown.bean) := by
    decide +kernel
  have hnodup : ((v.info.taggedMethods WellKnown.bean).map (·.name)).Nodup := by decide +kernel
  have hfollows := (beanMethods_follow_iff (r := r) rfl hmany rfl hcovered).2.1.2 (.inl hnodup)
  exact ⟨rfl, hmany, rfl, hcovered, by decide +kernel, hfollows⟩

/-- Overloads do not find their places, although each of them is declared. -/
theorem not_forall_beanMethods_follow :
    ¬ ∀ (r : Resolver) (v : View) (c : ClassInfo), v.isLoaded = true →
      2 ≤ (v.info.taggedMethods WellKnown.bean).length → r.readStatic v.name = .ok c →
      CoveredBy (v.info.taggedMethods WellKnown.bean) (c.taggedMethods WellKnown.bean) →
      Follows (r.beanMethods v) (c.taggedMethods WellKnown.bean) := by
  intro h
  let c := declaring [loadedBean "a" "()I", loadedBean "a" "()J", loadedBean "b" "()I"]
  let v := loadedWith [loadedBean "b" "()I", loadedBean "a" "()I", loadedBean "a" "()J"]
  have hfollows := h { reader.index.classes := [c] } v c rfl (by decide +kernel) rfl
    (by decide +kernel)
  revert hfollows
  decide +kernel

end Resolver
end Wiring
