import Mathlib.Data.List.Perm.Subperm
import Wiring.Proofs.Outcome
import Wiring.Resolver.Methods

/-!
# The bean methods that a class brings

What a class adds to a record depends on the class only: its own bean methods, each of them
whatever their order, and those of its interfaces.
-/

namespace Wiring

/-! ## The order of declaration -/

/-- The ordered methods are those at the positions taken, of which the latest comes last; and each
position is the first one of a method of that name. -/
structure Matched (methods : List Method) (st : List Nat × List Method) : Prop where
  nodup : st.1.Nodup
  ordered : st.2.map some = st.1.reverse.map (methods[·]?)
  first : ∀ i ∈ st.1, ∀ m, methods[i]? = some m → methods.findIdx? (·.name == m.name) = some i

section

variable {methods : List Method} {st : List Nat × List Method}

theorem exists_of_findIdx? {name : String} {i : Nat}
    (h : methods.findIdx? (·.name == name) = some i) :
    ∃ m, methods[i]? = some m ∧ m.name = name := by
  obtain ⟨hlt, hname, _⟩ := List.findIdx?_eq_some_iff_getElem.1 h
  exact ⟨methods[i], List.getElem?_eq_getElem hlt, by simpa using hname⟩

theorem Matched.next (h : Matched methods st) (d : Method) :
    Matched methods (matchNext methods st d) := by
  rw [matchNext]
  cases hi : methods.findIdx? (·.name == d.name) with
  | none => exact h
  | some i =>
    dsimp only
    split
    · exact h
    · rename_i hnew
      obtain ⟨m, hm, hname⟩ := exists_of_findIdx? hi
      refine ⟨List.nodup_cons.2 ⟨hnew, h.nodup⟩, ?_, ?_⟩
      · simp [h.ordered, hm]
      · intro j hj m' hm'
        obtain rfl | hj := List.mem_cons.1 hj
        · obtain rfl := Option.some.inj (hm.symm.trans hm')
          rw [hname, hi]
        · exact h.first j hj m' hm'

theorem matched_matchDeclared (methods declared : List Method) :
    Matched methods (matchDeclared methods declared) := by
  have run : ∀ (ds : List Method) (st : List Nat × List Method), Matched methods st →
      Matched methods (ds.foldl (matchNext methods) st) := by
    intro ds
    induction ds with
    | nil => exact fun _ h => h
    | cons d ds ih => exact fun st h => ih _ (h.next d)
  exact run declared _ ⟨List.nodup_nil, rfl, by simp⟩

/-- If as many methods are ordered as there are, none is missing and none comes twice. -/
theorem Matched.perm (h : Matched methods st) (hlength : st.2.length = methods.length) :
    st.2.Perm methods := by
  have hsub : st.1 ⊆ List.range methods.length := by
    intro i hi
    have hget : methods[i]? ∈ st.2.map some := by
      rw [h.ordered]
      exact List.mem_map_of_mem (List.mem_reverse.2 hi)
    obtain ⟨m, _, hm⟩ := List.mem_map.1 hget
    exact List.mem_range.2 (List.getElem?_eq_some_iff.1 hm.symm).1
  have hcount : st.2.length = st.1.length := by simpa using congrArg List.length h.ordered
  have hpositions : st.1.reverse.Perm (List.range methods.length) := by
    refine (List.reverse_perm st.1).trans
      ((List.subperm_of_subset h.nodup hsub).perm_of_length_le (Nat.le_of_eq ?_))
    rw [List.length_range, ← hcount, hlength]
  have hall : (List.range methods.length).map (methods[·]?) = methods.map some :=
    List.ext_getElem (by simp) (by simp)
  rw [← List.map_perm_map_iff (fun _ _ => Option.some.inj), h.ordered, ← hall]
  exact hpositions.map _

end

namespace Resolver

/-- The bean methods stay in their order, or all of them are matched with declared ones. -/
theorem beanMethods_cases (r : Resolver) (v : View) :
    r.beanMethods v = v.info.taggedMethods WellKnown.bean ∨
      ∃ c, r.readStatic v.name = .ok c ∧
        r.beanMethods v = (matchDeclared (v.info.taggedMethods WellKnown.bean)
          (c.taggedMethods WellKnown.bean)).2 ∧
        (r.beanMethods v).length = (v.info.taggedMethods WellKnown.bean).length := by
  rw [beanMethods]
  dsimp only
  split
  · exact .inl rfl
  · split
    · exact .inl rfl
    · rename_i c hc
      split
      · exact .inl rfl
      · split
        · rename_i hlength
          exact .inr ⟨c, hc, rfl, hlength⟩
        · exact .inl rfl

/-- Reordering neither loses nor repeats a bean method. -/
theorem beanMethods_perm (r : Resolver) (v : View) :
    (r.beanMethods v).Perm (v.info.taggedMethods WellKnown.bean) := by
  obtain h | ⟨c, _, h, hlength⟩ := r.beanMethods_cases v
  · rw [h]
  · rw [h] at hlength ⊢
    exact (matched_matchDeclared _ _).perm hlength

theorem mem_beanMethods (r : Resolver) {v : View} {m : Method}
    (h : m ∈ v.info.taggedMethods WellKnown.bean) : m ∈ r.beanMethods v :=
  (r.beanMethods_perm v).mem_iff.2 h

theorem beanMethods_subset (r : Resolver) (v : View) :
    r.beanMethods v ⊆ v.info.taggedMethods WellKnown.bean :=
  (r.beanMethods_perm v).subset

end Resolver

/-! ## Collecting -/

namespace ConfigClass

theorem addMethods_nil (c : ConfigClass) : c.addMethods [] = c := rfl

theorem addMethods_append (c : ConfigClass) (ms ns : List Method) :
    c.addMethods (ms ++ ns) = (c.addMethods ms).addMethods ns := List.foldl_append

theorem addMethods_eq (c : ConfigClass) (ms : List Method) :
    c.addMethods ms = { c with beanMethods := (c.addMethods ms).beanMethods } := by
  induction ms generalizing c with
  | nil => rfl
  | cons m ms ih => exact ih (c.addMethod m)

theorem mem_keys_addMethods {c : ConfigClass} {ms : List Method} {k : MethodKey} :
    k ∈ (c.addMethods ms).beanMethods.keys ↔ k ∈ c.beanMethods.keys ∨ ∃ m ∈ ms, m.key = k := by
  induction ms generalizing c with
  | nil => simp [addMethods_nil]
  | cons m ms ih =>
    show k ∈ ((c.addMethod m).addMethods ms).beanMethods.keys ↔ _
    rw [ih, addMethod, OrderedMap.mem_keys_insertIfNew, or_assoc, List.exists_mem_cons_iff]
    rw [eq_comm]

end ConfigClass

namespace Resolver

/-- The bean methods with a body of the interfaces of `v` and of theirs, without those of the
interfaces in `seen`; and the interfaces seen afterwards. -/
def interfaceMethods (r : Resolver) : (depth : Nat) → List String → View →
    Except Failure (List String × List Method)
  | 0, seen, _ => .ok (seen, [])
  | depth + 1, seen, v => do
    (← r.interfaces v).foldlM (fun (seen, ms) i =>
      if i.name ∈ seen then .ok (seen, ms)
      else do
        let (seen, deeper) ← r.interfaceMethods depth (i.name :: seen) i
        return (seen, ms ++ (r.beanMethods i).filter (!·.isAbstract) ++ deeper)) (seen, [])

/-- The bean methods that `v` brings: its own and those of its interfaces. -/
def allMethods (r : Resolver) (v : View) : Except Failure (List Method) :=
  (r.interfaceMethods r.maxDepth [] v).map fun x => r.beanMethods v ++ x.2

/-- What the interfaces add does not depend on the record. -/
theorem addInterfaceMethods_eq (r : Resolver) (depth : Nat) (seen : List String)
    (record : ConfigClass) (v : View) :
    r.addInterfaceMethods depth (seen, record) v =
      (r.interfaceMethods depth seen v).map fun x => (x.1, record.addMethods x.2) := by
  induction depth generalizing seen record v with
  | zero => rfl
  | succ depth ih =>
    rw [addInterfaceMethods, interfaceMethods]
    cases r.interfaces v with
    | error e => rfl
    | ok is =>
      show is.foldlM _ (seen, record.addMethods []) = Except.map _ (is.foldlM _ (seen, []))
      generalize ([] : List Method) = ms
      induction is generalizing seen ms with
      | nil => rfl
      | cons i is ih' =>
        rw [List.foldlM_cons, List.foldlM_cons]
        by_cases hi : i.name ∈ seen
        · simp only [hi, if_true]
          exact ih' seen ms
        · simp only [hi, if_false]
          rw [ih, ← ConfigClass.addMethods_append]
          cases r.interfaceMethods depth (i.name :: seen) i with
          | error e => rfl
          | ok x =>
            obtain ⟨seen', deeper⟩ := x
            show is.foldlM _ (seen', (record.addMethods (ms ++ _)).addMethods deeper) = _
            rw [← ConfigClass.addMethods_append]
            exact ih' seen' _

theorem addAllMethods_eq (r : Resolver) (record : ConfigClass) (v : View) :
    r.addAllMethods record v = (r.allMethods v).map record.addMethods := by
  rw [addAllMethods, addInterfaceMethods_eq, allMethods]
  cases r.interfaceMethods r.maxDepth [] v with
  | error e => rfl
  | ok x =>
    show Except.ok ((record.addMethods (r.beanMethods v)).addMethods x.2) = _
    rw [← ConfigClass.addMethods_append]
    rfl

theorem addAllMethods_eq_ok {r : Resolver} {record record' : ConfigClass} {v : View} :
    r.addAllMethods record v = .ok record' ↔
      ∃ ms, r.allMethods v = .ok ms ∧ record.addMethods ms = record' := by
  rw [addAllMethods_eq]
  cases r.allMethods v with
  | error e => simp [Except.map]
  | ok ms => simp [Except.map]

/-- What the interfaces add is a bean method of an interface of a class that is met on the way. -/
theorem mem_of_interfaceMethods {r : Resolver} {P : View → Prop}
    (hP : ∀ {y i : View} {name : String}, P y → name ∈ y.info.interfaces →
      r.related y name = .ok i → P i)
    {depth : Nat} {seen : List String} {v : View} {x : List String × List Method}
    (h : r.interfaceMethods depth seen v = .ok x) (hv : P v) {m : Method} (hm : m ∈ x.2) :
    ∃ y i name, P y ∧ name ∈ y.info.interfaces ∧ r.related y name = .ok i ∧
      m ∈ r.beanMethods i := by
  induction depth generalizing seen v x with
  | zero =>
    obtain rfl := Except.ok.inj h
    cases hm
  | succ depth ih =>
    rw [interfaceMethods] at h
    obtain ⟨is, his, h⟩ := exceptBind_eq_ok.1 h
    have hadded := exceptFoldlM_induction (R := fun a b : List String × List Method =>
        m ∈ b.2 → m ∈ a.2 ∨ ∃ y i name, P y ∧ name ∈ y.info.interfaces ∧
          r.related y name = .ok i ∧ m ∈ r.beanMethods i)
      (fun _ => .inl) (fun hab hbc hc => (hbc hc).elim hab .inr)
      (fun i hi a b hstep hb => by
        obtain ⟨name, hname, hrelated⟩ := exists_of_mem_mapM_eq_ok his i hi
        dsimp only at hstep
        split at hstep
        · obtain rfl := Except.ok.inj hstep
          exact .inl hb
        · obtain ⟨deeper, hdeeper, hstep⟩ := exceptBind_eq_ok.1 hstep
          obtain rfl := Except.ok.inj hstep
          obtain hb | hb := List.mem_append.1 hb
          · obtain hb | hb := List.mem_append.1 hb
            · exact .inl hb
            · exact .inr ⟨v, i, name, hv, hname, hrelated, (List.mem_filter.1 hb).1⟩
          · exact .inr (ih hdeeper (hP hv hname hrelated) hb)) h
    exact (hadded hm).resolve_left List.not_mem_nil

/-- The empty view brings none. -/
theorem allMethods_object (r : Resolver) : r.allMethods .object = .ok [] := by
  rw [allMethods, maxDepth]
  rfl

theorem beanMethods_subset_of_allMethods {r : Resolver} {v : View} {ms : List Method}
    (h : r.allMethods v = .ok ms) : r.beanMethods v ⊆ ms := by
  rw [allMethods] at h
  cases hx : r.interfaceMethods r.maxDepth [] v with
  | error e =>
    rw [hx] at h
    cases h
  | ok x =>
    rw [hx] at h
    obtain rfl := Except.ok.inj h
    exact List.subset_append_left _ _

end Resolver
end Wiring
