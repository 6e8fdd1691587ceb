import Mathlib.Data.List.Perm.Subperm
import Mathlib.Logic.Relation
import Wiring.Importers

/-!
# Circles of latest importers

Whether a class is imported circularly is decided by following its latest importers.  The walk ends
at its start, at the end of the chain, or at a class that it has come by already.  In the last case
it goes round among the classes it has come by, and its start is none of them, so it would not come
back later either.  `Walked` says where a walk has come to, and each step keeps it; from it follow
both answers, and that a walk has ended before the steps allowed to it are used up.
-/

namespace Wiring
namespace Importers

open Relation

/-- The class of the second name is the latest importer of the first. -/
def LatestImporter (r : Importers) (name importer : String) : Prop :=
  ∃ c, r.latest? name = some c ∧ c.name = importer

/-- The names in the list are the latest importers of `name`, one of the other. -/
def Linked (r : Importers) : (name : String) → List String → Prop
  | _, [] => True
  | name, next :: chain => (∃ c, r.latest? name = some c ∧ c.name = next) ∧ r.Linked next chain

/-- The chain from the class ends, or it runs into a circle that does not come by the class. -/
def Strays (r : Importers) (name : String) : Prop :=
  (∃ last, ReflTransGen r.LatestImporter name last ∧ r.latest? last = none) ∨
    ∃ other, TransGen r.LatestImporter name other ∧ TransGen r.LatestImporter other other ∧
      ¬ TransGen r.LatestImporter other name

/-- The walk that looks for `target`, with the classes of `seen` behind it, comes to the answer,
however many steps it takes. -/
inductive Answers (r : Importers) (target : String) :
    (seen : List String) → (current : Option ClassInfo) → (answer : Bool) → Prop
  | ended (seen : List String) : r.Answers target seen none false
  | back (seen : List String) {c : ClassInfo} (hback : c.name = target) :
      r.Answers target seen (some c) true
  | repeated {seen : List String} {c : ClassInfo} (hne : c.name ≠ target)
      (hseen : c.name ∈ seen) : r.Answers target seen (some c) false
  | onward {seen : List String} {c : ClassInfo} {answer : Bool} (hne : c.name ≠ target)
      (hfresh : c.name ∉ seen)
      (rest : r.Answers target (c.name :: seen) (r.latest? c.name) answer) :
      r.Answers target seen (some c) answer

variable {r r' : Importers} {target name other last : String} {chain rest seen : List String}
  {steps : Nat}

/-! ## Chains -/

/-- The importers of the last class do not matter. -/
theorem Linked.congr_snoc (h : r.Linked name (chain ++ [last]))
    (hname : r'.latest? name = r.latest? name)
    (hchain : ∀ y ∈ chain, r'.latest? y = r.latest? y) : r'.Linked name (chain ++ [last]) := by
  induction chain generalizing name with
  | nil =>
    refine ⟨?_, trivial⟩
    rw [hname]
    exact h.1
  | cons next chain ih =>
    obtain ⟨hnext, hrest⟩ := h
    refine ⟨?_, ih hrest (hchain next List.mem_cons_self) fun y hy =>
      hchain y (List.mem_cons_of_mem _ hy)⟩
    rw [hname]
    exact hnext

theorem Linked.congr (h : r.Linked name chain) (hname : r'.latest? name = r.latest? name)
    (hchain : ∀ y ∈ chain, r'.latest? y = r.latest? y) : r'.Linked name chain := by
  obtain rfl | ⟨first, last, rfl⟩ := chain.eq_nil_or_concat
  · trivial
  · rw [List.concat_eq_append] at h hchain ⊢
    exact h.congr_snoc hname fun y hy => hchain y (List.mem_append_left _ hy)

theorem Linked.of_append (h : r.Linked name (chain ++ rest)) : r.Linked name chain := by
  induction chain generalizing name with
  | nil => trivial
  | cons next chain ih => exact ⟨h.1, ih h.2⟩

/-- A class leads to all that its chain comes by. -/
theorem Linked.transGen (h : r.Linked name chain) (hmem : other ∈ chain) :
    TransGen r.LatestImporter name other := by
  induction chain generalizing name with
  | nil => cases hmem
  | cons next chain ih =>
    obtain ⟨hnext, hrest⟩ := h
    obtain rfl | hmem := List.mem_cons.1 hmem
    · exact .single hnext
    · exact .head hnext (ih hrest hmem)

theorem LatestImporter.unique (h : r.LatestImporter name other)
    (h' : r.LatestImporter name last) : other = last := by
  obtain ⟨c, hc, rfl⟩ := h
  obtain ⟨d, hd, rfl⟩ := h'
  rw [Option.some.inj (hc.symm.trans hd)]

theorem mem_keys_of_latest? {c : ClassInfo} (h : r.latest? name = some c) :
    name ∈ r.importers.keys := by
  rw [← OrderedMap.contains_iff, OrderedMap.contains, Option.isSome_iff_ne_none]
  intro hnone
  rw [latest?, of, hnone] at h
  cases h

/-- There is only one way to go on, so a class on a circle never leaves it. -/
theorem transGen_back (hcircle : TransGen r.LatestImporter name name)
    (h : ReflTransGen r.LatestImporter name other) : TransGen r.LatestImporter other name := by
  induction h with
  | refl => exact hcircle
  | tail _ hstep ih =>
    obtain ⟨next, hnext, hrest⟩ := TransGen.head'_iff.1 ih
    obtain rfl := hstep.unique hnext
    exact TransGen.trans_right hrest hcircle

theorem Strays.not_transGen (h : r.Strays name) : ¬ TransGen r.LatestImporter name name := by
  intro hcircle
  obtain ⟨last, hpath, hnone⟩ | ⟨other, hpath, -, hback⟩ := h
  · obtain ⟨_, ⟨c, hc, -⟩, -⟩ := TransGen.head'_iff.1 (transGen_back hcircle hpath)
    rw [hnone] at hc
    cases hc
  · exact hback (transGen_back hcircle hpath.to_reflTransGen)

/-- Classes whose latest importers are among them lead to no others. -/
theorem mem_of_transGen (hstays : ∀ y ∈ seen, ∀ z, r.LatestImporter y z → z ∈ seen)
    (hname : name ∈ seen) (h : TransGen r.LatestImporter name other) : other ∈ seen := by
  induction h with
  | single hstep => exact hstays _ hname _ hstep
  | tail _ hstep ih => exact hstays _ ih _ hstep

/-! ## Where a walk has come to -/

/-- A walk from `target` stands at `name`, and `seen` is what it has come by. -/
structure Walked (r : Importers) (target : String) (seen : List String) (name : String) :
    Prop where
  path : ReflTransGen r.LatestImporter target name
  nodup : seen.Nodup
  fresh : target ∉ seen
  leads : ∀ y ∈ seen, ReflTransGen r.LatestImporter y name
  /-- Only from where it stands does it go on to a new class. -/
  within : ∀ y ∈ seen, y ≠ name → ∀ z, r.LatestImporter y z → z ∈ seen

namespace Walked

theorem start (r : Importers) (target : String) : r.Walked target [] target where
  path := .refl
  nodup := .nil
  fresh := List.not_mem_nil
  leads _ hy := absurd hy List.not_mem_nil
  within _ hy := absurd hy List.not_mem_nil

theorem step (h : r.Walked target seen name) {c : ClassInfo} (hc : r.latest? name = some c)
    (hne : c.name ≠ target) (hfresh : c.name ∉ seen) :
    r.Walked target (c.name :: seen) c.name where
  path := h.path.tail ⟨c, hc, rfl⟩
  nodup := List.nodup_cons.2 ⟨hfresh, h.nodup⟩
  fresh := by
    rw [List.mem_cons, not_or]
    exact ⟨hne.symm, h.fresh⟩
  leads y hy := by
    obtain rfl | hy := List.mem_cons.1 hy
    · exact .refl
    · exact (h.leads y hy).tail ⟨c, hc, rfl⟩
  within y hy hyne z hz := by
    obtain rfl | hy := List.mem_cons.1 hy
    · exact absurd rfl hyne
    · by_cases hname : y = name
      · subst hname
        obtain rfl := hz.unique ⟨c, hc, rfl⟩
        exact List.mem_cons_self
      · exact List.mem_cons_of_mem _ (h.within y hy hname z hz)

/-- All that has been come by is registered, unless the chain ends here. -/
theorem length_le (h : r.Walked target seen name) {c : ClassInfo}
    (hc : r.latest? name = some c) : seen.length ≤ r.importers.size := by
  have hsubset : seen ⊆ r.importers.keys := by
    intro y hy
    obtain rfl | ⟨_, ⟨d, hd, -⟩, -⟩ := ReflTransGen.cases_head (h.leads y hy)
    · exact mem_keys_of_latest? hc
    · exact mem_keys_of_latest? hd
  have hlength := (List.subperm_of_subset h.nodup hsubset).length_le
  rwa [OrderedMap.keys, List.length_map] at hlength

/-- A walk that meets a class again goes round in circles among what it has come by. -/
theorem strays_of_mem (h : r.Walked target seen name) {c : ClassInfo}
    (hc : r.latest? name = some c) (hseen : c.name ∈ seen) : r.Strays target := by
  have hstep : r.LatestImporter name c.name := ⟨c, hc, rfl⟩
  have hstays : ∀ y ∈ seen, ∀ z, r.LatestImporter y z → z ∈ seen := by
    intro y hy z hz
    by_cases hname : y = name
    · subst hname
      exact hz.unique hstep ▸ hseen
    · exact h.within y hy hname z hz
  exact .inr ⟨c.name, .tail' h.path hstep, .tail' (h.leads _ hseen) hstep,
    fun hback => h.fresh (mem_of_transGen hstays hseen hback)⟩

end Walked

/-! ## Its answers -/

theorem Answers.unique {current : Option ClassInfo} {answer answer' : Bool}
    (h : r.Answers target seen current answer) (h' : r.Answers target seen current answer') :
    answer = answer' := by
  induction h with
  | ended => cases h'; rfl
  | back _ hback =>
    cases h' with
    | back => rfl
    | repeated hne => exact absurd hback hne
    | onward hne => exact absurd hback hne
  | repeated hne hseen =>
    cases h' with
    | back _ hback => exact absurd hback hne
    | repeated => rfl
    | onward _ hfresh => exact absurd hseen hfresh
  | onward hne hfresh _ ih =>
    cases h' with
    | back _ hback => exact absurd hback hne
    | repeated _ hseen => exact absurd hseen hfresh
    | onward _ _ rest' => exact ih rest'

theorem Answers.correct {current : Option ClassInfo} {answer : Bool}
    (h : r.Answers target seen current answer) (hwalked : r.Walked target seen name)
    (hcurrent : r.latest? name = current) :
    if answer then TransGen r.LatestImporter target target else r.Strays target := by
  induction h generalizing name with
  | ended => exact .inl ⟨name, hwalked.path, hcurrent⟩
  | back _ hback =>
    subst hback
    exact .tail' hwalked.path ⟨_, hcurrent, rfl⟩
  | repeated _ hseen => exact hwalked.strays_of_mem hcurrent hseen
  | onward hne hfresh _ ih => exact ih (hwalked.step hcurrent hne hfresh) rfl

/-- With more steps than there are registered classes left to come by, the walk comes to its
answer. -/
theorem Walked.answers_leadsTo (h : r.Walked target seen name)
    (hsteps : r.importers.size < steps + seen.length) :
    r.Answers target seen (r.latest? name)
      (r.leadsTo target steps seen (r.latest? name)) := by
  induction steps generalizing seen name with
  | zero =>
    cases hc : r.latest? name with
    | none => exact .ended seen
    | some c =>
      have hlength := h.length_le hc
      omega
  | succ steps ih =>
    cases hc : r.latest? name with
    | none => exact .ended seen
    | some c =>
      rw [leadsTo]
      by_cases hback : c.name = target
      · rw [if_pos hback]
        exact .back seen hback
      · rw [if_neg hback]
        by_cases hseen : c.name ∈ seen
        · rw [if_pos hseen]
          exact .repeated hback hseen
        · rw [if_neg hseen]
          refine .onward hback hseen (ih (h.step hc hback hseen) ?_)
          rw [List.length_cons]
          omega

theorem answers_isChained (r : Importers) (name : String) :
    r.Answers name [] (r.latest? name) (r.isChained name) := by
  refine (Walked.start r name).answers_leadsTo ?_
  rw [List.length_nil]
  omega

theorem isChained_iff_transGen :
    r.isChained name = true ↔ TransGen r.LatestImporter name name := by
  have hcorrect := (answers_isChained r name).correct (.start r name) rfl
  cases hchained : r.isChained name with
  | true =>
    rw [hchained, if_pos rfl] at hcorrect
    exact iff_of_true rfl hcorrect
  | false =>
    rw [hchained, if_neg Bool.false_ne_true] at hcorrect
    exact iff_of_false Bool.false_ne_true hcorrect.not_transGen

theorem isChained_eq_false_iff : r.isChained name = false ↔ r.Strays name := by
  constructor
  · intro hchained
    have hcorrect := (answers_isChained r name).correct (.start r name) rfl
    rwa [hchained, if_neg Bool.false_ne_true] at hcorrect
  · intro hstrays
    rw [← Bool.not_eq_true, isChained_iff_transGen]
    exact hstrays.not_transGen

/-- A chain of latest importers that leads back to the class is noticed. -/
theorem isChained_of_linked (h : r.Linked name chain) (hmem : name ∈ chain) :
    r.isChained name = true :=
  isChained_iff_transGen.2 (h.transGen hmem)

/-! ## Registers that calls lead to -/

inductive Call where
  | register (importing : ClassInfo) (name : String)
  | forget (importing : String)

def perform (r : Importers) : Call → Importers
  | .register importing name => r.register importing name
  | .forget importing => r.forget importing

/-- The register after calls in a row. -/
def after (calls : List Call) : Importers := calls.foldl perform {}

/-- The importers of one class, as a call leaves them. -/
def leaves (name : String) (cs : List ClassInfo) : Call → List ClassInfo
  | .register importing imported => if imported = name then cs ++ [importing] else cs
  | .forget importing => cs.eraseP (·.name == importing)

/-- The importers of one class after calls in a row. -/
def importersAfter (calls : List Call) (name : String) : List ClassInfo :=
  calls.foldl (leaves name) []

theorem of_perform (r : Importers) (c : Call) (name : String) :
    (r.perform c).of name = leaves name (r.of name) c := by
  cases c with
  | register importing imported =>
    by_cases hname : imported = name
    · subst hname
      rw [perform, leaves, if_pos rfl, of, register, OrderedMap.get?_insert_self,
        Option.getD_some]
    · rw [perform, leaves, if_neg hname, of, register, OrderedMap.get?_insert_of_ne _ hname, of]
  | forget importing =>
    rw [perform, leaves, of, forget,
      OrderedMap.get?_map r.importers (List.eraseP (·.name == importing)), of]
    cases r.importers.get? name <;> rfl

/-- Each class has its importers for itself: other classes' importers do not matter to them. -/
theorem of_foldl_perform (r : Importers) (calls : List Call) (name : String) :
    (calls.foldl perform r).of name = calls.foldl (leaves name) (r.of name) := by
  induction calls generalizing r with
  | nil => rfl
  | cons c calls ih => rw [List.foldl_cons, List.foldl_cons, ih, of_perform]

/-- After any calls the latest importer of a class is the last that has been registered for it and
not been forgotten.  The walk along latest importers ends, with one answer: yes if it leads back to
where it began, and no if the chain ends or runs into a circle elsewhere. -/
theorem walk_decides_circle (calls : List Call) (name : String) :
    (∀ other, (after calls).latest? other = (importersAfter calls other).getLast?) ∧
      (∀ answer, (after calls).Answers name [] ((after calls).latest? name) answer ↔
        answer = (after calls).isChained name) ∧
      ((after calls).isChained name = true ↔
        TransGen (after calls).LatestImporter name name) ∧
      ((after calls).isChained name = false ↔ (after calls).Strays name) := by
  have hanswers := answers_isChained (after calls) name
  refine ⟨fun other => ?_, fun answer => ⟨fun h => h.unique hanswers, fun h => h ▸ hanswers⟩,
    isChained_iff_transGen, isChained_eq_false_iff⟩
  exact congrArg List.getLast? (of_foldl_perform {} calls other)

/-- The circle of `a.B` and `a.C` does not come by `a.A`. -/
example : (after [.register { name := "a.B" } "a.C", .register { name := "a.C" } "a.B",
    .register { name := "a.B" } "a.A"]).isChained "a.A" = false := by
  decide

/-- Once the later importer is forgotten, the circle of the earlier one is closed again. -/
example : (after [.register { name := "a.A" } "a.B", .register { name := "a.B" } "a.A",
    .register { name := "a.C" } "a.A", .forget "a.C"]).isChained "a.A" = true := by
  decide

end Importers
end Wiring
