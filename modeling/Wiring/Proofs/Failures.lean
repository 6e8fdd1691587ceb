import Wiring.Resolver.Imports
import Wiring.Resolver.Methods
import Wiring.Scan

/-!
# Plain failures

A run that goes too deep fails for that reason only where it enters a class or takes a step, and
a failure is attributed only where a class is parsed or its imports are processed.  Resolving
names, collecting imports and bean methods, and scanning fail for other reasons and attribute
nothing.
-/

namespace Wiring

namespace Failure

/-- The failure comes from too many classes inside each other, whatever it was attributed to. -/
def isTooDeep : Failure → Bool
  | tooDeep _ _ => true
  | attributed _ _ cause => cause.isTooDeep
  | _ => false

/-- The failure comes from too many steps inside each other. -/
def isExhausted : Failure → Bool
  | exhausted => true
  | attributed _ _ cause => cause.isExhausted
  | _ => false

/-- The failure comes from nesting. -/
def isNesting (e : Failure) : Bool := e.isTooDeep || e.isExhausted

/-- The failure is neither attributed to a class nor a reported problem. -/
def isBare : Failure → Bool
  | problem _ => false
  | attributed _ _ _ => false
  | _ => true

/-- The failure is bare and does not come from nesting. -/
def isPlain (e : Failure) : Bool := e.isBare && !e.isNesting

theorem isBare_of_isPlain {e : Failure} (h : e.isPlain = true) : e.isBare = true := by
  rw [isPlain, Bool.and_eq_true] at h
  exact h.1

theorem isNesting_of_isPlain {e : Failure} (h : e.isPlain = true) : e.isNesting = false := by
  rw [isPlain, Bool.and_eq_true, Bool.not_eq_true'] at h
  exact h.2

theorem isTooDeep_within (activity : Activity) (className : String) (e : Failure) :
    (e.within activity className).isTooDeep = e.isTooDeep := by
  cases e <;> rfl

theorem isExhausted_within (activity : Activity) (className : String) (e : Failure) :
    (e.within activity className).isExhausted = e.isExhausted := by
  cases e <;> rfl

end Failure

/-- Any failure is plain. -/
def Tame {α : Type} (x : Except Failure α) : Prop := ∀ e, x = .error e → e.isPlain = true

section

variable {α β : Type}

theorem tame_ok (a : α) : Tame (.ok a) := fun _ h => by cases h

theorem tame_error {e : Failure} (he : e.isPlain = true) :
    Tame (.error e : Except Failure α) := by
  intro e' h
  obtain rfl := Except.error.inj h
  exact he

theorem tame_bind {x : Except Failure α} {f : α → Except Failure β} (hx : Tame x)
    (hf : ∀ a, Tame (f a)) : Tame (x >>= f) := by
  cases x with
  | ok a => exact hf a
  | error e => exact tame_error (hx e rfl)

theorem tame_map {x : Except Failure α} (f : α → β) (hx : Tame x) : Tame (x.map f) := by
  cases x with
  | ok a => exact tame_ok _
  | error e => exact tame_error (hx e rfl)

theorem tame_foldlM {f : β → α → Except Failure β} (hf : ∀ b a, Tame (f b a)) (as : List α)
    (b : β) : Tame (as.foldlM f b) := by
  induction as generalizing b with
  | nil => exact tame_ok _
  | cons a as ih => exact tame_bind (hf b a) ih

theorem tame_mapM {f : α → Except Failure β} (hf : ∀ a, Tame (f a)) (as : List α) :
    Tame (as.mapM f) := by
  induction as with
  | nil => exact tame_ok _
  | cons a as ih =>
    rw [List.mapM_cons]
    exact tame_bind (hf a) fun b => tame_bind ih fun bs => tame_ok _

end

namespace Resolver

variable (r : Resolver)

theorem tame_ofName (name : String) (f : NameFilter) : Tame (r.ofName name f) := by
  rw [ofName]
  split
  · exact tame_ok _
  · split
    · exact tame_ok _
    · split
      · exact tame_ok _
      · split
        · exact tame_ok _
        · exact tame_error rfl

theorem tame_ofDefinition (d : Definition LoadedType) (beanName : String) :
    Tame (r.ofDefinition d beanName) := by
  rw [ofDefinition]
  split
  · exact tame_ok _
  · exact tame_ok _
  · exact r.tame_ofName _ _
  · exact tame_error rfl

theorem tame_related (v : View) (name : String) : Tame (r.related v name) := by
  rw [related]
  split
  · exact tame_ok _
  · exact r.tame_ofName _ _

theorem tame_superClass (v : View) : Tame (r.superClass v) := by
  rw [superClass]
  split
  · exact tame_map _ (r.tame_related v _)
  · exact tame_ok _

theorem tame_load (v : View) : Tame (r.load v) := by
  cases v with
  | loaded t => exact tame_ok _
  | read c =>
    rw [load]
    split
    · exact tame_ok _
    · exact tame_error rfl

theorem tame_attributeClasses (v : View) (typeName field : String) :
    Tame (r.attributeClasses v typeName field) := by
  rw [attributeClasses]
  split
  · exact tame_ok _
  · exact tame_bind (tame_mapM (r.tame_related v) _) fun _ => tame_ok _

theorem tame_collect (depth : Nat) (st : Collected) (v : View) : Tame (r.collect depth st v) := by
  induction depth generalizing st v with
  | zero => exact tame_ok _
  | succ depth ih =>
    rw [collect]
    split
    · exact tame_ok _
    · refine tame_bind (tame_foldlM (fun st t => ?_) _ _) fun st =>
        tame_bind (r.tame_attributeClasses v _ _) fun _ => tame_ok _
      split
      · exact tame_ok _
      · exact ih st t

theorem tame_imports (v : View) : Tame (r.imports v) := tame_map _ (r.tame_collect _ _ v)

theorem tame_addInterfaceMethods (depth : Nat) (st : List String × ConfigClass) (v : View) :
    Tame (r.addInterfaceMethods depth st v) := by
  induction depth generalizing st v with
  | zero => exact tame_ok _
  | succ depth ih =>
    rw [addInterfaceMethods]
    refine tame_bind (tame_mapM (r.tame_related v) _) fun is => tame_foldlM (fun st i => ?_) _ _
    dsimp only
    split
    · exact tame_ok _
    · exact ih _ i

theorem tame_addAllMethods (record : ConfigClass) (v : View) : Tame (r.addAllMethods record v) :=
  tame_map _ (r.tame_addInterfaceMethods _ _ v)

end Resolver

theorem Scanner.tame_scan (s : Scanner) (request : ScanRequest) (reader : Reader)
    (registry : Registry) : Tame (s.scan request reader registry).1 := by
  have hread (registers : Bool) (names : List String) (a : Answer) :
      ∀ e, (readAll request reader registers a names).2 = some e → e.isPlain = true := by
    induction names generalizing a with
    | nil =>
      intro e h
      cases h
    | cons name names ih =>
      rw [readAll]
      split
      · exact ih a
      · split
        · intro e h
          obtain rfl := Option.some.inj h
          rfl
        · split
          · exact ih _
          · exact ih a
  cases s with
  | fixed found => exact tame_ok _
  | reading names registers =>
    rw [scan]
    split
    · exact tame_ok _
    · rename_i a e h
      exact tame_error (hread _ _ _ e (by rw [h]))

end Wiring
