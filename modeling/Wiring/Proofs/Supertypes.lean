import Wiring.Proofs.MetaTags

/-!
# Supertypes

A class can stand in for a type if and only if it has the name of the type, or a chain of
superclasses and interfaces leads from the class to one that names it.  The classes in between have
to be known and lie outside the platform; the type itself need not.  Hierarchies may lead in circles
and to names that nothing is known of.

The search for supertypes does not enter the class it is asked for again: what the world says of its
name may be another class than the view.
-/

namespace Wiring

open Relation

theorem ClassInfo.mem_parents {c : ClassInfo} {name : String} :
    name ∈ c.parents ↔ c.superClass = some name ∨ name ∈ c.interfaces := by
  rw [parents, List.mem_append, Option.mem_toList]

namespace Resolver

/-- What `v` finds under a name.  A class that is loaded looks among the loaded types first.  A
class that was read finds the class as it is read; only if there is none to read, the type as it is
loaded, and else the built-in description. -/
inductive Finds (r : Resolver) (v : View) (name : String) : ClassInfo → Prop
  | ofLoaded {c : ClassInfo} (hv : v.isLoaded = true) (hc : r.Describes name c) : r.Finds v name c
  | read {c : ClassInfo} (hv : v.isLoaded = false) (hc : r.reader.read name = .ok c) :
      r.Finds v name c
  | loaded {t : LoadedType} {e : MetadataError} (hv : v.isLoaded = false)
      (he : r.reader.read name = .error e) (hnotFound : e.isNotFound = true)
      (ht : r.types.find? name = some t) : r.Finds v name t.info
  | builtin {c : ClassInfo} {e : MetadataError} (hv : v.isLoaded = false)
      (he : r.reader.read name = .error e) (hnotFound : e.isNotFound = true)
      (ht : r.types.find? name = none) (hc : builtin? name = some c) : r.Finds v name c

/-- The first class names the second one as its superclass or as an interface, and `v` finds it
outside the platform and under another name than its own. -/
def Inherits (r : Resolver) (v : View) (c d : ClassInfo) : Prop :=
  ∃ name, (c.superClass = some name ∨ name ∈ c.interfaces) ∧ name ≠ v.name ∧
    r.isPlatform name = false ∧ r.Finds v name d

/-- The parents of a class outside the platform. -/
def parentNames (r : Resolver) (c : ClassInfo) : List String :=
  c.parents.filter (!r.isPlatform ·)

/-- The search for the supertypes of a view, at most `depth` steps deep. -/
def supertypeWalk (r : Resolver) (v : View) (depth : Nat) : Walk :=
  Walk.visit (r.hierarchy? v.isLoaded) r.parentNames depth { seen := [v.name] }
    (r.parentNames v.info)

variable {r : Resolver} {v : View} {c d : ClassInfo} {name : String}

theorem supertypes_eq (r : Resolver) (v : View) :
    r.supertypes v = (r.supertypeWalk v r.maxDepth).found := rfl

theorem finds_iff_of_loaded (hv : v.isLoaded = true) :
    r.Finds v name c ↔ r.Describes name c := by
  constructor
  · rintro (⟨_, hc⟩ | ⟨hread, _⟩ | ⟨hread, _⟩ | ⟨hread, _⟩)
    · exact hc
    all_goals
      rw [hv] at hread
      cases hread
  · exact .ofLoaded hv

theorem hierarchy?_eq_some_iff_finds :
    r.hierarchy? v.isLoaded name = some c ↔ r.Finds v name c := by
  cases hv : v.isLoaded with
  | true => rw [hierarchy?_eq_some_iff, finds_iff_of_loaded hv]
  | false =>
    rw [hierarchy?, if_neg Bool.false_ne_true]
    constructor
    · intro h
      split at h
      · rename_i c' hc
        obtain rfl := Option.some.inj h
        exact .read hv hc
      · rename_i e he
        split at h
        · rename_i hnotFound
          cases ht : r.types.find? name with
          | some t =>
            rw [ht] at h
            obtain rfl := Option.some.inj h
            exact .loaded hv he hnotFound ht
          | none =>
            rw [ht] at h
            exact .builtin hv he hnotFound ht h
        · cases h
    · rintro (⟨hloaded, _⟩ | ⟨_, hc⟩ | ⟨_, he, hnotFound, ht⟩ | ⟨_, he, hnotFound, ht, hc⟩)
      · rw [hv] at hloaded
        cases hloaded
      · rw [hc]
      · simp [he, hnotFound, ht]
      · simp [he, hnotFound, ht, hc]

theorem mem_parentNames : name ∈ r.parentNames c ↔
    (c.superClass = some name ∨ name ∈ c.interfaces) ∧ r.isPlatform name = false := by
  simp [parentNames, ClassInfo.mem_parents]

/-- The supertypes of a view are those that a chain of superclasses and interfaces leads to. -/
theorem mem_supertypes_iff : d ∈ r.supertypes v ↔ TransGen (r.Inherits v) v.info d := by
  have hleads : Walk.Leads (r.hierarchy? v.isLoaded) r.parentNames [v.name] = r.Inherits v := by
    funext c d
    simp only [Walk.Leads, Inherits, mem_parentNames, List.mem_singleton,
      hierarchy?_eq_some_iff_finds, eq_iff_iff]
    grind
  rw [supertypes_eq, supertypeWalk, ← hleads]
  exact Walk.mem_found_iff r.parentNames mem_knownNames_of_hierarchy? r.unseen_knownNames_lt

/-- The search comes to an end, and the class can stand in for the target if and only if it has its
name or a chain of superclasses and interfaces leads to a class that names it. -/
theorem isAssignable_iff_chain (r : Resolver) (v : View) (target : String) :
    (∀ depth, r.maxDepth ≤ depth → r.supertypeWalk v depth = r.supertypeWalk v r.maxDepth) ∧
      (r.isAssignable v target = true ↔ v.name = target ∨
        ∃ c, ReflTransGen (r.Inherits v) v.info c ∧
          (c.superClass = some target ∨ target ∈ c.interfaces)) := by
  constructor
  · intro depth hdepth
    exact Walk.visit_eq_of_lt r.parentNames mem_knownNames_of_hierarchy? _
      (Nat.lt_of_lt_of_le r.unseen_knownNames_lt hdepth) r.unseen_knownNames_lt
  · rw [isAssignable, Bool.or_eq_true, beq_iff_eq, List.any_eq_true]
    simp only [List.mem_cons, mem_supertypes_iff, List.contains_iff_mem, ClassInfo.mem_parents,
      reflTransGen_iff_eq_or_transGen]

/-- Two classes that extend each other and name an interface that nothing is known of. -/
def circularHierarchy : Resolver where
  reader.index.classes :=
    [{ name := "app.Base", superClass := some "app.Derived", interfaces := ["lib.Unknown"] },
     { name := "app.Derived", superClass := some "app.Base",
       interfaces := [WellKnown.deferredImportSelector] }]

example : ["app.Derived", "lib.Unknown", WellKnown.importSelector, WellKnown.registrar].map
    (circularHierarchy.isAssignable (.read { name := "app.Leaf", superClass := some "app.Base" })) =
      [true, true, true, false] := by decide +kernel

end Resolver
end Wiring
