import Wiring.OrderedMap
import Wiring.Metadata.ClassInfo

/-!
# Who imported whom

The register of imports outlives the run; the stack holds the classes whose imports are being
processed.  A class on the stack whose chain of latest importers leads back to it is imported
circularly.
-/

namespace Wiring

/-- The importers of each class, in the order of registration. -/
structure Importers where
  importers : OrderedMap String (List ClassInfo) := {}

namespace Importers

def of (r : Importers) (name : String) : List ClassInfo := (r.importers.get? name).getD []

def register (r : Importers) (importing : ClassInfo) (name : String) : Importers :=
  ⟨r.importers.insert name (r.of name ++ [importing])⟩

/-- The importer registered last. -/
def latest? (r : Importers) (name : String) : Option ClassInfo := (r.of name).getLast?

theorem latest?_register_self (r : Importers) (importing : ClassInfo) (name : String) :
    (r.register importing name).latest? name = some importing := by
  rw [latest?, of, register, OrderedMap.get?_insert_self, Option.getD_some,
    List.getLast?_append, List.getLast?_singleton, Option.some_or]

theorem latest?_register_of_ne (r : Importers) (importing : ClassInfo) {name other : String}
    (h : name ≠ other) : (r.register importing name).latest? other = r.latest? other := by
  rw [latest?, latest?, of, of, register, OrderedMap.get?_insert_of_ne _ h]

/-- Forgets one import by `importing` of every class that it imported. -/
def forget (r : Importers) (importing : String) : Importers :=
  ⟨⟨r.importers.entries.map fun e => (e.1, e.2.eraseP (·.name == importing))⟩⟩

/-- Follows latest importers from `current` until they lead to `target`, end, or meet a class
of `seen` again. -/
def leadsTo (r : Importers) (target : String) : (steps : Nat) → (seen : List String) →
    (current : Option ClassInfo) → Bool
  | 0, _, _ => false
  | _, _, none => false
  | steps + 1, seen, some c =>
    if c.name = target then true
    else if c.name ∈ seen then false
    else r.leadsTo target steps (c.name :: seen) (r.latest? c.name)

/-- The chain of latest importers of the class leads back to it.  The chain has at most one
step for every registered class before it ends or repeats. -/
def isChained (r : Importers) (name : String) : Bool :=
  r.leadsTo name (r.importers.size + 2) [] (r.latest? name)

end Importers

/-- The classes whose imports are being processed, the innermost first. -/
abbrev ImportStack := List ClassInfo

namespace ImportStack

def holds (stack : ImportStack) (name : String) : Bool := stack.any (·.name == name)

/-- The simple names, the innermost first. -/
def display (stack : ImportStack) : String :=
  "[" ++ String.intercalate "->" (stack.map (·.simpleName)) ++ "]"

/-- The class is on the stack and its chain of importers leads back to it. -/
def isCircular (stack : ImportStack) (r : Importers) (name : String) : Bool :=
  holds stack name && r.isChained name

end ImportStack
end Wiring
