import Wiring.OrderedMap
import Wiring.Metadata.ClassInfo

/-!
# Bean definitions

A bean definition says which class a bean has and how that class is known: by its metadata, as
a loaded type, or by name only.
-/

namespace Wiring

/-- `τ` is what a definition holds of a loaded type: the type itself or, in the registry, its
metadata.  The strategies that a type makes look into the registry, so the registry cannot hold
types. -/
structure Definition (τ : Type) where
  className : Option String := none
  /-- Metadata handed in with the definition. -/
  given : Option ClassInfo := none
  /-- The loaded type that the definition stands for. -/
  loadedType : Option τ := none
  factoryMethod : Option String := none
  /-- The definition that this one decorates. -/
  originating : Option (Definition τ) := none
  isLazy : Bool := false
deriving Inhabited

namespace Definition

variable {τ : Type}

def ofClassName (name : String) : Definition τ := { className := some name }

def ofMetadata (info : ClassInfo) : Definition τ :=
  { className := some info.name, given := some info }

def ofLoaded (name : String) (type : τ) : Definition τ :=
  { className := some name, loadedType := some type }

/-- The metadata handed in, if it describes the bean's class itself. -/
def metadata? (d : Definition τ) : Option ClassInfo :=
  d.given.filter fun info => d.className == some info.name

end Definition

/-- The definitions of a container by bean name, in the order of registration. -/
abbrev Registry := OrderedMap String (Definition ClassInfo)

end Wiring
