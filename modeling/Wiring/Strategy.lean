import Wiring.Definition
import Wiring.Environment
import Wiring.Failure
import Wiring.NameFilter

/-!
# Strategies

Loaded types may produce strategies, which extend resolution: selectors compute imports,
registrars add bean definitions, groups put deferred imports together, factories load property
sources and conditions leave classes out.
-/

namespace Wiring

/-- What a strategy may look at. -/
structure Surroundings where
  environment : Environment
  resources : Resources
  registry : Registry
  /-- Metadata of the loaded types. -/
  types : List ClassInfo

/-- When a condition is asked: while classes are parsed, or while their beans are registered. -/
inductive Phase where
  | parse
  | register
deriving Repr, DecidableEq

/-- Chooses the names of the classes to import from the class that imports it. -/
structure Selector where
  select : ClassInfo → List String
  /-- Names that the selector never wants resolved. -/
  exclusion : Option NameFilter := none

/-- A selector asked after all classes of the run have been parsed. -/
structure DeferredSelector extends Selector where
  /-- The group type that collects its choices with those of others. -/
  group : Option String := none
  order : Option Int := none

/-- Adds bean definitions for the class that imports it. -/
structure Registrar where
  register : ClassInfo → Registry → Registry

/-- A class to import, with the configuration class on whose behalf. -/
structure GroupEntry where
  origin : ClassInfo
  className : String

/-- A call to a group. -/
inductive GroupCall where
  /-- The group is handed a selector and the class that imports it. -/
  | process (importing : ClassInfo) (selector : DeferredSelector)
  /-- The group is asked for its entries. -/
  | selectImports

/-- Puts together the choices of the deferred selectors that it is handed.  A group may keep any
state, so what it does at a call depends on all the calls before. -/
structure Group where
  /-- The classes that it asks a selector about when it is handed that selector. -/
  asks : (calls : List GroupCall) → ClassInfo → DeferredSelector → List ClassInfo
  /-- The entries that it gives. -/
  entries : (calls : List GroupCall) → List GroupEntry

namespace Group

/-- What has been chosen and not yet given, one call later. -/
def collect (held : List GroupEntry) : GroupCall → List GroupEntry
  | .process c s => held ++ (s.select c).map (⟨c, ·⟩)
  | .selectImports => []

def held (calls : List GroupCall) : List GroupEntry := calls.foldl collect []

/-- Asks each selector once, about the class that imports it, and gives what was chosen in that
order. -/
def default : Group where
  asks _ c _ := [c]
  entries := held

end Group

/-- Loads a property source from a resource, given the name and the encoding that the
declaration spells out. -/
structure SourceFactory where
  load : (name encoding : Option String) → Resource → Except IoError PropertySource

structure Condition where
  /-- The one phase in which it is asked; otherwise in both. -/
  phase : Option Phase := none
  order : Option Int := none
  holds : Surroundings → ClassInfo → Bool

inductive Strategy where
  | selector (s : Selector)
  | deferredSelector (s : DeferredSelector)
  | registrar (r : Registrar)
  | group (g : Group)
  | sourceFactory (f : SourceFactory)
  | condition (c : Condition)

def Strategy.kind : Strategy → StrategyKind
  | selector _ => .selector
  | deferredSelector _ => .deferredSelector
  | registrar _ => .registrar
  | group _ => .group
  | sourceFactory _ => .sourceFactory
  | condition _ => .condition

/-- How a type produces its strategy.  It may first change the property sources, if the
environment lets it. -/
structure Maker where
  effect : PropertySources → PropertySources := id
  make : Surroundings → Except String Strategy

/-- A type that is loaded, not only described. -/
structure LoadedType where
  info : ClassInfo
  maker : Option Maker := none

def LoadedType.name (t : LoadedType) : String := t.info.name

/-- The loaded types.  Of two with one name the later counts. -/
structure TypeTable where
  types : List LoadedType := []

namespace TypeTable

def find? (ts : TypeTable) (name : String) : Option LoadedType :=
  ts.types.reverse.find? (·.name == name)

end TypeTable

/-- A definition with the name of its bean. -/
structure NamedDefinition where
  beanName : String
  definition : Definition LoadedType
deriving Inhabited

end Wiring
