import Wiring.Resolver.Candidate

/-!
# Configuration classes

What a run collects for one configuration class: who imported it, its bean methods, the
resources it imports and the registrars attached to it.
-/

namespace Wiring

/-- A bean method, with the class it was collected for. -/
structure BeanMethod where
  method : Method
  owner : String

/-- What identifies a method: the class that declares it, its name and its descriptor. -/
abbrev MethodKey := String × String × String

def Method.key (m : Method) : MethodKey := (m.declaringClass, m.name, m.descriptor)

/-- A registrar with the name of its type and the class that imported it. -/
structure AttachedRegistrar where
  typeName : String
  registrar : Registrar
  importing : ClassInfo

structure ConfigClass where
  view : View
  beanName : Option String := none
  /-- The classes that imported it by name; none if it was registered explicitly. -/
  importedBy : OrderedMap String ClassInfo := {}
  beanMethods : OrderedMap MethodKey BeanMethod := {}
  /-- Locations, each with the reader that is not the default one. -/
  resources : OrderedMap String (Option String) := {}
  registrars : List AttachedRegistrar := []
  /-- The classes that it was collected from: its own, then its superclasses.  No step reads
  them: they are there to say where the rest comes from. -/
  sources : List View := []

namespace ConfigClass

/-- A class registered by itself: a seed, or the result of a scan. -/
def explicit (view : View) (beanName : Option String) : ConfigClass := { view, beanName }

def info (c : ConfigClass) : ClassInfo := c.view.info

def name (c : ConfigClass) : String := c.view.name

/-- A class reached through `importer`. -/
def imported (view : View) (importer : ConfigClass) : ConfigClass :=
  { view, importedBy := ⟨[(importer.name, importer.info)]⟩ }

def isImported (c : ConfigClass) : Bool := !c.importedBy.isEmpty

/-- Adds the importers of `other` that are new. -/
def mergeImporters (c other : ConfigClass) : ConfigClass :=
  { c with
    importedBy := other.importedBy.entries.foldl (fun m e => m.insertIfNew e.1 e.2)
      c.importedBy }

/-- Adds a bean method unless it is there. -/
def addMethod (c : ConfigClass) (m : Method) : ConfigClass :=
  { c with beanMethods := c.beanMethods.insertIfNew m.key ⟨m, c.name⟩ }

def addMethods (c : ConfigClass) (ms : List Method) : ConfigClass := ms.foldl addMethod c

/-- Adds a resource.  The default reader is not recorded. -/
def addResource (c : ConfigClass) (location : String) (reader : Option String) : ConfigClass :=
  { c with
    resources := c.resources.insert location (reader.filter (· != WellKnown.definitionReader)) }

def attach (c : ConfigClass) (r : AttachedRegistrar) : ConfigClass :=
  { c with registrars := c.registrars ++ [r] }

/-- An empty record of the same class, to collect on while the class itself is committed. -/
def detached (c : ConfigClass) : ConfigClass :=
  { view := c.view, beanName := c.beanName, importedBy := c.importedBy }

/-- Takes over what was collected on a detached record. -/
def absorb (c scratch : ConfigClass) : ConfigClass :=
  { c with
    beanMethods := scratch.beanMethods.entries.foldl (fun m e => m.insertIfNew e.1 e.2)
      c.beanMethods
    resources := scratch.resources.entries.foldl (fun m e => m.insert e.1 e.2) c.resources
    registrars := c.registrars ++ scratch.registrars
    sources := c.sources ++ scratch.sources }

/-- The faults that a class with proxied bean methods must not have. -/
def problems (c : ConfigClass) (r : Resolver) : List Problem :=
  let problem (kind : ProblemKind) (text : String) : Problem :=
    { kind, text, resource := c.info.resourceDescription, className := some c.name }
  let isProxied := (r.findTag? c.info WellKnown.configuration).any Resolver.isProxying
  let finals := if c.info.isFinal then
      [problem .finalConfigurationClass
        ("@Configuration class '" ++ c.info.simpleName ++
          "' may not be final. Remove the final modifier to continue.")]
    else []
  let methods := (c.beanMethods.values.map (·.method)).filter fun m =>
    !m.isStatic && !m.isOverridable
  if isProxied then
    finals ++ methods.map fun m =>
      problem .nonOverridableBeanMethod
        ("@Bean method '" ++ m.name ++
          "' must not be private or final; change the method's modifiers to continue")
  else []

/-- Lets the registrars add their definitions, in the order of attachment. -/
def invokeRegistrars (c : ConfigClass) (registry : Registry) : Registry :=
  c.registrars.foldl (fun reg r => r.registrar.register r.importing reg) registry

end ConfigClass
end Wiring
