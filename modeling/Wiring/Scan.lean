import Wiring.Environment
import Wiring.Resolver.Basic
import Wiring.Text.LetterCase

/-!
# Component scans

A scan tag asks for the components in some packages.  The request is worked out against the
environment; a scanner answers it with definitions.
-/

namespace Wiring

structure ScanRequest where
  /-- Without repetition, in the order of declaration. -/
  basePackages : List String
  usesDefaultFilters : Bool
  isLazy : Bool
  includeFilters : List Tag
  excludeFilters : List Tag
  /-- The class that declares the scan, which is never found by it. -/
  declaringClass : String

namespace ScanRequest

def isPackageDelimiter (c : Char) : Bool :=
  c = ',' || c = ';' || c = ' ' || c = '\t' || c = '\n'

/-- The request of a scan tag.  Without any package it covers that of the declaring class. -/
def ofTag (scan : Tag) (declaringClass : String) (env : Environment) : ScanRequest :=
  let declared := (scan.strings "basePackages" ++ scan.strings "value").flatMap fun package =>
    Text.tokens isPackageDelimiter (env.resolveLenient package)
  let ofClasses := (scan.classRefs "basePackageClasses").map packageName
  let packages := (declared ++ ofClasses).eraseDups
  { basePackages := if packages.isEmpty then [packageName declaringClass] else packages
    usesDefaultFilters := (scan.bool? "useDefaultFilters").getD true
    isLazy := (scan.bool? "lazyInit").getD false
    includeFilters := scan.nested "includeFilters"
    excludeFilters := scan.nested "excludeFilters"
    declaringClass }

/-- The class is in one of the packages or below it. -/
def covers (r : ScanRequest) (className : String) : Bool :=
  let package := packageName className
  r.basePackages.any fun base =>
    base.isEmpty || package == base || Text.startsWith (base ++ ".") package

end ScanRequest

/-- A filter tag fits the class: by its tags, or by its own name and those of its parents. -/
def filterFits (filter : Tag) (c : ClassInfo) : Bool :=
  let kind := match filter.attribute? "type" with
    | some (.enum _ constant) => constant
    | _ => "ANNOTATION"
  let classes := filter.classRefs "classes" ++ filter.classRefs "value"
  if kind = "ANNOTATION" then classes.any c.isTagged
  else if kind = "ASSIGNABLE_TYPE" then
    classes.any fun target => c.name == target || c.parents.contains target
  else false

/-- The class is a component in the sense of the request. -/
def ScanRequest.accepts (r : ScanRequest) (c : ClassInfo) : Bool :=
  c.isConcrete && !c.isTagType && !r.excludeFilters.any (filterFits · c) &&
    ((r.usesDefaultFilters && WellKnown.stereotypes.any c.isTagged) ||
      r.includeFilters.any (filterFits · c))

/-- The name with its first letter in lower case, unless its first two letters are both upper
case. -/
def decapitalize (name : String) : String :=
  match name.toList with
  | [] => ""
  | [c] => String.ofList (Text.lower c)
  | c :: d :: s =>
    if Text.isUpper c && Text.isUpper d then name
    else String.ofList (Text.lower c ++ d :: s)

/-- The name that a stereotype on the class spells out, or else its decapitalized short
name. -/
def componentName (c : ClassInfo) : String :=
  let spelled := WellKnown.stereotypes.findSome? fun stereotype =>
    ((c.tag? stereotype).bind (·.string? "value")).filter (· ≠ "")
  spelled.getD (decapitalize c.simpleName)

inductive Scanner where
  /-- Answers every request with the same definitions. -/
  | fixed (found : List NamedDefinition)
  /-- Reads the named classes.  If `registers`, a component is registered with its
  definition, and left out if its bean name is taken. -/
  | reading (classNames : List String) (registers : Bool)

namespace Scanner

/-- The answers so far, and the registry with what they registered. -/
structure Answer where
  found : List NamedDefinition := []
  registry : Registry

/-- The definition of a component. -/
def component {τ : Type} (request : ScanRequest) (c : ClassInfo) : Definition τ :=
  { Definition.ofMetadata c with isLazy := request.isLazy }

/-- Adds a component to the answer. -/
def addComponent (request : ScanRequest) (registers : Bool) (a : Answer) (c : ClassInfo) :
    Answer :=
  let name := componentName c
  if !registers then { a with found := a.found ++ [⟨name, component request c⟩] }
  else if a.registry.contains name then a
  else ⟨a.found ++ [⟨name, component request c⟩], a.registry.insert name (component request c)⟩

/-- Reads the classes that the request covers.  What was registered before a failure stays. -/
def readAll (request : ScanRequest) (reader : Reader) (registers : Bool) (a : Answer) :
    List String → Answer × Option Failure
  | [] => (a, none)
  | name :: names =>
    if name = request.declaringClass || !request.covers name then
      readAll request reader registers a names
    else
      match reader.read name with
      | .error e => (a, some (.metadata name e))
      | .ok c =>
        if request.accepts c then
          readAll request reader registers (addComponent request registers a c) names
        else readAll request reader registers a names

/-- The answer to a request, or why there is none, with the registry afterwards. -/
def scan (s : Scanner) (request : ScanRequest) (reader : Reader) (registry : Registry) :
    Except Failure (List NamedDefinition) × Registry :=
  match s with
  | fixed found => (.ok found, registry)
  | reading names registers =>
    match readAll request reader registers { registry } names with
    | (a, none) => (.ok a.found, a.registry)
    | (a, some e) => (.error e, a.registry)

end Scanner
end Wiring
