import Wiring.Property.Loading
import Wiring.Run.Strategies

/-!
# Property sources in a run

A property source tag adds the sources at its locations to the environment.  Later sources of
the run come before earlier ones, and all come after those that were there before the run.
-/

namespace Wiring

/-- How the added sources grow by one.  A source whose name was added before joins a composite
of that name as its first member.  Any other goes just before the source added last, the first
one to the end. -/
def PropertySources.accumulate (ps : PropertySources) (added : List String)
    (s : PropertySource) : PropertySources × Except SourcesError (List String) :=
  match if added.contains s.name then ps.get? s.name else none with
  | some present =>
    let grown :=
      if present.isComposite then present.prepend s.underResourceName
      else
        ((PropertySource.composite s.name []).append s.underResourceName).append
          present.underResourceName
    (ps.modify s.name fun _ => grown, .ok added)
  | none =>
    match added.getLast? with
    | none => (ps.addLast s, .ok (added ++ [s.name]))
    | some last =>
      match ps.addBefore last s with
      | (ps, .ok _) => (ps, .ok (added ++ [s.name]))
      | (ps, .error e) => (ps, .error e)

namespace RunM

def addSource (source : PropertySource) : RunM Unit := do
  let s ← get
  let (sources, added) := s.environment.sources.accumulate s.addedSources source
  set { s with environment := { s.environment with sources } }
  match added with
  | .ok addedSources => modify fun s => { s with addedSources }
  | .error e => throw (.propertySource e)

/-- How a source is loaded: by the factory of a type, or by default. -/
structure SourceLoader where
  typeName : Option String
  factory : SourceFactory

def sourceLoader (w : World) (className : Option String) : RunM SourceLoader := do
  match className.filter (· ≠ WellKnown.propertySourceFactory) with
  | some name => return ⟨some name, ← produceSourceFactory w name⟩
  | none => return ⟨none, ⟨PropertySource.load⟩⟩

def loadSource (w : World) (loader : SourceLoader) (name encoding : Option String)
    (location : String) : RunM PropertySource := do
  let resolved ← ofExcept (((← get).environment.resolveStrict location).mapError .placeholder)
  let resource := w.resources.get resolved
  if let some typeName := loader.typeName then
    emit (.sourceLoaded typeName name encoding resource.description resource.isPresent)
  ofExcept ((loader.factory.load name encoding resource).mapError (.resource resource.description))

/-- Adds the sources at the locations in order.  A missing one is left out if it `mayMiss`. -/
def addLocations (w : World) (loader : SourceLoader) (name encoding : Option String)
    (mayMiss : Bool) : List String → RunM Unit
  | [] => return ()
  | location :: locations => do
    let source ← tryCatch (some <$> loadSource w loader name encoding location) fun e =>
      if mayMiss && e.isMissingResource then pure none else throw e
    if let some source := source then addSource source
    addLocations w loader name encoding mayMiss locations

/-- Adds the sources of a property source tag on a class. -/
def addTaggedSources (w : World) (className : String) (t : Tag) : RunM Unit := do
  let spelled (name : String) := (t.string? name).filter (· ≠ "")
  let locations := t.strings "value"
  if locations.isEmpty then throw (.missingLocation className)
  let loader ← sourceLoader w (t.classRef? "factory")
  addLocations w loader (spelled "name") (spelled "encoding")
    ((t.bool? "ignoreResourceNotFound").getD false) locations

/-- Adds the sources that the property source tags on a class declare. -/
def addDeclaredSources (w : World) (c : ClassInfo) : RunM Unit :=
  (w.resolver.repeatable c WellKnown.propertySource WellKnown.propertySources).forM fun t => do
    if !(← get).environment.isReadOnly then addTaggedSources w c.name t

end RunM
end Wiring
