import Wiring.Property.Source

/-!
# Ordered property sources

The sources of an environment, those of higher precedence first.  Adding a source moves it,
if a source of its name is present.
-/

namespace Wiring

inductive SourcesError where
  | notFound (name : String)
  /-- A source cannot be placed before or after itself. -/
  | selfRelative (name : String)
deriving Repr, DecidableEq

def SourcesError.message : SourcesError → String
  | notFound name => "PropertySource named '" ++ name ++ "' does not exist"
  | selfRelative name =>
    "PropertySource named '" ++ name ++ "' cannot be added relative to itself"

structure PropertySources where
  sources : List PropertySource := []
deriving Inhabited

namespace PropertySources

def names (ps : PropertySources) : List String := ps.sources.map (·.name)

def get? (ps : PropertySources) (name : String) : Option PropertySource :=
  ps.sources.find? (·.name == name)

def contains (ps : PropertySources) (name : String) : Bool := (ps.get? name).isSome

/-- The value of the first source that has the key. -/
def property? (ps : PropertySources) (key : String) : Option String :=
  PropertySource.firstOf key ps.sources

/-- Without the first source of that name. -/
def erase (ps : PropertySources) (name : String) : PropertySources :=
  ⟨ps.sources.eraseP (·.name == name)⟩

def addFirst (ps : PropertySources) (s : PropertySource) : PropertySources :=
  ⟨s :: (ps.erase s.name).sources⟩

def addLast (ps : PropertySources) (s : PropertySource) : PropertySources :=
  ⟨(ps.erase s.name).sources ++ [s]⟩

/-- Puts `new` in place of the first source of that name. -/
def splice (name : String) (new : PropertySource → List PropertySource) :
    List PropertySource → List PropertySource
  | [] => []
  | s :: ss => if s.name == name then new s ++ ss else s :: splice name new ss

/-- Places `s` relative to the source named `anchor`.  A source of the name of `s` is taken
out first, and stays out when there is no `anchor`.  Returns the sources also on failure. -/
def place (ps : PropertySources) (anchor : String) (s : PropertySource)
    (around : PropertySource → List PropertySource) : PropertySources × Except SourcesError Unit :=
  if anchor = s.name then (ps, .error (.selfRelative s.name))
  else
    let rest := ps.erase s.name
    if rest.contains anchor then (⟨splice anchor around rest.sources⟩, .ok ())
    else (rest, .error (.notFound anchor))

def addBefore (ps : PropertySources) (anchor : String) (s : PropertySource) :
    PropertySources × Except SourcesError Unit :=
  ps.place anchor s fun a => [s, a]

def addAfter (ps : PropertySources) (anchor : String) (s : PropertySource) :
    PropertySources × Except SourcesError Unit :=
  ps.place anchor s fun a => [a, s]

/-- Puts `s` in the position of the source named `name`. -/
def replace (ps : PropertySources) (name : String) (s : PropertySource) :
    PropertySources × Except SourcesError Unit :=
  if ps.contains name then (⟨splice name (fun _ => [s]) ps.sources⟩, .ok ())
  else (ps, .error (.notFound name))

/-- Applies `f` to the first source of that name. -/
def modify (ps : PropertySources) (name : String) (f : PropertySource → PropertySource) :
    PropertySources :=
  ⟨splice name (fun s => [f s]) ps.sources⟩

end PropertySources
end Wiring
