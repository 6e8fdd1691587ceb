import Wiring.Strategy
import Wiring.WellKnown

/-!
# Views

A view is a class as resolution sees it: a loaded type, or metadata that was only read.
-/

namespace Wiring

inductive View where
  | loaded (type : LoadedType)
  | read (info : ClassInfo)

instance : Inhabited View := ⟨.read { name := "" }⟩

namespace View

def info : View → ClassInfo
  | loaded t => t.info
  | read c => c

def name (v : View) : String := v.info.name

def isLoaded : View → Bool
  | loaded _ => true
  | read _ => false

/-- The methods come in the order of their declaration.  Loading a type loses that order. -/
def hasStableOrder (v : View) : Bool := !v.isLoaded

/-- The empty view that excluded names resolve to. -/
def object : View := .read { name := WellKnown.object }

def isObject (v : View) : Bool := v.name == WellKnown.object

/-- The view itself, or the empty view if the filter excludes it. -/
def filtered (v : View) (f : NameFilter) : View := if f.excludes v.name then object else v

end View
end Wiring
