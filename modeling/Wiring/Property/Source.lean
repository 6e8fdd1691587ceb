import Wiring.OrderedMap

/-!
# Property sources

A property source has a name and answers keys.  Plain sources hold properties; a composite
asks its members in order.  Sources read from a resource remember its name, which they take
when they become a member of a composite.
-/

namespace Wiring

inductive PropertySource where
  | map (name : String) (properties : OrderedMap String String)
  | resource (name resourceName : String) (properties : OrderedMap String String)
  | composite (name : String) (members : List PropertySource)

namespace PropertySource

instance : Inhabited PropertySource := ⟨.map "" {}⟩

def name : PropertySource → String
  | map name _ => name
  | resource name _ _ => name
  | composite name _ => name

mutual

def get? (key : String) : PropertySource → Option String
  | map _ properties => properties.get? key
  | resource _ _ properties => properties.get? key
  | composite _ members => firstOf key members

/-- The value of the first source that has the key. -/
def firstOf (key : String) : List PropertySource → Option String
  | [] => none
  | s :: ss =>
    match get? key s with
    | some v => some v
    | none => firstOf key ss

end

def contains (s : PropertySource) (key : String) : Bool := (s.get? key).isSome

def isComposite : PropertySource → Bool
  | composite _ _ => true
  | _ => false

/-- A source read from a resource, under the name of the resource; any other as it is. -/
def underResourceName : PropertySource → PropertySource
  | resource _ resourceName properties => resource resourceName resourceName properties
  | s => s

/-- Adds a member at the end, unless there is one of that name. -/
def append (s member : PropertySource) : PropertySource :=
  match s with
  | composite name members =>
    if members.any (·.name == member.name) then s else composite name (members ++ [member])
  | s => s

/-- Adds a member at the front in place of those of that name. -/
def prepend (s member : PropertySource) : PropertySource :=
  match s with
  | composite name members => composite name (member :: members.filter (·.name != member.name))
  | s => s

end PropertySource
end Wiring
