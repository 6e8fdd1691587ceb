import Wiring.OrderedMap

/-!
# Tags

A tag is one annotation on a class or a method: the name of its type and the attributes that
the declaration spells out.  An attribute left out has no value here; whoever reads it applies
the default that the annotation type documents.
-/

namespace Wiring

mutual

/-- The value of an attribute.  A class literal is the dotted binary name of the class. -/
inductive Attribute where
  | string (value : String)
  | bool (value : Bool)
  | int (value : Int)
  | classRef (name : String)
  | enum (typeName constant : String)
  | tag (value : Tag)
  | array (values : List Attribute)

inductive Tag where
  | mk (typeName : String) (attributes : List (String × Attribute))

end

instance : Inhabited Attribute := ⟨.bool false⟩
instance : Inhabited Tag := ⟨.mk "" []⟩

namespace Attribute

def string? : Attribute → Option String
  | string s => some s
  | _ => none

def classRef? : Attribute → Option String
  | classRef name => some name
  | _ => none

def tag? : Attribute → Option Tag
  | tag t => some t
  | _ => none

/-- What `f` finds in the value, which counts as an array of one element unless it is an
array.  Elements that `f` does not accept are passed over. -/
def flatten (f : Attribute → Option α) : Attribute → List α
  | array vs => vs.filterMap f
  | v => (f v).toList

/-- What `f` finds in the value or in the one element of an array. -/
def single (f : Attribute → Option α) : Attribute → Option α
  | array [v] => f v
  | array _ => none
  | v => f v

end Attribute

namespace Tag

def typeName : Tag → String
  | mk name _ => name

def attributes : Tag → List (String × Attribute)
  | mk _ as => as

def attribute? (t : Tag) (name : String) : Option Attribute :=
  OrderedMap.lookup name t.attributes

def hasAttribute (t : Tag) (name : String) : Bool := (t.attribute? name).isSome

def string? (t : Tag) (name : String) : Option String :=
  (t.attribute? name).bind (·.single Attribute.string?)

def strings (t : Tag) (name : String) : List String :=
  match t.attribute? name with
  | some v => v.flatten Attribute.string?
  | none => []

def bool? (t : Tag) (name : String) : Option Bool :=
  match t.attribute? name with
  | some (.bool b) => some b
  | _ => none

def int? (t : Tag) (name : String) : Option Int :=
  match t.attribute? name with
  | some (.int i) => some i
  | _ => none

def classRef? (t : Tag) (name : String) : Option String :=
  (t.attribute? name).bind (·.single Attribute.classRef?)

def classRefs (t : Tag) (name : String) : List String :=
  match t.attribute? name with
  | some v => v.flatten Attribute.classRef?
  | none => []

/-- The tags that are the value of an attribute. -/
def nested (t : Tag) (name : String) : List Tag :=
  match t.attribute? name with
  | some v => v.flatten Attribute.tag?
  | none => []

/-- The first tag of that type. -/
def find? (typeName : String) (ts : List Tag) : Option Tag :=
  ts.find? (·.typeName == typeName)

end Tag
end Wiring
