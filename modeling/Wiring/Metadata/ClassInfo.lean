import Wiring.Metadata.Tag

/-!
# Class metadata

What is known of a class without running it: its flags, its place in the type hierarchy, its
tags and its methods.
-/

namespace Wiring

/-- Names of classes are dotted binary names such as `com.example.Outer$Inner`. -/
structure Method where
  name : String
  /-- Tells overloads apart. -/
  descriptor : String := ""
  returnType : Option String := none
  declaringClass : String := ""
  isAbstract : Bool := false
  isStatic : Bool := false
  isFinal : Bool := false
  isPrivate : Bool := false
  tags : List Tag := []
deriving Inhabited

namespace Method

def isTagged (m : Method) (typeName : String) : Bool := m.tags.any (·.typeName == typeName)

/-- A subclass can override it. -/
def isOverridable (m : Method) : Bool := !m.isStatic && !m.isFinal && !m.isPrivate

end Method

structure ClassInfo where
  name : String
  isInterface : Bool := false
  isAbstract : Bool := false
  isFinal : Bool := false
  isTagType : Bool := false
  superClass : Option String := none
  interfaces : List String := []
  tags : List Tag := []
  methods : List Method := []
  memberClasses : List String := []
  enclosingClass : Option String := none
  /-- Where the metadata was found, for people to read. -/
  resource : Option String := none
deriving Inhabited

/-- The part after the last dot and the part before it. -/
def splitLastDot : List Char → Option (List Char × List Char)
  | [] => none
  | c :: s =>
    match splitLastDot s with
    | some (before, after) => some (c :: before, after)
    | none => if c = '.' then some ([], s) else none

/-- The name without its package, with nested classes separated by a dot. -/
def shortName (name : String) : String :=
  let last := match splitLastDot name.toList with
    | some (_, after) => after
    | none => name.toList
  String.ofList (last.map fun c => if c = '$' then '.' else c)

/-- The name up to its last dot; empty without one. -/
def packageName (name : String) : String :=
  match splitLastDot name.toList with
  | some (before, _) => String.ofList before
  | none => ""

namespace ClassInfo

/-- The class can be instantiated. -/
def isConcrete (c : ClassInfo) : Bool := !(c.isInterface || c.isAbstract)

/-- The tag stands on the class itself. -/
def isTagged (c : ClassInfo) (typeName : String) : Bool := c.tags.any (·.typeName == typeName)

def tag? (c : ClassInfo) (typeName : String) : Option Tag := Tag.find? typeName c.tags

/-- The occurrences of a repeatable tag: those on the class, then those held by `container`
tags in their `value`. -/
def repeatable (c : ClassInfo) (typeName container : String) : List Tag :=
  c.tags.filter (·.typeName == typeName) ++
    (c.tags.filter (·.typeName == container)).flatMap fun holder =>
      (holder.nested "value").filter (·.typeName == typeName)

def taggedMethods (c : ClassInfo) (typeName : String) : List Method :=
  c.methods.filter (·.isTagged typeName)

def simpleName (c : ClassInfo) : String := shortName c.name

def package (c : ClassInfo) : String := packageName c.name

def resourceDescription (c : ClassInfo) : String :=
  c.resource.getD ("class [" ++ c.name ++ "]")

end ClassInfo
end Wiring
