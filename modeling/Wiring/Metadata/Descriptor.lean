import Wiring.Json.Reader
import Wiring.Metadata.Index
import Wiring.Resource

/-!
# Descriptors

The JSON form of class metadata, and the descriptor file, an object whose `classes` lists
descriptors.

A record may be written as an object or as an array of its fields in order, whose missing
tail takes the defaults.  An object may have fields that the record does not know and may not
repeat one that it does.  Reading takes the number of brackets that may still be opened inside
each other; this bound is what the recursion runs on.
-/

namespace Wiring
namespace Descriptor

/-- How many brackets a text may open inside each other. -/
def nesting : Nat := 127

/-- The fields of a record by position. -/
def record (names : List String) : Json → Option (List (Option Json))
  | .obj fields =>
    names.mapM fun name =>
      match Json.fieldValues fields name with
      | [] => some none
      | [j] => some (some j)
      | _ => none
  | .arr js =>
    if js.length ≤ names.length then
      some (js.map some ++ List.replicate (names.length - js.length) none)
    else none
  | _ => none

def required (read : Json → Option α) (field : Option Json) : Option α :=
  field.bind read

/-- The default stands for a field left out, never for one that cannot be read. -/
def withDefault (default : α) (read : Json → Option α) : Option Json → Option α
  | none => some default
  | some j => read j

/-- A field that may be left out or null. -/
def nullable (read : Json → Option α) : Option Json → Option (Option α)
  | none => some none
  | some .null => some none
  | some j => (read j).map some

/-- An array of values read at one level less. -/
def listOf (read : Nat → Json → Option α) : Nat → Json → Option (List α)
  | n + 1, .arr js => js.mapM (read n)
  | _, _ => none

def texts : Nat → Json → Option (List String) := listOf fun _ => Json.text?

mutual

def attributeOf : Nat → Json → Option Attribute
  | n + 1, .obj [(kind, j)] =>
    if kind = "string" then j.text?.map .string
    else if kind = "bool" then j.bool?.map .bool
    else if kind = "int" then j.int64?.map .int
    else if kind = "class" then j.text?.map .classRef
    else if kind = "annotation" then (tagOf n j).map .tag
    else
      match n with
      | 0 => none
      | n + 1 =>
        if kind = "enum" then
          match record ["type", "constant"] j with
          | some [typeName, constant] => do
            return .enum (← required Json.text? typeName) (← required Json.text? constant)
          | _ => none
        else if kind = "array" then
          match j with
          | .arr js => (js.mapM (attributeOf n)).map .array
          | _ => none
        else none
  | _, _ => none

def tagOf : Nat → Json → Option Tag
  | n + 1, j =>
    match record ["type", "attributes"] j with
    | some [typeName, attributes] => do
      let typeName ← required Json.text? typeName
      match attributes, n with
      | none, _ => return .mk typeName []
      | some (.obj fields), n + 1 =>
        let fields ← fields.mapM fun (name, j) => (attributeOf n j).map (name, ·)
        return .mk typeName (OrderedMap.ofList fields).entries
      | _, _ => none
    | _ => none
  | _, _ => none

end

/-- Flags are left out one by one or all together. -/
def flagsOf (names : List String) : Nat → Json → Option (List Bool)
  | _ + 1, j => do (← record names j).mapM (withDefault false Json.bool?)
  | 0, _ => none

def methodOf : Nat → Json → Option Method
  | n + 1, j =>
    match record ["name", "descriptor", "return_type", "declaring_class", "flags",
      "annotations"] j with
    | some [name, descriptor, returnType, declaringClass, fs, tags] => do
      let fs ← withDefault [false, false, false, false]
        (flagsOf ["abstract", "static", "final", "private"] n) fs
      match fs with
      | [isAbstract, isStatic, isFinal, isPrivate] =>
        return {
          name := ← required Json.text? name
          descriptor := ← withDefault "" Json.text? descriptor
          returnType := ← nullable Json.text? returnType
          declaringClass := ← withDefault "" Json.text? declaringClass
          isAbstract, isStatic, isFinal, isPrivate
          tags := ← withDefault [] (listOf tagOf n) tags }
      | _ => none
    | _ => none
  | 0, _ => none

def classOf : Nat → Json → Option ClassInfo
  | n + 1, j =>
    match record ["name", "flags", "super_class", "interfaces", "annotations", "methods",
      "member_classes", "enclosing_class", "resource"] j with
    | some [name, fs, superClass, interfaces, tags, methods, memberClasses, enclosingClass,
        resource] => do
      let fs ← withDefault [false, false, false, false]
        (flagsOf ["interface", "abstract", "final", "annotation"] n) fs
      match fs with
      | [isInterface, isAbstract, isFinal, isTagType] =>
        return {
          name := ← required Json.text? name
          isInterface, isAbstract, isFinal, isTagType
          superClass := ← nullable Json.text? superClass
          interfaces := ← withDefault [] (texts n) interfaces
          tags := ← withDefault [] (listOf tagOf n) tags
          methods := ← withDefault [] (listOf methodOf n) methods
          memberClasses := ← withDefault [] (texts n) memberClasses
          enclosingClass := ← nullable Json.text? enclosingClass
          resource := ← nullable Json.text? resource }
      | _ => none
    | _ => none
  | 0, _ => none

/-- The classes of a descriptor file. -/
def classesOf : Nat → Json → Option (List ClassInfo)
  | n + 1, j =>
    match record ["classes"] j with
    | some [cs] => withDefault [] (listOf classOf n) cs
    | _ => none
  | 0, _ => none

/-- The index that the value of a descriptor file describes. -/
def index (j : Json) : Except MetadataError Index :=
  match classesOf nesting j with
  | some cs => Index.ofClasses cs
  | none => .error .json

/-- The index that the text of a descriptor file describes. -/
def parse (text : String) : Except MetadataError Index :=
  match Json.parse? text with
  | some j => index j
  | none => .error .json

/-- The index that a file describes. -/
def loadFile (tree : FileTree) (path : String) : Except MetadataError Index :=
  match tree.readText? path with
  | some text => parse text
  | none => .error (.file path)

/-! Writing leaves out what is absent or empty, except the flags and the strings of a
method. -/

mutual

def attributeJson : Attribute → Json
  | .string s => .obj [("string", .str s)]
  | .bool b => .obj [("bool", .bool b)]
  | .int i => .obj [("int", .int i)]
  | .classRef name => .obj [("class", .str name)]
  | .enum typeName constant =>
    .obj [("enum", .obj [("type", .str typeName), ("constant", .str constant)])]
  | .tag t => .obj [("annotation", tagJson t)]
  | .array vs => .obj [("array", .arr (attributeJsons vs))]

def attributeJsons : List Attribute → List Json
  | [] => []
  | v :: vs => attributeJson v :: attributeJsons vs

def fieldJsons : List (String × Attribute) → List (String × Json)
  | [] => []
  | (name, v) :: fields => (name, attributeJson v) :: fieldJsons fields

def tagJson : Tag → Json
  | .mk typeName [] => .obj [("type", .str typeName)]
  | .mk typeName attributes =>
    .obj [("type", .str typeName), ("attributes", .obj (fieldJsons attributes))]

end

def optionField (name : String) : Option String → List (String × Json)
  | some s => [(name, .str s)]
  | none => []

def listField (name : String) (json : α → Json) : List α → List (String × Json)
  | [] => []
  | xs => [(name, .arr (xs.map json))]

def methodJson (m : Method) : Json :=
  .obj <|
    [("name", .str m.name), ("descriptor", .str m.descriptor)] ++
    optionField "return_type" m.returnType ++
    [("declaring_class", .str m.declaringClass),
      ("flags", .obj [("abstract", .bool m.isAbstract), ("static", .bool m.isStatic),
        ("final", .bool m.isFinal), ("private", .bool m.isPrivate)])] ++
    listField "annotations" tagJson m.tags

def classJson (c : ClassInfo) : Json :=
  .obj <|
    [("name", .str c.name),
      ("flags", .obj [("interface", .bool c.isInterface), ("abstract", .bool c.isAbstract),
        ("final", .bool c.isFinal), ("annotation", .bool c.isTagType)])] ++
    optionField "super_class" c.superClass ++
    listField "interfaces" .str c.interfaces ++
    listField "annotations" tagJson c.tags ++
    listField "methods" methodJson c.methods ++
    listField "member_classes" .str c.memberClasses ++
    optionField "enclosing_class" c.enclosingClass ++
    optionField "resource" c.resource

/-- The value of the descriptor file that lists these classes. -/
def fileJson (cs : List ClassInfo) : Json := .obj [("classes", .arr (cs.map classJson))]

end Descriptor
end Wiring
