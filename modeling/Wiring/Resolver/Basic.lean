import Wiring.Resolver.Walk
import Wiring.View

/-!
# Resolving class names

A name is looked up among the read classes and the loaded types, and last among the built-in
descriptions of the framework's own types.  A class that is itself loaded finds its relatives
among the loaded types first.
-/

namespace Wiring

/-- Descriptions of the stereotypes and capability interfaces, for worlds that do not bring
their own. -/
def builtins : List ClassInfo :=
  let stereotype (name : String) : ClassInfo :=
    { name, isInterface := true, isTagType := true, tags := [.mk WellKnown.component []] }
  let capability (name : String) (parents : List String) : ClassInfo :=
    { name, isInterface := true, isAbstract := true, interfaces := parents }
  [ { name := WellKnown.component, isInterface := true, isTagType := true },
    stereotype WellKnown.configuration,
    stereotype WellKnown.service,
    stereotype WellKnown.repository,
    stereotype WellKnown.controller,
    capability WellKnown.importSelector [],
    capability WellKnown.deferredImportSelector [WellKnown.importSelector],
    capability WellKnown.registrar [] ]

def builtin? (name : String) : Option ClassInfo := builtins.find? (·.name == name)

structure Resolver where
  reader : Reader := {}
  types : TypeTable := {}
  /-- Names that start like this belong to the platform and carry no configuration. -/
  platformStart : String := "java"
  /-- The names excluded everywhere. -/
  filter : NameFilter := .none

namespace Resolver

def isPlatform (r : Resolver) (name : String) : Bool := Text.startsWith r.platformStart name

/-- No walk along names is deeper, since each step enters a class not entered before. -/
def maxDepth (r : Resolver) : Nat :=
  r.reader.index.size + r.types.types.length + builtins.length + 3

/-- The metadata that was read, also for a class that is loaded. -/
def readStatic (r : Resolver) (name : String) : Except Failure ClassInfo :=
  match r.reader.read name with
  | .ok c => .ok c
  | .error e =>
    match if e.isNotFound then builtin? name else none with
    | some c => .ok c
    | none => .error (.metadata name e)

/-- The view of a class that was not read. -/
def unreadView? (r : Resolver) (name : String) : Option View :=
  match r.types.find? name with
  | some t => some (.loaded t)
  | none => (builtin? name).map .read

/-- Platform classes are empty unless they are loaded. -/
def platformView (r : Resolver) (name : String) : View :=
  match r.types.find? name with
  | some t => .loaded t
  | none => .read { name }

def ofName (r : Resolver) (name : String) (f : NameFilter) : Except Failure View :=
  if f.excludes name then .ok .object
  else if r.isPlatform name then .ok (r.platformView name)
  else
    match r.reader.read name with
    | .ok c => .ok (.read c)
    | .error e =>
      match if e.isNotFound then r.unreadView? name else none with
      | some v => .ok v
      | none => .error (.metadata name e)

/-- The class that a definition is for, by its metadata, as a loaded type or by name. -/
def ofDefinition (r : Resolver) (d : Definition LoadedType) (beanName : String) :
    Except Failure View :=
  match d.metadata?, d.loadedType, d.className with
  | some c, _, _ => .ok (.read c)
  | none, some t, _ => .ok (.loaded t)
  | none, none, some name => r.ofName name .none
  | none, none, none => .error (.missingClassName beanName)

/-- A class that `v` refers to. -/
def related (r : Resolver) (v : View) (name : String) : Except Failure View :=
  match if v.isLoaded then r.types.find? name else none with
  | some t => .ok ((View.loaded t).filtered r.filter)
  | none => r.ofName name r.filter

/-- The metadata of a class in a hierarchy of types. -/
def hierarchy? (r : Resolver) (preferLoaded : Bool) (name : String) : Option ClassInfo :=
  let loaded := (r.types.find? name).map (·.info)
  let read := match r.reader.read name with
    | .ok c => some c
    | .error e => if e.isNotFound then loaded <|> builtin? name else none
  if preferLoaded then loaded <|> read else read

/-- The tag types of `v` outside the platform, each once, without those that cannot be
resolved. -/
def tagTypes (r : Resolver) (v : View) : List View :=
  ((v.info.tags.map (·.typeName)).filter (!r.isPlatform ·)).eraseDups.filterMap
    fun name => (r.related v name).toOption

/-- The classes named by an attribute of the first tag of that type on `v`, each name
once. -/
def attributeClasses (r : Resolver) (v : View) (typeName field : String) :
    Except Failure (List View) := do
  match v.info.tag? typeName with
  | none => return []
  | some t =>
    let views ← (t.classRefs field).mapM (r.related v)
    return (views.foldl (fun (m : OrderedMap String View) v => m.insertIfNew v.name v) {}).values

/-- The member classes of `v` without those that cannot be resolved. -/
def members (r : Resolver) (v : View) : List View :=
  v.info.memberClasses.filterMap fun name => (r.related v name).toOption

def superClass (r : Resolver) (v : View) : Except Failure (Option View) :=
  match v.info.superClass with
  | some name => (r.related v name).map some
  | none => .ok none

def interfaces (r : Resolver) (v : View) : Except Failure (List View) :=
  v.info.interfaces.mapM (r.related v)

/-- The loaded type behind a view. -/
def load (r : Resolver) (v : View) : Except Failure LoadedType :=
  match v with
  | .loaded t => .ok t
  | .read c =>
    match r.types.find? c.name with
    | some t => .ok t
    | none => .error (.classNotFound c.name)

end Resolver

/-- The superclass and the interfaces. -/
def ClassInfo.parents (c : ClassInfo) : List String := c.superClass.toList ++ c.interfaces

namespace Resolver

/-- The supertypes of `v` outside the platform that can be resolved, however far up. -/
def supertypes (r : Resolver) (v : View) : List ClassInfo :=
  let next (c : ClassInfo) := c.parents.filter (!r.isPlatform ·)
  (Walk.visit (r.hierarchy? v.isLoaded) next r.maxDepth { seen := [v.name] } (next v.info)).found

/-- The class is `target` or has it among its supertypes.  The target itself need not be
resolvable. -/
def isAssignable (r : Resolver) (v : View) (target : String) : Bool :=
  v.name == target || (v.info :: r.supertypes v).any (·.parents.contains target)

/-- The tag types on `c`, those on them and so on, in the order of discovery. -/
def metaTypes (r : Resolver) (c : ClassInfo) : List ClassInfo :=
  let next (c : ClassInfo) := (c.tags.map (·.typeName)).filter (!r.isPlatform ·)
  (Walk.visit (r.hierarchy? true) next r.maxDepth {} (next c)).found

/-- The first tag of that type on the class or on one of its meta types. -/
def findTag? (r : Resolver) (c : ClassInfo) (typeName : String) : Option Tag :=
  (c :: r.metaTypes c).findSome? (·.tag? typeName)

/-- The class carries the tag, directly or through meta types. -/
def isTagged (r : Resolver) (c : ClassInfo) (typeName : String) : Bool :=
  (r.findTag? c typeName).isSome

/-- The occurrences of a repeatable tag on the class.  Only if there are none, one from the
meta types and those in a container from there. -/
def repeatable (r : Resolver) (c : ClassInfo) (typeName container : String) : List Tag :=
  match c.repeatable typeName container with
  | [] =>
    (r.findTag? c typeName).toList ++
      match r.findTag? c container with
      | some holder => (holder.nested "value").filter (·.typeName == typeName)
      | none => []
  | direct => direct

end Resolver
end Wiring
