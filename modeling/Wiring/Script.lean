import Wiring.Property.Loading
import Wiring.Strategy

/-!
# Scripted strategies

Strategies described by data instead of code.  `Script.maker` turns a description into the
strategy.
-/

namespace Wiring

/-- A bean to register.  In its name, and in the text before it, `{simple}` stands for the
simple name of the importing class and `{package}` for its package. -/
structure BeanTemplate where
  name : String
  className : String
  /-- Leaves a bean alone that is registered already. -/
  ifAbsent : Bool := false

inductive Arrangement where
  | asIs
  | reversed
  /-- By class name, entries of one name in their old order. -/
  | sorted
  /-- The first entry of each class name. -/
  | distinct

inductive Loading where
  | failing (error : IoError)
  | fixed (source : PropertySource)
  | default

inductive Test where
  /-- The property has the value, or any value. -/
  | property (key : String) (value : Option String)
  | bean (name : String)
  | type (name : String)
  | resource (location : String)
  | tagged (typeName : String)
  | const (answer : Bool)

inductive SourceChange where
  | remove (name : String)
  | addFirst (source : PropertySource)

structure ScriptedSelector where
  imports : List String := []
  /-- A tag of the importing class that names further imports in its `value`. -/
  fromTag : Option String := none
  exclusion : Option NameFilter := none

inductive ScriptBody where
  | selector (s : ScriptedSelector)
  | deferredSelector (s : ScriptedSelector) (group : Option String) (order : Option Int)
  /-- The text `start` comes before each bean name; its placeholders are resolved when the
  strategy is made. -/
  | registrar (start : String) (beans : List BeanTemplate)
  | group (arrangement : Arrangement) (origin : Option ClassInfo)
  | sourceFactory (loading : Loading)
  | condition (test : Test) (phase : Option Phase) (order : Option Int)
  | failing (message : String)

structure Script where
  changes : List SourceChange := []
  body : ScriptBody

namespace SourceChange

def apply (ps : PropertySources) : SourceChange → PropertySources
  | remove name => ps.erase name
  | addFirst s => ps.addFirst s

end SourceChange

namespace ScriptedSelector

def select (s : ScriptedSelector) (importing : ClassInfo) : List String :=
  s.imports ++
    match s.fromTag.bind importing.tag? with
    | some t => t.classRefs "value" ++ t.strings "value"
    | none => []

end ScriptedSelector

namespace BeanTemplate

/-- The start and the name in one, with the importing class put in for its placeholders. -/
def beanName (t : BeanTemplate) (start : String) (importing : ClassInfo) : String :=
  Text.replace "\x7bpackage\x7d" importing.package
    (Text.replace "\x7bsimple\x7d" importing.simpleName (start ++ t.name))

def register (t : BeanTemplate) (start : String) (importing : ClassInfo) (r : Registry) :
    Registry :=
  let name := t.beanName start importing
  if t.ifAbsent && r.contains name then r else r.insert name (.ofClassName t.className)

end BeanTemplate

/-- The entries without those whose class name an earlier one has. -/
def distinctEntries : List GroupEntry → List GroupEntry :=
  fun es => (es.foldl (fun kept e =>
    if kept.any (·.className == e.className) then kept else e :: kept) []).reverse

def Arrangement.apply : Arrangement → List GroupEntry → List GroupEntry
  | asIs, es => es
  | reversed, es => es.reverse
  | sorted, es => es.mergeSort fun a b => a.className ≤ b.className
  | distinct, es => distinctEntries es

def Test.holds (t : Test) (s : Surroundings) (c : ClassInfo) : Bool :=
  match t with
  | property key value =>
    match s.environment.property? key with
    | some v => value.elim true (v == ·)
    | none => false
  | bean name => s.registry.contains name
  | type name => s.types.any (·.name == name)
  | resource location => s.resources.has location
  | tagged typeName => c.isTagged typeName
  | const answer => answer

def Loading.load (l : Loading) (name encoding : Option String) (r : Resource) :
    Except IoError PropertySource :=
  match l with
  | failing error => .error error
  | fixed source => .ok source
  | default => PropertySource.load name encoding r

def ScriptBody.make (b : ScriptBody) (s : Surroundings) : Except String Strategy :=
  match b with
  | selector d => .ok (.selector { select := d.select, exclusion := d.exclusion })
  | deferredSelector d groupType order =>
    .ok (.deferredSelector
      { select := d.select, exclusion := d.exclusion, group := groupType, order })
  | registrar start beans =>
    let start := s.environment.resolveLenient start
    .ok (.registrar ⟨fun importing r => beans.foldl (fun r t => t.register start importing r) r⟩)
  | group arrangement origin =>
    .ok (.group { Group.default with
      entries := fun calls => (arrangement.apply (Group.held calls)).map fun e =>
        origin.elim e ({ e with origin := · }) })
  | sourceFactory loading => .ok (.sourceFactory ⟨loading.load⟩)
  | condition test phase order => .ok (.condition { phase, order, holds := test.holds })
  | failing message => .error message

/-- The maker of the strategy that the script describes. -/
def Script.maker (s : Script) : Maker where
  effect ps := s.changes.foldl SourceChange.apply ps
  make := s.body.make

end Wiring
