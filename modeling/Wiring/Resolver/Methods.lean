import Wiring.ConfigClass

/-!
# Bean methods of a class

The bean methods of a loaded type come in no useful order.  If the class can be read as well,
the order is taken from there.
-/

namespace Wiring

/-- A declared method takes the first method of its name, unless that is taken. -/
def matchNext (methods : List Method) : List Nat × List Method → Method → List Nat × List Method
  | (taken, ordered), d =>
    match methods.findIdx? (·.name == d.name) with
    | some i =>
      if i ∈ taken then (taken, ordered) else (i :: taken, ordered ++ methods[i]?.toList)
    | none => (taken, ordered)

/-- The methods in the order of the `declared` ones, after the positions taken. -/
def matchDeclared (methods : List Method) (declared : List Method) : List Nat × List Method :=
  declared.foldl (matchNext methods) ([], [])

namespace Resolver

/-- The bean methods of `v`.  They are put in the order of declaration only if that accounts
for each of them. -/
def beanMethods (r : Resolver) (v : View) : List Method :=
  let methods := v.info.taggedMethods WellKnown.bean
  if methods.length ≤ 1 || v.hasStableOrder then methods
  else
    match r.readStatic v.name with
    | .error _ => methods
    | .ok c =>
      let declared := c.taggedMethods WellKnown.bean
      if declared.length < methods.length then methods
      else
        let (_, ordered) := matchDeclared methods declared
        if ordered.length = methods.length then ordered else methods

/-- Adds the bean methods with a body of the interfaces of `v` and of theirs, each interface
once, depth first.  `seen` holds the names of the interfaces entered. -/
def addInterfaceMethods (r : Resolver) : (depth : Nat) → List String × ConfigClass → View →
    Except Failure (List String × ConfigClass)
  | 0, st, _ => .ok st
  | depth + 1, st, v => do
    (← r.interfaces v).foldlM (fun (seen, record) i =>
      if i.name ∈ seen then .ok (seen, record)
      else
        let methods := (r.beanMethods i).filter (!·.isAbstract)
        r.addInterfaceMethods depth (i.name :: seen, record.addMethods methods) i) st

/-- Adds the bean methods of `v` and of its interfaces to a record. -/
def addAllMethods (r : Resolver) (record : ConfigClass) (v : View) :
    Except Failure ConfigClass :=
  (r.addInterfaceMethods r.maxDepth ([], record.addMethods (r.beanMethods v)) v).map (·.2)

end Resolver
end Wiring
