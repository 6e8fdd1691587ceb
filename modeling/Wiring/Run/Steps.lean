import Wiring.Resolver.Imports
import Wiring.Resolver.Methods
import Wiring.Run.Sources

/-!
# The steps of a run

Entering a configuration class processes its source and then its superclasses in place, and
commits the record at the end.  Processing follows member classes, scans and imports into
other configuration classes.  Each step is written in terms of the steps one level deeper, so
a step is a plain definition, and the recursion is tied once, in `Run.steps`.
-/

namespace Wiring

/-- The steps that lead into others of their kind. -/
structure Steps where
  /-- Processes and commits a configuration class. -/
  enter : ConfigClass → NameFilter → RunM Unit
  /-- Processes a source as part of the record, and then its superclasses. -/
  climb : View → NameFilter → RecordM Unit
  /-- Processes import candidates on behalf of the record. -/
  imports : View → List View → NameFilter → (checksCycles : Bool) → RecordM Unit

namespace Step

/-- Commits a finished record. -/
def commit (c : ConfigClass) : RunM Unit :=
  modify fun s => { s with classes := s.classes.insert c.name c }

/-- Withdraws a committed class and releases its superclasses. -/
def withdraw (name : String) : RunM Unit :=
  modify fun s => { s with
    classes := s.classes.erase name
    superclassOwners := ⟨s.superclassOwners.entries.filter (·.2 ≠ name)⟩ }

/-- Makes room for a record, if its class is committed.  An import never replaces a class: it
is merged into an imported one and dropped otherwise.  Says whether the record is still to be
processed. -/
def enroll (c : ConfigClass) : RunM Bool := do
  match (← get).classes.get? c.name with
  | none => return true
  | some present =>
    if c.isImported then
      if present.isImported then commit (present.mergeImporters c)
      return false
    else
      withdraw c.name
      return true

/-- Processes a record that has been enrolled.  The record comes back as it was collected. -/
def process (w : World) (deeper : Steps) (c : ConfigClass) (f : NameFilter) :
    RunM ConfigClass := do
  RunM.descend w c.name
  RunM.mark (.opened c.name c.isImported)
  let (record, result) ← ensuring RunM.close
    (RecordM.on c (deeper.climb (c.view.filtered f) f))
  ofExcept result
  return record

def enter (w : World) (deeper : Steps) (c : ConfigClass) (f : NameFilter) : RunM Unit := do
  if ← RunM.skips w c.info .parse then return
  if ← enroll c then
    commit (← process w deeper c f)

/-- The name of the definition's class is enough to parse it. -/
def parseDefinition (w : World) (deeper : Steps) (d : Definition LoadedType) (beanName : String) :
    RunM Unit := do
  let view ← ofExcept (w.resolver.ofDefinition d beanName)
  deeper.enter (.explicit view (some beanName)) w.resolver.filter

/-- The member classes of `v` that are candidates, in their order, without `name` itself. -/
def memberCandidates (r : Resolver) (v : View) (name : String) : List View :=
  ((r.members v).filter fun m => r.isCandidate m.info && m.name != name).mergeSort
    fun a b => a.info.order ≤ b.info.order

/-- Enters a class as imported by the record. -/
def enterImported (deeper : Steps) (f : NameFilter) (record : ConfigClass) (v : View) :
    RunM Unit := do
  RunM.mark (.imported v.name record.name)
  deeper.enter (.imported v record) f

/-- Enters a member class as imported by the record, unless the record's class is on the
stack. -/
def enterMember (w : World) (deeper : Steps) (f : NameFilter) (record : ConfigClass)
    (m : View) : RunM Unit := do
  if ImportStack.holds (← get).stack record.name then
    RunM.reportCircular w record.info
  else
    RunM.push record.info
    ensuring RunM.pop (enterImported deeper f record m)

/-- Enters the member classes of `v`, if the record's class is a component. -/
def enterMembers (w : World) (deeper : Steps) (v : View) (f : NameFilter) : RecordM Unit := do
  let record ← RecordM.record
  if w.resolver.isTagged record.info WellKnown.component then
    (memberCandidates w.resolver v record.name).forM fun m => enterMember w deeper f record m

/-- The definition that a scan result stands for. -/
def scannedDefinition (found : NamedDefinition) : Definition LoadedType :=
  found.definition.originating.getD found.definition

/-- Enters the class of a scan result, if it is a candidate. -/
def enterFound (w : World) (deeper : Steps) (found : NamedDefinition) : RunM Unit := do
  if (w.resolver.candidate? (scannedDefinition found)).isSome then
    parseDefinition w deeper (scannedDefinition found) found.beanName

/-- Enters the components that a scan finds. -/
def enterScanned (w : World) (deeper : Steps) (className : String) (scan : Tag) : RunM Unit := do
  let s ← get
  let request := ScanRequest.ofTag scan className s.environment
  let (answer, registry) := w.scanner.scan request w.resolver.reader s.registry
  set { s with registry }
  (← ofExcept answer).forM (enterFound w deeper)

/-- Enters the components that the scans declared on `c` find, unless its beans are left
out. -/
def enterAllScanned (w : World) (deeper : Steps) (c : ClassInfo) : RunM Unit := do
  let scans := w.resolver.repeatable c WellKnown.componentScan WellKnown.componentScans
  if !scans.isEmpty then
    if !(← RunM.skips w c .register) then
      scans.forM (enterScanned w deeper c.name)

/-- Imports what `v` names. -/
def followImports (w : World) (deeper : Steps) (v : View) (f : NameFilter) : RecordM Unit := do
  let candidates ← ofExcept (w.resolver.imports v)
  deeper.imports v candidates f true

/-- Adds the resources that the import resource tag on `c` names. -/
def addResources (w : World) (c : ClassInfo) : RecordM Unit := do
  if let some t := w.resolver.findTag? c WellKnown.importResource then
    let locations := match t.strings "locations" with
      | [] => t.strings "value"
      | locations => locations
    locations.forM fun location => do
      let resolved ← ofExcept
        (((← get).run.environment.resolveStrict location).mapError .placeholder)
      RecordM.modifyRecord (·.addResource resolved (t.classRef? "reader"))

/-- Collects the bean methods of `v` and of its interfaces. -/
def collectMethods (w : World) (v : View) : RecordM Unit := do
  let record ← ofExcept (w.resolver.addAllMethods (← RecordM.record) v)
  RecordM.modifyRecord fun _ => { record with sources := record.sources ++ [v] }

/-- The superclass to go on with.  Each superclass outside the platform belongs to the
first class that comes to it. -/
def takeSuperclass (w : World) (v : View) : RecordM (Option View) := do
  match v.info.superClass with
  | none => return none
  | some name =>
    if w.resolver.isPlatform name || (← get).run.superclassOwners.contains name then return none
    let owner := (← RecordM.record).name
    modify fun s => { s with run := { s.run with
      superclassOwners := s.run.superclassOwners.insert name owner } }
    ofExcept (w.resolver.superClass v)

/-- Processes one source as part of the record. -/
def processSource (w : World) (deeper : Steps) (v : View) (f : NameFilter) :
    RecordM (Option View) := do
  enterMembers w deeper v f
  RunM.addDeclaredSources w v.info
  enterAllScanned w deeper v.info
  followImports w deeper v f
  addResources w v.info
  collectMethods w v
  takeSuperclass w v

def climb (w : World) (deeper : Steps) (v : View) (f : NameFilter) : RecordM Unit := do
  match ← processSource w deeper v f with
  | some next => deeper.climb next f
  | none => return

end Step
end Wiring
