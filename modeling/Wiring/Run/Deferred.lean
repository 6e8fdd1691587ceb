import Wiring.Run.Steps

/-!
# Deferred imports

Deferred selectors that declare the same group type share a group; one without a group type
has a group of its own.  Each group is handed its selectors in order, gives its entries once,
and each entry is imported on behalf of the configuration class that it comes from.
-/

namespace Wiring

/-- What deferred selectors are grouped by. -/
inductive GroupKey where
  | type (name : String)
  /-- A selector without a group type has a key of its own, after the number of groups so far. -/
  | own (number : Nat)
deriving DecidableEq

/-- The key of a selector that declares the group type, if there are already `count` groups. -/
def GroupKey.of (count : Nat) : (groupType : Option String) → GroupKey
  | some name => .type name
  | none => .own count

/-- The deferred selectors of one group.  The default group has no type. -/
structure Grouping where
  groupType : Option String
  group : Group
  members : List Deferred

/-- The groups in the order of their first selectors. -/
abbrev Groupings := OrderedMap GroupKey Grouping

namespace Grouping

def join (g : Grouping) (d : Deferred) : Grouping := { g with members := g.members ++ [d] }

/-- Adds a selector to the group of its key, which is made for its first one. -/
def add (w : World) (gs : Groupings) (d : Deferred) : RunM Groupings := do
  let key := GroupKey.of gs.size d.selector.group
  if gs.contains key then return gs.modify key (·.join d)
  else return gs.insert key ⟨d.selector.group, ← RunM.createGroup w d.selector.group, [d]⟩

def ofDeferred (w : World) (ds : List Deferred) : RunM (List Grouping) :=
  return (← ds.foldlM (add w) {}).values

/-- Hands a selector to the group, after the calls so far.  How often the selector is asked and
about which classes is up to the group. -/
def process (g : Grouping) (calls : List GroupCall) (d : Deferred) : RunM (List GroupCall) := do
  let c := d.owner.info
  RunM.emit (.processed g.groupType c.name)
  (g.group.asks calls c d.selector).forM fun asked =>
    RunM.emit (.deferredSelected d.typeName asked.name)
  return calls ++ [.process c d.selector]

/-- The entries of the group, after all its selectors. -/
def entries (g : Grouping) : RunM (List GroupEntry) := do
  let calls ← g.members.foldlM g.process []
  RunM.emit (.entriesTaken g.groupType)
  return g.group.entries calls

/-- The filter widened by those of the selectors. -/
def filter (g : Grouping) (default : NameFilter) : NameFilter :=
  g.members.foldl (fun f d => f.orElse? d.selector.exclusion) default

end Grouping

/-- The classes that deferred selectors come from, as they were when queued. -/
abbrev Origins := OrderedMap String View

def Origins.ofDeferred (ds : List Deferred) : Origins :=
  ds.foldl (fun (m : OrderedMap String View) d => m.insertIfNew d.owner.name d.owner) {}

namespace Step

/-- Imports an entry on behalf of the record. -/
def importEntry (w : World) (deeper : Steps) (f : NameFilter) (e : GroupEntry) :
    RecordM Unit := do
  let record ← RecordM.record
  onFailure (Failure.within .importingCandidates record.name) do
    let candidate ← ofExcept (w.resolver.ofName e.className f)
    deeper.imports (record.view.filtered f) [candidate] f false

/-- The record to collect on for a class that is committed, or was dropped meanwhile. -/
def scratchFor (s : Run) (origins : Origins) (name : String) : Except Failure ConfigClass :=
  match s.classes.get? name, origins.get? name with
  | some committed, _ => .ok committed.detached
  | none, some origin => .ok (.explicit origin none)
  | none, none => .error (.unknownOrigin name)

/-- Imports an entry on behalf of the class that it comes from.  What was collected goes to
the committed class also if the import fails. -/
def importForClass (w : World) (deeper : Steps) (origins : Origins) (f : NameFilter)
    (e : GroupEntry) : RunM Unit := do
  let scratch ← ofExcept (scratchFor (← get) origins e.origin.name)
  let (scratch, result) ← RecordM.on scratch (importEntry w deeper f e)
  modify fun s => { s with classes := s.classes.modify e.origin.name (·.absorb scratch) }
  ofExcept result

/-- Imports an entry on behalf of the record, if it comes from there. -/
def importForRecord (w : World) (deeper : Steps) (origins : Origins) (f : NameFilter)
    (e : GroupEntry) : RecordM Unit := do
  if (← RecordM.record).name = e.origin.name then importEntry w deeper f e
  else importForClass w deeper origins f e

/-- Gives every entry of the groups of deferred selectors to `act`, with the filter of its
group. -/
def forEntries {σ : Type} [MonadLiftT RunM (EStateM Failure σ)] (w : World)
    (ds : List Deferred) (act : NameFilter → GroupEntry → EStateM Failure σ Unit) :
    EStateM Failure σ Unit := do
  let groupings ← (Grouping.ofDeferred w ds : RunM _)
  groupings.forM fun g => do
    let entries ← (g.entries : RunM _)
    entries.forM (act (g.filter w.resolver.filter))

/-- Resolves the deferred selectors of a finished phase. -/
def resolveDeferred (w : World) (deeper : Steps) (ds : List Deferred) : RunM Unit :=
  forEntries w ds (importForClass w deeper (.ofDeferred ds))

/-- Queues a deferred selector of the record.  Without a queue it is resolved on the spot. -/
def defer (w : World) (deeper : Steps) (d : Deferred) : RecordM Unit := do
  match (← get).run.queue with
  | some queue => modify fun s => { s with run := { s.run with queue := some (queue ++ [d]) } }
  | none => forEntries w [d] (importForRecord w deeper (.ofDeferred [d]))

end Step
end Wiring
