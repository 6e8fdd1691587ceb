import Wiring.ConfigClass
import Wiring.Event
import Wiring.Importers
import Wiring.Scan

/-!
# The state of a run

A run resolves configuration classes in a world that stays as it is.  Its state keeps what it
has committed so far and what it is in the middle of, and outlives a failure: a later call
goes on from there.
-/

namespace Wiring

/-- What a run is given and does not change. -/
structure World where
  resolver : Resolver := {}
  resources : Resources := {}
  scanner : Scanner := .fixed []
  /-- Profiles and conditions may leave classes out. -/
  asksConditions : Bool := true
  /-- The first problem ends the run. -/
  isFailFast : Bool := false
  /-- How many configuration classes may be processed inside each other. -/
  maxDepth : Nat := 256
  /-- How many steps may be taken inside each other.  Cycles are cut and depth is limited long
  before, except where a deferred selector selects itself. -/
  fuel : Nat := 1000000

/-- A deferred selector, with the class that imported it. -/
structure Deferred where
  owner : View
  /-- The name of the selector's type. -/
  typeName : String
  selector : DeferredSelector
  /-- Lower orders come first. -/
  order : Int

/-- A mark in the history of a run. -/
inductive Milestone where
  /-- A class is imported, or entered as a member, on behalf of another one. -/
  | imported (name importer : String)
  /-- A class begins to be processed. -/
  | opened (name : String) (isImported : Bool)
  /-- The class opened last, of those still open, has been processed. -/
  | closed
deriving Repr, DecidableEq

structure Run where
  environment : Environment := {}
  registry : Registry := {}
  events : List Event := []
  /-- The committed classes, in the order of their completion. -/
  classes : OrderedMap String ConfigClass := {}
  /-- The superclasses processed so far, each with the class that they were processed for. -/
  superclassOwners : OrderedMap String String := {}
  /-- The names of the property sources added so far. -/
  addedSources : List String := []
  stack : ImportStack := []
  importers : Importers := {}
  /-- The deferred selectors that wait.  There is no queue while they are being resolved. -/
  queue : Option (List Deferred) := some []
  problems : List Problem := []
  /-- How many classes are being processed inside each other. -/
  depth : Nat := 0
  /-- What has been imported, opened and closed so far, the latest first.  No step reads it: it is
  there to say what happened in a run. -/
  history : List Milestone := []
  /-- The depths that the run has come to so far, the latest first.  Leaving a level that was
  not entered comes to one below zero.  No step reads them either. -/
  levels : List Int := []

/-- A step of a run.  A failure keeps the state in which it arose. -/
abbrev RunM := EStateM Failure Run

/-- A record that is being collected, inside a run. -/
structure Collecting where
  record : ConfigClass
  run : Run

/-- A step of a run that collects on a record. -/
abbrev RecordM := EStateM Failure Collecting

/-- Changes the state after `act`, also if that fails. -/
def ensuring {σ α : Type} (after : σ → σ) (act : EStateM Failure σ α) :
    EStateM Failure σ α := fun s =>
  match act s with
  | .ok a s => .ok a (after s)
  | .error e s => .error e (after s)

/-- Changes the failure of `act`. -/
def onFailure {σ α : Type} (f : Failure → Failure) (act : EStateM Failure σ α) :
    EStateM Failure σ α := fun s =>
  match act s with
  | .ok a s => .ok a s
  | .error e s => .error (f e) s

def ofExcept {σ α : Type} : Except Failure α → EStateM Failure σ α
  | .ok a => pure a
  | .error e => throw e

/-- A step that leaves the record alone. -/
def RunM.toRecordM {α : Type} (act : RunM α) : RecordM α := fun s =>
  match act s.run with
  | .ok a run => .ok a { s with run }
  | .error e run => .error e { s with run }

instance : MonadLift RunM RecordM := ⟨RunM.toRecordM⟩

/-- Collects on `record`.  The record comes back with the result, which may be a failure. -/
def RecordM.on {α : Type} (record : ConfigClass) (act : RecordM α) :
    RunM (ConfigClass × Except Failure α) := fun run =>
  match act { record, run } with
  | .ok a s => .ok (s.record, .ok a) s.run
  | .error e s => .ok (s.record, .error e) s.run

def RecordM.record : RecordM ConfigClass := return (← get).record

def RecordM.modifyRecord (f : ConfigClass → ConfigClass) : RecordM Unit :=
  modify fun s => { s with record := f s.record }

namespace RunM

def emit (e : Event) : RunM Unit := modify fun s => { s with events := s.events ++ [e] }

def deepen (s : Run) : Run := { s with depth := s.depth + 1, levels := (s.depth + 1) :: s.levels }

/-- Enters one more level. -/
def descend (w : World) (className : String) : RunM Unit := do
  let s ← get
  if s.depth ≥ w.maxDepth then throw (.tooDeep className w.maxDepth)
  set (deepen s)

/-- Leaves a level. -/
def ascend (s : Run) : Run := { s with depth := s.depth - 1, levels := (s.depth - 1) :: s.levels }

def mark (m : Milestone) : RunM Unit := modify fun s => { s with history := m :: s.history }

/-- Leaves the level of a class that has been processed. -/
def close (s : Run) : Run := { ascend s with history := .closed :: s.history }

def push (c : ClassInfo) : RunM Unit := modify fun s => { s with stack := c :: s.stack }

def pop (s : Run) : Run := { s with stack := s.stack.tail }

/-- Records a problem, which is a failure in a fail-fast world. -/
def report (w : World) (p : Problem) : RunM Unit := do
  modify fun s => { s with problems := s.problems ++ [p] }
  if w.isFailFast then throw (.problem p)

/-- Reports that the imports of `attempted` lead back to it. -/
def reportCircular (w : World) (attempted : ClassInfo) : RunM Unit := do
  let stack := (← get).stack
  let top := stack.head?.getD attempted
  let name := attempted.simpleName
  report w {
    kind := .circularImport
    text := "A circular @Import has been detected: Illegal attempt by @Configuration class '" ++
      top.simpleName ++ "' to import class '" ++ name ++ "' as '" ++ name ++
      "' is already present in the current import stack " ++ ImportStack.display stack
    resource := top.resourceDescription
    className := some attempted.name }

end RunM
end Wiring
