import Wiring.Run.State

/-!
# Strategies in a run

Producing a strategy is an event and may change the property sources.  A type that produces a
strategy of the wrong kind is a failure.
-/

namespace Wiring
namespace RunM

def surroundings (w : World) (s : Run) : Surroundings where
  environment := s.environment
  resources := w.resources
  registry := s.registry
  types := w.resolver.types.types.map (·.info)

/-- The strategy that a loaded type produces. -/
def produce (w : World) (t : LoadedType) : RunM Strategy := do
  match t.maker with
  | none => throw (.instantiation t.name "no strategy factory registered")
  | some maker =>
    emit (.created t.name)
    modify fun s => { s with environment := s.environment.modifySources maker.effect }
    match maker.make (surroundings w (← get)) with
    | .ok strategy => return strategy
    | .error message => throw (.instantiation t.name message)

def loadType (w : World) (className : String) : RunM LoadedType :=
  match w.resolver.types.find? className with
  | some t => pure t
  | none => throw (.classNotFound className)

def mismatch {α : Type} (className : String) (expected : StrategyKind) (s : Strategy) : RunM α :=
  throw (.strategyMismatch className expected s.kind)

def produceRegistrar (w : World) (t : LoadedType) : RunM Registrar := do
  match ← produce w t with
  | .registrar r => return r
  | s => mismatch t.name .registrar s

def produceGroup (w : World) (className : String) : RunM Group := do
  match ← produce w (← loadType w className) with
  | .group g => return g
  | s => mismatch className .group s

/-- The group for selectors that declare the type, or the default group. -/
def createGroup (w : World) : Option String → RunM Group
  | none => return .default
  | some className => produceGroup w className

def produceSourceFactory (w : World) (className : String) : RunM SourceFactory := do
  match ← produce w (← loadType w className) with
  | .sourceFactory f => return f
  | s => mismatch className .sourceFactory s

/-- A condition, with the name of its type and its order. -/
structure OrderedCondition where
  typeName : String
  condition : Condition
  order : Int

def produceCondition (w : World) (className : String) : RunM OrderedCondition := do
  let t ← loadType w className
  match ← produce w t with
  | .condition c => return ⟨className, c, c.order.getD t.info.order⟩
  | s => mismatch className .condition s

/-- Asks the conditions in order until one does not hold. -/
def allHold (w : World) (c : ClassInfo) (phase : Phase) : List OrderedCondition → RunM Bool
  | [] => return true
  | o :: os => do
    if o.condition.phase.all (· = phase) then
      emit (.asked o.typeName c.name)
      if o.condition.holds (surroundings w (← get)) c then allHold w c phase os
      else return false
    else allHold w c phase os

/-- The first profile tag on the class names profiles of which none is accepted. -/
def isOutsideProfiles (env : Environment) (c : ClassInfo) : Bool :=
  match c.tag? WellKnown.profile with
  | some t =>
    let profiles := t.strings "value"
    !profiles.isEmpty && !env.acceptsProfiles profiles
  | none => false

/-- The profiles or the conditions of the class leave it out in this phase. -/
def skips (w : World) (c : ClassInfo) (phase : Phase) : RunM Bool := do
  if !w.asksConditions then return false
  if isOutsideProfiles (← get).environment c then return true
  let names := (c.tags.filter (·.typeName == WellKnown.conditional)).flatMap (·.classRefs "value")
  let conditions ← names.mapM (produceCondition w)
  return !(← allHold w c phase (conditions.mergeSort fun a b => a.order ≤ b.order))

end RunM
end Wiring
