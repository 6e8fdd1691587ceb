import Wiring.Run.Imports

/-!
# Runs

The calls that resolve configuration classes.  Each continues from the state that the last
one left, whether that succeeded or failed.
-/

namespace Wiring
namespace Run

def stepsOf (w : World) : Steps := steps w w.fuel

/-- Parses a class that is known by name.  Deferred selectors stay queued. -/
def parseClassName (w : World) (className beanName : String) : RunM Unit := do
  let view ← ofExcept (w.resolver.ofName className .none)
  (stepsOf w).enter (.explicit view (some beanName)) w.resolver.filter

/-- Parses a loaded type.  Deferred selectors stay queued. -/
def parseLoaded (w : World) (t : LoadedType) (beanName : String) : RunM Unit :=
  (stepsOf w).enter (.explicit (.loaded t) (some beanName)) w.resolver.filter

/-- Parses a class whose metadata is at hand.  Deferred selectors stay queued. -/
def parseInfo (w : World) (c : ClassInfo) (beanName : String) : RunM Unit :=
  (stepsOf w).enter (.explicit (.read c) (some beanName)) w.resolver.filter

/-- Resolves the deferred selectors queued so far, lowest order first.  The queue is open
again afterwards. -/
def resolveDeferred (w : World) : RunM Unit := do
  match (← get).queue with
  | none => return
  | some queue =>
    modify fun s => { s with queue := none }
    ensuring (fun s => { s with queue := some [] })
      (Step.resolveDeferred w (stepsOf w) (queue.mergeSort fun a b => a.order ≤ b.order))

def parseSeed (w : World) (seed : NamedDefinition) : RunM Unit :=
  match seed.definition.className with
  | none => throw (.missingClassName seed.beanName)
  | some name =>
    onFailure (Failure.within .parsing name)
      (Step.parseDefinition w (stepsOf w) seed.definition seed.beanName)

/-- Parses the seeds in order. -/
def parseSeeds (w : World) (seeds : List NamedDefinition) : RunM Unit := seeds.forM (parseSeed w)

/-- Parses the seeds and then resolves the deferred selectors that they queued. -/
def parse (w : World) (seeds : List NamedDefinition) : RunM Unit := do
  parseSeeds w seeds
  resolveDeferred w

/-- Reports the faults of the classes committed so far. -/
def validate (w : World) : RunM Unit := do
  let problems := (← get).classes.values.flatMap (·.problems w.resolver)
  problems.forM (RunM.report w)

/-- Lets the registrars of all classes add their definitions, class by class. -/
def invokeRegistrars (classes : List ConfigClass) : RunM Unit :=
  classes.forM fun c => do
    modify fun s => { s with registry := c.invokeRegistrars s.registry }
    for r in c.registrars do
      RunM.emit (.registered r.typeName r.importing.name)

end Run
end Wiring
