import Wiring.Run.Deferred

/-!
# Import candidates

A candidate is a selector, which names further candidates, now or later; a registrar, which is
attached to the record; or a class, which is entered as imported.
-/

namespace Wiring
namespace Step

/-- Asks a selector and imports what it chooses. -/
def importSelected (w : World) (deeper : Steps) (current : View) (f : NameFilter)
    (typeName : String) (s : Selector) : RecordM Unit := do
  RunM.emit (.selected typeName current.name)
  let chosen ← ofExcept ((s.select current.info).mapM (w.resolver.ofName · f))
  RunM.descend w typeName
  ensuring (fun s => { s with run := RunM.ascend s.run }) (deeper.imports current chosen f false)

/-- Imports what a selector type stands for.  The exclusions of a selector also hold for the
candidates after it, so the filter comes back wider. -/
def importSelector (w : World) (deeper : Steps) (current : View) (f : NameFilter) (v : View) :
    RecordM NameFilter := do
  let t ← ofExcept (w.resolver.load v)
  match ← RunM.produce w t with
  | .selector s =>
    let f := f.orElse? s.exclusion
    importSelected w deeper current f t.name s
    return f
  | .deferredSelector s =>
    defer w deeper {
      owner := (← RecordM.record).view
      typeName := t.name
      selector := s
      order := s.order.getD t.info.order }
    return f.orElse? s.exclusion
  | s => RunM.mismatch t.name .selector s

def importRegistrar (w : World) (current v : View) : RecordM Unit := do
  let t ← ofExcept (w.resolver.load v)
  let registrar ← RunM.produceRegistrar w t
  RecordM.modifyRecord (·.attach ⟨t.name, registrar, current.info⟩)

/-- Registers the import of a class and enters the class as imported by the record. -/
def importClass (deeper : Steps) (current : View) (f : NameFilter) (v : View) :
    RecordM Unit := do
  modify fun s =>
    { s with run := { s.run with importers := s.run.importers.register current.info v.name } }
  enterImported deeper f (← RecordM.record) v

/-- Imports the candidates in order. -/
def importEach (w : World) (deeper : Steps) (current : View) : NameFilter → List View →
    RecordM Unit
  | _, [] => return ()
  | f, v :: vs => do
    if w.resolver.isAssignable v WellKnown.importSelector then
      importEach w deeper current (← importSelector w deeper current f v) vs
    else
      if w.resolver.isAssignable v WellKnown.registrar then importRegistrar w current v
      else if !v.isObject then importClass deeper current f v
      importEach w deeper current f vs

/-- Imports candidates on behalf of the record.  If the record's class is being imported
circularly, that is reported and the candidates are left alone. -/
def imports (w : World) (deeper : Steps) (current : View) (candidates : List View)
    (f : NameFilter) (checksCycles : Bool) : RecordM Unit := do
  if candidates.isEmpty then return
  let record ← RecordM.record
  let run := (← get).run
  if checksCycles && ImportStack.isCircular run.stack run.importers record.name then
    RunM.reportCircular w record.info
  else
    RunM.push record.info
    onFailure (Failure.within .importingCandidates record.name)
      (ensuring (fun s => { s with run := RunM.pop s.run })
        (importEach w deeper current f candidates))

end Step

namespace Run

/-- The steps that may go `fuel` levels deep. -/
def steps (w : World) : (fuel : Nat) → Steps
  | 0 => {
    enter := fun _ _ => throw .exhausted
    climb := fun _ _ => throw .exhausted
    imports := fun _ _ _ _ => throw .exhausted }
  | fuel + 1 => {
    enter := fun c f => Step.enter w (steps w fuel) c f
    climb := fun v f => Step.climb w (steps w fuel) v f
    imports := fun current vs f checksCycles =>
      Step.imports w (steps w fuel) current vs f checksCycles }

end Run
end Wiring
