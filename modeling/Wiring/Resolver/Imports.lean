import Wiring.Resolver.Basic

/-!
# Imports of a class

A class imports what its import tag names, and what the import tags on its tag types name.
-/

namespace Wiring
namespace Resolver

/-- The state of a collection: the classes entered, and the imports found by name. -/
structure Collected where
  seen : List String := []
  imports : OrderedMap String View := {}

/-- Adds the imports of `v`, those of its tag types before its own. -/
def collect (r : Resolver) : (depth : Nat) → Collected → View → Except Failure Collected
  | 0, st, _ => .ok st
  | depth + 1, st, v =>
    if v.name ∈ st.seen then .ok st
    else do
      let st ← (r.tagTypes v).foldlM (fun st t =>
        if t.name = WellKnown.importTag then .ok st else r.collect depth st t)
        { st with seen := v.name :: st.seen }
      let own ← r.attributeClasses v WellKnown.importTag "value"
      return { st with imports := own.foldl (fun m v => m.insertIfNew v.name v) st.imports }

/-- The classes that `v` imports, in the order of discovery, each once. -/
def imports (r : Resolver) (v : View) : Except Failure (List View) :=
  (r.collect r.maxDepth {} v).map (·.imports.values)

end Resolver
end Wiring
