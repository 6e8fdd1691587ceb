import Wiring.Metadata.ClassInfo

/-!
# Walks over classes

A walk goes depth first from class to class along names.  It enters no name twice and passes
over names that resolve to nothing.
-/

namespace Wiring

structure Walk where
  /-- Names that need not be tried again. -/
  seen : List String := []
  /-- The classes entered, in order. -/
  found : List ClassInfo := []

namespace Walk

/-- Enters `names` and what can be reached from them, at most `depth` steps deep. -/
def visit (resolve : String → Option ClassInfo) (next : ClassInfo → List String) :
    (depth : Nat) → Walk → List String → Walk
  | 0, w, _ => w
  | depth + 1, w, names =>
    names.foldl (fun w name =>
      if name ∈ w.seen then w
      else
        let w := { w with seen := name :: w.seen }
        match resolve name with
        | some c => visit resolve next depth { w with found := w.found ++ [c] } (next c)
        | none => w) w

end Walk
end Wiring
