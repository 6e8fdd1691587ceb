import Wiring.Metadata.Index

/-!
# Remembered metadata

A cache in front of a reader remembers what was read and asks again for what was not.
-/

namespace Wiring

structure MetadataCache where
  /-- The classes read so far, by the name that they were asked by. -/
  classes : List (String × ClassInfo) := []

namespace MetadataCache

def size (c : MetadataCache) : Nat := c.classes.length

def clear (_ : MetadataCache) : MetadataCache := {}

/-- Answers from the cache, or else asks the reader, which may answer differently each time.
Only successes are remembered. -/
def read {σ : Type} (c : MetadataCache)
    (reader : σ → String → Except MetadataError ClassInfo × σ) (s : σ) (name : String) :
    Except MetadataError ClassInfo × MetadataCache × σ :=
  match c.classes.lookup name with
  | some info => (.ok info, c, s)
  | none =>
    match reader s name with
    | (.ok info, s) => (.ok info, ⟨(name, info) :: c.classes⟩, s)
    | (.error e, s) => (.error e, c, s)

end MetadataCache
end Wiring
