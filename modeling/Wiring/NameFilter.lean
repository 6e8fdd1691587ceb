import Wiring.Text

/-!
# Filters on class names

A filter says which names are excluded.
-/

namespace Wiring

structure NameFilter where
  excludes : String → Bool

namespace NameFilter

/-- Excludes nothing. -/
def none : NameFilter := ⟨fun _ => false⟩

instance : Inhabited NameFilter := ⟨none⟩

/-- Excludes the names that start with one of the texts.  Blank texts, which would exclude
every name, do not count. -/
def startingWith (starts : List String) : NameFilter :=
  let starts := starts.filter (!Text.isBlankText ·)
  ⟨fun name => starts.any (Text.startsWith · name)⟩

def endingWith (ending : String) : NameFilter := ⟨Text.endsWith ending⟩

/-- Excludes the listed names. -/
def oneOf (names : List String) : NameFilter := ⟨names.contains⟩

/-- Excludes what either filter excludes. -/
def or (f g : NameFilter) : NameFilter := ⟨fun name => f.excludes name || g.excludes name⟩

def orElse? (f : NameFilter) (g : Option NameFilter) : NameFilter := g.elim f f.or

end NameFilter
end Wiring
