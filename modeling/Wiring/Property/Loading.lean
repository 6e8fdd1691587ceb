import Wiring.Properties.File
import Wiring.Property.Source
import Wiring.Resource

/-!
# Loading property sources

A property source is loaded by decoding the bytes of a resource and reading them as a
properties text.
-/

namespace Wiring

inductive Encoding where
  | utf8
  /-- Each byte is the character of its number. -/
  | latin1
deriving Repr, DecidableEq

namespace Encoding

/-- The encoding of that name, in any letter case and with underscores for hyphens. -/
def ofName? (name : String) : Option Encoding :=
  let name := Text.asciiUpper (Text.replace "_" "-" name)
  if name = "UTF-8" || name = "UTF8" then some utf8
  else if name = "ISO-8859-1" || name = "LATIN1" || name = "US-ASCII" then some latin1
  else none

def decode : Encoding → Bytes → Except IoError String
  | utf8, bytes =>
    match String.fromUTF8? ⟨bytes.toArray⟩ with
    | some s => .ok s
    | none => .error ⟨.invalidData, "invalid utf-8"⟩
  | latin1, bytes => .ok (String.ofList (bytes.map fun b => Char.ofNat b.toNat))

end Encoding

/-- The text of the bytes.  Without a name the encoding is Latin 1. -/
def decode (name : Option String) (bytes : Bytes) : Except IoError String :=
  match name with
  | none => Encoding.latin1.decode bytes
  | some name =>
    match Encoding.ofName? name with
    | some encoding => encoding.decode bytes
    | none => .error ⟨.invalidInput, "unsupported encoding '" ++ name ++ "'"⟩

/-- The source that a properties text describes. -/
def PropertySource.ofText (name resourceName text : String) : PropertySource :=
  .resource name resourceName (Properties.toMap (Properties.entries text))

/-- Loads the properties of a resource.  Without a name the source is named after the
resource. -/
def PropertySource.load (name encoding : Option String) (resource : Resource) :
    Except IoError PropertySource := do
  let text ← decode encoding (← resource.contents)
  return .ofText (name.getD resource.description) resource.description text

end Wiring
