/-!
# JSON values

An object keeps its fields in the order of the text, repeated names included.  Whether a
number was written as an integer decides how it may be read, so the two forms stay apart.
-/

namespace Wiring

inductive Json where
  | null
  | bool (b : Bool)
  | int (i : Int)
  /-- A number written with a fraction, an exponent or as `-0`: `mantissa * 10 ^ exponent`. -/
  | decimal (mantissa exponent : Int)
  | str (s : String)
  | arr (elements : List Json)
  | obj (fields : List (String × Json))
  /-- A string that escapes half of a surrogate pair, or an object with such a field name.
  It can be skipped but not read. -/
  | unreadable
deriving Inhabited, Repr

namespace Json

def text? : Json → Option String
  | str s => some s
  | _ => none

def bool? : Json → Option Bool
  | bool b => some b
  | _ => none

/-- An integer of 64 bits with a sign. -/
def int64? : Json → Option Int
  | int i => if -9223372036854775808 ≤ i && i ≤ 9223372036854775807 then some i else none
  | _ => none

def elements? : Json → Option (List Json)
  | arr js => some js
  | _ => none

/-- The values of the fields of that name. -/
def fieldValues (fields : List (String × Json)) (name : String) : List Json :=
  (fields.filter (·.1 == name)).map (·.2)

end Json
end Wiring
