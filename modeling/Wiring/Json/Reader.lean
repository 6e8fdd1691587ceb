import Wiring.Json.Basic
import Wiring.Text.Digit

/-!
# Reading JSON

The grammar of RFC 8259 and nothing more: no byte order mark, no comments, no trailing
commas, no text after the value.  A reader takes the text and returns a value with the rest.
-/

namespace Wiring
namespace Json

def isSpace (c : Char) : Bool := c = ' ' || c = '\t' || c = '\n' || c = '\r'

def skipSpace (s : List Char) : List Char := s.dropWhile isSpace

/-- The leading digits as a number, how many there are, and the rest. -/
def digits : Nat → Nat → List Char → Nat × Nat × List Char
  | value, count, [] => (value, count, [])
  | value, count, c :: s =>
    match Text.digitValue? 10 c with
    | some d => digits (value * 10 + d) (count + 1) s
    | none => (value, count, c :: s)

/-- A string being read: the characters so far in reverse, the first half of a surrogate
pair that waits for its second, and whether every half found its partner. -/
structure Scanned where
  chars : List Char := []
  high : Option Nat := none
  readable : Bool := true

namespace Scanned

/-- Adds a character.  A waiting half of a pair stays without its partner. -/
def char (t : Scanned) (c : Char) : Scanned :=
  { chars := c :: t.chars, high := none, readable := t.readable && t.high.isNone }

/-- Adds the code unit of an escape. -/
def unit (t : Scanned) (n : Nat) : Scanned :=
  if 0xD800 ≤ n && n < 0xDC00 then
    { t with high := some n, readable := t.readable && t.high.isNone }
  else if 0xDC00 ≤ n && n < 0xE000 then
    match t.high with
    | some h =>
      { t with
        chars := Char.ofNat (0x10000 + (h - 0xD800) * 0x400 + (n - 0xDC00)) :: t.chars
        high := none }
    | none => { t with readable := false }
  else t.char (Char.ofNat n)

/-- The text of a finished string, if it is readable. -/
def text? (t : Scanned) : Option String :=
  if t.readable && t.high.isNone then some (String.ofList t.chars.reverse) else none

end Scanned

/-- The character that `c` stands for after a backslash. -/
def escape? (c : Char) : Option Char :=
  if c = '\x22' || c = '\x5c' || c = '/' then some c
  else if c = 'b' then some '\x08'
  else if c = 'f' then some '\x0c'
  else if c = 'n' then some '\n'
  else if c = 'r' then some '\r'
  else if c = 't' then some '\t'
  else none

/-- The rest of a string after its opening quote. -/
def readString (t : Scanned) : List Char → Option (Option String × List Char)
  | [] => none
  | '\x22' :: s => some (t.text?, s)
  | '\x5c' :: 'u' :: a :: b :: c :: d :: s =>
    match Text.number? 16 [a, b, c, d] with
    | some n => readString (t.unit n) s
    | none => none
  | '\x5c' :: e :: s =>
    match escape? e with
    | some c => readString (t.char c) s
    | none => none
  | c :: s => if c.toNat < 0x20 then none else readString (t.char c) s

/-- A number without its sign. -/
def readMagnitude (s : List Char) : Option (Json × List Char) := do
  let (whole, count, r) := digits 0 0 s
  guard (count ≠ 0)
  guard (s.head? ≠ some '0' || count = 1)
  let (mantissa, places, r) ← match r with
    | '.' :: r' =>
      let (mantissa, places, r'') := digits whole 0 r'
      if places = 0 then none else some (mantissa, places, r'')
    | _ => some (whole, 0, r)
  let (exponent, r') ← match r with
    | e :: r' =>
      if e = 'e' || e = 'E' then
        let (negative, r'') := match r' with
          | '-' :: r'' => (true, r'')
          | '+' :: r'' => (false, r'')
          | _ => (false, r')
        let (n, count, r'') := digits 0 0 r''
        if count = 0 then none
        else some (some (if negative then -(n : Int) else n), r'')
      else some (none, r)
    | [] => some (none, r)
  match places, exponent with
  | 0, none => return (.int mantissa, r')
  | _, _ => return (.decimal mantissa (exponent.getD 0 - places), r')

def negate : Json → Json
  | .int i => if i = 0 then .decimal 0 0 else .int (-i)
  | .decimal m e => .decimal (-m) e
  | j => j

/-- The value whose text the word is, if `s` starts with it. -/
def readWord (word : String) (value : Json) (s : List Char) : Option (Json × List Char) :=
  if word.toList.isPrefixOf s then some (value, s.drop word.length) else none

/-- An object of these fields, or an unreadable value if a name is missing. -/
def ofFields (fields : List (Option String × Json)) : Json :=
  match fields.mapM fun (name, value) => name.map (·, value) with
  | some fields => .obj fields
  | none => .unreadable

/- Every call passes on less text than it was given, so the number of calls inside each other
is at most the length of the text. -/
mutual
/-- A value, after blanks. -/
def readValue : Nat → List Char → Option (Json × List Char)
  | 0, _ => none
  | n + 1, s =>
    match skipSpace s with
    | [] => none
    | c :: s =>
      if c = '\x7b' then
        match skipSpace s with
        | '\x7d' :: s => some (.obj [], s)
        | s => (readFields n s).map fun (fields, s) => (ofFields fields, s)
      else if c = '[' then
        match skipSpace s with
        | ']' :: s => some (.arr [], s)
        | s => (readElements n s).map fun (js, s) => (.arr js, s)
      else if c = '\x22' then
        (readString {} s).map fun (text, s) => (text.elim .unreadable .str, s)
      else if c = '-' then (readMagnitude s).map fun (j, s) => (negate j, s)
      else if c = 't' then readWord "true" (.bool true) (c :: s)
      else if c = 'f' then readWord "false" (.bool false) (c :: s)
      else if c = 'n' then readWord "null" .null (c :: s)
      else readMagnitude (c :: s)

/-- The elements of an array that has at least one, with the closing bracket. -/
def readElements : Nat → List Char → Option (List Json × List Char)
  | 0, _ => none
  | n + 1, s =>
    match readValue n s with
    | none => none
    | some (j, s) =>
      match skipSpace s with
      | ']' :: s => some ([j], s)
      | ',' :: s => (readElements n s).map fun (js, s) => (j :: js, s)
      | _ => none

/-- The fields of an object that has at least one, with the closing brace. -/
def readFields : Nat → List Char → Option (List (Option String × Json) × List Char)
  | 0, _ => none
  | n + 1, s =>
    match skipSpace s with
    | '\x22' :: s =>
      match readString {} s with
      | none => none
      | some (name, s) =>
        match skipSpace s with
        | ':' :: s =>
          match readValue n s with
          | none => none
          | some (j, s) =>
            match skipSpace s with
            | '\x7d' :: s => some ([(name, j)], s)
            | ',' :: s => (readFields n s).map fun (fields, s) => ((name, j) :: fields, s)
            | _ => none
        | _ => none
    | _ => none
end

/-- The value that the whole text writes, if it writes one. -/
def parse? (text : String) : Option Json :=
  let s := text.toList
  match readValue (s.length + 1) s with
  | some (j, r) => if (skipSpace r).isEmpty then some j else none
  | none => none

end Json
end Wiring
