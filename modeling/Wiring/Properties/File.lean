import Wiring.OrderedMap
import Wiring.Properties.Escape

/-!
# Entries of a properties text

Each logical line that is not blank is one entry.  Its key ends at the first blank, equals
sign or colon that no backslash precedes; one sign with blanks around it separates the value.
-/

namespace Wiring
namespace Properties

/-- How far the key reaches.  A backslash and the character after it are passed over
together, also when there is none after it: the length is then greater than the line's. -/
def keyLength : List Char → Nat
  | [] => 0
  | [c] => if c = backslash then 2 else if c = '=' || c = ':' || isBlank c then 0 else 1
  | c :: d :: s =>
    if c = backslash then 2 + keyLength s
    else if c = '=' || c = ':' || isBlank c then 0
    else 1 + keyLength (d :: s)

theorem keyLength_pair (e : Char) (s : List Char) :
    keyLength (backslash :: e :: s) = 2 + keyLength s := by
  rw [keyLength, if_pos rfl]

theorem keyLength_char {c : Char} (hc : c ≠ backslash)
    (hend : (c = '=' || c = ':' || isBlank c) = false) (s : List Char) :
    keyLength (c :: s) = 1 + keyLength s := by
  cases s with
  | nil => simp [keyLength, hc, hend]
  | cons d s => simp [keyLength, hc, hend]

theorem keyLength_end {c : Char} (hc : c ≠ backslash)
    (hend : (c = '=' || c = ':' || isBlank c) = true) (s : List Char) : keyLength (c :: s) = 0 := by
  cases s with
  | nil => simp [keyLength, hc, hend]
  | cons d s => simp [keyLength, hc, hend]

/-- What follows the key without the separator: blanks, at most one sign, blanks. -/
def dropSeparator (s : List Char) : List Char :=
  match s.dropWhile isBlank with
  | c :: r => if c = '=' || c = ':' then r.dropWhile isBlank else c :: r
  | [] => []

structure Entry where
  key : String
  value : String
  /-- The number of the first line of the entry, counted from 1. -/
  line : Nat
deriving Repr, DecidableEq

/-- The entry on a logical line, unless the line is blank. -/
def LogicalLine.readEntry (l : LogicalLine) : Option Entry :=
  match l.text.dropWhile isBlank with
  | [] => none
  | c :: r =>
    let n := keyLength (c :: r)
    some {
      key := String.ofList (unescape ((c :: r).take n))
      value := String.ofList (unescape (dropSeparator ((c :: r).drop n)))
      line := l.number }

/-- The entries of a text in order. -/
def entries (text : String) : List Entry :=
  (logicalLines text.toList).filterMap (·.readEntry)

/-- The value of the last entry for `key`. -/
def get? (es : List Entry) (key : String) : Option String :=
  (es.reverse.find? (·.key == key)).map (·.value)

/-- The entries as a map: a repeated key keeps its first position and takes its last value. -/
def toMap (es : List Entry) : OrderedMap String String :=
  .ofList (es.map fun e => (e.key, e.value))

end Properties
end Wiring
