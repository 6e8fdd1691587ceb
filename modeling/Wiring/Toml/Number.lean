import Wiring.Text.Digit

/-!
# Numbers and dates of TOML

A reader takes the text and returns a value with the rest, or nothing.
-/

namespace Wiring
namespace Toml

/-- The digits that go on after one, with single underscores between them, as a number that
starts with `value`; how many there are; and the rest. -/
def moreDigits (base : Nat) : Nat → Nat → List Char → Nat × Nat × List Char
  | value, count, '_' :: c :: s =>
    match Text.digitValue? base c with
    | some d => moreDigits base (value * base + d) (count + 1) s
    | none => (value, count, '_' :: c :: s)
  | value, count, c :: s =>
    match Text.digitValue? base c with
    | some d => moreDigits base (value * base + d) (count + 1) s
    | none => (value, count, c :: s)
  | value, count, [] => (value, count, [])

/-- Digits with underscores between them. -/
def readDigits (base : Nat) : List Char → Option (Nat × Nat × List Char)
  | c :: s => (Text.digitValue? base c).map fun d => moreDigits base d 1 s
  | [] => none

/-- A whole number without a leading zero. -/
def readWhole : List Char → Option (Nat × Nat × List Char)
  | '0' :: s => some (0, 1, s)
  | s => readDigits 10 s

def readSign : List Char → Int × List Char
  | '+' :: s => (1, s)
  | '-' :: s => (-1, s)
  | s => (1, s)

def inRange (i : Int) : Bool := -9223372036854775808 ≤ i && i ≤ 9223372036854775807

/-- An integer of 64 bits, in base ten with a sign or in another base without one. -/
def readInt (s : List Char) : Option (Int × List Char) := do
  let (i, r) ← match s with
    | '0' :: 'x' :: r => do let (n, _, r) ← readDigits 16 r; some ((n : Int), r)
    | '0' :: 'o' :: r => do let (n, _, r) ← readDigits 8 r; some ((n : Int), r)
    | '0' :: 'b' :: r => do let (n, _, r) ← readDigits 2 r; some ((n : Int), r)
    | _ =>
      let (sign, r) := readSign s
      do let (n, _, r) ← readWhole r; some (sign * n, r)
  if inRange i then some (i, r) else none

/-- `mantissa * 10 ^ exponent`, rounded to 64 bit floating point, is infinite.  The bound is
half a step above the largest finite number. -/
def isInfinite (mantissa digitCount : Nat) (exponent : Int) : Bool :=
  if mantissa = 0 then false
  else if exponent ≥ 400 then true
  else if exponent + digitCount < 300 then false
  else
    let bound := Nat.pow 2 1024 - Nat.pow 2 970
    if exponent ≥ 0 then mantissa * Nat.pow 10 exponent.toNat ≥ bound
    else mantissa ≥ bound * Nat.pow 10 (-exponent).toNat

/-- A number with a fraction, an exponent or both, or infinity, or no number.  Only a number
too large to be finite is refused, and only a positive one. -/
def readFloat (s : List Char) : Option (List Char) := do
  let (sign, r) := readSign s
  if "inf".toList.isPrefixOf r || "nan".toList.isPrefixOf r then return r.drop 3
  let (whole, count, r) ← readWhole r
  let (mantissa, places, r) ← match r with
    | '.' :: r' =>
      match r' with
      | c :: s' =>
        (Text.digitValue? 10 c).map fun d => moreDigits 10 (whole * 10 + d) 1 s'
      | [] => none
    | _ => some (whole, 0, r)
  let (exponent, hasExponent, r) ← match r with
    | e :: r' =>
      if e = 'e' || e = 'E' then do
        let (sign, r') := readSign r'
        let (n, _, r') ← readDigits 10 r'
        some (sign * n, true, r')
      else some (0, false, r)
    | [] => some (0, false, r)
  guard (places ≠ 0 || hasExponent)
  guard (sign < 0 || !isInfinite mantissa (count + places) (exponent - places))
  return r

/-- A number of exactly `count` digits. -/
def readFixed (base count : Nat) (s : List Char) : Option (Nat × List Char) :=
  if (s.take count).length = count then
    (Text.number? base (s.take count)).map fun n => (n, s.drop count)
  else none

/-- A number of two digits in a range. -/
def readTwo (low high : Nat) (s : List Char) : Option (Nat × List Char) := do
  let (n, r) ← readFixed 10 2 s
  if low ≤ n && n ≤ high then some (n, r) else none

def readChar (c : Char) : List Char → Option (List Char)
  | d :: s => if c = d then some s else none
  | [] => none

def daysIn (year month : Nat) : Nat :=
  if month = 2 then
    if year % 4 = 0 && (year % 100 ≠ 0 || year % 400 = 0) then 29 else 28
  else if month = 4 || month = 6 || month = 9 || month = 11 then 30
  else 31

def readDate (s : List Char) : Option (List Char) := do
  let (year, r) ← readFixed 10 4 s
  let (month, r) ← readTwo 1 12 (← readChar '-' r)
  let (_, r) ← readTwo 1 (daysIn year month) (← readChar '-' r)
  return r

/-- A time of day, with a leap second where there is one. -/
def readTime (s : List Char) : Option (List Char) := do
  let (_, r) ← readTwo 0 23 s
  let (_, r) ← readTwo 0 59 (← readChar ':' r)
  let (_, r) ← readTwo 0 60 (← readChar ':' r)
  match r with
  | '.' :: c :: r' => if c.isDigit then return r'.dropWhile Char.isDigit else return r
  | _ => return r

def readOffset : List Char → Option (List Char)
  | 'Z' :: r => some r
  | 'z' :: r => some r
  | c :: r =>
    if c = '+' || c = '-' then do
      let (_, r) ← readTwo 0 23 r
      let (_, r) ← readTwo 0 59 (← readChar ':' r)
      return r
    else none
  | [] => none

/-- A date, a date with a time, perhaps with an offset, or a time. -/
def readDatetime (s : List Char) : Option (List Char) :=
  match readDate s with
  | some r =>
    let timed := match r with
      | c :: r' => if c = 'T' || c = 't' || c = ' ' then readTime r' else none
      | [] => none
    match timed with
    | some r' => some ((readOffset r').getD r')
    | none => some r
  | none => readTime s

end Toml
end Wiring
