/-!
# Lines of a properties text

A physical line ends at a line feed.  A logical line is a physical line with the lines that
continue it: a line that ends in an odd number of backslashes loses the last one and goes on
with the next line, whose leading blanks are dropped.  A comment line never continues.
-/

namespace Wiring
namespace Properties

def backslash : Char := '\x5c'

/-- Space, tab and form feed, the blanks inside a line. -/
def isBlank (c : Char) : Bool := c = ' ' || c = '\t' || c = '\x0c'

/-- The physical lines.  A carriage return just before the line feed belongs to the line
end, and a line feed at the end of the text does not open another line. -/
def physicalLines : List Char → List (List Char)
  | [] => []
  | '\n' :: s => [] :: physicalLines s
  | '\r' :: '\n' :: s => [] :: physicalLines s
  | c :: s =>
    match physicalLines s with
    | [] => [[c]]
    | line :: lines => (c :: line) :: lines

/-- The first character that is not blank opens a comment. -/
def isComment (line : List Char) : Bool :=
  match line.dropWhile isBlank with
  | c :: _ => c = '#' || c = '!'
  | [] => false

/-- The number of backslashes at the end. -/
def trailingBackslashes (line : List Char) : Nat :=
  (line.reverse.takeWhile (· = backslash)).length

/-- An odd run of backslashes at the end asks for the next line. -/
def continues (line : List Char) : Bool := trailingBackslashes line % 2 == 1

structure LogicalLine where
  /-- The number of its first physical line, counted from 1. -/
  number : Nat
  text : List Char
deriving Repr, DecidableEq

/-- The logical lines of the physical lines, the first of which has the number `n`.
`opened` is the logical line that the next physical line continues. -/
def joinLines : Option LogicalLine → Nat → List (List Char) → List LogicalLine
  | none, _, [] => []
  | some opened, _, [] => [opened]
  | none, n, line :: lines =>
    if isComment line then joinLines none (n + 1) lines
    else if continues line then joinLines (some ⟨n, line.dropLast⟩) (n + 1) lines
    else ⟨n, line⟩ :: joinLines none (n + 1) lines
  | some opened, n, line :: lines =>
    let more := line.dropWhile isBlank
    if continues more then
      joinLines (some ⟨opened.number, opened.text ++ more.dropLast⟩) (n + 1) lines
    else ⟨opened.number, opened.text ++ more⟩ :: joinLines none (n + 1) lines

/-- The logical lines of a text; comment lines are left out. -/
def logicalLines (text : List Char) : List LogicalLine :=
  joinLines none 1 (physicalLines text)

end Properties
end Wiring
