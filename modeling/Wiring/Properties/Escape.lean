import Wiring.Properties.Line
import Wiring.Text.Digit

/-!
# Escapes of a properties text

A backslash takes the next character out of its role: `t`, `n`, `r` and `f` stand for control
characters, `u` with four hexadecimal digits for the character of that number, and any other
character for itself.
-/

namespace Wiring
namespace Properties

/-- The number that four characters write.  A plus sign may stand in place of the first
digit. -/
def fourDigits? (a b c d : Char) : Option Nat :=
  Text.number? 16 (if a = '+' then [b, c, d] else [a, b, c, d])

/-- The character of that number, unless the number is a surrogate. -/
def scalar? (n : Nat) : Option Char :=
  if n.isValidChar then some (Char.ofNat n) else none

/-- The character that `c` stands for after a backslash. -/
def control (c : Char) : Char :=
  if c = 't' then '\t' else if c = 'n' then '\n' else if c = 'r' then '\r'
  else if c = 'f' then '\x0c' else c

/-- The text that an escaped text stands for.  A `u` that no character number follows stands
for itself, and a backslash at the very end for nothing. -/
def unescape : List Char → List Char
  | [] => []
  | '\x5c' :: 'u' :: a :: b :: c :: d :: s =>
    match (fourDigits? a b c d).bind scalar? with
    | some ch => ch :: unescape s
    | none => 'u' :: unescape (a :: b :: c :: d :: s)
  | '\x5c' :: e :: s => control e :: unescape s
  | ['\x5c'] => []
  | c :: s => c :: unescape s

theorem unescape_char {c : Char} (hc : c ≠ backslash) (s : List Char) :
    unescape (c :: s) = c :: unescape s := by
  rw [unescape]
  · exact fun _ _ _ _ _ hc' => absurd hc' hc
  · exact fun _ _ hc' => absurd hc' hc
  · exact fun hc' => absurd hc' hc

theorem unescape_pair {e : Char} (he : e ≠ 'u') (s : List Char) :
    unescape (backslash :: e :: s) = control e :: unescape s := by
  rw [backslash, unescape]
  exact fun _ _ _ _ _ he' => absurd he' he

end Properties
end Wiring
