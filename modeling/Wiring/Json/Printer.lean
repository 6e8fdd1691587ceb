import Wiring.Json.Basic

/-!
# Writing JSON

The compact form: no blanks, and only quotes, backslashes and control characters escaped.
-/

namespace Wiring
namespace Json

/-- A character inside a string. -/
def escape (c : Char) : List Char :=
  if c = '\x22' || c = '\x5c' then ['\x5c', c]
  else if c.toNat < 0x20 then
    ['\x5c', 'u', '0', '0', Nat.digitChar (c.toNat / 16), Nat.digitChar (c.toNat % 16)]
  else [c]

def quote (s : String) : String :=
  String.ofList ('\x22' :: s.toList.flatMap escape ++ ['\x22'])

mutual
def render : Json → String
  | .null => "null"
  | .bool b => if b then "true" else "false"
  | .int i => toString i
  | .decimal m e => toString m ++ "e" ++ toString e
  | .str s => quote s
  | .arr js => "[" ++ renderElements js ++ "]"
  | .obj fields => "\x7b" ++ renderFields fields ++ "\x7d"
  | .unreadable => "null"

def renderElements : List Json → String
  | [] => ""
  | [j] => render j
  | j :: js => render j ++ "," ++ renderElements js

def renderFields : List (String × Json) → String
  | [] => ""
  | [(name, j)] => quote name ++ ":" ++ render j
  | (name, j) :: fields => quote name ++ ":" ++ render j ++ "," ++ renderFields fields
end

end Json
end Wiring
