import Wiring.Text

/-!
# Placeholders

A text may hold placeholders `${key}` and `${key:default}`, also inside each other.
The text of a placeholder is resolved first and then looked up; what is found, or the default,
is resolved again.  A placeholder met inside its own resolution is circular.

Defaults are cut out of text that was itself put together from placeholders, so the text still
to be resolved may grow at each level and resolution need not end.  Its depth is therefore an
argument.
-/

namespace Wiring
namespace Placeholder

inductive Failure where
  /-- Nothing is known under the name, and there is no default. -/
  | unresolvable (name value : String)
  | circular (raw : String)
  /-- Placeholders are nested too deep. -/
  | exhausted
deriving Repr, DecidableEq

def Failure.message : Failure → String
  | unresolvable name value =>
    "Could not resolve placeholder '" ++ name ++ "' in value \x22" ++ value ++ "\x22"
  | circular raw =>
    "Circular placeholder reference '" ++ raw ++ "' in property definitions"
  | exhausted => "Placeholders are nested too deep"

/-- A piece of a text: a character that stands for itself, or the inside of a placeholder. -/
inductive Piece where
  | char (c : Char)
  | hole (raw : List Char)
deriving Repr, DecidableEq

/-- Where the scan of a text is: outside placeholders, or inside one, with the number of
placeholders opened inside it and its text so far in reverse. -/
inductive Place where
  | outside
  | inside (depth : Nat) (raw : List Char)
deriving Repr, DecidableEq

/-- The pieces of a text.  A placeholder that is never closed, and all that follows its
opening, stands for itself. -/
def scan : Place → List Char → List Piece
  | .outside, '$' :: '\x7b' :: s => scan (.inside 0 []) s
  | .outside, c :: s => .char c :: scan .outside s
  | .outside, [] => []
  | .inside d raw, '$' :: '\x7b' :: s => scan (.inside (d + 1) ('\x7b' :: '$' :: raw)) s
  | .inside 0 raw, '\x7d' :: s => .hole raw.reverse :: scan .outside s
  | .inside (d + 1) raw, '\x7d' :: s => scan (.inside d ('\x7d' :: raw)) s
  | .inside d raw, c :: s => scan (.inside d (c :: raw)) s
  | .inside _ raw, [] => ('$' :: '\x7b' :: raw.reverse).map .char

def pieces (text : List Char) : List Piece := scan .outside text

/-- Whether a placeholder that cannot be resolved is kept as it stands or is a failure. -/
inductive Mode where
  | lenient
  | strict
deriving Repr, DecidableEq

abbrev Lookup := List Char → Option (List Char)

/-- What a resolved placeholder text names: its value, or else the value of the part before
the first colon, or else the part after it. -/
def find (lookup : Lookup) (name : List Char) : Option (List Char) :=
  match lookup name with
  | some value => some value
  | none =>
    match Text.cutList ':' name with
    | some (key, default) => some ((lookup key).getD default)
    | none => none

/-- A way to resolve a text.  `open_` holds the placeholders that are being resolved around
it. -/
abbrev Resolution := (open_ : List (List Char)) → List Char → Except Failure (List Char)

/-- What takes the place of a piece of `text`, if what is inside a placeholder is resolved by
`inside`. -/
def fill (lookup : Lookup) (mode : Mode) (inside : Resolution) (open_ : List (List Char))
    (text : List Char) : Piece → Except Failure (List Char)
  | .char c => .ok [c]
  | .hole raw =>
    if raw ∈ open_ then .error (.circular (String.ofList raw))
    else do
      let name ← inside (raw :: open_) raw
      match find lookup name, mode with
      | some value, _ => inside (raw :: open_) value
      | none, .lenient => .ok ('$' :: '\x7b' :: raw ++ ['\x7d'])
      | none, .strict => .error (.unresolvable (String.ofList name) (String.ofList text))

/-- Resolves the placeholders of a text, at most `depth` levels inside each other. -/
def resolve (lookup : Lookup) (mode : Mode) : (depth : Nat) → Resolution
  | 0, _, _ => .error .exhausted
  | depth + 1, open_, text => do
    let parts ← (pieces text).mapM (fill lookup mode (resolve lookup mode depth) open_ text)
    return parts.flatten

/-- The depth allowed to texts from outside. -/
def maxDepth : Nat := 3000

def ofStrings (lookup : String → Option String) : Lookup :=
  fun key => (lookup (String.ofList key)).map String.toList

/-- Fails at the first placeholder that cannot be resolved. -/
def resolveStrict (lookup : String → Option String) (text : String) : Except Failure String :=
  (resolve (ofStrings lookup) .strict maxDepth [] text.toList).map String.ofList

/-- Keeps placeholders that cannot be resolved, and the whole text if one is circular. -/
def resolveLenient (lookup : String → Option String) (text : String) : String :=
  match resolve (ofStrings lookup) .lenient maxDepth [] text.toList with
  | .ok s => String.ofList s
  | .error _ => text

end Placeholder
end Wiring
