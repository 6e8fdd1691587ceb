import Wiring.Toml.Number
import Wiring.Toml.Value

/-!
# Reading TOML

The grammar of TOML 1.0.  A reader takes the text and returns a value with the rest, or
nothing.  Arrays, inline tables and dotted keys have a limited depth.
-/

namespace Wiring
namespace Toml

/-- How many arrays and inline tables may stand inside each other, and how many parts a key
may have. -/
def nesting : Nat := 79

def isSpace (c : Char) : Bool := c = ' ' || c = '\t'

def skipSpace (s : List Char) : List Char := s.dropWhile isSpace

/-- May stand in comments and strings: all characters but controls, of which a tab may. -/
def isPlain (c : Char) : Bool := c = '\t' || (0x20 ≤ c.toNat && c.toNat ≠ 0x7F)

def newline? : List Char → Option (List Char)
  | '\n' :: s => some s
  | '\r' :: '\n' :: s => some s
  | _ => none

/-- A comment up to the end of its line, if one starts here. -/
def skipComment : List Char → List Char
  | '#' :: s => s.dropWhile isPlain
  | s => s

/-- Blanks and a comment up to the end of the line, and the line end. -/
def lineEnd? (s : List Char) : Option (List Char) :=
  match skipComment (skipSpace s) with
  | [] => some []
  | s => newline? s

/-- Skips blanks, line ends and comments.  Every step of `count` skips something. -/
def skipLines : (count : Nat) → List Char → List Char
  | 0, s => s
  | count + 1, s =>
    match skipSpace s with
    | '#' :: r => skipLines count (r.dropWhile isPlain)
    | r =>
      match newline? r with
      | some r => skipLines count r
      | none => r

def escape? (s : List Char) : Option (Char × List Char) :=
  let scalar (count : Nat) (s : List Char) : Option (Char × List Char) := do
    let (n, s) ← readFixed 16 count s
    if n.isValidChar then some (Char.ofNat n, s) else none
  match s with
  | 'b' :: s => some ('\x08', s)
  | 't' :: s => some ('\t', s)
  | 'n' :: s => some ('\n', s)
  | 'f' :: s => some ('\x0c', s)
  | 'r' :: s => some ('\r', s)
  | '\x22' :: s => some ('\x22', s)
  | '\x5c' :: s => some ('\x5c', s)
  | 'u' :: s => scalar 4 s
  | 'U' :: s => scalar 8 s
  | _ => none

/-- Whether a string ends at its line, and whether backslashes escape in it. -/
structure StringStyle where
  quote : Char
  isMultiline : Bool

def StringStyle.escapes (style : StringStyle) : Bool := style.quote = '\x22'

/-- After a backslash at the end of a line: skips all blanks and line ends. -/
def skipFolded : (count : Nat) → List Char → List Char
  | 0, s => s
  | count + 1, s =>
    let r := skipSpace s
    match newline? r with
    | some r => skipFolded count r
    | none => r

/-- The rest of a string.  `acc` holds the characters so far in reverse, and every step of
`count` reads something. -/
def readChars (style : StringStyle) : (count : Nat) → List Char → List Char →
    Option (String × List Char)
  | 0, _, _ => none
  | _, _, [] => none
  | count + 1, acc, c :: s =>
    if c = style.quote then
      if !style.isMultiline then some (String.ofList acc.reverse, s)
      else
        -- Up to two quotes may stand just before the closing three.
        let run := (c :: s).takeWhile (· = c)
        if run.length < 3 then readChars style count (c :: acc) s
        else if run.length ≤ 5 then
          some (String.ofList (List.replicate (run.length - 3) c ++ acc).reverse,
            (c :: s).drop run.length)
        else none
    else if c = '\x5c' && style.escapes then
      match if style.isMultiline then newline? (skipSpace s) else none with
      | some r => readChars style count acc (skipFolded r.length r)
      | none =>
        match escape? s with
        | some (e, s) => readChars style count (e :: acc) s
        | none => none
    else
      match if style.isMultiline then newline? (c :: s) else none with
      | some r => readChars style count ('\n' :: acc) r
      | none => if isPlain c then readChars style count (c :: acc) s else none

def readLineString (quote : Char) (s : List Char) : Option (String × List Char) :=
  readChars ⟨quote, false⟩ (s.length + 1) [] s

/-- A string of one line, or of several between three quotes.  A line end just after the
opening quotes is not part of it. -/
def readString : List Char → Option (String × List Char)
  | a :: b :: c :: s =>
    if a = '\x22' || a = '\x27' then
      if b = a && c = a then
        let s := (newline? s).getD s
        readChars ⟨a, true⟩ (s.length + 1) [] s
      else readLineString a (b :: c :: s)
    else none
  | a :: s => if a = '\x22' || a = '\x27' then readLineString a s else none
  | [] => none

def isBare (c : Char) : Bool := c.isAlphanum || c = '-' || c = '_'

/-- One part of a key. -/
def readKeyPart : List Char → Option (String × List Char)
  | c :: s =>
    if c = '\x22' || c = '\x27' then readLineString c s
    else if isBare c then
      some (String.ofList ((c :: s).takeWhile isBare), (c :: s).dropWhile isBare)
    else none
  | [] => none

/-- A key of at most `count` parts, with blanks around them: its path and its last part. -/
def readKey : (count : Nat) → List Char → Option ((List String × String) × List Char)
  | 0, _ => none
  | count + 1, s => do
    let (part, s) ← readKeyPart (skipSpace s)
    match skipSpace s with
    | '.' :: s =>
      let ((path, last), s) ← readKey count s
      return ((part :: path, last), s)
    | s => return (([], part), s)

def readNumber (s : List Char) : Option (Value × List Char) :=
  match readDatetime s with
  | some r => some (.datetime, r)
  | none =>
    match readFloat s with
    | some r => some (.float, r)
    | none => (readInt s).map fun (i, r) => (.int i, r)

/- Every call reads something, so `count` bounds the calls inside each other when it is at
least the length of the text; `levels` bounds the brackets. -/
mutual
def readValue : (count levels : Nat) → List Char → Option (Value × List Char)
  | 0, _, _ => none
  | _, _, [] => none
  | count + 1, levels, c :: s =>
    if c = '\x22' || c = '\x27' then (readString (c :: s)).map fun (t, r) => (.string t, r)
    else if c = '[' then
      match levels with
      | 0 => none
      | levels + 1 => (readElements count levels s).map fun (vs, r) => (.array vs, r)
    else if c = '\x7b' then
      match levels with
      | 0 => none
      | levels + 1 =>
        match skipSpace s with
        | '\x7d' :: r => some (.table .inline [], r)
        | s => (readPairs count levels [] s).map fun (es, r) => (.table .inline es, r)
    else if "true".toList.isPrefixOf (c :: s) then some (.bool true, s.drop 3)
    else if "false".toList.isPrefixOf (c :: s) then some (.bool false, s.drop 4)
    else readNumber (c :: s)

/-- The elements of an array and the closing bracket.  A comma may follow the last one. -/
def readElements : (count levels : Nat) → List Char → Option (List Value × List Char)
  | 0, _, _ => none
  | count + 1, levels, s =>
    match skipLines s.length s with
    | ']' :: r => some ([], r)
    | s =>
      match readValue count levels s with
      | none => none
      | some (v, r) =>
        match skipLines r.length r with
        | ',' :: r => (readElements count levels r).map fun (vs, r) => (v :: vs, r)
        | ']' :: r => some ([v], r)
        | _ => none

/-- The pairs of an inline table that has at least one, added to `es`, and the closing
brace. -/
def readPairs : (count levels : Nat) → Entries → List Char → Option (Entries × List Char)
  | 0, _, _, _ => none
  | count + 1, levels, es, s =>
    match readKey nesting s with
    | some ((path, key), '=' :: r) =>
      match readValue count levels (skipSpace r) with
      | none => none
      | some (v, r) =>
        match addPair key v path es with
        | none => none
        | some es =>
          match skipSpace r with
          | ',' :: r => readPairs count levels es r
          | '\x7d' :: r => some (es, r)
          | _ => none
    | _ => none
end

/-- A document being read: what it holds so far, and the path of the open table. -/
structure Open where
  root : Entries := []
  path : List String := []

/-- The key of a header between its brackets. -/
def readHeader (close : List Char) (s : List Char) :
    Option ((List String × String) × List Char) := do
  let (key, s) ← readKey nesting s
  guard (close.isPrefixOf s)
  return (key, ← lineEnd? (s.drop close.length))

/-- Reads one line of a document, or one pair that goes over several. -/
def readLine (doc : Open) (s : List Char) : Option (Open × List Char) :=
  match s with
  | '[' :: '[' :: s => do
    let ((path, key), r) ← readHeader [']', ']'] s
    return (⟨← atPath (openElement key) path doc.root, path ++ [key]⟩, r)
  | '[' :: s => do
    let ((path, key), r) ← readHeader [']'] s
    return (⟨← atPath (openTable key) path doc.root, path ++ [key]⟩, r)
  | s => do
    match ← readKey nesting s with
    | ((path, key), '=' :: r) =>
      let (v, r) ← readValue (r.length + 1) nesting (skipSpace r)
      let root ← atPath (addPair key v path) doc.path doc.root
      return ({ doc with root }, ← lineEnd? r)
    | _ => none

/-- Reads the lines of a document, at most `count`. -/
def readLines : (count : Nat) → Open → List Char → Option Entries
  | 0, _, _ => none
  | count + 1, doc, s =>
    match skipLines s.length s with
    | [] => some doc.root
    | s =>
      match readLine doc s with
      | some (doc, r) => readLines count doc r
      | none => none

/-- The table that a text describes.  A byte order mark may come first. -/
def parse? (text : String) : Option Entries :=
  let s := match text.toList with
    | c :: s => if c.toNat = 0xFEFF then s else c :: s
    | [] => []
  readLines (s.length + 1) {} s

end Toml
end Wiring
