/-!
# Text

Cutting and trimming text.  The functions work on `List Char`, where recursion is
structural, and the `String` forms only wrap them.
-/

namespace Wiring
namespace Text

/-- The characters with the Unicode property `White_Space`. -/
def isBlank (c : Char) : Bool :=
  let n := c.toNat
  (9 ≤ n && n ≤ 13) || n == 0x20 || n == 0x85 || n == 0xA0 || n == 0x1680 ||
    (0x2000 ≤ n && n ≤ 0x200A) || n == 0x2028 || n == 0x2029 || n == 0x202F ||
    n == 0x205F || n == 0x3000

/-- Without the blanks at its start. -/
def trimLeft (s : List Char) : List Char := s.dropWhile isBlank

/-- Without the blanks at its end. -/
def trimRight (s : List Char) : List Char := (s.reverse.dropWhile isBlank).reverse

def trimList (s : List Char) : List Char := trimRight (trimLeft s)

/-- Without the blanks at both ends. -/
def trim (s : String) : String := String.ofList (trimList s.toList)

/-- Nothing but blanks, or nothing at all. -/
def isBlankText (s : String) : Bool := s.toList.all isBlank

def startsWith (start s : String) : Bool := start.toList.isPrefixOf s.toList

def endsWith (ending s : String) : Bool := ending.toList.isSuffixOf s.toList

/-- What follows `start`, when the text starts with it. -/
def rest? : List Char → List Char → Option (List Char)
  | [], s => some s
  | _ :: _, [] => none
  | p :: start, c :: s => if p = c then rest? start s else none

/-- What follows `start`, when the text starts with it. -/
def after? (start s : String) : Option String :=
  (rest? start.toList s.toList).map String.ofList

/-- The text around the first `sep`, which belongs to neither part. -/
def cutList (sep : Char) : List Char → Option (List Char × List Char)
  | [] => none
  | c :: s =>
    if c = sep then some ([], s)
    else (cutList sep s).map fun (before, after) => (c :: before, after)

def cut (sep : Char) (s : String) : Option (String × String) :=
  (cutList sep s.toList).map fun (before, after) => (String.ofList before, String.ofList after)

/-- The pieces between the characters that satisfy `isSep`.  There is one more piece than
there are separators, so the empty text has one empty piece. -/
def pieces (isSep : Char → Bool) : List Char → List (List Char)
  | [] => [[]]
  | c :: s =>
    match pieces isSep s with
    | [] => [[]]
    | piece :: more => if isSep c then [] :: piece :: more else (c :: piece) :: more

/-- The pieces between separators, trimmed, without the empty ones. -/
def tokens (isSep : Char → Bool) (s : String) : List String :=
  ((pieces isSep s.toList).map trimList |>.filter (!·.isEmpty)).map String.ofList

/-- Replaces every occurrence of `find` from left to right.  `skip` counts the characters of
the occurrence just replaced that are still to be passed over. -/
def replaceList (find by_ : List Char) : Nat → List Char → List Char
  | _, [] => []
  | skip + 1, _ :: s => replaceList find by_ skip s
  | 0, c :: s =>
    if find.isPrefixOf (c :: s) then by_ ++ replaceList find by_ (find.length - 1) s
    else c :: replaceList find by_ 0 s

/-- Replaces every occurrence of the nonempty text `find` from left to right. -/
def replace (find by_ s : String) : String :=
  String.ofList (replaceList find.toList by_.toList 0 s.toList)

/-- The letters of ASCII in lower case, all else unchanged. -/
def asciiLower (s : String) : String := String.ofList (s.toList.map Char.toLower)

/-- The letters of ASCII in upper case, all else unchanged. -/
def asciiUpper (s : String) : String := String.ofList (s.toList.map Char.toUpper)

/-- Nothing but the separator is lost. -/
theorem eq_append_of_cutList {sep : Char} {s before after : List Char}
    (h : cutList sep s = some (before, after)) : s = before ++ sep :: after := by
  induction s generalizing before with
  | nil => simp [cutList] at h
  | cons c s ih =>
    by_cases hc : c = sep
    · simp only [cutList, hc, if_true, Option.some.injEq, Prod.mk.injEq] at h
      obtain ⟨rfl, rfl⟩ := h
      rw [hc, List.nil_append]
    · simp only [cutList, hc, if_false, Option.map_eq_some_iff] at h
      obtain ⟨⟨b, a⟩, hcut, heq⟩ := h
      obtain ⟨rfl, rfl⟩ := Prod.mk.inj heq
      rw [List.cons_append, ← ih hcut]

end Text
end Wiring
