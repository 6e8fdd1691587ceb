import Wiring.Proofs.WrittenProperties

/-!
# Escapes of character numbers

A text can be written in escapes only, one for each of its code units in UTF-16.  An escape is read
by itself, and half of a surrogate pair is no character: where a character takes two escapes, what
is left are these without their backslashes.  All other characters are read as they were.
-/

namespace Wiring
namespace Properties

/-- The code units of a character in UTF-16, of which those outside the basic plane have two. -/
def codeUnits (c : Char) : List Nat :=
  if c.toNat < 0x10000 then [c.toNat]
  else [0xD800 + (c.toNat - 0x10000) / 0x400, 0xDC00 + (c.toNat - 0x10000) % 0x400]

/-- A hexadecimal digit, in upper case. -/
def hexDigit (d : Nat) : Char := (Nat.digitChar d).toUpper

/-- The four digits of a code unit. -/
def unitDigits (n : Nat) : List Char :=
  [hexDigit (n / 0x1000), hexDigit (n / 0x100 % 0x10), hexDigit (n / 0x10 % 0x10),
    hexDigit (n % 0x10)]

def writeUnit (n : Nat) : List Char := backslash :: 'u' :: unitDigits n

/-- A text in escapes of its code units. -/
def writeUnits (v : String) : String :=
  String.ofList ((v.toList.flatMap codeUnits).flatMap writeUnit)

/-! ### Digits -/

section

variable {c : Char} {d n : Nat}

theorem digitValue_hexDigit (hd : d < 16) : Text.digitValue (hexDigit d) = d := by
  decide +revert

/-- The characters that have a role of their own are no digits. -/
theorem hexDigit_ne (hd : d < 16) (hc : Text.digitValue c = 16) : hexDigit d ≠ c := by
  rintro rfl
  rw [digitValue_hexDigit hd] at hc
  omega

theorem digitValue?_hexDigit (hd : d < 16) : Text.digitValue? 16 (hexDigit d) = some d := by
  rw [Text.digitValue?, digitValue_hexDigit hd, if_pos hd]

theorem fourDigits?_hexDigit {w x y z : Nat} (hw : w < 16) (hx : x < 16) (hy : y < 16)
    (hz : z < 16) : fourDigits? (hexDigit w) (hexDigit x) (hexDigit y) (hexDigit z) =
      some (((w * 16 + x) * 16 + y) * 16 + z) := by
  rw [fourDigits?, if_neg (hexDigit_ne hw rfl)]
  simp [Text.number?, digitValue?_hexDigit hw, digitValue?_hexDigit hx, digitValue?_hexDigit hy,
    digitValue?_hexDigit hz]

/-! ### Single escapes -/

/-- What an escape is read as, if its number is that of a character and if it is not. -/
theorem unescape_unit (hn : n < 0x10000) (s : List Char) :
    unescape (writeUnit n ++ s) =
      match scalar? n with
      | some c => c :: unescape s
      | none => 'u' :: unitDigits n ++ unescape s := by
  have hfour : fourDigits? (hexDigit (n / 0x1000)) (hexDigit (n / 0x100 % 0x10))
      (hexDigit (n / 0x10 % 0x10)) (hexDigit (n % 0x10)) = some n := by
    rw [fourDigits?_hexDigit (by omega) (by omega) (by omega) (by omega), Option.some.injEq]
    omega
  have hplain : unescape (unitDigits n ++ s) = unitDigits n ++ unescape s := by
    simp only [unitDigits, List.cons_append, List.nil_append]
    rw [unescape_char (hexDigit_ne (by omega) rfl), unescape_char (hexDigit_ne (by omega) rfl),
      unescape_char (hexDigit_ne (by omega) rfl), unescape_char (hexDigit_ne (by omega) rfl)]
  rw [writeUnit, List.cons_append, List.cons_append, unitDigits, List.cons_append, List.cons_append,
    List.cons_append, List.cons_append, List.nil_append, backslash, unescape, hfour,
    Option.bind_some]
  cases scalar? n with
  | some c => rfl
  | none => exact congrArg ('u' :: ·) hplain

theorem scalar?_toNat (c : Char) : scalar? c.toNat = some c := by
  have hvalid : c.toNat.isValidChar := c.valid
  rw [scalar?, if_pos hvalid, Char.ofNat_toNat]

/-- Half a surrogate pair is no character. -/
theorem scalar?_surrogate (hlow : 0xD800 ≤ n) (hhigh : n ≤ 0xDFFF) : scalar? n = none := by
  rw [scalar?, if_neg]
  rw [Nat.isValidChar]
  omega

/-! ### Texts -/

/-- What the escapes of a character are read as. -/
def unitsRead (c : Char) : List Char :=
  if c.toNat < 0x10000 then [c] else (codeUnits c).flatMap fun n => 'u' :: unitDigits n

theorem unescape_codeUnits (c : Char) (s : List Char) :
    unescape ((codeUnits c).flatMap writeUnit ++ s) = unitsRead c ++ unescape s := by
  rw [codeUnits, unitsRead, codeUnits]
  by_cases hc : c.toNat < 0x10000
  · rw [if_pos hc, if_pos hc, List.flatMap_singleton, unescape_unit hc, scalar?_toNat]
    rfl
  · have hvalid : c.toNat < 0xD800 ∨ 0xDFFF < c.toNat ∧ c.toNat < 0x110000 := c.valid
    rw [if_neg hc, if_neg hc]
    simp only [List.flatMap_cons, List.flatMap_nil, List.append_nil, List.append_assoc]
    rw [unescape_unit (by omega), scalar?_surrogate (by omega) (by omega),
      unescape_unit (by omega), scalar?_surrogate (by omega) (by omega)]

theorem unescape_writeUnits (v : List Char) :
    unescape ((v.flatMap codeUnits).flatMap writeUnit) = v.flatMap unitsRead := by
  induction v with
  | nil => rfl
  | cons c v ih =>
    rw [List.flatMap_cons, List.flatMap_append, unescape_codeUnits, ih, List.flatMap_cons]

/-- What takes two escapes is not read as it was. -/
theorem flatMap_unitsRead_eq_iff {v : List Char} :
    v.flatMap unitsRead = v ↔ ∀ c ∈ v, c.toNat < 0x10000 := by
  induction v with
  | nil => simp
  | cons c v ih =>
    rw [List.flatMap_cons, List.forall_mem_cons]
    by_cases hc : c.toNat < 0x10000
    · rw [unitsRead, if_pos hc, List.singleton_append, List.cons.injEq, ih]
      simp [hc]
    · refine iff_of_false (fun h => ?_) fun h => hc h.1
      rw [unitsRead, if_neg hc, codeUnits, if_neg hc] at h
      have hu : 'u' = c := (List.cons.inj h).1
      exact hc (hu ▸ by decide)

theorem lt_of_mem_codeUnits (h : n ∈ codeUnits c) : n < 0x10000 := by
  have hvalid : c.toNat < 0xD800 ∨ 0xDFFF < c.toNat ∧ c.toNat < 0x110000 := c.valid
  rw [codeUnits] at h
  split at h <;> simp only [List.mem_cons, List.not_mem_nil, or_false] at h <;> omega

/-- Escapes stay on their line. -/
theorem not_mem_writeUnit (hn : n < 0x10000) : '\n' ∉ writeUnit n := by
  have hdigit : ∀ d < 16, '\n' ≠ hexDigit d := fun d hd => (hexDigit_ne hd rfl).symm
  simp only [writeUnit, unitDigits, List.mem_cons, List.not_mem_nil, or_false, not_or]
  exact ⟨by decide, by decide, hdigit _ (by omega), hdigit _ (by omega), hdigit _ (by omega),
    hdigit _ (by omega)⟩

theorem not_continues_writeUnit (n : Nat) : continues (writeUnit n) = false := by
  refine not_continues_of_getLast? fun h => ?_
  exact hexDigit_ne (Nat.mod_lt n (by decide)) rfl (Option.some.inj h)

end

theorem not_continues_writeUnits (us : List Nat) : continues (us.flatMap writeUnit) = false := by
  induction us with
  | nil => rfl
  | cons n us ih => rw [List.flatMap_cons, continues_append (not_continues_writeUnit n), ih]

theorem not_mem_writeUnits (v : String) : '\n' ∉ (writeUnits v).toList := by
  rw [writeUnits, String.toList_ofList]
  simp only [List.mem_flatMap, not_exists, not_and]
  rintro n ⟨c, -, hn⟩
  exact not_mem_writeUnit (lt_of_mem_codeUnits hn)

theorem dropWhile_writeUnits (us : List Nat) :
    (us.flatMap writeUnit).dropWhile isBlank = us.flatMap writeUnit := by
  cases us <;> rfl

theorem entries_writeUnits (v : String) :
    entries ("key=" ++ writeUnits v) =
      [⟨"key", String.ofList (v.toList.flatMap unitsRead), 1⟩] := by
  have hkey : "key=".toList = escape "key".toList ++ ['='] := by decide
  have hunits : (writeUnits v).toList = (v.toList.flatMap codeUnits).flatMap writeUnit :=
    String.toList_ofList
  have hline : '\n' ∉ ("key=" ++ writeUnits v).toList := by
    rw [String.toList_append, List.mem_append, not_or]
    exact ⟨by decide, not_mem_writeUnits v⟩
  rw [entries_line hline, String.toList_append, hkey, hunits, List.append_assoc,
    List.singleton_append,
    blockEntry_escape_equals "key" (dropWhile_writeUnits _) (not_continues_writeUnits _),
    unescape_writeUnits, Option.toList_some]

example : entries "key=\\u0041\\uD83D\\uDE00" = [⟨"key", "AuD83DuDE00", 1⟩] := by decide +kernel

/-- A value in escapes is read as it was exactly if each of its characters takes one.  Where one
takes two, the digits of both are read, with a `u` before each four. -/
theorem value_of_units_iff (v : String) :
    entries ("key=" ++ writeUnits v) =
        [⟨"key", String.ofList (v.toList.flatMap unitsRead), 1⟩] ∧
      (entries ("key=" ++ writeUnits v) = [⟨"key", v, 1⟩] ↔ ∀ c ∈ v.toList, c.toNat < 0x10000) := by
  refine ⟨entries_writeUnits v, ?_⟩
  rw [entries_writeUnits, ← flatMap_unitsRead_eq_iff]
  constructor
  · intro h
    have hvalue : String.ofList (v.toList.flatMap unitsRead) = v :=
      congrArg Entry.value (List.cons.inj h).1
    exact String.toList_ofList.symm.trans (congrArg String.toList hvalue)
  · intro h
    rw [h, String.ofList_toList]

/-- A character outside the basic plane. -/
theorem not_forall_value_of_units :
    ¬ ∀ v : String, entries ("key=" ++ writeUnits v) = [⟨"key", v, 1⟩] := by
  intro h
  have hread := h "😀"
  revert hread
  decide +kernel

end Properties
end Wiring
