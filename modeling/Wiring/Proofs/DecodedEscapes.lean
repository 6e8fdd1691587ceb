import Wiring.Proofs.WrittenProperties

/-!
# What a `u` behind a backslash is read as

Four hexadecimal digits behind it number a character, and any other `u` is read as the letter, with
one exception: a plus sign and three digits are taken for a number too.  Nothing of this depends on
what stands before or on where the key or the value ends, because no number reaches over a
backslash.
-/

namespace Wiring
namespace Properties

/-! ### Keys and values as they stand -/

/-- An entry before its escapes are read. -/
structure RawEntry where
  key : List Char
  value : List Char
  line : Nat
deriving Repr, DecidableEq

def RawEntry.read (r : RawEntry) : Entry :=
  ⟨String.ofList (unescape r.key), String.ofList (unescape r.value), r.line⟩

/-- What stands on a logical line, unless it is blank. -/
def LogicalLine.rawEntry (l : LogicalLine) : Option RawEntry :=
  match l.text.dropWhile isBlank with
  | [] => none
  | c :: r =>
    let n := keyLength (c :: r)
    some ⟨(c :: r).take n, dropSeparator ((c :: r).drop n), l.number⟩

def rawEntries (text : String) : List RawEntry :=
  (logicalLines text.toList).filterMap (·.rawEntry)

theorem readEntry_eq (l : LogicalLine) : l.readEntry = l.rawEntry.map RawEntry.read := by
  rw [LogicalLine.readEntry, LogicalLine.rawEntry]
  cases l.text.dropWhile isBlank <;> rfl

theorem entries_eq_map_read (text : String) :
    entries text = (rawEntries text).map RawEntry.read := by
  rw [entries, rawEntries, List.map_filterMap]
  exact congrArg (List.filterMap · _) (funext readEntry_eq)

/-! ### Numbers -/

/-- The text is written in `n` hexadecimal digits. -/
def IsHex (n : Nat) (w : List Char) : Prop := w.length = n ∧ ∀ c ∈ w, Text.digitValue c < 16

/-- By the characters of the text, not by all there are. -/
instance (n : Nat) (w : List Char) : Decidable (IsHex n w) :=
  decidable_of_iff (w.length = n ∧ w.all (Text.digitValue · < 16) = true)
    (and_congr_right' (by simp only [List.all_eq_true, decide_eq_true_eq]))

/-- The text begins with a plus sign and three digits. -/
def IsSigned (s : List Char) : Prop := s.head? = some '+' ∧ IsHex 3 (s.tail.take 3)

instance (s : List Char) : Decidable (IsSigned s) := inferInstanceAs (Decidable (_ ∧ _))

/-- The text begins with four digits that number a character. -/
def IsNumbered (s : List Char) : Prop :=
  IsHex 4 (s.take 4) ∧ (Text.digitsValue 16 (s.take 4)).isValidChar

instance (s : List Char) : Decidable (IsNumbered s) := inferInstanceAs (Decidable (_ ∧ _))

/-- The character whose number the text begins with. -/
def unit? : List Char → Option Char
  | a :: b :: c :: d :: _ => (fourDigits? a b c d).bind scalar?
  | _ => none

section

variable {c : Char} {s : List Char} {n : Nat} {w : List Char}

theorem IsHex.notMem (h : IsHex n w) (hc : Text.digitValue c = 16) : c ∉ w := by
  intro hmem
  have hlt := h.2 c hmem
  omega

theorem IsHex.digitsValue_lt {a b d : Char} (h : IsHex 3 [a, b, d]) :
    Text.digitsValue 16 [a, b, d] < 0x1000 := by
  have ha := h.2 a (by simp)
  have hb := h.2 b (by simp)
  have hd := h.2 d (by simp)
  simp only [Text.digitsValue, List.foldl_cons, List.foldl_nil]
  omega

theorem IsHex.number?_eq (h : IsHex (n + 1) w) :
    Text.number? 16 w = some (Text.digitsValue 16 w) := by
  refine Text.number?_eq_some_iff.2 ⟨?_, h.2, rfl⟩
  rintro rfl
  cases h.1

theorem unit?_of_isNumbered (h : IsNumbered s) :
    unit? s = some (Char.ofNat (Text.digitsValue 16 (s.take 4))) := by
  obtain ⟨hhex, hvalid⟩ := h
  match s with
  | [] | [_] | [_, _] | [_, _, _] => cases hhex.1
  | a :: b :: c :: d :: t =>
    have ha : a ≠ '+' := fun ha => hhex.notMem (c := '+') rfl (ha ▸ List.mem_cons_self)
    have hnumber : Text.number? 16 [a, b, c, d] = some (Text.digitsValue 16 [a, b, c, d]) :=
      hhex.number?_eq
    rw [unit?, fourDigits?, if_neg ha, hnumber, Option.bind_some]
    exact if_pos hvalid

/-- Three digits number a character in any case. -/
theorem unit?_of_isSigned (h : IsSigned s) :
    unit? s = some (Char.ofNat (Text.digitsValue 16 (s.tail.take 3))) := by
  obtain ⟨hsign, hhex⟩ := h
  match s with
  | [] | [_] | [_, _] | [_, _, _] => cases hhex.1
  | a :: b :: c :: d :: t =>
    obtain rfl : a = '+' := Option.some.inj hsign
    have hnumber : Text.number? 16 [b, c, d] = some (Text.digitsValue 16 [b, c, d]) :=
      hhex.number?_eq
    have hlt := IsHex.digitsValue_lt hhex
    have hvalid : (Text.digitsValue 16 [b, c, d]).isValidChar := .inl (by omega)
    rw [unit?, fourDigits?, if_pos rfl, hnumber, Option.bind_some]
    exact if_pos hvalid

theorem isNumbered_or_isSigned_of_unit? (h : unit? s = some c) : IsNumbered s ∨ IsSigned s := by
  match s with
  | [] | [_] | [_, _] | [_, _, _] => cases h
  | a :: b :: c :: d :: t =>
    obtain ⟨n, hn, hc⟩ := Option.bind_eq_some_iff.1 h
    rw [fourDigits?, Text.number?_eq_some_iff] at hn
    obtain ⟨-, hdigits, hvalue⟩ := hn
    by_cases ha : a = '+'
    · rw [if_pos ha] at hdigits
      exact .inr ⟨congrArg some ha, rfl, hdigits⟩
    · rw [if_neg ha] at hdigits hvalue
      refine .inl ⟨⟨rfl, hdigits⟩, ?_⟩
      rw [scalar?] at hc
      split at hc
      case isTrue hvalid => exact hvalue ▸ hvalid
      case isFalse => cases hc

theorem unit?_eq_none (h : ¬ IsNumbered s) (h' : ¬ IsSigned s) : unit? s = none := by
  rw [Option.eq_none_iff_forall_ne_some]
  intro c hc
  exact (isNumbered_or_isSigned_of_unit? hc).elim h h'

/-- A number that is read takes up four characters, and none of them is a backslash. -/
theorem take_of_unit? (h : unit? s = some c) : 4 ≤ s.length ∧ backslash ∉ s.take 4 := by
  obtain ⟨hhex, -⟩ | ⟨hsign, hhex⟩ := isNumbered_or_isSigned_of_unit? h
  · have hlength := hhex.1
    rw [List.length_take] at hlength
    exact ⟨by omega, hhex.notMem rfl⟩
  · match s with
    | [] => cases hsign
    | a :: t =>
      obtain rfl : a = '+' := Option.some.inj hsign
      have hlength := hhex.1
      rw [List.tail_cons, List.length_take] at hlength
      rw [List.take_succ_cons, List.length_cons, List.mem_cons, not_or]
      exact ⟨by omega, by decide, hhex.notMem rfl⟩

theorem unit?_append_of_le (h : 4 ≤ s.length) (t : List Char) : unit? (s ++ t) = unit? s := by
  match s with
  | [] | [_] | [_, _] | [_, _, _] => simp at h
  | a :: b :: c :: d :: s => rfl

/-- No number reaches over a backslash. -/
theorem unit?_append_backslash (s t : List Char) : unit? (s ++ backslash :: t) = unit? s := by
  by_cases h : 4 ≤ s.length
  · exact unit?_append_of_le h _
  · have hnone : unit? s = none := by
      rw [Option.eq_none_iff_forall_ne_some]
      exact fun c hc => h (take_of_unit? hc).1
    rw [hnone, Option.eq_none_iff_forall_ne_some]
    intro c hc
    refine (take_of_unit? hc).2 ?_
    obtain ⟨k, hk⟩ : ∃ k, 4 - s.length = k + 1 := ⟨3 - s.length, by omega⟩
    rw [List.take_append, hk, List.take_succ_cons]
    exact List.mem_append_right _ List.mem_cons_self

/-! ### Single steps of reading -/

theorem unescape_number (h : unit? s = some c) :
    unescape (backslash :: 'u' :: s) = c :: unescape (s.drop 4) := by
  match s with
  | [] | [_] | [_, _] | [_, _, _] => cases h
  | a :: b :: d :: e :: s =>
    rw [backslash, unescape, show (fourDigits? a b d e).bind scalar? = some c from h]
    rfl

theorem unescape_letter (h : unit? s = none) :
    unescape (backslash :: 'u' :: s) = 'u' :: unescape s := by
  match s with
  | [] | [_] | [_, _] | [_, _, _] => rfl
  | a :: b :: d :: e :: s =>
    rw [backslash, unescape, show (fourDigits? a b d e).bind scalar? = none from h]

/-- An escaped text is read from the left in steps of these kinds. -/
theorem unescape_induction {P : List Char → Prop} (nil : P []) (dangling : P [backslash])
    (number : ∀ c s, unit? s = some c → P (s.drop 4) → P (backslash :: 'u' :: s))
    (letter : ∀ s, unit? s = none → P s → P (backslash :: 'u' :: s))
    (pair : ∀ e s, e ≠ 'u' → P s → P (backslash :: e :: s))
    (char : ∀ c s, c ≠ backslash → P s → P (c :: s)) (s : List Char) : P s := by
  induction s using unescape.induct with
  | case1 => exact nil
  | case2 a b d e s c hc ih => exact number c (a :: b :: d :: e :: s) hc ih
  | case3 a b d e s hnone ih => exact letter (a :: b :: d :: e :: s) hnone ih
  | case4 e s hshort ih =>
    by_cases he : e = 'u'
    · subst he
      refine letter s ?_ ih
      match s with
      | [] | [_] | [_, _] | [_, _, _] => rfl
      | a :: b :: d :: e :: s => exact absurd rfl fun h => hshort a b d e s rfl h
    · exact pair e s he ih
  | case5 => exact dangling
  | case6 c s _ hpair hend ih =>
    refine char c s ?_ ih
    rintro rfl
    cases s with
    | nil => exact hend rfl rfl
    | cons e s => exact hpair e s rfl rfl

/-- Behind an even number of backslashes another one begins a step of its own, so that what is read
up to there does not depend on what follows. -/
theorem unescape_append {a : List Char} (ha : continues a = false) (s : List Char) :
    unescape (a ++ backslash :: s) = unescape a ++ unescape (backslash :: s) := by
  induction a using unescape_induction with
  | nil => rfl
  | dangling => cases ha
  | number c a hc ih =>
    obtain ⟨hlength, hnot⟩ := take_of_unit? hc
    have hdrop : continues (a.drop 4) = false := by
      rw [continues_pair, ← List.take_append_drop 4 a] at ha
      rw [← ha]
      exact (continues_append (not_continues_of_getLast? fun hlast =>
        hnot (List.mem_of_getLast? hlast)) _).symm
    rw [List.cons_append, List.cons_append,
      unescape_number ((unit?_append_backslash a s).trans hc), unescape_number hc,
      List.drop_append_of_le_length hlength, ih hdrop, List.cons_append]
  | letter a hnone ih =>
    rw [continues_pair] at ha
    rw [List.cons_append, List.cons_append,
      unescape_letter ((unit?_append_backslash a s).trans hnone), unescape_letter hnone, ih ha,
      List.cons_append]
  | pair e a he ih =>
    rw [continues_pair] at ha
    rw [List.cons_append, List.cons_append, unescape_pair he, unescape_pair he, ih ha,
      List.cons_append]
  | char c a hc ih =>
    rw [continues_cons hc] at ha
    rw [List.cons_append, unescape_char hc, unescape_char hc, ih ha, List.cons_append]

/-- A sign and three digits stand for themselves where they are not taken for a number. -/
theorem unescape_of_isSigned (h : IsSigned s) :
    (unescape s).length = 4 + (unescape (s.drop 4)).length := by
  obtain ⟨hsign, hhex⟩ := h
  match s with
  | [] | [_] | [_, _] | [_, _, _] => cases hhex.1
  | a :: b :: d :: e :: t =>
    obtain rfl : a = '+' := Option.some.inj hsign
    have hplain : ∀ x ∈ [b, d, e], x ≠ backslash := fun x hx hback =>
      hhex.notMem (c := backslash) rfl (hback ▸ hx)
    rw [unescape_char (by decide), unescape_char (hplain b (by simp)),
      unescape_char (hplain d (by simp)), unescape_char (hplain e (by simp))]
    simp only [List.length_cons, List.drop_succ_cons, List.drop_zero]
    omega

end

/-! ### Every key and value -/

/-- Each key and value is read from what stands on its line.  Where a backslash and a `u` stand in
it behind an even number of backslashes, four digits after them that number a character are read as
that character, and nothing but these.  Without such digits the letter is read and all behind it as
it would be by itself, exactly if that is not a plus sign and three digits; these would be read as
the character that the digits number. -/
theorem escapes_decoded_iff (text : String) :
    entries text = (rawEntries text).map RawEntry.read ∧
      ∀ r ∈ rawEntries text, ∀ raw ∈ [r.key, r.value], ∀ a s : List Char,
        raw = a ++ backslash :: 'u' :: s → continues a = false →
          (IsNumbered s → unescape raw =
            unescape a ++ Char.ofNat (Text.digitsValue 16 (s.take 4)) :: unescape (s.drop 4)) ∧
          (¬ IsNumbered s →
            (unescape raw = unescape a ++ 'u' :: unescape s ↔ ¬ IsSigned s)) ∧
          (IsSigned s → unescape raw =
            unescape a ++ Char.ofNat (Text.digitsValue 16 (s.tail.take 3)) ::
              unescape (s.drop 4)) := by
  refine ⟨entries_eq_map_read text, ?_⟩
  rintro r - raw - a s rfl ha
  rw [unescape_append ha]
  have hsigned (h : IsSigned s) := unescape_number (unit?_of_isSigned h)
  refine ⟨fun h => by rw [unescape_number (unit?_of_isNumbered h)], fun h => ?_,
    fun h => by rw [hsigned h]⟩
  rw [List.append_cancel_left_eq]
  constructor
  · intro hread h'
    have hlength := congrArg List.length ((hsigned h').symm.trans hread)
    rw [List.length_cons, List.length_cons, unescape_of_isSigned h'] at hlength
    omega
  · exact fun h' => unescape_letter (unit?_eq_none h h')

/-- An escaped backslash, then a number that the next escape cuts short. -/
theorem escapes_decoded_iff_cutShort :
    ⟨"k".toList, "\\\\\\u00\\u0041".toList, 1⟩ ∈ rawEntries "k=\\\\\\u00\\u0041" ∧
      "\\\\\\u00\\u0041".toList = "\\\\".toList ++ backslash :: 'u' :: "00\\u0041".toList ∧
      continues "\\\\".toList = false ∧ ¬ IsNumbered "00\\u0041".toList ∧
      ¬ IsSigned "00\\u0041".toList ∧
      unescape "\\\\\\u00\\u0041".toList =
        unescape "\\\\".toList ++ 'u' :: unescape "00\\u0041".toList ∧
      entries "k=\\\\\\u00\\u0041" = [⟨"k", "\\u00A", 1⟩] := by
  have hmem : ⟨"k".toList, "\\\\\\u00\\u0041".toList, 1⟩ ∈
      rawEntries "k=\\\\\\u00\\u0041" := by decide +kernel
  have hraw : "\\\\\\u00\\u0041".toList =
      "\\\\".toList ++ backslash :: 'u' :: "00\\u0041".toList := by decide +kernel
  have heven : continues "\\\\".toList = false := by decide +kernel
  have hnumbered : ¬ IsNumbered "00\\u0041".toList := by decide +kernel
  have hsigned : ¬ IsSigned "00\\u0041".toList := by decide +kernel
  obtain ⟨hentries, hread⟩ := escapes_decoded_iff "k=\\\\\\u00\\u0041"
  have hletter := (hread _ hmem _ (.tail _ (.head _)) _ _ hraw heven).2.1 hnumbered
  exact ⟨hmem, hraw, heven, hnumbered, hsigned, hletter.2 hsigned,
    hentries.trans (by decide +kernel)⟩

/-- A plus sign is no digit. -/
theorem not_forall_escapes_decoded : ¬ ∀ text, ∀ r ∈ rawEntries text, ∀ raw ∈ [r.key, r.value],
    ∀ a s : List Char, raw = a ++ backslash :: 'u' :: s → continues a = false →
      ¬ IsHex 4 (s.take 4) → unescape raw = unescape a ++ 'u' :: unescape s := by
  intro h
  have hmem : ⟨"key".toList, "\\u+041".toList, 1⟩ ∈ rawEntries "key=\\u+041" := by
    decide +kernel
  have hread := h _ _ hmem _ (.tail _ (.head _)) [] "+041".toList (by decide +kernel) rfl
    (by decide +kernel)
  revert hread
  decide +kernel

end Properties
end Wiring
