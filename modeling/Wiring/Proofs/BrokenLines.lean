import Wiring.Proofs.LogicalLines

/-!
# Broken lines

A line can be broken at any place where no backslash stands alone before it and no blank behind it.
Whether a line asks for the next is decided line by line, and what is a key, a value or an escape on
the text put together.  Neither shifts where a line is broken: it is read as the whole one.
-/

namespace Wiring
namespace Properties

variable {p s w : List Char}

theorem not_isComment_break (h : isComment (p ++ s) = false) :
    isComment (p ++ [backslash]) = false := by
  rw [isComment, List.dropWhile_append] at h ⊢
  cases hp : p.dropWhile isBlank with
  | nil => rfl
  | cons c r =>
    rw [hp] at h
    exact h

theorem unasked_append (hp : continues p = false) (s : List Char) :
    unasked (p ++ s) = p ++ unasked s := by
  rw [unasked, unasked, continues_append hp]
  split
  case isTrue hs =>
    have hne : s ≠ [] := by
      rintro rfl
      cases hs
    exact List.dropLast_append_of_ne_nil hne
  case isFalse => rfl

theorem continues_break (hp : continues p = false) : continues (p ++ [backslash]) = true :=
  continues_append hp _

theorem unasked_break (hp : continues p = false) : unasked (p ++ [backslash]) = p := by
  rw [unasked, if_pos (continues_break hp), List.dropLast_concat]

theorem dropWhile_blanks (hw : ∀ c ∈ w, isBlank c = true)
    (hs : ∀ c, s.head? = some c → isBlank c = false) : (w ++ s).dropWhile isBlank = s := by
  rw [List.dropWhile_append_of_pos hw]
  cases s with
  | nil => rfl
  | cons c s => exact List.dropWhile_cons_of_neg (by simp [hs c rfl])

/-- A broken line and the whole one are one block each, and these make one logical line. -/
theorem blockEntry_broken (n : Nat) (hcomment : isComment (p ++ s) = false)
    (hp : continues p = false) (hw : ∀ c ∈ w, isBlank c = true)
    (hs : ∀ c, s.head? = some c → isBlank c = false) :
    blockEntry (n, [p ++ [backslash], w ++ s]) = blockEntry (n, [p ++ s]) := by
  have htext : blockText [p ++ [backslash], w ++ s] = blockText [p ++ s] := by
    simp only [blockText, continuation, List.flatMap_cons, List.flatMap_nil, List.append_nil]
    rw [unasked_break hp, dropWhile_blanks hw hs, unasked_append hp]
  rw [blockEntry, blockEntry, assemble, assemble, htext, List.headD_cons, List.headD_cons,
    not_isComment_break hcomment, hcomment]

/-- A text of two lines, the first of which asks for the second, be that empty. -/
theorem entries_two_lines {line : List Char} {text rest : String}
    (htext : text.toList = line ++ '\n' :: rest.toList) (hline : '\n' ∉ line)
    (hr : line.getLast? ≠ some '\r') (hasks : asks false line = true) (h : '\n' ∉ rest.toList) :
    entries text = (blockEntry (1, [line, rest.toList])).toList := by
  rw [entries_eq, htext, physicalLines_line_ended hline hr, blocks, if_pos hasks]
  obtain ⟨hlines, hnil⟩ | hlines := physicalLines_of_notMem h
  · rw [hlines, hnil]
    -- a line that is not there and an empty one continue the first alike
    exact filterMap_placed_singleton 1 [line]
  · rw [hlines, blocks_singleton]
    exact filterMap_placed_singleton 1 _

/-- A line that is no comment can be broken behind an even number of backslashes, none included, and
before a character that is not blank or at its end.  With blanks before what comes on the next line,
the broken line is read as the whole one. -/
theorem entries_broken_line {p s w : String} (hline : '\n' ∉ (p ++ s).toList)
    (hcomment : isComment (p ++ s).toList = false) (hp : trailingBackslashes p.toList % 2 = 0)
    (hs : ∀ c, s.toList.head? = some c → isBlank c = false)
    (hw : ∀ c ∈ w.toList, isBlank c = true) :
    entries (p ++ "\\\n" ++ w ++ s) = entries (p ++ s) := by
  have hpeven : continues p.toList = false := by rw [continues, hp]; rfl
  rw [String.toList_append] at hline hcomment
  have hfirst : '\n' ∉ p.toList ++ [backslash] := by
    simp only [List.mem_append, List.mem_singleton, not_or]
    exact ⟨fun h => hline (List.mem_append_left _ h), by decide⟩
  have hrest : '\n' ∉ (w ++ s).toList := by
    simp only [String.toList_append, List.mem_append, not_or]
    exact ⟨fun h => absurd (hw _ h) (by decide), fun h => hline (List.mem_append_right _ h)⟩
  have htext : (p ++ "\\\n" ++ w ++ s).toList =
      (p.toList ++ [backslash]) ++ '\n' :: (w ++ s).toList := by
    simp [String.toList_append, backslash]
  have hasks : asks false (p.toList ++ [backslash]) = true := by
    rw [asks, not_isComment_break hcomment, continues_break hpeven]
    rfl
  rw [entries_two_lines htext hfirst (by simp [backslash]) hasks hrest, entries_line,
    String.toList_append, String.toList_append, blockEntry_broken 1 hcomment hpeven hw hs]
  rwa [String.toList_append]

/-- Broken between the key and the sign, with backslashes at both ends. -/
theorem entries_broken_line_before_sign :
    '\n' ∉ ("k\\\\" ++ "=v\\").toList ∧ isComment ("k\\\\" ++ "=v\\").toList = false ∧
      trailingBackslashes "k\\\\".toList % 2 = 0 ∧
      (∀ c, "=v\\".toList.head? = some c → isBlank c = false) ∧
      (∀ c ∈ "\t ".toList, isBlank c = true) ∧
      entries ("k\\\\" ++ "\\\n" ++ "\t " ++ "=v\\") = [⟨"k\\", "v", 1⟩] := by
  have hline : '\n' ∉ ("k\\\\" ++ "=v\\").toList := by decide +kernel
  have hcomment : isComment ("k\\\\" ++ "=v\\").toList = false := by decide +kernel
  have hp : trailingBackslashes "k\\\\".toList % 2 = 0 := by decide +kernel
  have hs : ∀ c, "=v\\".toList.head? = some c → isBlank c = false := by
    rintro c ⟨⟩
    decide
  have hw : ∀ c ∈ "\t ".toList, isBlank c = true := List.all_eq_true.1 (by decide +kernel)
  exact ⟨hline, hcomment, hp, hs, hw,
    (entries_broken_line hline hcomment hp hs hw).trans (by decide +kernel)⟩

end Properties
end Wiring
