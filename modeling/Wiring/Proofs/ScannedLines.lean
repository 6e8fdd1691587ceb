import Wiring.Proofs.DecodedEscapes

/-!
# Scans that stay on their line

A line is cut where its key ends and where its value begins, and then the escapes of both are read.
A logical line ends in an even number of backslashes, from however many lines it was joined, because
each of these gives up the backslash that made the number odd.  The scan for the end of the key
passes a backslash together with the character behind it: so it stops at the end of the line at the
latest, and what it cuts out ends in an even number of backslashes again.
-/

namespace Wiring
namespace Properties

/-! ### Backslashes at the end of a line -/

theorem trailingBackslashes_concat (p : List Char) :
    trailingBackslashes (p ++ [backslash]) = trailingBackslashes p + 1 := by
  rw [trailingBackslashes, List.reverse_concat, List.takeWhile_cons_of_pos (by simp),
    List.length_cons]
  rfl

/-- A line that asks for the next one ends in a backslash, without which it asks for none. -/
theorem eq_concat_of_continues {line : List Char} (h : continues line = true) :
    ∃ p, line = p ++ [backslash] ∧ continues p = false := by
  obtain rfl | ⟨p, c, rfl⟩ := List.eq_nil_or_concat line
  · cases h
  · rw [List.concat_eq_append] at h
    by_cases hc : c = backslash
    · subst hc
      refine ⟨p, List.concat_eq_append, ?_⟩
      rw [continues, trailingBackslashes_concat, beq_iff_eq] at h
      rw [continues, beq_eq_false_iff_ne]
      omega
    · rw [continues_append_cons hc] at h
      cases h

theorem not_continues_unasked (line : List Char) : continues (unasked line) = false := by
  by_cases h : continues line = true
  · obtain ⟨p, rfl, hp⟩ := eq_concat_of_continues h
    rw [unasked, if_pos h, List.dropLast_concat]
    exact hp
  · rw [unasked, if_neg h]
    exact Bool.eq_false_iff.2 h

theorem not_continues_append {a b : List Char} (ha : continues a = false)
    (hb : continues b = false) : continues (a ++ b) = false :=
  (continues_append ha b).trans hb

theorem not_continues_continuation (lines : List (List Char)) :
    continues (continuation lines) = false := by
  induction lines with
  | nil => rfl
  | cons line lines ih =>
    rw [continuation, List.flatMap_cons]
    exact not_continues_append (not_continues_unasked _) ih

theorem not_continues_blockText (block : List (List Char)) :
    continues (blockText block) = false := by
  cases block with
  | nil => rfl
  | cons line more =>
    exact not_continues_append (not_continues_unasked line) (not_continues_continuation more)

theorem not_continues_logicalLine {text : List Char} {l : LogicalLine}
    (h : l ∈ logicalLines text) : continues l.text = false := by
  rw [logicalLines, (joinLines_eq 1 _).1] at h
  obtain ⟨b, -, hb⟩ := List.mem_filterMap.1 h
  rw [assemble] at hb
  split at hb
  · cases hb
  · rw [← Option.some.inj hb]
    exact not_continues_blockText b.2

/-! ### The scan for the end of the key -/

/-- A cut that lies within the text and comes between no backslash and the character behind it. -/
structure CutsEvenly (n : Nat) (s : List Char) : Prop where
  le : n ≤ s.length
  before : continues (s.take n) = false
  behind : continues (s.drop n) = false

namespace CutsEvenly

variable {n : Nat} {s : List Char}

theorem zero (h : continues s = false) : CutsEvenly 0 s := ⟨Nat.zero_le _, rfl, h⟩

theorem pair (h : CutsEvenly n s) (e : Char) : CutsEvenly (2 + n) (backslash :: e :: s) := by
  rw [Nat.add_comm]
  exact ⟨Nat.add_le_add_right h.le 2, (continues_pair e _).trans h.before, h.behind⟩

theorem char {c : Char} (hc : c ≠ backslash) (h : CutsEvenly n s) :
    CutsEvenly (1 + n) (c :: s) := by
  rw [Nat.add_comm]
  exact ⟨Nat.add_le_add_right h.le 1, (continues_cons hc _).trans h.before, h.behind⟩

end CutsEvenly

/-- The key of a line that asks for no other ends within the line. -/
theorem cutsEvenly_keyLength {s : List Char} (h : continues s = false) :
    CutsEvenly (keyLength s) s := by
  induction s using keyLength.induct with
  | case1 => exact .zero h
  | case2 => cases h
  | case3 c hc hend =>
    rw [keyLength_end hc hend]
    exact .zero h
  | case4 c hc hend =>
    rw [keyLength_char hc (Bool.eq_false_iff.2 hend)]
    exact .char hc (.zero rfl)
  | case5 e s ih =>
    rw [continues_pair] at h
    rw [keyLength_pair]
    exact (ih h).pair e
  | case6 c d s hc hend =>
    rw [keyLength_end hc hend]
    exact .zero h
  | case7 c d s hc hend ih =>
    rw [continues_cons hc] at h
    rw [keyLength_char hc (Bool.eq_false_iff.2 hend)]
    exact .char hc (ih h)

theorem not_continues_dropSeparator {s : List Char} (h : continues s = false) :
    continues (dropSeparator s) = false := by
  rw [← continues_dropWhile] at h
  rw [dropSeparator]
  cases hs : s.dropWhile isBlank with
  | nil => rfl
  | cons c r =>
    rw [hs] at h
    by_cases hsign : (c = '=' || c = ':') = true
    · have hc : c ≠ backslash := by
        rintro rfl
        exact absurd hsign (by decide)
      rw [continues_cons hc] at h
      simp only [hsign, if_true]
      rw [continues_dropWhile, h]
    · simp only [hsign]
      exact h

/-! ### Reading that can fail -/

/-- What an escaped text stands for, unless a backslash has nothing behind it. -/
def unescape? : List Char → Option (List Char)
  | [] => some []
  | '\x5c' :: 'u' :: a :: b :: c :: d :: s =>
    match (fourDigits? a b c d).bind scalar? with
    | some ch => (unescape? s).map (ch :: ·)
    | none => (unescape? (a :: b :: c :: d :: s)).map ('u' :: ·)
  | '\x5c' :: e :: s => (unescape? s).map (control e :: ·)
  | ['\x5c'] => none
  | c :: s => (unescape? s).map (c :: ·)

theorem unescape?_eq {s : List Char} (h : continues s = false) :
    unescape? s = some (unescape s) := by
  induction s using unescape.induct with
  | case1 => rfl
  | case2 a b d e s c hc ih =>
    have hdigits : backslash ∉ [a, b, d, e] :=
      (take_of_unit? (s := a :: b :: d :: e :: s) hc).2
    have hlast : continues [a, b, d, e] = false :=
      not_continues_of_getLast? fun hlast => hdigits (List.mem_of_getLast? hlast)
    rw [← backslash, continues_pair] at h
    rw [unescape?, unescape, hc, ih ((continues_append hlast s).symm.trans h)]
    rfl
  | case3 a b d e s hnone ih =>
    rw [← backslash, continues_pair] at h
    rw [unescape?, unescape, hnone, ih h]
    rfl
  | case4 e s hshort ih =>
    rw [← backslash, continues_pair] at h
    rw [unescape?, unescape, ih h]
    · rfl
    · exact hshort
    · exact hshort
  | case5 => cases h
  | case6 c s hu hpair hend ih =>
    have hc : c ≠ backslash := by
      rintro rfl
      cases s with
      | nil => exact hend rfl rfl
      | cons e s => exact hpair e s rfl rfl
    rw [continues_cons hc] at h
    rw [unescape_char hc, unescape?, ih h]
    · rfl
    all_goals assumption

/-- The two parts of a text, unless it ends before the cut. -/
def cut? (n : Nat) (s : List Char) : Option (List Char × List Char) :=
  if n ≤ s.length then some (s.take n, s.drop n) else none

/-- The entry on a logical line, if it is not blank.  Fails where the line ends before its key or a
backslash has nothing behind it. -/
def LogicalLine.read? (l : LogicalLine) : Option (Option Entry) :=
  match l.text.dropWhile isBlank with
  | [] => some none
  | c :: r => do
    let (key, rest) ← cut? (keyLength (c :: r)) (c :: r)
    let key ← unescape? key
    let value ← unescape? (dropSeparator rest)
    return some ⟨String.ofList key, String.ofList value, l.number⟩

def entries? (text : String) : Option (List Entry) := do
  let es ← (logicalLines text.toList).mapM (·.read?)
  return es.filterMap id

theorem cut?_eq {n : Nat} {s : List Char} (h : CutsEvenly n s) :
    cut? n s = some (s.take n, s.drop n) := if_pos h.le

theorem cutsEvenly_line {l : LogicalLine} (h : continues l.text = false) :
    CutsEvenly (keyLength (l.text.dropWhile isBlank)) (l.text.dropWhile isBlank) :=
  cutsEvenly_keyLength ((continues_dropWhile l.text).trans h)

theorem read?_eq {l : LogicalLine} (h : continues l.text = false) :
    l.read? = some l.readEntry := by
  have hcut := cutsEvenly_line h
  rw [LogicalLine.read?, LogicalLine.readEntry]
  cases hline : l.text.dropWhile isBlank with
  | nil => rfl
  | cons c r =>
    rw [hline] at hcut
    simp only [cut?_eq hcut, unescape?_eq hcut.before,
      unescape?_eq (not_continues_dropSeparator hcut.behind), Option.bind_eq_bind,
      Option.bind_some, Option.pure_def]

theorem mapM_read? {ls : List LogicalLine} (h : ∀ l ∈ ls, continues l.text = false) :
    ls.mapM (·.read?) = some (ls.map (·.readEntry)) := by
  induction ls with
  | nil => rfl
  | cons l ls ih =>
    rw [List.forall_mem_cons] at h
    rw [List.mapM_cons, read?_eq h.1, ih h.2]
    rfl

/-- No reading of a text fails.  A line that asks for the next one has a backslash to give up; a
logical line ends in an even number of them; the scan for the end of its key stays within it; and
no backslash in a key or a value has nothing behind it. -/
theorem entries_never_fail (text : String) :
    entries? text = some (entries text) ∧
      (∀ line : List Char, continues line = true → line = line.dropLast ++ [backslash]) ∧
      ∀ l ∈ logicalLines text.toList, continues l.text = false ∧
        keyLength (l.text.dropWhile isBlank) ≤ (l.text.dropWhile isBlank).length := by
  refine ⟨?_, fun line h => ?_, fun l hl => ?_⟩
  · rw [entries?, mapM_read? fun l => not_continues_logicalLine]
    show some (((logicalLines text.toList).map (·.readEntry)).filterMap id) = some (entries text)
    rw [List.filterMap_map]
    rfl
  · obtain ⟨p, rfl, -⟩ := eq_concat_of_continues h
    rw [List.dropLast_concat]
  · have heven := not_continues_logicalLine hl
    exact ⟨heven, (cutsEvenly_line heven).le⟩

/-- Lines of nothing but backslashes, the last of which asks for a line that is not there. -/
theorem entries_never_fail_backslashes :
    continues "\\\\\\".toList = true ∧ "\\\\\\".toList = "\\\\".toList ++ [backslash] ∧
      ⟨1, "\\\\\\\\".toList⟩ ∈ logicalLines "\\\\\\\n\\\n\\\\\\".toList ∧
      continues "\\\\\\\\".toList = false ∧
      keyLength ("\\\\\\\\".toList.dropWhile isBlank) ≤
        ("\\\\\\\\".toList.dropWhile isBlank).length ∧
      entries? "\\\\\\\n\\\n\\\\\\" = some [⟨"\\\\", "", 1⟩] := by
  have hasks : continues "\\\\\\".toList = true := by decide +kernel
  have hmem : ⟨1, "\\\\\\\\".toList⟩ ∈ logicalLines "\\\\\\\n\\\n\\\\\\".toList := by
    decide +kernel
  obtain ⟨hentries, hline, hlogical⟩ := entries_never_fail "\\\\\\\n\\\n\\\\\\"
  obtain ⟨heven, hle⟩ := hlogical _ hmem
  exact ⟨hasks, (hline _ hasks).trans (by decide +kernel), hmem, heven, hle,
    hentries.trans (by decide +kernel)⟩

/-- A line that ended in an odd number of backslashes would not be read. -/
example : (LogicalLine.mk 1 [backslash]).read? = none := by decide

end Properties
end Wiring
