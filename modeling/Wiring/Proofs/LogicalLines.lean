import Wiring.Properties.File

/-!
# Logical lines

The lines of a text fall into blocks: a comment by itself, or a line with those that continue it.
A block is read by itself, and all that the rest of the text decides is the number of its first
line.  So a text can be cut at any line feed that no line asks to pass over, and what is read of it
are the entries of the one part and then those of the other.
-/

namespace Wiring
namespace Properties

/-! ### Backslashes at the end -/

/-- Only what follows an even number of backslashes decides whether a line asks for the next. -/
theorem continues_append {a : List Char} (ha : continues a = false) (s : List Char) :
    continues (a ++ s) = continues s := by
  rw [continues, trailingBackslashes] at ha
  rw [continues, continues, trailingBackslashes, trailingBackslashes, List.reverse_append,
    List.takeWhile_append]
  split
  case isTrue hall =>
    rw [hall, List.length_append, Nat.add_mod]
    simp only [beq_eq_false_iff_ne] at ha
    have heven : (a.reverse.takeWhile (· = backslash)).length % 2 = 0 := by omega
    rw [heven, Nat.add_zero, Nat.mod_mod]
  case isFalse => rfl

theorem not_continues_of_getLast? {a : List Char} (ha : a.getLast? ≠ some backslash) :
    continues a = false := by
  have hnone : a.reverse.takeWhile (· = backslash) = [] := by
    rw [List.getLast?_eq_head?_reverse] at ha
    cases hr : a.reverse with
    | nil => rfl
    | cons c r =>
      rw [hr] at ha
      simp only [List.head?_cons, ne_eq, Option.some.injEq] at ha
      exact List.takeWhile_cons_of_neg (by simpa using ha)
  rw [continues, trailingBackslashes, hnone]
  rfl

theorem continues_append_cons {c : Char} (hc : c ≠ backslash) (a s : List Char) :
    continues (a ++ c :: s) = continues s := by
  have hlast : (a ++ [c]).getLast? ≠ some backslash := by
    rw [List.getLast?_concat]
    exact fun h => hc (Option.some.inj h)
  rw [List.append_cons, continues_append (not_continues_of_getLast? hlast)]

theorem continues_cons {c : Char} (hc : c ≠ backslash) (s : List Char) :
    continues (c :: s) = continues s := continues_append_cons hc [] s

theorem continues_blanks {w : List Char} (hw : ∀ c ∈ w, isBlank c = true) (s : List Char) :
    continues (w ++ s) = continues s := by
  refine continues_append (not_continues_of_getLast? fun hlast => ?_) s
  exact absurd (hw _ (List.mem_of_getLast? hlast)) (by decide)

theorem continues_dropWhile (line : List Char) :
    continues (line.dropWhile isBlank) = continues line := by
  have hblanks : ∀ c ∈ line.takeWhile isBlank, isBlank c = true :=
    List.all_eq_true.1 List.all_takeWhile
  rw [← continues_blanks hblanks (line.dropWhile isBlank), List.takeWhile_append_dropWhile]

/-! ### Physical lines -/

theorem physicalLines_char {c : Char} {s : List Char} (hn : c ≠ '\n')
    (hr : ∀ t, c = '\r' → s ≠ '\n' :: t) :
    physicalLines (c :: s) = (c :: (physicalLines s).headD []) :: (physicalLines s).tail := by
  rw [physicalLines.eq_4 c s hn hr]
  cases physicalLines s <;> rfl

theorem getLast?_ne_of_cons {c d : Char} {s : List Char} (h : (c :: s).getLast? ≠ some d) :
    s.getLast? ≠ some d := by
  intro hs
  rw [List.getLast?_cons, hs] at h
  exact h rfl

/-- The lines of `a` when a line feed follows it. -/
structure EndedLines (a : List Char) (lines : List (List Char)) : Prop where
  length : lines.length = a.count '\n' + 1
  before : ∀ b, physicalLines (a ++ '\n' :: b) = lines ++ physicalLines b
  /-- An empty line counts only if it is ended. -/
  alone : lines = physicalLines a ∨ lines = physicalLines a ++ [[]]

theorem EndedLines.char {c : Char} {s : List Char} {lines : List (List Char)}
    (h : EndedLines s lines) (hn : c ≠ '\n') (hr : ∀ t, c = '\r' → s ≠ '\n' :: t)
    (hne : c = '\r' → s ≠ []) : EndedLines (c :: s) ((c :: lines.headD []) :: lines.tail) := by
  obtain ⟨line, more, rfl⟩ := List.exists_cons_of_length_eq_add_one h.length
  refine ⟨?_, fun b => ?_, ?_⟩
  · rw [List.count_cons_of_ne hn, ← h.length]
    rfl
  · have hrb : ∀ t, c = '\r' → s ++ '\n' :: b ≠ '\n' :: t := by
      intro t hc hst
      obtain ⟨d, u, rfl⟩ := List.exists_cons_of_ne_nil (hne hc)
      exact hr u hc (congrArg (· :: u) (List.cons.inj hst).1)
    rw [List.cons_append, physicalLines_char hn hrb, h.before b]
    rfl
  · rw [physicalLines_char hn hr]
    obtain heq | heq := h.alone
    · exact .inl (heq ▸ rfl)
    · cases hlines : physicalLines s with
      | nil =>
        rw [hlines] at heq
        exact .inl (heq ▸ rfl)
      | cons line' more' =>
        rw [hlines] at heq
        exact .inr (heq ▸ rfl)

theorem exists_endedLines {a : List Char} (ha : a.getLast? ≠ some '\r') :
    ∃ lines, EndedLines a lines := by
  induction a using physicalLines.induct with
  | case1 => exact ⟨[[]], rfl, fun b => rfl, .inr rfl⟩
  | case2 s ih =>
    obtain ⟨lines, h⟩ := ih (getLast?_ne_of_cons ha)
    refine ⟨[] :: lines, ?_, fun b => congrArg ([] :: ·) (h.before b), ?_⟩
    · rw [List.count_cons_self, ← h.length, List.length_cons]
    · exact h.alone.imp (congrArg ([] :: ·)) (congrArg ([] :: ·))
  | case3 s ih =>
    obtain ⟨lines, h⟩ := ih (getLast?_ne_of_cons (getLast?_ne_of_cons ha))
    refine ⟨[] :: lines, ?_, fun b => congrArg ([] :: ·) (h.before b), ?_⟩
    · rw [List.count_cons_of_ne (by decide), List.count_cons_self, ← h.length, List.length_cons]
    · exact h.alone.imp (congrArg ([] :: ·)) (congrArg ([] :: ·))
  | case4 c s hn hr _ ih =>
    obtain ⟨lines, h⟩ := ih (getLast?_ne_of_cons ha)
    exact ⟨_, h.char hn hr fun hc hs => ha (by rw [hc, hs]; rfl)⟩
  | case5 c s hn hr _ _ _ ih =>
    obtain ⟨lines, h⟩ := ih (getLast?_ne_of_cons ha)
    exact ⟨_, h.char hn hr fun hc hs => ha (by rw [hc, hs]; rfl)⟩

theorem physicalLines_line {line : List Char} (hline : '\n' ∉ line) (hne : line ≠ []) :
    physicalLines line = [line] := by
  induction line with
  | nil => exact absurd rfl hne
  | cons c line ih =>
    simp only [List.mem_cons, not_or] at hline
    have hr : ∀ t, c = '\r' → line ≠ '\n' :: t := by
      rintro t - rfl
      exact hline.2 List.mem_cons_self
    rw [physicalLines_char (Ne.symm hline.1) hr]
    cases line with
    | nil => rfl
    | cons d line => rw [ih hline.2 (List.cons_ne_nil _ _)]; rfl

/-- The last line of a text is none if it is empty. -/
theorem physicalLines_of_notMem {line : List Char} (h : '\n' ∉ line) :
    physicalLines line = [] ∧ line = [] ∨ physicalLines line = [line] := by
  by_cases hne : line = []
  · exact .inl ⟨by rw [hne]; rfl, hne⟩
  · exact .inr (physicalLines_line h hne)

theorem physicalLines_line_ended {line : List Char} (hline : '\n' ∉ line)
    (hr : line.getLast? ≠ some '\r') (s : List Char) :
    physicalLines (line ++ '\n' :: s) = line :: physicalLines s := by
  obtain ⟨lines, h⟩ := exists_endedLines hr
  have hlength : lines.length = 1 := by rw [h.length, List.count_eq_zero_of_not_mem hline]
  rw [h.before s]
  cases line with
  | nil =>
    obtain rfl | rfl := h.alone
    · cases hlength
    · rfl
  | cons c line =>
    obtain heq | heq := h.alone
    · rw [heq, physicalLines_line hline (List.cons_ne_nil _ _)]
      rfl
    · rw [heq, physicalLines_line hline (List.cons_ne_nil _ _)] at hlength
      cases hlength

/-! ### Blocks -/

/-- A line asks for the next one if it ends in an odd number of backslashes and is no comment, which
a line that has been asked for never is. -/
def asks (asked : Bool) (line : List Char) : Bool := (asked || !isComment line) && continues line

/-- Whether the last of the lines asks for another one. -/
def lastAsks (asked : Bool) (lines : List (List Char)) : Bool := lines.foldl asks asked

/-- The lines in blocks.  A block goes on as long as its lines ask for more; the first line may have
been asked for. -/
def blocks : Bool → List (List Char) → List (List (List Char))
  | _, [] => []
  | asked, line :: lines =>
    if asks asked line then
      (line :: (blocks true lines).headD []) :: (blocks true lines).tail
    else [line] :: blocks false lines

theorem flatten_blocks (asked : Bool) (lines : List (List Char)) :
    (blocks asked lines).flatten = lines := by
  induction lines generalizing asked with
  | nil => rfl
  | cons line lines ih =>
    rw [blocks]
    split
    · have hmore := ih true
      cases hblocks : blocks true lines with
      | nil => rw [hblocks] at hmore; exact congrArg (line :: ·) hmore
      | cons block more => rw [hblocks] at hmore; exact congrArg (line :: ·) hmore
    · exact congrArg (line :: ·) (ih false)

theorem nil_notMem_blocks (asked : Bool) (lines : List (List Char)) :
    [] ∉ blocks asked lines := by
  induction lines generalizing asked with
  | nil => exact List.not_mem_nil
  | cons line lines ih =>
    rw [blocks]
    split
    · exact fun h => ih true (List.mem_of_mem_tail ((List.mem_cons.1 h).resolve_left (by simp)))
    · exact fun h => ih false ((List.mem_cons.1 h).resolve_left (by simp))

theorem blocks_singleton (asked : Bool) (line : List Char) : blocks asked [line] = [[line]] := by
  rw [blocks]
  split <;> rfl

/-- Blocks end with the lines if the last line asks for no other. -/
theorem blocks_append {asked : Bool} {lines : List (List Char)} (h : lastAsks asked lines = false)
    (lines' : List (List Char)) :
    blocks asked (lines ++ lines') = blocks asked lines ++ blocks false lines' := by
  induction lines generalizing asked with
  | nil =>
    obtain rfl : asked = false := h
    rfl
  | cons line lines ih =>
    rw [lastAsks, List.foldl_cons, ← lastAsks] at h
    rw [List.cons_append, blocks, blocks]
    by_cases hasks : asks asked line = true
    · rw [if_pos hasks, if_pos hasks, ← hasks, ih h, hasks]
      rw [hasks] at h
      -- what is asked for is there, since the last line asks for nothing
      cases hblocks : blocks true lines with
      | nil =>
        have hnone := flatten_blocks true lines
        rw [hblocks] at hnone
        cases hnone
        cases h
      | cons block more => rfl
    · have hasks := Bool.eq_false_iff.2 hasks
      rw [hasks] at h ⊢
      rw [if_neg Bool.false_ne_true, if_neg Bool.false_ne_true, ih h]
      rfl

/-- The line without the backslash by which it asks for the next one. -/
def unasked (line : List Char) : List Char := if continues line then line.dropLast else line

/-- What lines add to the line that they continue. -/
def continuation (lines : List (List Char)) : List Char :=
  lines.flatMap fun line => unasked (line.dropWhile isBlank)

/-- The text of the logical line that a block makes. -/
def blockText : List (List Char) → List Char
  | [] => []
  | line :: more => unasked line ++ continuation more

/-- The logical line of a block, the first line of which has the number `b.1`. -/
def assemble (b : Nat × List (List Char)) : Option LogicalLine :=
  if isComment (b.2.headD []) then none else some ⟨b.1, blockText b.2⟩

/-- The blocks with the numbers of their first lines, if `n` is the number of the first of all. -/
def placed : Nat → List (List (List Char)) → List (Nat × List (List Char))
  | _, [] => []
  | n, block :: more => (n, block) :: placed (n + block.length) more

/-- The logical lines are those of the blocks.  A line that has been opened goes on with the block
that the lines begin with. -/
theorem joinLines_eq (n : Nat) (lines : List (List Char)) :
    joinLines none n lines = (placed n (blocks false lines)).filterMap assemble ∧
      ∀ opened, joinLines (some opened) n lines =
        ⟨opened.number, opened.text ++ continuation ((blocks true lines).headD [])⟩ ::
          (placed (n + ((blocks true lines).headD []).length) (blocks true lines).tail).filterMap
            assemble := by
  -- both at once, because each line may open one or end it
  induction lines generalizing n with
  | nil => exact ⟨rfl, fun opened => by simp [joinLines, blocks, placed, continuation]⟩
  | cons line lines ih =>
    obtain ⟨ihnone, ihsome⟩ := ih (n + 1)
    simp only [Nat.add_right_comm n 1] at ihsome
    constructor
    · rw [joinLines, blocks, asks, Bool.false_or]
      by_cases hcomment : isComment line = true
      · rw [if_pos hcomment, hcomment, ihnone]
        simp [placed, assemble, hcomment]
      · by_cases hcontinues : continues line = true
        · rw [if_neg hcomment, if_pos hcontinues, ihsome]
          simp [placed, assemble, blockText, unasked, hcomment, hcontinues, ← Nat.add_assoc]
        · rw [if_neg hcomment, if_neg hcontinues, ihnone]
          simp [placed, assemble, blockText, unasked, continuation, hcomment, hcontinues]
    · intro opened
      rw [joinLines, blocks, asks, Bool.true_or, Bool.true_and, continues_dropWhile]
      by_cases hcontinues : continues line = true
      · rw [if_pos hcontinues, if_pos hcontinues, ihsome]
        simp [continuation, unasked, continues_dropWhile, hcontinues, ← Nat.add_assoc]
      · rw [if_neg hcontinues, if_neg hcontinues, ihnone]
        simp [continuation, unasked, continues_dropWhile, hcontinues]

/-! ### Numbers of lines -/

theorem placed_append (n : Nat) (bs cs : List (List (List Char))) :
    placed n (bs ++ cs) = placed n bs ++ placed (n + bs.flatten.length) cs := by
  induction bs generalizing n with
  | nil => rfl
  | cons block bs ih =>
    rw [List.cons_append, placed, placed, ih, List.flatten_cons, List.length_append, Nat.add_assoc,
      List.cons_append]

theorem placed_add (n k : Nat) (bs : List (List (List Char))) :
    placed (n + k) bs = (placed n bs).map fun b => (b.1 + k, b.2) := by
  induction bs generalizing n with
  | nil => rfl
  | cons block bs ih =>
    rw [placed, placed, List.map_cons, ← ih, Nat.add_right_comm]

theorem le_of_mem_placed {n : Nat} {bs : List (List (List Char))} {b : Nat × List (List Char)}
    (h : b ∈ placed n bs) : n ≤ b.1 := by
  induction bs generalizing n with
  | nil => cases h
  | cons block bs ih =>
    obtain rfl | hmore := List.mem_cons.1 h
    · exact Nat.le_refl n
    · exact Nat.le_trans (Nat.le_add_right n block.length) (ih hmore)

/-- No two blocks have the same first line, because none is empty. -/
theorem pairwise_placed {bs : List (List (List Char))} (h : [] ∉ bs) (n : Nat) :
    (placed n bs).Pairwise (·.1 < ·.1) := by
  induction bs generalizing n with
  | nil => exact .nil
  | cons block bs ih =>
    simp only [List.mem_cons, not_or] at h
    refine .cons (fun b hb => ?_) (ih h.2 _)
    have hpos := List.length_pos_iff.2 (Ne.symm h.1)
    have hle := le_of_mem_placed hb
    show n < b.1
    omega

/-! ### Entries -/

/-- The entry, `k` lines further down. -/
def Entry.down (k : Nat) (e : Entry) : Entry := { e with line := e.line + k }

/-- The entry of a block, the first line of which has the number `b.1`. -/
def blockEntry (b : Nat × List (List Char)) : Option Entry := (assemble b).bind (·.readEntry)

theorem blockEntry_down (n k : Nat) (block : List (List Char)) :
    blockEntry (n + k, block) = (blockEntry (n, block)).map (.down k) := by
  rw [blockEntry, blockEntry, assemble, assemble]
  split
  · rfl
  · simp only [Option.bind_some, LogicalLine.readEntry]
    split <;> rfl

theorem line_of_blockEntry {b : Nat × List (List Char)} {e : Entry} (h : blockEntry b = some e) :
    e.line = b.1 := by
  rw [blockEntry, assemble] at h
  split at h
  · cases h
  · simp only [Option.bind_some, LogicalLine.readEntry] at h
    split at h
    · cases h
    · exact Option.some.inj h ▸ rfl

theorem filterMap_joinLines (n : Nat) (lines : List (List Char)) :
    (joinLines none n lines).filterMap (·.readEntry) =
      (placed n (blocks false lines)).filterMap blockEntry := by
  rw [(joinLines_eq n lines).1, List.filterMap_filterMap]
  rfl

theorem entries_eq (text : String) :
    entries text = (placed 1 (blocks false (physicalLines text.toList))).filterMap blockEntry :=
  filterMap_joinLines 1 _

theorem filterMap_placed_singleton (n : Nat) (block : List (List Char)) :
    (placed n [block]).filterMap blockEntry = (blockEntry (n, block)).toList := by
  rw [placed, placed, List.filterMap_cons]
  cases blockEntry (n, block) <;> rfl

/-- A line feed at the end of a text ends the last line, so nothing is read besides. -/
theorem filterMap_joinLines_concat_nil (opened : Option LogicalLine) (n : Nat)
    (lines : List (List Char)) :
    (joinLines opened n (lines ++ [[]])).filterMap (·.readEntry) =
      (joinLines opened n lines).filterMap (·.readEntry) := by
  induction lines generalizing opened n with
  | nil =>
    cases opened with
    | none => rfl
    | some opened =>
      show [LogicalLine.mk opened.number (opened.text ++ [])].filterMap _ = _
      rw [List.append_nil]
      rfl
  | cons line lines ih =>
    cases opened with
    | none =>
      rw [List.cons_append, joinLines, joinLines]
      split
      · exact ih none (n + 1)
      · split
        · exact ih _ (n + 1)
        · rw [List.filterMap_cons, List.filterMap_cons, ih]
    | some opened =>
      rw [List.cons_append, joinLines, joinLines]
      split
      · exact ih _ (n + 1)
      · rw [List.filterMap_cons, List.filterMap_cons, ih]

/-! ### Texts -/

/-- A text of one line, be it empty. -/
theorem entries_line {text : String} (h : '\n' ∉ text.toList) :
    entries text = (blockEntry (1, [text.toList])).toList := by
  rw [entries_eq]
  obtain ⟨hlines, hnil⟩ | hlines := physicalLines_of_notMem h
  · rw [hlines, hnil]
    rfl
  · rw [hlines, blocks_singleton, filterMap_placed_singleton]

/-- The last line of the text asks for the next one.  After a line feed at the end of the text that
line is empty. -/
def endsOpen (text : String) : Bool := lastAsks false (physicalLines (text ++ "\n").toList)

theorem entries_append {a : String} (hr : a.toList.getLast? ≠ some '\r') (ha : endsOpen a = false)
    (b : String) :
    entries (a ++ "\n" ++ b) =
      entries a ++ (entries b).map (.down (a.toList.count '\n' + 1)) := by
  obtain ⟨lines, h⟩ := exists_endedLines hr
  have hended : physicalLines (a ++ "\n").toList = lines := by
    rw [String.toList_append]
    exact (h.before []).trans (List.append_nil lines)
  have hjoined : physicalLines (a ++ "\n" ++ b).toList = lines ++ physicalLines b.toList := by
    rw [String.toList_append, String.toList_append, List.append_assoc]
    exact h.before b.toList
  have halone : entries a = (placed 1 (blocks false lines)).filterMap blockEntry := by
    obtain rfl | rfl := h.alone
    · exact entries_eq a
    · rw [← filterMap_joinLines, filterMap_joinLines_concat_nil]
      rfl
  rw [endsOpen, hended] at ha
  rw [entries_eq, hjoined, blocks_append ha, placed_append, flatten_blocks, h.length,
    List.filterMap_append, ← halone, placed_add, entries_eq b, List.map_filterMap,
    List.filterMap_map]
  exact congrArg (entries a ++ List.filterMap · _) (funext fun b => blockEntry_down b.1 _ b.2)

/-- Entries stand on lines further and further down. -/
theorem pairwise_line_entries (text : String) : (entries text).Pairwise (·.line < ·.line) := by
  rw [entries_eq]
  refine (pairwise_placed (nil_notMem_blocks false _) 1).filterMap _ ?_
  intro b b' hlt e he e' he'
  rw [line_of_blockEntry he, line_of_blockEntry he']
  exact hlt

/-- A text can be cut at a line feed that the line before it does not ask to pass over: what is read
are the entries of the one part and then, further down, those of the other.  In each text every line
belongs to one block, each block is read once, and the entries stand further and further down. -/
theorem entries_separate :
    (∀ a b : String, a.toList.getLast? ≠ some '\r' → endsOpen a = false →
      entries (a ++ "\n" ++ b) =
        entries a ++ (entries b).map (.down (a.toList.count '\n' + 1))) ∧
    ∀ text : String, (entries text).Pairwise (·.line < ·.line) ∧
      (blocks false (physicalLines text.toList)).flatten = physicalLines text.toList ∧
      [] ∉ blocks false (physicalLines text.toList) ∧
      entries text =
        (placed 1 (blocks false (physicalLines text.toList))).filterMap blockEntry :=
  ⟨fun _ b hr ha => entries_append hr ha b, fun text => ⟨pairwise_line_entries text,
    flatten_blocks false _, nil_notMem_blocks false _, entries_eq text⟩⟩

/-- The backslash of a comment asks for nothing, also behind a line that is continued. -/
theorem entries_separate_comment :
    "k = a \\\n # b\n# note \\".toList.getLast? ≠ some '\r' ∧
      endsOpen "k = a \\\n # b\n# note \\" = false ∧
      entries ("k = a \\\n # b\n# note \\" ++ "\n" ++ "l: c") =
        [⟨"k", "a # b", 1⟩, ⟨"l", "c", 4⟩] := by
  have hr : "k = a \\\n # b\n# note \\".toList.getLast? ≠ some '\r' := by decide +kernel
  have ha : endsOpen "k = a \\\n # b\n# note \\" = false := by decide +kernel
  exact ⟨hr, ha, (entries_separate.1 _ "l: c" hr ha).trans (by decide +kernel)⟩

end Properties
end Wiring
