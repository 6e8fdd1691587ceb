import Wiring.Proofs.LogicalLines

/-!
# Writing a properties text

A pair is written on a line of its own, key and value with their special characters escaped and
an equals sign between them.  No written line is blank, opens a comment or asks for the next one,
its key ends at the sign, and reading undoes every escape: a written text reads as its pairs.
-/

namespace Wiring
namespace Properties

/-- What follows the backslash when `c` is escaped; `none` for a character that stands for
itself. -/
def escaped? (c : Char) : Option Char :=
  if c = '\t' then some 't' else if c = '\n' then some 'n' else if c = '\r' then some 'r'
  else if c = '\x0c' then some 'f'
  else if c ∈ [' ', '=', ':', '#', '!', backslash] then some c else none

def escapeChar (c : Char) : List Char :=
  match escaped? c with
  | some e => [backslash, e]
  | none => [c]

def escape (s : List Char) : List Char := s.flatMap escapeChar

def writeLine (p : String × String) : List Char :=
  escape p.1.toList ++ '=' :: escape p.2.toList

/-- The lines of the pairs, separated by line feeds. -/
def write (ps : List (String × String)) : String :=
  String.ofList (['\n'].intercalate (ps.map writeLine))

/-! ### Characters -/

section

variable {c e : Char} {s rest : List Char}

theorem escaped?_eq_some (h : escaped? c = some e) :
    control e = c ∧ e ≠ 'u' ∧ e ≠ '\n' ∧ e ≠ '\r' := by
  unfold escaped? at h
  split at h
  case isTrue hc => obtain rfl := Option.some.inj h; subst hc; decide
  split at h
  case isTrue hc => obtain rfl := Option.some.inj h; subst hc; decide
  split at h
  case isTrue hc => obtain rfl := Option.some.inj h; subst hc; decide
  split at h
  case isTrue hc => obtain rfl := Option.some.inj h; subst hc; decide
  split at h
  case isTrue hc =>
    obtain rfl := Option.some.inj h
    simp only [List.mem_cons, List.not_mem_nil, or_false] at hc
    rcases hc with rfl | rfl | rfl | rfl | rfl | rfl <;> decide
  case isFalse => cases h

/-- A character that is not escaped has no meaning of its own anywhere in a line. -/
theorem escaped?_eq_none (h : escaped? c = none) :
    c ≠ backslash ∧ c ≠ '\n' ∧ c ≠ '\r' ∧ c ≠ '#' ∧ c ≠ '!' ∧ isBlank c = false ∧
      (c = '=' || c = ':' || isBlank c) = false := by
  have h' : c ≠ '\t' ∧ c ≠ '\n' ∧ c ≠ '\r' ∧ c ≠ '\x0c' ∧
      c ∉ [' ', '=', ':', '#', '!', backslash] := by
    refine ⟨?_, ?_, ?_, ?_, fun hmem => ?_⟩
    iterate 4
      rintro rfl
      exact absurd h (by decide)
    simp only [escaped?, hmem, if_true] at h
    grind
  simp only [List.mem_cons, List.not_mem_nil, or_false, not_or] at h'
  obtain ⟨htab, hfeed, hreturn, hpage, hspace, hequals, hcolon, hhash, hbang, hback⟩ := h'
  simp [isBlank, *]

/-- A text and its written form, character by character. -/
theorem escape_induction {P : List Char → List Char → Prop} (s : List Char) (nil : P [] [])
    (pair : ∀ c e s t, control e = c → e ≠ 'u' → e ≠ '\n' → e ≠ '\r' → P s t →
      P (c :: s) (backslash :: e :: t))
    (char : ∀ c s t, escaped? c = none → P s t → P (c :: s) (c :: t)) : P s (escape s) := by
  induction s with
  | nil => exact nil
  | cons c s ih =>
    rw [escape, List.flatMap_cons, escapeChar]
    cases h : escaped? c with
    | some e =>
      obtain ⟨hcontrol, hu, hn, hr⟩ := escaped?_eq_some h
      exact pair c e s _ hcontrol hu hn hr ih
    | none => exact char c s _ h ih

theorem unescape_escape (s : List Char) : unescape (escape s) = s := by
  refine escape_induction (P := fun s t => unescape t = s) s rfl ?_ ?_
  · intro c e s t hcontrol hu _ _ ih
    rw [unescape_pair hu, hcontrol, ih]
  · intro c s t hc ih
    rw [unescape_char (escaped?_eq_none hc).1, ih]

/-- The key of a written line ends at the sign after it. -/
theorem keyLength_escape (s rest : List Char) :
    keyLength (escape s ++ '=' :: rest) = (escape s).length := by
  refine escape_induction (P := fun _ t => keyLength (t ++ '=' :: rest) = t.length) s ?_ ?_ ?_
  · exact keyLength_end (by decide) rfl rest
  · intro _ e _ t _ _ _ _ ih
    rw [List.cons_append, List.cons_append, keyLength_pair, ih, List.length_cons,
      List.length_cons]
    omega
  · intro c _ t hc ih
    obtain ⟨hback, -, -, -, -, -, hend⟩ := escaped?_eq_none hc
    rw [List.cons_append, keyLength_char hback hend, ih, List.length_cons]
    omega

/-- A written text stays on its line. -/
theorem not_mem_escape (s : List Char) : '\n' ∉ escape s ∧ '\r' ∉ escape s := by
  refine escape_induction (P := fun _ t => '\n' ∉ t ∧ '\r' ∉ t) s ⟨nofun, nofun⟩ ?_ ?_
  · intro _ e _ t _ _ hn hr ⟨ihn, ihr⟩
    have hback : '\n' ≠ backslash ∧ '\r' ≠ backslash := by decide
    simp [hback, hn.symm, hr.symm, ihn, ihr]
  · intro c _ t hc ⟨ihn, ihr⟩
    obtain ⟨-, hn, hr, -⟩ := escaped?_eq_none hc
    simp [hn.symm, hr.symm, ihn, ihr]

/-- What is written for a text opens neither with a blank nor with a comment sign. -/
theorem escape_cons (c : Char) (s : List Char) :
    ∃ d t, escape (c :: s) = d :: t ∧ isBlank d = false ∧ d ≠ '#' ∧ d ≠ '!' := by
  rw [escape, List.flatMap_cons, escapeChar]
  cases h : escaped? c with
  | some e => exact ⟨backslash, _, rfl, by decide⟩
  | none =>
    obtain ⟨-, -, -, hhash, hbang, hblank, -⟩ := escaped?_eq_none h
    exact ⟨c, _, rfl, hblank, hhash, hbang⟩

theorem dropWhile_escape (s : List Char) : (escape s).dropWhile isBlank = escape s := by
  cases s with
  | nil => rfl
  | cons c s =>
    obtain ⟨d, t, heq, hblank, -⟩ := escape_cons c s
    rw [heq, List.dropWhile_cons_of_neg (by simp [hblank])]

/-! ### Lines -/

/-- An escape leaves the run of backslashes at the end even or odd as it was. -/
theorem continues_pair (e : Char) (s : List Char) :
    continues (backslash :: e :: s) = continues s := by
  by_cases he : e = backslash
  · subst he
    exact continues_append (a := [backslash, backslash]) (by decide) s
  · exact continues_append_cons he [backslash] s

theorem not_continues_escape (s : List Char) : continues (escape s) = false := by
  refine escape_induction (P := fun _ t => continues t = false) s rfl ?_ ?_
  · intro _ e _ t _ _ _ _ ih
    rw [continues_pair, ih]
  · intro c _ t hc ih
    exact (continues_cons (escaped?_eq_none hc).1 t).trans ih

theorem not_continues_writeLine (p : String × String) : continues (writeLine p) = false :=
  (continues_append_cons (by decide) _ _).trans (not_continues_escape _)

/-- A line that opens with an escaped key has no leading blank and is no comment. -/
theorem escape_equals_cons (k rest : List Char) :
    ∃ c t, escape k ++ '=' :: rest = c :: t ∧ isBlank c = false ∧ c ≠ '#' ∧ c ≠ '!' := by
  cases k with
  | nil => exact ⟨'=', rest, rfl, by decide⟩
  | cons d k =>
    obtain ⟨c, t, heq, hc⟩ := escape_cons d k
    exact ⟨c, t ++ '=' :: rest, by rw [heq, List.cons_append], hc⟩

theorem dropWhile_escape_equals (k rest : List Char) :
    (escape k ++ '=' :: rest).dropWhile isBlank = escape k ++ '=' :: rest := by
  obtain ⟨c, t, heq, hblank, -⟩ := escape_equals_cons k rest
  rw [heq, List.dropWhile_cons_of_neg (by simp [hblank])]

theorem not_isComment_escape_equals (k rest : List Char) :
    isComment (escape k ++ '=' :: rest) = false := by
  obtain ⟨c, t, heq, -, hhash, hbang⟩ := escape_equals_cons k rest
  rw [isComment, dropWhile_escape_equals, heq]
  simp [hhash, hbang]

theorem not_isComment_writeLine (p : String × String) : isComment (writeLine p) = false :=
  not_isComment_escape_equals _ _

theorem not_mem_writeLine (p : String × String) : '\n' ∉ writeLine p ∧ '\r' ∉ writeLine p := by
  obtain ⟨hn, hr⟩ := not_mem_escape p.1.toList
  obtain ⟨hn', hr'⟩ := not_mem_escape p.2.toList
  simp [writeLine, hn, hr, hn', hr']

/-- Behind an escaped key and the sign, the rest of the line is the value. -/
theorem readEntry_escape_equals (k : String) {rest : List Char}
    (hrest : rest.dropWhile isBlank = rest) (n : Nat) :
    (LogicalLine.mk n (escape k.toList ++ '=' :: rest)).readEntry =
      some ⟨k, String.ofList (unescape rest), n⟩ := by
  obtain ⟨c, t, heq, -⟩ := escape_equals_cons k.toList rest
  have hvalue : dropSeparator ('=' :: rest) = rest := by
    simp [dropSeparator, isBlank, hrest]
  rw [LogicalLine.readEntry, dropWhile_escape_equals, heq]
  simp only [← heq]
  rw [keyLength_escape, List.take_left, List.drop_left, hvalue, unescape_escape,
    String.ofList_toList]

theorem blockEntry_escape_equals (k : String) {rest : List Char}
    (hrest : rest.dropWhile isBlank = rest) (hend : continues rest = false) (n : Nat) :
    blockEntry (n, [escape k.toList ++ '=' :: rest]) =
      some ⟨k, String.ofList (unescape rest), n⟩ := by
  have hline : continues (escape k.toList ++ '=' :: rest) = false :=
    (continues_append_cons (by decide) _ _).trans hend
  have htext : blockText [escape k.toList ++ '=' :: rest] = escape k.toList ++ '=' :: rest := by
    rw [blockText, unasked, hline, continuation, List.flatMap_nil, List.append_nil]
    rfl
  rw [blockEntry, assemble, List.headD_cons, not_isComment_escape_equals, htext]
  exact readEntry_escape_equals k hrest n

/-- A written line is read as its pair. -/
theorem readEntry_writeLine (p : String × String) (n : Nat) :
    (LogicalLine.mk n (writeLine p)).readEntry = some ⟨p.1, p.2, n⟩ := by
  rw [writeLine, readEntry_escape_equals p.1 (dropWhile_escape _), unescape_escape,
    String.ofList_toList]

end

/-! ### Texts -/

theorem physicalLines_writeLine (p : String × String) :
    physicalLines (writeLine p) = [writeLine p] := by
  refine physicalLines_line (not_mem_writeLine p).1 fun hnil => ?_
  exact absurd (List.append_eq_nil_iff.1 hnil).2 (List.cons_ne_nil _ _)

theorem physicalLines_writeLine_ended (p : String × String) (s : List Char) :
    physicalLines (writeLine p ++ '\n' :: s) = writeLine p :: physicalLines s :=
  physicalLines_line_ended (not_mem_writeLine p).1
    (fun h => (not_mem_writeLine p).2 (List.mem_of_getLast? h)) s

/-- The line feeds between the written lines take them apart again, with one more at the end and
without it. -/
theorem physicalLines_write (p : String × String) (ps : List (String × String)) :
    physicalLines (['\n'].intercalate ((p :: ps).map writeLine)) = (p :: ps).map writeLine ∧
      physicalLines (['\n'].intercalate ((p :: ps).map writeLine) ++ ['\n']) =
        (p :: ps).map writeLine := by
  induction ps generalizing p with
  | nil =>
    simp only [List.map_cons, List.map_nil, List.intercalate_singleton]
    exact ⟨physicalLines_writeLine p, physicalLines_writeLine_ended p []⟩
  | cons q ps ih =>
    obtain ⟨ih, ih'⟩ := ih q
    rw [List.map_cons] at ih ih'
    rw [List.map_cons, List.map_cons, List.intercalate_cons_cons, List.append_assoc,
      List.singleton_append, physicalLines_writeLine_ended, ih, List.append_assoc,
      List.cons_append, physicalLines_writeLine_ended, ih']
    exact ⟨rfl, rfl⟩

/-- No written line joins the next, so that each keeps its own number. -/
theorem joinLines_write (n : Nat) (ps : List (String × String)) :
    joinLines none n (ps.map writeLine) =
      (ps.zipIdx n).map fun (p, i) => ⟨i, writeLine p⟩ := by
  induction ps generalizing n with
  | nil => rfl
  | cons p ps ih =>
    rw [List.map_cons, joinLines, not_isComment_writeLine, not_continues_writeLine, ih,
      List.zipIdx_cons, List.map_cons]
    rfl

/-- The pairs with the numbers of their lines. -/
def numbered (ps : List (String × String)) : List Entry :=
  (ps.zipIdx 1).map fun (p, n) => ⟨p.1, p.2, n⟩

theorem filterMap_readEntry_write (ps : List (String × String)) :
    (joinLines none 1 (ps.map writeLine)).filterMap (·.readEntry) = numbered ps := by
  have hread : (LogicalLine.readEntry ∘ fun x => ⟨x.2, writeLine x.1⟩) =
      some ∘ fun x : (String × String) × Nat => ⟨x.1.1, x.1.2, x.2⟩ :=
    funext fun x => readEntry_writeLine x.1 x.2
  rw [joinLines_write, List.filterMap_map, numbered]
  exact (congrArg (List.filterMap · _) hread).trans (congrFun List.filterMap_eq_map _)

/-- Reading a written text gives its pairs in their order, numbered by lines from 1, whether or
not the last line is ended. -/
theorem entries_write (ps : List (String × String)) :
    entries (write ps) = numbered ps ∧ entries (write ps ++ "\n") = numbered ps := by
  rw [entries, entries, write, String.toList_append, String.toList_ofList, logicalLines,
    logicalLines]
  cases ps with
  | nil => exact ⟨rfl, rfl⟩
  | cons p ps =>
    obtain ⟨hlines, hlines'⟩ := physicalLines_write p ps
    rw [hlines]
    refine ⟨filterMap_readEntry_write _, ?_⟩
    rw [show "\n".toList = ['\n'] from rfl, hlines']
    exact filterMap_readEntry_write _

end Properties
end Wiring
