import Wiring.Json.Printer
import Wiring.Json.Reader

/-!
# Reading what was printed

A printed value is read up to its last character, whatever stands after it, provided that a
number does not go on there.  The reader's calls inside each other are fewer than the characters
it has read.
-/

namespace Wiring
namespace Json

/-! ### Numbers -/

theorem digitValue?_digitChar : ∀ d < 10, Text.digitValue? 10 (Nat.digitChar d) = some d := by
  decide

theorem digits_cons {c : Char} {d : Nat} (hc : Text.digitValue? 10 c = some d) (v k : Nat)
    (s : List Char) : digits v k (c :: s) = digits (v * 10 + d) (k + 1) s := by
  rw [digits, hc]

/-- The digits of a number are read as the number. -/
theorem digits_toDigits (n : Nat) (s : List Char) :
    digits 0 0 (Nat.toDigits 10 n ++ s) = digits n (Nat.toDigits 10 n).length s := by
  induction n using Nat.strongRecOn generalizing s with
  | ind n ih =>
    rw [Nat.toDigits_eq_if (by decide)]
    split
    case isTrue hn =>
      rw [List.singleton_append, digits_cons (digitValue?_digitChar n hn), List.length_singleton]
      congr 1
      omega
    case isFalse hn =>
      rw [List.append_assoc, ih (n / 10) (by omega), List.singleton_append,
        digits_cons (digitValue?_digitChar (n % 10) (by omega)), List.length_append,
        List.length_singleton]
      congr 1
      omega

/-- A number is written with at least one digit, and none but zero begins with a zero. -/
theorem toDigits_eq_cons (n : Nat) :
    ∃ c s, Nat.toDigits 10 n = c :: s ∧ (∃ d < 10, c = Nat.digitChar d) ∧ (c = '0' → n = 0) := by
  induction n using Nat.strongRecOn with
  | ind n ih =>
    rw [Nat.toDigits_eq_if (by decide)]
    split
    case isTrue hn =>
      have hzero : ∀ d < 10, Nat.digitChar d = '0' → d = 0 := by decide
      exact ⟨_, [], rfl, ⟨n, hn, rfl⟩, hzero n hn⟩
    case isFalse hn =>
      obtain ⟨c, s, hcs, hdigit, hzero⟩ := ih (n / 10) (by omega)
      refine ⟨c, s ++ [Nat.digitChar (n % 10)], by rw [hcs, List.cons_append], hdigit, ?_⟩
      intro hc
      have := hzero hc
      omega

/-- No value goes on here: it ends, or the sign that follows is none of its characters. -/
def Ends (s : List Char) : Prop := ∀ c ∈ s.head?, c = ',' ∨ c = ']' ∨ c = '\x7d'

theorem digits_ends {s : List Char} (h : Ends s) (v k : Nat) : digits v k s = (v, k, s) := by
  cases s with
  | nil => rfl
  | cons c s =>
    have hc : Text.digitValue? 10 c = none := by
      rcases h c rfl with rfl | rfl | rfl <;> decide
    rw [digits, hc]

theorem readMagnitude_toDigits (n : Nat) {s : List Char} (h : Ends s) :
    readMagnitude (Nat.toDigits 10 n ++ s) = some (.int n, s) := by
  obtain ⟨c, t, hcs, -, hzero⟩ := toDigits_eq_cons n
  have hdigits := (digits_toDigits n s).trans (digits_ends h _ _)
  have hhead : (Nat.toDigits 10 n ++ s).head? = some c := by rw [hcs]; rfl
  have hcount : (Nat.toDigits 10 n).length ≠ 0 := by rw [hcs]; exact Nat.succ_ne_zero _
  have hlead : ¬ c = '0' ∨ (Nat.toDigits 10 n).length = 1 := by
    by_cases hc : c = '0'
    · rw [hzero hc]
      exact .inr rfl
    · exact .inl hc
  have hcounted : guard ((Nat.toDigits 10 n).length ≠ 0) = some () := if_pos hcount
  have hled : guard (decide (some c ≠ some '0') || decide ((Nat.toDigits 10 n).length = 1)) =
      some () := if_pos (by simpa using hlead)
  rw [readMagnitude, hdigits]
  dsimp only
  rw [hhead, hcounted, hled]
  cases s with
  | nil => simp
  | cons d s => rcases h d rfl with rfl | rfl | rfl <;> simp

theorem toList_toString_ofNat (n : Nat) : (toString (n : Int)).toList = Nat.toDigits 10 n := by
  rw [Int.toString_eq_repr]
  exact Nat.toList_repr

theorem toList_toString_negSucc (n : Nat) :
    (toString (Int.negSucc n)).toList = '-' :: Nat.toDigits 10 (n + 1) := by
  rw [Int.toString_eq_repr, Int.repr, String.toList_append, Nat.toList_repr]
  rfl

/-! ### Strings -/

theorem number?_control : ∀ n < 0x20,
    Text.number? 16 ['0', '0', Nat.digitChar (n / 16), Nat.digitChar (n % 16)] = some n := by
  decide

/-- Every written character is read as itself. -/
theorem readString_escape (t : List Char) (c : Char) (s : List Char) :
    readString ⟨t, none, true⟩ (escape c ++ s) = readString ⟨c :: t, none, true⟩ s := by
  unfold escape
  split
  case isTrue hc =>
    have hc : c = '\x22' ∨ c = '\x5c' := by simpa using hc
    rcases hc with rfl | rfl <;> rfl
  case isFalse hc =>
    have hc : c ≠ '\x22' ∧ c ≠ '\x5c' := by simpa using hc
    split
    case isTrue hlt =>
      have hunit : (Scanned.mk t none true).unit c.toNat = ⟨c :: t, none, true⟩ := by
        have hhigh : ¬ (0xD800 ≤ c.toNat) := by omega
        have hlow : ¬ (0xDC00 ≤ c.toNat) := by omega
        simp [Scanned.unit, Scanned.char, hhigh, hlow, Char.ofNat_toNat]
      simp only [List.cons_append, List.nil_append]
      rw [readString, number?_control c.toNat hlt]
      dsimp only
      rw [hunit]
    case isFalse hlt =>
      rw [List.singleton_append, readString]
      · rw [if_neg hlt]
        rfl
      · exact hc.1
      · exact fun _ _ _ _ _ h => absurd h hc.2
      · exact fun _ _ h => absurd h hc.2

theorem readString_flatMap (t u s : List Char) :
    readString ⟨t, none, true⟩ (u.flatMap escape ++ '\x22' :: s) =
      some (some (String.ofList (t.reverse ++ u)), s) := by
  induction u generalizing t with
  | nil =>
    rw [List.flatMap_nil, List.nil_append, readString, List.append_nil]
    rfl
  | cons c u ih =>
    rw [List.flatMap_cons, List.append_assoc, readString_escape, ih, List.reverse_cons,
      List.append_assoc, List.singleton_append]

theorem readString_quote (name : String) (s : List Char) :
    readString {} (name.toList.flatMap escape ++ '\x22' :: s) = some (some name, s) := by
  rw [readString_flatMap, List.reverse_nil, List.nil_append, String.ofList_toList]

/-! ### Values -/

mutual

/-- The value holds no number but integers of 64 bits, and nothing unreadable. -/
def isPlain : Json → Bool
  | .null => true
  | .bool _ => true
  | .int i => (int64? (.int i)).isSome
  | .decimal _ _ => false
  | .str _ => true
  | .arr js => arePlain js
  | .obj fields => holdPlain fields
  | .unreadable => false

def arePlain : List Json → Bool
  | [] => true
  | j :: js => isPlain j && arePlain js

def holdPlain : List (String × Json) → Bool
  | [] => true
  | (_, j) :: fields => isPlain j && holdPlain fields

end

theorem skipSpace_cons {c : Char} (hc : isSpace c = false) (s : List Char) :
    skipSpace (c :: s) = c :: s := List.dropWhile_cons_of_neg (by simp [hc])

theorem ofFields_map_some (fields : List (String × Json)) :
    ofFields (fields.map fun f => (some f.1, f.2)) = .obj fields := by
  have hfields : (fields.map fun f => (some f.1, f.2)).mapM
      (fun f : Option String × Json => f.1.map (·, f.2)) = some fields := by
    induction fields with
    | nil => rfl
    | cons f fields ih => simp [ih]
  rw [ofFields, hfields]

theorem toList_quote (name : String) :
    (quote name).toList = '\x22' :: (name.toList.flatMap escape ++ ['\x22']) := by
  rw [quote, String.toList_ofList, List.cons_append]

/-- The first sign of a written number is a digit, which no other value begins with. -/
theorem digitChar_ne : ∀ d < 10, Nat.digitChar d ∉ ['\x7b', '[', '\x22', '-', 't', 'f', 'n', ']'] ∧
    isSpace (Nat.digitChar d) = false := by
  decide

/-- A printed value begins with a sign that is neither a blank nor the end of an array. -/
theorem render_eq_cons (j : Json) (hj : j.isPlain = true) :
    ∃ c s, (render j).toList = c :: s ∧ isSpace c = false ∧ c ≠ ']' := by
  cases j with
  | null => exact ⟨'n', _, rfl, by decide⟩
  | bool b => cases b <;> exact ⟨_, _, rfl, by decide⟩
  | int i =>
    cases i with
    | ofNat n =>
      obtain ⟨c, s, hcs, ⟨d, hd, rfl⟩, -⟩ := toDigits_eq_cons n
      obtain ⟨hne, hspace⟩ := digitChar_ne d hd
      exact ⟨_, s, (toList_toString_ofNat n).trans hcs, hspace, fun h => hne (by simp [h])⟩
    | negSucc n => exact ⟨'-', _, toList_toString_negSucc n, by decide⟩
  | decimal m e => cases hj
  | str text => exact ⟨'\x22', _, toList_quote text, by decide⟩
  | arr js =>
    exact ⟨'[', _, by rw [render, String.toList_append, String.toList_append]; rfl, by decide⟩
  | obj fields =>
    exact ⟨'\x7b', _, by rw [render, String.toList_append, String.toList_append]; rfl, by decide⟩
  | unreadable => cases hj

theorem renderElements_eq_cons {j : Json} {js : List Json} (h : arePlain (j :: js) = true) :
    ∃ c s, (renderElements (j :: js)).toList = c :: s ∧ isSpace c = false ∧ c ≠ ']' := by
  rw [arePlain, Bool.and_eq_true] at h
  obtain ⟨c, s, hcs, hc⟩ := render_eq_cons j h.1
  cases js with
  | nil => exact ⟨c, s, by rw [renderElements, hcs], hc⟩
  | cons j' js => exact ⟨c, s ++ ',' :: (renderElements (j' :: js)).toList,
      by simp [renderElements, hcs], hc⟩

theorem renderFields_eq_cons (f : String × Json) (fields : List (String × Json)) :
    ∃ s, (renderFields (f :: fields)).toList = '\x22' :: s := by
  cases fields <;> simp [renderFields, toList_quote]

/-- With `n` calls inside each other a printed value is read that has no more characters. -/
def ReadsValue (n : Nat) : Prop :=
  ∀ j s, j.isPlain = true → (render j).toList.length ≤ n → Ends s →
    readValue n ((render j).toList ++ s) = some (j, s)

def ReadsElements (n : Nat) : Prop :=
  ∀ j js s, arePlain (j :: js) = true → (renderElements (j :: js)).toList.length < n →
    readElements n ((renderElements (j :: js)).toList ++ ']' :: s) = some (j :: js, s)

def ReadsFields (n : Nat) : Prop :=
  ∀ f fields s, holdPlain (f :: fields) = true →
    (renderFields (f :: fields)).toList.length < n →
    readFields n ((renderFields (f :: fields)).toList ++ '\x7d' :: s) =
      some ((f :: fields).map fun f => (some f.1, f.2), s)

section

variable {n : Nat}

theorem readValue_int (i : Int) {s : List Char} (hs : Ends s) :
    readValue (n + 1) ((toString i).toList ++ s) = some (.int i, s) := by
  cases i with
  | ofNat m =>
    obtain ⟨c, t, hcs, ⟨d, hd, rfl⟩, -⟩ := toDigits_eq_cons m
    obtain ⟨hne, hspace⟩ := digitChar_ne d hd
    have hread := readMagnitude_toDigits m hs
    rw [hcs, List.cons_append] at hread
    simp only [List.mem_cons, List.not_mem_nil, or_false, not_or] at hne
    rw [show (toString (Int.ofNat m)).toList = _ from toList_toString_ofNat m, hcs,
      List.cons_append, readValue, skipSpace_cons hspace]
    simp [hne, hread]
  | negSucc m =>
    rw [toList_toString_negSucc, List.cons_append, readValue, skipSpace_cons rfl]
    have hne : (m : Int) + 1 ≠ 0 := by omega
    have hneg : negate (.int ((m : Int) + 1)) = .int (Int.negSucc m) := by
      rw [negate, if_neg hne, Int.negSucc_eq]
    simp [readMagnitude_toDigits (m + 1) hs, hneg]

theorem ends_comma (s : List Char) : Ends (',' :: s) := by
  rintro c ⟨⟩
  exact .inl rfl

theorem ends_bracket (s : List Char) : Ends (']' :: s) := by
  rintro c ⟨⟩
  exact .inr (.inl rfl)

theorem ends_brace (s : List Char) : Ends ('\x7d' :: s) := by
  rintro c ⟨⟩
  exact .inr (.inr rfl)

theorem readElements_last {j : Json} {s r : List Char} (h : readValue n s = some (j, ']' :: r)) :
    readElements (n + 1) s = some ([j], r) := by
  simp [readElements, h, skipSpace_cons, isSpace]

theorem readElements_more {j : Json} {s r : List Char} (h : readValue n s = some (j, ',' :: r)) :
    readElements (n + 1) s = (readElements n r).map fun (js, s) => (j :: js, s) := by
  simp [readElements, h, skipSpace_cons, isSpace]

theorem readFields_last {name : Option String} {j : Json} {s t r : List Char}
    (hname : readString {} s = some (name, ':' :: t))
    (hvalue : readValue n t = some (j, '\x7d' :: r)) :
    readFields (n + 1) ('\x22' :: s) = some ([(name, j)], r) := by
  simp [readFields, hname, hvalue, skipSpace_cons, isSpace]

theorem readFields_more {name : Option String} {j : Json} {s t r : List Char}
    (hname : readString {} s = some (name, ':' :: t))
    (hvalue : readValue n t = some (j, ',' :: r)) :
    readFields (n + 1) ('\x22' :: s) =
      (readFields n r).map fun (fields, s) => ((name, j) :: fields, s) := by
  simp [readFields, hname, hvalue, skipSpace_cons, isSpace]

theorem readValue_arr {c : Char} {s : List Char} (hspace : isSpace c = false) (hc : c ≠ ']') :
    readValue (n + 1) ('[' :: c :: s) =
      (readElements n (c :: s)).map fun (js, s) => (.arr js, s) := by
  have hopen : isSpace '[' = false := rfl
  simp [readValue, skipSpace_cons hopen, skipSpace_cons hspace, hc]

theorem readValue_obj (s : List Char) :
    readValue (n + 1) ('\x7b' :: '\x22' :: s) =
      (readFields n ('\x22' :: s)).map fun (fields, s) => (ofFields fields, s) := by
  simp [readValue, skipSpace_cons, isSpace]

theorem readElements_succ (hvalue : ReadsValue n) (helements : ReadsElements n) :
    ReadsElements (n + 1) := by
  intro j js s hj hn
  rw [arePlain, Bool.and_eq_true] at hj
  cases js with
  | nil =>
    rw [renderElements] at hn ⊢
    exact readElements_last (hvalue j _ hj.1 (by omega) (ends_bracket s))
  | cons j' js =>
    have htext (r : List Char) : (renderElements (j :: j' :: js)).toList ++ r =
        (render j).toList ++ ',' :: ((renderElements (j' :: js)).toList ++ r) := by
      simp [renderElements]
    have hlength := congrArg List.length (htext [])
    simp only [List.append_nil, List.length_append, List.length_cons] at hlength
    rw [htext, readElements_more (hvalue j _ hj.1 (by omega) (ends_comma _)),
      helements j' js s hj.2 (by omega)]
    rfl

theorem readFields_succ (hvalue : ReadsValue n) (hfields : ReadsFields n) :
    ReadsFields (n + 1) := by
  intro ⟨name, j⟩ fields s hj hn
  rw [holdPlain, Bool.and_eq_true] at hj
  cases fields with
  | nil =>
    have htext (r : List Char) : (renderFields [(name, j)]).toList ++ r =
        '\x22' :: (name.toList.flatMap escape ++ '\x22' :: ':' :: ((render j).toList ++ r)) := by
      simp [renderFields, toList_quote]
    have hlength := congrArg List.length (htext [])
    simp only [List.append_nil, List.length_append, List.length_cons] at hlength
    rw [htext]
    exact readFields_last (readString_quote name _) (hvalue j _ hj.1 (by omega) (ends_brace s))
  | cons f fields =>
    have htext (r : List Char) : (renderFields ((name, j) :: f :: fields)).toList ++ r =
        '\x22' :: (name.toList.flatMap escape ++ '\x22' :: ':' :: ((render j).toList ++
          ',' :: ((renderFields (f :: fields)).toList ++ r))) := by
      simp [renderFields, toList_quote]
    have hlength := congrArg List.length (htext [])
    simp only [List.append_nil, List.length_append, List.length_cons] at hlength
    rw [htext, readFields_more (readString_quote name _)
      (hvalue j _ hj.1 (by omega) (ends_comma _)), hfields f fields s hj.2 (by omega)]
    rfl

theorem readValue_elements (helements : ReadsElements n) (j : Json) (js : List Json)
    (s : List Char) (hj : arePlain (j :: js) = true)
    (hn : (render (.arr (j :: js))).toList.length ≤ n + 1) :
    readValue (n + 1) ((render (.arr (j :: js))).toList ++ s) = some (.arr (j :: js), s) := by
  have htext (r : List Char) : (render (.arr (j :: js))).toList ++ r =
      '[' :: ((renderElements (j :: js)).toList ++ ']' :: r) := by
    simp [render]
  have hlength := congrArg List.length (htext [])
  simp only [List.append_nil, List.length_append, List.length_cons, List.length_nil] at hlength
  have hread := helements j js s hj (by omega)
  obtain ⟨c, t, hcs, hspace, hc⟩ := renderElements_eq_cons hj
  rw [hcs, List.cons_append] at hread
  rw [htext, hcs, List.cons_append, readValue_arr hspace hc, hread]
  rfl

theorem readValue_fields (hfields : ReadsFields n) (f : String × Json)
    (fields : List (String × Json)) (s : List Char) (hj : holdPlain (f :: fields) = true)
    (hn : (render (.obj (f :: fields))).toList.length ≤ n + 1) :
    readValue (n + 1) ((render (.obj (f :: fields))).toList ++ s) =
      some (.obj (f :: fields), s) := by
  have htext (r : List Char) : (render (.obj (f :: fields))).toList ++ r =
      '\x7b' :: ((renderFields (f :: fields)).toList ++ '\x7d' :: r) := by
    simp [render]
  have hlength := congrArg List.length (htext [])
  simp only [List.append_nil, List.length_append, List.length_cons, List.length_nil] at hlength
  have hread := hfields f fields s hj (by omega)
  obtain ⟨t, ht⟩ := renderFields_eq_cons f fields
  rw [ht, List.cons_append] at hread
  rw [htext, ht, List.cons_append, readValue_obj, hread, Option.map_some,
    ← ofFields_map_some (f :: fields)]

theorem readValue_succ (helements : ReadsElements n) (hfields : ReadsFields n) :
    ReadsValue (n + 1) := by
  intro j s hj hn hs
  cases j with
  | null => rfl
  | bool b => cases b <;> rfl
  | int i => exact readValue_int i hs
  | decimal m e => cases hj
  | str text =>
    rw [render, toList_quote, List.cons_append, List.append_assoc, List.singleton_append,
      readValue, skipSpace_cons rfl]
    simp only [readString_quote]
    rfl
  | arr js =>
    cases js with
    | nil => rfl
    | cons j js => exact readValue_elements helements j js s hj hn
  | obj fields =>
    cases fields with
    | nil => rfl
    | cons f fields => exact readValue_fields hfields f fields s hj hn
  | unreadable => cases hj

end

/-- The calls inside each other suffice that a text has characters. -/
theorem reads (n : Nat) : ReadsValue n ∧ ReadsElements n ∧ ReadsFields n := by
  induction n with
  | zero =>
    refine ⟨?_, nofun, nofun⟩
    intro j s hj hn
    obtain ⟨c, t, hcs, -⟩ := render_eq_cons j hj
    rw [hcs] at hn
    cases hn
  | succ n ih =>
    obtain ⟨hvalue, helements, hfields⟩ := ih
    exact ⟨readValue_succ helements hfields, readElements_succ hvalue helements,
      readFields_succ hvalue hfields⟩

/-- What is printed is read back. -/
theorem parse?_render (j : Json) (hj : j.isPlain = true) : parse? (render j) = some j := by
  have hread := (reads ((render j).toList.length + 1)).1 j [] hj (Nat.le_succ _) nofun
  rw [List.append_nil] at hread
  rw [parse?, hread]
  rfl

end Json
end Wiring
