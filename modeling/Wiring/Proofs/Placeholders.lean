import Mathlib.Data.List.Infix
import Wiring.Environment

/-!
# The placeholders of a text

The pieces of a text follow from where its placeholders close.  A text is tidy if each dollar sign
in it begins a placeholder.  The parts of tidy texts are tidy, and where two of them are put
together no placeholder begins that was not there before.  One level of resolution fills the pieces
one after the other.
-/

namespace Wiring
namespace Placeholder

/-! ## Where a placeholder closes -/

/-- The text up to the brace that closes a placeholder, and the text after that brace.  Of the
placeholders opened before, `depth` more have to be closed first. -/
def close : (depth : Nat) → List Char → Option (List Char × List Char)
  | d, '$' :: '\x7b' :: s => (close (d + 1) s).map fun (raw, rest) => ('$' :: '\x7b' :: raw, rest)
  | 0, '\x7d' :: s => some ([], s)
  | d + 1, '\x7d' :: s => (close d s).map fun (raw, rest) => ('\x7d' :: raw, rest)
  | d, c :: s => (close d s).map fun (raw, rest) => (c :: raw, rest)
  | _, [] => none

theorem scan_inside (d : Nat) (before s : List Char) :
    scan (.inside d before) s = match close d s with
      | some (raw, rest) => .hole (before.reverse ++ raw) :: scan .outside rest
      | none => ('$' :: '\x7b' :: before.reverse ++ s).map .char := by
  fun_induction close d s generalizing before with
  | case1 d s ih =>
    rw [scan, ih]
    cases close (d + 1) s <;> simp
  | case2 s => simp [scan]
  | case3 d s ih =>
    rw [scan, ih]
    cases close d s <;> simp
  | case4 d c s h1 h2 h3 ih =>
    rw [scan, ih]
    · cases close d s <;> simp
    all_goals assumption
  | case5 d => simp [scan]

theorem pieces_cons {c : Char} {s : List Char} (h : ∀ s', c :: s ≠ '$' :: '\x7b' :: s') :
    pieces (c :: s) = .char c :: pieces s := by
  unfold pieces
  rw [scan]
  rintro s' rfl rfl
  exact h s' rfl

theorem pieces_closed {s raw rest : List Char} (h : close 0 s = some (raw, rest)) :
    pieces ('$' :: '\x7b' :: s) = .hole raw :: pieces rest := by
  unfold pieces
  rw [scan, scan_inside, h]
  rfl

theorem pieces_unclosed {s : List Char} (h : close 0 s = none) :
    pieces ('$' :: '\x7b' :: s) = ('$' :: '\x7b' :: s).map .char := by
  unfold pieces
  rw [scan, scan_inside, h]
  rfl

/-- How a text is split into pieces. -/
inductive Splits : List Char → List Piece → Prop
  | nil : Splits [] []
  | char {c : Char} {s : List Char} {ps : List Piece} :
      (∀ s', c :: s ≠ '$' :: '\x7b' :: s') → Splits s ps → Splits (c :: s) (.char c :: ps)
  | unclosed {s : List Char} : close 0 s = none →
      Splits ('$' :: '\x7b' :: s) (('$' :: '\x7b' :: s).map .char)
  | hole {s raw rest : List Char} {ps : List Piece} : close 0 s = some (raw, rest) →
      Splits rest ps → Splits ('$' :: '\x7b' :: s) (.hole raw :: ps)

/-- A text that goes up to the brace that closes `depth` placeholders and one more. -/
inductive Closes : (depth : Nat) → List Char → Prop
  | done : Closes 0 []
  | opened {d : Nat} {s : List Char} : Closes (d + 1) s → Closes d ('$' :: '\x7b' :: s)
  | closed {d : Nat} {s : List Char} : Closes d s → Closes (d + 1) ('\x7d' :: s)
  | char {d : Nat} {c : Char} {s : List Char} :
      c ≠ '\x7d' → (∀ s', c :: s ≠ '$' :: '\x7b' :: s') → Closes d s → Closes d (c :: s)

section

variable {d e : Nat} {s t raw rest : List Char}

theorem close_of_closes (h : Closes d raw) (rest : List Char) :
    close d (raw ++ '\x7d' :: rest) = some (raw, rest) := by
  induction h with
  | done => rfl
  | opened _ ih => simp [close, ih]
  | closed _ ih => simp [close, ih]
  | @char d c s hbrace hopen _ ih =>
    rw [List.cons_append, close, ih]
    · rfl
    · rintro s' rfl hs
      cases s with
      | nil => cases hs
      | cons c s =>
        obtain ⟨rfl, _⟩ := List.cons.inj hs
        exact hopen s rfl
    · exact fun _ hc => hbrace hc
    · exact fun _ _ hc => hbrace hc

theorem closes_of_close (h : close d s = some (raw, rest)) :
    Closes d raw ∧ s = raw ++ '\x7d' :: rest := by
  fun_induction close d s generalizing raw with
  | case1 d s ih =>
    obtain ⟨⟨raw', rest'⟩, hclose, heq⟩ := Option.map_eq_some_iff.1 h
    obtain ⟨rfl, rfl⟩ := Prod.mk.inj heq
    obtain ⟨hcloses, rfl⟩ := ih hclose
    exact ⟨.opened hcloses, rfl⟩
  | case2 s =>
    obtain ⟨rfl, rfl⟩ := Prod.mk.inj (Option.some.inj h)
    exact ⟨.done, rfl⟩
  | case3 d s ih =>
    obtain ⟨⟨raw', rest'⟩, hclose, heq⟩ := Option.map_eq_some_iff.1 h
    obtain ⟨rfl, rfl⟩ := Prod.mk.inj heq
    obtain ⟨hcloses, rfl⟩ := ih hclose
    exact ⟨.closed hcloses, rfl⟩
  | case4 d c s hopen hbrace hbrace' ih =>
    obtain ⟨⟨raw', rest'⟩, hclose, heq⟩ := Option.map_eq_some_iff.1 h
    obtain ⟨rfl, rfl⟩ := Prod.mk.inj heq
    obtain ⟨hcloses, rfl⟩ := ih hclose
    refine ⟨.char ?_ (fun s' hs => ?_) hcloses, rfl⟩
    · rintro rfl
      cases d with
      | zero => exact hbrace rfl rfl
      | succ d => exact hbrace' d rfl rfl
    · obtain ⟨rfl, rfl⟩ := List.cons.inj hs
      exact hopen _ rfl rfl
  | case5 d => cases h

/-- What comes after a placeholder is a part of the text that begins with it. -/
theorem suffix_of_close (h : close d s = some (raw, rest)) : rest <:+ '$' :: '\x7b' :: s :=
  ⟨'$' :: '\x7b' :: raw ++ ['\x7d'], by simp [(closes_of_close h).2]⟩

/-- Ordinary characters neither open nor close a placeholder. -/
theorem Closes.append {cs : List Char} (hcs : ∀ c ∈ cs, c ≠ '$' ∧ c ≠ '\x7d') (h : Closes d s) :
    Closes d (cs ++ s) := by
  induction cs with
  | nil => exact h
  | cons c cs ih =>
    obtain ⟨hdollar, hbrace⟩ := hcs c List.mem_cons_self
    exact .char hbrace (fun s' heq => hdollar (List.cons.inj heq).1)
      (ih fun c' hc' => hcs c' (List.mem_cons_of_mem c hc'))

/-- A text that closes more placeholders closes fewer, somewhere inside. -/
theorem Closes.exists_inside (h : Closes d s) (hlt : e < d) :
    ∃ raw rest, close e s = some (raw, rest) := by
  induction h generalizing e with
  | done => omega
  | opened _ ih =>
    obtain ⟨raw, rest, hclose⟩ := ih (Nat.succ_lt_succ hlt)
    exact ⟨_, _, by rw [close, hclose]; rfl⟩
  | closed _ ih =>
    cases e with
    | zero => exact ⟨_, _, rfl⟩
    | succ e =>
      obtain ⟨raw, rest, hclose⟩ := ih (Nat.lt_of_succ_lt_succ hlt)
      exact ⟨_, _, by rw [close, hclose]; rfl⟩
  | @char d c s hbrace hopen _ ih =>
    obtain ⟨raw, rest, hclose⟩ := ih hlt
    refine ⟨c :: raw, rest, ?_⟩
    rw [close, hclose]
    · rfl
    · rintro s' rfl rfl
      exact hopen s' rfl
    · exact fun _ hc => hbrace hc
    · exact fun _ _ hc => hbrace hc

end

/-! ## Pieces -/

theorem splits_pieces (s : List Char) : Splits s (pieces s) := by
  induction hn : s.length using Nat.strongRecOn generalizing s with
  | ind n ih =>
    subst hn
    cases s with
    | nil => exact .nil
    | cons c s =>
      by_cases hopen : ∃ s', c :: s = '$' :: '\x7b' :: s'
      · obtain ⟨s', heq⟩ := hopen
        rw [heq] at ih ⊢
        cases hclose : close 0 s' with
        | none =>
          rw [pieces_unclosed hclose]
          exact .unclosed hclose
        | some closed =>
          obtain ⟨raw, rest⟩ := closed
          rw [pieces_closed hclose]
          have hlen : rest.length < ('$' :: '\x7b' :: s').length := by
            rw [(closes_of_close hclose).2]
            simp
            omega
          exact .hole hclose (ih _ hlen rest rfl)
      · have hopen : ∀ s', c :: s ≠ '$' :: '\x7b' :: s' := fun s' heq => hopen ⟨s', heq⟩
        rw [pieces_cons hopen]
        exact .char hopen (ih _ (Nat.lt_succ_self _) s rfl)

/-! ## The placeholders in a text -/

/-- The text of the placeholder that a text begins with. -/
def first? : List Char → Option (List Char)
  | '$' :: '\x7b' :: s => (close 0 s).map (·.1)
  | _ => none

/-- The texts of the placeholders in a text, those inside others included. -/
def placeholders (s : List Char) : List (List Char) := s.tails.filterMap first?

/-- Each dollar sign begins a placeholder. -/
def IsTidy (s : List Char) : Prop := ∀ t ∈ s.tails, t.head? = some '$' → (first? t).isSome = true

instance (s : List Char) : Decidable (IsTidy s) :=
  inferInstanceAs (Decidable (∀ t ∈ s.tails, t.head? = some '$' → (first? t).isSome = true))

section

variable {c : Char} {d : Nat} {s t raw rest : List Char}

theorem mem_placeholders : raw ∈ placeholders s ↔ ∃ t, t <:+ s ∧ first? t = some raw := by
  unfold placeholders
  rw [List.mem_filterMap]
  simp only [List.mem_tails]

theorem isTidy_iff : IsTidy s ↔ ∀ t, t <:+ s → t.head? = some '$' → ∃ raw, first? t = some raw := by
  unfold IsTidy
  simp only [List.mem_tails, Option.isSome_iff_exists]

theorem first?_eq_some :
    first? s = some raw ↔ ∃ rest, Closes 0 raw ∧ s = '$' :: '\x7b' :: raw ++ '\x7d' :: rest := by
  constructor
  · intro h
    unfold first? at h
    split at h
    · obtain ⟨⟨_, rest⟩, hclose, rfl⟩ := Option.map_eq_some_iff.1 h
      obtain ⟨hcloses, rfl⟩ := closes_of_close hclose
      exact ⟨rest, hcloses, rfl⟩
    · cases h
  · rintro ⟨rest, hcloses, rfl⟩
    rw [List.cons_append, List.cons_append, first?, close_of_closes hcloses]
    rfl

theorem first?_append (h : first? s = some raw) (t : List Char) :
    first? (s ++ t) = some raw := by
  obtain ⟨rest, hcloses, rfl⟩ := first?_eq_some.1 h
  exact first?_eq_some.2 ⟨rest ++ t, hcloses, by simp⟩

/-- A suffix of two texts is one of the second, or goes on through all of it. -/
theorem suffix_append_cases (h : t <:+ raw ++ rest) :
    t <:+ rest ∨ ∃ u, u <:+ raw ∧ t = u ++ rest := by
  rcases List.suffix_or_suffix_of_suffix h (List.suffix_append raw rest) with h' | ⟨u, rfl⟩
  · exact .inl h'
  · exact .inr ⟨u, (List.suffix_append_self_iff).1 h, rfl⟩

/-! ### Parts of a text -/

theorem placeholders_subset (h : t <:+: s) : placeholders t ⊆ placeholders s := by
  intro raw hraw
  obtain ⟨u, ⟨between, rfl⟩, hfirst⟩ := mem_placeholders.1 hraw
  obtain ⟨before, after, rfl⟩ := h
  exact mem_placeholders.2 ⟨u ++ after, ⟨before ++ between, by simp⟩, first?_append hfirst after⟩

theorem IsTidy.suffix (h : IsTidy s) (ht : t <:+ s) : IsTidy t :=
  isTidy_iff.2 fun u hu => isTidy_iff.1 h u (hu.trans ht)

theorem isTidy_nil : IsTidy [] := by decide

theorem IsTidy.cons (h : IsTidy s) (hc : c = '$' → ∃ raw, first? (c :: s) = some raw) :
    IsTidy (c :: s) := by
  refine isTidy_iff.2 fun t ht hdollar => ?_
  rcases List.suffix_cons_iff.1 ht with rfl | ht
  · exact hc (Option.some.inj hdollar)
  · exact isTidy_iff.1 h t ht hdollar

theorem IsTidy.append (hs : IsTidy s) (ht : IsTidy t) : IsTidy (s ++ t) := by
  refine isTidy_iff.2 fun u hu hdollar => ?_
  rcases suffix_append_cases hu with hu | ⟨v, hv, rfl⟩
  · exact isTidy_iff.1 ht u hu hdollar
  · cases v with
    | nil => exact isTidy_iff.1 ht _ List.suffix_rfl hdollar
    | cons c v =>
      obtain ⟨raw, hfirst⟩ := isTidy_iff.1 hs _ hv hdollar
      exact ⟨raw, first?_append hfirst t⟩

/-- Where two texts meet no placeholder begins if the first is tidy. -/
theorem IsTidy.placeholders_append (hs : IsTidy s) (t : List Char) :
    placeholders (s ++ t) ⊆ placeholders s ++ placeholders t := by
  intro raw hraw
  obtain ⟨u, hu, hfirst⟩ := mem_placeholders.1 hraw
  rcases suffix_append_cases hu with hu | ⟨v, hv, rfl⟩
  · exact List.mem_append_right _ (mem_placeholders.2 ⟨u, hu, hfirst⟩)
  · cases v with
    | nil => exact List.mem_append_right _ (mem_placeholders.2 ⟨t, List.suffix_rfl, hfirst⟩)
    | cons c v =>
      obtain ⟨rest, _, heq⟩ := first?_eq_some.1 hfirst
      have hdollar : (c :: v).head? = some '$' := congrArg some (List.cons.inj heq).1
      obtain ⟨raw', hfirst'⟩ := isTidy_iff.1 hs _ hv hdollar
      obtain rfl := Option.some.inj ((first?_append hfirst' t).symm.trans hfirst)
      exact List.mem_append_left _ (mem_placeholders.2 ⟨_, hv, hfirst'⟩)

/-- A placeholder that is opened before the text is closed is closed before it as well. -/
theorem Closes.first?_isSome (h : Closes d s) (ht : '$' :: '\x7b' :: t <:+ s) :
    ∃ raw, first? ('$' :: '\x7b' :: t) = some raw := by
  induction h with
  | done => cases List.eq_nil_of_suffix_nil ht
  | @opened d s hs ih =>
    rcases List.suffix_cons_iff.1 ht with heq | ht
    · obtain ⟨raw, rest, hclose⟩ := hs.exists_inside (Nat.succ_pos d)
      rw [heq, first?, hclose]
      exact ⟨raw, rfl⟩
    · rcases List.suffix_cons_iff.1 ht with heq | ht
      · cases heq
      · exact ih ht
  | closed _ ih =>
    rcases List.suffix_cons_iff.1 ht with heq | ht
    · cases heq
    · exact ih ht
  | char _ hopen _ ih =>
    rcases List.suffix_cons_iff.1 ht with heq | ht
    · exact absurd heq.symm (hopen t)
    · exact ih ht

/-- The text of a placeholder in a tidy text is tidy. -/
theorem IsTidy.of_closes (hs : IsTidy (raw ++ '\x7d' :: rest)) (h : Closes d raw) :
    IsTidy raw := by
  refine isTidy_iff.2 fun t ht hdollar => ?_
  obtain ⟨between, rfl⟩ := ht
  have hsuffix : t ++ '\x7d' :: rest <:+ between ++ t ++ '\x7d' :: rest :=
    ⟨between, by simp⟩
  cases t with
  | nil => cases hdollar
  | cons c t =>
    obtain rfl := Option.some.inj hdollar
    obtain ⟨_, hfirst⟩ := isTidy_iff.1 hs _ hsuffix rfl
    obtain ⟨_, _, heq⟩ := first?_eq_some.1 hfirst
    cases t with
    | nil => simp at heq
    | cons c t =>
      obtain rfl : c = '\x7b' := (List.cons.inj (List.cons.inj heq).2).1
      exact h.first?_isSome ⟨between, rfl⟩

/-! ### Pieces of a text -/

theorem Splits.exists_of_hole_mem {ps : List Piece} (h : Splits s ps) (hmem : .hole raw ∈ ps) :
    ∃ rest, Closes 0 raw ∧ '$' :: '\x7b' :: raw ++ '\x7d' :: rest <:+ s := by
  induction h with
  | nil => cases hmem
  | char _ _ ih =>
    rcases List.mem_cons.1 hmem with heq | hmem
    · cases heq
    · obtain ⟨rest, hcloses, hsuffix⟩ := ih hmem
      exact ⟨rest, hcloses, hsuffix.trans (List.suffix_cons _ _)⟩
  | unclosed _ =>
    obtain ⟨c, _, heq⟩ := List.mem_map.1 hmem
    cases heq
  | hole hclose _ ih =>
    rcases List.mem_cons.1 hmem with heq | hmem
    · obtain rfl := Piece.hole.inj heq
      obtain ⟨hcloses, rfl⟩ := closes_of_close hclose
      exact ⟨_, hcloses, List.suffix_rfl⟩
    · obtain ⟨rest, hcloses, hsuffix⟩ := ih hmem
      exact ⟨rest, hcloses, hsuffix.trans (suffix_of_close hclose)⟩

theorem Splits.char_mem {ps : List Piece} (h : Splits s ps) (hmem : .char c ∈ ps) :
    c ∈ s ∧ (IsTidy s → c ≠ '$') := by
  induction h with
  | nil => cases hmem
  | @char c' s ps hopen _ ih =>
    rcases List.mem_cons.1 hmem with heq | hmem
    · obtain rfl := Piece.char.inj heq
      refine ⟨List.mem_cons_self, fun htidy hdollar => ?_⟩
      obtain ⟨raw, hfirst⟩ := isTidy_iff.1 htidy _ List.suffix_rfl (congrArg some hdollar)
      obtain ⟨rest, _, heq⟩ := first?_eq_some.1 hfirst
      exact hopen _ heq
    · exact ⟨List.mem_cons_of_mem _ (ih hmem).1, fun htidy =>
        (ih hmem).2 (htidy.suffix (List.suffix_cons _ _))⟩
  | unclosed hclose =>
    obtain ⟨c', hmem', heq⟩ := List.mem_map.1 hmem
    obtain rfl := Piece.char.inj heq
    refine ⟨hmem', fun htidy => ?_⟩
    obtain ⟨raw, hfirst⟩ := isTidy_iff.1 htidy _ List.suffix_rfl rfl
    rw [first?, hclose] at hfirst
    cases hfirst
  | hole hclose _ ih =>
    rcases List.mem_cons.1 hmem with heq | hmem
    · cases heq
    · have hsuffix := suffix_of_close hclose
      exact ⟨hsuffix.subset (ih hmem).1, fun htidy => (ih hmem).2 (htidy.suffix hsuffix)⟩

end

/-! ## One level -/

/-- What becomes of a placeholder of `text` for which nothing is found under its name. -/
def missing (text raw name : List Char) : Mode → Except Failure (List Char)
  | .lenient => .ok ('$' :: '\x7b' :: raw ++ ['\x7d'])
  | .strict => .error (.unresolvable (String.ofList name) (String.ofList text))

/-- What takes the place of the pieces, one after the other. -/
def fillAll (lookup : Lookup) (mode : Mode) (inside : Resolution) (open_ : List (List Char))
    (text : List Char) : List Piece → Except Failure (List Char)
  | [] => .ok []
  | p :: ps => match fill lookup mode inside open_ text p with
    | .error e => .error e
    | .ok part => (fillAll lookup mode inside open_ text ps).map (part ++ ·)

section

variable {lookup : Lookup} {mode : Mode} {inside : Resolution} {d : Nat} {open_ : List (List Char)}
  {text raw name value s t : List Char} {c : Char} {e : Failure}

theorem fillAll_eq_mapM (ps : List Piece) :
    (do return (← ps.mapM (fill lookup mode inside open_ text)).flatten) =
      fillAll lookup mode inside open_ text ps := by
  induction ps with
  | nil => rfl
  | cons p ps ih =>
    rw [fillAll, ← ih, List.mapM_cons]
    cases fill lookup mode inside open_ text p with
    | error e => rfl
    | ok part => cases ps.mapM (fill lookup mode inside open_ text) <;> rfl

theorem resolve_succ :
    resolve lookup mode (d + 1) open_ text =
      fillAll lookup mode (resolve lookup mode d) open_ text (pieces text) :=
  fillAll_eq_mapM (pieces text)

theorem fill_open (h : raw ∈ open_) :
    fill lookup mode inside open_ text (.hole raw) = .error (.circular (String.ofList raw)) := by
  rw [fill, if_pos h]

theorem fill_error (h : raw ∉ open_) (hname : inside (raw :: open_) raw = .error e) :
    fill lookup mode inside open_ text (.hole raw) = .error e := by
  rw [fill, if_neg h, hname]
  rfl

theorem fill_found (h : raw ∉ open_) (hname : inside (raw :: open_) raw = .ok name)
    (hfind : find lookup name = some value) :
    fill lookup mode inside open_ text (.hole raw) = inside (raw :: open_) value := by
  rw [fill, if_neg h, hname]
  simp only [bind, Except.bind, hfind]

theorem fill_missing (h : raw ∉ open_) (hname : inside (raw :: open_) raw = .ok name)
    (hfind : find lookup name = none) :
    fill lookup mode inside open_ text (.hole raw) = missing text raw name mode := by
  rw [fill, if_neg h, hname]
  cases mode <;> simp only [bind, Except.bind, hfind, missing]

theorem fillAll_map_char (cs : List Char) :
    fillAll lookup mode inside open_ text (cs.map .char) = .ok cs := by
  induction cs with
  | nil => rfl
  | cons c cs ih =>
    rw [List.map_cons, fillAll, fill, ih]
    rfl

theorem fillAll_char (hc : c ≠ '$')
    (h : fillAll lookup mode inside open_ text (pieces s) = .ok t) :
    fillAll lookup mode inside open_ text (pieces (c :: s)) = .ok (c :: t) := by
  have hopen : ∀ s', c :: s ≠ '$' :: '\x7b' :: s' := fun s' heq => hc (List.cons.inj heq).1
  rw [pieces_cons hopen, fillAll, fill, h]
  rfl

theorem fillAll_chars {cs : List Char} (hcs : ∀ c ∈ cs, c ≠ '$')
    (h : fillAll lookup mode inside open_ text (pieces s) = .ok t) :
    fillAll lookup mode inside open_ text (pieces (cs ++ s)) = .ok (cs ++ t) := by
  induction cs with
  | nil => exact h
  | cons c cs ih =>
    apply fillAll_char (hcs c List.mem_cons_self)
    exact ih fun c' hc' => hcs c' (List.mem_cons_of_mem c hc')

/-- A placeholder that holds no other, and whose text has a value. -/
theorem fillAll_hole (raw rest : List Char) (hraw : ∀ c ∈ raw, c ≠ '$' ∧ c ≠ '\x7d')
    (hopen : raw ∉ open_) (hvalue : lookup raw = some value)
    (hpart : resolve lookup mode (d + 1) (raw :: open_) value = .ok s)
    (hrest : fillAll lookup mode (resolve lookup mode (d + 1)) open_ text (pieces rest) = .ok t) :
    fillAll lookup mode (resolve lookup mode (d + 1)) open_ text
      (pieces ('$' :: '\x7b' :: (raw ++ '\x7d' :: rest))) = .ok (s ++ t) := by
  have hcloses : Closes 0 (raw ++ []) := Closes.done.append hraw
  have hname : resolve lookup mode (d + 1) (raw :: open_) (raw ++ []) = .ok (raw ++ []) := by
    rw [resolve_succ]
    exact fillAll_chars (fun c hc => (hraw c hc).1) rfl
  have hfind : find lookup raw = some value := by rw [find, hvalue]
  rw [List.append_nil] at hcloses hname
  rw [pieces_closed (close_of_closes hcloses rest), fillAll, fill_found hopen hname hfind, hpart,
    hrest]
  rfl

/-- A placeholder that is not closed stands for itself. -/
theorem resolve_unclosed (h : close 0 s = none) :
    resolve lookup mode (d + 1) open_ ('$' :: '\x7b' :: s) = .ok ('$' :: '\x7b' :: s) := by
  rw [resolve_succ, pieces_unclosed h]
  exact fillAll_map_char _

end

end Placeholder
end Wiring
