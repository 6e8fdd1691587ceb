import Wiring.Proofs.PlaceholderModes

/-!
# Texts put together

A text is resolved piece by piece.  So two texts that are put together are resolved one after the
other, if no placeholder of the first takes in a part of the second and none begins where they meet.
Of two failures the first counts.

The placeholders that are open are handed down to what is resolved inside them.  Keeping them in one
set for all comes to the same: when a value has been found, the set is what it was.
-/

namespace Wiring
namespace Placeholder

/-! ## The pieces of two texts -/

/-- Each placeholder that is opened in the text is closed in it, and so are `level` that were opened
before it.  A brace outside of placeholders closes nothing. -/
def closesAll : (level : Nat) → List Char → Bool
  | level, '$' :: '\x7b' :: s => closesAll (level + 1) s
  | level + 1, '\x7d' :: s => closesAll level s
  | level, _ :: s => closesAll level s
  | level, [] => level == 0

/-- Nothing in the one text changes what is read in the other: all that the first opens is closed
in it, and no placeholder begins with its last character and the first one of the second. -/
structure Joins (a b : List Char) : Prop where
  closed : closesAll 0 a = true
  seam : ¬ (a.getLast? = some '$' ∧ b.head? = some '\x7b')

section

variable {a b s : List Char} {c : Char} {d : Nat}

theorem closesAll_cons (h : ∀ s', c :: s ≠ '$' :: '\x7b' :: s') :
    closesAll 0 (c :: s) = closesAll 0 s := by
  rw [closesAll]
  · rintro s' rfl rfl
    exact h s' rfl
  · exact fun _ hd => nomatch hd

/-- Of the placeholders that were opened before, the innermost is closed first. -/
theorem exists_close_of_closesAll (h : closesAll (d + 1) s = true) :
    ∃ raw rest, close d s = some (raw, rest) ∧ closesAll 0 rest = true := by
  fun_induction close d s with
  | case1 d s ih =>
    obtain ⟨raw, rest, hclose, hrest⟩ := ih h
    exact ⟨_, rest, by rw [hclose]; rfl, hrest⟩
  | case2 s => exact ⟨[], s, rfl, h⟩
  | case3 d s ih =>
    obtain ⟨raw, rest, hclose, hrest⟩ := ih h
    exact ⟨_, rest, by rw [hclose]; rfl, hrest⟩
  | case4 d c s hopen hbrace hbrace' ih =>
    rw [closesAll] at h
    · obtain ⟨raw, rest, hclose, hrest⟩ := ih h
      exact ⟨_, rest, by rw [hclose]; rfl, hrest⟩
    · exact hopen
    · rintro e - rfl
      cases d with
      | zero => exact hbrace rfl rfl
      | succ d => exact hbrace' d rfl rfl
  | case5 d => cases h

theorem Joins.of_append (h : Joins (s ++ a) b) (hclosed : closesAll 0 a = true) : Joins a b where
  closed := hclosed
  seam := by
    rintro ⟨hlast, hhead⟩
    exact h.seam ⟨by rw [List.getLast?_append, hlast]; rfl, hhead⟩

theorem Splits.pieces_append {ps : List Piece} (h : Splits a ps) (hjoins : Joins a b) :
    pieces (a ++ b) = ps ++ pieces b := by
  induction h with
  | nil => rfl
  | @char c s ps hopen _ ih =>
    have hjoined : ∀ s', c :: (s ++ b) ≠ '$' :: '\x7b' :: s' := by
      intro s' heq
      cases s with
      | nil =>
        obtain ⟨rfl, rfl⟩ := List.cons.inj heq
        exact hjoins.seam ⟨rfl, rfl⟩
      | cons c' s =>
        obtain ⟨rfl, htail⟩ := List.cons.inj heq
        obtain ⟨rfl, _⟩ := List.cons.inj htail
        exact hopen s rfl
    have hrest : Joins s b := hjoins.of_append (s := [c]) (closesAll_cons hopen ▸ hjoins.closed)
    rw [List.cons_append, pieces_cons hjoined, ih hrest, List.cons_append]
  | unclosed hclose =>
    obtain ⟨raw, rest, hsome, _⟩ := exists_close_of_closesAll hjoins.closed
    rw [hclose] at hsome
    cases hsome
  | @hole s raw rest ps hclose _ ih =>
    obtain ⟨_, _, hsome, hclosed⟩ := exists_close_of_closesAll hjoins.closed
    obtain ⟨rfl, rfl⟩ := Prod.mk.inj (Option.some.inj (hclose.symm.trans hsome))
    obtain ⟨hcloses, rfl⟩ := closes_of_close hclose
    have hrest : Joins rest b :=
      Joins.of_append (s := '$' :: '\x7b' :: raw ++ ['\x7d']) (by simpa using hjoins) hclosed
    have heq : '$' :: '\x7b' :: (raw ++ '\x7d' :: rest) ++ b =
        '$' :: '\x7b' :: (raw ++ '\x7d' :: (rest ++ b)) := by simp
    rw [heq, pieces_closed (close_of_closes hcloses _), ih hrest, List.cons_append]

theorem pieces_append (h : Joins a b) : pieces (a ++ b) = pieces a ++ pieces b :=
  (splits_pieces a).pieces_append h

end

/-! ## Results alike -/

/-- The failures are of one kind and about one placeholder.  The texts that it was met in may
differ. -/
inductive Failure.Alike : Failure → Failure → Prop
  | unresolvable (name value value' : String) :
      Alike (.unresolvable name value) (.unresolvable name value')
  | circular (raw : String) : Alike (.circular raw) (.circular raw)
  | exhausted : Alike .exhausted .exhausted

theorem Failure.Alike.refl (e : Failure) : e.Alike e := by
  cases e with
  | unresolvable name value => exact .unresolvable name value value
  | circular raw => exact .circular raw
  | exhausted => exact .exhausted

/-- The results are the same, or failures alike. -/
inductive AlikeUpToText {α : Type} : Except Failure α → Except Failure α → Prop
  | ok (s : α) : AlikeUpToText (.ok s) (.ok s)
  | error {e e' : Failure} (h : e.Alike e') : AlikeUpToText (.error e) (.error e')

namespace AlikeUpToText

variable {α β : Type} {x y : Except Failure α}

theorem refl (x : Except Failure α) : AlikeUpToText x x := by
  cases x with
  | ok s => exact .ok s
  | error e => exact .error (.refl e)

theorem bind {f g : α → Except Failure β} (h : AlikeUpToText x y)
    (hfg : ∀ s, AlikeUpToText (f s) (g s)) : AlikeUpToText (x >>= f) (y >>= g) := by
  cases h with
  | ok s => exact hfg s
  | error h => exact .error h

theorem map (f : α → β) (h : AlikeUpToText x y) : AlikeUpToText (x.map f) (y.map f) := by
  cases h with
  | ok s => exact .ok (f s)
  | error h => exact .error h

theorem eq_ok {s : α} (h : AlikeUpToText x (.ok s)) : x = .ok s := by
  cases h
  rfl

theorem exists_error {e : Failure} (h : AlikeUpToText x (.error e)) :
    ∃ e', x = .error e' ∧ e'.Alike e := by
  cases h with
  | error h => exact ⟨_, rfl, h⟩

end AlikeUpToText

/-! ## One text after the other -/

section

variable {lookup : Lookup} {mode : Mode} {inside : Resolution} {open_ : List (List Char)}
  {text text' a b : List Char}

/-- Of the text that the pieces come from nothing is told but in a failure. -/
theorem fill_alike (p : Piece) : AlikeUpToText (fill lookup mode inside open_ text p)
    (fill lookup mode inside open_ text' p) := by
  cases p with
  | char c => exact .ok [c]
  | hole raw =>
    by_cases hopen : raw ∈ open_
    · rw [fill_open hopen, fill_open hopen]
      exact .refl _
    · cases hname : inside (raw :: open_) raw with
      | error e =>
        rw [fill_error hopen hname, fill_error hopen hname]
        exact .refl _
      | ok name =>
        cases hfind : find lookup name with
        | some value =>
          rw [fill_found hopen hname hfind, fill_found hopen hname hfind]
          exact .refl _
        | none =>
          rw [fill_missing hopen hname hfind, fill_missing hopen hname hfind]
          cases mode with
          | lenient => exact .ok _
          | strict => exact .error (.unresolvable _ _ _)

theorem fillAll_cons (p : Piece) (ps : List Piece) :
    fillAll lookup mode inside open_ text (p :: ps) = (do
      let part ← fill lookup mode inside open_ text p
      let rest ← fillAll lookup mode inside open_ text ps
      return part ++ rest) := by
  rw [fillAll]
  cases fill lookup mode inside open_ text p with
  | error e => rfl
  | ok part => cases fillAll lookup mode inside open_ text ps <;> rfl

theorem fillAll_alike (ps : List Piece) : AlikeUpToText (fillAll lookup mode inside open_ text ps)
    (fillAll lookup mode inside open_ text' ps) := by
  induction ps with
  | nil => exact .ok []
  | cons p ps ih =>
    rw [fillAll_cons, fillAll_cons]
    exact (fill_alike p).bind fun part => ih.bind fun rest => .refl _

theorem fillAll_append (ps qs : List Piece) :
    fillAll lookup mode inside open_ text (ps ++ qs) = (do
      let s ← fillAll lookup mode inside open_ text ps
      let t ← fillAll lookup mode inside open_ text qs
      return s ++ t) := by
  induction ps with
  | nil =>
    show fillAll lookup mode inside open_ text qs = _
    cases fillAll lookup mode inside open_ text qs <;> rfl
  | cons p ps ih =>
    rw [List.cons_append, fillAll_cons, fillAll_cons, ih]
    cases fill lookup mode inside open_ text p with
    | error e => rfl
    | ok part =>
      cases fillAll lookup mode inside open_ text ps with
      | error e => rfl
      | ok s =>
        cases fillAll lookup mode inside open_ text qs with
        | error e => rfl
        | ok t => exact congrArg Except.ok (List.append_assoc part s t).symm

/-- At every depth, in both ways and with any placeholders open. -/
theorem resolve_append (lookup : Lookup) (mode : Mode) (depth : Nat) (open_ : List (List Char))
    (h : Joins a b) : AlikeUpToText (resolve lookup mode depth open_ (a ++ b)) (do
      let s ← resolve lookup mode depth open_ a
      let t ← resolve lookup mode depth open_ b
      return s ++ t) := by
  cases depth with
  | zero => exact .error .exhausted
  | succ depth =>
    rw [resolve_succ, resolve_succ, resolve_succ, pieces_append h, fillAll_append]
    exact (fillAll_alike _).bind fun s => (fillAll_alike _).bind fun t => .refl _

end

section

variable {lookup : String → Option String} {a b s t : String} {e : Failure}

theorem resolveStrict_joined (lookup : String → Option String) (h : Joins a.toList b.toList) :
    AlikeUpToText (resolveStrict lookup (a ++ b)) (do
      let s ← resolveStrict lookup a
      let t ← resolveStrict lookup b
      return s ++ t) := by
  have hchars := (resolve_append (ofStrings lookup) .strict maxDepth [] h).map String.ofList
  rw [resolveStrict, resolveStrict, resolveStrict, String.toList_append]
  revert hchars
  cases resolve (ofStrings lookup) .strict maxDepth [] a.toList with
  | error e => exact id
  | ok s =>
    cases resolve (ofStrings lookup) .strict maxDepth [] b.toList with
    | error e => exact id
    | ok t =>
      show AlikeUpToText _ (.ok (String.ofList (s ++ t))) →
        AlikeUpToText _ (.ok (String.ofList s ++ String.ofList t))
      rw [String.ofList_append]
      exact id

theorem resolveStrict_empty : resolveStrict lookup "" = .ok "" := by
  have hdepth : maxDepth = 2999 + 1 := rfl
  rw [resolveStrict, hdepth, resolve_succ]
  rfl

theorem join_replicate_succ (n : Nat) (s : String) :
    String.join (List.replicate (n + 1) s) = s ++ String.join (List.replicate n s) := by
  rw [List.replicate_succ]
  simp

/-- Where a text begins with a placeholder and closes all that it opens, it may stand side by side
with itself. -/
theorem joins_replicate (hclosed : closesAll 0 a.toList = true) (hhead : a.toList.head? = some '$')
    (n : Nat) : Joins a.toList (String.join (List.replicate n a)).toList where
  closed := hclosed
  seam := by
    rintro ⟨_, hbrace⟩
    cases n with
    | zero => cases hbrace
    | succ n =>
      rw [join_replicate_succ, String.toList_append, List.head?_append, hhead] at hbrace
      exact absurd (Option.some.inj hbrace) (by decide)

theorem resolveStrict_replicate (hclosed : closesAll 0 a.toList = true)
    (hhead : a.toList.head? = some '$') (ha : resolveStrict lookup a = .ok s) (n : Nat) :
    resolveStrict lookup (String.join (List.replicate n a)) =
      .ok (String.join (List.replicate n s)) := by
  induction n with
  | zero => exact resolveStrict_empty
  | succ n ih =>
    have hjoined := resolveStrict_joined lookup (joins_replicate hclosed hhead n)
    rw [ha, ih] at hjoined
    rw [join_replicate_succ, join_replicate_succ]
    exact hjoined.eq_ok

end

/-- A text that closes all that it opens is resolved for itself, whatever comes behind it, unless a
placeholder begins where they meet.  If both are resolved, the results are put together.  If the
first fails, or else the second does, the failure is of the same kind and about the same
placeholder.  A placeholder may so be repeated side by side.  All this does not hang on the depth
that is allowed. -/
theorem resolveStrict_append (lookup : String → Option String) {a b : String}
    (h : Joins a.toList b.toList) :
    (∀ s t, resolveStrict lookup a = .ok s → resolveStrict lookup b = .ok t →
        resolveStrict lookup (a ++ b) = .ok (s ++ t)) ∧
      (∀ e, resolveStrict lookup a = .error e →
        ∃ e', resolveStrict lookup (a ++ b) = .error e' ∧ e'.Alike e) ∧
      (∀ s e, resolveStrict lookup a = .ok s → resolveStrict lookup b = .error e →
        ∃ e', resolveStrict lookup (a ++ b) = .error e' ∧ e'.Alike e) ∧
      (∀ s n, a.toList.head? = some '$' → resolveStrict lookup a = .ok s →
        resolveStrict lookup (String.join (List.replicate n a)) =
          .ok (String.join (List.replicate n s))) ∧
      ∀ depth, AlikeUpToText
        (resolve (ofStrings lookup) .strict depth [] (a.toList ++ b.toList)) (do
          let s ← resolve (ofStrings lookup) .strict depth [] a.toList
          let t ← resolve (ofStrings lookup) .strict depth [] b.toList
          return s ++ t) := by
  have hjoined := resolveStrict_joined lookup h
  refine ⟨fun s t ha hb => ?_, fun e ha => ?_, fun s e ha hb => ?_,
    fun s n hhead ha => resolveStrict_replicate h.closed hhead ha n,
    fun depth => resolve_append (ofStrings lookup) .strict depth [] h⟩
  · rw [ha, hb] at hjoined
    exact hjoined.eq_ok
  · rw [ha] at hjoined
    exact hjoined.exists_error
  · rw [ha, hb] at hjoined
    exact hjoined.exists_error

set_option maxRecDepth 100000 in
theorem resolveStrict_append_tangled :
    resolveStrict tangled ("x$\x7bc\x7d" ++ "$\x7bc\x7dz") = .ok ("xe" ++ "ez") ∧
      (∃ e, resolveStrict tangled ("x$\x7bc\x7d" ++ "$\x7bd\x7dz") = .error e ∧
        e.Alike (.unresolvable "d" "$\x7bd\x7dz")) ∧
      (∃ e, resolveStrict tangled ("x$\x7ba\x7d" ++ "$\x7bd\x7dz") = .error e ∧
        e.Alike (.circular "a")) := by
  have hjoins : Joins "x$\x7bc\x7d".toList "$\x7bc\x7dz".toList := ⟨by decide, by decide⟩
  have hjoins' : Joins "x$\x7bc\x7d".toList "$\x7bd\x7dz".toList := ⟨by decide, by decide⟩
  have hjoins'' : Joins "x$\x7ba\x7d".toList "$\x7bd\x7dz".toList := ⟨by decide, by decide⟩
  exact ⟨(resolveStrict_append tangled hjoins).1 _ _ (by decide +kernel) (by decide +kernel),
    (resolveStrict_append tangled hjoins').2.2.1 "xe" _ (by decide +kernel) (by decide +kernel),
    (resolveStrict_append tangled hjoins'').2.1 _ (by decide +kernel)⟩

/-! ## One set of open placeholders -/

/-- A computation that keeps one set of open placeholders. -/
abbrev Keeping := StateT (List (List Char)) (Except Failure)

/-- What becomes of a placeholder when its text has been resolved to `name`. -/
def settle {m : Type → Type} [MonadLiftT (Except Failure) m] (lookup : Lookup) (mode : Mode)
    (inside : List Char → m (List Char)) (text raw name : List Char) : m (List Char) :=
  match find lookup name with
  | some value => inside value
  | none => liftM (missing text raw name mode)

/-- What takes the place of a piece.  A placeholder is put into the set when it is begun, and taken
out when what takes its place has been found. -/
def fillKeeping (lookup : Lookup) (mode : Mode) (inside : List Char → Keeping (List Char))
    (text : List Char) : Piece → Keeping (List Char)
  | .char c => return [c]
  | .hole raw => do
    if (← get).contains raw then throw (.circular (String.ofList raw))
    modify (raw :: ·)
    let name ← inside raw
    let part ← settle lookup mode inside text raw name
    modify (·.erase raw)
    return part

/-- Resolves the placeholders of a text with one set for all. -/
def resolveKeeping (lookup : Lookup) (mode : Mode) : (depth : Nat) → List Char →
    Keeping (List Char)
  | 0, _ => throw .exhausted
  | depth + 1, text => do
    let parts ← (pieces text).mapM
      (fillKeeping lookup mode (resolveKeeping lookup mode depth) text)
    return parts.flatten

/-- The one computation gives what the other gives with that set at hand, and restores the set. -/
def Restores {α : Type} (x : Keeping α) (y : List (List Char) → Except Failure α) : Prop :=
  ∀ open_, x.run open_ = (y open_).map (·, open_)

theorem Restores.bind {α β : Type} {x : Keeping α} {y : List (List Char) → Except Failure α}
    {f : α → Keeping β} {g : α → List (List Char) → Except Failure β} (hx : Restores x y)
    (hf : ∀ a, Restores (f a) (g a)) : Restores (x >>= f) fun open_ => y open_ >>= (g · open_) := by
  intro open_
  show (x >>= f).run open_ = (y open_ >>= (g · open_)).map (·, open_)
  rw [StateT.run_bind, hx]
  cases y open_ with
  | error e => rfl
  | ok a => exact hf a open_

section

variable {lookup : Lookup} {mode : Mode} {inside : List Char → Keeping (List Char)}
  {resolution : Resolution} {text : List Char}

theorem fill_fresh {open_ : List (List Char)} {raw : List Char} (h : raw ∉ open_) :
    fill lookup mode resolution open_ text (.hole raw) =
      resolution (raw :: open_) raw >>=
        settle lookup mode (resolution (raw :: open_)) text raw := by
  cases hname : resolution (raw :: open_) raw with
  | error e => exact fill_error h hname
  | ok name =>
    show _ = settle lookup mode (resolution (raw :: open_)) text raw name
    rw [settle]
    cases hfind : find lookup name with
    | some value => exact fill_found h hname hfind
    | none => exact fill_missing h hname hfind

theorem restores_settle (hinside : ∀ text, Restores (inside text) (resolution · text))
    (raw name : List Char) : Restores (settle lookup mode inside text raw name)
      fun open_ => settle lookup mode (resolution open_) text raw name := by
  intro open_
  show (settle lookup mode inside text raw name).run open_ =
    (settle lookup mode (resolution open_) text raw name).map (·, open_)
  rw [settle, settle]
  cases find lookup name with
  | some value => exact hinside value open_
  | none => cases mode <;> rfl

theorem restores_fillKeeping (hinside : ∀ text, Restores (inside text) (resolution · text))
    (p : Piece) : Restores (fillKeeping lookup mode inside text p)
      fun open_ => fill lookup mode resolution open_ text p := by
  intro open_
  show (fillKeeping lookup mode inside text p).run open_ =
    (fill lookup mode resolution open_ text p).map (·, open_)
  cases p with
  | char c => rfl
  | hole raw =>
    by_cases hopen : raw ∈ open_
    · have hcontains : open_.contains raw = true := List.contains_iff_mem.2 hopen
      rw [fill_open hopen, fillKeeping]
      simp only [StateT.run_bind, StateT.run_get, pure_bind, if_pos hcontains]
      rfl
    · have hcontains : ¬ open_.contains raw = true := mt List.contains_iff_mem.1 hopen
      have hrun : (fillKeeping lookup mode inside text (.hole raw)).run open_ = (do
          let part ← inside raw >>= settle lookup mode inside text raw
          modify (·.erase raw)
          return part : Keeping (List Char)).run (raw :: open_) := by
        rw [fillKeeping, bind_assoc]
        simp only [StateT.run_bind, StateT.run_get, pure_bind, if_neg hcontains,
          StateT.run_modify]
      have hpart : (inside raw >>= settle lookup mode inside text raw).run (raw :: open_) =
          (resolution (raw :: open_) raw >>=
            settle lookup mode (resolution (raw :: open_)) text raw).map (·, raw :: open_) :=
        (hinside raw).bind (restores_settle hinside raw) (raw :: open_)
      rw [hrun, StateT.run_bind, hpart, fill_fresh hopen]
      cases resolution (raw :: open_) raw >>=
          settle lookup mode (resolution (raw :: open_)) text raw with
      | error e => rfl
      | ok part =>
        -- the placeholder is on top of the set, and so the one that is taken out
        show Except.ok (part, (raw :: open_).erase raw) = .ok (part, open_)
        rw [List.erase_cons_head]

theorem restores_mapM (hinside : ∀ text, Restores (inside text) (resolution · text))
    (ps : List Piece) : Restores (ps.mapM (fillKeeping lookup mode inside text))
      fun open_ => ps.mapM (fill lookup mode resolution open_ text) := by
  induction ps with
  | nil => exact fun _ => rfl
  | cons p ps ih =>
    simp only [List.mapM_cons]
    exact (restores_fillKeeping hinside p).bind fun part => ih.bind fun parts _ => rfl

/-- One set for all gives what handing down the open placeholders gives, and is what it was when a
value has been found. -/
theorem restores_resolveKeeping (lookup : Lookup) (mode : Mode) (depth : Nat) (text : List Char) :
    Restores (resolveKeeping lookup mode depth text)
      fun open_ => resolve lookup mode depth open_ text := by
  induction depth generalizing text with
  | zero => exact fun _ => rfl
  | succ depth ih => exact (restores_mapM ih (pieces text)).bind fun parts _ => rfl

end

end Placeholder
end Wiring
