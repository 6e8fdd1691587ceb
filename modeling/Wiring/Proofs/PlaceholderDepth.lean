import Mathlib.Data.Finset.Card
import Wiring.Proofs.Outcome
import Wiring.Proofs.Placeholders

/-!
# How deep placeholders are resolved

A result that is found at some depth is found at every greater one, so the depth only decides
whether a result is found.  It is found if the texts that come up hold no more than finitely many
placeholders: each one that is being resolved is remembered, and a second one is circular.  If
defaults make the placeholders grow, none is found at any depth.
-/

namespace Wiring
namespace Placeholder

/-! ## Ways to resolve that end alike -/

section

variable {lookup : Lookup} {mode mode' : Mode} {first second : Resolution} {d : Nat}
  {open_ : List (List Char)} {text s : List Char} {p : Piece} {ps : List Piece}
  {q : Failure → Prop}

/-- The result is a text, or one of the failures that `q` lets pass. -/
def Passes (q : Failure → Prop) (result : Except Failure (List Char)) : Prop :=
  ∀ e, result = .error e → q e

/-- Where the first comes to what `q` lets pass, the second comes to the same. -/
def Resolution.Refines (q : Failure → Prop) (first second : Resolution) : Prop :=
  ∀ open_ text, Passes q (first open_ text) → second open_ text = first open_ text

/-- Of the turns that a placeholder takes, the first way ends at the first that fails, and up to
there the second way takes the same ones. -/
theorem fill_refines (hinside : first.Refines q second)
    (hmissing : ∀ raw name, Passes q (missing text raw name mode) →
      missing text raw name mode' = missing text raw name mode)
    (h : Passes q (fill lookup mode first open_ text p)) :
    fill lookup mode' second open_ text p = fill lookup mode first open_ text p := by
  cases p with
  | char c => rfl
  | hole raw =>
    by_cases hopen : raw ∈ open_
    · rw [fill_open hopen, fill_open hopen]
    · have hstep := hinside (raw :: open_) raw
      cases hname : first (raw :: open_) raw with
      | error e =>
        rw [fill_error hopen hname] at h ⊢
        rw [hname] at hstep
        exact fill_error hopen (hstep h)
      | ok name =>
        rw [hname] at hstep
        have hname' : second (raw :: open_) raw = .ok name := hstep fun e he => by cases he
        cases hfind : find lookup name with
        | none =>
          rw [fill_missing hopen hname hfind] at h ⊢
          rw [fill_missing hopen hname' hfind]
          exact hmissing raw name h
        | some value =>
          rw [fill_found hopen hname hfind] at h ⊢
          rw [fill_found hopen hname' hfind]
          exact hinside _ _ h

/-- The pieces before the first that fails are the same. -/
theorem fillAll_refines (hinside : first.Refines q second)
    (hmissing : ∀ raw name, Passes q (missing text raw name mode) →
      missing text raw name mode' = missing text raw name mode)
    (h : Passes q (fillAll lookup mode first open_ text ps)) :
    fillAll lookup mode' second open_ text ps = fillAll lookup mode first open_ text ps := by
  induction ps with
  | nil => rfl
  | cons p ps ih =>
    have hp : Passes q (fill lookup mode first open_ text p) := by
      intro e he
      rw [fillAll, he] at h
      exact h e rfl
    rw [fillAll, fillAll, fill_refines hinside hmissing hp]
    cases hpart : fill lookup mode first open_ text p with
    | error e => rfl
    | ok part =>
      refine congrArg (Except.map (part ++ ·)) (ih fun e he => h e ?_)
      rw [fillAll, hpart, he]
      rfl

/-! ## More depth finds the same -/

/-- The second finds whatever the first finds. -/
def Resolution.Extends (inside deeper : Resolution) : Prop :=
  ∀ open_ text, inside open_ text ≠ .error .exhausted → deeper open_ text = inside open_ text

theorem Resolution.extends_iff :
    first.Extends second ↔ first.Refines (· ≠ .exhausted) second := by
  have hpasses (result : Except Failure (List Char)) :
      Passes (· ≠ .exhausted) result ↔ result ≠ .error .exhausted :=
    ⟨fun h heq => h _ heq rfl, fun h e heq he => h (by rw [heq, he])⟩
  simp only [Resolution.Extends, Resolution.Refines, hpasses]

/-- One level more finds whatever has been found. -/
theorem resolve_extends (d : Nat) :
    Resolution.Extends (resolve lookup mode d) (resolve lookup mode (d + 1)) := by
  rw [Resolution.extends_iff]
  induction d with
  | zero => exact fun _ _ h => absurd rfl (h _ rfl)
  | succ d ih =>
    intro open_ text h
    rw [resolve_succ] at h
    rw [resolve_succ, resolve_succ]
    exact fillAll_refines ih (fun _ _ _ => rfl) h

theorem resolve_le {d' : Nat} (hle : d ≤ d')
    (h : resolve lookup mode d open_ text ≠ .error .exhausted) :
    resolve lookup mode d' open_ text = resolve lookup mode d open_ text := by
  induction hle with
  | refl => rfl
  | step _ ih =>
    rw [← ih]
    apply resolve_extends
    rw [ih]
    exact h

/-- What is found at one depth is found at every other, unless that one is too small. -/
theorem resolve_eq_or {d' : Nat} (h : resolve lookup mode d' open_ text = .ok s) :
    resolve lookup mode d open_ text = .error .exhausted ∨
      resolve lookup mode d open_ text = .ok s := by
  by_cases hd : resolve lookup mode d open_ text = .error .exhausted
  · exact .inl hd
  · right
    rw [← resolve_le (Nat.le_max_left d d') hd, ← h]
    exact resolve_le (Nat.le_max_right d d') (by simp [h])

end

/-! ## Finitely many placeholders -/

/-- The texts `P` hold placeholders of `H` only, and are resolved to texts `Q`.  What a text `Q`
is the name of is one of the texts `P` again. -/
structure Confined (lookup : Lookup) (H : Finset (List Char)) (P Q : List Char → Prop) : Prop where
  hole : ∀ {text raw : List Char}, P text → .hole raw ∈ pieces text →
    raw ∈ H ∧ P raw ∧ Q ('$' :: '\x7b' :: raw ++ ['\x7d'])
  char : ∀ {text : List Char} {c : Char}, P text → .char c ∈ pieces text → Q [c]
  nil : Q []
  append : ∀ {s t : List Char}, Q s → Q t → Q (s ++ t)
  found : ∀ {name value : List Char}, Q name → find lookup name = some value → P value

namespace Confined

variable {lookup : Lookup} {mode : Mode} {inside : Resolution} {H : Finset (List Char)}
  {P Q : List Char → Prop} {d : Nat} {open_ : List (List Char)} {text : List Char} {p : Piece}
  {ps : List Piece}

theorem fillAll_ok (h : Confined lookup H P Q)
    (hps : ∀ p ∈ ps, ∀ s, fill lookup mode inside open_ text p = .ok s → Q s) {s : List Char}
    (hs : fillAll lookup mode inside open_ text ps = .ok s) : Q s := by
  induction ps generalizing s with
  | nil =>
    obtain rfl := Except.ok.inj hs
    exact h.nil
  | cons p ps ih =>
    rw [fillAll] at hs
    cases hp : fill lookup mode inside open_ text p with
    | error e =>
      rw [hp] at hs
      cases hs
    | ok part =>
      rw [hp] at hs
      obtain ⟨rest, hrest, rfl⟩ := exceptMap_eq_ok.1 hs
      apply h.append
      · exact hps p List.mem_cons_self part hp
      · exact ih (fun p' hp' => hps p' (List.mem_cons_of_mem p hp')) hrest

theorem fill_ok (h : Confined lookup H P Q)
    (hinside : ∀ open_ text s, P text → inside open_ text = .ok s → Q s) (htext : P text)
    (hp : p ∈ pieces text) {s : List Char}
    (hs : fill lookup mode inside open_ text p = .ok s) : Q s := by
  cases p with
  | char c =>
    obtain rfl := Except.ok.inj hs
    exact h.char htext hp
  | hole raw =>
    obtain ⟨_, hraw, hkept⟩ := h.hole htext hp
    by_cases hopen : raw ∈ open_
    · rw [fill_open hopen] at hs
      cases hs
    · cases hname : inside (raw :: open_) raw with
      | error e =>
        rw [fill_error hopen hname] at hs
        cases hs
      | ok name =>
        cases hfind : find lookup name with
        | none =>
          rw [fill_missing hopen hname hfind] at hs
          cases mode with
          | lenient =>
            obtain rfl := Except.ok.inj hs
            exact hkept
          | strict => cases hs
        | some value =>
          rw [fill_found hopen hname hfind] at hs
          have hvalue : P value := h.found (hinside _ _ _ hraw hname) hfind
          exact hinside _ _ _ hvalue hs

/-- A text `P` is resolved to a text `Q`, if it is resolved. -/
theorem resolve_ok (h : Confined lookup H P Q) (htext : P text) {s : List Char}
    (hs : resolve lookup mode d open_ text = .ok s) : Q s := by
  induction d generalizing open_ text s with
  | zero => cases hs
  | succ d ih =>
    rw [resolve_succ] at hs
    exact h.fillAll_ok (fun p hp s => h.fill_ok (fun _ _ _ htext hs => ih htext hs) htext hp) hs

theorem fillAll_ne_exhausted
    (hps : ∀ p ∈ ps, fill lookup mode inside open_ text p ≠ .error .exhausted) :
    fillAll lookup mode inside open_ text ps ≠ .error .exhausted := by
  induction ps with
  | nil => simp [fillAll]
  | cons p ps ih =>
    have hp := hps p List.mem_cons_self
    have hrest := ih fun p' hp' => hps p' (List.mem_cons_of_mem p hp')
    rw [fillAll]
    cases hfill : fill lookup mode inside open_ text p with
    | error e =>
      rw [hfill] at hp
      exact hp
    | ok part =>
      cases hall : fillAll lookup mode inside open_ text ps with
      | error e =>
        rw [hall] at hrest
        exact hrest
      | ok rest => simp [Except.map]

theorem fill_ne_exhausted (h : Confined lookup H P Q)
    (hinside : ∀ open_ text s, P text → inside open_ text = .ok s → Q s)
    (hdeeper : ∀ raw ∈ H, raw ∉ open_ → ∀ text, P text →
      inside (raw :: open_) text ≠ .error .exhausted)
    (htext : P text) (hp : p ∈ pieces text) :
    fill lookup mode inside open_ text p ≠ .error .exhausted := by
  cases p with
  | char c => simp [fill]
  | hole raw =>
    obtain ⟨hH, hraw, _⟩ := h.hole htext hp
    by_cases hopen : raw ∈ open_
    · rw [fill_open hopen]
      simp
    · cases hname : inside (raw :: open_) raw with
      | error e =>
        rw [fill_error hopen hname, ← hname]
        exact hdeeper raw hH hopen raw hraw
      | ok name =>
        cases hfind : find lookup name with
        | none =>
          rw [fill_missing hopen hname hfind]
          cases mode <;> simp [missing]
        | some value =>
          rw [fill_found hopen hname hfind]
          have hvalue : P value := h.found (hinside _ _ _ hraw hname) hfind
          exact hdeeper raw hH hopen value hvalue

/-- One level for each placeholder that is not open yet is enough, and one more for the text. -/
theorem resolve_ne_exhausted (h : Confined lookup H P Q) (htext : P text) (hnodup : open_.Nodup)
    (hopen : ∀ raw ∈ open_, raw ∈ H) (hd : H.card < d + open_.length) :
    resolve lookup mode d open_ text ≠ .error .exhausted := by
  induction d generalizing open_ text with
  | zero =>
    have hsub : open_.toFinset ⊆ H := fun raw hraw => hopen raw (List.mem_toFinset.1 hraw)
    have hcard := Finset.card_le_card hsub
    rw [List.toFinset_card_of_nodup hnodup] at hcard
    omega
  | succ d ih =>
    -- A placeholder that is not open yet joins the open ones, which are distinct and all in `H`.
    have hdeeper : ∀ raw ∈ H, raw ∉ open_ → ∀ text, P text →
        resolve lookup mode d (raw :: open_) text ≠ .error .exhausted := by
      intro raw hH hraw text htext
      apply ih htext
      · exact List.nodup_cons.2 ⟨hraw, hnodup⟩
      · intro raw' hraw'
        rcases List.mem_cons.1 hraw' with rfl | hraw'
        · exact hH
        · exact hopen raw' hraw'
      · rw [List.length_cons]
        omega
    rw [resolve_succ]
    apply fillAll_ne_exhausted
    intro p hp
    exact h.fill_ne_exhausted (fun _ _ _ htext hs => h.resolve_ok htext hs) hdeeper htext hp

end Confined

/-! ## Two kinds of texts -/

section

variable {lookup : Lookup} {texts : List (List Char)} {s raw : List Char} {c : Char}

/-- A placeholder of a text is one of its placeholders, and its text is a part of the text. -/
theorem mem_placeholders_of_hole_mem (h : .hole raw ∈ pieces s) :
    raw ∈ placeholders s ∧ raw <:+: s := by
  obtain ⟨rest, hcloses, hsuffix⟩ := (splits_pieces s).exists_of_hole_mem h
  have hpart : raw <:+: '$' :: '\x7b' :: raw ++ '\x7d' :: rest :=
    ⟨['$', '\x7b'], '\x7d' :: rest, by simp⟩
  exact ⟨mem_placeholders.2 ⟨_, hsuffix, first?_eq_some.2 ⟨rest, hcloses, rfl⟩⟩,
    hpart.trans hsuffix.isInfix⟩

/-- A placeholder that is kept is tidy if the text around it is, and a part of it. -/
theorem IsTidy.kept (hs : IsTidy s) (h : .hole raw ∈ pieces s) :
    IsTidy raw ∧ IsTidy ('$' :: '\x7b' :: raw ++ ['\x7d']) ∧
      '$' :: '\x7b' :: raw ++ ['\x7d'] <:+: s := by
  obtain ⟨rest, hcloses, hsuffix⟩ := (splits_pieces s).exists_of_hole_mem h
  have hwhole : IsTidy ('$' :: '\x7b' :: (raw ++ '\x7d' :: rest)) := hs.suffix hsuffix
  have hraw : IsTidy raw :=
    (hwhole.suffix ((List.suffix_cons _ _).trans (List.suffix_cons _ _))).of_closes hcloses
  have hfirst : first? ('$' :: '\x7b' :: (raw ++ ['\x7d'])) = some raw :=
    first?_eq_some.2 ⟨[], hcloses, rfl⟩
  refine ⟨hraw, ?_, ?_⟩
  · refine IsTidy.cons (IsTidy.cons (hraw.append (by decide)) ?_) fun _ => ⟨raw, hfirst⟩
    intro hdollar
    cases hdollar
  · have hpart : '$' :: '\x7b' :: raw ++ ['\x7d'] <:+: '$' :: '\x7b' :: raw ++ '\x7d' :: rest :=
      ⟨[], rest, by simp⟩
    exact hpart.trans hsuffix.isInfix

theorem find_eq_some {name value : List Char} (h : find lookup name = some value) :
    (∃ key, lookup key = some value) ∨ ∃ key, name = key ++ ':' :: value := by
  unfold find at h
  split at h
  · rename_i hvalue
    exact .inl ⟨name, hvalue.trans h⟩
  · split at h
    · rename_i key default hcut
      rw [Option.some.injEq] at h
      cases hkey : lookup key with
      | none =>
        rw [hkey] at h
        obtain rfl : default = value := h
        exact .inr ⟨key, Text.eq_append_of_cutList hcut⟩
      | some v =>
        rw [hkey] at h
        obtain rfl : v = value := h
        exact .inl ⟨key, hkey⟩
    · cases h

/-- The text has no placeholders but those. -/
def Within (H : Finset (List Char)) (s : List Char) : Prop := ∀ raw ∈ placeholders s, raw ∈ H

/-- The placeholders of all texts. -/
def allPlaceholders (texts : List (List Char)) : Finset (List Char) :=
  (texts.flatMap placeholders).toFinset

theorem Within.of_mem (h : s ∈ texts) : Within (allPlaceholders texts) s := fun _ hraw =>
  List.mem_toFinset.2 (List.mem_flatMap.2 ⟨s, h, hraw⟩)

theorem Within.part {H : Finset (List Char)} (h : Within H s) {t : List Char} (ht : t <:+: s) :
    Within H t := fun raw hraw => h raw (placeholders_subset ht hraw)

theorem within_singleton {H : Finset (List Char)} : Within H [c] := by
  intro raw hraw
  obtain ⟨t, ht, hfirst⟩ := mem_placeholders.1 hraw
  obtain ⟨rest, _, rfl⟩ := first?_eq_some.1 hfirst
  have hlen := ht.length_le
  simp at hlen

/-- Without separators nothing is cut out of a text that has been put together. -/
theorem confined_of_no_separator (hlookup : ∀ key value, lookup key = some value → value ∈ texts)
    (htexts : ∀ s ∈ texts, ':' ∉ s) :
    Confined lookup (allPlaceholders texts) (fun s => ':' ∉ s ∧ Within (allPlaceholders texts) s)
      (':' ∉ ·) := by
  constructor
  · rintro s raw ⟨hs, hH⟩ h
    obtain ⟨hmem, hpart⟩ := mem_placeholders_of_hole_mem h
    have hraw : ':' ∉ raw := fun hcolon => hs (hpart.subset hcolon)
    refine ⟨hH raw hmem, ⟨hraw, hH.part hpart⟩, ?_⟩
    simpa using hraw
  · rintro s c ⟨hs, _⟩ h
    have hc := ((splits_pieces s).char_mem h).1
    rw [List.mem_singleton]
    rintro rfl
    exact hs hc
  · exact List.not_mem_nil
  · intro s t hs ht
    rw [List.mem_append, not_or]
    exact ⟨hs, ht⟩
  · intro name value hname hfind
    rcases find_eq_some hfind with ⟨key, hkey⟩ | ⟨key, rfl⟩
    · have hvalue := hlookup key value hkey
      exact ⟨htexts value hvalue, .of_mem hvalue⟩
    · exact absurd (List.mem_append_right _ List.mem_cons_self) hname

/-- In tidy texts no new placeholder is put together from the parts of others. -/
theorem confined_of_isTidy (hlookup : ∀ key value, lookup key = some value → value ∈ texts)
    (htexts : ∀ s ∈ texts, IsTidy s) :
    Confined lookup (allPlaceholders texts) (fun s => IsTidy s ∧ Within (allPlaceholders texts) s)
      (fun s => IsTidy s ∧ Within (allPlaceholders texts) s) := by
  constructor
  · rintro s raw ⟨hs, hH⟩ h
    obtain ⟨hmem, hpart⟩ := mem_placeholders_of_hole_mem h
    obtain ⟨hraw, hkept, hkeptPart⟩ := hs.kept h
    exact ⟨hH raw hmem, ⟨hraw, hH.part hpart⟩, hkept, hH.part hkeptPart⟩
  · rintro s c ⟨hs, _⟩ h
    have hc := ((splits_pieces s).char_mem h).2 hs
    exact ⟨isTidy_nil.cons fun hdollar => absurd hdollar hc, within_singleton⟩
  · exact ⟨isTidy_nil, fun raw hraw => by cases hraw⟩
  · rintro s t ⟨hs, hsH⟩ ⟨ht, htH⟩
    refine ⟨hs.append ht, fun raw hraw => ?_⟩
    exact (List.mem_append.1 (hs.placeholders_append t hraw)).elim (hsH raw) (htH raw)
  · rintro name value ⟨hname, hH⟩ hfind
    rcases find_eq_some hfind with ⟨key, hkey⟩ | ⟨key, rfl⟩
    · have hvalue := hlookup key value hkey
      exact ⟨htexts value hvalue, .of_mem hvalue⟩
    · have hsuffix : value <:+ key ++ ':' :: value := ⟨key ++ [':'], by simp⟩
      exact ⟨hname.suffix hsuffix, hH.part hsuffix.isInfix⟩

end

end Placeholder

/-! ## In an environment -/

namespace PropertySource

mutual

/-- All values in a source. -/
def values : PropertySource → List String
  | map _ properties => properties.values
  | resource _ _ properties => properties.values
  | composite _ members => valuesOf members

def valuesOf : List PropertySource → List String
  | [] => []
  | s :: ss => values s ++ valuesOf ss

end

mutual

theorem mem_values_of_get? {key value : String} :
    ∀ {s : PropertySource}, s.get? key = some value → value ∈ s.values
  | map _ properties, h => by
    rw [get?] at h
    exact List.mem_map_of_mem (OrderedMap.mem_entries_of_get? h)
  | resource _ _ properties, h => by
    rw [get?] at h
    exact List.mem_map_of_mem (OrderedMap.mem_entries_of_get? h)
  | composite _ members, h => by
    rw [get?] at h
    rw [values]
    exact mem_valuesOf_of_firstOf h

theorem mem_valuesOf_of_firstOf {key value : String} :
    ∀ {ss : List PropertySource}, firstOf key ss = some value → value ∈ valuesOf ss
  | [], h => by cases h
  | s :: ss, h => by
    rw [firstOf] at h
    rw [valuesOf, List.mem_append]
    cases hs : s.get? key with
    | some v =>
      rw [hs] at h
      obtain rfl := Option.some.inj h
      exact .inl (mem_values_of_get? hs)
    | none =>
      rw [hs] at h
      exact .inr (mem_valuesOf_of_firstOf h)

end

end PropertySource

/-- A text and all property values. -/
def Environment.texts (env : Environment) (text : List Char) : List (List Char) :=
  text :: (PropertySource.valuesOf env.sources.sources).map String.toList

namespace Placeholder

theorem mem_texts_of_lookup {env : Environment} (text : List Char) {key value : List Char}
    (h : ofStrings env.property? key = some value) : value ∈ env.texts text := by
  obtain ⟨v, hv, rfl⟩ := Option.map_eq_some_iff.1 h
  exact List.mem_cons_of_mem _ (List.mem_map_of_mem (PropertySource.mem_valuesOf_of_firstOf hv))

/-- If no default can be cut out, or if all texts are tidy, there is a result: it is found at
any depth greater than the number of placeholders in the text and in the property values. -/
theorem exists_resolve_eq {env : Environment} {text : List Char}
    (h : (∀ s ∈ env.texts text, ':' ∉ s) ∨ ∀ s ∈ env.texts text, IsTidy s) (mode : Mode) :
    ∃ result, result ≠ .error .exhausted ∧
      ∀ depth, (allPlaceholders (env.texts text)).card < depth →
        resolve (ofStrings env.property?) mode depth [] text = result := by
  have hlookup (key value : List Char) (hvalue : ofStrings env.property? key = some value) :
      value ∈ env.texts text := mem_texts_of_lookup text hvalue
  have htext : text ∈ env.texts text := List.mem_cons_self
  have hends : ∀ depth, (allPlaceholders (env.texts text)).card < depth →
      resolve (ofStrings env.property?) mode depth [] text ≠ .error .exhausted := by
    intro depth hdepth
    rcases h with hseparator | htidy
    · exact (confined_of_no_separator hlookup hseparator).resolve_ne_exhausted
        ⟨hseparator text htext, .of_mem htext⟩ .nil (fun _ hraw => by cases hraw) hdepth
    · exact (confined_of_isTidy hlookup htidy).resolve_ne_exhausted
        ⟨htidy text htext, .of_mem htext⟩ .nil (fun _ hraw => by cases hraw) hdepth
  have hfirst := hends _ (Nat.lt_succ_self _)
  exact ⟨_, hfirst, fun depth hdepth => resolve_le hdepth hfirst⟩

/-- A path whose parts have values, up to one that has a default. -/
def paths : Environment where
  sources := ⟨[.map "paths" ⟨[("name", "demo"), ("kind", "main"),
    ("path", "$\x7bname\x7d/$\x7bmode:$\x7bkind\x7d\x7d")]⟩]⟩

set_option maxRecDepth 100000 in
theorem exists_resolve_eq_paths :
    (∀ s ∈ paths.texts "$\x7bpath\x7d".toList, IsTidy s) ∧
      (allPlaceholders (paths.texts "$\x7bpath\x7d".toList)).card = 4 ∧
      ∃ result, result ≠ .error .exhausted ∧
        ∀ depth, (allPlaceholders (paths.texts "$\x7bpath\x7d".toList)).card < depth →
          resolve (ofStrings paths.property?) .strict depth [] "$\x7bpath\x7d".toList = result := by
  have htidy : ∀ s ∈ paths.texts "$\x7bpath\x7d".toList, IsTidy s := by decide +kernel
  exact ⟨htidy, by decide +kernel, exists_resolve_eq (.inr htidy) .strict⟩

/-! ## An endless text

Without a condition there need not be a result.  A default is cut out of text that has been put
together, and is resolved again.  So a placeholder may have a default that holds the same
placeholder one character longer, which is not circular as it is another text. -/

/-- The name whose turn it is. -/
def turn (m : Nat) : Char := Char.ofNat (97 + m % 16)

/-- What the name before has as its value.  The placeholder is not closed, so it stands for itself
until the text around it is put together. -/
def turning (m : Nat) : List Char :=
  '$' :: '\x7b' :: turn m :: 'k' :: ':' :: '$' :: '\x7b' :: turn m :: '\x7d' ::
    List.replicate (if m % 16 = 0 then 1 else 0) 'x'

/-- Sixteen names take turns, so that the texts grow slowly: what has no bound is their depth.
The value of another name is a closing brace that brings itself along. -/
def growingProperties : OrderedMap String String :=
  ⟨(List.range 16).map (fun m => (String.ofList [turn m], String.ofList (turning (m + 1)))) ++
    [("y", "$\x7bz\x7d\x7by\x7d\x7d"), ("z", "$")]⟩

def growing : Environment where
  sources := ⟨[.map "test" growingProperties]⟩

/-- The text of the placeholder after so many turns. -/
def grownRaw (m : Nat) : List Char :=
  turn m :: 'k' :: ':' :: '$' :: '\x7b' :: turn m :: '\x7d' ::
    (List.replicate (m / 16) 'x' ++ ['$', '\x7b', 'y', '\x7d'])

def grown (m : Nat) : List Char := '$' :: '\x7b' :: (grownRaw m ++ ['\x7d'])

theorem turn_mod (m : Nat) : turn (m % 16) = turn m := by
  rw [turn, turn, Nat.mod_mod]

theorem turning_mod (m : Nat) : turning (m % 16) = turning m := by
  rw [turning, turning, turn_mod, Nat.mod_mod]

theorem toNat_turn (m : Nat) : (turn m).toNat = 97 + m % 16 := by
  have hall : ∀ i < 16, (turn i).toNat = 97 + i := by decide
  rw [← turn_mod]
  exact hall (m % 16) (Nat.mod_lt m (by decide))

theorem turn_ne {c : Char} (h : c.toNat < 97 ∨ 112 < c.toNat) (m : Nat) : turn m ≠ c := by
  intro heq
  have hturn := toNat_turn m
  rw [heq] at hturn
  omega

theorem resolve_turning {lookup : Lookup} {mode : Mode} {d m : Nat} {open_ : List (List Char)} :
    resolve lookup mode (d + 1) open_ (turning m) = .ok (turning m) := by
  have hall : ∀ i < 16, close 0 ((turning i).drop 2) = none := by decide
  have hclose := hall (m % 16) (Nat.mod_lt m (by decide))
  rw [turning_mod] at hclose
  exact resolve_unclosed hclose

/-- Every sixteenth turn adds a character. -/
theorem turning_append (m : Nat) :
    turning (m + 1) ++ (List.replicate (m / 16) 'x' ++ ['$', '\x7b', 'y', '\x7d', '\x7d']) =
      grown (m + 1) := by
  have hdiv : (m + 1) / 16 = (if (m + 1) % 16 = 0 then 1 else 0) + m / 16 := by split <;> omega
  simp [grown, grownRaw, turning, hdiv, ← List.replicate_append_replicate]

theorem grownRaw_injective {j m : Nat} (h : grownRaw j = grownRaw m) : j = m := by
  have hlen := congrArg List.length h
  have hturn := congrArg Char.toNat (List.cons.inj h).1
  rw [toNat_turn, toNat_turn] at hturn
  simp [grownRaw] at hlen
  omega

theorem closes_grownRaw (m : Nat) : Closes 0 (grownRaw m) := by
  have hdollar : turn m ≠ '$' := turn_ne (by decide) m
  have hbrace : turn m ≠ '\x7d' := turn_ne (by decide) m
  have hend : Closes 0 ['$', '\x7b', 'y', '\x7d'] :=
    .opened (.char (by decide) (by simp) (.closed .done))
  have hmid : Closes 1 (turn m :: '\x7d' ::
      (List.replicate (m / 16) 'x' ++ ['$', '\x7b', 'y', '\x7d'])) := by
    refine .char hbrace (fun s' heq => hdollar (List.cons.inj heq).1) (.closed (hend.append ?_))
    intro c hc
    rw [List.eq_of_mem_replicate hc]
    decide
  have hname : ∀ c ∈ [turn m, 'k', ':'], c ≠ '$' ∧ c ≠ '\x7d' := by
    simpa using ⟨hdollar, hbrace⟩
  exact .append hname (.opened hmid)

/-- Whose turn it is has as its value the turn after. -/
theorem lookup_turn (m : Nat) :
    ofStrings growing.property? [turn m] = some (turning (m + 1)) := by
  have hall : ∀ i < 16, ofStrings growing.property? [turn i] = some (turning (i + 1)) := by
    decide +kernel
  have hvalue := hall (m % 16) (Nat.mod_lt m (by decide))
  rw [turn_mod, ← turning_mod, Nat.mod_add_mod, turning_mod] at hvalue
  exact hvalue

set_option maxRecDepth 100000 in
theorem lookup_brace : ofStrings growing.property? ['z'] = some ['$'] ∧
    ofStrings growing.property? ['y'] =
      some ['$', '\x7b', 'z', '\x7d', '\x7b', 'y', '\x7d', '\x7d'] := by
  decide +kernel

/-- All names are single characters. -/
theorem lookup_eq_none (key : List Char) (h : key.length ≠ 1) :
    ofStrings growing.property? key = none := by
  have hsingle : ∀ e ∈ growingProperties.entries, e.1.length = 1 := by decide +kernel
  rw [ofStrings, Option.map_eq_none_iff]
  have hsame : growing.property? (String.ofList key) =
      growingProperties.get? (String.ofList key) := by
    rw [Environment.property?, PropertySources.property?, growing, PropertySource.firstOf,
      PropertySource.get?]
    cases growingProperties.get? (String.ofList key) <;> rfl
  rw [hsame]
  cases hget : growingProperties.get? (String.ofList key) with
  | none => rfl
  | some value =>
    have hlen := hsingle _ (OrderedMap.mem_entries_of_get? hget)
    exact absurd (by simpa using hlen) h

/-- The name in the text after so many turns is the text after one more, behind a name without a
value. -/
theorem resolve_grownRaw {mode : Mode} {d m : Nat} {open_ : List (List Char)}
    (hopen : ∀ raw ∈ open_, raw.length ≠ 1) :
    resolve (ofStrings growing.property?) mode (d + 3) open_ (grownRaw m) =
      .ok (turn m :: 'k' :: ':' :: grown (m + 1)) := by
  have hdollar : turn m ≠ '$' := turn_ne (by decide) m
  have hbrace : turn m ≠ '\x7d' := turn_ne (by decide) m
  have hfree {c : Char} : [c] ∉ open_ := fun hmem => hopen _ hmem rfl
  obtain ⟨hvalueZ, hvalueY⟩ := lookup_brace
  have hz : resolve (ofStrings growing.property?) mode (d + 1) (['z'] :: ['y'] :: open_) ['$'] =
      .ok ['$'] := rfl
  have hy : resolve (ofStrings growing.property?) mode (d + 2) (['y'] :: open_)
      ['$', '\x7b', 'z', '\x7d', '\x7b', 'y', '\x7d', '\x7d'] =
        .ok ['$', '\x7b', 'y', '\x7d', '\x7d'] := by
    rw [resolve_succ]
    refine fillAll_hole ['z'] ['\x7b', 'y', '\x7d', '\x7d'] (by simp) ?_ hvalueZ hz rfl
    simpa using hfree
  -- The value of `y` is one brace longer than its placeholder, which closes the next one.
  have hend : fillAll (ofStrings growing.property?) mode
      (resolve (ofStrings growing.property?) mode (d + 2)) open_ (grownRaw m)
      (pieces (List.replicate (m / 16) 'x' ++ ['$', '\x7b', 'y', '\x7d'])) =
        .ok (List.replicate (m / 16) 'x' ++ ['$', '\x7b', 'y', '\x7d', '\x7d']) := by
    refine fillAll_chars (fun c hc => ?_) ?_
    · rw [List.eq_of_mem_replicate hc]
      decide
    · exact fillAll_hole ['y'] [] (by simp) hfree hvalueY hy rfl
  have hmid := fillAll_hole [turn m] _ (by simpa using ⟨hdollar, hbrace⟩) hfree (lookup_turn m)
    resolve_turning hend
  rw [resolve_succ]
  have hall := fillAll_char hdollar (fillAll_char (c := 'k') (by decide)
    (fillAll_char (c := ':') (by decide) hmid))
  rw [turning_append] at hall
  exact hall

theorem find_grown (m : Nat) :
    find (ofStrings growing.property?) (turn m :: 'k' :: ':' :: grown (m + 1)) =
      some (grown (m + 1)) := by
  have hcolon : turn m ≠ ':' := turn_ne (by decide) m
  have hcut : Text.cutList ':' (turn m :: 'k' :: ':' :: grown (m + 1)) =
      some ([turn m, 'k'], grown (m + 1)) := by
    simp [Text.cutList, hcolon]
  rw [find, lookup_eq_none _ (by simp), hcut]
  simp only [lookup_eq_none [turn m, 'k'] (by simp), Option.getD_none]

/-- However deep it may go, the text does not come to a result. -/
theorem resolve_grown (mode : Mode) (depth m : Nat) (open_ : List (List Char))
    (hopen : ∀ raw ∈ open_, ∃ j < m, raw = grownRaw j) :
    resolve (ofStrings growing.property?) mode depth open_ (grown m) = .error .exhausted := by
  induction depth generalizing m open_ with
  | zero => rfl
  | succ d ih =>
    -- The open placeholders are those of the turns before, and the texts of two turns differ.
    have hnew : grownRaw m ∉ open_ := by
      intro hmem
      obtain ⟨j, hj, heq⟩ := hopen _ hmem
      exact Nat.ne_of_gt hj (grownRaw_injective heq)
    have hnext : ∀ raw ∈ grownRaw m :: open_, ∃ j < m + 1, raw = grownRaw j := by
      intro raw hraw
      rcases List.mem_cons.1 hraw with rfl | hraw
      · exact ⟨m, Nat.lt_succ_self m, rfl⟩
      · obtain ⟨j, hj, rfl⟩ := hopen raw hraw
        exact ⟨j, Nat.lt_succ_of_lt hj, rfl⟩
    have hlong : ∀ raw ∈ grownRaw m :: open_, raw.length ≠ 1 := by
      intro raw hraw
      obtain ⟨j, _, rfl⟩ := hnext raw hraw
      simp [grownRaw]
    have hfill : fill (ofStrings growing.property?) mode
        (resolve (ofStrings growing.property?) mode d) open_ (grown m) (.hole (grownRaw m)) =
          .error .exhausted := by
      rcases resolve_eq_or (d := d) (resolve_grownRaw (d := 0) hlong) with hname | hname
      · exact fill_error hnew hname
      · rw [fill_found hnew hname (find_grown m)]
        exact ih (m + 1) _ hnext
    have hclose := close_of_closes (closes_grownRaw m) []
    rw [resolve_succ, grown, pieces_closed hclose, fillAll, ← grown, hfill]

/-- Resolution does not always come to an end. -/
theorem not_forall_exists_resolve :
    ¬ ∀ (env : Environment) (mode : Mode) (text : List Char), ∃ depth,
      resolve (ofStrings env.property?) mode depth [] text ≠ .error .exhausted := by
  intro hall
  obtain ⟨depth, hdepth⟩ := hall growing .strict (grown 0)
  exact hdepth (resolve_grown .strict depth 0 [] fun _ hraw => by cases hraw)

end Placeholder

/-- A text with fewer placeholders than the depth allowed is resolved or fails for a reason. -/
theorem Environment.resolveStrict_ne_exhausted {env : Environment} {text : String}
    (h : (∀ s ∈ env.texts text.toList, ':' ∉ s) ∨ ∀ s ∈ env.texts text.toList, Placeholder.IsTidy s)
    (hcard : (Placeholder.allPlaceholders (env.texts text.toList)).card < Placeholder.maxDepth) :
    env.resolveStrict text ≠ .error .exhausted := by
  obtain ⟨result, hresult, hall⟩ := Placeholder.exists_resolve_eq h .strict
  rw [resolveStrict, Placeholder.resolveStrict, hall _ hcard]
  cases result with
  | ok s => simp [Except.map]
  | error e => simpa [Except.map] using hresult

end Wiring
