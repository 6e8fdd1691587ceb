import Wiring.Proofs.PlaceholderDepth

/-!
# Keeping and refusing placeholders

The two ways to resolve a text differ only at a placeholder that cannot be resolved.  Up to there
they take the same turns, with the same placeholders open.  So where nothing is refused they end
alike: with the same text, or at the same circular placeholder.
-/

namespace Wiring
namespace Placeholder

/-- The failure is that of a placeholder that cannot be resolved. -/
def Failure.isUnresolvable : Failure → Bool
  | unresolvable _ _ => true
  | _ => false

/-- The result is no refusal of a placeholder. -/
def Accepts (result : Except Failure (List Char)) : Prop :=
  ∀ e, result = .error e → e.isUnresolvable = false

/-- Where the first refuses nothing, the second ends as the first does. -/
def Resolution.Agrees (strict lenient : Resolution) : Prop :=
  ∀ open_ text, Accepts (strict open_ text) → lenient open_ text = strict open_ text

theorem not_accepts_missing (text raw name : List Char) :
    ¬ Accepts (missing text raw name .strict) := by
  intro h
  cases h _ rfl

/-- At every depth, and with any placeholders open. -/
theorem resolve_agrees (lookup : Lookup) (depth : Nat) :
    Resolution.Agrees (resolve lookup .strict depth) (resolve lookup .lenient depth) := by
  -- to accept is to pass a failure that is no refusal
  show Resolution.Refines (·.isUnresolvable = false) _ _
  induction depth with
  | zero => exact fun _ _ _ => rfl
  | succ depth ih =>
    intro open_ text h
    rw [resolve_succ] at h
    rw [resolve_succ, resolve_succ]
    exact fillAll_refines ih (fun raw name h => absurd h (not_accepts_missing text raw name)) h

variable {lookup : String → Option String} {text s raw : String}

theorem resolveLenient_of_ok (h : resolveStrict lookup text = .ok s) :
    resolveLenient lookup text = s := by
  rw [resolveStrict] at h
  obtain ⟨chars, hchars, rfl⟩ := exceptMap_eq_ok.1 h
  have hsame := resolve_agrees (ofStrings lookup) maxDepth [] text.toList
  rw [hchars] at hsame
  rw [resolveLenient, hsame fun e he => by cases he]

theorem resolveLenient_of_circular (h : resolveStrict lookup text = .error (.circular raw)) :
    resolveLenient lookup text = text := by
  rw [resolveStrict] at h
  have hsame := resolve_agrees (ofStrings lookup) maxDepth [] text.toList
  cases hresult : resolve (ofStrings lookup) .strict maxDepth [] text.toList with
  | ok chars =>
    rw [hresult] at h
    cases h
  | error e =>
    rw [hresult] at h hsame
    obtain rfl : e = .circular raw := Except.error.inj h
    have hcircular : Accepts (.error (.circular raw)) := by
      intro e he
      obtain rfl := Except.error.inj he
      rfl
    rw [resolveLenient, hsame hcircular]

/-- Keeping what cannot be resolved gives the text that refusing it gives, if that gives one, and
the text as it stands if it finds a placeholder inside its own resolution.  Whatever the depth
allowed, the two end alike unless a placeholder is refused. -/
theorem resolveLenient_agrees (lookup : String → Option String) (text : String) :
    (∀ depth, Accepts (resolve (ofStrings lookup) .strict depth [] text.toList) →
      resolve (ofStrings lookup) .lenient depth [] text.toList =
        resolve (ofStrings lookup) .strict depth [] text.toList) ∧
      (∀ s, resolveStrict lookup text = .ok s → resolveLenient lookup text = s) ∧
      ∀ raw, resolveStrict lookup text = .error (.circular raw) →
        resolveLenient lookup text = text :=
  ⟨fun depth => resolve_agrees (ofStrings lookup) depth [] text.toList,
    fun _ => resolveLenient_of_ok, fun _ => resolveLenient_of_circular⟩

/-- Two properties that lead to each other, and one that leads to neither. -/
def tangled (key : String) : Option String :=
  if key = "a" then some "$\x7bb\x7d" else if key = "b" then some "$\x7ba\x7d"
  else if key = "c" then some "$\x7bd:e\x7d" else none

set_option maxRecDepth 100000 in
theorem resolveLenient_agrees_tangled :
    resolveStrict tangled "x$\x7bc\x7dz" = .ok "xez" ∧
      resolveLenient tangled "x$\x7bc\x7dz" = "xez" ∧
      resolveStrict tangled "x$\x7ba\x7dz" = .error (.circular "a") ∧
      resolveLenient tangled "x$\x7ba\x7dz" = "x$\x7ba\x7dz" := by
  have hok : resolveStrict tangled "x$\x7bc\x7dz" = .ok "xez" := by decide +kernel
  have hcircular : resolveStrict tangled "x$\x7ba\x7dz" = .error (.circular "a") := by
    decide +kernel
  exact ⟨hok, (resolveLenient_agrees tangled _).2.1 _ hok, hcircular,
    (resolveLenient_agrees tangled _).2.2 _ hcircular⟩

end Placeholder
end Wiring
