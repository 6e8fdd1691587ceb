/-!
# Digits

The digits of a base are `0` to `9` and then the letters from `a`, in either case.
-/

namespace Wiring
namespace Text

/-- The value of a hexadecimal digit, and 16 for any other character. -/
def digitValue (c : Char) : Nat :=
  let n := c.toNat
  if 48 ≤ n && n ≤ 57 then n - 48
  else if 65 ≤ n && n ≤ 70 then n - 55
  else if 97 ≤ n && n ≤ 102 then n - 87
  else 16

/-- The value of a digit in a base of at most 16. -/
def digitValue? (base : Nat) (c : Char) : Option Nat :=
  if digitValue c < base then some (digitValue c) else none

/-- The value of a row of digits, the highest first. -/
def digitsValue (base : Nat) (cs : List Char) : Nat :=
  cs.foldl (fun n c => n * base + digitValue c) 0

/-- The number that the characters write, if there are any and all are digits. -/
def number? (base : Nat) : List Char → Option Nat
  | [] => none
  | cs => cs.foldlM (fun n c => (digitValue? base c).map (n * base + ·)) 0

theorem foldlM_digitValue? {base : Nat} {cs : List Char} (h : ∀ c ∈ cs, digitValue c < base)
    (n : Nat) : cs.foldlM (fun n c => (digitValue? base c).map (n * base + ·)) n =
      some (cs.foldl (fun n c => n * base + digitValue c) n) := by
  induction cs generalizing n with
  | nil => rfl
  | cons c cs ih =>
    rw [List.forall_mem_cons] at h
    rw [List.foldlM_cons, digitValue?, if_pos h.1]
    exact ih h.2 _

theorem lt_of_foldlM_digitValue? {base m n : Nat} {cs : List Char}
    (h : cs.foldlM (fun n c => (digitValue? base c).map (n * base + ·)) m = some n) :
    ∀ c ∈ cs, digitValue c < base := by
  induction cs generalizing m with
  | nil => exact fun _ hc => absurd hc List.not_mem_nil
  | cons c cs ih =>
    obtain ⟨k, hk, h⟩ := Option.bind_eq_some_iff.1 h
    obtain ⟨d, hd, -⟩ := Option.map_eq_some_iff.1 hk
    refine List.forall_mem_cons.2 ⟨?_, ih h⟩
    rw [digitValue?] at hd
    split at hd
    case isTrue hlt => exact hlt
    case isFalse => cases hd

theorem number?_eq_some_iff {base n : Nat} {cs : List Char} : number? base cs = some n ↔
    cs ≠ [] ∧ (∀ c ∈ cs, digitValue c < base) ∧ digitsValue base cs = n := by
  cases cs with
  | nil => exact iff_of_false nofun fun h => h.1 rfl
  | cons c cs =>
    rw [number?.eq_2 base (c :: cs) (List.cons_ne_nil c cs)]
    constructor
    · intro h
      have hdigits := lt_of_foldlM_digitValue? h
      rw [foldlM_digitValue? hdigits] at h
      exact ⟨List.cons_ne_nil c cs, hdigits, Option.some.inj h⟩
    · rintro ⟨-, hdigits, rfl⟩
      exact foldlM_digitValue? hdigits 0

end Text
end Wiring
