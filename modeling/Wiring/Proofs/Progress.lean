import Mathlib.Data.Finset.Card
import Wiring.Proofs.Soundness

/-!
# What a run uses up

A scan that finds something registers it, and nothing is ever taken out of the registry.  Short of
that, a run only adds to what is committed, claimed and on the stack.  So there is a rank that
falls along a run that is not explicit: with each new registration, and else with each new mark
on a class.
-/

namespace Wiring

/-! ## Counting -/

/-- How many of the names are not marked. -/
def unmarked (U : Finset String) (marked : String → Bool) : Nat :=
  (U.filter fun name => marked name = false).card

section

variable {U : Finset String} {a b : String → Bool}

theorem unmarked_le_card : unmarked U a ≤ U.card := Finset.card_filter_le _ _

theorem unmarked_subset (h : ∀ name ∈ U, a name = true → b name = true) :
    (U.filter fun name => b name = false) ⊆ U.filter fun name => a name = false := by
  intro name hname
  rw [Finset.mem_filter] at hname ⊢
  refine ⟨hname.1, ?_⟩
  cases ha : a name with
  | false => rfl
  | true => exact absurd (h name hname.1 ha) (by simp [hname.2])

theorem unmarked_le (h : ∀ name ∈ U, a name = true → b name = true) :
    unmarked U b ≤ unmarked U a := Finset.card_le_card (unmarked_subset h)

/-- If no fewer names are unmarked, none has been marked. -/
theorem marked_of_unmarked_le (h : ∀ name ∈ U, a name = true → b name = true)
    (hle : unmarked U a ≤ unmarked U b) : ∀ name ∈ U, b name = true → a name = true := by
  intro name hname hb
  have heq := Finset.eq_of_subset_of_card_le (unmarked_subset h) hle
  cases ha : a name with
  | true => rfl
  | false =>
    have hmem : name ∈ U.filter fun name => b name = false := by
      rw [heq, Finset.mem_filter]
      exact ⟨hname, ha⟩
    rw [Finset.mem_filter, hb] at hmem
    exact absurd hmem.2 (by simp)

theorem unmarked_lt (h : ∀ name ∈ U, a name = true → b name = true) {name : String}
    (hname : name ∈ U) (ha : a name = false) (hb : b name = true) :
    unmarked U b < unmarked U a := by
  by_contra hle
  have := marked_of_unmarked_le h (Nat.le_of_not_lt hle) name hname hb
  rw [ha] at this
  cases this

end

/-! ## What a scan registers -/

namespace Scanner

/-- The scanner finds nothing, or registers what it finds. -/
def Registers (s : Scanner) : Prop := s = .fixed [] ∨ ∃ names, s = .reading names true

def classNames : Scanner → List String
  | fixed _ => []
  | reading names _ => names

/-- The class can be read, and its bean name is not taken. -/
def isFree (reader : Reader) (registry : Registry) (name : String) : Bool :=
  match reader.read name with
  | .ok c => !registry.contains (componentName c)
  | .error _ => false

/-- How many of its classes the scanner may still find. -/
def unregistered (s : Scanner) (reader : Reader) (registry : Registry) : Nat :=
  s.classNames.countP (isFree reader registry)

theorem unregistered_le (s : Scanner) (reader : Reader) (registry : Registry) :
    s.unregistered reader registry ≤ s.classNames.length := List.countP_le_length

theorem isFree_mono {reader : Reader} {registry registry' : Registry}
    (h : ∀ name, registry.contains name = true → registry'.contains name = true) {name : String}
    (hname : isFree reader registry' name = true) : isFree reader registry name = true := by
  rw [isFree] at hname ⊢
  cases hread : reader.read name with
  | error e =>
    rw [hread] at hname
    exact hname
  | ok c =>
    rw [hread] at hname
    dsimp only at hname ⊢
    cases hcontains : registry.contains (componentName c) with
    | false => rfl
    | true =>
      rw [h _ hcontains] at hname
      exact hname

theorem unregistered_lt {s : Scanner} {reader : Reader} {registry registry' : Registry}
    (h : ∀ name, registry.contains name = true → registry'.contains name = true) {name : String}
    (hname : name ∈ s.classNames) (hbefore : isFree reader registry name = true)
    (hafter : isFree reader registry' name = false) :
    s.unregistered reader registry' < s.unregistered reader registry := by
  obtain ⟨first, rest, hsplit⟩ := List.append_of_mem hname
  have hfirst : first.countP (isFree reader registry') ≤ first.countP (isFree reader registry) :=
    List.countP_mono_left fun _ _ => isFree_mono h
  have hrest : rest.countP (isFree reader registry') ≤ rest.countP (isFree reader registry) :=
    List.countP_mono_left fun _ _ => isFree_mono h
  rw [unregistered, unregistered, hsplit, List.countP_append, List.countP_append,
    List.countP_cons_of_pos hbefore, List.countP_cons_of_neg (by simp [hafter])]
  omega

/-- A name that a scan does not fail at is passed over, or what is read under it is added. -/
theorem readAll_cons {request : ScanRequest} {reader : Reader} {registers : Bool}
    {a a' : Answer} {name : String} {names : List String}
    (h : readAll request reader registers a (name :: names) = (a', none)) :
    readAll request reader registers a names = (a', none) ∨
      ∃ c, reader.read name = .ok c ∧
        readAll request reader registers (addComponent request registers a c) names =
          (a', none) := by
  rw [readAll] at h
  split at h
  · exact .inl h
  · cases hread : reader.read name with
    | error e =>
      rw [hread] at h
      cases (Prod.mk.inj h).2
    | ok c =>
      rw [hread] at h
      dsimp only at h
      split at h
      · exact .inr ⟨c, rfl, h⟩
      · exact .inl h

/-- What is found on the way is registered, under names that were free. -/
theorem readAll_registers {request : ScanRequest} {reader : Reader} {a a' : Answer}
    {names : List String} (h : readAll request reader true a names = (a', none)) :
    (∀ name, a.registry.contains name = true → a'.registry.contains name = true) ∧
      (a' = a ∨ ∃ name ∈ names, isFree reader a.registry name = true ∧
        isFree reader a'.registry name = false) := by
  induction names generalizing a with
  | nil =>
    obtain rfl := (Prod.mk.inj h).1
    exact ⟨fun _ h => h, .inl rfl⟩
  | cons name names ih =>
    have hskip (h : readAll request reader true a names = (a', none)) :
        (∀ name, a.registry.contains name = true → a'.registry.contains name = true) ∧
          (a' = a ∨ ∃ n ∈ name :: names, isFree reader a.registry n = true ∧
            isFree reader a'.registry n = false) := by
      obtain ⟨hmono, heq | ⟨other, hother, hfree⟩⟩ := ih h
      · exact ⟨hmono, .inl heq⟩
      · exact ⟨hmono, .inr ⟨other, List.mem_cons_of_mem _ hother, hfree⟩⟩
    obtain h | ⟨c, hread, h⟩ := readAll_cons h
    · exact hskip h
    · rw [addComponent] at h
      simp only [Bool.not_true, Bool.false_eq_true, if_false] at h
      split at h
      · exact hskip h
      · rename_i hcontains
        obtain ⟨hmono, _⟩ := ih h
        have hkept : ∀ n, a.registry.contains n = true → a'.registry.contains n = true :=
          fun n hn => hmono n (OrderedMap.contains_insert_iff.2 (.inr hn))
        refine ⟨hkept, .inr ⟨name, List.mem_cons_self, ?_, ?_⟩⟩
        · rw [isFree, hread]
          simpa using hcontains
        · have hregistered := hmono _ (OrderedMap.contains_insert_iff.2 (.inl rfl))
          rw [isFree, hread]
          simp [hregistered]

/-- A scan that finds something leaves less to find. -/
theorem unregistered_scan {s : Scanner} (hs : s.Registers) {request : ScanRequest}
    {reader : Reader} {registry registry' : Registry} {found : List NamedDefinition}
    (h : s.scan request reader registry = (.ok found, registry')) :
    (found = [] ∧ registry' = registry) ∨
      s.unregistered reader registry' < s.unregistered reader registry := by
  obtain rfl | ⟨names, rfl⟩ := hs
  · obtain ⟨hfound, rfl⟩ := Prod.mk.inj h
    exact .inl ⟨(Except.ok.inj hfound).symm, rfl⟩
  · rw [scan] at h
    split at h
    · rename_i a ha
      obtain ⟨hfound, rfl⟩ := Prod.mk.inj h
      obtain rfl := Except.ok.inj hfound
      obtain ⟨hmono, rfl | ⟨name, hname, hbefore, hafter⟩⟩ := readAll_registers ha
      · exact .inl ⟨rfl, rfl⟩
      · exact .inr (unregistered_lt hmono hname hbefore hafter)
    · cases (Prod.mk.inj h).1

end Scanner

/-! ## The rank of a run -/

namespace Run

def unregistered (s : Run) (w : World) : Nat :=
  w.scanner.unregistered w.resolver.reader s.registry

/-- How many marks may still be set on the classes: each may be committed, claimed and put on
the stack. -/
def unset (s : Run) (U : Finset String) : Nat :=
  unmarked U s.classes.contains + unmarked U s.superclassOwners.contains +
    unmarked U (ImportStack.holds s.stack)

/-- Registering counts for more than all marks on `m` classes. -/
def rank (s : Run) (w : World) (U : Finset String) (m : Nat) : Nat :=
  s.unregistered w * (3 * m + 1) + s.unset U

variable {w : World} {U : Finset String} {m : Nat} {s t : Run}

theorem unset_le (hU : U.card ≤ m) : s.unset U ≤ 3 * m := by
  have hcommitted : unmarked U s.classes.contains ≤ U.card := unmarked_le_card
  have hclaimed : unmarked U s.superclassOwners.contains ≤ U.card := unmarked_le_card
  have hstacked : unmarked U (ImportStack.holds s.stack) ≤ U.card := unmarked_le_card
  rw [unset]
  omega

theorem rank_lt_of_unregistered (h : t.unregistered w < s.unregistered w) :
    t.unregistered w * (3 * m + 1) + 3 * m < s.rank w U m := by
  have hmul : (t.unregistered w + 1) * (3 * m + 1) ≤ s.unregistered w * (3 * m + 1) :=
    Nat.mul_le_mul_right _ h
  rw [Nat.add_mul] at hmul
  rw [rank]
  omega

theorem rank_lt_of_unset (hregistered : t.unregistered w ≤ s.unregistered w)
    (h : t.unset U < s.unset U) : t.rank w U m < s.rank w U m := by
  have hmul : t.unregistered w * (3 * m + 1) ≤ s.unregistered w * (3 * m + 1) :=
    Nat.mul_le_mul_right _ hregistered
  rw [rank, rank]
  omega

/-- A successful part of a run that enters nothing explicitly only adds, unless something has been
registered. -/
structure Advances (w : World) (s t : Run) : Prop where
  stack : t.stack = s.stack
  committed : ∀ name, s.Committed name → t.Committed name
  unregistered : t.unregistered w ≤ s.unregistered w
  claimed : t.unregistered w = s.unregistered w →
    ∀ name, s.superclassOwners.contains name = true → t.superclassOwners.contains name = true
  importers : t.unregistered w = s.unregistered w →
    ∀ name, ¬ t.Committed name → t.importers.latest? name = s.importers.latest? name

/-- The rank falls, or else nothing has changed that circles of imports depend on. -/
theorem Advances.rank_lt_or (hU : U.card ≤ m) (h : Advances w s t) :
    t.rank w U m < s.rank w U m ∨ (t.rank w U m = s.rank w U m ∧
      (∀ name ∈ U, t.Committed name → s.Committed name) ∧
      ∀ name, ¬ t.Committed name → t.importers.latest? name = s.importers.latest? name) := by
  obtain hlt | heq := Nat.lt_or_eq_of_le h.unregistered
  · left
    have := rank_lt_of_unregistered (U := U) (m := m) hlt
    have hunset : t.unset U ≤ 3 * m := unset_le hU
    rw [rank]
    omega
  · have hcommitted : unmarked U t.classes.contains ≤ unmarked U s.classes.contains :=
      unmarked_le fun name _ => h.committed name
    have hclaimed : unmarked U t.superclassOwners.contains ≤
        unmarked U s.superclassOwners.contains :=
      unmarked_le fun name _ => h.claimed heq name
    have hstacked : unmarked U (ImportStack.holds t.stack) =
        unmarked U (ImportStack.holds s.stack) := by
      rw [h.stack]
    by_cases hsame : unmarked U s.classes.contains ≤ unmarked U t.classes.contains
    · have hback : ∀ name ∈ U, t.Committed name → s.Committed name :=
        marked_of_unmarked_le (fun name _ => h.committed name) hsame
      by_cases hunset : t.unset U < s.unset U
      · exact .inl (rank_lt_of_unset h.unregistered hunset)
      · refine .inr ⟨?_, hback, h.importers heq⟩
        have hle : t.unset U ≤ s.unset U := by
          rw [unset, unset]
          omega
        rw [rank, rank, heq, Nat.le_antisymm hle (Nat.le_of_not_lt hunset)]
    · refine .inl (rank_lt_of_unset h.unregistered ?_)
      rw [unset, unset]
      omega

end Run

/-! ## All moves advance -/

theorem Run.Enrolls.unregistered {w : World} {s t : Run} {c : ConfigClass} (h : s.Enrolls c t) :
    t.unregistered w = s.unregistered w := by
  obtain ⟨_, rfl⟩ | ⟨_, _, rfl⟩ := h <;> rfl

/-- Nothing that has been registered becomes free again. -/
theorem Moves.unregistered_le {w : World} {K : Scope} (hscanner : w.scanner.Registers) {p : Part}
    {s t : Collecting} (h : Moves w K p s t) :
    t.run.unregistered w ≤ s.run.unregistered w := by
  induction h with
  | refl _ => exact Nat.le_refl _
  | trans _ _ ih ih' => exact Nat.le_trans ih' ih
  | aside h =>
    rw [Run.unregistered, h.registry]
    exact Nat.le_refl _
  | report _ _ _ => exact Nat.le_refl _
  | scan _ hscan _ _ ih =>
    refine Nat.le_trans ih ?_
    obtain ⟨_, rfl⟩ | hlt := Scanner.unregistered_scan hscanner hscan
    · exact Nat.le_refl _
    · exact Nat.le_of_lt hlt
  | register _ _ _ _ _ ih => exact ih
  | imported _ _ _ ih => exact ih
  | claim _ _ _ _ _ _ ih => exact ih
  | enqueue _ _ _ => exact Nat.le_refl _
  | stacked _ _ ih => exact ih
  | nested _ ih => exact ih
  | merge _ _ _ _ => exact Nat.le_refl _
  | visit _ _ _ _ hrun _ _ ih =>
    refine Nat.le_trans ih ?_
    exact Nat.le_of_eq hrun.unregistered
  | gather _ => exact Nat.le_refl _
  | collect _ _ _ _ => exact Nat.le_refl _
  | absorb _ _ _ _ ih => exact ih

/-- Whoever imported a class last, as long as it is not committed nothing else imports it. -/
theorem Moves.keepsLatest {w : World} {K : Scope} (hskips : ∀ v, K.Enters v → w.NeverSkips v.info)
    {p : Part} {s t : Collecting} (h : Moves w K p s t) {name : String}
    (hname : ¬ t.run.Committed name) :
    t.run.importers.latest? name = s.run.importers.latest? name := by
  induction h with
  | refl _ => rfl
  | trans _ htu ih ih' =>
    rw [ih' hname]
    exact ih fun hcommitted => hname (htu.continues.committed name hcommitted)
  | aside h => rw [h.importers]
  | report _ _ _ => rfl
  | scan _ _ _ _ ih => exact ih hname
  | register hv _ _ _ hcommitted ih =>
    rw [ih hname]
    refine Importers.latest?_register_of_ne _ _ fun heq => hname ?_
    rw [← heq]
    exact hcommitted (hskips _ hv)
  | imported _ _ _ ih => exact ih hname
  | claim _ _ _ _ _ _ ih => exact ih hname
  | enqueue _ _ _ => rfl
  | stacked _ _ ih => exact ih hname
  | nested _ ih => exact ih hname
  | merge _ _ _ _ => rfl
  | visit _ _ _ _ hrun _ _ ih =>
    have hinner := ih fun hcommitted => hname (Run.committed_commit.2 (.inr hcommitted))
    obtain ⟨_, rfl⟩ | ⟨_, _, rfl⟩ := hrun <;> exact hinner
  | gather _ => rfl
  | collect _ _ _ _ => rfl
  | absorb _ _ _ _ ih => exact ih fun hcommitted => hname (Run.committed_modify.2 hcommitted)

/-- No claim is released, unless something has been registered. -/
theorem Moves.keepsClaims {w : World} {K : Scope} (hscanner : w.scanner.Registers)
    (hselects : ¬ K.Selects w) {p : Part} {s t : Collecting} (h : Moves w K p s t)
    (hp : p ≠ .entries) (heq : t.run.unregistered w = s.run.unregistered w) {name : String}
    (hname : s.run.superclassOwners.contains name = true) :
    t.run.superclassOwners.contains name = true := by
  induction h with
  | refl _ => exact hname
  | trans hst htu ih ih' =>
    have hle := hst.unregistered_le hscanner
    have hle' := htu.unregistered_le hscanner
    exact ih' hp (by omega) (ih hp (by omega) hname)
  | aside h =>
    rw [h.superclassOwners]
    exact hname
  | report _ _ _ => exact hname
  | scan _ hscan hentries hnothing _ =>
    obtain ⟨rfl, rfl⟩ | hlt := Scanner.unregistered_scan hscanner hscan
    · rw [hnothing rfl]
      exact hname
    · exact absurd heq (Nat.ne_of_lt (Nat.lt_of_le_of_lt (hentries.unregistered_le hscanner) hlt))
  | register _ _ _ _ _ ih => exact ih hp heq hname
  | imported _ _ _ ih => exact ih hp heq hname
  | claim _ _ _ _ _ _ ih =>
    exact ih hp heq (OrderedMap.contains_insert_iff.2 (.inr hname))
  | enqueue _ _ _ => exact hname
  | stacked _ _ ih => exact ih (by simp) heq hname
  | nested _ ih => exact ih hp heq hname
  | merge _ _ _ _ => exact hname
  | visit _ _ _ hdue hrun _ _ ih =>
    obtain ⟨_, rfl⟩ | ⟨_, hexplicit, _⟩ := hrun
    · exact ih (by simp) heq hname
    · rw [hdue.isImported_iff.2 hp] at hexplicit
      cases hexplicit
  | gather _ => exact hname
  | collect _ _ _ _ => exact hname
  | absorb hselects' _ _ _ _ => exact absurd hselects' hselects

theorem Moves.advances {w : World} {K : Scope} (hscanner : w.scanner.Registers)
    (hselects : ¬ K.Selects w) (hskips : ∀ v, K.Enters v → w.NeverSkips v.info) {p : Part}
    {s t : Collecting} (h : Moves w K p s t) (hp : p ≠ .entries) :
    Run.Advances w s.run t.run where
  stack := h.continues.stack
  committed := h.continues.committed
  unregistered := h.unregistered_le hscanner
  claimed heq _ hname := h.keepsClaims hscanner hselects hp heq hname
  importers _ _ hname := h.keepsLatest hskips hname

end Wiring
