import Wiring.Proofs.Circles
import Wiring.Proofs.Progress

/-!
# Trails

While nothing is registered or marked, a run gets deeper only along imports: each class imports
the next and is its latest importer.  The classes behind the current one form its trail.  A trail
repeats no class, and when it comes back to one, the circle is noticed; so it is no longer than
there are classes.  Together with the rank this bounds how much deeper a run can get.
-/

namespace Wiring

namespace Run

/-- The classes in the chain are the latest importers of `name`, one of the other; they are being
processed and on the stack. -/
structure Trail (s : Run) (U : Finset String) (name : String) (chain : List String) : Prop where
  linked : s.importers.Linked name chain
  nodup : chain.Nodup
  known : ∀ y ∈ chain, y ∈ U
  pending : ∀ y ∈ chain, ¬ s.Committed y
  stacked : ∀ y ∈ chain, ImportStack.holds s.stack y = true

variable {w : World} {U : Finset String} {m b : Nat} {s t : Run} {name : String}
  {chain : List String}

theorem trail_nil : s.Trail U name [] where
  linked := trivial
  nodup := List.nodup_nil
  known _ h := by cases h
  pending _ h := by cases h
  stacked _ h := by cases h

theorem Trail.length_le (h : s.Trail U name chain) : chain.length ≤ U.card := by
  rw [← List.toFinset_card_of_nodup h.nodup]
  refine Finset.card_le_card fun y hy => ?_
  exact h.known y (List.mem_toFinset.1 hy)

/-- A trail that comes back is noticed. -/
theorem Trail.isCircular (h : s.Trail U name chain) (hmem : name ∈ chain) :
    ImportStack.isCircular s.stack s.importers name = true := by
  rw [ImportStack.isCircular, h.stacked name hmem,
    Importers.isChained_of_linked h.linked hmem]
  rfl

/-- A trail stays while nothing on it is committed or imported again. -/
theorem Trail.congr (h : s.Trail U name chain) (hstack : t.stack = s.stack)
    (hcommitted : ∀ y ∈ U, t.Committed y → s.Committed y)
    (himporters : ∀ y, ¬ t.Committed y → t.importers.latest? y = s.importers.latest? y)
    (hname : ¬ t.Committed name) : t.Trail U name chain := by
  have hpending : ∀ y ∈ chain, ¬ t.Committed y := fun y hy hy' =>
    h.pending y hy (hcommitted y (h.known y hy) hy')
  refine ⟨?_, h.nodup, h.known, hpending, ?_⟩
  · exact h.linked.congr (himporters name hname) fun y hy => himporters y (hpending y hy)
  · rw [hstack]
    exact h.stacked

theorem Trail.push (h : s.Trail U name chain) (c : ClassInfo) :
    Trail { s with stack := c :: s.stack } U name chain where
  linked := h.linked
  nodup := h.nodup
  known := h.known
  pending := h.pending
  stacked y hy := ImportStack.holds_cons.2 (.inr (h.stacked y hy))

/-- What a class imports has a trail that is one longer, or comes back. -/
theorem Trail.register (h : s.Trail U name chain) (hU : name ∈ U) (hpending : ¬ s.Committed name)
    (hstacked : ImportStack.holds s.stack name = true) (hfresh : name ∉ chain)
    {importing : ClassInfo} (himporting : importing.name = name) (next : String) :
    ∃ chain', Trail { s with importers := s.importers.register importing next } U next chain' ∧
      (next ∈ chain' ∨ chain'.length = chain.length + 1) := by
  have hlatest : ∃ c, (s.importers.register importing next).latest? next = some c ∧
      c.name = name := ⟨importing, s.importers.latest?_register_self importing next, himporting⟩
  have hother (y : String) (hy : y ≠ next) :
      (s.importers.register importing next).latest? y = s.importers.latest? y :=
    Importers.latest?_register_of_ne _ _ hy.symm
  have hall : ∀ y ∈ name :: chain, y ∈ U ∧ ¬ s.Committed y ∧
      ImportStack.holds s.stack y = true := by
    intro y hy
    obtain rfl | hy := List.mem_cons.1 hy
    · exact ⟨hU, hpending, hstacked⟩
    · exact ⟨h.known y hy, h.pending y hy, h.stacked y hy⟩
  have hnodup : (name :: chain).Nodup := List.nodup_cons.2 ⟨hfresh, h.nodup⟩
  by_cases hnext : next ∈ name :: chain
  · -- The trail of the importer is followed up to the class itself.
    obtain ⟨before, after, hsplit⟩ := List.append_of_mem hnext
    rw [hsplit, List.append_cons] at hnodup hall
    have hshort : (before ++ [next]).Nodup := (List.nodup_append.1 hnodup).1
    have hbefore : ∀ y ∈ before, y ≠ next := fun y hy =>
      (List.nodup_append.1 hshort).2.2 y hy next List.mem_cons_self
    refine ⟨before ++ [next], ⟨?_, hshort, ?_, ?_, ?_⟩, .inl (by simp)⟩
    · cases before with
      | nil =>
        obtain ⟨rfl, _⟩ := List.cons.inj hsplit
        exact ⟨hlatest, trivial⟩
      | cons first before =>
        obtain ⟨rfl, hchain⟩ := List.cons.inj hsplit
        have hchain : chain = before ++ next :: after := hchain
        have hlinked := h.linked
        rw [hchain, List.append_cons] at hlinked
        refine ⟨hlatest, hlinked.of_append.congr_snoc (hother _ ?_) fun y hy => hother y ?_⟩
        · exact hbefore _ List.mem_cons_self
        · exact hbefore y (List.mem_cons_of_mem _ hy)
    · exact fun y hy => (hall y (List.mem_append_left _ hy)).1
    · exact fun y hy => (hall y (List.mem_append_left _ hy)).2.1
    · exact fun y hy => (hall y (List.mem_append_left _ hy)).2.2
  · rw [List.mem_cons, not_or] at hnext
    refine ⟨name :: chain, ⟨⟨hlatest, ?_⟩, hnodup, ?_, ?_, ?_⟩, .inr rfl⟩
    · exact h.linked.congr (hother _ (Ne.symm hnext.1)) fun y hy =>
        hother y fun heq => hnext.2 (heq ▸ hy)
    · exact fun y hy => (hall y hy).1
    · exact fun y hy => (hall y hy).2.1
    · exact fun y hy => (hall y hy).2.2

/-! ## What a run can afford -/

/-- How much deeper a run may get, with a trail to which `k` more classes can be added. -/
def cost (s : Run) (w : World) (U : Finset String) (m k : Nat) : Nat :=
  s.rank w U m * (m + 3) + k + 1

/-- The budget covers what the run may get deeper, from a class with a trail as described by `P` or
with any trail at all. -/
def Affords (s : Run) (w : World) (U : Finset String) (m : Nat) (name : String)
    (P : List String → Nat → Prop) (b : Nat) : Prop :=
  (∃ chain k, ¬ s.Committed name ∧ s.Trail U name chain ∧ P chain k ∧ s.cost w U m k ≤ b) ∨
    s.cost w U m (m + 1) + 1 ≤ b

variable {P : List String → Nat → Prop}

theorem Affords.rank_lt (h : s.Affords w U m name P b) : s.rank w U m * (m + 3) < b := by
  obtain ⟨chain, k, _, _, _, hcost⟩ | hcost := h
  · rw [cost] at hcost
    omega
  · rw [cost] at hcost
    omega

/-- When the rank falls, there is room for a whole trail. -/
theorem cost_lt_of_rank_lt (hrank : t.rank w U m < s.rank w U m)
    (hb : s.rank w U m * (m + 3) < b) : t.cost w U m (m + 1) + 2 ≤ b := by
  have hmul : (t.rank w U m + 1) * (m + 3) ≤ s.rank w U m * (m + 3) :=
    Nat.mul_le_mul_right _ hrank
  rw [Nat.add_mul] at hmul
  rw [cost]
  omega

/-- What has been done so far does not make the rest cost more. -/
theorem Affords.advance (h : s.Affords w U m name P b) (hU : U.card ≤ m) (hname : name ∈ U)
    (hst : Advances w s t) : t.Affords w U m name P b := by
  obtain hlt | ⟨heq, hcommitted, himporters⟩ := hst.rank_lt_or hU
  · have := cost_lt_of_rank_lt hlt h.rank_lt
    exact .inr (by omega)
  · obtain ⟨chain, k, hpending, htrail, hP, hcost⟩ | hcost := h
    · have hpending' : ¬ t.Committed name := fun h => hpending (hcommitted name hname h)
      refine .inl ⟨chain, k, hpending', ?_, hP, ?_⟩
      · exact htrail.congr hst.stack hcommitted himporters hpending'
      · rw [cost, heq]
        exact hcost
    · rw [cost] at hcost
      refine .inr ?_
      rw [cost, heq]
      exact hcost

theorem unset_push_le (c : ClassInfo) : unset { s with stack := c :: s.stack } U ≤ s.unset U := by
  have hstacked : unmarked U (ImportStack.holds (c :: s.stack)) ≤
      unmarked U (ImportStack.holds s.stack) :=
    unmarked_le fun name _ h => ImportStack.holds_cons.2 (.inr h)
  show unmarked U s.classes.contains + unmarked U s.superclassOwners.contains +
    unmarked U (ImportStack.holds (c :: s.stack)) ≤ _
  rw [unset]
  omega

theorem rank_push_le (c : ClassInfo) :
    rank { s with stack := c :: s.stack } w U m ≤ s.rank w U m :=
  Nat.add_le_add_left (unset_push_le c) _

/-- Putting a class on the stack lowers the rank, unless it is there. -/
theorem rank_push_lt {c : ClassInfo} (hU : c.name ∈ U)
    (hstack : ImportStack.holds s.stack c.name = false) :
    rank { s with stack := c :: s.stack } w U m < s.rank w U m := by
  refine rank_lt_of_unset (Nat.le_refl _) ?_
  have hstacked : unmarked U (ImportStack.holds (c :: s.stack)) <
      unmarked U (ImportStack.holds s.stack) :=
    unmarked_lt (fun name _ h => ImportStack.holds_cons.2 (.inr h)) hU hstack
      (ImportStack.holds_cons.2 (.inl rfl))
  show unmarked U s.classes.contains + unmarked U s.superclassOwners.contains +
    unmarked U (ImportStack.holds (c :: s.stack)) < _
  rw [unset]
  omega

/-- Claiming a superclass lowers the rank. -/
theorem rank_claim_lt {source owner : String} (hU : source ∈ U)
    (hfree : s.superclassOwners.contains source = false) :
    rank { s with superclassOwners := s.superclassOwners.insert source owner } w U m <
      s.rank w U m := by
  refine rank_lt_of_unset (Nat.le_refl _) ?_
  have hclaimed : unmarked U (s.superclassOwners.insert source owner).contains <
      unmarked U s.superclassOwners.contains :=
    unmarked_lt (fun name _ h => OrderedMap.contains_insert_iff.2 (.inr h)) hU hfree
      (OrderedMap.contains_insert_iff.2 (.inl rfl))
  show unmarked U s.classes.contains +
    unmarked U (s.superclassOwners.insert source owner).contains +
      unmarked U (ImportStack.holds s.stack) < _
  rw [unset]
  omega

end Run
end Wiring
