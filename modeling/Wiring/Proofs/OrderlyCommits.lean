import Mathlib.Data.List.Nodup
import Wiring.Proofs.CircularImports

/-!
# Orderly commits

Where imports go round in no circle, nothing that is being processed is entered again.  So a class
comes up twice only after it has been committed; then it keeps its place and gains an importer.  The
invariant here says so of a run in the middle of some classes, and what a single class does keeps
it: being imported for the first time, being committed, and being imported once more.
-/

namespace Wiring

open Relation

/-! ## Importers in order -/

/-- Those who have imported the class, in the order in which they came to it.  The history has the
latest first. -/
def importersOf (name : String) : List Milestone → List String
  | [] => []
  | .imported target importer :: h =>
    if target = name then importersOf name h ++ [importer] else importersOf name h
  | .opened _ _ :: h => importersOf name h
  | .closed :: h => importersOf name h

section

variable {name importer : String} {h added : List Milestone}

theorem importersOf_imported_self :
    importersOf name (.imported name importer :: h) = importersOf name h ++ [importer] := by
  rw [importersOf, if_pos rfl]

theorem importersOf_cons {m : Milestone} (hm : ∀ importer, m ≠ .imported name importer) :
    importersOf name (m :: h) = importersOf name h := by
  cases m with
  | imported target importer =>
    rw [importersOf, if_neg]
    rintro rfl
    exact hm importer rfl
  | «opened» _ _ => rfl
  | closed => rfl

theorem importersOf_append (hadded : ∀ importer, .imported name importer ∉ added) :
    importersOf name (added ++ h) = importersOf name h := by
  induction added with
  | nil => rfl
  | cons m added ih =>
    rw [List.cons_append, importersOf_cons, ih]
    · exact fun importer hmem => hadded importer (List.mem_cons_of_mem m hmem)
    · rintro importer rfl
      exact hadded importer List.mem_cons_self

theorem mem_importersOf : importer ∈ importersOf name h ↔ .imported name importer ∈ h := by
  induction h with
  | nil => simp [importersOf]
  | cons m h ih =>
    rw [List.mem_cons, ← ih]
    by_cases hm : ∃ other, m = .imported name other
    · obtain ⟨other, rfl⟩ := hm
      rw [importersOf_imported_self, List.mem_append, List.mem_singleton, or_comm]
      simp
    · rw [importersOf_cons fun other heq => hm ⟨other, heq⟩]
      exact (or_iff_right fun heq => hm ⟨importer, heq.symm⟩).symm

end

/-- A new importer goes to the end. -/
theorem ConfigClass.keys_mergeImporters {present record : ConfigClass}
    (hfresh : record.name ∉ present.importedBy.keys) (v : View) :
    (present.mergeImporters (.imported v record)).importedBy.keys =
      present.importedBy.keys ++ [record.name] := by
  have hnew : present.importedBy.contains record.name = false := by
    rw [Bool.eq_false_iff, ne_eq, OrderedMap.contains_iff]
    exact hfresh
  rw [mergeImporters, imported]
  simp [OrderedMap.insertIfNew, hnew, OrderedMap.keys]

/-! ## Worlds in which imports do not go round -/

/-- Classes lead to others by plain imports only, which lead back to none, and no class of the set
leads to another one of it. -/
structure World.IsLayered (w : World) (S : Set String) : Prop extends w.ImportsOnly where
  acyclic : ∀ name, ¬ TransGen w.resolver.ImportsTo name name
  apart : ∀ name ∈ S, ∀ other ∈ S, name ≠ other → ¬ TransGen w.resolver.ImportsTo name other

/-- A class of the set leads to the class. -/
def Resolver.Under (r : Resolver) (S : Set String) (name : String) : Prop :=
  ∃ top ∈ S, ReflTransGen r.ImportsTo top name

theorem Resolver.Under.step {r : Resolver} {S : Set String} {name target : String}
    (h : r.Under S name) (hstep : r.ImportsTo name target) : r.Under S target := by
  obtain ⟨top, htop, hpath⟩ := h
  exact ⟨top, htop, hpath.tail hstep⟩

namespace World.IsLayered

variable {w : World} {S : Set String} {name target other : String}

/-- What a class under the set imports is none of the set. -/
theorem not_mem_of_importsTo (hw : w.IsLayered S) (h : w.resolver.Under S name)
    (hstep : w.resolver.ImportsTo name target) : target ∉ S := by
  intro hmem
  obtain ⟨top, htop, hpath⟩ := h
  have hdown : TransGen w.resolver.ImportsTo top target := TransGen.tail' hpath hstep
  by_cases hsame : top = target
  · subst hsame
    exact hw.acyclic _ hdown
  · exact hw.apart top htop target hmem hsame hdown

theorem not_back (hw : w.IsLayered S) (hstep : w.resolver.ImportsTo name target) :
    ¬ ReflTransGen w.resolver.ImportsTo target name := fun hback =>
  hw.acyclic name (TransGen.head' hstep hback)

end World.IsLayered

namespace Run

/-! ## The invariant -/

/-- The class of the first name has imported that of the second, which has been committed. -/
def HasBrought (s : Run) (importer target : String) : Prop :=
  s.Committed target ∧ .imported target importer ∈ s.history

/-- What has been committed and imported so far, while the listed classes are being processed.
Only classes of the set are committed as explicit ones. -/
structure Orderly (s : Run) (r : Resolver) (S : Set String) (open_ : List String) : Prop where
  keyed : s.Keyed
  nodup : s.classes.keys.Nodup
  /-- No class imports one that is committed later. -/
  ordered : s.classes.keys.Pairwise fun earlier later => ¬ r.ImportsTo earlier later
  complete : ∀ name, s.Committed name → ∀ target, r.ImportsTo name target →
    s.HasBrought name target
  imports : ∀ target importer, .imported target importer ∈ s.history →
    r.ImportsTo importer target ∧ (s.Committed importer ∨ importer ∈ open_) ∧
      (s.Committed target ∨ target ∈ open_)
  named : ∀ name c, s.classes.get? name = some c →
    c.importedBy.keys = importersOf name s.history
  once : ∀ name, (importersOf name s.history).Nodup
  explicit : ∀ name c, s.classes.get? name = some c → c.isImported = false → name ∈ S
  registers : s.Registers r Set.univ

/-- What happens between the runs: imports that `B` holds of, and commits that `C` holds of. -/
structure Gains (s t : Run) (B : String → String → Prop) (C : String → Prop) : Prop where
  history : ∃ added, t.history = added ++ s.history ∧
    ∀ target importer, .imported target importer ∈ added → B target importer
  kept : ∀ name, s.Committed name → t.Committed name
  gained : ∀ name, t.Committed name → s.Committed name ∨ C name

section

variable {s t u : Run} {B B' : String → String → Prop} {C C' : String → Prop}

theorem Gains.of_eq (added : List Milestone) (classes : t.classes = s.classes)
    (history : t.history = added ++ s.history)
    (hadded : ∀ target importer, .imported target importer ∉ added) : s.Gains t B C where
  history := ⟨added, history, fun target importer hmem => absurd hmem (hadded target importer)⟩
  kept _ h := by rw [Committed, classes]; exact h
  gained _ h := by rw [Committed, classes] at h; exact .inl h

theorem Gains.of_same (classes : t.classes = s.classes) (history : t.history = s.history) :
    s.Gains t B C :=
  .of_eq [] classes history fun _ _ => List.not_mem_nil

theorem Gains.trans (hst : s.Gains t B C) (htu : t.Gains u B C) : s.Gains u B C where
  history := by
    obtain ⟨first, hfirst, hB⟩ := hst.history
    obtain ⟨later, hlater, hB'⟩ := htu.history
    refine ⟨later ++ first, by rw [hlater, hfirst, List.append_assoc], fun target importer h => ?_⟩
    exact (List.mem_append.1 h).elim (hB' target importer) (hB target importer)
  kept name h := htu.kept name (hst.kept name h)
  gained name h := (htu.gained name h).elim (hst.gained name) .inr

theorem Gains.mono (h : s.Gains t B C)
    (hB : ∀ target importer, B target importer → B' target importer)
    (hC : ∀ name, C name → C' name) : s.Gains t B' C' where
  history := by
    obtain ⟨added, hadded, hall⟩ := h.history
    exact ⟨added, hadded, fun target importer hmem => hB _ _ (hall target importer hmem)⟩
  kept := h.kept
  gained name hname := (h.gained name hname).imp_right (hC name)

theorem Gains.commit (c : ConfigClass) (hc : C c.name) : s.Gains (s.commit c) B C where
  history := ⟨[], rfl, fun _ _ hmem => absurd hmem List.not_mem_nil⟩
  kept _ h := committed_commit.2 (.inr h)
  gained name h := by
    rcases committed_commit.1 h with rfl | h
    · exact .inr hc
    · exact .inl h

theorem Gains.mem_history (h : s.Gains t B C) {m : Milestone} (hm : m ∈ s.history) :
    m ∈ t.history := by
  obtain ⟨added, hadded, -⟩ := h.history
  rw [hadded]
  exact List.mem_append_right _ hm

theorem Gains.hasBrought (h : s.Gains t B C) {importer target : String}
    (hs : s.HasBrought importer target) : t.HasBrought importer target :=
  hs.imp (h.kept target) h.mem_history

theorem Gains.imported_or (h : s.Gains t B C) {target importer : String}
    (hm : .imported target importer ∈ t.history) :
    .imported target importer ∈ s.history ∨ B target importer := by
  obtain ⟨added, hadded, hall⟩ := h.history
  rw [hadded] at hm
  exact (List.mem_append.1 hm).elim (fun hnew => .inr (hall _ _ hnew)) .inl

end

/-- The run is in the middle of the class, which is being processed on behalf of those above. -/
structure IsAt (s : Run) (w : World) (S : Set String) (name : String) (above : List String) :
    Prop where
  orderly : s.Orderly w.resolver S (name :: above)
  absent : ¬ s.Committed name
  leads : ∀ p ∈ above, TransGen w.resolver.ImportsTo p name
  under : w.resolver.Under S name

section

variable {r : Resolver} {w : World} {S : Set String} {s t : Run} {name target importer : String}
  {open_ above : List String} {c : ConfigClass}

/-- Only what is committed, registered and imported counts. -/
theorem Orderly.of_eq (h : s.Orderly r S open_) (classes : t.classes = s.classes)
    (history : ∀ name, importersOf name t.history = importersOf name s.history)
    (importers : t.importers = s.importers) : t.Orderly r S open_ := by
  have hmem (target importer : String) :
      Milestone.imported target importer ∈ t.history ↔ .imported target importer ∈ s.history := by
    rw [← mem_importersOf, history, mem_importersOf]
  obtain ⟨keyed, nodup, ordered, complete, imports, named, once, explicit, registers⟩ := h
  unfold Keyed Registers HasBrought Committed at *
  rw [← classes] at keyed nodup ordered complete imports named explicit
  simp only [← hmem, ← history] at complete imports named once
  rw [← importers] at registers
  exact ⟨keyed, nodup, ordered, complete, imports, named, once, explicit, registers⟩

theorem IsAt.of_eq (h : s.IsAt w S name above) (classes : t.classes = s.classes)
    (history : ∀ name, importersOf name t.history = importersOf name s.history)
    (importers : t.importers = s.importers) : t.IsAt w S name above where
  orderly := h.orderly.of_eq classes history importers
  absent := by
    rw [Committed, classes]
    exact h.absent
  leads := h.leads
  under := h.under

theorem IsAt.sameCourse (h : s.IsAt w S name above) (hst : s.SameCourse t) :
    t.IsAt w S name above :=
  h.of_eq hst.classes (fun _ => by rw [hst.history]) hst.importers

/-! ## What keeps the invariant -/

theorem importersOf_importing_self (s : Run) (name importer : String) :
    importersOf name (s.importing name importer).history =
      importersOf name s.history ++ [importer] :=
  importersOf_imported_self

theorem importersOf_importing_of_ne {other : String} (hne : name ≠ other) :
    importersOf other (s.importing name importer).history = importersOf other s.history :=
  importersOf_cons fun _ heq => hne (Milestone.imported.inj heq).1

/-- An importer that is new to the class is listed once. -/
theorem nodup_importersOf_importing (honce : ∀ other, (importersOf other s.history).Nodup)
    (hfirst : .imported name importer ∉ s.history) (other : String) :
    (importersOf other (s.importing name importer).history).Nodup := by
  by_cases hsame : name = other
  · subst hsame
    rw [importersOf_importing_self, ← List.concat_eq_append, List.nodup_concat]
    exact ⟨fun hmem => hfirst (mem_importersOf.1 hmem), honce name⟩
  · rw [importersOf_importing_of_ne hsame]
    exact honce other

/-- Nothing that is being processed is imported. -/
theorem IsAt.not_mem_open (hw : w.IsLayered S) (h : s.IsAt w S importer above)
    (hstep : w.resolver.ImportsTo importer name) : name ∉ importer :: above := by
  intro hmem
  obtain rfl | hmem := List.mem_cons.1 hmem
  · exact hw.acyclic _ (.single hstep)
  · exact hw.acyclic _ ((h.leads _ hmem).tail hstep)

/-- What has not been committed has imported nothing and has not been imported, unless it is being
processed. -/
theorem Orderly.not_imported (h : s.Orderly r S open_) (habsent : ¬ s.Committed name)
    (hclosed : name ∉ open_) (other : String) :
    .imported name other ∉ s.history ∧ .imported other name ∉ s.history := by
  constructor
  · intro hmem
    exact (h.imports _ _ hmem).2.2.elim habsent hclosed
  · intro hmem
    exact (h.imports _ _ hmem).2.1.elim habsent hclosed

theorem Orderly.importersOf_eq_nil (h : s.Orderly r S open_) (habsent : ¬ s.Committed name)
    (hclosed : name ∉ open_) : importersOf name s.history = [] :=
  List.eq_nil_iff_forall_not_mem.2 fun other hmem =>
    (h.not_imported habsent hclosed other).1 (mem_importersOf.1 hmem)

/-- More classes may be being processed. -/
theorem Orderly.mono {more : List String} (h : s.Orderly r S open_) (hmore : open_ ⊆ more) :
    s.Orderly r S more :=
  { h with
    imports := fun target importer hmem => by
      obtain ⟨hedge, himporter, htarget⟩ := h.imports target importer hmem
      exact ⟨hedge, himporter.imp_right (hmore ·), htarget.imp_right (hmore ·)⟩ }

/-- An import is registered. -/
theorem IsAt.register (h : s.IsAt w S name above) {importing : ClassInfo}
    (hstep : w.resolver.ImportsTo importing.name target) :
    IsAt { s with importers := s.importers.register importing target } w S name above where
  orderly := { h.orderly with
    registers := fun other c hc => by
      rcases Importers.mem_of_register hc with hc | ⟨rfl, rfl⟩
      · exact h.orderly.registers other c hc
      · exact ⟨trivial, hstep⟩ }
  absent := h.absent
  leads := h.leads
  under := h.under

/-- A class that comes up first is in the middle of being processed from then on. -/
theorem IsAt.importing (hw : w.IsLayered S) (h : s.IsAt w S importer above)
    (hstep : w.resolver.ImportsTo importer name) (hnew : ¬ s.Committed name) :
    (s.importing name importer).IsAt w S name (importer :: above) where
  orderly := by
    have hfirst := (h.orderly.not_imported hnew (h.not_mem_open hw hstep) importer).1
    obtain ⟨keyed, nodup, ordered, complete, imports, named, once, explicit, registers⟩ := h.orderly
    refine ⟨keyed, nodup, ordered, ?_, ?_, ?_, nodup_importersOf_importing once hfirst, explicit,
      registers⟩
    · intro other hother target htarget
      obtain ⟨hcommitted, hmem⟩ := complete other hother target htarget
      exact ⟨hcommitted, List.mem_cons_of_mem _ hmem⟩
    · intro target other hmem
      obtain heq | hmem := List.mem_cons.1 hmem
      · obtain ⟨rfl, rfl⟩ := Milestone.imported.inj heq
        exact ⟨hstep, .inr (by simp), .inr (by simp)⟩
      · obtain ⟨hedge, himporter, htarget⟩ := imports target other hmem
        exact ⟨hedge, himporter.imp_right (List.mem_cons_of_mem _),
          htarget.imp_right (List.mem_cons_of_mem _)⟩
    · intro other c hc
      have hne : name ≠ other := by
        rintro rfl
        exact hnew (committed_of_get? hc)
      rw [importersOf_importing_of_ne hne]
      exact named other c hc
  absent := hnew
  leads p hp := by
    obtain rfl | hp := List.mem_cons.1 hp
    · exact .single hstep
    · exact (h.leads p hp).tail hstep
  under := h.under.step hstep

theorem get?_commit {d : ConfigClass} (h : (s.commit c).classes.get? name = some d) :
    (c.name = name ∧ c = d) ∨ c.name ≠ name ∧ s.classes.get? name = some d := by
  by_cases hsame : c.name = name
  · rw [Run.commit, hsame, OrderedMap.get?_insert_self] at h
    exact .inl ⟨hsame, Option.some.inj h⟩
  · rw [Run.commit, OrderedMap.get?_insert_of_ne _ hsame] at h
    exact .inr ⟨hsame, h⟩

/-- A class that has been processed is committed after all that it imports. -/
theorem IsAt.commit (h : s.IsAt w S name above) (hname : c.name = name)
    (himports : ∀ target, w.resolver.ImportsTo name target → s.HasBrought name target)
    (hnamed : c.importedBy.keys = importersOf name s.history)
    (hexplicit : c.isImported = false → name ∈ S) : (s.commit c).Orderly w.resolver S above := by
  subst hname
  have hkeys : (s.commit c).classes.keys = s.classes.keys ++ [c.name] := by
    rw [Run.commit, OrderedMap.keys_insert]
    exact if_neg fun hmem => h.absent (OrderedMap.contains_iff.2 hmem)
  have hkept (other : String) (hother : s.Committed other ∨ other ∈ c.name :: above) :
      (s.commit c).Committed other ∨ other ∈ above := by
    rw [committed_commit]
    rcases hother with hother | hother
    · exact .inl (.inr hother)
    · exact (List.mem_cons.1 hother).imp_left .inl
  obtain ⟨keyed, nodup, ordered, complete, imports, named, once, explicit, registers⟩ := h.orderly
  refine ⟨keyed.commit c, OrderedMap.nodup_keys_insert nodup _ _, ?_, ?_, ?_, ?_, once, ?_,
    registers⟩
  · rw [hkeys, List.pairwise_append]
    refine ⟨ordered, List.pairwise_singleton _ _, fun earlier hearlier later hlater hstep => ?_⟩
    rw [List.mem_singleton.1 hlater] at hstep
    exact h.absent (complete earlier (OrderedMap.contains_iff.2 hearlier) _ hstep).1
  · intro other hother target htarget
    have hall : s.HasBrought other target := by
      rcases committed_commit.1 hother with rfl | hother
      · exact himports target htarget
      · exact complete other hother target htarget
    exact ⟨committed_commit.2 (.inr hall.1), hall.2⟩
  · intro target importer hmem
    obtain ⟨hedge, himporter, htarget⟩ := imports target importer hmem
    exact ⟨hedge, hkept _ himporter, hkept _ htarget⟩
  · intro other d hd
    obtain ⟨rfl, rfl⟩ | ⟨_, hd⟩ := get?_commit hd
    · exact hnamed
    · exact named other d hd
  · intro other d hd
    obtain ⟨rfl, rfl⟩ | ⟨_, hd⟩ := get?_commit hd
    · exact hexplicit
    · exact explicit other d hd

/-- A class that has been committed gains an importer and keeps its place. -/
theorem IsAt.merge {record present : ConfigClass} {v : View}
    (h : s.IsAt w S record.name above) (hstep : w.resolver.ImportsTo record.name v.name)
    (hfirst : .imported v.name record.name ∉ s.history)
    (hpresent : s.classes.get? v.name = some present) (himported : present.isImported = true) :
    ((s.importing v.name record.name).commit
      (present.mergeImporters (.imported v record))).IsAt w S record.name above := by
  have hsame : present.name = v.name := h.orderly.keyed.name_eq hpresent
  have hname : (present.mergeImporters (.imported v record)).name = v.name := hsame
  have hcommitted (other : String) : ((s.importing v.name record.name).commit
      (present.mergeImporters (.imported v record))).Committed other ↔ s.Committed other := by
    rw [committed_commit, hname]
    refine or_iff_right_of_imp fun hother => ?_
    rw [hother]
    exact committed_of_get? hpresent
  have hkeys : ((s.importing v.name record.name).commit
      (present.mergeImporters (.imported v record))).classes.keys = s.classes.keys := by
    rw [Run.commit, OrderedMap.keys_insert, hname]
    exact if_pos (OrderedMap.contains_iff.1 (committed_of_get? hpresent))
  refine ⟨?_, fun hother => h.absent ((hcommitted _).1 hother), h.leads, h.under⟩
  obtain ⟨keyed, nodup, ordered, complete, imports, named, once, explicit, registers⟩ := h.orderly
  refine ⟨Keyed.commit keyed _, hkeys ▸ nodup, hkeys ▸ ordered, ?_, ?_, ?_,
    nodup_importersOf_importing once hfirst, ?_, registers⟩
  · intro other hother target htarget
    obtain ⟨hcommitted', hmem⟩ := complete other ((hcommitted _).1 hother) target htarget
    exact ⟨(hcommitted _).2 hcommitted', List.mem_cons_of_mem _ hmem⟩
  · intro target other hmem
    rw [hcommitted, hcommitted]
    obtain heq | hmem := List.mem_cons.1 hmem
    · obtain ⟨rfl, rfl⟩ := Milestone.imported.inj heq
      exact ⟨hstep, .inr List.mem_cons_self, .inl (committed_of_get? hpresent)⟩
    · exact imports target other hmem
  · intro other d hd
    obtain ⟨rfl, rfl⟩ | ⟨hother, hd⟩ := get?_commit hd
    · have hfresh : record.name ∉ present.importedBy.keys := by
        rw [named _ _ hpresent]
        exact fun hmem => hfirst (mem_importersOf.1 hmem)
      rw [ConfigClass.keys_mergeImporters hfresh, named _ _ hpresent, hname]
      exact (importersOf_importing_self s v.name record.name).symm
    · rw [hname] at hother
      exact (named other d hd).trans (importersOf_importing_of_ne hother).symm
  · intro other d hd hfree
    obtain ⟨_, rfl⟩ | ⟨_, hd⟩ := get?_commit hd
    · rw [ConfigClass.isImported_mergeImporters himported] at hfree
      cases hfree
    · exact explicit other d hd hfree

end

end Run

end Wiring
