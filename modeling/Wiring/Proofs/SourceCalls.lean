import Wiring.Proofs.KeptValues

/-!
# Calls on property sources

Sources are found, moved and taken out by name, which is to say that the first of a name stands for
all of them.  So the names should stay distinct, and a call that fails should leave the sources as
they are.  Both hold of every call but one kind.  Replacing a source by one of another name does not
look whether that name is taken.  Placing a source next to one that is not there takes out the
source that it would have moved.
-/

namespace Wiring

/-- A call that changes ordered property sources. -/
inductive SourceCall where
  | addFirst (s : PropertySource)
  | addLast (s : PropertySource)
  | addBefore (anchor : String) (s : PropertySource)
  | addAfter (anchor : String) (s : PropertySource)
  | replace (name : String) (s : PropertySource)
  | remove (name : String)

namespace PropertySources

/-- The sources after a call, also if it fails, and how it ends. -/
def perform (ps : PropertySources) : SourceCall → PropertySources × Except SourcesError Unit
  | .addFirst s => (ps.addFirst s, .ok ())
  | .addLast s => (ps.addLast s, .ok ())
  | .addBefore anchor s => ps.addBefore anchor s
  | .addAfter anchor s => ps.addAfter anchor s
  | .replace name s => ps.replace name s
  | .remove name => (ps.erase name, .ok ())

/-- The sources after the calls, whichever of them fail. -/
def performAll (ps : PropertySources) (calls : List SourceCall) : PropertySources :=
  calls.foldl (fun ps c => (ps.perform c).1) ps

end PropertySources

namespace SourceCall

/-- The call replaces a source that is there by one whose name another source has. -/
def Clashes (ps : PropertySources) : SourceCall → Prop
  | .replace name s => name ∈ ps.names ∧ s.name ∈ ps.names ∧ s.name ≠ name
  | _ => False

/-- The call places a source next to another one that is not there, while there is one of that name,
its own. -/
def Loses (ps : PropertySources) (name : String) : SourceCall → Prop
  | .addBefore anchor s | .addAfter anchor s =>
    s.name = name ∧ name ∈ ps.names ∧ anchor ≠ name ∧ anchor ∉ ps.names
  | _ => False

end SourceCall

namespace PropertySources

variable {ps : PropertySources} {anchor name : String} {s : PropertySource} {e : SourcesError}
  {c : SourceCall} {around : PropertySource → List PropertySource}

/-! ## The names after a call -/

theorem names_erase : (ps.erase name).names = ps.names.erase name := map_name_eraseP

theorem names_addFirst : (ps.addFirst s).names = s.name :: ps.names.erase s.name :=
  congrArg (s.name :: ·) names_erase

theorem names_addLast : (ps.addLast s).names = ps.names.erase s.name ++ [s.name] := by
  rw [← names_erase]
  exact List.map_append

/-- A splice puts something in place of the first source of a name. -/
theorem exists_splice_eq (new : PropertySource → List PropertySource) (h : name ∈ ps.names) :
    ∃ before present after, ps.sources = before ++ present :: after ∧ present.name = name ∧
      name ∉ before.map (·.name) ∧ splice name new ps.sources = before ++ new present ++ after := by
  obtain ⟨present, hpresent⟩ := Option.isSome_iff_exists.1 (contains_iff_mem.2 h)
  obtain ⟨hname, before, after, hsplit, hbefore⟩ := List.find?_eq_some_iff_append.1 hpresent
  have hfresh : name ∉ before.map (·.name) := by
    intro hmem
    obtain ⟨p, hp, hpname⟩ := List.mem_map.1 hmem
    simpa [hpname] using hbefore p hp
  refine ⟨before, present, after, hsplit, eq_of_beq hname, hfresh, ?_⟩
  rw [hsplit, splice_append_of_notMem hfresh, splice, if_pos hname, List.append_assoc]

/-- Placing a source next to another one adds its name. -/
theorem names_place (hne : anchor ≠ s.name) (hanchor : anchor ∈ ps.names)
    (haround : ∀ a, (around a).Perm [s, a]) :
    (ps.place anchor s around).1.names.Perm (s.name :: ps.names.erase s.name) := by
  have hrest : anchor ∈ (ps.erase s.name).names := mem_map_name_eraseP hne hanchor
  rw [place_of_mem hne hanchor, ← names_erase]
  obtain ⟨before, present, after, hsplit, _, _, hsplice⟩ :=
    exists_splice_eq around hrest
  have hperm : (before ++ around present ++ after).Perm (s :: (ps.erase s.name).sources) := by
    rw [hsplit, List.append_assoc]
    exact (((haround present).append_right after).append_left before).trans List.perm_middle
  show (List.map _ (splice anchor around (ps.erase s.name).sources)).Perm _
  rw [hsplice]
  exact hperm.map _

/-- Placing a source next to one that is not there takes out the one of its name. -/
theorem place_of_notMem (hne : anchor ≠ s.name) (hanchor : anchor ∉ ps.names) :
    ps.place anchor s around = (ps.erase s.name, .error (.notFound anchor)) := by
  have hrest : anchor ∉ (ps.erase s.name).names := fun h =>
    hanchor (List.mem_of_mem_erase (names_erase ▸ h))
  rw [place, if_neg hne, if_neg (mt contains_iff_mem.1 hrest)]

theorem names_replace (h : name ∈ ps.names) :
    (ps.replace name s).1.names.Perm (s.name :: ps.names.erase name) := by
  rw [replace, if_pos (contains_iff_mem.2 h)]
  obtain ⟨before, present, after, hsplit, hname, hfresh, hsplice⟩ :=
    exists_splice_eq (fun _ => [s]) h
  have hnames : ps.names = before.map (·.name) ++ name :: after.map (·.name) := by
    rw [names, hsplit, List.map_append, List.map_cons, hname]
  show (List.map _ (splice name (fun _ => [s]) ps.sources)).Perm _
  rw [hsplice, hnames, List.erase_append_right _ hfresh, List.erase_cons_head,
    List.append_assoc, List.map_append]
  exact List.perm_middle

/-! ## Distinct names -/

theorem nodup_cons_erase (h : ps.names.Nodup) (name : String) :
    (name :: ps.names.erase name).Nodup :=
  List.nodup_cons.2 ⟨h.not_mem_erase, h.erase name⟩

theorem nodup_place (h : ps.names.Nodup) (haround : ∀ a, (around a).Perm [s, a]) :
    (ps.place anchor s around).1.names.Nodup := by
  by_cases hne : anchor = s.name
  · rw [place, if_pos hne]
    exact h
  · by_cases hanchor : anchor ∈ ps.names
    · exact (names_place hne hanchor haround).nodup_iff.2 (nodup_cons_erase h s.name)
    · rw [place_of_notMem hne hanchor, names_erase]
      exact h.erase s.name

theorem nodup_replace_iff (h : ps.names.Nodup) : (ps.replace name s).1.names.Nodup ↔
    ¬ (SourceCall.replace name s).Clashes ps := by
  by_cases hname : name ∈ ps.names
  · rw [(names_replace hname).nodup_iff, List.nodup_cons, and_iff_left (h.erase name),
      h.mem_erase_iff, SourceCall.Clashes]
    grind
  · rw [replace, if_neg (mt contains_iff_mem.1 hname)]
    exact iff_of_true h fun hclash => hname hclash.1

/-- A call keeps the names distinct unless it replaces a source by one whose name is taken. -/
theorem nodup_perform_iff (h : ps.names.Nodup) : (ps.perform c).1.names.Nodup ↔ ¬ c.Clashes ps := by
  cases c with
  | addFirst s =>
    refine iff_of_true ?_ id
    rw [perform, names_addFirst]
    exact nodup_cons_erase h s.name
  | addLast s =>
    refine iff_of_true ?_ id
    rw [perform, names_addLast, (List.perm_append_singleton _ _).nodup_iff]
    exact nodup_cons_erase h s.name
  | addBefore anchor s => exact iff_of_true (nodup_place h fun _ => .rfl) id
  | addAfter anchor s => exact iff_of_true (nodup_place h fun a => .swap s a []) id
  | replace name s => exact nodup_replace_iff h
  | remove name =>
    refine iff_of_true ?_ id
    rw [perform, names_erase]
    exact h.erase name

theorem performAll_concat (ps : PropertySources) (done : List SourceCall) (c : SourceCall) :
    ps.performAll (done ++ [c]) = ((ps.performAll done).perform c).1 := by
  rw [performAll, List.foldl_append]
  rfl

theorem nodup_performAll_iff (h : ps.names.Nodup) (calls : List SourceCall) :
    (∀ done, done <+: calls → (ps.performAll done).names.Nodup) ↔
      ∀ done c, done ++ [c] <+: calls → ¬ c.Clashes (ps.performAll done) := by
  constructor
  · intro hnodup done c hprefix
    have hbefore := hnodup done ((List.prefix_append done [c]).trans hprefix)
    have hafter := hnodup (done ++ [c]) hprefix
    rw [performAll_concat] at hafter
    exact (nodup_perform_iff hbefore).1 hafter
  · intro hcalls done
    -- one call more, until the whole beginning is done
    induction done using List.reverseRecOn with
    | nil => exact fun _ => h
    | append_singleton done c ih =>
      intro hprefix
      have hbefore := ih ((List.prefix_append done [c]).trans hprefix)
      rw [performAll_concat]
      exact (nodup_perform_iff hbefore).2 (hcalls done c hprefix)

/-- After every beginning of a sequence of calls on no sources the names are distinct, exactly if
none of the calls replaces a source by one whose name another source has by then. -/
theorem names_stay_distinct_iff (calls : List SourceCall) :
    (∀ done, done <+: calls → (performAll {} done).names.Nodup) ↔
      ∀ done name s, done ++ [.replace name s] <+: calls → name ∈ (performAll {} done).names →
        s.name ∈ (performAll {} done).names → s.name = name := by
  have hnone : (names {}).Nodup := List.nodup_nil
  rw [nodup_performAll_iff hnone]
  constructor
  · intro h done name s hprefix hname hs
    by_contra hne
    exact h done (.replace name s) hprefix ⟨hname, hs, hne⟩
  · intro h done c hprefix hclash
    cases c with
    | replace name s => exact hclash.2.2 (h done name s hprefix hclash.1 hclash.2.1)
    | addFirst _ => exact hclash
    | addLast _ => exact hclash
    | addBefore _ _ => exact hclash
    | addAfter _ _ => exact hclash
    | remove _ => exact hclash

/-- Of two sources the first is replaced by one with the name of the second. -/
theorem not_forall_names_stay_distinct : ¬ ∀ calls done : List SourceCall, done <+: calls →
    (performAll {} done).names.Nodup := by
  intro h
  have hnodup := h [.addLast (.map "a" {}), .addLast (.map "b" {}), .replace "a" (.map "b" {})] _
    List.prefix_rfl
  revert hnodup
  decide +kernel

/-! ## Failed calls -/

theorem erase_ne_of_mem (h : name ∈ ps.names) : ps.erase name ≠ ps := by
  intro heq
  have hlength : (ps.names.erase name).length = ps.names.length := by
    rw [← names_erase, heq]
  rw [List.length_erase_of_mem h] at hlength
  have hpos := List.length_pos_of_mem h
  omega

/-- Taking out a name takes out one source and leaves the others in their order. -/
theorem exists_erase_eq (h : name ∈ ps.names) : ∃ before lost after,
    ps.sources = before ++ lost :: after ∧ lost.name = name ∧
      (ps.erase name).sources = before ++ after := by
  obtain ⟨p, hp, hpname⟩ := List.mem_map.1 h
  obtain ⟨lost, before, after, _, hlost, hsplit, herase⟩ :=
    List.exists_of_eraseP (p := (·.name == name)) hp (beq_iff_eq.2 hpname)
  exact ⟨before, lost, after, hsplit, eq_of_beq hlost, herase⟩

/-- Placing a source fails if it is placed next to itself, which changes nothing, or next to one
that is not there. -/
theorem place_of_error (h : (ps.place anchor s around).2 = .error e) :
    anchor = s.name ∧ (ps.place anchor s around).1 = ps ∨
      anchor ≠ s.name ∧ anchor ∉ ps.names ∧ (ps.place anchor s around).1 = ps.erase s.name := by
  by_cases hne : anchor = s.name
  · exact .inl ⟨hne, by rw [place, if_pos hne]⟩
  · by_cases hanchor : anchor ∈ ps.names
    · rw [place_of_mem hne hanchor] at h
      cases h
    · exact .inr ⟨hne, hanchor, by rw [place_of_notMem hne hanchor]⟩

theorem replace_of_error (h : (ps.replace name s).2 = .error e) : (ps.replace name s).1 = ps := by
  rw [replace] at h ⊢
  split at h
  · cases h
  · rename_i hname
    rw [if_neg hname]

/-- What a failed call leaves, if it loses the source of a name for which `loses` holds. -/
def Leaves (ps : PropertySources) (loses : String → Prop) (left : PropertySources) : Prop :=
  ((∀ name, ¬ loses name) ∧ left = ps) ∨
    ∃ name ∈ ps.names, (∀ other, loses other ↔ other = name) ∧ left = ps.erase name

theorem leaves_place (h : (ps.place anchor s around).2 = .error e) :
    ps.Leaves (fun name => s.name = name ∧ name ∈ ps.names ∧ anchor ≠ name ∧ anchor ∉ ps.names)
      (ps.place anchor s around).1 := by
  obtain ⟨hself, hsame⟩ | ⟨hne, hanchor, herased⟩ := place_of_error h
  · refine .inl ⟨fun name hloses => ?_, hsame⟩
    exact hloses.2.2.1 (hself.trans hloses.1)
  · by_cases hs : s.name ∈ ps.names
    · refine .inr ⟨s.name, hs, fun other => ⟨fun hloses => hloses.1.symm, ?_⟩, herased⟩
      rintro rfl
      exact ⟨rfl, hs, hne, hanchor⟩
    · refine .inl ⟨fun name hloses => ?_, herased.trans (erase_of_notMem hs)⟩
      exact hs (hloses.1 ▸ hloses.2.1)

theorem leaves_perform (h : (ps.perform c).2 = .error e) :
    ps.Leaves (c.Loses ps) (ps.perform c).1 := by
  cases c with
  | addFirst s => cases h
  | addLast s => cases h
  | addBefore anchor s => exact leaves_place h
  | addAfter anchor s => exact leaves_place h
  | replace name s => exact .inl ⟨fun _ => id, replace_of_error h⟩
  | remove name => cases h

/-- A call that fails changes nothing, exactly if it does not place a source next to one that is not
there while there is one of its own name.  If it does, that one is gone and the others are left in
their order. -/
theorem failed_call_unchanged_iff (h : (ps.perform c).2 = .error e) :
    ((ps.perform c).1 = ps ↔ ∀ name, ¬ c.Loses ps name) ∧
      ∀ name, c.Loses ps name → ∃ before lost after, ps.sources = before ++ lost :: after ∧
        lost.name = name ∧ (ps.perform c).1.sources = before ++ after := by
  obtain ⟨hloses, hsame⟩ | ⟨lost, hlost, hloses, herased⟩ := leaves_perform h
  · exact ⟨iff_of_true hsame hloses, fun name hname => absurd hname (hloses name)⟩
  · rw [herased]
    constructor
    · exact iff_of_false (erase_ne_of_mem hlost) fun hnone => hnone lost ((hloses lost).2 rfl)
    · intro name hname
      rw [(hloses name).1 hname]
      exact exists_erase_eq hlost

/-- A source is placed before one that is not there, and it is there itself. -/
theorem not_forall_failed_call_unchanged : ¬ ∀ (ps : PropertySources) (c : SourceCall)
    (e : SourcesError), (ps.perform c).2 = .error e → (ps.perform c).1 = ps := by
  intro h
  have hsame := h ⟨[.map "app" {}]⟩ (.addBefore "defaults" (.map "app" {})) _ rfl
  have hnames := congrArg names hsame
  revert hnames
  decide +kernel

theorem failed_call_unchanged_iff_missing :
    (perform ⟨[.map "system" {}, .map "app" {}]⟩
        (.addAfter "defaults" (.map "app" {}))).2 = .error (.notFound "defaults") ∧
      ∃ before lost after, [PropertySource.map "system" {}, .map "app" {}] =
        before ++ lost :: after ∧ lost.name = "app" ∧
        (perform ⟨[.map "system" {}, .map "app" {}]⟩
          (.addAfter "defaults" (.map "app" {}))).1.sources = before ++ after := by
  have hfails : (perform ⟨[.map "system" {}, .map "app" {}]⟩
      (.addAfter "defaults" (.map "app" {}))).2 = .error (.notFound "defaults") := by rfl
  exact ⟨hfails, (failed_call_unchanged_iff hfails).2 "app" (by
    simp only [SourceCall.Loses]
    decide +kernel)⟩

end PropertySources
end Wiring
