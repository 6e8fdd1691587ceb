import Wiring.Proofs.Tours

/-!
# Tags through meta types

A class carries a tag, directly or through meta types, if and only if a chain of tag types outside
the platform leads from the class to one that the tag stands on, however the tag types tag each
other.  The search for tags marks the names of tag types before it resolves them, and shares the
marks between all branches: it is a tour of these names.
-/

namespace Wiring

open Relation

namespace ClassInfo

theorem isTagged_iff {c : ClassInfo} {typeName : String} :
    c.isTagged typeName = true ↔ ∃ t ∈ c.tags, t.typeName = typeName := by
  simp [isTagged]

theorem isSome_tag? (c : ClassInfo) (typeName : String) :
    (c.tag? typeName).isSome = c.isTagged typeName :=
  List.isSome_find?

end ClassInfo

namespace Resolver

/-- What is known of a name: the type as it is loaded, else the class as it is read, else, if there
is none to read, its built-in description. -/
inductive Describes (r : Resolver) (name : String) : ClassInfo → Prop
  | loaded {t : LoadedType} (ht : r.types.find? name = some t) : r.Describes name t.info
  | read {c : ClassInfo} (ht : r.types.find? name = none) (hc : r.reader.read name = .ok c) :
      r.Describes name c
  | builtin {c : ClassInfo} {e : MetadataError} (ht : r.types.find? name = none)
      (he : r.reader.read name = .error e) (hnotFound : e.isNotFound = true)
      (hc : builtin? name = some c) : r.Describes name c

/-- A tag outside the platform stands on the first class, and the second one is its type. -/
def TaggedBy (r : Resolver) (c d : ClassInfo) : Prop :=
  ∃ t ∈ c.tags, r.isPlatform t.typeName = false ∧ r.Describes t.typeName d

/-- The names of the tag types of a class outside the platform. -/
def tagNames (r : Resolver) (c : ClassInfo) : List String :=
  (c.tags.map (·.typeName)).filter (!r.isPlatform ·)

/-- The search for the meta types of a class, at most `depth` steps deep. -/
def metaWalk (r : Resolver) (c : ClassInfo) (depth : Nat) : Walk :=
  Walk.visit (r.hierarchy? true) r.tagNames depth {} (r.tagNames c)

variable {r : Resolver} {c d : ClassInfo} {name : String}

theorem metaTypes_eq (r : Resolver) (c : ClassInfo) :
    r.metaTypes c = (r.metaWalk c r.maxDepth).found := rfl

theorem hierarchy?_eq_some_iff : r.hierarchy? true name = some c ↔ r.Describes name c := by
  rw [hierarchy?]
  cases ht : r.types.find? name with
  | some t =>
    constructor
    · intro h
      obtain rfl := Option.some.inj h
      exact .loaded ht
    · rintro (ht' | ⟨ht', _⟩ | ⟨ht', _⟩)
      · obtain rfl := Option.some.inj (ht.symm.trans ht')
        rfl
      all_goals
        rw [ht] at ht'
        cases ht'
  | none =>
    constructor
    · intro h
      simp only [Option.map_none, if_true, HOrElse.hOrElse, OrElse.orElse, Option.orElse] at h
      split at h
      · rename_i c' hc
        obtain rfl := Option.some.inj h
        exact .read ht hc
      · rename_i e he
        split at h
        · rename_i hnotFound
          exact .builtin ht he hnotFound h
        · cases h
    · rintro (ht' | ⟨_, hc⟩ | ⟨_, he, hnotFound, hc⟩)
      · rw [ht] at ht'
        cases ht'
      · simp [hc]
      · simp [he, hnotFound, hc]

theorem mem_tagNames : name ∈ r.tagNames c ↔
    (∃ t ∈ c.tags, t.typeName = name) ∧ r.isPlatform name = false := by
  simp [tagNames]

theorem taggedBy_iff : r.TaggedBy c d ↔ ∃ name ∈ r.tagNames c, r.hierarchy? true name = some d := by
  simp only [mem_tagNames, hierarchy?_eq_some_iff]
  constructor
  · rintro ⟨t, ht, hplatform, hd⟩
    exact ⟨t.typeName, ⟨⟨t, ht, rfl⟩, hplatform⟩, hd⟩
  · rintro ⟨_, ⟨⟨t, ht, rfl⟩, hplatform⟩, hd⟩
    exact ⟨t, ht, hplatform, hd⟩

/-- The meta types of a class are those that a chain of tag types leads to. -/
theorem mem_metaTypes_iff : d ∈ r.metaTypes c ↔ TransGen r.TaggedBy c d := by
  have hleads : Walk.Leads (r.hierarchy? true) r.tagNames [] = r.TaggedBy := by
    funext c d
    simp [Walk.Leads, taggedBy_iff]
  rw [metaTypes_eq, metaWalk, ← hleads]
  exact Walk.mem_found_iff r.tagNames mem_knownNames_of_hierarchy? r.unseen_knownNames_lt

theorem isTagged_iff_exists {typeName : String} : r.isTagged c typeName = true ↔
    ∃ d ∈ c :: r.metaTypes c, d.isTagged typeName = true := by
  rw [isTagged, findTag?, List.findSome?_isSome_iff]
  simp only [ClassInfo.isSome_tag?]

/-- The search comes to an end, and it finds the tag if and only if the class or one at the end of
a chain of its tag types carries it.  What it finds is on the class itself whenever the class
carries the tag. -/
theorem isTagged_iff_chain (r : Resolver) (c : ClassInfo) (typeName : String) :
    (∀ depth, r.maxDepth ≤ depth → r.metaWalk c depth = r.metaWalk c r.maxDepth) ∧
      (r.isTagged c typeName = true ↔
        ∃ d, ReflTransGen r.TaggedBy c d ∧ ∃ t ∈ d.tags, t.typeName = typeName) ∧
      ((∃ t ∈ c.tags, t.typeName = typeName) →
        ∃ t ∈ c.tags, t.typeName = typeName ∧ r.findTag? c typeName = some t) := by
  refine ⟨fun depth hdepth => ?_, ?_, fun hdirect => ?_⟩
  · exact Walk.visit_eq_of_lt r.tagNames mem_knownNames_of_hierarchy? _
      (Nat.lt_of_lt_of_le r.unseen_knownNames_lt hdepth) r.unseen_knownNames_lt
  · rw [isTagged_iff_exists]
    simp only [List.mem_cons, mem_metaTypes_iff, ClassInfo.isTagged_iff,
      reflTransGen_iff_eq_or_transGen]
  · obtain ⟨t, ht⟩ := Option.isSome_iff_exists.1
      ((c.isSome_tag? typeName).trans (ClassInfo.isTagged_iff.2 hdirect))
    refine ⟨t, List.mem_of_find?_eq_some ht, by simpa using List.find?_some ht, ?_⟩
    rw [findTag?, List.findSome?_cons, ht]

/-- Two tag types that tag each other, with a stereotype further on. -/
def loopingTags : Resolver where
  reader.index.classes :=
    [{ name := "app.Looping", isTagType := true,
        tags := [.mk "app.Stereo" [], .mk "app.Looping" []] },
     { name := "app.Stereo", isTagType := true,
       tags := [.mk "app.Looping" [], .mk WellKnown.configuration []] }]

example : loopingTags.isTagged { name := "app.App", tags := [.mk "app.Looping" []] }
    WellKnown.component = true := by decide +kernel

end Resolver
end Wiring
