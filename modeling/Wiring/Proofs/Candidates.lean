import Wiring.Proofs.MetaTags
import Wiring.Resolver.Candidate

/-!
# Which definitions are candidates

The class of a definition is classified by its tags and its bean methods, wherever its metadata
comes from.  Interfaces are kept out by one of the two ways to become a candidate only: an interface
that carries the configuration tag is a candidate all the same.
-/

namespace Wiring

open Relation

namespace Resolver

/-- The metadata that a definition is judged by: what is handed in for the class itself, else that
of the loaded type, else what is read under the name of the class. -/
inductive JudgedBy (r : Resolver) (d : Definition LoadedType) : ClassInfo → Prop
  | given {c : ClassInfo} (hc : d.given = some c) (hname : d.className = some c.name) :
      r.JudgedBy d c
  | loaded {t : LoadedType} (hgiven : ∀ g, d.given = some g → d.className ≠ some g.name)
      (ht : d.loadedType = some t) : r.JudgedBy d t.info
  | read {c : ClassInfo} {name : String}
      (hgiven : ∀ g, d.given = some g → d.className ≠ some g.name) (hloaded : d.loadedType = none)
      (hname : d.className = some name) (hc : r.readStatic name = .ok c) : r.JudgedBy d c

/-- A chain of tag types leads from the class to one that the tag stands on, or it stands on the
class itself. -/
def Carries (r : Resolver) (c : ClassInfo) (typeName : String) : Prop :=
  ∃ d, ReflTransGen r.TaggedBy c d ∧ ∃ t ∈ d.tags, t.typeName = typeName

/-- The configuration tag that counts for a class: the first on the class itself, else the first on
the first of its meta types that has one. -/
def ConfiguredBy (r : Resolver) (c : ClassInfo) (t : Tag) : Prop :=
  ∃ before d after, c :: r.metaTypes c = before ++ d :: after ∧
    d.tag? WellKnown.configuration = some t ∧
      ∀ b ∈ before, b.isTagged WellKnown.configuration = false

/-- What makes a class a candidate without the configuration tag. -/
def IsIndicated (r : Resolver) (c : ClassInfo) : Prop :=
  r.Carries c WellKnown.component ∨ r.Carries c WellKnown.componentScan ∨
    r.Carries c WellKnown.importTag ∨ r.Carries c WellKnown.importResource ∨
      ∃ m ∈ c.methods, m.isTagged WellKnown.bean = true

/-- The kind of candidate that a class is. -/
inductive HasKind (r : Resolver) (c : ClassInfo) : CandidateKind → Prop
  | full {t : Tag} (ht : r.ConfiguredBy c t)
      (hproxy : t.bool? "proxyBeanMethods" ≠ some false) : r.HasKind c .full
  | unproxied {t : Tag} (ht : r.ConfiguredBy c t)
      (hproxy : t.bool? "proxyBeanMethods" = some false) : r.HasKind c .lite
  | indicated (hplain : ¬ r.Carries c WellKnown.configuration) (hclass : c.isInterface = false)
      (hindicated : r.IsIndicated c) : r.HasKind c .lite

/-- `candidate?` for a class whose metadata is there. -/
def kind? (r : Resolver) (c : ClassInfo) : Option CandidateKind :=
  match r.findTag? c WellKnown.configuration with
  | some t => some (if isProxying t then .full else .lite)
  | none => if r.isCandidate c then some .lite else none

variable {r : Resolver} {d : Definition LoadedType} {c : ClassInfo} {name : String}
  {k : CandidateKind}

/-! ## One class -/

theorem isTagged_iff_carries : r.isTagged c name = true ↔ r.Carries c name := by
  rw [isTagged_iff_exists]
  simp only [Carries, List.mem_cons, mem_metaTypes_iff, ClassInfo.isTagged_iff,
    reflTransGen_iff_eq_or_transGen]

theorem findTag?_eq_some_iff {t : Tag} :
    r.findTag? c WellKnown.configuration = some t ↔ r.ConfiguredBy c t := by
  simp only [findTag?, ConfiguredBy, List.findSome?_eq_some_iff, ← ClassInfo.isSome_tag?,
    Option.isSome_eq_false_iff, Option.isNone_iff_eq_none]

theorem findTag?_eq_none_iff : r.findTag? c name = none ↔ ¬ r.Carries c name := by
  rw [← isTagged_iff_carries, isTagged, Option.not_isSome_iff_eq_none]

theorem ConfiguredBy.carries {t : Tag} (h : r.ConfiguredBy c t) :
    r.Carries c WellKnown.configuration := by
  by_contra hplain
  rw [← findTag?_eq_some_iff, findTag?_eq_none_iff.2 hplain] at h
  cases h

theorem isCandidate_iff : r.isCandidate c = true ↔ c.isInterface = false ∧ r.IsIndicated c := by
  simp [isCandidate, IsIndicated, WellKnown.candidateIndicators, isTagged_iff_carries,
    ClassInfo.taggedMethods, or_assoc]

theorem isProxying_iff {t : Tag} :
    isProxying t = true ↔ t.bool? "proxyBeanMethods" ≠ some false := by
  rw [isProxying, bne_iff_ne]

theorem kind?_eq_some_iff : r.kind? c = some k ↔ r.HasKind c k := by
  rw [kind?]
  cases ht : r.findTag? c WellKnown.configuration with
  | some t =>
    have hcounts := findTag?_eq_some_iff.1 ht
    constructor
    · intro h
      obtain rfl := Option.some.inj h
      cases hproxy : isProxying t with
      | true => exact .full hcounts (isProxying_iff.1 hproxy)
      | false => exact .unproxied hcounts (by simpa [isProxying] using hproxy)
    · rintro (⟨ht', hproxy⟩ | ⟨ht', hproxy⟩ | ⟨hplain, _, _⟩)
      · obtain rfl := Option.some.inj (ht.symm.trans (findTag?_eq_some_iff.2 ht'))
        simp [isProxying_iff.2 hproxy]
      · obtain rfl := Option.some.inj (ht.symm.trans (findTag?_eq_some_iff.2 ht'))
        simp [isProxying, hproxy]
      · exact absurd hcounts.carries hplain
  | none =>
    have hplain : ¬ r.Carries c WellKnown.configuration := findTag?_eq_none_iff.1 ht
    constructor
    · intro h
      obtain ⟨hcandidate, hk⟩ := Option.ite_none_right_eq_some.1 h
      obtain rfl := Option.some.inj hk
      obtain ⟨hclass, hindicated⟩ := isCandidate_iff.1 hcandidate
      exact .indicated hplain hclass hindicated
    · rintro (⟨h, _⟩ | ⟨h, _⟩ | ⟨_, hclass, hindicated⟩)
      · exact absurd h.carries hplain
      · exact absurd h.carries hplain
      · exact if_pos (isCandidate_iff.2 ⟨hclass, hindicated⟩)

theorem kind?_eq_none_iff : r.kind? c = none ↔
    ¬ r.Carries c WellKnown.configuration ∧ (c.isInterface = true ∨ ¬ r.IsIndicated c) := by
  rw [← findTag?_eq_none_iff, kind?]
  cases r.findTag? c WellKnown.configuration with
  | some t => simp
  | none => simp [isCandidate_iff, imp_iff_not_or]

/-! ## Definitions -/

theorem metadata?_eq_some_iff :
    d.metadata? = some c ↔ d.given = some c ∧ d.className = some c.name := by
  simp [Definition.metadata?, Option.filter_eq_some_iff]

theorem metadata?_eq_none_iff :
    d.metadata? = none ↔ ∀ g, d.given = some g → d.className ≠ some g.name := by
  simp [Definition.metadata?, Option.filter_eq_none_iff]

theorem definitionInfo?_eq_some_iff (hname : d.className = some name) :
    r.definitionInfo? d name = some c ↔ r.JudgedBy d c := by
  rw [definitionInfo?]
  cases hgiven : d.metadata? with
  | some g =>
    obtain ⟨hg, hgname⟩ := metadata?_eq_some_iff.1 hgiven
    constructor
    · intro h
      obtain rfl := Option.some.inj h
      exact .given hg hgname
    · rintro (⟨hc, _⟩ | ⟨hnone, _⟩ | ⟨hnone, _⟩)
      · exact hg.symm.trans hc
      · exact absurd hgname (hnone g hg)
      · exact absurd hgname (hnone g hg)
  | none =>
    have hnone := metadata?_eq_none_iff.1 hgiven
    cases hloaded : d.loadedType with
    | some t =>
      constructor
      · intro h
        obtain rfl := Option.some.inj h
        exact .loaded hnone hloaded
      · rintro (⟨hc, hcname⟩ | ⟨_, ht⟩ | ⟨_, hnotLoaded, _⟩)
        · exact absurd hcname (hnone c hc)
        · obtain rfl := Option.some.inj (hloaded.symm.trans ht)
          rfl
        · rw [hloaded] at hnotLoaded
          cases hnotLoaded
    | none =>
      constructor
      · intro h
        exact .read hnone hloaded hname (exceptToOption_eq_some.1 h)
      · rintro (⟨hc, hcname⟩ | ⟨_, ht⟩ | ⟨_, _, hread, hc⟩)
        · exact absurd hcname (hnone c hc)
        · rw [hloaded] at ht
          cases ht
        · obtain rfl := Option.some.inj (hname.symm.trans hread)
          exact exceptToOption_eq_some.2 hc

theorem candidate?_eq (hname : d.className = some name) (hfactory : d.factoryMethod = none) :
    r.candidate? d =
      (r.definitionInfo? d name).bind fun c => (r.kind? c).map (⟨·, c.order⟩) := by
  rw [candidate?, hname, hfactory]
  show (r.definitionInfo? d name).bind _ = _
  congr 1
  funext c
  rw [kind?]
  cases r.findTag? c WellKnown.configuration with
  | some t => rfl
  | none => cases r.isCandidate c <;> rfl

theorem candidate?_eq_some_iff {x : Candidate} : r.candidate? d = some x ↔
    d.className ≠ none ∧ d.factoryMethod = none ∧
      ∃ c, r.JudgedBy d c ∧ r.HasKind c x.kind ∧ x.order = c.order := by
  cases hname : d.className with
  | none => simp [candidate?, hname]
  | some name =>
    cases hfactory : d.factoryMethod with
    | some _ => simp [candidate?, hname, hfactory]
    | none =>
      rw [candidate?_eq hname hfactory]
      simp only [Option.bind_eq_some_iff, Option.map_eq_some_iff, definitionInfo?_eq_some_iff hname,
        kind?_eq_some_iff]
      obtain ⟨kind, order⟩ := x
      simp [eq_comm]

/-- A definition without a class name, with a factory method or without metadata is no candidate.
Else the class is full if it carries the configuration tag, unless the tag says otherwise; it is
lite if the tag does, or if a class that is no interface carries another tag that makes a candidate
or has a bean method; and none of all this leaves it out. -/
theorem classifies_definition (r : Resolver) (d : Definition LoadedType) :
    (r.candidate? d = none ↔
      d.className = none ∨ d.factoryMethod ≠ none ∨ (∀ c, ¬ r.JudgedBy d c) ∨
        ∃ c, r.JudgedBy d c ∧ ¬ r.Carries c WellKnown.configuration ∧
          (c.isInterface = true ∨ ¬ r.IsIndicated c)) ∧
      ∀ kind order, r.candidate? d = some ⟨kind, order⟩ ↔
        d.className ≠ none ∧ d.factoryMethod = none ∧
          ∃ c, r.JudgedBy d c ∧ r.HasKind c kind ∧ order = c.order := by
  refine ⟨?_, fun kind order => candidate?_eq_some_iff⟩
  cases hname : d.className with
  | none => simp [candidate?, hname]
  | some name =>
    cases hfactory : d.factoryMethod with
    | some _ => simp [candidate?, hname, hfactory]
    | none =>
      simp only [candidate?_eq hname hfactory, ← definitionInfo?_eq_some_iff hname,
        ← kind?_eq_none_iff]
      cases r.definitionInfo? d name with
      | none => simp
      | some c => simp

def taggedInterface : ClassInfo :=
  { name := "app.Api", isInterface := true, isAbstract := true,
    tags := [.mk WellKnown.configuration []] }

/-- Not every interface is left out: only `isCandidate` asks whether the class is one. -/
theorem not_forall_interface_left_out :
    ¬ ∀ (r : Resolver) (d : Definition LoadedType) (c : ClassInfo),
      r.JudgedBy d c → c.isInterface = true → r.candidate? d = none := by
  intro h
  have hnone := h {} (.ofMetadata taggedInterface) taggedInterface (.given rfl rfl) rfl
  have hfull : Resolver.candidate? {} (.ofMetadata taggedInterface) =
      some ⟨.full, lowestPrecedence⟩ := by
    decide +kernel
  rw [hfull] at hnone
  cases hnone

end Resolver
end Wiring
