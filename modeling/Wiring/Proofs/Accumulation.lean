import Mathlib.Data.List.Induction
import Wiring.Proofs.Behaviour

/-!
# The sources that a run adds

A run puts its sources after those that the environment had, the later ones first.  A source
whose name was added before does not get an entry of its own: it is joined to the entry of that
name, whose parts it comes before.
-/

namespace Wiring

namespace PropertySource

theorem name_of_find? {ss : List PropertySource} {name : String} {s : PropertySource}
    (h : ss.find? (·.name == name) = some s) : s.name = name := by
  have hname := List.find?_some h
  exact eq_of_beq hname

theorem get?_underResourceName (key : String) (s : PropertySource) :
    s.underResourceName.get? key = s.get? key := by
  cases s <;> rfl

theorem firstOf_cons (key : String) (s : PropertySource) (ss : List PropertySource) :
    firstOf key (s :: ss) = (s.get? key).or (firstOf key ss) := by
  rw [firstOf]
  cases s.get? key <;> rfl

/-- What a source brings into a composite. -/
def parts : PropertySource → List PropertySource
  | composite _ members => members
  | s => [s.underResourceName]

theorem firstOf_parts (key : String) (s : PropertySource) : firstOf key s.parts = s.get? key := by
  cases s with
  | composite name members => rw [parts, get?]
  | map name properties => exact (firstOf_cons key _ []).trans Option.or_none
  | resource name resourceName properties => exact (firstOf_cons key _ []).trans Option.or_none

/-- An entry that a source of its name has joined: the source comes first, and the parts that
bear the name it comes in under give way. -/
def joined (present s : PropertySource) : PropertySource :=
  composite present.name
    (s.underResourceName :: present.parts.filter (·.name != s.underResourceName.name))

theorem get?_joined (key : String) (present s : PropertySource) :
    (present.joined s).get? key =
      (s.get? key).or
        (firstOf key (present.parts.filter (·.name != s.underResourceName.name))) := by
  rw [joined, get?, firstOf_cons, get?_underResourceName]

/-- A source that displaces no part of the entry leaves what the entry answers in its shadow. -/
theorem get?_joined_of_forall_ne {present s : PropertySource}
    (h : ∀ part ∈ present.parts, part.name ≠ s.underResourceName.name) (key : String) :
    (present.joined s).get? key = (s.get? key).or (present.get? key) := by
  have hkept : present.parts.filter (·.name != s.underResourceName.name) = present.parts :=
    List.filter_eq_self.2 fun part hpart => bne_iff_ne.2 (h part hpart)
  rw [get?_joined, hkept, firstOf_parts]

theorem prepend_eq_joined {present : PropertySource} (h : present.isComposite = true)
    (s : PropertySource) : present.prepend s.underResourceName = present.joined s := by
  cases present with
  | composite name members => rfl
  | map _ _ => cases h
  | resource _ _ _ => cases h

theorem append_append_eq_joined {present s : PropertySource} (h : present.isComposite = false)
    (hname : present.name = s.name) :
    ((composite s.name []).append s.underResourceName).append present.underResourceName =
      present.joined s := by
  have hparts : present.parts = [present.underResourceName] := by
    cases present with
    | composite name members => cases h
    | map _ _ => rfl
    | resource _ _ _ => rfl
  have hfirst : (composite s.name []).append s.underResourceName =
      composite s.name [s.underResourceName] := rfl
  rw [hfirst, joined, hparts, hname, append]
  by_cases hsame : present.underResourceName.name = s.underResourceName.name
  · simp [hsame]
  · simp [hsame, Ne.symm hsame]

end PropertySource

namespace PropertySources

/-! ## Entries in place -/

section

variable {name other : String} {new : PropertySource → List PropertySource}
  {ss ss' : List PropertySource}

theorem splice_append_of_notMem (h : name ∉ ss.map (·.name)) :
    splice name new (ss ++ ss') = ss ++ splice name new ss' := by
  induction ss with
  | nil => rfl
  | cons s ss ih =>
    rw [List.map_cons, List.mem_cons, not_or] at h
    rw [List.cons_append, splice, if_neg (by simpa using Ne.symm h.1), ih h.2, List.cons_append]

theorem map_name_splice {f : PropertySource → PropertySource}
    (hf : ∀ s, s.name = name → (f s).name = name) :
    (splice name (fun s => [f s]) ss).map (·.name) = ss.map (·.name) := by
  induction ss with
  | nil => rfl
  | cons s ss ih =>
    rw [splice]
    by_cases hs : s.name = name
    · rw [if_pos (beq_iff_eq.2 hs), List.singleton_append, List.map_cons, hf s hs, ← hs,
        List.map_cons]
    · rw [if_neg (by simpa using hs), List.map_cons, ih, List.map_cons]

theorem find?_splice_self {f : PropertySource → PropertySource}
    (hf : ∀ s, s.name = name → (f s).name = name) :
    (splice name (fun s => [f s]) ss).find? (·.name == name) =
      (ss.find? (·.name == name)).map f := by
  induction ss with
  | nil => rfl
  | cons s ss ih =>
    rw [splice]
    by_cases hs : s.name = name
    · have hfound : ((f s).name == name) = true := beq_iff_eq.2 (hf s hs)
      rw [if_pos (beq_iff_eq.2 hs), List.singleton_append, List.find?_cons, hfound,
        List.find?_cons, beq_iff_eq.2 hs, Option.map_some]
    · have hother : (s.name == name) = false := beq_eq_false_iff_ne.2 hs
      rw [hother, if_neg Bool.false_ne_true, List.find?_cons, hother, ih, List.find?_cons, hother]

theorem get?_modify_self {ps : PropertySources} {f : PropertySource → PropertySource}
    (hf : ∀ s, s.name = name → (f s).name = name) :
    (ps.modify name f).get? name = (ps.get? name).map f :=
  find?_splice_self hf

theorem find?_splice_of_ne {f : PropertySource → PropertySource}
    (hf : ∀ s, s.name = name → (f s).name = name) (hne : other ≠ name) :
    (splice name (fun s => [f s]) ss).find? (·.name == other) =
      ss.find? (·.name == other) := by
  induction ss with
  | nil => rfl
  | cons s ss ih =>
    rw [splice]
    by_cases hs : s.name = name
    · have hold : (s.name == other) = false := beq_eq_false_iff_ne.2 (hs.trans_ne hne.symm)
      have hnew : ((f s).name == other) = false :=
        beq_eq_false_iff_ne.2 ((hf s hs).trans_ne hne.symm)
      rw [if_pos (beq_iff_eq.2 hs), List.singleton_append, List.find?_cons, hnew,
        List.find?_cons, hold]
    · rw [if_neg (by simpa using hs), List.find?_cons, List.find?_cons, ih]

end

/-! ## One more source -/

section

variable {ps : PropertySources} {added : List String} {s present : PropertySource}

theorem name_of_get? {name : String} (h : ps.get? name = some s) : s.name = name :=
  PropertySource.name_of_find? h

theorem get?_eq_none_iff {name : String} : ps.get? name = none ↔ name ∉ ps.names := by
  rw [get?, List.find?_eq_none, names, List.mem_map]
  simp only [beq_iff_eq, not_exists, not_and]

theorem erase_of_notMem {name : String} (h : name ∉ ps.names) : ps.erase name = ps := by
  have hnone : ∀ p ∈ ps.sources, ¬(p.name == name) = true := fun p hp hname =>
    h (List.mem_map.2 ⟨p, hp, eq_of_beq hname⟩)
  rw [erase, List.eraseP_of_forall_not hnone]

theorem contains_iff_mem {name : String} : ps.contains name = true ↔ name ∈ ps.names := by
  rw [contains, Option.isSome_iff_ne_none, Ne, get?_eq_none_iff, not_not]

theorem map_name_eraseP {name : String} {ss : List PropertySource} :
    (ss.eraseP (·.name == name)).map (·.name) = (ss.map (·.name)).erase name := by
  rw [List.erase_eq_eraseP, List.eraseP_map]
  exact congrArg (List.map _) (congrArg (ss.eraseP ·) (funext fun p => BEq.comm))

theorem mem_map_name_eraseP {n name : String} {ss : List PropertySource} (hne : n ≠ name)
    (h : n ∈ ss.map (·.name)) : n ∈ (ss.eraseP (·.name == name)).map (·.name) := by
  obtain ⟨p, hp, rfl⟩ := List.mem_map.1 h
  exact List.mem_map.2 ⟨p, (List.mem_eraseP_of_neg (by simpa using hne)).2 hp, rfl⟩

theorem place_of_mem {anchor : String} {around : PropertySource → List PropertySource}
    (hne : anchor ≠ s.name) (hanchor : anchor ∈ ps.names) :
    ps.place anchor s around = (⟨splice anchor around (ps.erase s.name).sources⟩, .ok ()) := by
  have hrest : anchor ∈ (ps.erase s.name).names := mem_map_name_eraseP hne hanchor
  rw [place, if_neg hne, if_pos (contains_iff_mem.2 hrest)]

theorem addBefore_of_mem {anchor : String} (hne : anchor ≠ s.name) (hanchor : anchor ∈ ps.names) :
    ps.addBefore anchor s =
      (⟨splice anchor (fun a => [s, a]) (ps.erase s.name).sources⟩, .ok ()) :=
  place_of_mem hne hanchor

/-- A source whose name was added before joins the entry of that name, if there still is one. -/
theorem accumulate_of_present (hadded : s.name ∈ added) (hpresent : ps.get? s.name = some present) :
    ps.accumulate added s = (ps.modify s.name fun _ => present.joined s, .ok added) := by
  have hgrown : (if present.isComposite then present.prepend s.underResourceName
      else ((PropertySource.composite s.name []).append s.underResourceName).append
        present.underResourceName) = present.joined s := by
    cases hcomposite : present.isComposite with
    | true => exact PropertySource.prepend_eq_joined hcomposite s
    | false => exact PropertySource.append_append_eq_joined hcomposite (name_of_get? hpresent)
  rw [accumulate, if_pos (List.contains_iff_mem.2 hadded), hpresent]
  simp only [hgrown]

theorem accumulate_of_absent (h : s.name ∈ added → ps.get? s.name = none) :
    ps.accumulate added s =
      match added.getLast? with
      | none => (ps.addLast s, .ok (added ++ [s.name]))
      | some last =>
        match ps.addBefore last s with
        | (ps, .ok _) => (ps, .ok (added ++ [s.name]))
        | (ps, .error e) => (ps, .error e) := by
  have hnone : (if added.contains s.name then ps.get? s.name else none) = none := by
    by_cases hadded : s.name ∈ added
    · rw [if_pos (List.contains_iff_mem.2 hadded), h hadded]
    · rw [if_neg (mt List.contains_iff_mem.1 hadded)]
  rewrite [accumulate, hnone]
  rfl

end

end PropertySources

/-! ## All sources of a run -/

/-- The added sources after one more: it joins the entry of its name, or comes first. -/
def layer (grown : List PropertySource) (x : PropertySource) : List PropertySource :=
  match grown.find? (·.name == x.name) with
  | some present => PropertySources.splice x.name (fun _ => [present.joined x]) grown
  | none => x :: grown

section

variable {grown : List PropertySource} {x : PropertySource}

theorem map_name_layer_of_mem (h : x.name ∈ grown.map (·.name)) :
    (layer grown x).map (·.name) = grown.map (·.name) := by
  rw [layer]
  cases hfound : grown.find? (·.name == x.name) with
  | none =>
    obtain ⟨p, hp, hname⟩ := List.mem_map.1 h
    exact absurd (beq_iff_eq.2 hname) (List.find?_eq_none.1 hfound p hp)
  | some present =>
    have hname : present.name = x.name := PropertySource.name_of_find? hfound
    exact PropertySources.map_name_splice fun _ _ => hname

theorem layer_of_notMem (h : x.name ∉ grown.map (·.name)) : layer grown x = x :: grown := by
  have hnone : grown.find? (·.name == x.name) = none := List.find?_eq_none.2 fun p hp hname =>
    h (List.mem_map.2 ⟨p, hp, eq_of_beq hname⟩)
  rw [layer, hnone]

theorem mem_map_name_layer {name : String} :
    name ∈ (layer grown x).map (·.name) ↔ name = x.name ∨ name ∈ grown.map (·.name) := by
  by_cases h : x.name ∈ grown.map (·.name)
  · rw [map_name_layer_of_mem h]
    exact ⟨.inr, fun hname => hname.elim (fun hname => hname ▸ h) id⟩
  · rw [layer_of_notMem h, List.map_cons, List.mem_cons]

theorem find?_layer_of_ne {name : String} (h : name ≠ x.name) :
    (layer grown x).find? (·.name == name) = grown.find? (·.name == name) := by
  rw [layer]
  cases hfound : grown.find? (·.name == x.name) with
  | none => exact List.find?_cons_of_neg (by simpa using h.symm)
  | some present =>
    have hname : present.name = x.name := PropertySource.name_of_find? hfound
    exact PropertySources.find?_splice_of_ne (fun _ _ => hname) h

end

/-- The entries bear the names that were added, the latest first, each once. -/
theorem map_name_foldl_layer (xs : List PropertySource) :
    (xs.foldl layer []).map (·.name) = (xs.map (·.name)).eraseDups.reverse := by
  induction xs using List.reverseRecOn with
  | nil => rfl
  | append_singleton xs x ih =>
    have hmem : x.name ∈ (xs.foldl layer []).map (·.name) ↔ x.name ∈ xs.map (·.name) := by
      rw [ih, List.mem_reverse, List.mem_eraseDups]
    rw [List.foldl_append, List.foldl_cons, List.foldl_nil, List.map_append, List.map_singleton,
      eraseDups_concat]
    by_cases h : x.name ∈ xs.map (·.name)
    · rw [if_pos h, map_name_layer_of_mem (hmem.2 h), ih]
    · rw [if_neg h, layer_of_notMem (mt hmem.1 h), List.map_cons, ih, List.reverse_concat]

/-- A name that was added once holds the source that was added. -/
theorem find?_foldl_layer {xs : List PropertySource} {x : PropertySource} (hx : x ∈ xs)
    (honce : (xs.map (·.name)).count x.name = 1) :
    (xs.foldl layer []).find? (·.name == x.name) = some x := by
  induction xs using List.reverseRecOn with
  | nil => cases hx
  | append_singleton xs y ih =>
    rw [List.map_append, List.count_append, List.map_singleton, List.count_singleton] at honce
    rw [List.foldl_append, List.foldl_cons, List.foldl_nil]
    rcases List.mem_append.1 hx with hx | hx
    · have hbefore : 0 < (xs.map (·.name)).count x.name :=
        List.count_pos_iff.2 (List.mem_map.2 ⟨x, hx, rfl⟩)
      have hne : x.name ≠ y.name := by
        rintro hname
        rw [if_pos (beq_iff_eq.2 hname.symm)] at honce
        omega
      rw [if_neg (by simpa using hne.symm)] at honce
      rw [find?_layer_of_ne hne, ih hx honce]
    · obtain rfl := List.mem_singleton.1 hx
      rw [if_pos (beq_self_eq_true x.name)] at honce
      have hnew : x.name ∉ (xs.foldl layer []).map (·.name) := by
        rw [map_name_foldl_layer, List.mem_reverse, List.mem_eraseDups]
        exact List.count_eq_zero.1 (by omega)
      rw [layer_of_notMem hnew, List.find?_cons, beq_self_eq_true]

/-- The state with sources added behind those that it has. -/
def Run.layered (s : Run) (grown : List PropertySource) : Run :=
  { s with
    environment := { s.environment with sources := ⟨s.environment.sources.sources ++ grown⟩ }
    addedSources := (grown.map (·.name)).reverse }

section

variable {s : Run} {grown : List PropertySource} {x : PropertySource}

theorem accumulate_layered (hgrown : ∀ p ∈ grown, p.name ∉ s.environment.sources.names)
    (hx : x.name ∉ s.environment.sources.names) :
    (s.layered grown).environment.sources.accumulate (s.layered grown).addedSources x =
      ((s.layered (layer grown x)).environment.sources,
        .ok (s.layered (layer grown x)).addedSources) := by
  have hbase : ∀ p ∈ s.environment.sources.sources, ¬(p.name == x.name) = true := fun p hp hname =>
    hx (List.mem_map.2 ⟨p, hp, eq_of_beq hname⟩)
  have hget : (s.layered grown).environment.sources.get? x.name =
      grown.find? (·.name == x.name) := by
    show (_ ++ grown).find? _ = _
    rw [List.find?_append, List.find?_eq_none.2 hbase, Option.none_or]
  by_cases hmem : x.name ∈ grown.map (·.name)
  · cases hfound : grown.find? (·.name == x.name) with
    | none =>
      obtain ⟨p, hp, hname⟩ := List.mem_map.1 hmem
      exact absurd (beq_iff_eq.2 hname) (List.find?_eq_none.1 hfound p hp)
    | some present =>
      have hlayer : layer grown x =
          PropertySources.splice x.name (fun _ => [present.joined x]) grown := by
        rw [layer, hfound]
      have hnames : (s.layered (layer grown x)).addedSources = (s.layered grown).addedSources :=
        congrArg List.reverse (map_name_layer_of_mem hmem)
      have hadded : x.name ∈ (s.layered grown).addedSources := List.mem_reverse.2 hmem
      rw [PropertySources.accumulate_of_present hadded (hget.trans hfound), hnames, hlayer]
      refine Prod.ext (congrArg PropertySources.mk ?_) rfl
      exact PropertySources.splice_append_of_notMem hx
  · have hnone : grown.find? (·.name == x.name) = none := List.find?_eq_none.2 fun p hp hname =>
      hmem (List.mem_map.2 ⟨p, hp, eq_of_beq hname⟩)
    have hout : x.name ∉ (s.layered grown).environment.sources.names := by
      rw [← PropertySources.get?_eq_none_iff, hget, hnone]
    have hadded : (s.layered grown).addedSources ++ [x.name] =
        (s.layered (x :: grown)).addedSources := by
      show _ = (((x :: grown).map (·.name)).reverse : List String)
      rw [List.map_cons, List.reverse_cons]
      rfl
    rw [PropertySources.accumulate_of_absent fun _ => hget.trans hnone, layer_of_notMem hmem,
      hadded]
    cases grown with
    | nil =>
      refine Prod.ext (congrArg PropertySources.mk ?_) rfl
      rw [PropertySources.erase_of_notMem hout]
      show (s.environment.sources.sources ++ []) ++ [x] = _
      rw [List.append_nil]
    | cons latest grown =>
      have hlast : (s.layered (latest :: grown)).addedSources.getLast? = some latest.name := by
        show ((latest :: grown).map (·.name)).reverse.getLast? = _
        rw [List.map_cons, List.reverse_cons, List.getLast?_concat]
      have hne : latest.name ≠ x.name := fun hname => hmem (by simp [hname])
      have hanchor : latest.name ∈ (s.layered (latest :: grown)).environment.sources.names :=
        List.mem_map.2 ⟨latest, List.mem_append_right _ List.mem_cons_self, rfl⟩
      rw [hlast]
      simp only [PropertySources.addBefore_of_mem hne hanchor, PropertySources.erase_of_notMem hout]
      refine Prod.ext (congrArg PropertySources.mk ?_) rfl
      show PropertySources.splice latest.name (fun a => [x, a])
        (s.environment.sources.sources ++ latest :: grown) = _
      rw [PropertySources.splice_append_of_notMem (hgrown latest List.mem_cons_self),
        PropertySources.splice, if_pos (beq_self_eq_true latest.name)]
      rfl

theorem addSource_layered (hgrown : ∀ p ∈ grown, p.name ∉ s.environment.sources.names)
    (hx : x.name ∉ s.environment.sources.names) :
    RunM.addSource x (s.layered grown) = .ok () (s.layered (layer grown x)) := by
  rw [RunM.addSource_eq, accumulate_layered hgrown hx]
  rfl

/-- Sources whose names the environment did not have go through one by one. -/
theorem forM_addSource_layered {xs : List PropertySource}
    (hgrown : ∀ p ∈ grown, p.name ∉ s.environment.sources.names)
    (hxs : ∀ x ∈ xs, x.name ∉ s.environment.sources.names) :
    xs.forM RunM.addSource (s.layered grown) = .ok () (s.layered (xs.foldl layer grown)) := by
  induction xs generalizing grown with
  | nil => rfl
  | cons x xs ih =>
    have hx := hxs x List.mem_cons_self
    refine bind_eq_ok.2 ⟨(), _, addSource_layered hgrown hx, ih (fun p hp => ?_) fun y hy => ?_⟩
    · have hname : p.name ∈ (layer grown x).map (·.name) := List.mem_map.2 ⟨p, hp, rfl⟩
      obtain hname | hname := mem_map_name_layer.1 hname
      · rwa [hname]
      · obtain ⟨q, hq, hname⟩ := List.mem_map.1 hname
        rw [← hname]
        exact hgrown q hq
    · exact hxs y (List.mem_cons_of_mem _ hy)

end

/-- What was in the environment stays first, and behind it come the names that were added, the
latest first.  A name that was added once holds what was added. -/
theorem Run.forM_addSource_reverses {s : Run} {xs : List PropertySource}
    (hnone : s.addedSources = []) (hxs : ∀ x ∈ xs, x.name ∉ s.environment.sources.names) :
    ∃ grown,
      xs.forM RunM.addSource s = .ok () { s with
        environment := { s.environment with sources := ⟨s.environment.sources.sources ++ grown⟩ }
        addedSources := (xs.map (·.name)).eraseDups } ∧
      grown.map (·.name) = (xs.map (·.name)).eraseDups.reverse ∧
      ∀ x ∈ xs, (xs.map (·.name)).count x.name = 1 → grown.find? (·.name == x.name) = some x := by
  have hstart : s.layered [] = s := by
    rw [Run.layered, List.append_nil, List.map_nil, List.reverse_nil, ← hnone]
  have hnothing : ∀ p ∈ ([] : List PropertySource), p.name ∉ s.environment.sources.names :=
    fun p hp => nomatch hp
  have hrun := forM_addSource_layered hnothing hxs
  rw [hstart, Run.layered, map_name_foldl_layer, List.reverse_reverse] at hrun
  exact ⟨xs.foldl layer [], hrun, map_name_foldl_layer xs, fun x => find?_foldl_layer⟩

/-- A map source with one property. -/
def oneProperty (name key value : String) : PropertySource := .map name ⟨[(key, value)]⟩

set_option maxRecDepth 100000 in
/-- Of two sources and a third one under the name of the first, the second comes before the
first, and both come after the one that was there. -/
theorem forM_addSource_reverses_three :
    ∃ t, [oneProperty "p" "a" "1", oneProperty "q" "b" "2", oneProperty "p" "c" "3"].forM
        RunM.addSource (Run.fresh { sources := ⟨[oneProperty "base" "a" "0"]⟩ } {}) = .ok () t ∧
      t.environment.sources.names = ["base", "q", "p"] ∧ t.addedSources = ["p", "q"] ∧
      t.environment.sources.get? "q" = some (oneProperty "q" "b" "2") := by
  obtain ⟨grown, hrun, hnames, honce⟩ := @Run.forM_addSource_reverses
    (Run.fresh { sources := ⟨[oneProperty "base" "a" "0"]⟩ } {})
    [oneProperty "p" "a" "1", oneProperty "q" "b" "2", oneProperty "p" "c" "3"] rfl (by decide)
  have hq := honce (oneProperty "q" "b" "2") (by simp) (by decide)
  refine ⟨_, hrun, ?_, ?_, hq⟩
  · show ([oneProperty "base" "a" "0"] ++ grown).map (·.name) = _
    rw [List.map_append, hnames]
    decide
  · show ["p", "q", "p"].eraseDups = _
    decide

/-! ## A name that was added before -/

/-- The entry of a name that was added before answers with the new source, and otherwise with
what is left of its parts.  It loses nothing if no part bears the name under which the source
comes in. -/
theorem Run.addSource_joins {s : Run} {x present : PropertySource}
    (hadded : x.name ∈ s.addedSources)
    (hpresent : s.environment.sources.get? x.name = some present) :
    ∃ t entry, RunM.addSource x s = .ok () t ∧
      t.environment.sources.get? x.name = some entry ∧
      (∀ key, entry.get? key = (x.get? key).or (PropertySource.firstOf key
        (present.parts.filter (·.name != x.underResourceName.name)))) ∧
      ((∀ part ∈ present.parts, part.name ≠ x.underResourceName.name) →
        ∀ key, entry.get? key = (x.get? key).or (present.get? key)) := by
  have hpresentName : present.name = x.name := PropertySources.name_of_get? hpresent
  have hname : ∀ p : PropertySource, p.name = x.name → (present.joined x).name = x.name :=
    fun _ _ => hpresentName
  have hrun : RunM.addSource x s = .ok () { s with
      environment := { s.environment with
        sources := s.environment.sources.modify x.name fun _ => present.joined x } } := by
    rw [RunM.addSource_eq, PropertySources.accumulate_of_present hadded hpresent]
  have hentry : (s.environment.sources.modify x.name fun _ => present.joined x).get? x.name =
      some (present.joined x) := by
    rw [PropertySources.get?_modify_self hname, hpresent, Option.map_some]
  exact ⟨_, present.joined x, hrun, hentry, fun key => PropertySource.get?_joined key present x,
    fun hparts => PropertySource.get?_joined_of_forall_ne hparts⟩

set_option maxRecDepth 100000 in
/-- The properties of two resources under one name are all there. -/
theorem addSource_joins_resources :
    ∃ s t entry,
      RunM.addSource (.resource "p" "first" ⟨[("a", "1")]⟩) (Run.fresh {} {}) = .ok () s ∧
      RunM.addSource (.resource "p" "second" ⟨[("b", "2")]⟩) s = .ok () t ∧
      t.environment.sources.get? "p" = some entry ∧
      entry.get? "a" = some "1" ∧ entry.get? "b" = some "2" := by
  obtain ⟨t, entry, hrun, hentry, _, hall⟩ := Run.addSource_joins
    (s := { Run.fresh {} {} with
      environment := { sources := ⟨[.resource "p" "first" ⟨[("a", "1")]⟩]⟩ }
      addedSources := ["p"] })
    (x := .resource "p" "second" ⟨[("b", "2")]⟩) (by decide) rfl
  have hkeys := hall (by decide)
  refine ⟨_, t, entry, rfl, hrun, hentry, ?_, ?_⟩
  · rw [hkeys]
    decide
  · rw [hkeys]
    decide

/-- A class declares a property source, which its factory answers with a map. -/
def withFactory : World where
  resolver := {
    reader := { index := ⟨[{ name := "app.A", tags := [
      .mk WellKnown.propertySource [("value", .string "a"), ("factory", .classRef "app.F")]] }]⟩ }
    types := ⟨[{ info := { name := "app.F" }, maker := some {
      make := fun _ => .ok (.sourceFactory ⟨fun _ _ _ => .ok (oneProperty "p" "a" "1")⟩) } }]⟩ }

set_option maxRecDepth 100000 in
/-- A source of a name that was added before may lose what the entry of that name answered: of
two map sources of one name only the second is left. -/
theorem not_forall_addSource_shadows :
    ¬ ∀ (w : World) (s t : Run) (x present entry : PropertySource), Run.Reachable w s →
      x.name ∈ s.addedSources → s.environment.sources.get? x.name = some present →
      RunM.addSource x s = .ok () t → t.environment.sources.get? x.name = some entry →
      ∀ key, entry.get? key = (x.get? key).or (present.get? key) := by
  intro hall
  have hcheck : succeedsWith (fun s => s.addedSources.contains "p" &&
        (s.environment.sources.get? "p").any (·.get? "a" == some "1") &&
        succeedsWith (fun t => (t.environment.sources.get? "p").any (·.get? "a" == none))
          (RunM.addSource (oneProperty "p" "b" "2") s))
      (Run.parse withFactory (seedsOf ["app.A"]) (Run.fresh {} {})) = true := by
    decide +kernel
  obtain ⟨s, hparse, hs⟩ := exists_of_succeedsWith hcheck
  rw [Bool.and_eq_true, Bool.and_eq_true] at hs
  obtain ⟨⟨hadded, hbefore⟩, hafter⟩ := hs
  obtain ⟨t, hrun, hafter⟩ := exists_of_succeedsWith hafter
  obtain ⟨present, hpresent, hbefore⟩ := (Option.any_eq_true _ _).1 hbefore
  obtain ⟨entry, hentry, hafter⟩ := (Option.any_eq_true _ _).1 hafter
  have hreach : Run.Reachable withFactory s := by
    have h := Run.Reachable.after (.parse (seedsOf ["app.A"]))
      (Run.Reachable.fresh (w := withFactory) {} {})
    rw [Run.Call.after, show Run.Call.run withFactory _ = Run.parse withFactory _ from rfl,
      hparse] at h
    exact h
  have hlaw := hall withFactory s t (oneProperty "p" "b" "2") present entry hreach
    (List.contains_iff_mem.1 hadded) hpresent hrun hentry "a"
  rw [beq_iff_eq.1 hafter, beq_iff_eq.1 hbefore] at hlaw
  exact nomatch hlaw

end Wiring
