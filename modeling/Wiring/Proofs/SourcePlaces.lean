import Mathlib.Data.List.Nodup
import Wiring.Proofs.SourceCalls

/-!
# Where sources are placed

A source is added first, last, or next to another one.  One that is there already moves: it is
taken out before the other one is looked for, so the place is right whichever side it came from.
The sources of other names stay as they are and in their order, and each key is answered in the
order that results.
-/

namespace Wiring

namespace PropertySource

mutual

/-- The properties that a source consults, in the order in which it does. -/
def tables : PropertySource → List (OrderedMap String String)
  | map _ properties => [properties]
  | resource _ _ properties => [properties]
  | composite _ members => tablesOf members

def tablesOf : List PropertySource → List (OrderedMap String String)
  | [] => []
  | s :: ss => s.tables ++ tablesOf ss

end

mutual

theorem get?_eq_findSome? (key : String) :
    ∀ s : PropertySource, s.get? key = s.tables.findSome? (·.get? key)
  | map _ properties => by
    rw [get?, tables, List.findSome?_singleton]
  | resource _ _ properties => by
    rw [get?, tables, List.findSome?_singleton]
  | composite _ members => by
    rw [get?, tables]
    exact firstOf_eq_findSome? key members

/-- Members of members included, the first properties that have the key answer it. -/
theorem firstOf_eq_findSome? (key : String) :
    ∀ ss : List PropertySource, firstOf key ss = (tablesOf ss).findSome? (·.get? key)
  | [] => by rw [firstOf, tablesOf, List.findSome?_nil]
  | s :: ss => by
    rw [firstOf_cons, tablesOf, List.findSome?_append, get?_eq_findSome? key s,
      firstOf_eq_findSome? key ss]

end

end PropertySource

/-- Where a source is added. -/
inductive SourcePlace where
  | first
  | last
  | before (anchor : String)
  | behind (anchor : String)

namespace SourcePlace

/-- The call that adds a source at the place. -/
def call (s : PropertySource) : SourcePlace → SourceCall
  | first => .addFirst s
  | last => .addLast s
  | before anchor => .addBefore anchor s
  | behind anchor => .addAfter anchor s

/-- The source that the place is next to, if it is next to one, is there and is another one. -/
def IsThere (ps : PropertySources) (s : PropertySource) : SourcePlace → Prop
  | first | last => True
  | before anchor | behind anchor => anchor ≠ s.name ∧ anchor ∈ ps.names

/-- What is between `front` and `back` is at the place. -/
def IsBetween (front back : List PropertySource) : SourcePlace → Prop
  | first => front = []
  | last => back = []
  | before anchor => back.head?.map (·.name) = some anchor
  | behind anchor => front.getLast?.map (·.name) = some anchor

end SourcePlace

namespace PropertySources

variable {ps : PropertySources} {anchor name : String} {s : PropertySource} {place : SourcePlace}
  {around : PropertySource → List PropertySource}

/-- The sources of other names. -/
def others (ps : PropertySources) (name : String) : List PropertySource :=
  ps.sources.filter (·.name != name)

theorem others_of_notMem (h : name ∉ ps.names) : ps.others name = ps.sources :=
  List.filter_eq_self.2 fun p hp => bne_iff_ne.2 fun hname => h (List.mem_map.2 ⟨p, hp, hname⟩)

/-- With distinct names, taking out a name leaves the others. -/
theorem sources_erase (h : ps.names.Nodup) : (ps.erase name).sources = ps.others name := by
  by_cases hname : name ∈ ps.names
  · obtain ⟨before, lost, after, hsplit, hlost, herase⟩ := exists_erase_eq hname
    have hfresh : name ∉ (ps.erase name).names := by
      rw [names_erase]
      exact h.not_mem_erase
    have hlostOut : (lost.name != name) = false := bne_eq_false_iff_eq.2 hlost
    rw [← others_of_notMem hfresh, others, others, herase, hsplit, List.filter_append,
      List.filter_append, List.filter_cons_of_neg (by simp [hlostOut])]
  · rw [erase_of_notMem hname, others_of_notMem hname]

/-- Placing a source next to another one puts both in the position of that one among the others. -/
theorem exists_place_eq (h : ps.names.Nodup) (around : PropertySource → List PropertySource)
    (hne : anchor ≠ s.name) (hanchor : anchor ∈ ps.names) :
    ∃ front a back, ps.others s.name = front ++ a :: back ∧ a.name = anchor ∧
      ps.place anchor s around = (⟨front ++ around a ++ back⟩, .ok ()) := by
  have hrest : anchor ∈ (ps.erase s.name).names := mem_map_name_eraseP hne hanchor
  obtain ⟨front, a, back, hsplit, ha, -, hsplice⟩ := exists_splice_eq around hrest
  refine ⟨front, a, back, (sources_erase h).symm.trans hsplit, ha, ?_⟩
  rw [place_of_mem hne hanchor, hsplice]

theorem place_eq_ok_iff :
    (ps.place anchor s around).2 = .ok () ↔ anchor ≠ s.name ∧ anchor ∈ ps.names := by
  constructor
  · intro hok
    by_contra hno
    by_cases hne : anchor = s.name
    · rw [place, if_pos hne] at hok
      cases hok
    · rw [place_of_notMem hne fun hanchor => hno ⟨hne, hanchor⟩] at hok
      cases hok
  · rintro ⟨hne, hanchor⟩
    rw [place_of_mem hne hanchor]

/-- A source can be added at each place that is there. -/
theorem perform_call_eq_ok_iff :
    (ps.perform (place.call s)).2 = .ok () ↔ place.IsThere ps s := by
  cases place with
  | first => exact iff_of_true rfl trivial
  | last => exact iff_of_true rfl trivial
  | before anchor => exact place_eq_ok_iff
  | behind anchor => exact place_eq_ok_iff

/-- The source that is added comes between others, and to the place that was asked for. -/
theorem exists_sources_perform_call (h : ps.names.Nodup) (hthere : place.IsThere ps s) :
    ∃ front back, (ps.perform (place.call s)).1.sources = front ++ s :: back ∧
      ps.others s.name = front ++ back ∧ place.IsBetween front back := by
  cases place with
  | first => exact ⟨[], ps.others s.name, congrArg (s :: ·) (sources_erase h), rfl, rfl⟩
  | last =>
    exact ⟨ps.others s.name, [], congrArg (· ++ [s]) (sources_erase h),
      (List.append_nil _).symm, rfl⟩
  | before anchor =>
    obtain ⟨front, a, back, hothers, ha, hplace⟩ :=
      exists_place_eq h (fun a => [s, a]) hthere.1 hthere.2
    refine ⟨front, a :: back, ?_, hothers, congrArg some ha⟩
    show (ps.place anchor s _).1.sources = _
    rw [hplace, List.append_assoc]
    rfl
  | behind anchor =>
    obtain ⟨front, a, back, hothers, ha, hplace⟩ :=
      exists_place_eq h (fun a => [a, s]) hthere.1 hthere.2
    refine ⟨front ++ [a], back, ?_, ?_, ?_⟩
    · show (ps.place anchor s _).1.sources = _
      rw [hplace, List.append_assoc, List.append_assoc]
      rfl
    · rw [hothers, List.append_assoc, List.singleton_append]
    · rw [SourcePlace.IsBetween, List.getLast?_concat, Option.map_some, ha]

/-- Adding a source succeeds exactly if the place is there.  The source is then at that place and
nowhere else, around it are the sources of other names as they were, and what answers a key is the
first in that order to have it. -/
theorem adds_at_place (h : ps.names.Nodup) (place : SourcePlace) (s : PropertySource) :
    ((ps.perform (place.call s)).2 = .ok () ↔ place.IsThere ps s) ∧
      ((ps.perform (place.call s)).2 = .ok () →
        ∃ front back, (ps.perform (place.call s)).1.sources = front ++ s :: back ∧
          place.IsBetween front back ∧ front ++ back = ps.others s.name ∧
          (ps.perform (place.call s)).1.names.count s.name = 1 ∧
          ∀ key, (ps.perform (place.call s)).1.property? key =
            (PropertySource.tablesOf (front ++ s :: back)).findSome? (·.get? key)) := by
  refine ⟨perform_call_eq_ok_iff, fun hok => ?_⟩
  obtain ⟨front, back, hsources, hothers, hbetween⟩ :=
    exists_sources_perform_call h (perform_call_eq_ok_iff.1 hok)
  have hnodup : (ps.perform (place.call s)).1.names.Nodup :=
    (nodup_perform_iff h).2 (by cases place <;> exact id)
  have hmem : s.name ∈ (ps.perform (place.call s)).1.names := by
    rw [names, hsources]
    exact List.mem_map_of_mem (List.mem_append_right _ List.mem_cons_self)
  refine ⟨front, back, hsources, hbetween, hothers.symm, List.count_eq_one_of_mem hnodup hmem, ?_⟩
  intro key
  rw [property?, hsources, PropertySource.firstOf_eq_findSome?]

/-- A source with members of members. -/
def nested : PropertySource := .composite "app" [.composite "inner" [.map "own" ⟨[("k", "1")]⟩]]

def stacked : PropertySources where
  sources := [nested, .map "system" ⟨[("k", "2")]⟩, .map "defaults" ⟨[("k", "3")]⟩]

/-- A source moves from before another one to behind it. -/
theorem adds_at_place_behind :
    stacked.names.Nodup ∧ (stacked.perform (.addAfter "system" nested)).2 = .ok () ∧
      ∃ front back,
        (stacked.perform (.addAfter "system" nested)).1.sources = front ++ nested :: back ∧
          front.getLast?.map (·.name) = some "system" ∧ front ++ back = stacked.others "app" ∧
          (stacked.perform (.addAfter "system" nested)).1.names.count "app" = 1 ∧
          ∀ key, (stacked.perform (.addAfter "system" nested)).1.property? key =
            (PropertySource.tablesOf (front ++ nested :: back)).findSome? (·.get? key) := by
  have hnodup : stacked.names.Nodup := by decide +kernel
  obtain ⟨hiff, hplace⟩ := adds_at_place hnodup (.behind "system") nested
  have hok := hiff.2 ⟨by decide +kernel, by decide +kernel⟩
  exact ⟨hnodup, hok, hplace hok⟩

end PropertySources
end Wiring
