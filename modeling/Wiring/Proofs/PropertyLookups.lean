import Mathlib.Data.List.Induction
import Wiring.Property.Loading

/-!
# Looking up a property

A key that is given several values has the last of them, and stands where it was first.  The value
is found by going through the entries from the end, in the pairs that are left when each key is kept
once, and in the property source that holds these pairs: the three agree.
-/

namespace Wiring

namespace OrderedMap

variable {α : Type u} {β : Type v} [DecidableEq α]

theorem lookup_eq (k : α) (es : List (α × β)) : lookup k es = es.lookup k := by
  induction es with
  | nil => rfl
  | cons e es ih =>
    rw [lookup, List.lookup_cons, ih]
    by_cases h : e.1 = k
    · rw [if_pos h, h, beq_self_eq_true]
    · rw [if_neg h, beq_eq_false_iff_ne.2 (Ne.symm h)]

theorem ofList_concat (es : List (α × β)) (e : α × β) :
    ofList (es ++ [e]) = (ofList es).insert e.1 e.2 := by
  rw [ofList, List.foldl_append]
  rfl

/-- The keys, each where it is given first. -/
theorem keys_ofList (es : List (α × β)) : (ofList es).keys = (es.map (·.1)).eraseDups := by
  induction es using List.reverseRecOn with
  | nil => rfl
  | append_singleton es e ih =>
    simp only [ofList_concat, keys_insert, ih, List.map_append, List.map_cons, List.map_nil,
      eraseDups_concat, List.mem_eraseDups]

theorem nodup_keys_ofList (es : List (α × β)) : (ofList es).keys.Nodup := by
  induction es using List.reverseRecOn with
  | nil => exact .nil
  | append_singleton es e ih =>
    rw [ofList_concat]
    exact nodup_keys_insert ih e.1 e.2

/-- The last value that a key is given. -/
theorem get?_ofList (es : List (α × β)) (k : α) :
    (ofList es).get? k = (es.reverse.find? (·.1 = k)).map (·.2) := by
  induction es using List.reverseRecOn with
  | nil => rfl
  | append_singleton es e ih =>
    rw [ofList_concat, List.reverse_concat, List.find?_cons]
    by_cases h : e.1 = k
    · simp [h]
    · rw [get?_insert_of_ne _ h, ih]
      simp [h]

end OrderedMap

namespace Properties

theorem get?_toMap (es : List Entry) (key : String) : (toMap es).get? key = get? es key := by
  rw [toMap, OrderedMap.get?_ofList, get?, ← List.map_reverse, List.find?_map, Option.map_map]
  rfl

theorem keys_toMap (es : List Entry) : (toMap es).keys = (es.map (·.key)).eraseDups := by
  rw [toMap, OrderedMap.keys_ofList, List.map_map]
  rfl

theorem nodup_keys_toMap (es : List Entry) : (toMap es).keys.Nodup :=
  OrderedMap.nodup_keys_ofList _

/-- Pairs that are collected once more stay as they are. -/
theorem ofList_toMap (es : List Entry) : OrderedMap.ofList (toMap es).entries = toMap es :=
  congrArg OrderedMap.mk (OrderedMap.entries_ofList (nodup_keys_toMap es))

end Properties

theorem PropertySource.get?_ofText (name resourceName text key : String) :
    (PropertySource.ofText name resourceName text).get? key =
      Properties.get? (Properties.entries text) key := by
  rw [PropertySource.ofText, PropertySource.get?, Properties.get?_toMap]

theorem PropertySource.load_eq {name encoding : Option String} {resource : Resource}
    {bytes : Bytes} {text : String} (hbytes : resource.contents = .ok bytes)
    (htext : decode encoding bytes = .ok text) : PropertySource.load name encoding resource =
      .ok (.ofText (name.getD resource.description) resource.description text) := by
  rw [PropertySource.load, hbytes]
  show (decode encoding bytes >>= _) = _
  rw [htext]
  rfl

namespace Properties

/-- A key is found with one value in the entries, in their pairs and in a property source of the
text, whatever the bytes and the encoding that it was decoded from.  The keys of the pairs are those
of the entries in the order in which they are first given, and none is there twice. -/
theorem lookups_agree (text key : String) :
    (toMap (entries text)).entries.lookup key = get? (entries text) key ∧
      (∀ (name encoding : Option String) (resource : Resource) (bytes : Bytes),
        resource.contents = .ok bytes → decode encoding bytes = .ok text →
          ∃ s, PropertySource.load name encoding resource = .ok s ∧
            s.get? key = get? (entries text) key) ∧
      OrderedMap.ofList (toMap (entries text)).entries = toMap (entries text) ∧
      (toMap (entries text)).keys.Nodup ∧
      (toMap (entries text)).keys = ((entries text).map (·.key)).eraseDups ∧
      ∀ k, k ∈ (toMap (entries text)).keys ↔ ∃ e ∈ entries text, e.key = k := by
  refine ⟨?_, fun name encoding resource bytes hbytes htext => ?_, ofList_toMap _,
    nodup_keys_toMap _, keys_toMap _, fun k => ?_⟩
  · rw [← OrderedMap.lookup_eq]
    exact get?_toMap _ key
  · exact ⟨_, PropertySource.load_eq hbytes htext, PropertySource.get?_ofText _ _ text key⟩
  · rw [keys_toMap, List.mem_eraseDups, List.mem_map]

/-- A key with two values, and one outside of ASCII, from bytes in Latin 1. -/
theorem lookups_agree_latin1 :
    let bytes : Bytes := [97, 61, 49, 10, 233, 61, 50, 10, 97, 32, 51]
    decode none bytes = .ok "a=1\né=2\na 3" ∧
      (∃ s, PropertySource.load none none ⟨"memory", .ok bytes⟩ = .ok s ∧ s.get? "a" = some "3") ∧
      (toMap (entries "a=1\né=2\na 3")).entries.lookup "a" = some "3" ∧
      (toMap (entries "a=1\né=2\na 3")).keys = ["a", "é"] ∧
      ∃ e ∈ entries "a=1\né=2\na 3", e.key = "é" := by
  intro bytes
  have htext : decode none bytes = .ok "a=1\né=2\na 3" := congrArg Except.ok (by decide +kernel)
  have hget : get? (entries "a=1\né=2\na 3") "a" = some "3" := by decide +kernel
  obtain ⟨hlookup, hload, -, -, hkeys, hmem⟩ := lookups_agree "a=1\né=2\na 3" "a"
  have hkeys : (toMap (entries "a=1\né=2\na 3")).keys = ["a", "é"] :=
    hkeys.trans (by decide +kernel)
  rw [hget] at hlookup hload
  exact ⟨htext, hload none none ⟨"memory", .ok bytes⟩ bytes rfl htext, hlookup, hkeys,
    (hmem "é").1 (by rw [hkeys]; decide)⟩

end Properties
end Wiring
