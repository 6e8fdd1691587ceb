/-!
# Maps that remember insertion order

The order of the entries is part of every answer, so a map is the list of its entries.
A key keeps the position of its first insertion and takes the value of its last.
-/

namespace Wiring

structure OrderedMap (α : Type u) (β : Type v) where
  entries : List (α × β) := []
deriving Repr, DecidableEq, Inhabited

namespace OrderedMap

variable {α : Type u} {β : Type v} [DecidableEq α]

def keys (m : OrderedMap α β) : List α := m.entries.map (·.1)

def values (m : OrderedMap α β) : List β := m.entries.map (·.2)

def size (m : OrderedMap α β) : Nat := m.entries.length

def isEmpty (m : OrderedMap α β) : Bool := m.entries.isEmpty

/-- The value of the first entry for `k` in a list of entries. -/
def lookup (k : α) : List (α × β) → Option β
  | [] => none
  | (k', v) :: es => if k' = k then some v else lookup k es

def get? (m : OrderedMap α β) (k : α) : Option β := lookup k m.entries

def contains (m : OrderedMap α β) (k : α) : Bool := (m.get? k).isSome

/-- Sets the value of the first entry for `k`, or appends an entry. -/
def put (k : α) (v : β) : List (α × β) → List (α × β)
  | [] => [(k, v)]
  | (k', v') :: es => if k' = k then (k', v) :: es else (k', v') :: put k v es

def insert (m : OrderedMap α β) (k : α) (v : β) : OrderedMap α β := ⟨put k v m.entries⟩

/-- Appends an entry unless the key is present. -/
def insertIfNew (m : OrderedMap α β) (k : α) (v : β) : OrderedMap α β :=
  if m.contains k then m else ⟨m.entries ++ [(k, v)]⟩

/-- Removes the entry of `k`; the later entries move up. -/
def erase (m : OrderedMap α β) (k : α) : OrderedMap α β :=
  ⟨m.entries.eraseP fun e => e.1 = k⟩

/-- Applies `f` to the value of `k`, where there is one. -/
def modify (m : OrderedMap α β) (k : α) (f : β → β) : OrderedMap α β :=
  match m.get? k with
  | some v => m.insert k (f v)
  | none => m

def ofList (es : List (α × β)) : OrderedMap α β :=
  es.foldl (fun (m : OrderedMap α β) (e : α × β) => m.insert e.1 e.2) {}

theorem lookup_put_self (k : α) (v : β) (es : List (α × β)) :
    lookup k (put k v es) = some v := by
  induction es with
  | nil => simp [put, lookup]
  | cons e es ih =>
    by_cases h : e.1 = k
    · simp [put, lookup, h]
    · simp [put, lookup, h, ih]

theorem lookup_put_of_ne {k k' : α} (hk : k' ≠ k) (v : β) (es : List (α × β)) :
    lookup k (put k' v es) = lookup k es := by
  induction es with
  | nil => simp [put, lookup, hk]
  | cons e es ih =>
    by_cases h : e.1 = k'
    · simp [put, lookup, h, hk]
    · simp [put, lookup, h, ih]

@[simp] theorem get?_insert_self (m : OrderedMap α β) (k : α) (v : β) :
    (m.insert k v).get? k = some v := lookup_put_self k v m.entries

theorem get?_insert_of_ne (m : OrderedMap α β) {k k' : α} (hk : k' ≠ k) (v : β) :
    (m.insert k' v).get? k = m.get? k := lookup_put_of_ne hk v m.entries

/-- Inserting at a present key leaves the keys as they are; at a new one it appends the key. -/
theorem keys_put (k : α) (v : β) (es : List (α × β)) :
    (put k v es).map (·.1) =
      if k ∈ es.map (·.1) then es.map (·.1) else es.map (·.1) ++ [k] := by
  induction es with
  | nil => simp [put]
  | cons e es ih =>
    by_cases h : e.1 = k
    · simp [put, h]
    · have hk : ¬ k = e.1 := fun hk => h hk.symm
      simp only [put, h, if_false, List.map_cons, ih, List.mem_cons, hk, false_or]
      split <;> rfl

theorem keys_insert (m : OrderedMap α β) (k : α) (v : β) :
    (m.insert k v).keys = if k ∈ m.keys then m.keys else m.keys ++ [k] :=
  keys_put k v m.entries

theorem lookup_eq_none_iff {k : α} {es : List (α × β)} :
    lookup k es = none ↔ k ∉ es.map (·.1) := by
  induction es with
  | nil => simp [lookup]
  | cons e es ih =>
    by_cases h : e.1 = k
    · simp [lookup, h]
    · have hk : ¬ k = e.1 := fun hk => h hk.symm
      rw [lookup, if_neg h, ih, List.map_cons, List.mem_cons, not_or]
      exact ⟨fun hm => ⟨hk, hm⟩, fun hm => hm.2⟩

theorem contains_iff {m : OrderedMap α β} {k : α} : m.contains k = true ↔ k ∈ m.keys := by
  rw [contains, Option.isSome_iff_ne_none, ne_eq, get?, lookup_eq_none_iff]
  exact Decidable.not_not

theorem contains_insert_iff {m : OrderedMap α β} {k k' : α} {v : β} :
    (m.insert k v).contains k' = true ↔ k' = k ∨ m.contains k' = true := by
  by_cases h : k = k'
  · subst h
    rw [contains, get?_insert_self]
    simp
  · have hk : ¬ k' = k := fun hk => h hk.symm
    rw [contains, get?_insert_of_ne m h, ← contains]
    simp [hk]

theorem mem_of_lookup {k : α} {v : β} {es : List (α × β)} (h : lookup k es = some v) :
    (k, v) ∈ es := by
  induction es with
  | nil => cases h
  | cons e es ih =>
    rw [lookup] at h
    split at h
    · rename_i hk
      obtain rfl := Option.some.inj h
      rw [← hk]
      exact List.mem_cons_self
    · exact List.mem_cons_of_mem _ (ih h)

theorem mem_entries_of_get? {m : OrderedMap α β} {k : α} {v : β} (h : m.get? k = some v) :
    (k, v) ∈ m.entries := mem_of_lookup h

theorem mem_of_mem_put {k : α} {v : β} {e : α × β} {es : List (α × β)} (h : e ∈ put k v es) :
    e ∈ es ∨ e = (k, v) := by
  induction es with
  | nil =>
    rw [put, List.mem_singleton] at h
    exact .inr h
  | cons e' es ih =>
    rw [put] at h
    split at h
    · rename_i hk
      obtain rfl | h := List.mem_cons.1 h
      · rw [hk]
        exact .inr rfl
      · exact .inl (List.mem_cons_of_mem _ h)
    · obtain rfl | h := List.mem_cons.1 h
      · exact .inl List.mem_cons_self
      · obtain h | h := ih h
        · exact .inl (List.mem_cons_of_mem _ h)
        · exact .inr h

theorem nodup_keys_insert {m : OrderedMap α β} (h : m.keys.Nodup) (k : α) (v : β) :
    (m.insert k v).keys.Nodup := by
  rw [keys_insert]
  split
  · exact h
  · rename_i hk
    rw [List.nodup_append]
    refine ⟨h, by simp, ?_⟩
    intro a ha b hb hab
    rw [List.mem_singleton] at hb
    rw [hab, hb] at ha
    exact hk ha

theorem get?_insert_of_free {m : OrderedMap α β} {k k' : α} {v : β} (h : m.get? k = some v)
    (hfree : m.contains k' = false) (v' : β) : (m.insert k' v').get? k = some v := by
  have hne : k' ≠ k := by
    rintro rfl
    rw [contains, h] at hfree
    cases hfree
  exact (get?_insert_of_ne m hne v').trans h

theorem lookup_map {γ : Type w} (f : β → γ) (k : α) (es : List (α × β)) :
    lookup k (es.map fun e => (e.1, f e.2)) = (lookup k es).map f := by
  induction es with
  | nil => rfl
  | cons e es ih =>
    rw [List.map_cons, lookup, lookup]
    split
    · rfl
    · exact ih

/-- What is looked up is mapped with the values. -/
theorem get?_map {γ : Type w} (m : OrderedMap α β) (f : β → γ) (k : α) :
    get? ⟨m.entries.map fun e => (e.1, f e.2)⟩ k = (m.get? k).map f := lookup_map f k m.entries

/-! Erasing -/

theorem lookup_eraseP_of_ne {k k' : α} (hk : k' ≠ k) (es : List (α × β)) :
    lookup k (es.eraseP fun e => e.1 = k') = lookup k es := by
  induction es with
  | nil => rfl
  | cons e es ih =>
    by_cases h : e.1 = k'
    · simp [lookup, h, hk]
    · simp [lookup, h, ih]

theorem get?_erase_of_ne (m : OrderedMap α β) {k k' : α} (hk : k' ≠ k) :
    (m.erase k').get? k = m.get? k := lookup_eraseP_of_ne hk m.entries

theorem keys_erase_sublist (m : OrderedMap α β) (k : α) : (m.erase k).keys.Sublist m.keys :=
  List.eraseP_sublist.map _

theorem lookup_eraseP_self {k : α} {es : List (α × β)} (h : (es.map (·.1)).Nodup) :
    lookup k (es.eraseP fun e => e.1 = k) = none := by
  induction es with
  | nil => rfl
  | cons e es ih =>
    rw [List.map_cons, List.nodup_cons] at h
    by_cases hk : e.1 = k
    · subst hk
      simp only [List.eraseP_cons, decide_true, cond_true]
      exact lookup_eq_none_iff.2 h.1
    · simp [lookup, hk, ih h.2]

/-- Only the first entry of a key is erased, so its keys have to be distinct. -/
theorem get?_erase_self {m : OrderedMap α β} (h : m.keys.Nodup) (k : α) :
    (m.erase k).get? k = none := lookup_eraseP_self h

theorem ne_of_mem_erase {m : OrderedMap α β} (h : m.keys.Nodup) {k : α} {e : α × β}
    (he : e ∈ (m.erase k).entries) : e.1 ≠ k := by
  rintro rfl
  exact lookup_eq_none_iff.1 (get?_erase_self h e.1) (List.mem_map_of_mem he)

/-- What is looked up stays if its entry stays. -/
theorem get?_filter {m : OrderedMap α β} {k : α} {v : β} (h : m.get? k = some v)
    {p : α × β → Bool} (hp : p (k, v) = true) : get? ⟨m.entries.filter p⟩ k = some v := by
  rw [get?] at h ⊢
  generalize m.entries = es at h ⊢
  induction es with
  | nil => cases h
  | cons e es ih =>
    rw [lookup] at h
    by_cases hk : e.1 = k
    · rw [if_pos hk] at h
      obtain rfl := Option.some.inj h
      have he : p e = true := by
        rw [← hk] at hp
        exact hp
      rw [List.filter_cons_of_pos he, lookup, if_pos hk]
    · rw [if_neg hk] at h
      rw [List.filter_cons]
      split
      · rw [lookup, if_neg hk]
        exact ih h
      · exact ih h

/-- With distinct keys, what is looked up depends on the entry of the key alone. -/
theorem get?_filter_of_nodup {m : OrderedMap α β} (h : m.keys.Nodup) (p : α × β → Bool) (k : α) :
    get? ⟨m.entries.filter p⟩ k = (m.get? k).filter fun v => p (k, v) := by
  rw [keys] at h
  rw [get?, get?]
  generalize m.entries = es at h ⊢
  induction es with
  | nil => rfl
  | cons e es ih =>
    rw [List.map_cons, List.nodup_cons] at h
    obtain ⟨hfresh, h⟩ := h
    by_cases hk : e.1 = k
    · subst hk
      have hnone : lookup e.1 (es.filter p) = none := by
        refine lookup_eq_none_iff.2 fun hmem => hfresh ?_
        exact (List.filter_sublist.map _).subset hmem
      rw [lookup, if_pos rfl, Option.filter_some]
      cases hp : p e with
      | true => rw [List.filter_cons_of_pos hp, lookup, if_pos rfl, if_pos rfl]
      | false =>
        rw [List.filter_cons_of_neg (by simp [hp]), if_neg (by simp)]
        exact hnone
    · rw [lookup, if_neg hk, List.filter_cons]
      split
      · rw [lookup, if_neg hk]
        exact ih h
      · exact ih h

/-! Modifying -/

theorem get?_modify_self (m : OrderedMap α β) (k : α) (f : β → β) :
    (m.modify k f).get? k = (m.get? k).map f := by
  rw [modify]
  split
  · rename_i v h
    rw [get?_insert_self, h, Option.map_some]
  · rename_i h
    rw [h, Option.map_none]

theorem get?_modify_of_ne (m : OrderedMap α β) {k k' : α} (hk : k' ≠ k) (f : β → β) :
    (m.modify k' f).get? k = m.get? k := by
  rw [modify]
  split
  · exact get?_insert_of_ne m hk _
  · rfl

theorem keys_modify (m : OrderedMap α β) (k : α) (f : β → β) : (m.modify k f).keys = m.keys := by
  rw [modify]
  split
  · rename_i v h
    rw [keys_insert, if_pos]
    rw [← contains_iff, contains, h]
    rfl
  · rfl

theorem size_modify (m : OrderedMap α β) (k : α) (f : β → β) : (m.modify k f).size = m.size := by
  have hkeys := congrArg List.length (m.keys_modify k f)
  rwa [keys, keys, List.length_map, List.length_map] at hkeys

theorem map_of_not_mem {k : α} {es : List (α × β)} (h : k ∉ es.map (·.1)) (f : β → β) :
    es.map (fun e => if e.1 = k then (e.1, f e.2) else e) = es := by
  refine (List.map_congr_left fun e he => if_neg fun hk => h ?_).trans (List.map_id es)
  rw [← hk]
  exact List.mem_map_of_mem he

theorem put_lookup {k : α} {v : β} {f : β → β} {es : List (α × β)} (hes : (es.map (·.1)).Nodup)
    (h : lookup k es = some v) :
    put k (f v) es = es.map fun e => if e.1 = k then (e.1, f e.2) else e := by
  induction es with
  | nil => cases h
  | cons e es ih =>
    rw [List.map_cons, List.nodup_cons] at hes
    rw [lookup] at h
    by_cases hk : e.1 = k
    · rw [if_pos hk] at h
      obtain rfl := Option.some.inj h
      rw [put, if_pos hk, List.map_cons, if_pos hk, map_of_not_mem (hk ▸ hes.1)]
    · rw [if_neg hk] at h
      rw [put, if_neg hk, List.map_cons, if_neg hk, ih hes.2 h]

/-- Where keys are distinct, exactly the entry of the key is changed. -/
theorem entries_modify {m : OrderedMap α β} (h : m.keys.Nodup) (k : α) (f : β → β) :
    (m.modify k f).entries = m.entries.map fun e => if e.1 = k then (e.1, f e.2) else e := by
  rw [modify]
  split
  · rename_i v hv
    exact put_lookup h hv
  · rename_i hnone
    exact (map_of_not_mem (lookup_eq_none_iff.1 hnone) f).symm

theorem mem_of_mem_modify {m : OrderedMap α β} {k : α} {f : β → β} {e : α × β}
    (h : e ∈ (m.modify k f).entries) :
    e ∈ m.entries ∨ ∃ v, m.get? k = some v ∧ e = (k, f v) := by
  rw [modify] at h
  split at h
  · rename_i v hv
    exact (mem_of_mem_put h).imp_right fun he => ⟨v, hv, he⟩
  · exact .inl h

/-! Inserting what is new -/

theorem mem_keys_insertIfNew {m : OrderedMap α β} {k a : α} {v : β} :
    a ∈ (m.insertIfNew k v).keys ↔ a ∈ m.keys ∨ a = k := by
  rw [insertIfNew]
  split
  · rename_i h
    constructor
    · exact .inl
    · rintro (h' | rfl)
      · exact h'
      · exact contains_iff.1 h
  · simp [keys]

theorem prefix_insertIfNew {m : OrderedMap α β} {k : α} {v : β} :
    m.entries <+: (m.insertIfNew k v).entries := by
  rw [insertIfNew]
  split
  · exact List.prefix_rfl
  · exact List.prefix_append _ _

theorem mem_of_mem_insertIfNew {m : OrderedMap α β} {k : α} {v : β} {e : α × β}
    (h : e ∈ (m.insertIfNew k v).entries) : e ∈ m.entries ∨ e = (k, v) := by
  rw [insertIfNew] at h
  split at h
  · exact .inl h
  · exact (List.mem_append.1 h).imp_right List.mem_singleton.1

theorem nodup_keys_insertIfNew {m : OrderedMap α β} {k : α} {v : β} (h : m.keys.Nodup) :
    (m.insertIfNew k v).keys.Nodup := by
  rw [insertIfNew]
  split
  · exact h
  · rename_i hfresh
    have hkeys : keys ⟨m.entries ++ [(k, v)]⟩ = m.keys ++ [k] := List.map_append
    rw [hkeys, (List.perm_append_singleton k m.keys).nodup_iff, List.nodup_cons]
    exact ⟨mt contains_iff.2 hfresh, h⟩

theorem mem_keys_foldl_insertIfNew {es : List (α × β)} {m : OrderedMap α β} {a : α} :
    a ∈ (es.foldl (fun m e => m.insertIfNew e.1 e.2) m).keys ↔ a ∈ m.keys ∨ a ∈ es.map (·.1) := by
  induction es generalizing m with
  | nil => simp
  | cons e es ih =>
    rw [List.foldl_cons, ih, mem_keys_insertIfNew, List.map_cons, List.mem_cons, or_assoc]

/-! A map from a list of entries -/

theorem put_of_not_mem {k : α} {es : List (α × β)} (h : k ∉ es.map (·.1)) (v : β) :
    put k v es = es ++ [(k, v)] := by
  induction es with
  | nil => rfl
  | cons e es ih =>
    rw [List.map_cons, List.mem_cons, not_or] at h
    rw [put, if_neg fun hk => h.1 hk.symm, ih h.2, List.cons_append]

theorem entries_insert_of_not_mem {m : OrderedMap α β} {k : α} (h : k ∉ m.keys) (v : β) :
    (m.insert k v).entries = m.entries ++ [(k, v)] := put_of_not_mem h v

theorem values_insert_of_not_mem {m : OrderedMap α β} {k : α} (h : k ∉ m.keys) (v : β) :
    (m.insert k v).values = m.values ++ [v] := by
  rw [values, entries_insert_of_not_mem h, List.map_append]
  rfl

theorem size_insert_of_not_mem {m : OrderedMap α β} {k : α} (h : k ∉ m.keys) (v : β) :
    (m.insert k v).size = m.size + 1 := by
  rw [size, entries_insert_of_not_mem h, List.length_append]
  rfl

theorem entries_foldl_insert {es : List (α × β)} {m : OrderedMap α β}
    (h : (m.keys ++ es.map (·.1)).Nodup) :
    (es.foldl (fun m e => m.insert e.1 e.2) m).entries = m.entries ++ es := by
  induction es generalizing m with
  | nil => rw [List.foldl_nil, List.append_nil]
  | cons e es ih =>
    have hfresh : e.1 ∉ m.keys := fun hmem =>
      (List.nodup_append.1 h).2.2 e.1 hmem e.1 (List.mem_map_of_mem List.mem_cons_self) rfl
    rw [List.foldl_cons, ih, entries_insert_of_not_mem hfresh, List.append_assoc,
      List.singleton_append]
    rw [keys_insert, if_neg hfresh, List.append_assoc, List.singleton_append]
    exact h

/-- Entries with distinct keys stay as they are listed. -/
theorem entries_ofList {es : List (α × β)} (h : (es.map (·.1)).Nodup) :
    (ofList es).entries = es :=
  entries_foldl_insert h

end OrderedMap

/-! Names in a list, each once -/

theorem eraseDups_concat {α : Type u} [BEq α] [LawfulBEq α] (as : List α) (a : α) :
    (as ++ [a]).eraseDups = if a ∈ as then as.eraseDups else as.eraseDups ++ [a] := by
  rw [List.eraseDups_append, List.removeAll]
  by_cases h : a ∈ as
  · simp [h]
  · simp [h, List.eraseDups_cons]

end Wiring
