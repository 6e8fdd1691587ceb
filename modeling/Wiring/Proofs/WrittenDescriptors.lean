import Mathlib.Data.List.Forall2
import Wiring.Metadata.Descriptor
import Wiring.Proofs.PrintedJson

/-!
# Reading a written descriptor

Reading counts down the brackets that may still be opened, and every bracket that writing opens
is counted once.  So a value is read back wherever it has no more brackets inside each other than
are left.
-/

namespace Wiring

namespace Json

mutual

/-- How many brackets the value has inside each other. -/
def depth : Json → Nat
  | .arr js => depths js + 1
  | .obj fields => fieldDepths fields + 1
  | _ => 0

def depths : List Json → Nat
  | [] => 0
  | j :: js => max j.depth (depths js)

def fieldDepths : List (String × Json) → Nat
  | [] => 0
  | (_, j) :: fields => max j.depth (fieldDepths fields)

end

theorem depths_le {js : List Json} {n : Nat} : depths js ≤ n ↔ ∀ j ∈ js, j.depth ≤ n := by
  induction js with
  | nil => simp [depths]
  | cons j js ih => rw [depths, Nat.max_le, ih, List.forall_mem_cons]

theorem fieldDepths_le {fields : List (String × Json)} {n : Nat} :
    fieldDepths fields ≤ n ↔ ∀ f ∈ fields, f.2.depth ≤ n := by
  induction fields with
  | nil => simp [fieldDepths]
  | cons f fields ih => rw [fieldDepths, Nat.max_le, ih, List.forall_mem_cons]

/-- An array can only be read while a bracket may be opened. -/
theorem depth_arr_le {js : List Json} {n : Nat} :
    (arr js).depth ≤ n ↔ ∃ m, n = m + 1 ∧ ∀ j ∈ js, j.depth ≤ m := by
  rw [depth]
  cases n with
  | zero => simp
  | succ n => simp [depths_le]

theorem depth_obj_le {fields : List (String × Json)} {n : Nat} :
    (obj fields).depth ≤ n ↔ ∃ m, n = m + 1 ∧ ∀ f ∈ fields, f.2.depth ≤ m := by
  rw [depth]
  cases n with
  | zero => simp
  | succ n => simp [fieldDepths_le]

theorem arePlain_iff {js : List Json} : arePlain js = true ↔ ∀ j ∈ js, j.isPlain = true := by
  induction js with
  | nil => simp [arePlain]
  | cons j js ih => simp [arePlain, ih]

theorem holdPlain_iff {fields : List (String × Json)} :
    holdPlain fields = true ↔ ∀ f ∈ fields, f.2.isPlain = true := by
  induction fields with
  | nil => simp [holdPlain]
  | cons f fields ih => simp [holdPlain, ih]

theorem fieldDepths_append (xs ys : List (String × Json)) :
    fieldDepths (xs ++ ys) = max (fieldDepths xs) (fieldDepths ys) := by
  induction xs with
  | nil => rw [List.nil_append, fieldDepths, Nat.zero_max]
  | cons f xs ih => rw [List.cons_append, fieldDepths, ih, fieldDepths, Nat.max_assoc]

theorem fieldValues_eq_nil {fields : List (String × Json)} {name : String}
    (h : ∀ f ∈ fields, f.1 ≠ name) : fieldValues fields name = [] := by
  rw [fieldValues, List.map_eq_nil_iff, List.filter_eq_nil_iff]
  exact fun f hf => by simp [h f hf]

theorem fieldValues_append (xs ys : List (String × Json)) (name : String) :
    fieldValues (xs ++ ys) name = fieldValues xs name ++ fieldValues ys name := by
  simp [fieldValues]

end Json

/-! ### What can be written -/

mutual

/-- The integers have 64 bits, and no tag names an attribute twice. -/
def Attribute.fits : Attribute → Bool
  | .string _ => true
  | .bool _ => true
  | .int i => (Json.int64? (.int i)).isSome
  | .classRef _ => true
  | .enum _ _ => true
  | .tag t => t.fits
  | .array vs => Attribute.allFit vs

def Attribute.allFit : List Attribute → Bool
  | [] => true
  | v :: vs => v.fits && Attribute.allFit vs

def Attribute.fieldsFit : List (String × Attribute) → Bool
  | [] => true
  | (_, v) :: fields => v.fits && Attribute.fieldsFit fields

def Tag.fits : Tag → Bool
  | .mk _ attributes =>
    decide (attributes.map (·.1)).Nodup && Attribute.fieldsFit attributes

end

theorem Attribute.allFit_iff {vs : List Attribute} :
    Attribute.allFit vs = true ↔ ∀ v ∈ vs, v.fits = true := by
  induction vs with
  | nil => simp [allFit]
  | cons v vs ih => simp [allFit, ih]

theorem Attribute.fieldsFit_iff {fields : List (String × Attribute)} :
    Attribute.fieldsFit fields = true ↔ ∀ f ∈ fields, f.2.fits = true := by
  induction fields with
  | nil => simp [fieldsFit]
  | cons f fields ih => simp [fieldsFit, ih]

def Method.fits (m : Method) : Bool := m.tags.all (·.fits)

def ClassInfo.fits (c : ClassInfo) : Bool := c.tags.all (·.fits) && c.methods.all (·.fits)

namespace Descriptor

theorem attributeJsons_eq_map (vs : List Attribute) :
    attributeJsons vs = vs.map attributeJson := by
  induction vs with
  | nil => rfl
  | cons v vs ih => rw [attributeJsons, ih, List.map_cons]

theorem fieldJsons_eq_map (fields : List (String × Attribute)) :
    fieldJsons fields = fields.map fun f => (f.1, attributeJson f.2) := by
  induction fields with
  | nil => rfl
  | cons f fields ih => rw [fieldJsons, ih, List.map_cons]

/-- Elements that are read one by one are read together. -/
theorem mapM_map_eq_some {α β : Type} {read : β → Option α} {write : α → β} {xs : List α}
    (h : ∀ x ∈ xs, read (write x) = some x) : (xs.map write).mapM read = some xs := by
  induction xs with
  | nil => rfl
  | cons x xs ih =>
    rw [List.map_cons, List.mapM_cons, h x List.mem_cons_self,
      ih fun x' hx' => h x' (List.mem_cons_of_mem x hx')]
    rfl

/-! ### Tags -/

section

variable {n : Nat}

/-- What opens no bracket of its own is read with the brackets of the attribute alone. -/
theorem attributeOf_flat {a : Attribute} (hfits : a.fits = true)
    (hflat : (attributeJson a).depth ≤ 1) :
    attributeOf (n + 1) (attributeJson a) = some a := by
  rw [attributeOf.eq_def]
  cases a with
  | string s => simp [attributeJson, Json.text?]
  | bool b => simp [attributeJson, Json.bool?]
  | int i =>
    have hread : Json.int64? (.int i) = some i := by
      rw [Attribute.fits, Json.int64?] at hfits
      rw [Json.int64?]
      split at hfits
      case isTrue hi => rw [if_pos hi]
      case isFalse => cases hfits
    simp [attributeJson, hread]
  | classRef name => simp [attributeJson, Json.text?]
  | enum typeName constant => simp [attributeJson, Json.depth, Json.fieldDepths] at hflat
  | tag t =>
    obtain ⟨typeName, _ | ⟨f, fields⟩⟩ := t <;>
      simp [attributeJson, tagJson, Json.depth, Json.fieldDepths] at hflat
  | array vs => simp [attributeJson, Json.depth, Json.fieldDepths] at hflat

theorem attributeOf_enum (typeName constant : String) :
    attributeOf (n + 2) (attributeJson (.enum typeName constant)) =
      some (.enum typeName constant) := by
  rw [attributeJson, attributeOf.eq_def]
  simp [record, Json.fieldValues, required, Json.text?]

theorem attributeOf_tag (t : Tag) :
    attributeOf (n + 1) (attributeJson (.tag t)) = (tagOf n (tagJson t)).map .tag := by
  rw [attributeJson, attributeOf.eq_def]
  simp

theorem attributeOf_array (vs : List Attribute) :
    attributeOf (n + 2) (attributeJson (.array vs)) =
      ((vs.map attributeJson).mapM (attributeOf n)).map .array := by
  rw [attributeJson, attributeJsons_eq_map, attributeOf.eq_def]
  simp

theorem tagOf_bare (typeName : String) :
    tagOf (n + 1) (tagJson (.mk typeName [])) = some (.mk typeName []) := by
  rw [tagJson, tagOf]
  simp [record, Json.fieldValues, required, Json.text?]

theorem tagJson_cons (typeName : String) (f : String × Attribute)
    (fields : List (String × Attribute)) :
    tagJson (.mk typeName (f :: fields)) = .obj [("type", .str typeName),
      ("attributes", .obj ((f :: fields).map fun f => (f.1, attributeJson f.2)))] := by
  rw [← fieldJsons_eq_map]
  rfl

theorem tagOf_attributes (typeName : String) (fields : List (String × Json)) :
    tagOf (n + 2) (.obj [("type", .str typeName), ("attributes", .obj fields)]) =
      (fields.mapM fun f => (attributeOf n f.2).map (f.1, ·)).map fun fs =>
        .mk typeName (OrderedMap.ofList fs).entries := by
  have hrecord : record ["type", "attributes"]
      (.obj [("type", .str typeName), ("attributes", .obj fields)]) =
      some [some (.str typeName), some (.obj fields)] := by
    simp [record, Json.fieldValues]
  rw [tagOf, hrecord, Option.map_eq_bind]
  rfl

theorem depth_attributeJson_le {a : Attribute} (h : (attributeJson a).depth ≤ n) :
    ∃ m, n = m + 1 ∧ ∀ f, attributeJson a = .obj [f] → f.2.depth ≤ m := by
  obtain ⟨f, hf⟩ : ∃ f, attributeJson a = .obj [f] := by cases a <;> exact ⟨_, rfl⟩
  rw [hf] at h ⊢
  obtain ⟨m, rfl, hm⟩ := Json.depth_obj_le.1 h
  refine ⟨m, rfl, ?_⟩
  rintro g ⟨⟩
  exact hm f List.mem_cons_self

end

/-- With brackets left, an attribute that fits and has no more of them is read back. -/
def ReadsAttributes (n : Nat) : Prop :=
  ∀ a : Attribute, a.fits = true → (attributeJson a).depth ≤ n →
    attributeOf n (attributeJson a) = some a

def ReadsTags (n : Nat) : Prop :=
  ∀ t : Tag, t.fits = true → (tagJson t).depth ≤ n → tagOf n (tagJson t) = some t

theorem readsAttributes_of_lt {n : Nat} (ih : ∀ m < n, ReadsAttributes m ∧ ReadsTags m) :
    ReadsAttributes n := by
  intro a hfits hdepth
  obtain ⟨m, rfl, hm⟩ := depth_attributeJson_le hdepth
  cases a with
  | string _ => exact attributeOf_flat hfits (Nat.le_refl _)
  | bool _ => exact attributeOf_flat hfits (Nat.le_refl _)
  | int _ => exact attributeOf_flat hfits (Nat.le_refl _)
  | classRef _ => exact attributeOf_flat hfits (Nat.le_refl _)
  | enum typeName constant =>
    obtain ⟨m, rfl, -⟩ := Json.depth_obj_le.1 (hm _ rfl)
    exact attributeOf_enum typeName constant
  | tag t =>
    rw [attributeOf_tag, (ih m (by omega)).2 t hfits (hm _ rfl)]
    rfl
  | array vs =>
    obtain ⟨m, rfl, hvs⟩ := Json.depth_arr_le.1 (hm _ rfl)
    rw [attributeJsons_eq_map] at hvs
    rw [attributeOf_array, mapM_map_eq_some]
    · rfl
    · intro v hv
      exact (ih m (by omega)).1 v (Attribute.allFit_iff.1 hfits v hv)
        (hvs _ (List.mem_map_of_mem hv))

theorem readsTags_of_lt {n : Nat} (ih : ∀ m < n, ReadsAttributes m ∧ ReadsTags m) :
    ReadsTags n := by
  rintro ⟨typeName, attributes⟩ hfits hdepth
  cases attributes with
  | nil =>
    obtain ⟨m, rfl, -⟩ := Json.depth_obj_le.1 hdepth
    exact tagOf_bare typeName
  | cons f fields =>
    rw [Tag.fits, Bool.and_eq_true, decide_eq_true_eq] at hfits
    rw [tagJson_cons] at hdepth ⊢
    obtain ⟨m, rfl, hm⟩ := Json.depth_obj_le.1 hdepth
    obtain ⟨m, rfl, hfields⟩ := Json.depth_obj_le.1
      (hm (_, _) (List.mem_cons_of_mem _ List.mem_cons_self))
    rw [tagOf_attributes, mapM_map_eq_some, Option.map_some]
    · rw [OrderedMap.entries_ofList hfits.1]
    · intro g hg
      rw [(ih m (by omega)).1 g.2 (Attribute.fieldsFit_iff.1 hfits.2 g hg)
        (hfields _ (List.mem_map_of_mem hg))]
      rfl

theorem tags_read (n : Nat) : ReadsAttributes n ∧ ReadsTags n := by
  induction n using Nat.strongRecOn with
  | ind n ih => exact ⟨readsAttributes_of_lt ih, readsTags_of_lt ih⟩

mutual

theorem isPlain_attributeJson : ∀ a : Attribute, a.fits = true → (attributeJson a).isPlain = true
  | .string _, _ => rfl
  | .bool _, _ => rfl
  | .int _, h => by
    rw [attributeJson, Json.isPlain, Json.holdPlain, Json.isPlain, Json.holdPlain, Bool.and_true]
    exact h
  | .classRef _, _ => rfl
  | .enum _ _, _ => rfl
  | .tag t, h => by
    rw [attributeJson, Json.isPlain, Json.holdPlain, isPlain_tagJson t h]
    rfl
  | .array vs, h => by
    rw [attributeJson, Json.isPlain, Json.holdPlain, Json.isPlain, arePlain_attributeJsons vs h]
    rfl

theorem arePlain_attributeJsons : ∀ vs : List Attribute, Attribute.allFit vs = true →
    Json.arePlain (attributeJsons vs) = true
  | [], _ => rfl
  | v :: vs, h => by
    rw [Attribute.allFit, Bool.and_eq_true] at h
    rw [attributeJsons, Json.arePlain, isPlain_attributeJson v h.1, arePlain_attributeJsons vs h.2]
    rfl

theorem holdPlain_fieldJsons : ∀ fields : List (String × Attribute),
    Attribute.fieldsFit fields = true → Json.holdPlain (fieldJsons fields) = true
  | [], _ => rfl
  | (name, v) :: fields, h => by
    rw [Attribute.fieldsFit, Bool.and_eq_true] at h
    rw [fieldJsons, Json.holdPlain, isPlain_attributeJson v h.1, holdPlain_fieldJsons fields h.2]
    rfl

theorem isPlain_tagJson : ∀ t : Tag, t.fits = true → (tagJson t).isPlain = true
  | .mk _ [], _ => rfl
  | .mk typeName (f :: fields), h => by
    rw [Tag.fits, Bool.and_eq_true] at h
    rw [tagJson, Json.isPlain, Json.holdPlain, Json.holdPlain, Json.holdPlain, Json.isPlain,
      Json.isPlain, holdPlain_fieldJsons (f :: fields) h.2]
    · rfl
    · exact nofun

end

/-! ### Records -/

/-- The fields of a record, where those without a value are left out. -/
def written (names : List String) (values : List (Option Json)) : List (String × Json) :=
  (names.zip values).flatMap fun (name, v) => v.toList.map (name, ·)

section

variable {names : List String} {values : List (Option Json)}

theorem written_cons (name : String) (names : List String) (v : Option Json)
    (values : List (Option Json)) :
    written (name :: names) (v :: values) = v.toList.map (name, ·) ++ written names values := by
  rw [written, List.zip_cons_cons, List.flatMap_cons]
  rfl

theorem mem_written {f : String × Json} (h : f ∈ written names values) :
    f.1 ∈ names ∧ some f.2 ∈ values := by
  obtain ⟨⟨name, v⟩, hzip, hf⟩ := List.mem_flatMap.1 h
  obtain ⟨hname, hv⟩ := List.of_mem_zip hzip
  obtain ⟨j, hj, rfl⟩ := List.mem_map.1 hf
  obtain rfl := Option.mem_toList.1 hj
  exact ⟨hname, hv⟩

theorem exists_mem_written (hlength : names.length = values.length) {j : Json}
    (hj : some j ∈ values) : ∃ name, (name, j) ∈ written names values := by
  obtain ⟨i, hi, hget⟩ := List.mem_iff_getElem.1 hj
  refine ⟨names[i], List.mem_flatMap.2 ⟨(names[i], some j), ?_, by simp⟩⟩
  rw [← hget]
  exact List.mem_iff_getElem.2 ⟨i, by simp [hlength, hi], by simp⟩

/-- Each name stands for its own value, also after fields of other names. -/
theorem fieldValues_written (hnodup : names.Nodup) (hlength : names.length = values.length)
    (before : List (String × Json)) (hbefore : ∀ f ∈ before, f.1 ∉ names) :
    List.Forall₂ (fun name v => Json.fieldValues (before ++ written names values) name = v.toList)
      names values := by
  induction names generalizing values before with
  | nil =>
    obtain rfl := List.length_eq_zero_iff.1 hlength.symm
    exact .nil
  | cons name names ih =>
    obtain ⟨v, values, rfl⟩ := List.exists_cons_of_length_eq_add_one hlength.symm
    obtain ⟨hname, hnames⟩ := List.nodup_cons.1 hnodup
    have hpast : Json.fieldValues before name = [] :=
      Json.fieldValues_eq_nil fun f hf heq => hbefore f hf (heq ▸ List.mem_cons_self)
    have hrest : Json.fieldValues (written names values) name = [] :=
      Json.fieldValues_eq_nil fun f hf heq => hname (heq ▸ (mem_written hf).1)
    refine .cons ?_ ?_
    · rw [written_cons, Json.fieldValues_append, Json.fieldValues_append, hpast, hrest]
      cases v <;> simp [Json.fieldValues]
    · rw [written_cons, ← List.append_assoc]
      refine ih hnames (Nat.succ.inj hlength) _ fun f hf hmem => ?_
      obtain hf | hf := List.mem_append.1 hf
      · exact hbefore f hf (List.mem_cons_of_mem name hmem)
      · obtain ⟨j, -, rfl⟩ := List.mem_map.1 hf
        exact hname hmem

theorem record_written (hnodup : names.Nodup) (hlength : names.length = values.length) :
    record names (.obj (written names values)) = some values := by
  have hvalues := fieldValues_written hnodup hlength [] nofun
  rw [List.nil_append] at hvalues
  rw [record]
  generalize written names values = fields at hvalues
  clear hnodup hlength
  induction hvalues with
  | nil => rfl
  | @cons name v names values hv _ ih =>
    rw [List.mapM_cons, ih, hv]
    cases v <;> rfl

theorem depth_written_le (hlength : names.length = values.length) {n : Nat}
    (h : (Json.obj (written names values)).depth ≤ n) :
    ∃ m, n = m + 1 ∧ ∀ j, some j ∈ values → j.depth ≤ m := by
  obtain ⟨m, rfl, hm⟩ := Json.depth_obj_le.1 h
  refine ⟨m, rfl, fun j hj => ?_⟩
  obtain ⟨name, hname⟩ := exists_mem_written hlength hj
  exact hm _ hname

theorem isPlain_written (h : ∀ j, some j ∈ values → j.isPlain = true) :
    (Json.obj (written names values)).isPlain = true :=
  Json.holdPlain_iff.2 fun f hf => h f.2 (mem_written hf).2

end

def listValue {α : Type} (json : α → Json) : List α → Option Json
  | [] => none
  | x :: xs => some (.arr ((x :: xs).map json))

theorem optionField_eq (name : String) (o : Option String) :
    optionField name o = (o.map Json.str).toList.map (name, ·) := by
  cases o <;> rfl

theorem listField_eq {α : Type} (name : String) (json : α → Json) (xs : List α) :
    listField name json xs = (listValue json xs).toList.map (name, ·) := by
  cases xs <;> rfl

theorem nullable_text (o : Option String) : nullable Json.text? (o.map Json.str) = some o := by
  cases o <;> rfl

theorem withDefault_listValue {α : Type} {read : Nat → Json → Option α} {json : α → Json}
    {xs : List α} {n : Nat} (hdepth : ∀ j, listValue json xs = some j → j.depth ≤ n)
    (hread : ∀ m, ∀ x ∈ xs, (json x).depth ≤ m → read m (json x) = some x) :
    withDefault [] (listOf read n) (listValue json xs) = some xs := by
  cases xs with
  | nil => rfl
  | cons x xs =>
    obtain ⟨m, rfl, hm⟩ := Json.depth_arr_le.1 (hdepth _ rfl)
    rw [listValue, withDefault, listOf]
    exact mapM_map_eq_some fun y hy => hread m y hy (hm _ (List.mem_map_of_mem hy))

theorem isPlain_listValue {α : Type} {json : α → Json} {xs : List α}
    (h : ∀ x ∈ xs, (json x).isPlain = true) {j : Json} (hj : listValue json xs = some j) :
    j.isPlain = true := by
  cases xs with
  | nil => cases hj
  | cons x xs =>
    obtain rfl := Option.some.inj hj
    refine Json.arePlain_iff.2 fun j hj => ?_
    obtain ⟨y, hy, rfl⟩ := List.mem_map.1 hj
    exact h y hy

theorem isPlain_optionValue {o : Option String} {j : Json} (hj : o.map Json.str = some j) :
    j.isPlain = true := by
  cases o with
  | none => cases hj
  | some s => obtain rfl := Option.some.inj hj; rfl

/-! ### Methods and classes -/

theorem methodJson_eq_written (m : Method) :
    methodJson m = .obj (written ["name", "descriptor", "return_type", "declaring_class", "flags",
        "annotations"]
      [some (.str m.name), some (.str m.descriptor), m.returnType.map .str,
        some (.str m.declaringClass),
        some (.obj [("abstract", .bool m.isAbstract), ("static", .bool m.isStatic),
          ("final", .bool m.isFinal), ("private", .bool m.isPrivate)]),
        listValue tagJson m.tags]) := by
  simp [methodJson, written, optionField_eq, listField_eq]

theorem classJson_eq_written (c : ClassInfo) :
    classJson c = .obj (written ["name", "flags", "super_class", "interfaces", "annotations",
        "methods", "member_classes", "enclosing_class", "resource"]
      [some (.str c.name),
        some (.obj [("interface", .bool c.isInterface), ("abstract", .bool c.isAbstract),
          ("final", .bool c.isFinal), ("annotation", .bool c.isTagType)]),
        c.superClass.map .str, listValue .str c.interfaces, listValue tagJson c.tags,
        listValue methodJson c.methods, listValue .str c.memberClasses,
        c.enclosingClass.map .str, c.resource.map .str]) := by
  simp [classJson, written, optionField_eq, listField_eq]

theorem methodOf_methodJson {m : Method} (hfits : m.fits = true) {n : Nat}
    (hdepth : (methodJson m).depth ≤ n) : methodOf n (methodJson m) = some m := by
  rw [methodJson_eq_written] at hdepth ⊢
  obtain ⟨n, rfl, hn⟩ := depth_written_le rfl hdepth
  have htags : withDefault [] (listOf tagOf n) (listValue tagJson m.tags) = some m.tags :=
    withDefault_listValue (fun j hj => hn j (by simp [hj])) fun k t ht =>
      (tags_read k).2 t (List.all_eq_true.1 hfits t ht)
  obtain ⟨n, rfl, -⟩ := Json.depth_obj_le.1 (hn (.obj _) (List.mem_of_getElem? (i := 4) rfl))
  rw [methodOf, record_written (by decide) rfl]
  simp only [htags, nullable_text]
  simp [withDefault, flagsOf, record, required, Json.text?, Json.bool?, Json.fieldValues]

theorem texts_str {n : Nat} {xs : List String}
    (hdepth : ∀ j, listValue Json.str xs = some j → j.depth ≤ n) :
    withDefault [] (texts n) (listValue .str xs) = some xs :=
  withDefault_listValue hdepth fun _ _ _ _ => rfl

theorem classOf_classJson {c : ClassInfo} (hfits : c.fits = true) {n : Nat}
    (hdepth : (classJson c).depth ≤ n) : classOf n (classJson c) = some c := by
  rw [classJson_eq_written] at hdepth ⊢
  rw [ClassInfo.fits, Bool.and_eq_true] at hfits
  obtain ⟨n, rfl, hn⟩ := depth_written_le rfl hdepth
  have hinterfaces : withDefault [] (texts n) (listValue .str c.interfaces) = some c.interfaces :=
    texts_str fun j hj => hn j (by simp [hj])
  have hmembers : withDefault [] (texts n) (listValue .str c.memberClasses) =
      some c.memberClasses := texts_str fun j hj => hn j (by simp [hj])
  have htags : withDefault [] (listOf tagOf n) (listValue tagJson c.tags) = some c.tags :=
    withDefault_listValue (fun j hj => hn j (by simp [hj])) fun k t ht =>
      (tags_read k).2 t (List.all_eq_true.1 hfits.1 t ht)
  have hmethods : withDefault [] (listOf methodOf n) (listValue methodJson c.methods) =
      some c.methods :=
    withDefault_listValue (fun j hj => hn j (by simp [hj])) fun k m hm =>
      methodOf_methodJson (List.all_eq_true.1 hfits.2 m hm)
  obtain ⟨n, rfl, -⟩ := Json.depth_obj_le.1 (hn (.obj _) (List.mem_of_getElem? (i := 1) rfl))
  rw [classOf, record_written (by decide) rfl]
  simp only [hinterfaces, hmembers, htags, hmethods, nullable_text]
  simp [withDefault, flagsOf, record, required, Json.text?, Json.bool?, Json.fieldValues]

theorem isPlain_methodJson {m : Method} (h : m.fits = true) : (methodJson m).isPlain = true := by
  rw [methodJson_eq_written]
  refine isPlain_written fun j hj => ?_
  simp only [List.mem_cons, List.not_mem_nil, or_false, Option.some.injEq] at hj
  rcases hj with rfl | rfl | hj | rfl | rfl | hj
  · rfl
  · rfl
  · exact isPlain_optionValue hj.symm
  · rfl
  · rfl
  · exact isPlain_listValue (fun t ht => isPlain_tagJson t (List.all_eq_true.1 h t ht)) hj.symm

theorem isPlain_classJson {c : ClassInfo} (h : c.fits = true) : (classJson c).isPlain = true := by
  rw [ClassInfo.fits, Bool.and_eq_true] at h
  rw [classJson_eq_written]
  refine isPlain_written fun j hj => ?_
  simp only [List.mem_cons, List.not_mem_nil, or_false, Option.some.injEq] at hj
  rcases hj with rfl | rfl | hj | hj | hj | hj | hj | hj | hj
  · rfl
  · rfl
  · exact isPlain_optionValue hj.symm
  · exact isPlain_listValue (fun _ _ => rfl) hj.symm
  · exact isPlain_listValue (fun t ht => isPlain_tagJson t (List.all_eq_true.1 h.1 t ht)) hj.symm
  · exact isPlain_listValue (fun m hm => isPlain_methodJson (List.all_eq_true.1 h.2 m hm)) hj.symm
  · exact isPlain_listValue (fun _ _ => rfl) hj.symm
  · exact isPlain_optionValue hj.symm
  · exact isPlain_optionValue hj.symm

/-! ### Files -/

theorem classesOf_fileJson {cs : List ClassInfo} (hfits : ∀ c ∈ cs, c.fits = true) {n : Nat}
    (hdepth : (fileJson cs).depth ≤ n) : classesOf n (fileJson cs) = some cs := by
  obtain ⟨n, rfl, hn⟩ := Json.depth_obj_le.1 hdepth
  obtain ⟨n, rfl, hcs⟩ := Json.depth_arr_le.1 (hn _ List.mem_cons_self)
  have hread : (cs.map classJson).mapM (classOf n) = some cs :=
    mapM_map_eq_some fun c hc =>
      classOf_classJson (hfits c hc) (hcs _ (List.mem_map_of_mem hc))
  rw [fileJson, classesOf]
  simp [record, Json.fieldValues, withDefault, listOf, hread]

theorem isPlain_fileJson {cs : List ClassInfo} (hfits : ∀ c ∈ cs, c.fits = true) :
    (fileJson cs).isPlain = true := by
  have hclasses : Json.arePlain (cs.map classJson) = true := by
    refine Json.arePlain_iff.2 fun j hj => ?_
    obtain ⟨c, hc, rfl⟩ := List.mem_map.1 hj
    exact isPlain_classJson (hfits c hc)
  rw [fileJson, Json.isPlain, Json.holdPlain, Json.isPlain, hclasses]
  rfl

/-! Naming the declaring class of a method changes a text, never the form. -/

theorem fits_withDeclaringClass (c : ClassInfo) :
    (Index.withDeclaringClass c).fits = c.fits := by
  rw [ClassInfo.fits, ClassInfo.fits, Index.withDeclaringClass, List.all_map]
  congr 2
  funext m
  rw [Function.comp_apply]
  split <;> rfl

theorem depth_listField_map {α : Type} {json : α → Json} {g : α → α}
    (h : ∀ x, (json (g x)).depth = (json x).depth) (name : String) (xs : List α) :
    Json.fieldDepths (listField name json (xs.map g)) =
      Json.fieldDepths (listField name json xs) := by
  have hdepths : Json.depths ((xs.map g).map json) = Json.depths (xs.map json) := by
    induction xs with
    | nil => rfl
    | cons x xs ih => simp only [List.map_cons, Json.depths, h, ih]
  cases xs with
  | nil => rfl
  | cons x xs =>
    rw [listField_eq, listField_eq]
    simp only [List.map_cons, listValue, Option.toList_some, List.map_nil, Json.fieldDepths,
      Json.depth] at hdepths ⊢
    rw [hdepths]

theorem depth_withDeclaringClass (c : ClassInfo) :
    (classJson (Index.withDeclaringClass c)).depth = (classJson c).depth := by
  have hmethod (m : Method) : (methodJson (if m.declaringClass.isEmpty then
      { m with declaringClass := c.name } else m)).depth = (methodJson m).depth := by
    split
    · simp [methodJson, Json.depth, Json.fieldDepths_append, Json.fieldDepths]
    · rfl
  simp only [classJson, Json.depth, Json.fieldDepths_append, Index.withDeclaringClass,
    depth_listField_map hmethod]

theorem depth_fileJson_le {cs : List ClassInfo} {n : Nat} :
    (fileJson cs).depth ≤ n + 2 ↔ ∀ c ∈ cs, (classJson c).depth ≤ n := by
  simp [fileJson, Json.depth, Json.fieldDepths, Json.depths_le]

section

variable {write : Json → String} {cs : List ClassInfo}

/-- The classes of a written file, whatever writes its text. -/
theorem parse_fileJson
    (hwrite : ∀ j : Json, j.isPlain = true → j.depth ≤ nesting → Json.parse? (write j) = some j)
    (hnames : ∀ c ∈ cs, Text.isBlankText c.name = false) (hdistinct : (cs.map (·.name)).Nodup)
    (hfits : ∀ c ∈ cs, c.fits = true) (hdepth : (fileJson cs).depth ≤ nesting) :
    parse (write (fileJson cs)) = .ok ⟨cs.map Index.withDeclaringClass⟩ := by
  rw [parse, hwrite _ (isPlain_fileJson hfits) hdepth]
  dsimp only
  rw [index, classesOf_fileJson hfits hdepth]
  exact Index.addAll_eq_ok hnames hdistinct

theorem map_name_withDeclaringClass :
    (cs.map Index.withDeclaringClass).map (·.name) = cs.map (·.name) := by
  simp

theorem map_withDeclaringClass_of_subset {ds : List ClassInfo}
    (h : ∀ d ∈ ds, d ∈ cs.map Index.withDeclaringClass) : ds.map Index.withDeclaringClass = ds := by
  refine (List.map_congr_left fun d hd => ?_).trans (List.map_id ds)
  obtain ⟨c, -, rfl⟩ := List.mem_map.1 (h d hd)
  exact Index.withDeclaringClass_withDeclaringClass c

theorem withDeclaringClass_eq (c : ClassInfo) :
    Index.withDeclaringClass c = { c with methods := c.methods.map fun m =>
      { m with declaringClass := if m.declaringClass = "" then c.name else m.declaringClass } } := by
  rw [Index.withDeclaringClass]
  congr 2
  funext m
  by_cases hm : m.declaringClass = ""
  · simp [hm]
  · simp [hm]

/-- What has been read is written and read again as it is, in any order. -/
theorem parse_fileJson_again
    (hwrite : ∀ j : Json, j.isPlain = true → j.depth ≤ nesting → Json.parse? (write j) = some j)
    (hnames : ∀ c ∈ cs, Text.isBlankText c.name = false) (hdistinct : (cs.map (·.name)).Nodup)
    (hfits : ∀ c ∈ cs, c.fits = true) (hdepth : (fileJson cs).depth ≤ nesting)
    {ds : List ClassInfo} (hperm : ds.Perm (cs.map Index.withDeclaringClass)) :
    parse (write (fileJson ds)) = .ok ⟨ds⟩ := by
  have hmem : ∀ d ∈ ds, ∃ c ∈ cs, Index.withDeclaringClass c = d := fun d hd =>
    List.mem_map.1 (hperm.subset hd)
  have hdistinct' : (ds.map (·.name)).Nodup := by
    rwa [(hperm.map (·.name)).nodup_iff, map_name_withDeclaringClass]
  have hdepth' : (fileJson ds).depth ≤ nesting := by
    refine depth_fileJson_le.2 fun d hd => ?_
    obtain ⟨c, hc, rfl⟩ := hmem d hd
    rw [depth_withDeclaringClass]
    exact depth_fileJson_le.1 hdepth c hc
  have hnames' : ∀ d ∈ ds, Text.isBlankText d.name = false := by
    intro d hd
    obtain ⟨c, hc, rfl⟩ := hmem d hd
    exact hnames c hc
  have hfits' : ∀ d ∈ ds, d.fits = true := by
    intro d hd
    obtain ⟨c, hc, rfl⟩ := hmem d hd
    rw [fits_withDeclaringClass]
    exact hfits c hc
  have hagain := parse_fileJson hwrite hnames' hdistinct' hfits' hdepth'
  rwa [map_withDeclaringClass_of_subset fun d hd => hperm.subset hd] at hagain

/-- Writing classes and reading the file gives an index of as many classes, where each is found
as it was, except that a method without a declaring class has that class for it.  Writing what was
read, in any order, and reading that gives an index in which every name is answered as before. -/
theorem parse_write
    (hwrite : ∀ j : Json, j.isPlain = true → j.depth ≤ nesting → Json.parse? (write j) = some j)
    (hnames : ∀ c ∈ cs, Text.isBlankText c.name = false) (hdistinct : (cs.map (·.name)).Nodup)
    (hfits : ∀ c ∈ cs, c.fits = true) (hdepth : (fileJson cs).depth ≤ nesting) :
    ∃ ix, parse (write (fileJson cs)) = .ok ix ∧ ix.size = cs.length ∧
      (∀ c ∈ cs, ix.read c.name = .ok { c with methods := c.methods.map fun m =>
        { m with declaringClass := if m.declaringClass = "" then c.name else m.declaringClass } }) ∧
      ∀ ds, ds.Perm ix.classes → ∃ again, parse (write (fileJson ds)) = .ok again ∧
        again.classes = ds ∧ again.size = ix.size ∧ ∀ name, again.read name = ix.read name := by
  have hkept : ((cs.map Index.withDeclaringClass).map (·.name)).Nodup := by
    rwa [map_name_withDeclaringClass]
  refine ⟨_, parse_fileJson hwrite hnames hdistinct hfits hdepth, List.length_map _, ?_, ?_⟩
  · intro c hc
    have hfind : Index.find? ⟨cs.map Index.withDeclaringClass⟩ c.name =
        some (Index.withDeclaringClass c) :=
      (Index.find?_eq_some_iff hkept).2 ⟨List.mem_map_of_mem hc, rfl⟩
    rw [Index.read, hfind, withDeclaringClass_eq]
  · intro ds hperm
    exact ⟨_, parse_fileJson_again hwrite hnames hdistinct hfits hdepth hperm, rfl,
      hperm.length_eq, Index.read_congr hkept hperm⟩

end

/-- A tag inside an array inside a tag, an inherited method and an own one. -/
def shop : List ClassInfo :=
  [{ name := "a.Shop"
     isFinal := true
     superClass := some "a.Base"
     interfaces := ["a.Sells"]
     tags := [.mk "a.Imports" [("value", .array [.classRef "a.Till",
       .tag (.mk "a.Lazy" [("order", .int (-3)), ("mode", .enum "a.Mode" "LATE")])]),
       ("names", .array [])], .mk "a.Marked" []]
     methods := [{ name := "till", descriptor := "()La/Till;", returnType := some "a.Till" },
       { name := "close", declaringClass := "a.Base", isStatic := true }] },
   { name := "a.Base", isAbstract := true }]

/-- Both kinds of methods, as they are found. -/
theorem parse_write_shop :
    ∃ ix, parse (Json.render (fileJson shop)) = .ok ix ∧ ix.size = 2 ∧
      (∃ c, ix.read "a.Shop" = .ok c ∧ c.methods =
        [{ name := "till", declaringClass := "a.Shop", descriptor := "()La/Till;",
           returnType := some "a.Till" },
         { name := "close", declaringClass := "a.Base", isStatic := true }]) ∧
      ix.read "a.Base" = .ok { name := "a.Base", isAbstract := true } ∧
      ∀ ds, ds.Perm ix.classes → ∃ again, parse (Json.render (fileJson ds)) = .ok again ∧
        again.classes = ds ∧ again.size = ix.size ∧ ∀ name, again.read name = ix.read name := by
  obtain ⟨ix, hparse, hsize, hread, hagain⟩ :=
    @parse_write Json.render shop (fun j hj _ => Json.parse?_render j hj) (by decide) (by decide)
      (by decide +kernel) (by decide +kernel)
  rw [shop, List.forall_mem_cons, List.forall_mem_singleton] at hread
  exact ⟨ix, hparse, hsize, ⟨_, hread.1, rfl⟩, hread.2, hagain⟩

end Descriptor
end Wiring
