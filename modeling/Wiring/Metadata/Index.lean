import Wiring.Metadata.ClassInfo
import Wiring.Text

/-!
# Indexes and readers of class metadata

An index holds the classes of a descriptor file by name.  A reader asks an index, except for
the classes whose reading is known to fail.
-/

namespace Wiring

inductive MetadataError where
  | notFound (className : String)
  /-- The metadata exists and cannot be read. -/
  | unreadable (className message : String)
  /-- The descriptor file cannot be read. -/
  | file (path : String)
  /-- The text is no descriptor file. -/
  | json
  | malformed (className message : String)
deriving Repr, DecidableEq

namespace MetadataError

def message : MetadataError → String
  | notFound name => "class [" ++ name ++ "] not found"
  | unreadable name message => "failed to read metadata for [" ++ name ++ "]: " ++ message
  | file path => "failed to read descriptor file " ++ path
  | json => "invalid descriptor json"
  | malformed name message => "malformed metadata for [" ++ name ++ "]: " ++ message

def isNotFound : MetadataError → Bool
  | notFound _ => true
  | _ => false

end MetadataError

/-- Classes with pairwise distinct names. -/
structure Index where
  classes : List ClassInfo := []

namespace Index

def find? (ix : Index) (name : String) : Option ClassInfo :=
  ix.classes.find? (·.name == name)

theorem find?_eq_some_iff {ix : Index} (h : (ix.classes.map (·.name)).Nodup) {name : String}
    {c : ClassInfo} : ix.find? name = some c ↔ c ∈ ix.classes ∧ c.name = name := by
  rw [find?]
  generalize ix.classes = cs at h
  induction cs with
  | nil => simp
  | cons d cs ih =>
    obtain ⟨hfresh, h⟩ := List.nodup_cons.1 h
    rw [List.find?_cons, List.mem_cons]
    by_cases hd : d.name = name
    · simp only [hd, beq_self_eq_true, Option.some.injEq]
      constructor
      · rintro rfl
        exact ⟨.inl rfl, hd⟩
      · rintro ⟨rfl | hmem, hc⟩
        · rfl
        · exact absurd (List.mem_map.2 ⟨c, hmem, hc.trans hd.symm⟩) hfresh
    · simp only [beq_eq_false_iff_ne.2 hd, ih h]
      constructor
      · exact fun ⟨hmem, hc⟩ => ⟨.inr hmem, hc⟩
      · rintro ⟨rfl | hmem, hc⟩
        · exact absurd hc hd
        · exact ⟨hmem, hc⟩

def contains (ix : Index) (name : String) : Bool := (ix.find? name).isSome

def size (ix : Index) : Nat := ix.classes.length

def read (ix : Index) (name : String) : Except MetadataError ClassInfo :=
  match ix.find? name with
  | some c => .ok c
  | none => .error (.notFound name)

theorem read_congr {ix ix' : Index} (h : (ix.classes.map (·.name)).Nodup)
    (hperm : ix'.classes.Perm ix.classes) (name : String) : ix'.read name = ix.read name := by
  have h' : (ix'.classes.map (·.name)).Nodup := by rwa [(hperm.map (·.name)).nodup_iff]
  have hfind : ix'.find? name = ix.find? name := by
    refine Option.ext fun c => ?_
    rw [find?_eq_some_iff h', find?_eq_some_iff h, hperm.mem_iff]
  rw [read, read, hfind]

/-- A method that names no declaring class is declared by the class that lists it. -/
def withDeclaringClass (c : ClassInfo) : ClassInfo :=
  { c with
    methods := c.methods.map fun m =>
      if m.declaringClass.isEmpty then { m with declaringClass := c.name } else m }

@[simp] theorem name_withDeclaringClass (c : ClassInfo) :
    (withDeclaringClass c).name = c.name := rfl

theorem withDeclaringClass_withDeclaringClass (c : ClassInfo) :
    withDeclaringClass (withDeclaringClass c) = withDeclaringClass c := by
  simp only [withDeclaringClass, List.map_map]
  congr 1
  refine List.map_congr_left fun m _ => ?_
  by_cases h : m.declaringClass.isEmpty = true
  · simp only [Function.comp_apply, h, if_true, ite_self]
  · simp only [Function.comp_apply, h, if_false, Bool.false_eq_true]

/-- Adds the classes in order.  A blank name or a name given twice makes the file malformed. -/
def addAll (ix : Index) : List ClassInfo → Except MetadataError Index
  | [] => .ok ix
  | c :: cs =>
    if Text.isBlankText c.name then .error (.malformed c.name "empty class name")
    else if ix.contains c.name then .error (.malformed c.name "duplicate descriptor")
    else addAll ⟨ix.classes ++ [withDeclaringClass c]⟩ cs

theorem addAll_eq_ok {ix : Index} {cs : List ClassInfo}
    (hnames : ∀ c ∈ cs, Text.isBlankText c.name = false)
    (hdistinct : ((ix.classes ++ cs).map (·.name)).Nodup) :
    addAll ix cs = .ok ⟨ix.classes ++ cs.map withDeclaringClass⟩ := by
  induction cs generalizing ix with
  | nil => rw [addAll, List.map_nil, List.append_nil]
  | cons c cs ih =>
    have hfresh : ix.contains c.name = false := by
      rw [List.map_append, List.nodup_append] at hdistinct
      rw [contains, Option.isSome_eq_false_iff, Option.isNone_iff_eq_none, find?,
        List.find?_eq_none]
      intro d hd heq
      exact hdistinct.2.2 _ (List.mem_map_of_mem hd) _ (List.mem_map_of_mem List.mem_cons_self)
        (by simpa using heq)
    rw [addAll, hnames c List.mem_cons_self, hfresh]
    simp only [Bool.false_eq_true, if_false]
    rw [ih (fun d hd => hnames d (List.mem_cons_of_mem c hd)) (by simpa using hdistinct),
      List.map_cons, List.append_assoc, List.singleton_append]

def ofClasses (cs : List ClassInfo) : Except MetadataError Index := addAll {} cs

end Index

structure Reader where
  index : Index := {}
  /-- Classes whose metadata cannot be read, each with the reason. -/
  failures : List (String × String) := []

namespace Reader

def read (r : Reader) (name : String) : Except MetadataError ClassInfo :=
  match r.failures.lookup name with
  | some message => .error (.unreadable name message)
  | none => r.index.read name

end Reader
end Wiring
