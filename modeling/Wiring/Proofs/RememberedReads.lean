import Mathlib.Data.Finset.Card
import Mathlib.Data.List.DropRight
import Wiring.Metadata.Cache

/-!
# Reads that are remembered

A cache and the reader behind it are watched for a while: which calls are made, what each answers,
and which reads reach the reader.  What the cache holds is at each moment what the reader has
answered with success since the last clearing, so a read is answered from that or, if there is
nothing for its class, by one read of the reader.  The reader may answer differently each time.
-/

namespace Wiring
namespace MetadataCache

abbrev Outcome := Except MetadataError ClassInfo

inductive Call where
  | read (name : String)
  | clear

inductive Event where
  /-- The cache has been asked and has answered. -/
  | answered (name : String) (answer : Outcome)
  /-- The reader has been asked. -/
  | fetched (name : String) (outcome : Outcome)
  | cleared

/-- A cache in use, and what has happened so far, the latest last. -/
structure Session (σ : Type) where
  cache : MetadataCache := {}
  reader : σ
  events : List Event := []

section

variable {σ : Type} (reader : σ → String → Outcome × σ)

/-- The reader, as it writes down what it is asked. -/
def recorded (s : σ × List Event) (name : String) : Outcome × σ × List Event :=
  let read := reader s.1 name
  (read.1, read.2, s.2 ++ [.fetched name read.1])

def Session.call (r : Session σ) : Call → Session σ
  | .read name =>
    let read := r.cache.read (recorded reader) (r.reader, r.events) name
    ⟨read.2.1, read.2.2.1, read.2.2.2 ++ [.answered name read.1]⟩
  | .clear => ⟨r.cache.clear, r.reader, r.events ++ [.cleared]⟩

/-- The session after calls in a row. -/
def Session.after (s : σ) (calls : List Call) : Session σ :=
  calls.foldl (Session.call reader) { reader := s }

end

def Event.isClearing : Event → Bool
  | .cleared => true
  | _ => false

/-- What has happened since the last clearing. -/
def sinceCleared (es : List Event) : List Event := es.rtakeWhile fun e => !e.isClearing

/-- The first success of the reader for that class. -/
def firstFetched? (name : String) (es : List Event) : Option ClassInfo :=
  es.findSome? fun
    | .fetched n (.ok info) => if n = name then some info else none
    | _ => none

/-- The classes that have been read with success, once for each time. -/
def namesRead (es : List Event) : List String :=
  es.filterMap fun
    | .answered name (.ok _) => some name
    | _ => none

/-! ### One call -/

/-- The cache after the reader has been asked. -/
def remember (c : MetadataCache) (name : String) : Outcome → MetadataCache
  | .ok info => ⟨(name, info) :: c.classes⟩
  | .error _ => c

theorem sinceCleared_concat (es : List Event) (e : Event) :
    sinceCleared (es ++ [e]) = if e.isClearing then [] else sinceCleared es ++ [e] := by
  rw [sinceCleared, List.rtakeWhile_concat]
  cases e <;> rfl

section

variable {σ : Type} {reader : σ → String → Outcome × σ} {r : Session σ} {name : String}

theorem call_read_of_lookup {info : ClassInfo} (h : r.cache.classes.lookup name = some info) :
    r.call reader (.read name) = { r with events := r.events ++ [.answered name (.ok info)] } := by
  rw [Session.call, MetadataCache.read, h]

theorem call_read_of_absent (h : r.cache.classes.lookup name = none) :
    r.call reader (.read name) =
      ⟨r.cache.remember name (reader r.reader name).1, (reader r.reader name).2,
        r.events ++ [.fetched name (reader r.reader name).1,
          .answered name (reader r.reader name).1]⟩ := by
  rw [Session.call, MetadataCache.read, h]
  simp only [recorded]
  cases (reader r.reader name).1 <;> simp [remember]

/-! ### What the cache holds -/

/-- The cache holds the first success of the reader for each class that has been read. -/
structure Holds (c : MetadataCache) (es : List Event) : Prop where
  lookup : ∀ name, c.classes.lookup name = firstFetched? name es
  nodup : (c.classes.map (·.1)).Nodup
  mem : ∀ name, name ∈ c.classes.map (·.1) ↔ name ∈ namesRead es

theorem firstFetched?_append (name : String) (es es' : List Event) :
    firstFetched? name (es ++ es') = (firstFetched? name es).or (firstFetched? name es') :=
  List.findSome?_append

theorem namesRead_append (es es' : List Event) :
    namesRead (es ++ es') = namesRead es ++ namesRead es' := List.filterMap_append

theorem notMem_of_lookup {c : MetadataCache} (h : c.classes.lookup name = none) :
    name ∉ c.classes.map (·.1) := by
  rintro hmem
  obtain ⟨p, hp, rfl⟩ := List.mem_map.1 hmem
  have hne := List.lookup_eq_none_iff.1 h p hp
  simp at hne

namespace Holds

variable {c : MetadataCache} {es : List Event}

theorem empty : Holds {} [] := ⟨fun _ => rfl, .nil, fun _ => .rfl⟩

theorem hit {info : ClassInfo} (h : Holds c es) (hlookup : c.classes.lookup name = some info) :
    Holds c (es ++ [.answered name (.ok info)]) := by
  have hmem : name ∈ c.classes.map (·.1) := by
    obtain ⟨before, behind, hc, -⟩ := List.lookup_eq_some_iff.1 hlookup
    rw [hc]
    simp
  refine ⟨fun n => ?_, h.nodup, fun n => ?_⟩
  · rw [firstFetched?_append, h.lookup]
    exact (Option.or_none).symm
  · rw [namesRead_append, List.mem_append, ← h.mem]
    constructor
    · exact .inl
    · rintro (hn | hn)
      · exact hn
      · exact List.mem_singleton.1 hn ▸ hmem

theorem miss (h : Holds c es) (hlookup : c.classes.lookup name = none) (outcome : Outcome) :
    Holds (c.remember name outcome)
      (es ++ [.fetched name outcome, .answered name outcome]) := by
  cases outcome with
  | error e =>
    refine ⟨fun n => ?_, h.nodup, fun n => ?_⟩
    · rw [firstFetched?_append, remember, h.lookup]
      exact (Option.or_none).symm
    · rw [namesRead_append, remember, h.mem]
      exact (List.append_nil _).symm ▸ .rfl
  | ok info =>
    refine ⟨fun n => ?_, ?_, fun n => ?_⟩
    · rw [firstFetched?_append, ← h.lookup, remember, List.lookup_cons]
      by_cases hn : n = name
      · subst hn
        rw [hlookup, beq_self_eq_true]
        simp [firstFetched?]
      · rw [beq_eq_false_iff_ne.2 hn]
        simp [firstFetched?, Ne.symm hn]
    · rw [remember, List.map_cons, List.nodup_cons]
      exact ⟨notMem_of_lookup hlookup, h.nodup⟩
    · rw [remember, List.map_cons, List.mem_cons, h.mem, namesRead_append, List.mem_append,
        or_comm]
      exact or_congr_right List.mem_singleton.symm

/-- As many classes are held as have been read with success. -/
theorem size_eq (h : Holds c es) : c.size = (namesRead es).toFinset.card := by
  have hset : (c.classes.map (·.1)).toFinset = (namesRead es).toFinset :=
    List.toFinset.ext_iff.2 h.mem
  rw [← hset, List.toFinset_card_of_nodup h.nodup, List.length_map, size]

end Holds

/-! ### Any calls -/

theorem Holds.call (h : Holds r.cache (sinceCleared r.events)) (c : Call) :
    Holds (r.call reader c).cache (sinceCleared (r.call reader c).events) := by
  cases c with
  | clear =>
    rw [Session.call, sinceCleared_concat]
    exact .empty
  | read name =>
    cases hlookup : r.cache.classes.lookup name with
    | some info =>
      rw [call_read_of_lookup hlookup, sinceCleared_concat]
      exact h.hit hlookup
    | none =>
      rw [call_read_of_absent hlookup]
      dsimp only
      rw [List.append_cons, sinceCleared_concat, sinceCleared_concat]
      simp only [Event.isClearing, Bool.false_eq_true, if_false]
      rw [← List.append_cons]
      exact h.miss hlookup _

theorem Session.after_concat (s : σ) (calls : List Call) (c : Call) :
    Session.after reader s (calls ++ [c]) = (Session.after reader s calls).call reader c := by
  rw [Session.after, List.foldl_append]
  rfl

variable (reader) in
theorem holds_after (s : σ) (calls : List Call) :
    Holds (Session.after reader s calls).cache
      (sinceCleared (Session.after reader s calls).events) := by
  induction calls using List.reverseRecOn with
  | nil => exact .empty
  | append_singleton calls c ih =>
    rw [Session.after_concat]
    exact ih.call c

/-- What the cache holds has been fetched. -/
theorem fetched_of_lookup {info : ClassInfo} {es : List Event}
    (h : firstFetched? name (sinceCleared es) = some info) : .fetched name (.ok info) ∈ es := by
  obtain ⟨e, he, hinfo⟩ := List.exists_of_findSome?_eq_some h
  have hmem : e ∈ es := (List.rtakeWhile_suffix _ es).subset he
  split at hinfo
  case h_1 n info' =>
    split at hinfo
    case isTrue hn => rwa [hn, Option.some.inj hinfo] at hmem
    case isFalse => cases hinfo
  case h_2 => cases hinfo

/-- What a reader that always answers `f` has been seen to do, and the cache before it. -/
def Event.Obeys (f : String → Outcome) : Event → Prop
  | .fetched name outcome => outcome = f name
  | .answered name answer => answer = f name
  | .cleared => True

theorem obeys_after {f : String → Outcome} (hf : ∀ s name, (reader s name).1 = f name) (s : σ)
    (calls : List Call) : ∀ e ∈ (Session.after reader s calls).events, e.Obeys f := by
  induction calls using List.reverseRecOn with
  | nil => exact fun _ he => absurd he List.not_mem_nil
  | append_singleton calls c ih =>
    have h := holds_after reader s calls
    rw [Session.after_concat]
    cases c with
    | clear =>
      rw [Session.call, List.forall_mem_append, List.forall_mem_singleton]
      exact ⟨ih, trivial⟩
    | read name =>
      cases hlookup : (Session.after reader s calls).cache.classes.lookup name with
      | some info =>
        have hfetched := ih _ (fetched_of_lookup ((h.lookup name).symm.trans hlookup))
        rw [call_read_of_lookup hlookup, List.forall_mem_append, List.forall_mem_singleton]
        exact ⟨ih, hfetched⟩
      | none =>
        rw [call_read_of_absent hlookup, List.forall_mem_append, List.forall_mem_cons,
          List.forall_mem_singleton]
        exact ⟨ih, hf _ name, hf _ name⟩

/-- A memory of successes.  `hit` and `miss` say what the next read does and that it does nothing
else: both give all that has happened by then. -/
structure Remembers (reader : σ → String → Outcome × σ) (r : Session σ) : Prop where
  hit : ∀ name info, firstFetched? name (sinceCleared r.events) = some info →
    r.call reader (.read name) = { r with events := r.events ++ [.answered name (.ok info)] }
  miss : ∀ name, firstFetched? name (sinceCleared r.events) = none →
    (r.call reader (.read name)).events = r.events ++
        [.fetched name (reader r.reader name).1, .answered name (reader r.reader name).1] ∧
      (r.call reader (.read name)).reader = (reader r.reader name).2
  failure : ∀ name e, firstFetched? name (sinceCleared r.events) = none →
    (reader r.reader name).1 = .error e → (r.call reader (.read name)).cache = r.cache
  size : r.cache.size = (namesRead (sinceCleared r.events)).toFinset.card

theorem Holds.remembers (h : Holds r.cache (sinceCleared r.events)) : Remembers reader r where
  hit name info hinfo := call_read_of_lookup ((h.lookup name).trans hinfo)
  miss name hnone := by
    rw [call_read_of_absent ((h.lookup name).trans hnone)]
    exact ⟨rfl, rfl⟩
  failure name e hnone houtcome := by
    rw [call_read_of_absent ((h.lookup name).trans hnone), houtcome]
    rfl
  size := h.size_eq

end

/-- After any calls a read answers with the first success of the reader for its class since the last
clearing, without a read of the reader, and if there is none with what one read of it gives.  A
failure is not remembered, and as many classes are held as have been read with success since.  So in
front of a reader that always answers alike, every answer is the reader's. -/
theorem reads_remembered {σ : Type} (reader : σ → String → Outcome × σ) (s : σ)
    (calls : List Call) :
    Remembers reader (Session.after reader s calls) ∧
      ∀ f : String → Outcome, (∀ s name, (reader s name).1 = f name) →
        ∀ name answer, .answered name answer ∈ (Session.after reader s calls).events →
          answer = f name :=
  ⟨(holds_after reader s calls).remembers, fun _ hf _ _ hmem => obeys_after hf s calls _ hmem⟩

/-- A reader that fails at first, and later finds another resource than the second time. -/
def flaky (n : Nat) (name : String) : Outcome × Nat :=
  (if n = 0 then .error (.unreadable name "busy")
    else .ok { name := name, resource := some (if n = 1 then "old" else "new") }, n + 1)

/-- A failure, a success that the clearing forgets, and one that is remembered; and a reader that
never finds anything. -/
theorem reads_remembered_flaky :
    let r := Session.after flaky 0 [.read "a", .read "a", .clear, .read "a"]
    let missing : Unit → String → Outcome × Unit := fun _ name => (.error (.notFound name), ())
    firstFetched? "a" (sinceCleared r.events) = some { name := "a", resource := some "new" } ∧
      r.call flaky (.read "a") = { r with events := r.events ++
        [.answered "a" (.ok { name := "a", resource := some "new" })] } ∧
      firstFetched? "b" (sinceCleared r.events) = none ∧ (r.call flaky (.read "b")).reader = 4 ∧
      (Session.after flaky 0 [.read "a"]).cache = {} ∧ r.cache.size = 1 ∧
      ∀ answer, .answered "a" answer ∈ (Session.after missing () [.read "a", .read "a"]).events →
        answer = .error (.notFound "a") := by
  intro r missing
  obtain ⟨h, -⟩ := reads_remembered flaky 0 [.read "a", .read "a", .clear, .read "a"]
  have hfirst : firstFetched? "a" (sinceCleared r.events) =
      some { name := "a", resource := some "new" } := rfl
  have hnone : firstFetched? "b" (sinceCleared r.events) = none := rfl
  have hfailure := (reads_remembered flaky 0 []).1.failure "a" (.unreadable "a" "busy") rfl rfl
  have hconstant := (reads_remembered missing () [.read "a", .read "a"]).2
    (fun name => .error (.notFound name)) fun _ _ => rfl
  exact ⟨hfirst, h.hit "a" _ hfirst, hnone, (h.miss "b" hnone).2, hfailure,
    h.size.trans (by decide +kernel), hconstant "a"⟩

end MetadataCache
end Wiring
