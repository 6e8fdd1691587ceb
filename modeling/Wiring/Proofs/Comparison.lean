import Wiring.Proofs.Coherence

/-!
# Comparing two runs

Two runs begin alike and take the same steps.  They stay alike, or the second one is cut off: it
fails where the first one goes on.  What counts of a view, what holds of the first run meanwhile
and what cuts off the second is left open here, so that the steps have to be walked through only
once, whatever two runs are compared for.
-/

namespace Wiring

/-! ## Values that hold views -/

/-- A value in which views can be replaced. -/
class HasViews (α : Type) where
  mapViews : (View → View) → α → α

export HasViews (mapViews)

/-- Most values hold no views. -/
instance (priority := low) {α : Type} : HasViews α := ⟨fun _ a => a⟩

section

variable {α β κ : Type} [HasViews α] [HasViews β]

instance : HasViews View := ⟨fun f v => f v⟩

instance : HasViews (List α) := ⟨fun f as => as.map (mapViews f)⟩

instance : HasViews (Option α) := ⟨fun f a => a.map (mapViews f)⟩

instance : HasViews (α × β) := ⟨fun f x => (mapViews f x.1, mapViews f x.2)⟩

instance : HasViews (OrderedMap κ α) :=
  ⟨fun f m => ⟨m.entries.map fun e => (e.1, mapViews f e.2)⟩⟩

instance : HasViews ConfigClass :=
  ⟨fun f c => { c with view := f c.view, sources := mapViews f c.sources }⟩

instance : HasViews Deferred := ⟨fun f d => { d with owner := f d.owner }⟩

instance : HasViews Grouping := ⟨fun f g => { g with members := mapViews f g.members }⟩

instance : HasViews Run :=
  ⟨fun f s => { s with classes := mapViews f s.classes, queue := mapViews f s.queue }⟩

instance : HasViews Collecting :=
  ⟨fun f s => { record := mapViews f s.record, run := mapViews f s.run }⟩

instance {ε : Type} : HasViews (Except ε α) := ⟨fun f x => x.map (mapViews f)⟩

instance {σ : Type} [HasViews σ] : HasViews (EStateM.Result Failure σ α) where
  mapViews f
    | .ok a s => .ok (mapViews f a) (mapViews f s)
    | .error e s => .error e (mapViews f s)

end

theorem Run.environment_congr {f : View → View} {s t : Run} (h : mapViews f s = mapViews f t) :
    s.environment = t.environment := (congrArg Run.environment h :)

theorem RunM.surroundings_congr {f : View → View} {s t : Run} (h : mapViews f s = mapViews f t)
    (w : World) : surroundings w s = surroundings w t := (congrArg (surroundings w) h :)

theorem Run.mapViews_id (s : Run) : mapViews id s = s := by
  have hclass (c : ConfigClass) : mapViews id c = c :=
    congrArg (fun us => { c with sources := us }) (List.map_id c.sources)
  have hclasses : s.classes.entries.map (fun e => (e.1, mapViews id e.2)) = s.classes.entries := by
    simp only [hclass]
    exact List.map_id _
  have hqueue : s.queue.map (List.map (mapViews id)) = s.queue := by
    rw [show (mapViews id : Deferred → Deferred) = id from rfl, List.map_id_fun, Option.map_id]
    rfl
  exact congrArg₂ (fun m q => { s with classes := ⟨m⟩, queue := q }) hclasses hqueue

theorem Run.eq_of_mapViews_id {s t : Run} (h : mapViews id s = mapViews id t) : s = t := by
  rwa [mapViews_id, mapViews_id] at h

theorem Run.mapViews_mapViews (f g : View → View) (s : Run) :
    mapViews g (mapViews f s) = mapViews (g ∘ f) s := by
  have hclass (c : ConfigClass) : mapViews g (mapViews f c) = mapViews (g ∘ f) c :=
    congrArg (fun us => { c with view := g (f c.view), sources := us }) List.map_map
  have hclasses : (s.classes.entries.map fun e => (e.1, mapViews f e.2)).map
      (fun e => (e.1, mapViews g e.2)) =
        s.classes.entries.map fun e => (e.1, mapViews (g ∘ f) e.2) := by
    rw [List.map_map]
    simp only [Function.comp_def, hclass]
  have hqueue : (s.queue.map (List.map (mapViews f))).map (List.map (mapViews g)) =
      s.queue.map (List.map (mapViews (g ∘ f))) := by
    rw [Option.map_map, List.map_comp_map]
    rfl
  exact congrArg₂ (fun m q => { s with classes := ⟨m⟩, queue := q }) hclasses hqueue

namespace OrderedMap

variable {κ α : Type} [DecidableEq κ] [HasViews α] (f : View → View)

theorem get?_mapViews (m : OrderedMap κ α) (k : κ) :
    (mapViews f m).get? k = (m.get? k).map (mapViews f) := get?_map m (mapViews f) k

theorem get?_congr {f : View → View} {m m' : OrderedMap κ α} (h : mapViews f m = mapViews f m')
    (k : κ) : mapViews f (m.get? k) = mapViews f (m'.get? k) := by
  show (m.get? k).map _ = (m'.get? k).map _
  rw [← get?_mapViews, h, get?_mapViews]

theorem contains_congr {f : View → View} {m m' : OrderedMap κ α}
    (h : mapViews f m = mapViews f m') (k : κ) : m.contains k = m'.contains k := by
  have hget : (m.get? k).map (mapViews f) = (m'.get? k).map (mapViews f) := get?_congr h k
  rw [contains, contains, ← Option.isSome_map, hget, Option.isSome_map]

omit [DecidableEq κ] in
theorem size_congr {f : View → View} {m m' : OrderedMap κ α} (h : mapViews f m = mapViews f m') :
    m.size = m'.size := by
  have hsize (m : OrderedMap κ α) : (mapViews f m).size = m.size := List.length_map _
  rw [← hsize, h, hsize]

omit [DecidableEq κ] in
theorem values_congr {f : View → View} {m m' : OrderedMap κ α} (h : mapViews f m = mapViews f m') :
    mapViews f m.values = mapViews f m'.values := by
  have hvalues (m : OrderedMap κ α) : (mapViews f m).values = mapViews f m.values := by
    show List.map _ (List.map _ m.entries) = List.map _ (List.map _ m.entries)
    rw [List.map_map, List.map_map]
    rfl
  rw [← hvalues, h, hvalues]

theorem put_mapViews (k : κ) (a : α) (es : List (κ × α)) :
    (put k a es).map (fun e => (e.1, mapViews f e.2)) =
      put k (mapViews f a) (es.map fun e => (e.1, mapViews f e.2)) := by
  induction es with
  | nil => rfl
  | cons e es ih =>
    rw [put, List.map_cons, put]
    split
    · rfl
    · rw [List.map_cons, ih]

theorem mapViews_insert (m : OrderedMap κ α) (k : κ) (a : α) :
    mapViews f (m.insert k a) = (mapViews f m).insert k (mapViews f a) :=
  congrArg mk (put_mapViews f k a m.entries)

theorem mapViews_erase (m : OrderedMap κ α) (k : κ) :
    mapViews f (m.erase k) = (mapViews f m).erase k := by
  refine congrArg mk ?_
  show (m.entries.eraseP _).map _ = (m.entries.map _).eraseP _
  rw [List.eraseP_map]
  rfl

theorem mapViews_modify_congr {m m' : OrderedMap κ α} {g g' : α → α}
    (hm : mapViews f m = mapViews f m')
    (hg : ∀ a a', mapViews f a = mapViews f a' → mapViews f (g a) = mapViews f (g' a')) (k : κ) :
    mapViews f (m.modify k g) = mapViews f (m'.modify k g') := by
  have hget : (m.get? k).map (mapViews f) = (m'.get? k).map (mapViews f) := get?_congr hm k
  rw [modify, modify]
  cases ha : m.get? k with
  | none =>
    rw [ha, Option.map_none, eq_comm, Option.map_eq_none_iff] at hget
    rw [hget]
    exact hm
  | some a =>
    rw [ha, Option.map_some, eq_comm, Option.map_eq_some_iff] at hget
    obtain ⟨a', ha', haa⟩ := hget
    rw [ha']
    dsimp only
    rw [mapViews_insert, mapViews_insert, hm, hg a a' haa.symm]

end OrderedMap

/-! ## Comparisons -/

/-- The event comes from resolving deferred selectors. -/
def Event.isDeferral : Event → Bool
  | deferredSelected _ _ | processed _ _ | entriesTaken _ => true
  | _ => false

/-- From `s` to `t` nothing is said: no event and no problem is added.  The queue is not opened or
closed, and what waits keeps its place. -/
structure Run.Tacit (s t : Run) : Prop where
  events : t.events = s.events
  problems : t.problems = s.problems
  queue : t.queue = s.queue ∨ ∃ ds more, s.queue = some ds ∧ t.queue = some (ds ++ more)

/-- What two runs are compared for. -/
structure Comparison where
  /-- What counts of a view. -/
  view : View → View
  /-- Only steps without an open queue are compared. -/
  onlyClosed : Bool
  /-- Holds of the first run from the beginning of a step to its end, while the second is alike. -/
  Keeps : Run → Run → Prop
  /-- After a common beginning the second run is cut off.  Its failure and where it ends stand
  after and beside where the first run has come to. -/
  Cuts : Run → Failure → Run → Run → Prop
  keeps_tacit : ∀ {s t : Run}, s.Tacit t → Keeps s t
  keeps_emit : ∀ {s : Run} {e : Event}, e.isDeferral = false ∨ s.queue = none →
    Keeps s { s with events := s.events ++ [e] }
  keeps_trans : ∀ {s t u : Run}, Keeps s t → Keeps t u → Keeps s u
  keeps_queue : ∀ {s t : Run}, Keeps s t → t.queue.isSome = s.queue.isSome
  cuts_queue : ∀ {s t t' : Run} {e : Failure}, Cuts s e t t' → t.queue.isSome = s.queue.isSome
  cuts_after : ∀ {s t u u' : Run} {e : Failure}, Keeps s t → Cuts t e u u' → Cuts s e u u'
  /-- The first run goes on, by itself. -/
  cuts_goesOn : ∀ {s t t' u : Run} {e : Failure}, Cuts s e t t' →
    (Keeps t u ∨ ∃ e' u', Cuts t e' u u') → Cuts s e u t'
  cuts_tacit : ∀ {s t t' u u' : Run} {e : Failure}, Cuts s e t t' → t.Tacit u → t'.Tacit u' →
    Cuts s e u u'
  cuts_within : ∀ {s t t' : Run} {e : Failure} (activity : Activity) (className : String),
    Cuts s e t t' → Cuts s (e.within activity className) t t'

/-- A state of a run, or of a run in which a record is being collected. -/
class HasRun (σ : Type) where
  runOf : σ → Run

export HasRun (runOf)

instance : HasRun Run := ⟨id⟩

instance : HasRun Collecting := ⟨Collecting.run⟩

namespace Run.Tacit

theorem of_eq {s t : Run} (events : t.events = s.events) (problems : t.problems = s.problems)
    (queue : t.queue = s.queue) : s.Tacit t := ⟨events, problems, .inl queue⟩

theorem refl (s : Run) : s.Tacit s := .of_eq rfl rfl rfl

theorem isSome_queue {s t : Run} (h : s.Tacit t) : t.queue.isSome = s.queue.isSome := by
  obtain heq | ⟨ds, more, hs, ht⟩ := h.queue
  · rw [heq]
  · rw [hs, ht]
    rfl

end Run.Tacit

namespace Comparison

/-- The steps that are compared may begin here. -/
def Starts (K : Comparison) (s : Run) : Prop := K.onlyClosed = true → s.queue = none

variable {K : Comparison} {σ α β γ : Type} [HasRun σ] [HasViews σ]

theorem Starts.of_queue {s t : Run} (h : K.Starts s) (hst : t.queue.isSome = s.queue.isSome) :
    K.Starts t := by
  intro hclosed
  rw [h hclosed] at hst
  exact Option.isSome_eq_false_iff.1 hst |> Option.isNone_iff_eq_none.1

/-- The outcomes that two steps with a common beginning come to. -/
inductive Meets [HasViews α] (K : Comparison) (s : Run) :
    EStateM.Result Failure σ α → EStateM.Result Failure σ α → Prop
  | ok {a b : α} {t t' : σ} : mapViews K.view a = mapViews K.view b →
      mapViews K.view t = mapViews K.view t' → K.Keeps s (runOf t) →
      Meets K s (.ok a t) (.ok b t')
  | error {e : Failure} {t t' : σ} : mapViews K.view t = mapViews K.view t' →
      K.Keeps s (runOf t) → Meets K s (.error e t) (.error e t')
  | cut {x : EStateM.Result Failure σ α} {e : Failure} {t' : σ} :
      K.Cuts s e (runOf (finalState x)) (runOf t') → Meets K s x (.error e t')

theorem Meets.after [HasViews α] {s t : Run} {x y : EStateM.Result Failure σ α}
    (h : K.Meets t x y) (hst : K.Keeps s t) : K.Meets s x y := by
  cases h with
  | ok hab ht hkeeps => exact .ok hab ht (K.keeps_trans hst hkeeps)
  | error ht hkeeps => exact .error ht (K.keeps_trans hst hkeeps)
  | cut hcuts => exact .cut (K.cuts_after hst hcuts)

/-- Where the first run has come to, whether or not the second has been cut off. -/
theorem Meets.keeps_or_cuts [HasViews α] {s : Run} {x y : EStateM.Result Failure σ α}
    (h : K.Meets s x y) :
    K.Keeps s (runOf (finalState x)) ∨ ∃ e u', K.Cuts s e (runOf (finalState x)) u' := by
  cases h with
  | ok _ _ hkeeps => exact .inl hkeeps
  | error _ hkeeps => exact .inl hkeeps
  | cut hcuts => exact .inr ⟨_, _, hcuts⟩

/-- Neither run is cut off: they are alike to the end. -/
def keeping (view : View → View) (onlyClosed : Bool) (Keeps : Run → Run → Prop)
    (tacit : ∀ {s t : Run}, s.Tacit t → Keeps s t)
    (emit : ∀ {s : Run} {e : Event}, e.isDeferral = false ∨ s.queue = none →
      Keeps s { s with events := s.events ++ [e] })
    (trans : ∀ {s t u : Run}, Keeps s t → Keeps t u → Keeps s u)
    (queue : ∀ {s t : Run}, Keeps s t → t.queue.isSome = s.queue.isSome) : Comparison where
  view := view
  onlyClosed := onlyClosed
  Keeps := Keeps
  Cuts _ _ _ _ := False
  keeps_tacit := tacit
  keeps_emit := emit
  keeps_trans := trans
  keeps_queue := queue
  cuts_queue := False.elim
  cuts_after _ h := h
  cuts_goesOn h _ := h
  cuts_tacit h _ _ := h
  cuts_within _ _ h := h

/-- Nothing else is asked of the runs than to be alike. -/
def upTo (view : View → View) : Comparison :=
  keeping view false (fun s t => t.queue.isSome = s.queue.isSome) (fun h => h.isSome_queue)
    (fun _ => rfl) (fun h h' => h'.trans h) id

/-- The comparison without an end of the second run only. -/
def uncut (K : Comparison) : Comparison :=
  keeping K.view K.onlyClosed K.Keeps K.keeps_tacit K.keeps_emit K.keeps_trans K.keeps_queue

/-- The comparison of those steps only that begin without an open queue. -/
def closed (K : Comparison) : Comparison := { K with onlyClosed := true }

theorem Meets.of_closed [HasViews α] {s : Run} {x y : EStateM.Result Failure σ α}
    (h : K.closed.Meets s x y) : K.Meets s x y := by
  cases h with
  | ok hab ht hkeeps => exact .ok hab ht hkeeps
  | error ht hkeeps => exact .error ht hkeeps
  | cut hcuts => exact .cut hcuts

end Comparison

/-- From states that are alike the two steps come to outcomes that meet. -/
def Alike {σ α : Type} [HasRun σ] [HasViews σ] [HasViews α] (K : Comparison)
    (x y : EStateM Failure σ α) : Prop :=
  ∀ s s', mapViews K.view s = mapViews K.view s' → K.Starts (runOf s) →
    K.Meets (runOf s) (x s) (y s')

section

variable {K : Comparison} {σ α β γ : Type} [HasRun σ] [HasViews σ]

theorem Alike.closed [HasViews α] {x y : EStateM Failure σ α} (h : Alike K x y) :
    Alike K.closed x y := by
  intro s s' hs hstarts
  have hmeets := h s s' hs fun _ => hstarts rfl
  generalize x s = rx at hmeets ⊢
  generalize y s' = ry at hmeets ⊢
  cases hmeets with
  | ok hab ht hkeeps => exact .ok hab ht hkeeps
  | error ht hkeeps => exact .error ht hkeeps
  | cut hcuts => exact .cut hcuts

/-- If all of a view counts, steps that are alike come to the same, unless the second is cut
off. -/
theorem Alike.eq_or_cuts {x y : RunM Unit} (h : Alike K x y) (hview : K.view = id) {s : Run}
    (hstarts : K.Starts s) : (x s = y s ∧ K.Keeps s (finalState (x s))) ∨
      ∃ e t', y s = .error e t' ∧ K.Cuts s e (finalState (x s)) t' := by
  have hmeets := h s s rfl hstarts
  rw [runOf] at hmeets
  generalize x s = rx at hmeets ⊢
  generalize y s = ry at hmeets ⊢
  cases hmeets with
  | ok _ ht hkeeps =>
    rw [hview] at ht
    exact .inl ⟨congrArg (EStateM.Result.ok ()) (Run.eq_of_mapViews_id ht), hkeeps⟩
  | @error e t t' ht hkeeps =>
    rw [hview] at ht
    exact .inl ⟨congrArg (EStateM.Result.error e) (Run.eq_of_mapViews_id ht), hkeeps⟩
  | cut hcuts => exact .inr ⟨_, _, rfl, hcuts⟩

theorem keeps_refl (s : Run) : K.Keeps s s := K.keeps_tacit (.refl s)

theorem alike_pure [HasViews α] {a b : α} (h : mapViews K.view a = mapViews K.view b) :
    Alike K (pure a : EStateM Failure σ α) (pure b) :=
  fun _ _ hs _ => .ok h hs (keeps_refl _)

theorem alike_throw [HasViews α] (e : Failure) :
    Alike K (throw e : EStateM Failure σ α) (throw e) :=
  fun _ _ hs _ => .error hs (keeps_refl _)

theorem alike_ofExcept [HasViews α] {x y : Except Failure α}
    (h : mapViews K.view x = mapViews K.view y) :
    Alike K (ofExcept x : EStateM Failure σ α) (ofExcept y) := by
  cases x with
  | ok a =>
    cases y with
    | ok b => exact alike_pure (Except.ok.inj h)
    | error e => cases h
  | error e =>
    cases y with
    | ok b => cases h
    | error e' =>
      obtain rfl := Except.error.inj h
      exact alike_throw e

theorem alike_get : Alike K (get : EStateM Failure σ σ) get :=
  fun _ _ hs _ => .ok hs hs (keeps_refl _)

theorem alike_modify {f g : σ → σ}
    (hfg : ∀ s s', mapViews K.view s = mapViews K.view s' →
      mapViews K.view (f s) = mapViews K.view (g s'))
    (hf : ∀ s, (runOf s).Tacit (runOf (f s))) :
    Alike K (modify f : EStateM Failure σ PUnit) (modify g) :=
  fun s s' hs _ => .ok rfl (hfg s s' hs) (K.keeps_tacit (hf s))

theorem alike_bind [HasViews α] [HasViews β] {x y : EStateM Failure σ α}
    {f g : α → EStateM Failure σ β} (hxy : Alike K x y)
    (hfg : ∀ a b, mapViews K.view a = mapViews K.view b → Alike K (f a) (g b)) :
    Alike K (x >>= f) (y >>= g) := by
  intro s s' hs hstarts
  have hmeets := hxy s s' hs hstarts
  show K.Meets (runOf s) (EStateM.bind x f s) (EStateM.bind y g s')
  unfold EStateM.bind
  generalize x s = rx at hmeets ⊢
  generalize y s' = ry at hmeets ⊢
  cases hmeets with
  | ok hab ht hkeeps =>
    exact (hfg _ _ hab _ _ ht (hstarts.of_queue (K.keeps_queue hkeeps))).after hkeeps
  | error ht hkeeps => exact .error ht hkeeps
  | cut hcuts =>
    cases rx with
    | error e t => exact .cut hcuts
    | ok a t =>
      -- the first run goes on alone, which is compared with itself
      have hrest := hfg a a rfl t t rfl (hstarts.of_queue (K.cuts_queue hcuts))
      exact .cut (K.cuts_goesOn hcuts hrest.keeps_or_cuts)

/-- What a step comes to that holds no views is the same for both. -/
theorem alike_bind_same [HasViews β] {x y : EStateM Failure σ α} {f g : α → EStateM Failure σ β}
    (hxy : Alike K x y) (hfg : ∀ a, Alike K (f a) (g a)) : Alike K (x >>= f) (y >>= g) := by
  refine alike_bind hxy fun a b hab => ?_
  obtain rfl : a = b := hab
  exact hfg a

theorem alike_bind_list [HasViews β] {x y : EStateM Failure σ (List α)}
    {f g : List α → EStateM Failure σ β} (hxy : Alike K x y) (hfg : ∀ as, Alike K (f as) (g as)) :
    Alike K (x >>= f) (y >>= g) := by
  refine alike_bind hxy fun as bs hab => ?_
  replace hab : as.map id = bs.map id := hab
  rw [List.map_id, List.map_id] at hab
  rw [hab]
  exact hfg bs

/-- The state is changed in a way that may depend on what else is read from it. -/
theorem alike_get_set [HasViews β] {after : σ → σ} {f g : σ → EStateM Failure σ β}
    (hviews : ∀ s s', mapViews K.view s = mapViews K.view s' →
      mapViews K.view (after s) = mapViews K.view (after s'))
    (hafter : ∀ s, (runOf s).Tacit (runOf (after s)))
    (hfg : ∀ s s', mapViews K.view s = mapViews K.view s' → Alike K (f s) (g s')) :
    Alike K (do let s ← get; set (after s); f s) (do let s ← get; set (after s); g s) := by
  intro s s' hs hstarts
  have hkeeps : K.Keeps (runOf s) (runOf (after s)) := K.keeps_tacit (hafter s)
  have hrest := hfg s s' hs _ _ (hviews s s' hs) (hstarts.of_queue (K.keeps_queue hkeeps))
  exact hrest.after hkeeps

theorem alike_map_same [HasViews β] {x y : EStateM Failure σ α} (f : α → β) (hxy : Alike K x y) :
    Alike K (f <$> x) (f <$> y) := by
  rw [map_eq_pure_bind, map_eq_pure_bind]
  exact alike_bind_same hxy fun a => alike_pure rfl

theorem forall₂_of_mapViews [HasViews α] {f : View → View} {as bs : List α}
    (h : mapViews f as = mapViews f bs) :
    List.Forall₂ (fun a b => mapViews f a = mapViews f b) as bs := by
  have heq : List.Forall₂ Eq (as.map (mapViews f)) (bs.map (mapViews f)) := by
    rw [List.forall₂_eq_eq_eq]
    exact h
  rwa [List.forall₂_map_left_iff, List.forall₂_map_right_iff] at heq

theorem alike_forM [HasViews α] {f g : α → EStateM Failure σ PUnit} {as bs : List α}
    (has : mapViews K.view as = mapViews K.view bs)
    (hfg : ∀ a b, mapViews K.view a = mapViews K.view b → Alike K (f a) (g b)) :
    Alike K (as.forM f) (bs.forM g) := by
  replace has := forall₂_of_mapViews has
  induction has with
  | nil => exact alike_pure rfl
  | cons hab _ ih => exact alike_bind_same (hfg _ _ hab) fun _ => ih

theorem alike_forM_same {f g : α → EStateM Failure σ PUnit} (hfg : ∀ a, Alike K (f a) (g a))
    (as : List α) : Alike K (as.forM f) (as.forM g) :=
  alike_forM rfl fun a b hab => by
    obtain rfl : a = b := hab
    exact hfg a

theorem alike_mapM [HasViews α] [HasViews β] {f g : α → EStateM Failure σ β} {as bs : List α}
    (has : mapViews K.view as = mapViews K.view bs)
    (hfg : ∀ a b, mapViews K.view a = mapViews K.view b → Alike K (f a) (g b)) :
    Alike K (as.mapM f) (bs.mapM g) := by
  replace has := forall₂_of_mapViews has
  induction has with
  | nil => exact alike_pure rfl
  | cons hab _ ih =>
    rw [List.mapM_cons, List.mapM_cons]
    refine alike_bind (hfg _ _ hab) fun c d hcd => alike_bind ih fun cs ds hcds => alike_pure ?_
    exact congrArg₂ List.cons hcd hcds

theorem alike_foldlM [HasViews α] [HasViews β] {f g : β → α → EStateM Failure σ β}
    {as bs : List α} (has : mapViews K.view as = mapViews K.view bs)
    (hfg : ∀ a b c d, mapViews K.view a = mapViews K.view b →
      mapViews K.view c = mapViews K.view d → Alike K (f c a) (g d b))
    {c d : β} (hcd : mapViews K.view c = mapViews K.view d) :
    Alike K (as.foldlM f c) (bs.foldlM g d) := by
  replace has := forall₂_of_mapViews has
  induction has generalizing c d with
  | nil => exact alike_pure hcd
  | cons hab _ ih =>
    rw [List.foldlM_cons, List.foldlM_cons]
    exact alike_bind (hfg _ _ _ _ hab hcd) fun c d hcd => ih hcd

/-- A failure can only be caught if it does not cut off the second run. -/
theorem alike_tryCatch [HasViews α] {x y : EStateM Failure σ α}
    {f g : Failure → EStateM Failure σ α} (hxy : Alike K.uncut x y)
    (hfg : ∀ e, Alike K (f e) (g e)) : Alike K (tryCatch x f) (tryCatch y g) := by
  intro s s' hs hstarts
  have hmeets := hxy s s' hs hstarts
  rw [tryCatch_apply, tryCatch_apply]
  generalize x s = rx at hmeets ⊢
  generalize y s' = ry at hmeets ⊢
  cases hmeets with
  | ok hab ht hkeeps => exact .ok hab ht hkeeps
  | error ht hkeeps =>
    -- both runs have failed in the same way, so both go on with what handles the failure
    exact (hfg _ _ _ ht (hstarts.of_queue (K.keeps_queue hkeeps))).after hkeeps
  | cut hcuts => exact hcuts.elim

theorem alike_ensuring [HasViews α] {after : σ → σ} {x y : EStateM Failure σ α}
    (hxy : Alike K x y)
    (hviews : ∀ s s', mapViews K.view s = mapViews K.view s' →
      mapViews K.view (after s) = mapViews K.view (after s'))
    (hafter : ∀ s, (runOf s).Tacit (runOf (after s))) :
    Alike K (ensuring after x) (ensuring after y) := by
  intro s s' hs hstarts
  have hmeets := hxy s s' hs hstarts
  unfold ensuring
  generalize x s = rx at hmeets ⊢
  generalize y s' = ry at hmeets ⊢
  cases hmeets with
  | ok hab ht hkeeps =>
    exact .ok hab (hviews _ _ ht) (K.keeps_trans hkeeps (K.keeps_tacit (hafter _)))
  | error ht hkeeps =>
    exact .error (hviews _ _ ht) (K.keeps_trans hkeeps (K.keeps_tacit (hafter _)))
  | cut hcuts =>
    refine .cut (K.cuts_tacit hcuts ?_ (hafter _))
    cases rx with
    | ok a t => exact hafter t
    | error e t => exact hafter t

theorem alike_within [HasViews α] {x y : EStateM Failure σ α} (activity : Activity)
    (className : String) (hxy : Alike K x y) :
    Alike K (onFailure (Failure.within activity className) x)
      (onFailure (Failure.within activity className) y) := by
  intro s s' hs hstarts
  have hmeets := hxy s s' hs hstarts
  unfold onFailure
  generalize x s = rx at hmeets ⊢
  generalize y s' = ry at hmeets ⊢
  cases hmeets with
  | ok hab ht hkeeps => exact .ok hab ht hkeeps
  | error ht hkeeps => exact .error ht hkeeps
  | cut hcuts =>
    refine .cut (K.cuts_within activity className ?_)
    cases rx with
    | ok a t => exact hcuts
    | error e t => exact hcuts

end

section

variable {K : Comparison} {α : Type} [HasViews α]

theorem alike_toRecordM {x y : RunM α} (hxy : Alike K x y) :
    Alike K (liftM x : RecordM α) (liftM y) := by
  intro s s' hs hstarts
  obtain ⟨hrecord, hrun⟩ := Collecting.mk.inj hs
  have hmeets := hxy s.run s'.run hrun hstarts
  show K.Meets (runOf s) (x.toRecordM s) (y.toRecordM s')
  unfold RunM.toRecordM
  generalize x s.run = rx at hmeets ⊢
  generalize y s'.run = ry at hmeets ⊢
  cases hmeets with
  | ok hab ht hkeeps => exact .ok hab (congrArg₂ Collecting.mk hrecord ht) hkeeps
  | error ht hkeeps => exact .error (congrArg₂ Collecting.mk hrecord ht) hkeeps
  | cut hcuts =>
    refine .cut ?_
    cases rx with
    | ok a t => exact hcuts
    | error e t => exact hcuts

theorem alike_record : Alike K RecordM.record RecordM.record :=
  alike_bind alike_get fun _ _ hs => alike_pure (congrArg Collecting.record hs)

theorem alike_modifyRecord {f g : ConfigClass → ConfigClass}
    (hfg : ∀ c d, mapViews K.view c = mapViews K.view d →
      mapViews K.view (f c) = mapViews K.view (g d)) :
    Alike K (RecordM.modifyRecord f) (RecordM.modifyRecord g) := by
  refine alike_modify (fun s s' hs => ?_) fun s => .refl _
  obtain ⟨hrecord, hrun⟩ := Collecting.mk.inj hs
  exact congrArg₂ Collecting.mk (hfg _ _ hrecord) hrun

/-- Collects on a record of its own and then changes the run, also if collecting fails. -/
def settle (after : ConfigClass → Run → Run) (record : ConfigClass) (act : RecordM α) :
    RunM (ConfigClass × α) := fun s =>
  match act ⟨record, s⟩ with
  | .ok a t => .ok (t.record, a) (after t.record t.run)
  | .error e t => .error e (after t.record t.run)

omit [HasViews α] in
/-- The result of `settle` alone. -/
theorem map_snd_settle (after : ConfigClass → Run → Run) (record : ConfigClass)
    (act : RecordM α) :
    Prod.snd <$> settle after record act = (do
      let (record, result) ← RecordM.on record act
      modify (after record)
      ofExcept result) := by
  funext s
  simp only [bind, EStateM.bind, Functor.map, EStateM.map, RecordM.on, settle]
  cases act ⟨record, s⟩ with
  | ok a t => rfl
  | error e t => rfl

/-- The record of `settle` alone, if the change of the run does not depend on it. -/
theorem map_fst_settle (after : Run → Run) (record : ConfigClass) (act : RecordM Unit) :
    Prod.fst <$> settle (fun _ => after) record act = (do
      let (record, result) ← ensuring after (RecordM.on record act)
      ofExcept result
      return record) := by
  funext s
  simp only [bind, EStateM.bind, Functor.map, EStateM.map, ensuring, RecordM.on, settle]
  cases act ⟨record, s⟩ with
  | ok a t => rfl
  | error e t => rfl

theorem alike_settle (after : ConfigClass → Run → Run) {x y : RecordM α} {c d : ConfigClass}
    (hxy : Alike K x y) (hcd : mapViews K.view c = mapViews K.view d)
    (hviews : ∀ c d s s', mapViews K.view c = mapViews K.view d →
      mapViews K.view s = mapViews K.view s' →
      mapViews K.view (after c s) = mapViews K.view (after d s'))
    (hafter : ∀ (c : ConfigClass) (s : Run), s.Tacit (after c s)) :
    Alike K (settle after c x) (settle after d y) := by
  intro s s' hs hstarts
  have hmeets := hxy ⟨c, s⟩ ⟨d, s'⟩ (congrArg₂ Collecting.mk hcd hs) hstarts
  unfold settle
  generalize x ⟨c, s⟩ = rx at hmeets ⊢
  generalize y ⟨d, s'⟩ = ry at hmeets ⊢
  cases hmeets with
  | ok hab ht hkeeps =>
    obtain ⟨hrecord, hrun⟩ := Collecting.mk.inj ht
    exact .ok (congrArg₂ Prod.mk hrecord hab) (hviews _ _ _ _ hrecord hrun)
      (K.keeps_trans hkeeps (K.keeps_tacit (hafter _ _)))
  | error ht hkeeps =>
    obtain ⟨hrecord, hrun⟩ := Collecting.mk.inj ht
    exact .error (hviews _ _ _ _ hrecord hrun)
      (K.keeps_trans hkeeps (K.keeps_tacit (hafter _ _)))
  | cut hcuts =>
    refine .cut (K.cuts_tacit hcuts ?_ (hafter _ _))
    cases rx with
    | ok a t => exact hafter _ _
    | error e t => exact hafter _ _

end

end Wiring
