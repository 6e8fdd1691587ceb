import Wiring.Run.State

/-!
# Outcomes of steps

A step ends with a result or with a failure, and with a state in both cases.  The lemmas here
say what each outcome of a composed step says of its parts.
-/

namespace Wiring

section

variable {σ α β : Type} {s t : σ} {e : Failure}

theorem bind_eq_ok {x : EStateM Failure σ α} {f : α → EStateM Failure σ β} {b : β} :
    (x >>= f) s = .ok b t ↔ ∃ a u, x s = .ok a u ∧ f a u = .ok b t := by
  simp only [bind, EStateM.bind]
  cases x s with
  | ok a u =>
    constructor
    · intro h
      exact ⟨a, u, rfl, h⟩
    · rintro ⟨_, _, hx, hf⟩
      cases hx
      exact hf
  | error e u => simp

theorem bind_eq_error {x : EStateM Failure σ α} {f : α → EStateM Failure σ β} :
    (x >>= f) s = .error e t ↔ x s = .error e t ∨ ∃ a u, x s = .ok a u ∧ f a u = .error e t := by
  simp only [bind, EStateM.bind]
  cases x s with
  | ok a u =>
    constructor
    · intro h
      exact .inr ⟨a, u, rfl, h⟩
    · rintro (hx | ⟨_, _, hx, hf⟩)
      · cases hx
      · cases hx
        exact hf
  | error e u => simp

theorem pure_eq_ok {a b : α} :
    (pure a : EStateM Failure σ α) s = .ok b t ↔ a = b ∧ s = t := by
  simp [pure, EStateM.pure]

theorem pure_ne_error {a : α} : (pure a : EStateM Failure σ α) s ≠ .error e t := by
  intro h
  cases h

theorem get_eq_ok {u : σ} : (get : EStateM Failure σ σ) s = .ok u t ↔ s = u ∧ s = t := by
  show EStateM.Result.ok s s = .ok u t ↔ _
  rw [EStateM.Result.ok.injEq]

theorem get_ne_error : (get : EStateM Failure σ σ) s ≠ .error e t := by
  intro h
  cases h

theorem set_eq_ok {u : σ} {x : PUnit} :
    (set u : EStateM Failure σ PUnit) s = .ok x t ↔ u = t := by
  show EStateM.Result.ok ⟨⟩ u = .ok x t ↔ _
  rw [EStateM.Result.ok.injEq]
  exact and_iff_right rfl

theorem modify_eq_ok {f : σ → σ} {x : PUnit} :
    (modify f : EStateM Failure σ PUnit) s = .ok x t ↔ f s = t := by
  show EStateM.Result.ok ⟨⟩ (f s) = .ok x t ↔ _
  rw [EStateM.Result.ok.injEq]
  exact and_iff_right rfl

theorem modify_ne_error {f : σ → σ} :
    (modify f : EStateM Failure σ PUnit) s ≠ .error e t := by
  intro h
  cases h

theorem get_bind_apply {f : σ → EStateM Failure σ β} : (get >>= f) s = f s s := rfl

theorem get_bind_eq {f : σ → EStateM Failure σ β} {r : EStateM.Result Failure σ β} :
    (get >>= f) s = r ↔ f s s = r := Iff.rfl

theorem set_bind_eq {u : σ} {f : PUnit → EStateM Failure σ β} {r : EStateM.Result Failure σ β} :
    (set u >>= f) s = r ↔ f ⟨⟩ u = r := Iff.rfl

theorem modify_bind_eq {g : σ → σ} {f : PUnit → EStateM Failure σ β}
    {r : EStateM.Result Failure σ β} : (modify g >>= f) s = r ↔ f ⟨⟩ (g s) = r := Iff.rfl

theorem throw_ne_ok {a : α} : (throw e : EStateM Failure σ α) s ≠ .ok a t := by
  intro h
  cases h

theorem throw_eq_error {e' : Failure} :
    (throw e : EStateM Failure σ α) s = .error e' t ↔ e = e' ∧ s = t := by
  show EStateM.Result.error e s = .error e' t ↔ _
  rw [EStateM.Result.error.injEq]

theorem ofExcept_eq_ok {x : Except Failure α} {a : α} :
    (ofExcept x : EStateM Failure σ α) s = .ok a t ↔ x = .ok a ∧ s = t := by
  cases x with
  | ok b => simp [ofExcept, pure_eq_ok]
  | error e => simp [ofExcept, throw_ne_ok]

theorem ofExcept_eq_error {x : Except Failure α} :
    (ofExcept x : EStateM Failure σ α) s = .error e t ↔ x = .error e ∧ s = t := by
  cases x with
  | ok b => simp [ofExcept, pure_ne_error]
  | error e' => simp [ofExcept, throw_eq_error]

theorem ofExcept_bind_eq_ok {x : Except Failure α} {f : α → EStateM Failure σ β} {b : β} :
    (ofExcept x >>= f) s = .ok b t ↔ ∃ a, x = .ok a ∧ f a s = .ok b t := by
  rw [bind_eq_ok]
  constructor
  · rintro ⟨a, _, hs, hf⟩
    obtain ⟨hx, rfl⟩ := ofExcept_eq_ok.1 hs
    exact ⟨a, hx, hf⟩
  · rintro ⟨a, hx, hf⟩
    exact ⟨a, s, ofExcept_eq_ok.2 ⟨hx, rfl⟩, hf⟩

theorem ofExcept_bind_eq_error {x : Except Failure α} {f : α → EStateM Failure σ β} :
    (ofExcept x >>= f) s = .error e t ↔
      (x = .error e ∧ s = t) ∨ ∃ a, x = .ok a ∧ f a s = .error e t := by
  rw [bind_eq_error, ofExcept_eq_error]
  refine or_congr Iff.rfl ?_
  constructor
  · rintro ⟨a, _, hs, hf⟩
    obtain ⟨hx, rfl⟩ := ofExcept_eq_ok.1 hs
    exact ⟨a, hx, hf⟩
  · rintro ⟨a, hx, hf⟩
    exact ⟨a, s, ofExcept_eq_ok.2 ⟨hx, rfl⟩, hf⟩

theorem map_eq_ok {f : α → β} {x : EStateM Failure σ α} {b : β} :
    (f <$> x) s = .ok b t ↔ ∃ a, x s = .ok a t ∧ f a = b := by
  simp only [Functor.map, EStateM.map]
  cases x s with
  | ok a u => grind
  | error e u => simp

theorem map_eq_error {f : α → β} {x : EStateM Failure σ α} :
    (f <$> x) s = .error e t ↔ x s = .error e t := by
  simp only [Functor.map, EStateM.map]
  cases x s with
  | ok a u => simp
  | error e u => simp

theorem tryCatch_apply (x : EStateM Failure σ α) (f : Failure → EStateM Failure σ α) (s : σ) :
    (tryCatch x f) s =
      match x s with
      | .ok a u => .ok a u
      | .error e u => f e u := by
  show EStateM.tryCatch x f s = _
  delta EStateM.tryCatch
  cases x s <;> rfl

theorem tryCatch_eq_ok {x : EStateM Failure σ α} {f : Failure → EStateM Failure σ α} {a : α} :
    (tryCatch x f) s = .ok a t ↔ x s = .ok a t ∨ ∃ e u, x s = .error e u ∧ f e u = .ok a t := by
  rw [tryCatch_apply]
  cases x s with
  | ok a u => simp
  | error e u =>
    constructor
    · intro h
      exact .inr ⟨e, u, rfl, h⟩
    · rintro (hx | ⟨_, _, hx, hf⟩)
      · cases hx
      · cases hx
        exact hf

theorem tryCatch_eq_error {x : EStateM Failure σ α} {f : Failure → EStateM Failure σ α} :
    (tryCatch x f) s = .error e t ↔ ∃ e' u, x s = .error e' u ∧ f e' u = .error e t := by
  rw [tryCatch_apply]
  cases x s with
  | ok a u => simp
  | error e' u =>
    constructor
    · intro h
      exact ⟨e', u, rfl, h⟩
    · rintro ⟨_, _, hx, hf⟩
      cases hx
      exact hf

/-- What relates the states before and after each step of a loop, if it is reflexive and
transitive, relates those before and after the loop. -/
theorem forM_induction {R : σ → σ → Prop} (refl : ∀ s, R s s)
    (trans : ∀ {s t u}, R s t → R t u → R s u) {f : α → EStateM Failure σ PUnit} {as : List α}
    {x : PUnit} (step : ∀ a ∈ as, ∀ {s t}, f a s = .ok () t → R s t)
    (h : as.forM f s = .ok x t) : R s t := by
  induction as generalizing s with
  | nil =>
    obtain ⟨_, rfl⟩ := pure_eq_ok.1 h
    exact refl s
  | cons a as ih =>
    obtain ⟨_, u, ha, h⟩ := bind_eq_ok.1 h
    have hfirst := step a List.mem_cons_self ha
    exact trans hfirst (ih (fun a ha => step a (List.mem_cons_of_mem _ ha)) h)

/-- A loop that fails does so at one of its steps, after some that succeeded. -/
theorem forM_eq_error {R : σ → σ → Prop} (refl : ∀ s, R s s)
    (trans : ∀ {s t u}, R s t → R t u → R s u) {f : α → EStateM Failure σ PUnit} {as : List α}
    (step : ∀ a ∈ as, ∀ {s t}, f a s = .ok () t → R s t) (h : as.forM f s = .error e t) :
    ∃ a ∈ as, ∃ u, R s u ∧ f a u = .error e t := by
  induction as generalizing s with
  | nil => exact absurd h pure_ne_error
  | cons a as ih =>
    obtain ha | ⟨_, u, ha, h⟩ := bind_eq_error.1 h
    · exact ⟨a, List.mem_cons_self, s, refl s, ha⟩
    · have hfirst := step a List.mem_cons_self ha
      obtain ⟨a', ha', v, huv, hfail⟩ := ih (fun a ha => step a (List.mem_cons_of_mem _ ha)) h
      exact ⟨a', List.mem_cons_of_mem _ ha', v, trans hfirst huv, hfail⟩

theorem ensuring_eq_ok {after : σ → σ} {x : EStateM Failure σ α} {a : α} :
    ensuring after x s = .ok a t ↔ ∃ u, x s = .ok a u ∧ after u = t := by
  rw [ensuring]
  cases x s with
  | ok b u => simp [and_assoc]
  | error e u => simp

theorem ensuring_eq_error {after : σ → σ} {x : EStateM Failure σ α} :
    ensuring after x s = .error e t ↔ ∃ u, x s = .error e u ∧ after u = t := by
  rw [ensuring]
  cases x s with
  | ok b u => simp
  | error e u => simp [and_assoc]

theorem onFailure_eq_ok {f : Failure → Failure} {x : EStateM Failure σ α} {a : α} :
    onFailure f x s = .ok a t ↔ x s = .ok a t := by
  rw [onFailure]
  cases x s with
  | ok b u => simp
  | error e u => simp

theorem onFailure_eq_error {f : Failure → Failure} {x : EStateM Failure σ α} :
    onFailure f x s = .error e t ↔ ∃ e', x s = .error e' t ∧ f e' = e := by
  rw [onFailure]
  cases x s with
  | ok b u => simp
  | error e u => grind

theorem onFailure_ensuring (f : Failure → Failure) (after : σ → σ) (x : EStateM Failure σ α) :
    onFailure f (ensuring after x) = ensuring after (onFailure f x) := by
  funext s
  rw [onFailure, ensuring, ensuring, onFailure]
  cases x s <;> rfl

/-- The state in which a step ends, whether it succeeds or fails. -/
def finalState {σ α : Type} : EStateM.Result Failure σ α → σ
  | .ok _ s => s
  | .error _ s => s

/-- A step succeeds, and the state after it passes a check. -/
def succeedsWith (check : σ → Bool) : EStateM.Result Failure σ Unit → Bool
  | .ok _ t => check t
  | .error _ _ => false

theorem exists_of_succeedsWith {x : EStateM.Result Failure σ Unit} {check : σ → Bool}
    (h : succeedsWith check x = true) : ∃ t, x = .ok () t ∧ check t = true := by
  cases x with
  | ok a t => exact ⟨t, rfl, h⟩
  | error e t => cases h

/-- A step fails, and the state in which it does passes a check. -/
def failsWith (check : σ → Bool) : EStateM.Result Failure σ Unit → Bool
  | .ok _ _ => false
  | .error _ t => check t

theorem exists_of_failsWith {x : EStateM.Result Failure σ Unit} {check : σ → Bool}
    (h : failsWith check x = true) : ∃ e t, x = .error e t ∧ check t = true := by
  cases x with
  | ok a t => cases h
  | error e t => exact ⟨e, t, rfl, h⟩

/-- The failure of a step, if it fails. -/
def failure? {σ α : Type} : EStateM.Result Failure σ α → Option Failure
  | .ok _ _ => none
  | .error e _ => some e

theorem exists_of_failure? {x : EStateM.Result Failure σ α} (h : failure? x = some e) :
    ∃ t, x = .error e t := by
  cases x with
  | ok a t => cases h
  | error e' t =>
    obtain rfl := Option.some.inj h
    exact ⟨t, rfl⟩

theorem exists_of_not_succeedsWith {x : EStateM.Result Failure σ Unit}
    (h : succeedsWith (fun _ => true) x = false) : ∃ e t, x = .error e t := by
  cases x with
  | ok a t => cases h
  | error e t => exact ⟨e, t, rfl⟩

end

theorem exceptToOption_eq_some {ε α : Type} {x : Except ε α} {a : α} :
    x.toOption = some a ↔ x = .ok a := by
  cases x <;> simp [Except.toOption]

theorem exceptMap_eq_ok {ε α β : Type} {f : α → β} {x : Except ε α} {b : β} :
    x.map f = .ok b ↔ ∃ a, x = .ok a ∧ f a = b := by
  cases x with
  | ok a => simp [Except.map]
  | error e => simp [Except.map]

theorem exceptBind_eq_ok {ε α β : Type} {x : Except ε α} {f : α → Except ε β} {b : β} :
    (x >>= f) = .ok b ↔ ∃ a, x = .ok a ∧ f a = .ok b := by
  cases x with
  | ok a => simp [bind, Except.bind]
  | error e => simp [bind, Except.bind]

/-- What relates the values before and after each step of a fold relates those before and after
the fold. -/
theorem exceptFoldlM_induction {ε α β : Type} {R : β → β → Prop} (refl : ∀ b, R b b)
    (trans : ∀ {a b c}, R a b → R b c → R a c) {f : β → α → Except ε β} {as : List α} {b c : β}
    (step : ∀ a ∈ as, ∀ {b c}, f b a = .ok c → R b c) (h : as.foldlM f b = .ok c) : R b c := by
  induction as generalizing b with
  | nil =>
    obtain rfl := Except.ok.inj h
    exact refl b
  | cons a as ih =>
    obtain ⟨d, hd, h⟩ := exceptBind_eq_ok.1 h
    have hfirst := step a List.mem_cons_self hd
    exact trans hfirst (ih (fun a ha => step a (List.mem_cons_of_mem _ ha)) h)

theorem exists_of_mem_mapM_eq_ok {ε α β : Type} {f : α → Except ε β} {as : List α} {bs : List β}
    (h : as.mapM f = .ok bs) : ∀ b ∈ bs, ∃ a ∈ as, f a = .ok b := by
  induction as generalizing bs with
  | nil =>
    obtain rfl := Except.ok.inj h
    simp
  | cons a as ih =>
    rw [List.mapM_cons] at h
    cases ha : f a with
    | error e =>
      rw [ha] at h
      cases h
    | ok b =>
      rw [ha] at h
      cases has : as.mapM f with
      | error e =>
        rw [has] at h
        cases h
      | ok bs' =>
        rw [has] at h
        obtain rfl := Except.ok.inj h
        intro b' hb'
        obtain rfl | hb' := List.mem_cons.1 hb'
        · exact ⟨a, List.mem_cons_self, ha⟩
        · obtain ⟨a', ha', hf⟩ := ih has b' hb'
          exact ⟨a', List.mem_cons_of_mem _ ha', hf⟩

theorem record_bind_eq {β : Type} {f : ConfigClass → RecordM β} {s : Collecting}
    {r : EStateM.Result Failure Collecting β} :
    (RecordM.record >>= f) s = r ↔ f s.record s = r := Iff.rfl

theorem toRecordM_eq_ok {α : Type} {act : RunM α} {s t : Collecting} {a : α} :
    (liftM act : RecordM α) s = .ok a t ↔ ∃ run, act s.run = .ok a run ∧ { s with run } = t := by
  show act.toRecordM s = _ ↔ _
  rw [RunM.toRecordM]
  cases act s.run with
  | ok b u => simp [and_assoc]
  | error e u => simp

theorem toRecordM_eq_error {α : Type} {act : RunM α} {s t : Collecting} {e : Failure} :
    (liftM act : RecordM α) s = .error e t ↔
      ∃ run, act s.run = .error e run ∧ { s with run } = t := by
  show act.toRecordM s = _ ↔ _
  rw [RunM.toRecordM]
  cases act s.run with
  | ok b u => simp
  | error e u => simp [and_assoc]

section

variable {α : Type} {record record' : ConfigClass} {act : RecordM α} {s t : Run}

theorem on_eq_ok_ok {a : α} :
    RecordM.on record act s = .ok (record', .ok a) t ↔ act ⟨record, s⟩ = .ok a ⟨record', t⟩ := by
  rw [RecordM.on]
  cases act ⟨record, s⟩ with
  | ok b u =>
    obtain ⟨r, run⟩ := u
    simp only [EStateM.Result.ok.injEq, Prod.mk.injEq, Except.ok.injEq, Collecting.mk.injEq]
    exact ⟨fun h => ⟨h.1.2, h.1.1, h.2⟩, fun h => ⟨⟨h.2.1, h.1⟩, h.2.2⟩⟩
  | error e u => simp

theorem on_eq_ok_error {e : Failure} :
    RecordM.on record act s = .ok (record', .error e) t ↔
      act ⟨record, s⟩ = .error e ⟨record', t⟩ := by
  rw [RecordM.on]
  cases act ⟨record, s⟩ with
  | ok b u => simp
  | error e u =>
    obtain ⟨r, run⟩ := u
    simp only [EStateM.Result.ok.injEq, EStateM.Result.error.injEq, Prod.mk.injEq,
      Except.error.injEq, Collecting.mk.injEq]
    exact ⟨fun h => ⟨h.1.2, h.1.1, h.2⟩, fun h => ⟨⟨h.2.1, h.1⟩, h.2.2⟩⟩

theorem on_ne_error {e : Failure} : RecordM.on record act s ≠ .error e t := by
  rw [RecordM.on]
  cases act ⟨record, s⟩ with
  | ok b u => simp
  | error e u => simp

end

end Wiring
