import Wiring.Proofs.Quiet

/-!
# Endings

What holds of the end of a step, whether it succeeds or fails.  `Ends r Q F` says that the outcome
`r` is a result for which `Q` holds or a failure for which `F` does.  The rules push it from a
composed step into its parts, in the order in which they run, so that a proof about both outcomes
follows the text of the step once.
-/

namespace Wiring

/-- The outcome meets `Q` if it is a result and `F` if it is a failure. -/
def Ends {σ α : Type} (r : EStateM.Result Failure σ α) (Q : α → σ → Prop)
    (F : Failure → σ → Prop) : Prop :=
  match r with
  | .ok a t => Q a t
  | .error e t => F e t

section

variable {σ α β : Type} {s t : σ} {Q : α → σ → Prop} {F : Failure → σ → Prop}

theorem Ends.of_ok {r : EStateM.Result Failure σ α} {a : α} (h : Ends r Q F) (hr : r = .ok a t) :
    Q a t := by
  rw [hr] at h
  exact h

theorem Ends.of_error {r : EStateM.Result Failure σ α} {e : Failure} (h : Ends r Q F)
    (hr : r = .error e t) : F e t := by
  rw [hr] at h
  exact h

theorem ends_of {r : EStateM.Result Failure σ α} (ok : ∀ a t, r = .ok a t → Q a t)
    (error : ∀ e t, r = .error e t → F e t) : Ends r Q F := by
  cases r with
  | ok a t => exact ok a t rfl
  | error e t => exact error e t rfl

theorem Ends.imp {r : EStateM.Result Failure σ α} {Q' : α → σ → Prop} {F' : Failure → σ → Prop}
    (h : Ends r Q F) (ok : ∀ a t, Q a t → Q' a t) (error : ∀ e t, F e t → F' e t) :
    Ends r Q' F' :=
  ends_of (fun _ _ hr => ok _ _ (h.of_ok hr)) fun _ _ hr => error _ _ (h.of_error hr)

/-- What holds however a step ends holds of its final state. -/
theorem Ends.finalState {r : EStateM.Result Failure σ α} {P : σ → Prop}
    (h : Ends r (fun _ => P) fun _ => P) : P (finalState r) := by
  cases r with
  | ok a t => exact h
  | error e t => exact h

theorem ends_bind {x : EStateM Failure σ α} {f : α → EStateM Failure σ β} {R : β → σ → Prop} :
    Ends ((x >>= f) s) R F ↔ Ends (x s) (fun a t => Ends (f a t) R F) F := by
  simp only [bind, EStateM.bind]
  cases x s <;> rfl

/-- The first part is known to succeed. -/
theorem ends_bind_of_ok {x : EStateM Failure σ α} {f : α → EStateM Failure σ β}
    {R : β → σ → Prop} {a : α} (hx : x s = .ok a t) :
    Ends ((x >>= f) s) R F ↔ Ends (f a t) R F := by
  rw [ends_bind, hx]
  rfl

theorem ends_modify {f : σ → σ} {R : PUnit → σ → Prop} :
    Ends ((modify f : EStateM Failure σ PUnit) s) R F ↔ R ⟨⟩ (f s) := Iff.rfl

theorem ends_ofExcept {x : Except Failure α} :
    Ends ((ofExcept x : EStateM Failure σ α) s) Q F ↔
      (∀ a, x = .ok a → Q a s) ∧ ∀ e, x = .error e → F e s := by
  cases x with
  | ok a =>
    show Q a s ↔ _
    simp
  | error e =>
    show F e s ↔ _
    simp

theorem ends_onFailure {g : Failure → Failure} {x : EStateM Failure σ α} :
    Ends (onFailure g x s) Q F ↔ Ends (x s) Q fun e t => F (g e) t := by
  rw [onFailure]
  cases x s <;> rfl

theorem ends_ensuring {after : σ → σ} {x : EStateM Failure σ α} :
    Ends (ensuring after x s) Q F ↔
      Ends (x s) (fun a t => Q a (after t)) fun e t => F e (after t) := by
  rw [ensuring]
  cases x s <;> rfl

/-- A loop keeps what each of its rounds keeps. -/
theorem ends_forM {f : α → EStateM Failure σ PUnit} {as : List α} {P : σ → Prop}
    (step : ∀ a ∈ as, ∀ s, P s → Ends (f a s) (fun _ => P) F) (hs : P s) :
    Ends (as.forM f s) (fun _ => P) F := by
  induction as generalizing s with
  | nil => exact hs
  | cons a as ih =>
    refine ends_bind.2 ((step a List.mem_cons_self s hs).imp (fun _ t ht => ?_) fun _ _ h => h)
    exact ih (fun a ha => step a (List.mem_cons_of_mem _ ha)) ht

end

theorem ends_lift {α : Type} {act : RunM α} {s : Collecting} {Q : α → Collecting → Prop}
    {F : Failure → Collecting → Prop} :
    Ends ((liftM act : RecordM α) s) Q F ↔
      Ends (act s.run) (fun a run => Q a { s with run }) fun e run => F e { s with run } := by
  show Ends (act.toRecordM s) Q F ↔ _
  rw [RunM.toRecordM]
  cases act s.run <;> rfl

theorem ends_on {α : Type} {record : ConfigClass} {act : RecordM α} {s : Run}
    {Q : ConfigClass × Except Failure α → Run → Prop} {F : Failure → Run → Prop} :
    Ends (RecordM.on record act s) Q F ↔
      Ends (act ⟨record, s⟩) (fun a t => Q (t.record, .ok a) t.run)
        fun e t => Q (t.record, .error e) t.run := by
  rw [RecordM.on]
  cases act ⟨record, s⟩ <;> rfl

/-- A quiet step ends on the course of the run, with a plain failure if it fails. -/
theorem Quiet.ends {α : Type} {act : RunM α} (h : Quiet act) (s : Run) :
    Ends (act s) (fun _ t => s.SameCourse t) fun e t => s.SameCourse t ∧ e.isPlain = true :=
  ends_of (fun _ _ hr => h.ok hr) fun _ _ hr => h.error hr

end Wiring
