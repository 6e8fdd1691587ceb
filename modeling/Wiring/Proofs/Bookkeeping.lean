import Wiring.Proofs.Conduct
import Wiring.Proofs.Precedence

/-!
# Bookkeeping

A run keeps account of where it is: the stack of the classes whose imports are being processed,
the depth, and whether the queue of deferred selectors is open.  A step changes all three on its
way and puts them back before it ends, also if it fails in the middle.
-/

namespace Wiring

/-- What a run keeps account of is the same after `t` as after `s`, and in between it came to
no depth below zero or above the limit. -/
structure Run.Restored (w : World) (s t : Run) : Prop where
  stack : t.stack = s.stack
  depth : t.depth = s.depth
  queue : t.queue.isSome = s.queue.isSome
  levels : ∃ visited, t.levels = visited ++ s.levels ∧
    ∀ level ∈ visited, 0 ≤ level ∧ level ≤ (w.maxDepth : Int)

namespace Run.Restored

variable {w : World} {s t u : Run}

theorem refl (s : Run) : s.Restored w s := ⟨rfl, rfl, rfl, [], rfl, by simp⟩

theorem trans (h : s.Restored w t) (h' : t.Restored w u) : s.Restored w u where
  stack := h'.stack.trans h.stack
  depth := h'.depth.trans h.depth
  queue := h'.queue.trans h.queue
  levels := by
    obtain ⟨visited, hvisited, hbounds⟩ := h.levels
    obtain ⟨visited', hvisited', hbounds'⟩ := h'.levels
    refine ⟨visited' ++ visited, ?_, fun level hlevel => ?_⟩
    · rw [hvisited', hvisited, List.append_assoc]
    · rcases List.mem_append.1 hlevel with hlevel | hlevel
      · exact hbounds' level hlevel
      · exact hbounds level hlevel

/-- Nothing is accounted for by what changes. -/
theorem of_eq (stack : t.stack = s.stack) (depth : t.depth = s.depth)
    (queue : t.queue.isSome = s.queue.isSome) (levels : t.levels = s.levels) :
    s.Restored w t :=
  ⟨stack, depth, queue, [], levels, by simp⟩

theorem of_sameCourse (h : s.SameCourse t) : s.Restored w t :=
  of_eq h.stack h.depth (by rw [h.queue]) h.levels

/-- What was done on top of a class that was pushed leaves it on top. -/
theorem pop {c : ClassInfo} (h : Run.Restored w { s with stack := c :: s.stack } t) :
    s.Restored w (RunM.pop t) where
  stack := by
    unfold RunM.pop
    rw [h.stack]
    rfl
  depth := h.depth
  queue := h.queue
  levels := h.levels

/-- What was done one level deeper ends there, so the level can be left. -/
theorem ascend (hdepth : s.depth < w.maxDepth) (h : (RunM.deepen s).Restored w t) :
    s.Restored w (RunM.ascend t) where
  stack := h.stack
  depth := by
    unfold RunM.ascend
    rw [h.depth]
    rfl
  queue := h.queue
  levels := by
    obtain ⟨visited, hvisited, hbounds⟩ := h.levels
    have hlast : (t.depth : Int) - 1 = s.depth := by
      have hsame : t.depth = s.depth + 1 := h.depth
      omega
    refine ⟨(s.depth : Int) :: visited ++ [(s.depth : Int) + 1], ?_, fun level hlevel => ?_⟩
    · unfold RunM.ascend
      rw [hlast, hvisited]
      simp [RunM.deepen]
    · rcases List.mem_append.1 hlevel with hlevel | hlevel
      · rcases List.mem_cons.1 hlevel with rfl | hlevel
        · omega
        · exact hbounds level hlevel
      · rw [List.mem_singleton.1 hlevel]
        omega

/-- A record is closed on the level where it was opened. -/
theorem close {c : ConfigClass} (hdepth : s.depth < w.maxDepth)
    (h : (s.opening c).Restored w t) : s.Restored w (RunM.close t) := by
  have hleft : s.Restored w (RunM.ascend t) :=
    ascend hdepth ⟨h.stack, h.depth, h.queue, h.levels⟩
  exact ⟨hleft.stack, hleft.depth, hleft.queue, hleft.levels⟩

/-- The queue is closed while its selectors are resolved, and then it is open again. -/
theorem reopen (hopen : s.queue.isSome = true) (h : Run.Restored w { s with queue := none } t) :
    s.Restored w { t with queue := some [] } :=
  ⟨h.stack, h.depth, hopen.symm, h.levels⟩

end Run.Restored

theorem evenConduct_restored (w : World) : EvenConduct w (Run.Restored w) where
  refl := .refl
  trans h h' := h.trans h'
  aside _ _ stack depth queue levels := .of_eq stack depth queue levels
  produce t _ := ⟨fun h => .of_sameCourse ((quiet_produce w t).ok h),
    fun h => .of_sameCourse ((quiet_produce w t).error h).1⟩
  addSource x := ⟨fun h => .of_sameCourse ((quiet_addSource x).ok h),
    fun h => .of_sameCourse ((quiet_addSource x).error h).1⟩
  pop h := h.pop
  ascend hdepth h := h.ascend hdepth
  close hdepth h := h.close hdepth
  reopen hopen h := h.reopen hopen

/-- However a step ends, it has restored what it changed. -/
theorem conduct_restored (w : World) : FullConduct w (.both (Run.Restored w)) :=
  (evenConduct_restored w).full

/-! ## Calls -/

namespace Run

/-- The calls that resolve configuration classes. -/
inductive Call where
  | parse (seeds : List NamedDefinition)
  | className (name beanName : String)
  | loaded (type : LoadedType) (beanName : String)
  | info (c : ClassInfo) (beanName : String)
  | deferred

namespace Call

variable {w : World}

def run (w : World) : Call → RunM Unit
  | parse seeds => Run.parse w seeds
  | className name beanName => parseClassName w name beanName
  | loaded type beanName => parseLoaded w type beanName
  | info c beanName => parseInfo w c beanName
  | deferred => resolveDeferred w

theorem obeys {R : Law Run} (hR : FullConduct w R) (call : Call) : Obeys R (call.run w) := by
  have hsteps := obey_steps hR w.fuel
  cases call with
  | parse seeds => exact obeys_parse hR seeds
  | className name beanName => exact hR.bind (hR.ofExcept _) fun _ => hsteps.enter _ _
  | loaded type beanName => exact hsteps.enter _ _
  | info c beanName => exact hsteps.enter _ _
  | deferred => exact obeys_resolveDeferred hR

theorem restores (call : Call) : Obeys (.both (Run.Restored w)) (call.run w) :=
  call.obeys (conduct_restored w)

/-- The state that the call leaves, whether it succeeds or fails.  The next call goes on from
it. -/
def after (w : World) (call : Call) (s : Run) : Run := finalState (call.run w s)

/-- A call between two others leaves the stack and the depth as they were and the queue open,
whether it succeeds or fails, and came to no depth below zero or above the limit. -/
theorem restored_after (w : World) (call : Call) {s : Run} (hopen : s.queue.isSome = true) :
    s.Restored w (call.after w s) ∧ (call.after w s).queue.isSome = true := by
  have hrestored : s.Restored w (call.after w s) := call.restores.finalState s
  exact ⟨hrestored, hrestored.queue.trans hopen⟩

/-- The calls made one after the other leave a run as one call does. -/
theorem restored_afterAll (w : World) (calls : List Call) (s : Run) :
    s.Restored w (calls.foldl (fun s call => call.after w s) s) := by
  induction calls generalizing s with
  | nil => exact .refl s
  | cons call calls ih => exact (call.restores.finalState s).trans (ih _)

end Call
end Run

/-- A class imports another one, in a world that goes only one level deep. -/
def shallow : World where
  resolver := { reader := { index := ⟨[{ name := "app.A", tags := [.importing ["app.B"]] },
    { name := "app.B" }]⟩ } }
  maxDepth := 1

set_option maxRecDepth 100000 in
/-- The import fails two levels down, and the first class has been left all the same. -/
theorem restored_after_shallow :
    (∃ e t, Run.parse shallow (seedsOf ["app.A"]) {} = .error e t ∧ t.levels = [0, 1]) ∧
      Run.Restored shallow {} ((Run.Call.parse (seedsOf ["app.A"])).after shallow {}) ∧
      ((Run.Call.parse (seedsOf ["app.A"])).after shallow {}).queue.isSome = true := by
  have hfails : failsWith (fun t => t.levels == [0, 1])
      (Run.parse shallow (seedsOf ["app.A"]) {}) = true := by
    decide +kernel
  obtain ⟨e, t, hparse, hlevels⟩ := exists_of_failsWith hfails
  exact ⟨⟨e, t, hparse, by simpa using hlevels⟩,
    Run.Call.restored_after shallow (.parse (seedsOf ["app.A"])) rfl⟩

end Wiring
