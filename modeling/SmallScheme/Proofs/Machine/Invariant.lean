import SmallScheme.Machine.Run

/-!
# Invariants of runs

What every step preserves holds of the state in which a run finishes. A state that leads to a result
for which no task waits finishes, since the steps can be counted. Bookkeeping on errors changes the
trace of a world and nothing else.
-/

namespace SmallScheme

set_option autoImplicit false

namespace World

theorem exists_forget_eq (w : World) : ∃ trace, w.forget = { w with trace := trace } := by
  unfold forget
  split
  · exact ⟨none, rfl⟩
  · exact ⟨w.trace, rfl⟩

theorem exists_note_eq (w : World) : ∃ trace, w.note = { w with trace := trace } := by
  unfold note
  split
  · exact ⟨some w.stack, rfl⟩
  · exact ⟨w.trace, rfl⟩

end World

namespace State

variable {files : Files} {P : State → Prop}

/-- A property that steps preserve holds where a run finishes. -/
theorem invariant_run (step : ∀ s, P s → P (s.step files)) {fuel : Nat} {s : State}
    {r : Except Error Value} {w : World} (h : P s) (hr : run files fuel s = some (r, w)) :
    P ⟨.result r, [], w⟩ := by
  fun_induction run files fuel s with
  | case1 fuel r' w' =>
    obtain ⟨rfl, rfl⟩ := Prod.mk.inj (Option.some.inj hr)
    exact h
  | case2 => cases hr
  | case3 fuel s _ ih => exact ih (step s h) hr

theorem run_succ (files : Files) (fuel : Nat) (s : State) :
    run files (fuel + 1) s = run files fuel (s.step files) := by
  obtain ⟨control, tasks, w⟩ := s
  cases control with
  | eval | call | fetch => rfl
  | result r =>
    cases tasks with
    | nil => cases r <;> simp only [step, run]
    | cons => rfl

/-- One state leads to another by steps, perhaps none. -/
inductive Leads (files : Files) : State → State → Prop where
  | refl (s : State) : Leads files s s
  | step {s t : State} : Leads files (s.step files) t → Leads files s t

namespace Leads

variable {s t u : State}

theorem trans (hst : Leads files s t) (htu : Leads files t u) : Leads files s u := by
  induction hst with
  | refl => exact htu
  | step _ ih => exact .step (ih htu)

theorem exists_run {r : Except Error Value} {w : World}
    (h : Leads files s ⟨.result r, [], w⟩) : ∃ fuel, run files fuel s = some (r, w) := by
  generalize ht : State.mk (.result r) [] w = t at h
  induction h with
  | refl s =>
    subst ht
    exact ⟨0, by simp only [run]⟩
  | step _ ih =>
    obtain ⟨fuel, hf⟩ := ih ht
    exact ⟨fuel + 1, by rw [run_succ, hf]⟩

end Leads

end State

end SmallScheme
