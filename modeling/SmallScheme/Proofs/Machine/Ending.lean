import SmallScheme.Proofs.Machine.Limit
import SmallScheme.Proofs.Machine.Waiting

/-!
# How runs end

`State.EndsWith` says of a state that its run ends, with which result and with which store. A state
ends as every state does that it leads to. A call that will be left ends as what it runs, and where
the stack has no limit, a state ends alike whatever calls are in progress.
-/

namespace SmallScheme

set_option autoImplicit false

/-- A stack without a limit has room for a call. -/
theorem CallStack.full_eq_false {stack : CallStack} (h : stack.limit < 1) : stack.full = false := by
  rw [full, decide_eq_false (by omega), Bool.false_and]

namespace State

/-- The run from a state ends with a result and leaves a store behind. -/
def EndsWith (files : Files) (s : State) (r : Except Error Value) (store : Store) : Prop :=
  ∃ fuel w, run files fuel s = some (r, w) ∧ w.store = store

variable {files : Files} {s s' t : State} {r r' : Except Error Value} {store : Store}
  {control : Control} {tasks below : List Task} {w : World} {caller : Nat}

theorem endsWith_result_iff :
    EndsWith files ⟨.result r', [], w⟩ r store ↔ r = r' ∧ store = w.store := by
  constructor
  · rintro ⟨fuel, w', h, rfl⟩
    simp only [run, Option.some.injEq, Prod.mk.injEq] at h
    obtain ⟨rfl, rfl⟩ := h
    exact ⟨rfl, rfl⟩
  · rintro ⟨rfl, rfl⟩
    exact ⟨0, w, by simp only [run], rfl⟩

theorem Leads.endsWith_iff (h : Leads files s t) :
    EndsWith files s r store ↔ EndsWith files t r store := by
  constructor
  · rintro ⟨fuel, w, hr, hw⟩
    obtain ⟨fuel', hr'⟩ := h.run_eq hr
    exact ⟨fuel', w, hr', hw⟩
  · intro ht
    induction h with
    | refl => exact ht
    | step _ ih =>
      obtain ⟨fuel, w, hr, hw⟩ := ih ht
      exact ⟨fuel + 1, w, by rw [run_succ, hr], hw⟩

theorem endsWith_step_iff :
    EndsWith files (s.step files) r store ↔ EndsWith files s r store :=
  (Leads.endsWith_iff (.step (.refl _))).symm

/-- A state ends if it does so with other tasks below its own: it comes to its result first. -/
theorem Lifted.exists_run {fuel : Nat} {o : Outcome} (h : Lifted below s s')
    (hr : run files fuel s' = some o) : ∃ fuel' o', run files fuel' s = some o' := by
  induction fuel generalizing s s' with
  | zero =>
    obtain ⟨control, tasks, w⟩ := s
    obtain ⟨control', tasks', w'⟩ := s'
    obtain ⟨hc, ht, -⟩ := h
    dsimp only at hc ht
    subst hc ht
    cases control' with
    | eval | call | fetch => cases hr
    | result r =>
      cases tasks with
      | nil => exact ⟨0, (r, w), by simp only [run]⟩
      | cons => cases hr
  | succ fuel ih =>
    by_cases hs : ∃ r w, s = ⟨.result r, [], w⟩
    · obtain ⟨r, w, rfl⟩ := hs
      exact ⟨0, (r, w), by simp only [run]⟩
    · have hs : ∀ r w, s ≠ ⟨.result r, [], w⟩ := fun r w he => hs ⟨r, w, he⟩
      rw [run_succ] at hr
      obtain ⟨fuel', o', hr'⟩ := ih (h.step hs) hr
      exact ⟨fuel' + 1, o', by rw [run_succ, hr']⟩

theorem endsWith_leaving_iff :
    EndsWith files ⟨.result r', [.leave caller], w⟩ r store ↔ r = r' ∧ store = w.store := by
  rw [← endsWith_step_iff]
  cases r' with
  | ok v => exact endsWith_result_iff
  | error e =>
    obtain ⟨trace, hw⟩ := w.exists_note_eq
    have hs : w.note.popCall.store = w.store := by
      rw [hw]
      rfl
    rw [← hs]
    exact endsWith_result_iff

/-- A call that will be left ends as what it runs. -/
theorem endsWith_leave_iff :
    EndsWith files ⟨control, [.leave caller], w⟩ r store ↔
      EndsWith files ⟨control, [], w⟩ r store := by
  have hl : Lifted [.leave caller] ⟨control, [], w⟩ ⟨control, [.leave caller], w⟩ :=
    ⟨rfl, rfl, rfl, rfl, rfl⟩
  have ends {fuel : Nat} {r₁ : Except Error Value} {w₁ : World}
      (hr : run files fuel ⟨control, [], w⟩ = some (r₁, w₁)) :
      EndsWith files ⟨control, [.leave caller], w⟩ r store ↔ r = r₁ ∧ store = w₁.store := by
    obtain ⟨w₂, hw, hy⟩ := yields_of_run hl hr
    rw [hy.leads.endsWith_iff, endsWith_leaving_iff, hw.store_eq]
  constructor
  · intro h
    obtain ⟨fuel, w', hr, hs⟩ := h
    obtain ⟨fuel', ⟨r₁, w₁⟩, hr₁⟩ := hl.exists_run hr
    obtain ⟨rfl, rfl⟩ := (ends hr₁).mp ⟨fuel, w', hr, hs⟩
    exact ⟨fuel', w₁, hr₁, rfl⟩
  · rintro ⟨fuel, w', hr, rfl⟩
    exact (ends hr).mpr ⟨rfl, rfl⟩

/-- Without a limit no call overflows the stack. -/
theorem ne_overflow_of_run {base : CallStack} {fuel : Nat} (hl : base.limit < 1)
    (hb : s.BalancedOn base) (ho : ¬ s.Overflowed) (h : run files fuel s = some (r, w)) (n : Int) :
    r ≠ .error (.stackOverflow n) := by
  rintro rfl
  obtain ⟨t, hr⟩ := exists_raises h
  obtain ⟨-, hfull, -⟩ := hr.overflow_eq ho (hr.control_eq h)
  have hb : t.BalancedOn base := hr.leads.invariant (fun _ => balanced_step) hb
  have hlimit : t.world.stack.limit = base.limit := Balanced.limit_eq hb
  rw [CallStack.full_eq_false (hlimit ▸ hl)] at hfull
  cases hfull

theorem endsWith_of_withCalls {stack : CallStack} {trace : Option CallStack}
    (hl : w.stack.limit < 1) (hl' : stack.limit < 1) (hc : ∀ r, control ≠ .result r)
    (h : EndsWith files ⟨control, [], w⟩ r store) :
    EndsWith files ⟨control, [], w.withCalls stack trace⟩ r store := by
  obtain ⟨fuel, w', hr, rfl⟩ := h
  have hb : w.stack.headroom ≤ stack.headroom := by
    rw [CallStack.headroom, CallStack.headroom, if_pos hl, if_pos hl']
  have ho : ¬ (State.mk control [] w).Overflowed := by
    rintro ⟨n, hn⟩
    exact hc _ hn
  obtain ⟨stack', trace', hr'⟩ := run_withCalls hb (balanced_start control w)
    (balanced_start control (w.withCalls stack trace)) hr
    (ne_overflow_of_run hl (balanced_start control w) ho hr)
  exact ⟨fuel, _, hr', rfl⟩

/-- Without a limit, what the machine comes to does not depend on the calls in progress. -/
theorem endsWith_withCalls_iff {stack : CallStack} {trace : Option CallStack}
    (hl : w.stack.limit < 1) (hl' : stack.limit < 1) (hc : ∀ r, control ≠ .result r) :
    EndsWith files ⟨control, [], w.withCalls stack trace⟩ r store ↔
      EndsWith files ⟨control, [], w⟩ r store :=
  ⟨fun h => endsWith_of_withCalls (w := w.withCalls stack trace) hl' hl hc h,
    endsWith_of_withCalls hl hl' hc⟩

end State

namespace World

/-- The application of a procedure to arguments, made from a frame, ends with a result and leaves a
store behind. -/
def Applies (files : Files) (w : World) (caller : Nat) (procedure : Value) (args : List Value)
    (r : Except Error Value) (store : Store) : Prop :=
  ∃ fuel w', w.apply files fuel caller procedure args = some (r, w') ∧ w'.store = store

variable {files : Files} {w : World} {caller : Nat} {procedure : Value} {args : List Value}
  {r : Except Error Value} {store : Store}

/-- Where the limit admits a call, the application of a procedure ends as what the call runs. -/
theorem applies_iff_enter (hp : procedure.isProcedure = true) (hf : w.stack.full = false) :
    w.Applies files caller procedure args r store ↔
      State.EndsWith files (State.enter caller procedure args [.leave caller]
        (w.forget.pushCall [] procedure)) r store := by
  have hs : State.step files ⟨.call caller [] procedure args, [], w⟩ =
      State.enter caller procedure args [.leave caller] (w.forget.pushCall [] procedure) := by
    rw [State.step, State.call, if_pos hp, hf]
    rfl
  rw [← hs]
  exact State.endsWith_step_iff.symm

end World

end SmallScheme
