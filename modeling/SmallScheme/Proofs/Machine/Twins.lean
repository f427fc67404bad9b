import Mathlib.Data.Option.Basic
import SmallScheme.Proofs.Machine.Failure
import SmallScheme.Proofs.Machine.Waiting

/-!
# Runs with other symbol tables

Worlds that differ at most in the symbol table of their readers are twins. The machine cannot tell
them apart: it makes the same steps in both, so forms that are evaluated one after another have the
same values, fail with the same error and leave twins behind (`World.twin_evalEach`).
-/

namespace SmallScheme

set_option autoImplicit false

/-- Worlds that are the same up to the contents of the symbol table. -/
structure World.Twin (w w' : World) : Prop extends w.Same w' where
  trace_eq : w'.trace = w.trace

/-- States that do the same in twin worlds. -/
structure State.Twin (s s' : State) : Prop extends s.Lifted [] s' where
  trace_eq : s'.world.trace = s.world.trace

/-- Outcomes that are the same up to the contents of the symbol table. -/
structure World.TwinOutcomes (o o' : Outcome) : Prop where
  result_eq : o'.1 = o.1
  world : o.2.Twin o'.2

/-- Batches that are the same up to the contents of the symbol table. -/
structure World.TwinBatches (b b' : World.Batch) : Prop where
  values_eq : b'.values = b.values
  failure_eq : b'.failure = b.failure
  world : b.world.Twin b'.world

variable {files : Files} {frame fuel : Nat} {w w' : World}

namespace World

theorem Twin.refl (w : World) : w.Twin w := ⟨⟨rfl, rfl, rfl⟩, rfl⟩

theorem Twin.withTrace (h : w.Twin w') (trace : Option CallStack) :
    World.Twin { w with trace := trace } { w' with trace := trace } :=
  ⟨h.toSame.withTrace trace trace, rfl⟩

theorem Twin.trace_forget (h : w.Twin w') : w'.forget.trace = w.forget.trace := by
  simp only [forget, h.stack_eq]
  split
  · rfl
  · exact h.trace_eq

theorem Twin.trace_note (h : w.Twin w') : w'.note.trace = w.note.trace := by
  simp only [note, h.trace_eq]
  split
  · simp only [h.stack_eq]
  · exact h.trace_eq

end World

namespace State

variable {s s' : State} {tasks tasks' : List Task} {v : Value}

theorem trace_resume (v : Value) (task : Task) (tasks : List Task) (w : World) :
    (resume v task tasks w).world.trace = w.trace := by
  cases task with
  | assign frame name =>
    rw [resume]
    split <;> rfl
  | operator frame name todo => cases todo <;> rfl
  | operands frame name procedure done todo => cases todo <;> rfl
  | sequence frame todo => cases todo <;> rfl
  | branch | define | leave => rfl

theorem trace_unwind (h : w.Twin w') (e : Error) (task : Task) :
    (unwind e task tasks' w').world.trace = (unwind e task tasks w).world.trace := by
  cases task with
  | leave => exact h.trace_note
  | _ => exact h.trace_eq

theorem trace_call (h : w.Twin w') (caller : Nat) (name : Text) (procedure : Value)
    (args : List Value) :
    (call caller name procedure args tasks' w').world.trace =
      (call caller name procedure args tasks w).world.trace := by
  rw [call, call, h.stack_eq]
  split
  · split
    · rfl
    · have he (tasks : List Task) (w : World) :
          (enter caller procedure args tasks (w.forget.pushCall name procedure)).world.trace =
            w.forget.trace :=
        (stays_enter procedure args).trace_eq
      rw [he, he, h.trace_forget]
  · exact h.trace_eq

theorem Twin.step (h : s.Twin s') : (s.step files).Twin (s'.step files) := by
  obtain ⟨control, tasks, w⟩ := s
  obtain ⟨control', tasks', w'⟩ := s'
  obtain ⟨⟨hc, ht, hw⟩, htrace⟩ := h
  dsimp only at hc ht hw htrace
  subst hc ht
  have hw : w.Twin w' := ⟨hw, htrace⟩
  have hl : State.Lifted [] ⟨control', tasks, w⟩ ⟨control', tasks ++ [], w'⟩ :=
    ⟨rfl, rfl, hw.toSame⟩
  cases control' with
  | eval frame form =>
    refine ⟨hl.step (by simp), ?_⟩
    exact (stays_eval form).trace_eq.trans (htrace.trans (stays_eval form).trace_eq.symm)
  | call caller name procedure args =>
    exact ⟨hl.step (by simp), trace_call hw caller name procedure args⟩
  | fetch caller file use =>
    refine ⟨hl.step (by simp), ?_⟩
    exact (stays_fetch file use).trace_eq.trans (htrace.trans (stays_fetch file use).trace_eq.symm)
  | result r =>
    cases tasks with
    | nil => cases r <;> exact ⟨⟨rfl, rfl, hw.toSame⟩, htrace⟩
    | cons task tasks =>
      refine ⟨hl.step (by simp), ?_⟩
      cases r with
      | ok v => exact (trace_resume v task _ w').trans (htrace.trans (trace_resume v task _ w).symm)
      | error e => exact trace_unwind hw e task

/-- Twins run alike. -/
theorem Twin.run (h : s.Twin s') :
    Option.Rel World.TwinOutcomes (State.run files fuel s) (State.run files fuel s') := by
  induction fuel generalizing s s' with
  | zero =>
    obtain ⟨control, tasks, w⟩ := s
    obtain ⟨control', tasks', w'⟩ := s'
    obtain ⟨⟨hc, ht, hw⟩, htrace⟩ := h
    dsimp only at hc ht hw htrace
    subst hc ht
    cases control' with
    | eval | call | fetch => exact .none
    | result r =>
      cases tasks with
      | nil => exact .some ⟨rfl, hw, htrace⟩
      | cons => exact .none
  | succ fuel ih =>
    rw [run_succ, run_succ]
    exact ih h.step

end State

namespace World

theorem twin_eval (h : w.Twin w') (form : Value) :
    Option.Rel TwinOutcomes (eval files fuel w frame form) (eval files fuel w' frame form) :=
  State.Twin.run ⟨⟨rfl, rfl, h.toSame⟩, h.trace_eq⟩

/-- Forms are evaluated alike in twin worlds. -/
theorem twin_evalEach (h : w.Twin w') (forms : List Value) :
    Option.Rel TwinBatches (evalEach files fuel frame w forms)
      (evalEach files fuel frame w' forms) := by
  induction forms generalizing w w' with
  | nil => exact .some ⟨rfl, rfl, h⟩
  | cons form forms ih =>
    have he : Option.Rel TwinOutcomes (eval files fuel { w with trace := none } frame form)
        (eval files fuel { w' with trace := none } frame form) :=
      twin_eval (h.withTrace none) form
    rw [evalEach, evalEach]
    generalize eval files fuel { w with trace := none } frame form = o at he
    generalize eval files fuel { w' with trace := none } frame form = o' at he
    cases he with
    | none => exact .none
    | @some p p' ho =>
      obtain ⟨r, w₁⟩ := p
      obtain ⟨r', w₁'⟩ := p'
      obtain ⟨hr, hw⟩ := ho
      dsimp only at hr hw
      subst hr
      cases r' with
      | error e => exact .some ⟨rfl, rfl, hw⟩
      | ok v =>
        have hb := ih hw
        simp only [Option.bind_eq_bind, Option.bind_some]
        generalize evalEach files fuel frame w₁ forms = b at hb
        generalize evalEach files fuel frame w₁' forms = b' at hb
        cases hb with
        | none => exact .none
        | some hb => exact .some ⟨congrArg (v :: ·) hb.values_eq, hb.failure_eq, hb.world⟩

variable {b b' : Batch}

theorem TwinBatches.output_eq (h : TwinBatches b b') : b'.output = b.output := by
  rw [Batch.output, Batch.output, h.values_eq]

theorem TwinBatches.errors_eq (h : TwinBatches b b') (debug : Bool) :
    b'.errors debug = b.errors debug := by
  simp only [Batch.errors, Batch.report, renderTrace, h.failure_eq, h.world.trace_eq]

end World

end SmallScheme
