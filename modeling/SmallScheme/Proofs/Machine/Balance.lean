import SmallScheme.Proofs.Machine.Invariant

/-!
# Balance of the call stack

At every moment of a run the calls above those in progress at its beginning are matched, one to
one, by tasks that will end them. So a run that finishes leaves the stack as it was.
-/

namespace SmallScheme

set_option autoImplicit false

/-- A stack with one call above `base` for every call that the tasks will end. -/
inductive Balanced (base : CallStack) : List Task → CallStack → Prop where
  | done : Balanced base [] base
  | call {tasks : List Task} {s : CallStack} (caller : Nat) (name : Text) (procedure : Value) :
      Balanced base tasks s → Balanced base (.leave caller :: tasks) (s.add name procedure)
  | wait {task : Task} {tasks : List Task} {s : CallStack} : (∀ caller, task ≠ .leave caller) →
      Balanced base tasks s → Balanced base (task :: tasks) s

/-- A state whose tasks match the calls above `base`. -/
def State.BalancedOn (base : CallStack) (s : State) : Prop := Balanced base s.tasks s.world.stack

theorem CallStack.pop_add (s : CallStack) (name : Text) (procedure : Value) :
    (s.add name procedure).pop = s := by
  simp [pop, add]

namespace Balanced

variable {base s : CallStack} {task : Task} {tasks : List Task}

theorem tail (h : Balanced base (task :: tasks) s) (ht : ∀ caller, task ≠ .leave caller) :
    Balanced base tasks s := by
  cases h with
  | call caller => exact absurd rfl (ht caller)
  | wait _ h => exact h

theorem pop {caller : Nat} (h : Balanced base (.leave caller :: tasks) s) :
    Balanced base tasks s.pop := by
  cases h with
  | call _ name procedure h => rwa [CallStack.pop_add]
  | wait ht => exact absurd rfl (ht caller)

theorem eq_base (h : Balanced base [] s) : s = base := by
  cases h with
  | done => rfl

end Balanced

namespace State

variable {files : Files} {base : CallStack} {tasks : List Task} {w : World} {caller frame : Nat}
  {name : Text} {procedure v : Value} {args : List Value}

section Functions

variable (h : Balanced base tasks w.stack)
include h

theorem balanced_direct (d : Directive) : (direct frame d tasks w).BalancedOn base := by
  cases d with
  | quote => exact h
  | conditional => exact .wait (by simp) h
  | assignment => exact .wait (by simp) h
  | definition => exact .wait (by simp) h
  | procedure => exact h
  | lambda => exact h
  | load => exact h

theorem balanced_eval (form : Value) : (eval frame form tasks w).BalancedOn base := by
  cases form with
  | list items =>
    cases items with
    | nil => exact h
    | cons head rest =>
      rw [eval]
      cases specialForm? head with
      | none => exact .wait (by simp) h
      | some special =>
        dsimp only
        cases Directive.ofArguments? special rest with
        | none => exact h
        | some d => exact balanced_direct h d
  | _ => exact h

theorem balanced_enter : (enter caller procedure args tasks w).BalancedOn base := by
  cases procedure with
  | primitive id op =>
    rw [enter]
    cases op.effect caller args with
    | result | call | contents | expressions => exact h
  | closure id formals body captured =>
    rw [enter]
    cases arityFault? formals args with
    | some e => exact h
    | none => exact h
  | _ => exact h

theorem balanced_call : (call caller name procedure args tasks w).BalancedOn base := by
  unfold call
  split
  · split
    · exact h
    · obtain ⟨trace, hw⟩ := w.exists_forget_eq
      rw [hw]
      exact balanced_enter (.call caller name procedure h)
  · exact h

theorem balanced_sequence (forms : List Value) :
    (sequence frame forms tasks w).BalancedOn base := by
  cases forms with
  | nil => exact h
  | cons => exact .wait (by simp) h

theorem balanced_withExpressions {file contents : Text}
    {next : List Value → List Task → World → State}
    (hn : ∀ forms w', w'.stack = w.stack → (next forms tasks w').BalancedOn base) :
    (withExpressions file contents next tasks w).BalancedOn base := by
  unfold withExpressions
  dsimp only
  split
  · exact hn _ _ rfl
  · exact h

theorem balanced_fetch (file : Text) (use : FileUse) :
    (fetch files caller file use tasks w).BalancedOn base := by
  unfold fetch
  split
  · exact h
  · exact h
  · split
    · exact h
    · split
      · exact h
      · exact balanced_withExpressions h fun forms w' hw => by
          rw [← hw] at h
          exact h
      · exact balanced_withExpressions h fun forms w' hw => balanced_sequence (hw ▸ h) forms

theorem balanced_apply (done todo : List Value) :
    (apply frame name procedure done todo tasks w).BalancedOn base := by
  cases todo with
  | nil => exact h
  | cons => exact .wait (by simp) h

end Functions

theorem balanced_leave (h : Balanced base (.leave caller :: tasks) w.stack)
    (r : Except Error Value) :
    (leave r tasks w).BalancedOn base := by
  cases r with
  | ok v => exact h.pop
  | error e =>
    obtain ⟨trace, hw⟩ := w.exists_note_eq
    rw [leave, hw]
    exact h.pop

theorem balanced_resume {task : Task} (h : Balanced base (task :: tasks) w.stack) :
    (resume v task tasks w).BalancedOn base := by
  cases task with
  | branch => exact h.tail (by simp)
  | assign frame name =>
    rw [resume]
    cases w.store.owner? frame name with
    | some i => exact h.tail (by simp)
    | none => exact h.tail (by simp)
  | define => exact h.tail (by simp)
  | operator => exact balanced_apply (h.tail (by simp)) _ _
  | operands => exact balanced_apply (h.tail (by simp)) _ _
  | leave => exact balanced_leave h (.ok v)
  | sequence frame todo =>
    cases todo with
    | nil => exact h.tail (by simp)
    | cons => exact .wait (by simp) (h.tail (by simp))

theorem balanced_unwind {task : Task} {e : Error} (h : Balanced base (task :: tasks) w.stack) :
    (unwind e task tasks w).BalancedOn base := by
  cases task with
  | leave => exact balanced_leave h (.error e)
  | _ => exact h.tail (by simp)

theorem balanced_start (control : Control) (w : World) :
    (State.mk control [] w).BalancedOn w.stack := .done

/-- A step keeps the balance. -/
theorem balanced_step {s : State} (h : s.BalancedOn base) : (s.step files).BalancedOn base := by
  obtain ⟨control, tasks, w⟩ := s
  cases control with
  | eval frame form => exact balanced_eval h form
  | call => exact balanced_call h
  | fetch caller file use => exact balanced_fetch h file use
  | result r =>
    cases tasks with
    | nil => cases r <;> exact h
    | cons task tasks =>
      cases r with
      | ok v => exact balanced_resume h
      | error e => exact balanced_unwind h

/-- A finished run has taken every call that it made from the stack again. -/
theorem stack_of_run {fuel : Nat} {s : State} {r : Except Error Value} {w' : World}
    (h : s.BalancedOn base) (hr : run files fuel s = some (r, w')) : w'.stack = base := by
  have hb : (State.mk (.result r) [] w').BalancedOn base :=
    invariant_run (fun t (ht : t.BalancedOn base) => balanced_step ht) h hr
  exact Balanced.eq_base hb

end State

namespace World

/-- However an evaluation, a call or a load ends, the stack is what it was before. -/
theorem stack_of_outcome (files : Files) (fuel : Nat) (w w' : World) (r : Except Error Value) :
    (∀ frame form, w.eval files fuel frame form = some (r, w') → w'.stack = w.stack) ∧
    (∀ caller procedure args,
      w.apply files fuel caller procedure args = some (r, w') → w'.stack = w.stack) ∧
    (∀ frame name contents,
      w.load files fuel frame name contents = some (r, w') → w'.stack = w.stack) ∧
    (∀ frame file, w.loadFile files fuel frame file = some (r, w') → w'.stack = w.stack) := by
  refine ⟨fun frame form h => ?_, fun caller procedure args h => ?_,
    fun frame name contents h => ?_, fun frame file h => ?_⟩
  · exact State.stack_of_run (State.balanced_start _ w) h
  · exact State.stack_of_run (State.balanced_start _ w) h
  · unfold load at h
    split at h
    · obtain ⟨-, rfl⟩ := Prod.mk.inj (Option.some.inj h)
      rfl
    · refine State.stack_of_run (State.balanced_withExpressions .done fun forms w' hw => ?_) h
      exact State.balanced_sequence (hw ▸ .done) forms
  · exact State.stack_of_run (State.balanced_start _ w) h

theorem stack_of_overflow :
    ∃ w', (new { primitives := false, limit := 1 }).apply (fun _ => .ok []) 9 root
        (.primitive 0 .apply) [.primitive 1 .car, .list [.list []]] =
      some (.error (.stackOverflow 1), w') ∧ w'.stack = .empty 1 := by
  refine ⟨_, rfl, ?_⟩
  exact (stack_of_outcome (fun _ => .ok []) 9 (new { primitives := false, limit := 1 }) _
    (.error (.stackOverflow 1))).2.1 root (.primitive 0 .apply) [.primitive 1 .car, .list [.list []]]
      rfl

end World

end SmallScheme
