import Mathlib
import SmallScheme.Proofs.Machine.Balance

/-!
# Headroom of the call stack

The machine looks at the calls in progress in one place only, where a call is made and the stack may
be full. So a run does the same whatever calls are in progress and whatever the limit is, as long as
there is no less headroom; unless it overflows the stack, which no task takes back.
-/

namespace SmallScheme

set_option autoImplicit false

namespace CallStack

/-- The number of calls that the limit still admits. -/
def headroom (s : CallStack) : WithTop Int :=
  if s.limit < 1 then ⊤ else ((s.limit - s.height : Int) : WithTop Int)

theorem full_iff_headroom (s : CallStack) : s.full = true ↔ s.headroom ≤ 0 := by
  unfold full headroom
  split
  · simp only [Bool.and_eq_true, decide_eq_true_eq, top_le_iff, WithTop.zero_ne_top, iff_false]
    omega
  · rw [← WithTop.coe_zero, WithTop.coe_le_coe]
    simp only [Bool.and_eq_true, decide_eq_true_eq]
    omega

theorem headroom_add (s : CallStack) (name : Text) (procedure : Value) :
    (s.add name procedure).headroom + 1 = s.headroom := by
  have hl : (s.add name procedure).limit = s.limit := rfl
  have hh : ((s.add name procedure).height : Int) = s.height + 1 := by
    simp [add, height]
  unfold headroom
  rw [hl, hh]
  split
  · rw [WithTop.top_add]
  · rw [← WithTop.coe_one, ← WithTop.coe_add, WithTop.coe_inj]
    omega

theorem headroom_pop_le (s : CallStack) : s.pop.headroom ≤ s.headroom + 1 := by
  have hl : s.pop.limit = s.limit := rfl
  have hh : s.pop.height = s.height - 1 := by
    simp [pop, height]
  unfold headroom
  rw [hl, hh]
  split
  · rw [WithTop.top_add]
  · rw [← WithTop.coe_one, ← WithTop.coe_add, WithTop.coe_le_coe]
    omega

theorem add_one_le_succ_iff {x : WithTop Int} {n : Nat} :
    x + 1 ≤ (((n + 1 : Nat) : Int) : WithTop Int) ↔ x ≤ ((n : Int) : WithTop Int) := by
  rw [Int.natCast_succ, WithTop.coe_add, WithTop.coe_one]
  exact WithTop.add_le_add_iff_right WithTop.one_ne_top

theorem headroom_le_limit {s : CallStack} (h : 1 ≤ s.limit) :
    s.headroom ≤ ((s.limit.toNat : Int) : WithTop Int) := by
  have hl : ¬ s.limit < 1 := by omega
  rw [headroom, if_neg hl, WithTop.coe_le_coe]
  omega

end CallStack

/-- Stacks that the same tasks bring back to their bases compare as the bases do. -/
theorem Balanced.headroom_le {base₁ base₂ s₁ s₂ : CallStack} {tasks : List Task}
    (hb : base₁.headroom ≤ base₂.headroom) (h₁ : Balanced base₁ tasks s₁)
    (h₂ : Balanced base₂ tasks s₂) : s₁.headroom ≤ s₂.headroom := by
  induction h₁ generalizing s₂ with
  | done => rwa [h₂.eq_base]
  | @call tasks s₁ caller name procedure _ ih =>
    cases h₂ with
    | @call _ s₂ _ name' procedure' h₂ =>
      have hs := ih h₂
      rw [← s₁.headroom_add name procedure, ← s₂.headroom_add name' procedure'] at hs
      exact (WithTop.add_le_add_iff_right WithTop.one_ne_top).mp hs
    | wait ht => exact absurd rfl (ht caller)
  | wait ht _ ih => exact ih (h₂.tail ht)

/-- A world with other calls in progress and another trace. -/
def World.withCalls (w : World) (stack : CallStack) (trace : Option CallStack) : World :=
  { w with stack := stack, trace := trace }

namespace State

/-- A state with other calls in progress and another trace. -/
def withCalls (s : State) (stack : CallStack) (trace : Option CallStack) : State :=
  { s with world := s.world.withCalls stack trace }

section Functions

variable {files : Files} (caller frame : Nat) (tasks : List Task) (w : World) (stack : CallStack)
  (trace : Option CallStack)

theorem direct_withCalls (d : Directive) :
    direct frame d tasks (w.withCalls stack trace) =
      (direct frame d tasks w).withCalls stack trace := by
  cases d <;> rfl

theorem eval_withCalls (form : Value) :
    eval frame form tasks (w.withCalls stack trace) =
      (eval frame form tasks w).withCalls stack trace := by
  cases form with
  | list items =>
    cases items with
    | nil => rfl
    | cons head rest =>
      rw [eval, eval]
      cases specialForm? head with
      | none => rfl
      | some special =>
        dsimp only
        cases Directive.ofArguments? special rest with
        | none => rfl
        | some d => exact direct_withCalls frame tasks w stack trace d
  | _ => rfl

theorem enter_withCalls (procedure : Value) (args : List Value) :
    enter caller procedure args tasks (w.withCalls stack trace) =
      (enter caller procedure args tasks w).withCalls stack trace := by
  cases procedure with
  | primitive id op =>
    rw [enter, enter]
    cases op.effect caller args with
    | result | call | contents | expressions => rfl
  | closure id formals body captured =>
    rw [enter, enter]
    cases arityFault? formals args with
    | some e => rfl
    | none => rfl
  | _ => rfl

theorem withExpressions_withCalls (file contents : Text)
    {next : List Value → List Task → World → State}
    (hn : ∀ forms w', next forms tasks (w'.withCalls stack trace) =
      (next forms tasks w').withCalls stack trace) :
    withExpressions file contents next tasks (w.withCalls stack trace) =
      (withExpressions file contents next tasks w).withCalls stack trace := by
  have hw : (w.withCalls stack trace).read file contents =
      ((w.read file contents).1, (w.read file contents).2.withCalls stack trace) := rfl
  unfold withExpressions
  rw [hw]
  obtain ⟨r, w'⟩ := w.read file contents
  cases r with
  | ok forms => exact hn forms w'
  | error e => rfl

theorem sequence_withCalls (forms : List Value) :
    sequence frame forms tasks (w.withCalls stack trace) =
      (sequence frame forms tasks w).withCalls stack trace := by
  cases forms <;> rfl

theorem fetch_withCalls (file : Text) (use : FileUse) :
    fetch files caller file use tasks (w.withCalls stack trace) =
      (fetch files caller file use tasks w).withCalls stack trace := by
  have hw : (w.withCalls stack trace).reader = w.reader := rfl
  unfold fetch
  rw [hw]
  cases use with
  | contents => cases files file <;> rfl
  | expressions =>
    cases w.reader with
    | none => rfl
    | some table =>
      cases files file with
      | error fault => rfl
      | ok contents => exact withExpressions_withCalls _ _ _ _ _ _ fun _ _ => rfl
  | load =>
    cases w.reader with
    | none => rfl
    | some table =>
      cases files file with
      | error fault => rfl
      | ok contents =>
        apply withExpressions_withCalls
        intro forms w'
        exact sequence_withCalls caller tasks w' stack trace forms

theorem resume_withCalls (v : Value) {task : Task}
    (ht : ∀ caller, task ≠ .leave caller) :
    resume v task tasks (w.withCalls stack trace) =
      (resume v task tasks w).withCalls stack trace := by
  cases task with
  | assign frame name =>
    have hw : (w.withCalls stack trace).store = w.store := rfl
    rw [resume, resume, hw]
    cases w.store.owner? frame name with
    | some i => rfl
    | none => rfl
  | operator frame name todo => cases todo <;> rfl
  | operands frame name procedure done todo => cases todo <;> rfl
  | sequence frame todo => cases todo <;> rfl
  | leave caller => exact absurd rfl (ht caller)
  | _ => rfl

theorem leave_withCalls (r : Except Error Value) :
    ∃ stack' trace', leave r tasks (w.withCalls stack trace) =
      (leave r tasks w).withCalls stack' trace' := by
  cases r with
  | ok v => exact ⟨stack.pop, trace, rfl⟩
  | error e =>
    obtain ⟨t, ht⟩ := w.exists_note_eq
    obtain ⟨t', ht'⟩ := (w.withCalls stack trace).exists_note_eq
    refine ⟨stack.pop, t', ?_⟩
    rw [leave, leave, ht, ht']
    rfl

/-- Where neither stack is full, a call is made on both. -/
theorem call_withCalls (name : Text) (procedure : Value) (args : List Value)
    (h : w.stack.full = false) (h' : stack.full = false) :
    ∃ stack' trace', call caller name procedure args tasks (w.withCalls stack trace) =
      (call caller name procedure args tasks w).withCalls stack' trace' := by
  have hs : (w.withCalls stack trace).stack = stack := rfl
  unfold call
  rw [hs, h, h']
  split
  · obtain ⟨t, ht⟩ := w.exists_forget_eq
    obtain ⟨t', ht'⟩ := (w.withCalls stack trace).exists_forget_eq
    refine ⟨stack.add name procedure, t', ?_⟩
    rw [ht, ht']
    exact enter_withCalls caller (.leave caller :: tasks)
      (World.pushCall { w with trace := t } name procedure) (stack.add name procedure) t' procedure
      args
  · exact ⟨stack, trace, rfl⟩

end Functions

variable {files : Files} {s : State} {stack : CallStack} {trace : Option CallStack}

/-- A state that hands on an overflow of the stack. -/
def Overflowed (s : State) : Prop := ∃ n, s.control = .result (.error (.stackOverflow n))

theorem Overflowed.step (h : s.Overflowed) : (s.step files).Overflowed := by
  obtain ⟨control, tasks, w⟩ := s
  obtain ⟨n, hc⟩ := h
  cases hc
  cases tasks with
  | nil => exact ⟨n, rfl⟩
  | cons task tasks => cases task <;> exact ⟨n, rfl⟩

/-- A step does the same with other calls in progress, or overflows. -/
theorem step_withCalls (h : stack.full = true → s.world.stack.full = true) :
    (s.step files).Overflowed ∨
      ∃ stack' trace', (s.withCalls stack trace).step files =
        (s.step files).withCalls stack' trace' := by
  obtain ⟨control, tasks, w⟩ := s
  cases control with
  | eval frame form => exact .inr ⟨stack, trace, eval_withCalls frame tasks w stack trace form⟩
  | call caller name procedure args =>
    cases hf : w.stack.full with
    | false =>
      have hf' : stack.full = false := by
        apply Bool.eq_false_iff.mpr
        intro ht
        exact Bool.eq_false_iff.mp hf (h ht)
      exact .inr (call_withCalls caller tasks w stack trace name procedure args hf hf')
    | true =>
      cases hp : procedure.isProcedure with
      | false =>
        refine .inr ⟨stack, trace, ?_⟩
        simp [step, call, withCalls, hp, fail]
      | true =>
        left
        refine ⟨w.stack.limit, ?_⟩
        simp [step, call, hp, hf, fail, CallStack.overflow]
  | fetch caller file use =>
    exact .inr ⟨stack, trace, fetch_withCalls caller tasks w stack trace file use⟩
  | result r =>
    right
    cases tasks with
    | nil => cases r <;> exact ⟨stack, trace, rfl⟩
    | cons task tasks =>
      by_cases ht : ∃ caller, task = .leave caller
      · obtain ⟨caller, rfl⟩ := ht
        cases r with
        | ok v => exact leave_withCalls tasks w stack trace (.ok v)
        | error e => exact leave_withCalls tasks w stack trace (.error e)
      · have ht := not_exists.mp ht
        refine ⟨stack, trace, ?_⟩
        cases r with
        | ok v => exact resume_withCalls tasks w stack trace v ht
        | error e => cases task <;> first | exact absurd rfl (ht _) | rfl

/-- A run that does not overflow does the same with other calls in progress. -/
theorem run_withCalls {base base' : CallStack} {fuel : Nat} {r : Except Error Value} {w : World}
    (hb : base.headroom ≤ base'.headroom) (hs : s.BalancedOn base)
    (hs' : (s.withCalls stack trace).BalancedOn base') (hr : run files fuel s = some (r, w))
    (ho : ∀ n, r ≠ .error (.stackOverflow n)) :
    ∃ stack' trace', run files fuel (s.withCalls stack trace) =
      some (r, w.withCalls stack' trace') := by
  fun_induction run files fuel s generalizing stack trace with
  | case1 fuel r' w' =>
    obtain ⟨rfl, rfl⟩ := Prod.mk.inj (Option.some.inj hr)
    refine ⟨stack, trace, ?_⟩
    simp only [withCalls, run]
  | case2 => cases hr
  | case3 fuel s _ ih =>
    -- Both runs have made the same calls since they began, so the stacks compare as they did then.
    have hf : stack.full = true → s.world.stack.full = true := by
      intro hf
      have hle := Balanced.headroom_le hb hs hs'
      exact s.world.stack.full_iff_headroom.mpr (le_trans hle (stack.full_iff_headroom.mp hf))
    rcases step_withCalls hf with hov | ⟨stack', trace', hstep⟩
    · obtain ⟨n, hn⟩ := invariant_run (P := Overflowed) (fun _ => Overflowed.step) hov hr
      exact absurd (Control.result.inj hn) (ho n)
    · have hnext : ((s.withCalls stack trace).step files).BalancedOn base' := balanced_step hs'
      rw [hstep] at hnext
      rw [run_succ, hstep]
      exact ih (balanced_step hs) hnext hr

end State

namespace World

/-- An evaluation that does not overflow ends alike, with the same store, whatever calls are in
progress and whatever the limit is, where there is no less headroom. -/
theorem eval_of_headroom_le {files : Files} {fuel : Nat} {w w' : World} {frame : Nat}
    {form : Value} {r : Except Error Value} (stack : CallStack) (trace : Option CallStack)
    (hb : w.stack.headroom ≤ stack.headroom) (h : w.eval files fuel frame form = some (r, w'))
    (ho : ∀ n, r ≠ .error (.stackOverflow n)) :
    ∃ w'', World.eval files fuel { w with stack := stack, trace := trace } frame form =
      some (r, w'') ∧ w''.store = w'.store ∧ w''.reader = w'.reader := by
  obtain ⟨stack', trace', hr⟩ := State.run_withCalls hb (State.balanced_start (.eval frame form) w)
    (State.balanced_start (.eval frame form) (w.withCalls stack trace)) h ho
  exact ⟨w'.withCalls stack' trace', hr, rfl, rfl⟩

/-- A procedure applied to a procedure that it calls: two calls, one inside the other. -/
def nestedCalls : Value :=
  .list [.list [.atom (.ofString "lambda"), .list [.atom (.ofString "f")],
      .list [.atom (.ofString "f")]],
    .list [.atom (.ofString "lambda"), .list [], .bool true]]

theorem eval_of_headroom_le_nested :
    ∃ w'', World.eval (fun _ => .ok []) 16
        { new { primitives := false, limit := 2 } with
          stack := ⟨Array.replicate 3 ⟨[], .primitive 0 .car⟩, 5⟩, trace := none }
        root nestedCalls = some (.ok (.bool true), w'') := by
  have hv : ((new { primitives := false, limit := 2 }).eval (fun _ => .ok []) 16 root
      nestedCalls).map Prod.fst = some (.ok (.bool true)) := by
    with_unfolding_all rfl
  obtain ⟨⟨r, w'⟩, he, rfl⟩ := Option.map_eq_some_iff.mp hv
  obtain ⟨w'', hr, -⟩ := eval_of_headroom_le ⟨Array.replicate 3 ⟨[], .primitive 0 .car⟩, 5⟩ none
    (by decide) he nofun
  exact ⟨w'', hr⟩

end World

end SmallScheme
