import SmallScheme.Proofs.Machine.Headroom

/-!
# Where failures are raised

A failure is raised once and then passes through the waiting tasks. `State.Conduct` says all that a
step may do to the calls in progress and to the trace before a failure is raised, and
`State.Unwinds` what becomes of both behind it. The first state that hands on an error is where the
error was raised (`State.Raises`); the trace of a failure is the stack of that state.
-/

namespace SmallScheme

set_option autoImplicit false

/-- A result that is no overflow of the stack. -/
def Steady {α : Type} (r : Except Error α) : Prop := ∀ n, r ≠ .error (.stackOverflow n)

section Results

variable {α β : Type}

theorem steady_ok (a : α) : Steady (.ok a : Except Error α) := nofun

theorem Steady.bind {x : Except Error α} {f : α → Except Error β} (hx : Steady x)
    (hf : ∀ a, Steady (f a)) : Steady (x >>= f) := by
  intro n h
  cases x with
  | ok a => exact hf a n h
  | error e =>
    apply hx n
    cases h
    rfl

theorem steady_toNumber (v : Value) : Steady v.toNumber := by
  fun_induction Value.toNumber v with
  | case4 v _ ih => exact ih
  | _ => nofun

theorem steady_toText (v : Value) : Steady v.toText := by
  fun_cases Value.toText v <;> nofun

theorem steady_toBool (v : Value) : Steady v.toBool := by
  fun_cases Value.toBool v <;> nofun

theorem Arithmetic.steady_step (op : Arithmetic) (a b : Int64) : Steady (op.step a b) := by
  unfold Arithmetic.step
  cases op with
  | add | sub | mul => nofun
  | div | mod | quotient =>
    dsimp only
    split <;> nofun

theorem Arithmetic.steady_fold (op : Arithmetic) (acc : Int64) (vs : List Value) :
    Steady (op.fold acc vs) := by
  induction vs generalizing acc with
  | nil => nofun
  | cons v vs ih =>
    apply (steady_toNumber v).bind
    intro b
    apply (op.steady_step acc b).bind
    intro c
    exact ih c

namespace Primitive

theorem steady_arithmeticOf (op : Arithmetic) (args : List Value) :
    Steady (arithmeticOf op args) := by
  unfold arithmeticOf
  split
  · apply (steady_toNumber _).bind
    intro a
    apply (op.steady_fold a _).bind
    intro n
    exact steady_ok _
  · nofun

theorem steady_comparison {coerce : Value → Except Error α} (hc : ∀ v, Steady (coerce v))
    (holds : α → α → Bool) (args : List Value) : Steady (comparison coerce holds args) := by
  unfold comparison
  split
  · apply (hc _).bind
    intro a
    apply (hc _).bind
    intro b
    exact steady_ok _
  · nofun

theorem steady_binary (f : Value → Value → Value) (args : List Value) :
    Steady (binary f args) := by
  unfold binary
  split <;> nofun

theorem steady_onFile {effect : Text → Effect} {args : List Value} {r : Except Error Value}
    (he : ∀ file, effect file ≠ .result r) (h : onFile effect args = .result r) : Steady r := by
  unfold onFile at h
  split at h
  · exact absurd h (he _)
  · cases h
    nofun
  · cases h
    nofun

/-- No primitive procedure reports an overflow of its own. -/
theorem steady_effect {op : Primitive} {caller : Nat} {args : List Value}
    {r : Except Error Value} (h : op.effect caller args = .result r) : Steady r := by
  cases op with
  | arithmetic op =>
    cases h
    exact steady_arithmeticOf op args
  | compareNumbers =>
    cases h
    exact steady_comparison steady_toNumber _ args
  | connective =>
    cases h
    exact steady_comparison steady_toBool _ args
  | compareTexts =>
    cases h
    exact steady_comparison steady_toText _ args
  | car =>
    cases h
    fun_cases first args <;> nofun
  | cdr =>
    cases h
    fun_cases remainder args <;> nofun
  | cons =>
    cases h
    exact steady_binary _ args
  | eq | eqv | equal =>
    cases h
    exact steady_binary _ args
  | apply =>
    change application caller args = .result r at h
    unfold application at h
    split at h
    · cases h
    · cases h
    · cases h
      nofun
  | readContents => exact @steady_onFile (.contents caller) args r (fun _ => nofun) h
  | readAll => exact @steady_onFile (.expressions caller) args r (fun _ => nofun) h

end Primitive

theorem Store.steady_get (s : Store) (i : Nat) (name : Text) : Steady (s.get i name) := by
  unfold Store.get
  split <;> nofun

end Results

theorem CallStack.height_pos_of_full {s : CallStack} (h : s.full = true) : s.height ≠ 0 := by
  simp only [full, Bool.and_eq_true, decide_eq_true_eq] at h
  omega

theorem CallStack.height_add (s : CallStack) (name : Text) (procedure : Value) :
    (s.add name procedure).height = s.height + 1 := by
  simp [add, height]

theorem World.trace_forget {w : World} (h : w.trace = none) : w.forget.trace = none := by
  unfold forget
  split
  · rfl
  · exact h

theorem World.trace_note {w : World} (h : w.trace = none) : w.note.trace = some w.stack := by
  simp only [note, h]

theorem World.note_of_trace {w : World} {t : CallStack} (h : w.trace = some t) : w.note = w := by
  simp only [note, h]

theorem World.stack_note (w : World) : w.note.stack = w.stack := by
  obtain ⟨trace, hw⟩ := w.exists_note_eq
  rw [hw]

namespace State

/-- A state that hands on an error. -/
def Failing (s : State) : Prop := ∃ e, s.control = .result (.error e)

/-- A state with the calls and the trace of a world, which reports no overflow. -/
structure Stays (w : World) (s : State) : Prop where
  stack_eq : s.world.stack = w.stack
  trace_eq : s.world.trace = w.trace
  calm : ¬ s.Overflowed

/-- All that a step may do to the calls in progress and to the trace of a world, where no error is
handed on yet. -/
inductive Conduct (w : World) : State → Prop where
  | stay {s : State} : s.Stays w → Conduct w s
  /-- A call is made, and perhaps it fails at once. -/
  | enter {s : State} {name : Text} {procedure : Value} : w.stack.full = false →
      s.Stays (w.forget.pushCall name procedure) → Conduct w s
  /-- A call ends. -/
  | exit {s : State} : s.world.stack = w.stack.pop → s.world.trace = w.trace → ¬ s.Failing →
      Conduct w s
  /-- The limit does not admit a call. -/
  | overflow (tasks : List Task) : w.stack.full = true →
      Conduct w (fail w.stack.overflow tasks { w with trace := some w.stack })

variable {files : Files} {caller frame : Nat} {name : Text} {tasks : List Task} {w : World}
  {s t : State}

theorem stays_give {r : Except Error Value} (h : Steady r) : (give r tasks w).Stays w := by
  refine ⟨rfl, rfl, ?_⟩
  rintro ⟨n, hn⟩
  exact h n (Control.result.inj hn)

theorem stays_fail {e : Error} (h : ∀ n, e ≠ .stackOverflow n) : (fail e tasks w).Stays w := by
  apply stays_give
  intro n hn
  exact h n (Except.error.inj hn)

theorem stays_of_control {control : Control} {w' : World} (hs : w'.stack = w.stack)
    (ht : w'.trace = w.trace) (hc : ∀ e, control ≠ .result (.error e)) :
    (State.mk control tasks w').Stays w := by
  refine ⟨hs, ht, ?_⟩
  rintro ⟨n, hn⟩
  exact hc _ hn

theorem stays_unrecognized (form : Value) : (fail (.unrecognized form) tasks w).Stays w := by
  apply stays_fail
  intro n h
  cases h

section Functions

theorem stays_direct (d : Directive) : (direct frame d tasks w).Stays w := by
  cases d with
  | quote v => exact stays_give (steady_ok v)
  | conditional | assignment | definition | load => exact stays_of_control rfl rfl (by simp)
  | procedure | lambda => exact stays_of_control rfl rfl (by simp)

theorem stays_eval (form : Value) : (eval frame form tasks w).Stays w := by
  cases form with
  | atom name => exact stays_give (w.store.steady_get frame name)
  | list items =>
    cases items with
    | nil => exact stays_unrecognized _
    | cons head rest =>
      rw [eval]
      cases specialForm? head with
      | none => exact stays_of_control rfl rfl (by simp)
      | some special =>
        dsimp only
        cases Directive.ofArguments? special rest with
        | none => exact stays_unrecognized _
        | some d => exact stays_direct d
  | number | string | char | bool => exact stays_give (steady_ok _)
  | dotted | closure | primitive => exact stays_unrecognized _

theorem stays_enter (procedure : Value) (args : List Value) :
    (enter caller procedure args tasks w).Stays w := by
  cases procedure with
  | primitive id op =>
    rw [enter]
    cases he : op.effect caller args with
    | result r => exact stays_give (Primitive.steady_effect he)
    | call | contents | expressions => exact stays_of_control rfl rfl (by simp)
  | closure id formals body captured =>
    rw [enter]
    cases ha : arityFault? formals args with
    | none => exact stays_of_control rfl rfl (by simp)
    | some e =>
      apply stays_fail
      unfold arityFault? at ha
      split at ha
      · cases ha
        simp
      · split at ha
        · cases ha
          simp
        · cases ha
  | _ => exact stays_fail (by simp)

theorem stays_sequence (forms : List Value) : (sequence frame forms tasks w).Stays w := by
  cases forms with
  | nil => exact stays_give (steady_ok _)
  | cons => exact stays_of_control rfl rfl (by simp)

theorem stays_withExpressions {file contents : Text}
    {next : List Value → List Task → World → State}
    (hn : ∀ forms w', w'.stack = w.stack → w'.trace = w.trace → (next forms tasks w').Stays w) :
    (withExpressions file contents next tasks w).Stays w := by
  unfold withExpressions
  dsimp only
  split
  · exact hn _ _ rfl rfl
  · rename_i e he
    -- what the reader reports is always a fault of the text
    obtain ⟨fault, hf⟩ : ∃ fault : Fault, fault.toError = e := by
      simp only [World.read, Reader.readNamed, Reader.readSource] at he
      generalize (Reader.program _).1 = r at he
      cases r with
      | ok vs => cases he
      | error fault => exact ⟨fault, Except.error.inj he⟩
    subst hf
    refine ⟨rfl, rfl, ?_⟩
    rintro ⟨n, hn⟩
    cases hn

theorem stays_fetch (file : Text) (use : FileUse) :
    (fetch files caller file use tasks w).Stays w := by
  unfold fetch
  split
  · exact stays_fail (by simp)
  · exact stays_fail (by simp)
  · split
    · exact stays_fail (by simp)
    · split
      · exact stays_give (steady_ok _)
      · apply stays_withExpressions
        intro forms w' hs ht
        exact stays_of_control hs ht (by simp)
      · apply stays_withExpressions
        intro forms w' hs ht
        obtain ⟨hs', ht', hc⟩ := @stays_sequence _ tasks w' forms
        exact ⟨hs'.trans hs, ht'.trans ht, hc⟩

theorem conduct_call (procedure : Value) (args : List Value) :
    Conduct w (call caller name procedure args tasks w) := by
  unfold call
  split
  · split
    · rename_i hf
      exact .overflow tasks hf
    · rename_i hf
      apply Conduct.enter (by simpa using hf)
      exact stays_enter procedure args
  · exact .stay (stays_fail (by simp))

theorem stays_apply (procedure : Value) (done todo : List Value) :
    (apply frame name procedure done todo tasks w).Stays w := by
  cases todo <;> exact stays_of_control rfl rfl (by simp)

theorem conduct_resume (v : Value) (task : Task) : Conduct w (resume v task tasks w) := by
  cases task with
  | branch => exact .stay (stays_of_control rfl rfl (by simp))
  | assign frame name =>
    rw [resume]
    cases w.store.owner? frame name with
    | some i => exact .stay (stays_of_control rfl rfl (by simp))
    | none => exact .stay (stays_fail (by simp))
  | define => exact .stay (stays_of_control rfl rfl (by simp))
  | operator | operands => exact .stay (stays_apply _ _ _)
  | leave =>
    refine .exit rfl rfl ?_
    rintro ⟨e, he⟩
    cases he
  | sequence frame todo => cases todo <;> exact .stay (stays_of_control rfl rfl (by simp))

end Functions

theorem conduct_step (files : Files) (h : ¬ s.Failing) : Conduct s.world (s.step files) := by
  obtain ⟨control, tasks, w⟩ := s
  cases control with
  | eval frame form => exact .stay (stays_eval form)
  | call caller name procedure args => exact conduct_call procedure args
  | fetch caller file use => exact .stay (stays_fetch file use)
  | result r =>
    cases r with
    | error e => exact absurd ⟨e, rfl⟩ h
    | ok v =>
      cases tasks with
      | nil => exact .stay (stays_of_control rfl rfl (by simp))
      | cons task tasks => exact conduct_resume v task

/-- An error is handed on as it is. Only a call that ends touches the stack and the trace. -/
theorem step_of_failing (files : Files) {e : Error} (h : s.control = .result (.error e)) :
    (s.step files).control = .result (.error e) ∧
      ((s.step files).world = s.world ∨
        (∃ caller tasks, s.tasks = .leave caller :: tasks) ∧
          (s.step files).world = s.world.note.popCall) := by
  obtain ⟨control, tasks, w⟩ := s
  cases h
  cases tasks with
  | nil => exact ⟨rfl, .inl rfl⟩
  | cons task tasks =>
    cases task with
    | leave caller => exact ⟨rfl, .inr ⟨⟨caller, tasks, rfl⟩, rfl⟩⟩
    | _ => exact ⟨rfl, .inl rfl⟩

theorem Failing.step (h : s.Failing) : (s.step files).Failing := by
  obtain ⟨e, he⟩ := h
  exact ⟨e, (step_of_failing files he).1⟩

/-- The first state that hands on an error, from a given state on. -/
inductive Raises (files : Files) : State → State → Prop where
  | here {s : State} : s.Failing → Raises files s s
  | later {s t : State} : ¬ s.Failing → Raises files (s.step files) t → Raises files s t

namespace Raises

theorem leads (h : Raises files s t) : Leads files s t := by
  induction h with
  | here => exact .refl _
  | later _ _ ih => exact .step ih

theorem failing (h : Raises files s t) : t.Failing := by
  induction h with
  | here hf => exact hf
  | later _ _ ih => exact ih

theorem eq_of_failing (h : Raises files s t) (hs : s.Failing) : t = s := by
  cases h with
  | here => rfl
  | later hn => exact absurd hs hn

end Raises

theorem exists_raises {fuel : Nat} {e : Error} {w' : World}
    (h : run files fuel s = some (.error e, w')) : ∃ t, Raises files s t := by
  fun_induction run files fuel s with
  | case1 fuel r w =>
    cases h
    exact ⟨_, .here ⟨e, rfl⟩⟩
  | case2 => cases h
  | case3 fuel s _ ih =>
    by_cases hs : s.Failing
    · exact ⟨s, .here hs⟩
    · obtain ⟨t, ht⟩ := ih h
      exact ⟨t, .later hs ht⟩

/-- A run can be taken up at any state on its way. -/
theorem Leads.run_eq {fuel : Nat} {o : Outcome} (h : Leads files s t)
    (hr : run files fuel s = some o) : ∃ fuel', run files fuel' t = some o := by
  induction h generalizing fuel with
  | refl => exact ⟨fuel, hr⟩
  | @step s t _ ih =>
    cases fuel with
    | succ fuel =>
      rw [run_succ] at hr
      exact ih hr
    | zero =>
      -- without a step left, the run has finished and stands still
      obtain ⟨control, tasks, w⟩ := s
      cases control with
      | eval | call | fetch => cases hr
      | result r =>
        cases tasks with
        | cons => cases hr
        | nil =>
          have hr' : run files 0 (State.step files ⟨.result r, [], w⟩) = some o := by
            cases r <;> exact hr
          exact ih hr'

theorem Leads.invariant {P : State → Prop} (hstep : ∀ s, P s → P (s.step files))
    (h : Leads files s t) (hs : P s) : P t := by
  induction h with
  | refl => exact hs
  | step _ ih => exact ih (hstep _ hs)

/-- A run that fails ends with the error that was raised. -/
theorem Raises.control_eq {fuel : Nat} {e : Error} {w' : World} (hr : Raises files s t)
    (h : run files fuel s = some (.error e, w')) : t.control = .result (.error e) := by
  obtain ⟨e', he⟩ := hr.failing
  obtain ⟨fuel', hrun⟩ := hr.leads.run_eq h
  have hc := invariant_run (P := fun s => s.control = .result (.error e'))
    (fun _ hc => (step_of_failing files hc).1) he hrun
  rw [he]
  exact hc.symm

/-- The way of an error that was raised with the calls `raised` in progress: it has noted them, or
it has not yet met a call that ends. -/
structure Unwinds (base raised : CallStack) (e : Error) (s : State) : Prop where
  control_eq : s.control = .result (.error e)
  balanced : s.BalancedOn base
  trace_eq : (s.world.trace = some raised ∧ raised.height ≠ 0) ∨
    (s.world.trace = none ∧ s.world.stack = raised)

theorem Unwinds.step {base raised : CallStack} {e : Error} (h : s.Unwinds base raised e) :
    (s.step files).Unwinds base raised e := by
  obtain ⟨hc, hb, ht⟩ := h
  obtain ⟨hc', hw⟩ := step_of_failing files hc
  refine ⟨hc', balanced_step hb, ?_⟩
  rcases hw with hw | ⟨⟨caller, tasks, hl⟩, hw⟩
  · rw [hw]
    exact ht
  · rw [hw]
    rcases ht with ⟨ht, hp⟩ | ⟨ht, hs⟩
    · rw [World.note_of_trace ht]
      exact .inl ⟨ht, hp⟩
    · refine .inl ⟨?_, ?_⟩
      · rw [← hs]
        exact World.trace_note ht
      · -- a call that ends is on the stack
        rw [BalancedOn, hl, hs] at hb
        cases hb with
        | @call _ stack _ name procedure _ =>
          rw [CallStack.height_add]
          exact Nat.succ_ne_zero _
        | wait hn => exact absurd rfl (hn caller)

/-- Where an error is raised there is no trace yet, or the error is an overflow and its trace has
been taken on the spot. -/
theorem Raises.trace_eq (h : Raises files s t) (ht : s.world.trace = none) :
    t.world.trace = none ∨ (t.world.trace = some t.world.stack ∧ t.world.stack.height ≠ 0) := by
  induction h with
  | here => exact .inl ht
  | @later s t hn hr ih =>
    have hc := conduct_step files hn
    generalize hs : s.step files = s' at hc hr ih
    cases hc with
    | stay h => exact ih (h.trace_eq.trans ht)
    | enter _ h => exact ih (h.trace_eq.trans (World.trace_forget ht))
    | exit _ h => exact ih (h.trans ht)
    | overflow tasks hf =>
      rw [hr.eq_of_failing ⟨_, rfl⟩]
      exact .inr ⟨rfl, CallStack.height_pos_of_full hf⟩

theorem trace_of_success {fuel : Nat} {v : Value} {w' : World} (ht : s.world.trace = none)
    (h : run files fuel s = some (.ok v, w')) : w'.trace = none := by
  have hp : (State.mk (.result (.ok v)) [] w').Failing ∨ w'.trace = none := by
    apply invariant_run (P := fun s => s.Failing ∨ s.world.trace = none) _ (.inr ht) h
    intro s hs
    by_cases hf : s.Failing
    · exact .inl hf.step
    · have ht := hs.resolve_left hf
      have hc := conduct_step files hf
      generalize s.step files = s' at hc
      cases hc with
      | stay h => exact .inr (h.trace_eq.trans ht)
      | enter _ h => exact .inr (h.trace_eq.trans (World.trace_forget ht))
      | exit _ h => exact .inr (h.trans ht)
      | overflow => exact .inl ⟨_, rfl⟩
  apply hp.resolve_left
  rintro ⟨e, he⟩
  cases he

/-- A failed run leaves the stack where its error was raised as the trace, unless no call was in
progress there. -/
theorem trace_of_failure {base : CallStack} {fuel : Nat} {e : Error} {w' : World}
    (hb : s.BalancedOn base) (hh : base.height = 0) (ht : s.world.trace = none)
    (h : run files fuel s = some (.error e, w')) (hr : Raises files s t) :
    t.control = .result (.error e) ∧ (w'.trace = none ↔ t.world.stack.height = 0) ∧
      (t.world.stack.height ≠ 0 → w'.trace = some t.world.stack) := by
  obtain ⟨e', he'⟩ := hr.failing
  have hu : t.Unwinds base t.world.stack e' := by
    refine ⟨he', hr.leads.invariant (fun _ => balanced_step) hb, ?_⟩
    rcases hr.trace_eq ht with ht | ht
    · exact .inr ⟨ht, rfl⟩
    · exact .inl ht
  obtain ⟨fuel', hrun⟩ := hr.leads.run_eq h
  obtain ⟨hc, hb', htrace⟩ :=
    invariant_run (P := Unwinds base t.world.stack e') (fun _ => Unwinds.step) hu hrun
  obtain rfl : e = e' := Except.error.inj (Control.result.inj hc)
  refine ⟨he', ?_⟩
  rcases htrace with ⟨ht, hp⟩ | ⟨ht, hs⟩
  · rw [show w'.trace = some t.world.stack from ht]
    exact ⟨⟨nofun, fun h => absurd h hp⟩, fun _ => rfl⟩
  · -- no call has ended since the error was raised, so none was in progress
    have hz : t.world.stack.height = 0 := by
      rw [← hs, Balanced.eq_base hb']
      exact hh
    exact ⟨⟨fun _ => hz, fun _ => ht⟩, fun h => absurd hz h⟩

end State

namespace World

/-- The trace that an evaluation leaves, where it begins without calls and without a trace. A
success leaves none. A failure was raised at some moment; it leaves none if no call was in progress
then, and otherwise the calls that were. -/
theorem trace_of_eval {files : Files} {fuel frame : Nat} {form : Value} {w w' : World}
    {r : Except Error Value} (hh : w.stack.height = 0) (ht : w.trace = none)
    (h : w.eval files fuel frame form = some (r, w')) :
    (∀ v, r = .ok v → w'.trace = none) ∧
    (∀ e, r = .error e → ∃ t, State.Raises files ⟨.eval frame form, [], w⟩ t) ∧
    ∀ e t, r = .error e → State.Raises files ⟨.eval frame form, [], w⟩ t →
      t.control = .result (.error e) ∧ (w'.trace = none ↔ t.world.stack.height = 0) ∧
      (t.world.stack.height ≠ 0 → w'.trace = some t.world.stack) := by
  refine ⟨?_, ?_, ?_⟩
  · rintro v rfl
    exact State.trace_of_success ht h
  · rintro e rfl
    exact State.exists_raises h
  · rintro e t rfl hr
    exact State.trace_of_failure (State.balanced_start _ w) hh ht h hr

/-- A procedure that calls its argument, applied to a procedure with an unbound variable. -/
def nestedFailure : Value :=
  .list [.list [.atom (.ofString "lambda"), .list [.atom (.ofString "f")],
      .list [.atom (.ofString "f")]],
    .list [.atom (.ofString "lambda"), .list [], .atom (.ofString "x")]]

theorem trace_of_nestedFailure :
    ∃ e w' t, (new { primitives := false }).eval (fun _ => .ok []) 20 root nestedFailure =
        some (.error e, w') ∧
      State.Raises (fun _ => .ok []) ⟨.eval root nestedFailure, [], new { primitives := false }⟩ t ∧
      t.world.stack.frames.toList.map CallFrame.name = [[], Text.ofString "f"] ∧
      w'.trace = some t.world.stack := by
  have hv : ((new { primitives := false }).eval (fun _ => .ok []) 20 root nestedFailure).map
      (fun o => (o.1, o.2.trace.map fun s => s.frames.toList.map CallFrame.name)) =
        some (.error (.unbound Error.getting (.ofString "x")),
          some [[], Text.ofString "f"]) := by
    with_unfolding_all rfl
  obtain ⟨⟨r, w'⟩, he, hr⟩ := Option.map_eq_some_iff.mp hv
  obtain ⟨rfl, ht⟩ := Prod.mk.inj hr
  obtain ⟨-, hx, hall⟩ := trace_of_eval (by decide) rfl he
  obtain ⟨t, hraise⟩ := hx _ rfl
  obtain ⟨-, hnone, hsome⟩ := hall _ t rfl hraise
  have htrace : w'.trace = some t.world.stack := by
    apply hsome
    intro hz
    rw [hnone.mpr hz] at ht
    cases ht
  refine ⟨_, w', t, he, hraise, ?_, htrace⟩
  rw [htrace] at ht
  exact Option.some.inj ht

end World

end SmallScheme
