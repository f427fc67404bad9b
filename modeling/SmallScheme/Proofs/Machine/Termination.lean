import SmallScheme.Proofs.Machine.Headroom

/-!
# Termination under a limit

Where the stack has a limit and nothing can be loaded, every evaluation comes to an end. Two
inductions are nested: the outer one is on the number of calls that the limit still admits, since
what a closure evaluates has no bound but comes with a call; the inner one is on the form, whose
parts are evaluated with the same number of calls to spare.
-/

namespace SmallScheme

set_option autoImplicit false

/-- A world without a reader in which no more than `n` calls can be nested. -/
structure World.Bounded (n : Nat) (w : World) : Prop where
  reader : w.reader = none
  room : w.stack.headroom ≤ ((n : Int) : WithTop Int)

namespace World.Bounded

variable {n : Nat} {w : World}

theorem full (h : w.Bounded 0) : w.stack.full = true :=
  w.stack.full_iff_headroom.mpr h.room

theorem pushCall (h : w.Bounded (n + 1)) (name : Text) (procedure : Value) :
    (w.pushCall name procedure).Bounded n := by
  have hr := h.room
  rw [← w.stack.headroom_add name procedure, CallStack.add_one_le_succ_iff] at hr
  exact ⟨h.reader, hr⟩

theorem popCall (h : w.Bounded n) : w.popCall.Bounded (n + 1) :=
  ⟨h.reader, le_trans w.stack.headroom_pop_le (CallStack.add_one_le_succ_iff.mpr h.room)⟩

theorem withTrace (h : w.Bounded n) (trace : Option CallStack) :
    { w with trace := trace }.Bounded n :=
  ⟨h.reader, h.room⟩

theorem forget (h : w.Bounded n) : w.forget.Bounded n := by
  obtain ⟨trace, hw⟩ := w.exists_forget_eq
  rw [hw]
  exact h.withTrace trace

theorem note (h : w.Bounded n) : w.note.Bounded n := by
  obtain ⟨trace, hw⟩ := w.exists_note_eq
  rw [hw]
  exact h.withTrace trace

theorem withStore (h : w.Bounded n) (store : Store) : { w with store := store }.Bounded n :=
  ⟨h.reader, h.room⟩

end World.Bounded

/-- The forms that a directive evaluates in its frame. -/
def Directive.forms : Directive → List Value
  | .conditional test whenTrue whenFalse => [test, whenTrue, whenFalse]
  | .assignment _ form | .definition _ form => [form]
  | .quote _ | .procedure .. | .lambda .. | .load _ => []

theorem Directive.forms_subset {special : SpecialForm} {args : List Value} {d : Directive}
    (h : ofArguments? special args = some d) : ∀ v ∈ d.forms, v ∈ args := by
  unfold ofArguments? at h
  split at h
  · cases h
    simp [forms]
  · cases h
    simp [forms]
  · cases h
    simp [forms]
  · unfold definition? at h
    split at h
    · cases h
      simp [forms]
    · obtain ⟨formals, -, rfl⟩ := Option.map_eq_some_iff.mp h
      simp [forms]
    · obtain ⟨formals, -, rfl⟩ := Option.map_eq_some_iff.mp h
      simp [forms]
    · cases h
  · obtain ⟨formals, -, rfl⟩ := Option.map_eq_some_iff.mp h
    simp [forms]
  · cases h
    simp [forms]
  · cases h

namespace State

/-- The machine comes from a state to a result for the given tasks. -/
def Delivers (files : Files) (n : Nat) (tasks : List Task) (s : State) : Prop :=
  ∃ r w, Leads files s ⟨.result r, tasks, w⟩ ∧ w.Bounded n

variable {files : Files} {n : Nat} {tasks : List Task} {s : State} {w : World} {caller frame : Nat}

theorem Delivers.give {r : Except Error Value} (hw : w.Bounded n) :
    Delivers files n tasks (give r tasks w) :=
  ⟨r, w, .refl _, hw⟩

theorem Delivers.fail {e : Error} (hw : w.Bounded n) : Delivers files n tasks (fail e tasks w) :=
  ⟨.error e, w, .refl _, hw⟩

theorem Delivers.step (h : Delivers files n tasks (s.step files)) : Delivers files n tasks s := by
  obtain ⟨r, w, hl, hw⟩ := h
  exact ⟨r, w, .step hl, hw⟩

/-- A task that does not end a call takes a value; an error passes it by. -/
theorem Delivers.wait {task : Task} (h : Delivers files n (task :: tasks) s)
    (ht : ∀ caller, task ≠ .leave caller)
    (hr : ∀ v w, w.Bounded n → Delivers files n tasks (resume v task tasks w)) :
    Delivers files n tasks s := by
  obtain ⟨r, w, hl, hw⟩ := h
  have hd : Delivers files n tasks ⟨.result r, task :: tasks, w⟩ := by
    apply Delivers.step
    cases r with
    | ok v => exact hr v w hw
    | error e =>
      cases task with
      | leave caller => exact absurd rfl (ht caller)
      | _ => exact .fail hw
  obtain ⟨r', w', hl', hw'⟩ := hd
  exact ⟨r', w', hl.trans hl', hw'⟩

theorem Delivers.leave (h : Delivers files n (.leave caller :: tasks) s) :
    Delivers files (n + 1) tasks s := by
  obtain ⟨r, w, hl, hw⟩ := h
  cases r with
  | ok v => exact ⟨.ok v, w.popCall, hl.trans (.step (.refl _)), hw.popCall⟩
  | error e => exact ⟨.error e, w.note.popCall, hl.trans (.step (.refl _)), hw.note.popCall⟩

theorem delivers_fetch {file : Text} {use : FileUse} (hw : w.Bounded n) :
    Delivers files n tasks ⟨.fetch caller file use, tasks, w⟩ := by
  apply Delivers.step
  have hr := hw.reader
  cases use with
  | load =>
    simp only [State.step, fetch, hr]
    exact .fail hw
  | expressions =>
    simp only [State.step, fetch, hr]
    exact .fail hw
  | contents =>
    simp only [State.step, fetch]
    cases files file with
    | error fault => exact .fail hw
    | ok contents => exact .give hw

/-- Calls come to an end where no more than `n` can be nested. -/
def CallsEnd (files : Files) (n : Nat) : Prop :=
  ∀ (caller : Nat) (name : Text) (procedure : Value) (args : List Value) (tasks : List Task)
    (w : World), w.Bounded n → Delivers files n tasks ⟨.call caller name procedure args, tasks, w⟩

/-- Evaluations of a form come to an end where no more than `n` calls can be nested. -/
def FormEnds (files : Files) (n : Nat) (form : Value) : Prop :=
  ∀ (frame : Nat) (tasks : List Task) (w : World),
    w.Bounded n → Delivers files n tasks ⟨.eval frame form, tasks, w⟩

theorem delivers_direct {d : Directive} (hd : ∀ v ∈ d.forms, FormEnds files n v)
    (hw : w.Bounded n) : Delivers files n tasks (direct frame d tasks w) := by
  cases d with
  | quote v => exact .give hw
  | conditional test whenTrue whenFalse =>
    apply Delivers.wait (hd test (by simp [Directive.forms]) frame _ w hw) (by simp)
    intro v w' hw'
    rw [resume]
    split
    · exact hd whenFalse (by simp [Directive.forms]) frame tasks w' hw'
    · exact hd whenTrue (by simp [Directive.forms]) frame tasks w' hw'
  | assignment name form =>
    apply Delivers.wait (hd form (by simp [Directive.forms]) frame _ w hw) (by simp)
    intro v w' hw'
    rw [resume]
    cases w'.store.owner? frame name with
    | some i => exact .give (hw'.withStore _)
    | none => exact .fail hw'
  | definition name form =>
    apply Delivers.wait (hd form (by simp [Directive.forms]) frame _ w hw) (by simp)
    intro v w' hw'
    exact .give (hw'.withStore _)
  | procedure name formals body => exact .give (hw.withStore _)
  | lambda formals body => exact .give (hw.withStore _)
  | load file => exact delivers_fetch hw

/-- An application ends: its operands are evaluated one by one, then the call is made. -/
theorem delivers_apply (hc : CallsEnd files n) {name : Text} {procedure : Value}
    {done todo : List Value} (ht : ∀ v ∈ todo, FormEnds files n v) (hw : w.Bounded n) :
    Delivers files n tasks (apply frame name procedure done todo tasks w) := by
  induction todo generalizing done w with
  | nil => exact hc frame name procedure done.reverse tasks w hw
  | cons form todo ih =>
    apply Delivers.wait (ht form List.mem_cons_self frame _ w hw) (by simp)
    intro v w' hw'
    exact ih (fun u hu => ht u (List.mem_cons_of_mem form hu)) hw'

theorem formEnds (hc : CallsEnd files n) (form : Value) : FormEnds files n form := by
  intro frame tasks w hw
  apply Delivers.step
  match form with
  | .list (head :: rest) =>
    -- Outside of calls only parts of the form are evaluated, so its size decreases.
    have ih : ∀ v ∈ head :: rest, FormEnds files n v := fun v hv => formEnds hc v
    have hrest : ∀ v ∈ rest, FormEnds files n v := fun v hv => ih v (List.mem_cons_of_mem head hv)
    simp only [State.step, eval]
    cases specialForm? head with
    | none =>
      apply Delivers.wait (ih head List.mem_cons_self frame _ w hw) (by simp)
      intro v w' hw'
      exact delivers_apply hc hrest hw'
    | some special =>
      dsimp only
      cases hd : Directive.ofArguments? special rest with
      | none => exact .fail hw
      | some d => exact delivers_direct (fun v hv => hrest v (Directive.forms_subset hd v hv)) hw
  | .list [] | .dotted .. | .closure .. | .primitive .. => exact .fail hw
  | .string _ | .number _ | .bool _ | .char _ | .atom _ => exact .give hw
termination_by sizeOf form
decreasing_by
  have := List.sizeOf_lt_of_mem hv
  simp only [Value.list.sizeOf_spec]
  omega

/-- What a call runs ends, with one call less to spare. -/
theorem delivers_enter (hc : CallsEnd files n) {procedure : Value} {args : List Value}
    (hw : w.Bounded n) : Delivers files n tasks (enter caller procedure args tasks w) := by
  cases procedure with
  | primitive id op =>
    rw [enter]
    cases op.effect caller args with
    | result r => exact .give hw
    | call caller f args => exact hc caller [] f args tasks w hw
    | contents caller file => exact delivers_fetch hw
    | expressions caller file => exact delivers_fetch hw
  | closure id formals body captured =>
    rw [enter]
    cases arityFault? formals args with
    | some e => exact .fail hw
    | none => exact formEnds hc body _ tasks _ (hw.withStore _)
  | _ => exact .fail hw

theorem callsEnd (files : Files) (n : Nat) : CallsEnd files n := by
  -- A call that the limit admits leaves less headroom to whatever it runs, of whatever size.
  induction n with
  | zero =>
    intro caller name procedure args tasks w hw
    apply Delivers.step
    simp only [State.step, call, hw.full, if_true]
    split
    · exact .fail (hw.withTrace _)
    · exact .fail hw
  | succ n ih =>
    intro caller name procedure args tasks w hw
    apply Delivers.step
    simp only [State.step, call]
    split
    · split
      · exact .fail (hw.withTrace _)
      · exact (delivers_enter ih (hw.forget.pushCall name procedure)).leave
    · exact .fail hw

end State

namespace World

/-- Where the stack has a limit and there is no reader, every evaluation ends. -/
theorem exists_outcome_of_limit {w : World} (hl : 1 ≤ w.stack.limit) (hr : w.reader = none)
    (files : Files) (frame : Nat) (form : Value) :
    ∃ fuel r w', w.eval files fuel frame form = some (r, w') := by
  have hw : w.Bounded w.stack.limit.toNat := ⟨hr, CallStack.headroom_le_limit hl⟩
  obtain ⟨r, w', hs, -⟩ := State.formEnds (State.callsEnd files _) form frame [] w hw
  obtain ⟨fuel, hf⟩ := hs.exists_run
  exact ⟨fuel, r, w', hf⟩

/-- A procedure that applies its argument to itself. -/
def selfApplication : Value :=
  .list [.atom (.ofString "lambda"), .list [.atom (.ofString "x")],
    .list [.atom (.ofString "x"), .atom (.ofString "x")]]

theorem exists_outcome_of_selfApplication :
    ∃ fuel r w', (new { limit := 10000, reader := false }).eval (fun _ => .ok []) fuel root
      (.list [selfApplication, selfApplication]) = some (r, w') :=
  exists_outcome_of_limit (by decide) rfl _ root _

end World

end SmallScheme
