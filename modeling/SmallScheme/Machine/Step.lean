import SmallScheme.Machine.SpecialForm
import SmallScheme.Machine.World
import SmallScheme.Primitive.Compute

/-!
# The evaluation machine

Evaluation proceeds in steps on a state: what is done now, the tasks that wait for its result, and
the world. Waiting tasks are data, so the depth of a program's calls is bounded by its call stack
alone. All that is done or waits is done on behalf of a frame: a form is evaluated in it, and a call
is made from it, which a primitive procedure hands on to what it calls in turn. Errors pass through
the waiting tasks one by one; a call in progress notes the trace of the first error that it sees and
leaves the stack.
-/

namespace SmallScheme

set_option autoImplicit false

/-- What the contents of a file are wanted for. -/
inductive FileUse where
  /-- The expressions are evaluated in the frame that asks for the file. -/
  | load
  /-- The contents are the result. -/
  | contents
  /-- The expressions are the result. -/
  | expressions

/-- What the machine does now. -/
inductive Control where
  /-- Evaluates a form in a frame. -/
  | eval (frame : Nat) (form : Value)
  /-- Calls a procedure from a frame, by the given name if that is not empty. -/
  | call (caller : Nat) (name : Text) (procedure : Value) (args : List Value)
  /-- Fetches a file for a frame. -/
  | fetch (caller : Nat) (file : Text) (use : FileUse)
  /-- Hands a result to the task that waits for it. -/
  | result (r : Except Error Value)

/-- A task that waits for a result. -/
inductive Task where
  /-- Goes on with one of two forms. -/
  | branch (frame : Nat) (whenTrue whenFalse : Value)
  /-- Assigns to a variable. -/
  | assign (frame : Nat) (name : Text)
  /-- Defines a variable. -/
  | define (frame : Nat) (name : Text)
  /-- Takes the operator of an application and goes on with its operands. -/
  | operator (frame : Nat) (name : Text) (todo : List Value)
  /-- Evaluates the remaining operands of an application; those done stand latest first. -/
  | operands (frame : Nat) (name : Text) (procedure : Value) (done todo : List Value)
  /-- Ends a procedure call that was made from a frame. -/
  | leave (caller : Nat)
  /-- Evaluates the remaining forms of a program. -/
  | sequence (frame : Nat) (todo : List Value)

/-- A state of the machine. -/
structure State where
  control : Control
  tasks : List Task
  world : World

namespace State

/-- Goes on with a result. -/
def give (r : Except Error Value) (tasks : List Task) (w : World) : State :=
  ⟨.result r, tasks, w⟩

/-- Fails. -/
def fail (e : Error) (tasks : List Task) (w : World) : State := ⟨.result (.error e), tasks, w⟩

/-- Carries out a special form in a frame. -/
def direct (frame : Nat) (d : Directive) (tasks : List Task) (w : World) : State :=
  match d with
  | .quote v => .give (.ok v) tasks w
  | .conditional test whenTrue whenFalse =>
    ⟨.eval frame test, .branch frame whenTrue whenFalse :: tasks, w⟩
  | .assignment name form => ⟨.eval frame form, .assign frame name :: tasks, w⟩
  | .definition name form => ⟨.eval frame form, .define frame name :: tasks, w⟩
  | .procedure name formals body =>
    let (v, store) := w.store.makeClosure formals body frame
    .give (.ok v) tasks { w with store := store.define frame name v }
  | .lambda formals body =>
    let (v, store) := w.store.makeClosure formals body frame
    .give (.ok v) tasks { w with store := store }
  | .load file => ⟨.fetch frame file .load, tasks, w⟩

/-- The special form that a form begins with. -/
def specialForm? : Value → Option SpecialForm
  | .atom name => SpecialForm.ofName? name
  | _ => none

/-- Evaluates a form in a frame. -/
def eval (frame : Nat) (form : Value) (tasks : List Task) (w : World) : State :=
  match form with
  | .string _ | .number _ | .bool _ | .char _ => .give (.ok form) tasks w
  | .atom name => .give (w.store.get frame name) tasks w
  | .list (head :: rest) =>
    match specialForm? head with
    | some special =>
      match Directive.ofArguments? special rest with
      | some d => direct frame d tasks w
      | none => .fail (.unrecognized form) tasks w
    | none =>
      ⟨.eval frame head, .operator frame (head.atomName?.getD []) rest :: tasks, w⟩
  | _ => .fail (.unrecognized form) tasks w

/-- The error of a closure applied to the wrong number of arguments, if the number is wrong. -/
def arityFault? (formals : Formals) (args : List Value) : Option Error :=
  if formals.rest.isNone ∧ args.length ≠ formals.params.length then
    some (.arity formals.params.length false args)
  else if args.length < formals.params.length then
    some (.arity formals.params.length true args)
  else none

/-- Runs a procedure whose call is on the stack. A primitive procedure is told the frame that calls
it; the body of a closure is evaluated in a frame of its own, which extends the captured one. -/
def enter (caller : Nat) (procedure : Value) (args : List Value) (tasks : List Task) (w : World) :
    State :=
  match procedure with
  | .primitive _ op =>
    match op.effect caller args with
    | .result r => .give r tasks w
    | .call caller f args => ⟨.call caller [] f args, tasks, w⟩
    | .contents caller file => ⟨.fetch caller file .contents, tasks, w⟩
    | .expressions caller file => ⟨.fetch caller file .expressions, tasks, w⟩
  | .closure _ formals body frame =>
    match arityFault? formals args with
    | some e => .fail e tasks w
    | none =>
      let (i, store) := w.store.allocate (.ofArguments frame formals args)
      ⟨.eval i body, tasks, { w with store := store }⟩
  | v => .fail (.notApplicable v) tasks w

/-- Calls a procedure from a frame, if it is one and the limit on the stack admits the call. A call
where no other is in progress forgets the trace of an earlier failure. -/
def call (caller : Nat) (name : Text) (procedure : Value) (args : List Value) (tasks : List Task)
    (w : World) : State :=
  if procedure.isProcedure then
    if w.stack.full then .fail w.stack.overflow tasks { w with trace := some w.stack }
    else enter caller procedure args (.leave caller :: tasks) (w.forget.pushCall name procedure)
  else .fail (.notApplicable procedure) tasks w

/-- Evaluates the forms of a program in a frame, for the value of the last. -/
def sequence (frame : Nat) (forms : List Value) (tasks : List Task) (w : World) : State :=
  match forms with
  | [] => .give (.ok (.list [])) tasks w
  | form :: todo => ⟨.eval frame form, .sequence frame todo :: tasks, w⟩

/-- Reads the contents of a file and goes on with its expressions. -/
def withExpressions (file contents : Text) (next : List Value → List Task → World → State)
    (tasks : List Task) (w : World) : State :=
  let (r, w) := w.read file contents
  match r with
  | .ok forms => next forms tasks w
  | .error e => .fail e tasks w

/-- Fetches a file for a use. -/
def fetch (files : Files) (caller : Nat) (file : Text) (use : FileUse) (tasks : List Task)
    (w : World) : State :=
  match use, w.reader with
  | .load, none | .expressions, none => .fail (.noReader file) tasks w
  | use, _ =>
    match files file with
    | .error fault => .fail (.unavailable file fault) tasks w
    | .ok contents =>
      match use with
      | .contents => .give (.ok (.string contents)) tasks w
      | .expressions =>
        withExpressions file contents (fun forms => .give (.ok (.list forms))) tasks w
      | .load => withExpressions file contents (sequence caller) tasks w

/-- Ends a procedure call: an error that has no trace yet gets one. -/
def leave (r : Except Error Value) (tasks : List Task) (w : World) : State :=
  match r with
  | .ok v => .give (.ok v) tasks w.popCall
  | .error e => .fail e tasks w.note.popCall

/-- Goes on with an application: the next operand, or the call when all are done. -/
def apply (frame : Nat) (name : Text) (procedure : Value) (done todo : List Value)
    (tasks : List Task) (w : World) : State :=
  match todo with
  | [] => ⟨.call frame name procedure done.reverse, tasks, w⟩
  | form :: todo => ⟨.eval frame form, .operands frame name procedure done todo :: tasks, w⟩

/-- Hands a value to a task that waits for it. -/
def resume (v : Value) (task : Task) (tasks : List Task) (w : World) : State :=
  match task with
  | .branch frame whenTrue whenFalse =>
    ⟨.eval frame (if v.isFalse then whenFalse else whenTrue), tasks, w⟩
  | .assign frame name =>
    match w.store.owner? frame name with
    | some i => .give (.ok v) tasks { w with store := w.store.assign i name v }
    | none => .fail (.unbound Error.setting name) tasks w
  | .define frame name =>
    .give (.ok v) tasks { w with store := w.store.define frame name v }
  | .operator frame name todo => apply frame name v [] todo tasks w
  | .operands frame name procedure done todo => apply frame name procedure (v :: done) todo tasks w
  | .leave _ => leave (.ok v) tasks w
  | .sequence _ [] => .give (.ok v) tasks w
  | .sequence frame (form :: todo) => ⟨.eval frame form, .sequence frame todo :: tasks, w⟩

/-- Hands an error to a task that waits for a result. -/
def unwind (e : Error) (task : Task) (tasks : List Task) (w : World) : State :=
  match task with
  | .leave _ => leave (.error e) tasks w
  | _ => .fail e tasks w

/-- One step of the machine. A result that no task waits for stays as it is. -/
def step (files : Files) : State → State
  | ⟨.eval frame form, tasks, w⟩ => eval frame form tasks w
  | ⟨.call caller name procedure args, tasks, w⟩ => call caller name procedure args tasks w
  | ⟨.fetch caller file use, tasks, w⟩ => fetch files caller file use tasks w
  | ⟨.result (.ok v), task :: tasks, w⟩ => resume v task tasks w
  | ⟨.result (.error e), task :: tasks, w⟩ => unwind e task tasks w
  | ⟨.result r, [], w⟩ => ⟨.result r, [], w⟩

/-- Runs the machine for a number of steps, for the result that no task waits for. -/
def run (files : Files) : (fuel : Nat) → State → Option (Except Error Value × World)
  | _, ⟨.result r, [], w⟩ => some (r, w)
  | 0, _ => none
  | fuel + 1, s => run files fuel (s.step files)

end State

end SmallScheme
