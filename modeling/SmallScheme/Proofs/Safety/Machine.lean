import SmallScheme.Proofs.Machine.Balance
import SmallScheme.Proofs.Machine.Operations
import SmallScheme.Proofs.Safety.Primitives
import SmallScheme.Proofs.Safety.Reader

/-!
# Evaluation with answers that may be missing

The machine once more, with nothing taken for granted: an answer is a value and an error, of which
both may be missing; a frame is fetched before it is used; arguments are put in their places and
bound by number; the latest call is taken from the stack. `Guarded.State.step_eq` says that a step
from a state that refers to frames of its store, with a task for every call that it made, does not
go wrong and is the step of the machine; `Guarded.State.run_eq` says the same of runs.
-/

namespace SmallScheme

set_option autoImplicit false

namespace Guarded

section Frames

def owner? (s : Store) (name : Text) (i : Nat) : Guarded (Option Nat) := do
  let f ← present s.frames[i]?
  if f.binds name then return some i
  else
    match f.parent with
    | none => return none
    | some p => if _h : p < i then owner? s name p else .error .endless
termination_by i

/-- Binds a name in a frame. A missing value cannot be bound. -/
def define (s : Store) (i : Nat) (name : Text) (v : Option Value) : Guarded Store := do
  let v ← present v
  let _ ← present s.frames[i]?
  return s.define i name v

/-- Replaces the value of a name in a frame. -/
def assign (s : Store) (i : Nat) (name : Text) (v : Option Value) : Guarded Store := do
  let v ← present v
  let _ ← present s.frames[i]?
  return s.assign i name v

/-- The value of a variable as seen from a frame, or the error that there is none. -/
def get (s : Store) (i : Nat) (name : Text) : Guarded (Option Value × Option Error) := do
  match ← owner? s name i with
  | some j =>
    let f ← present s.frames[j]?
    return (f.find? name, none)
  | none => return (none, some (.unbound Error.getting name))

def set (s : Store) (i : Nat) (name : Text) (v : Option Value) : Guarded (Except Error Store) := do
  match ← owner? s name i with
  | some j =>
    let store ← assign s j name v
    return .ok store
  | none => return .error (.unbound Error.setting name)

def bindFrom (args : List Value) : (i : Nat) → List Text → Frame → Guarded Frame
  | _, [], f => .ok f
  | i, name :: names, f => do
    let v ← index args i
    bindFrom args (i + 1) names (f.define name v)

def bind (s : Store) (frame : Nat) (formals : Formals) (args : List Value) :
    Guarded (Nat × Store) := do
  let _ ← present s.frames[frame]?
  let f ← bindFrom args 0 formals.params (.empty (some frame))
  match formals.rest with
  | none => return s.allocate f
  | some rest =>
    let more ← sliceFrom args formals.params.length
    return s.allocate (f.define rest (.list more))

variable {s : Store} {i : Nat}

theorem present_frame (hi : s.Allocated i) : ∃ f, present s.frames[i]? = .ok f ∧
    s.frames[i]? = some f := by
  have hf := Array.getElem?_eq_getElem hi
  exact ⟨_, by rw [hf]; rfl, hf⟩

theorem owner?_eq (hw : s.WellFormed) (hi : s.Allocated i) (name : Text) :
    owner? s name i = .ok (s.owner? i name) := by
  induction i using Nat.strongRecOn with
  | ind i ih =>
    obtain ⟨f, hp, hf⟩ := present_frame hi
    have hb : s.binds i name = f.binds name := by simp [Store.binds, hf]
    rw [owner?, hp, ok_bind, Store.owner?, hw.path_eq hf, List.find?_cons, hb]
    cases f.binds name with
    | true => rfl
    | false =>
      cases hq : f.parent with
      | none => rfl
      | some p =>
        have hlt := hw.parent_lt i f p hf hq
        rw [if_neg Bool.false_ne_true]
        dsimp only [Option.elim]
        rw [dif_pos hlt]
        exact ih p hlt (Nat.lt_trans hlt hi)

theorem define_eq (hi : s.Allocated i) (name : Text) (v : Value) :
    define s i name (some v) = .ok (s.define i name v) := by
  obtain ⟨f, hp, -⟩ := present_frame hi
  rw [define, present_some, ok_bind, hp]
  rfl

theorem assign_eq (hi : s.Allocated i) (name : Text) (v : Value) :
    assign s i name (some v) = .ok (s.assign i name v) := by
  obtain ⟨f, hp, -⟩ := present_frame hi
  rw [assign, present_some, ok_bind, hp]
  rfl

/-- A result as a value and an error, one of which is missing. -/
def parts : Except Error Value → Option Value × Option Error
  | .ok v => (some v, none)
  | .error e => (none, some e)

theorem get_eq (hw : s.WellFormed) (hi : s.Allocated i) (name : Text) :
    get s i name = .ok (parts (s.get i name)) := by
  rw [get, owner?_eq hw hi, ok_bind, Store.get, Store.find?]
  cases ho : s.owner? i name with
  | none => rfl
  | some j =>
    -- the frame that owns a name binds it
    have hb := Store.owner?_binds ho
    rw [Store.binds] at hb
    cases hf : s.frames[j]? with
    | none =>
      rw [hf] at hb
      cases hb
    | some f =>
      rw [hf] at hb
      obtain ⟨v, hv⟩ := Option.isSome_iff_exists.mp hb
      simp only [hf, hv, present_some, ok_bind, Option.bind_some]
      rfl

theorem set_eq (hw : s.WellFormed) (hi : s.Allocated i) (name : Text) (v : Value) :
    set s i name (some v) = .ok (s.set i name v) := by
  rw [set, owner?_eq hw hi, ok_bind, Store.set]
  cases ho : s.owner? i name with
  | none => rfl
  | some j =>
    dsimp only
    rw [assign_eq (hw.closed.owner? hi ho)]
    rfl

theorem bindFrom_eq {args : List Value} {names : List Text} (h : i + names.length ≤ args.length)
    (f : Frame) :
    bindFrom args i names f =
      .ok ((names.zip (args.drop i)).foldl (fun f b => f.define b.1 b.2) f) := by
  induction names generalizing i f with
  | nil => rfl
  | cons name names ih =>
    rw [List.length_cons] at h
    have hi : i < args.length := by omega
    rw [bindFrom, index_eq (List.getElem?_eq_getElem hi), ok_bind, ih (by omega),
      List.drop_eq_getElem_cons hi]
    rfl

/-- Arguments that are not too few can be bound. -/
theorem bind_eq {formals : Formals} {args : List Value} (hi : s.Allocated i)
    (h : formals.params.length ≤ args.length) :
    bind s i formals args = .ok (s.allocate (.ofArguments i formals args)) := by
  obtain ⟨f, hp, -⟩ := present_frame hi
  rw [bind, hp, ok_bind, bindFrom_eq (by omega), ok_bind, List.drop_zero]
  unfold Frame.ofArguments
  cases formals.rest with
  | none => rfl
  | some rest =>
    dsimp only
    rw [sliceFrom_eq h]
    rfl

example : bind (Store.empty.allocate (.empty none)).2 0 ⟨[.ofString "x"], none⟩ [] =
    .error (.misuse (.outOfRange 0 0)) := rfl

end Frames

/-- What the machine does now. An answer is a value, an error or, if something went wrong, neither
of them. -/
inductive Control where
  | eval (frame : Nat) (form : Value)
  | call (caller : Nat) (name : Text) (procedure : Value) (args : List Value)
  | fetch (caller : Nat) (file : Text) (use : FileUse)
  | answer (v : Option Value) (e : Option Error)

/-- A task that waits for an answer. For the operands of an application there are as many places as
operands. -/
inductive Task where
  | branch (frame : Nat) (whenTrue whenFalse : Value)
  | assign (frame : Nat) (name : Text)
  | define (frame : Nat) (name : Text)
  | operator (frame : Nat) (name : Text) (todo : List Value)
  | operands (frame : Nat) (name : Text) (procedure : Value) (places : Nat)
      (done todo : List Value)
  | leave (caller : Nat)
  | sequence (frame : Nat) (todo : List Value)

structure State where
  control : Control
  tasks : List Task
  world : World

namespace State

def give (v : Value) (tasks : List Task) (w : World) : State := ⟨.answer (some v) none, tasks, w⟩

def fail (e : Error) (tasks : List Task) (w : World) : State := ⟨.answer none (some e), tasks, w⟩

def direct (frame : Nat) (d : Directive) (tasks : List Task) (w : World) : Guarded State :=
  match d with
  | .quote v => .ok (.give v tasks w)
  | .conditional test whenTrue whenFalse =>
    .ok ⟨.eval frame test, .branch frame whenTrue whenFalse :: tasks, w⟩
  | .assignment name form => .ok ⟨.eval frame form, .assign frame name :: tasks, w⟩
  | .definition name form => .ok ⟨.eval frame form, .define frame name :: tasks, w⟩
  | .procedure name formals body => do
    let (v, store) := w.store.makeClosure formals body frame
    let store ← Guarded.define store frame name (some v)
    return .give v tasks { w with store := store }
  | .lambda formals body =>
    let (v, store) := w.store.makeClosure formals body frame
    .ok (.give v tasks { w with store := store })
  | .load file => .ok ⟨.fetch frame file .load, tasks, w⟩

def eval (frame : Nat) (form : Value) (tasks : List Task) (w : World) : Guarded State :=
  match form with
  | .string _ | .number _ | .bool _ | .char _ => .ok (.give form tasks w)
  | .atom name => do
    let (v, e) ← get w.store frame name
    return ⟨.answer v e, tasks, w⟩
  | .list cells =>
    if cells.length = 0 then .ok (.fail (.unrecognized form) tasks w)
    else do
      let head ← index cells 0
      match SmallScheme.State.specialForm? head with
      | some special =>
        match ← directive special form with
        | some d => direct frame d tasks w
        | none => return .fail (.unrecognized form) tasks w
      | none =>
        let todo ← sliceFrom cells 1
        return ⟨.eval frame head, .operator frame (head.atomName?.getD []) todo :: tasks, w⟩
  | _ => .ok (.fail (.unrecognized form) tasks w)

/-- Runs a procedure whose call is on the stack. What is no procedure has no answer. -/
def enter (caller : Nat) (procedure : Value) (args : List Value) (tasks : List Task) (w : World) :
    Guarded State :=
  match procedure with
  | .primitive _ op => do
    match ← effect op caller args with
    | .result (.ok v) => return .give v tasks w
    | .result (.error e) => return .fail e tasks w
    | .call caller f args => return ⟨.call caller [] f args, tasks, w⟩
    | .contents caller file => return ⟨.fetch caller file .contents, tasks, w⟩
    | .expressions caller file => return ⟨.fetch caller file .expressions, tasks, w⟩
  | .closure _ formals body frame =>
    match SmallScheme.State.arityFault? formals args with
    | some e => .ok (.fail e tasks w)
    | none => do
      let (i, store) ← Guarded.bind w.store frame formals args
      return ⟨.eval i body, tasks, { w with store := store }⟩
  | _ => .ok ⟨.answer none none, tasks, w⟩

def call (caller : Nat) (name : Text) (procedure : Value) (args : List Value) (tasks : List Task)
    (w : World) : Guarded State :=
  if procedure.isProcedure then
    match w.forget.stack.push name procedure with
    | .error e => .ok (.fail e tasks { w with trace := some w.stack })
    | .ok stack => enter caller procedure args (.leave caller :: tasks) { w.forget with stack := stack }
  else .ok (.fail (.notApplicable procedure) tasks w)

def sequence (frame : Nat) (forms : List Value) (tasks : List Task) (w : World) : State :=
  match forms with
  | [] => .give (.list []) tasks w
  | form :: todo => ⟨.eval frame form, .sequence frame todo :: tasks, w⟩

/-- A world whose reader has another table, which has to be faithful. -/
def withReader (w : World) (reader : Option SymbolTable) : Guarded World :=
  if h : SymbolTable.Faithful? reader then .ok { w with reader := reader, faithful := h }
  else .error .unfaithful

/-- Reads the contents of a file and goes on with its expressions. A reader has to be there. -/
def withExpressions (file contents : Text) (next : List Value → List Task → World → State)
    (tasks : List Task) (w : World) : Guarded State := do
  let table ← present w.reader
  let (r, reader) ← readSource (some table) file contents none
  let w ← withReader w reader
  match r with
  | .ok forms => return next forms tasks w
  | .error e => return .fail e tasks w

def fetch (files : Files) (caller : Nat) (file : Text) (use : FileUse) (tasks : List Task)
    (w : World) : Guarded State :=
  match use, w.reader with
  | .load, none | .expressions, none => .ok (.fail (.noReader file) tasks w)
  | use, _ =>
    match files file with
    | .error fault => .ok (.fail (.unavailable file fault) tasks w)
    | .ok contents =>
      match use with
      | .contents => .ok (.give (.string contents) tasks w)
      | .expressions => withExpressions file contents (fun forms => .give (.list forms)) tasks w
      | .load => withExpressions file contents (sequence caller) tasks w

def leave (v : Option Value) (e : Option Error) (tasks : List Task) (w : World) :
    Guarded State := do
  let w := if e.isSome then w.note else w
  let (_, stack) ← ofMisuse w.stack.pop?
  return ⟨.answer v e, tasks, { w with stack := stack }⟩

def apply (frame : Nat) (name : Text) (procedure : Value) (places : Nat) (done todo : List Value)
    (tasks : List Task) (w : World) : Guarded State :=
  match todo with
  | [] =>
    -- a place that was never filled holds nothing
    if done.length = places then .ok ⟨.call frame name procedure done.reverse, tasks, w⟩
    else .error .absent
  | form :: todo =>
    .ok ⟨.eval frame form, .operands frame name procedure places done todo :: tasks, w⟩

def resume (v : Option Value) (task : Task) (tasks : List Task) (w : World) : Guarded State :=
  match task with
  | .branch frame whenTrue whenFalse => do
    let v ← present v
    return ⟨.eval frame (if v.isFalse then whenFalse else whenTrue), tasks, w⟩
  | .assign frame name => do
    match ← Guarded.set w.store frame name v with
    | .ok store => return ⟨.answer v none, tasks, { w with store := store }⟩
    | .error e => return .fail e tasks w
  | .define frame name => do
    let store ← Guarded.define w.store frame name v
    return ⟨.answer v none, tasks, { w with store := store }⟩
  | .operator frame name todo => do
    let v ← present v
    apply frame name v todo.length [] todo tasks w
  | .operands frame name procedure places done todo => do
    let v ← present v
    if done.length < places then apply frame name procedure places (v :: done) todo tasks w
    else .error (.misuse (.outOfRange done.length places))
  | .leave _ => leave v none tasks w
  | .sequence _ [] => .ok ⟨.answer v none, tasks, w⟩
  | .sequence frame (form :: todo) => .ok ⟨.eval frame form, .sequence frame todo :: tasks, w⟩

def unwind (e : Error) (task : Task) (tasks : List Task) (w : World) : Guarded State :=
  match task with
  | .leave _ => leave none (some e) tasks w
  | _ => .ok (.fail e tasks w)

def step (files : Files) : State → Guarded State
  | ⟨.eval frame form, tasks, w⟩ => eval frame form tasks w
  | ⟨.call caller name procedure args, tasks, w⟩ => call caller name procedure args tasks w
  | ⟨.fetch caller file use, tasks, w⟩ => fetch files caller file use tasks w
  | ⟨.answer v none, task :: tasks, w⟩ => resume v task tasks w
  | ⟨.answer _ (some e), task :: tasks, w⟩ => unwind e task tasks w
  | ⟨.answer v e, [], w⟩ => .ok ⟨.answer v e, [], w⟩

/-- The outcome that an answer is for those who asked. -/
def outcome (w : World) : Option Value → Option Error → Guarded Outcome
  | _, some e => .ok (.error e, w)
  | v, none => do
    let v ← present v
    return (.ok v, w)

def run (files : Files) : (fuel : Nat) → State → Guarded (Option Outcome)
  | _, ⟨.answer v e, [], w⟩ => some <$> outcome w v e
  | 0, _ => .ok none
  | fuel + 1, s => do
    let s ← step files s
    run files fuel s

end State

/-! ## The two machines -/

def Control.view : SmallScheme.Control → Control
  | .eval frame form => .eval frame form
  | .call caller name procedure args => .call caller name procedure args
  | .fetch caller file use => .fetch caller file use
  | .result (.ok v) => .answer (some v) none
  | .result (.error e) => .answer none (some e)

def Task.view : SmallScheme.Task → Task
  | .branch frame whenTrue whenFalse => .branch frame whenTrue whenFalse
  | .assign frame name => .assign frame name
  | .define frame name => .define frame name
  | .operator frame name todo => .operator frame name todo
  | .operands frame name procedure done todo =>
    .operands frame name procedure (done.length + 1 + todo.length) done todo
  | .leave caller => .leave caller
  | .sequence frame todo => .sequence frame todo

/-- A state of the machine, with its answer as a value and an error. -/
def State.view (s : SmallScheme.State) : State :=
  ⟨.view s.control, s.tasks.map Task.view, s.world⟩

namespace State

variable {files : Files} {base : CallStack} {tasks : List SmallScheme.Task} {w : World}
  {caller frame : Nat} {name : Text} {procedure v : Value} {args : List Value}

theorem direct_eq (hi : w.store.Allocated frame) (d : Directive) :
    direct frame d (tasks.map Task.view) w =
      .ok (view (SmallScheme.State.direct frame d tasks w)) := by
  cases d with
  | procedure name formals body =>
    have hi' : (w.store.makeClosure formals body frame).2.Allocated frame := hi
    change (Guarded.define (w.store.makeClosure formals body frame).2 frame name _ >>= _) = _
    rw [define_eq hi']
    rfl
  | _ => rfl

theorem eval_eq (hw : w.store.WellFormed) (hi : w.store.Allocated frame) (form : Value) :
    eval frame form (tasks.map Task.view) w =
      .ok (view (SmallScheme.State.eval frame form tasks w)) := by
  cases form with
  | atom name =>
    rw [eval, get_eq hw hi, ok_bind, SmallScheme.State.eval]
    cases w.store.get frame name <;> rfl
  | list cells =>
    cases cells with
    | nil => rfl
    | cons head rest =>
      have hl : ¬ (head :: rest).length = 0 := by simp
      rw [eval, if_neg hl, index_zero, ok_bind, SmallScheme.State.eval]
      cases SmallScheme.State.specialForm? head with
      | none =>
        dsimp only
        rw [sliceFrom_one]
        rfl
      | some special =>
        dsimp only
        rw [directive_eq, ok_bind]
        cases Directive.ofArguments? special rest with
        | none => rfl
        | some d => exact direct_eq hi d
  | _ => rfl

theorem enter_eq (hp : procedure.isProcedure = true) (hc : procedure.Within w.store.domain)
    (tasks : List SmallScheme.Task) :
    enter caller procedure args (tasks.map Task.view) w =
      .ok (view (SmallScheme.State.enter caller procedure args tasks w)) := by
  cases procedure with
  | primitive id op =>
    rw [enter, effect_eq, ok_bind, SmallScheme.State.enter]
    cases op.effect caller args with
    | result r => cases r <;> rfl
    | call | contents | expressions => rfl
  | closure id formals body captured =>
    rw [enter, SmallScheme.State.enter]
    cases ha : SmallScheme.State.arityFault? formals args with
    | some e => rfl
    | none =>
      have hl : formals.params.length ≤ args.length := by
        unfold SmallScheme.State.arityFault? at ha
        split at ha
        · cases ha
        split at ha
        · cases ha
        · omega
      dsimp only
      rw [bind_eq (hc.captures .frame) hl]
      rfl
  | _ => cases hp

theorem call_eq (hc : procedure.Within w.store.domain) :
    call caller name procedure args (tasks.map Task.view) w =
      .ok (view (SmallScheme.State.call caller name procedure args tasks w)) := by
  unfold call SmallScheme.State.call
  split
  · rename_i hp
    obtain ⟨trace, hf⟩ := w.exists_forget_eq
    have hs : w.forget.stack = w.stack := by rw [hf]
    have hc' : procedure.Within (w.forget.pushCall name procedure).store.domain := by
      rw [hf]
      exact hc
    rw [hs, CallStack.push]
    cases w.stack.full with
    | true => rfl
    | false =>
      have he : { w.forget with stack := w.stack.add name procedure } =
          w.forget.pushCall name procedure := by rw [World.pushCall, hs]
      simp only [Bool.false_eq_true, if_false, he]
      exact enter_eq hp hc' (.leave caller :: tasks)
  · rfl

theorem sequence_eq (frame : Nat) (forms : List Value) :
    sequence frame forms (tasks.map Task.view) w =
      view (SmallScheme.State.sequence frame forms tasks w) := by
  cases forms <;> rfl

theorem withReader_eq {reader : Option SymbolTable} (h : SymbolTable.Faithful? reader) :
    withReader w reader = .ok { w with reader := reader, faithful := h } :=
  dif_pos h

theorem withExpressions_eq {file contents : Text}
    {next : List Value → List Task → World → State}
    {next' : List Value → List SmallScheme.Task → World → SmallScheme.State}
    (hr : w.reader ≠ none)
    (hn : ∀ forms w, next forms (tasks.map Task.view) w = view (next' forms tasks w)) :
    withExpressions file contents next (tasks.map Task.view) w =
      .ok (view (SmallScheme.State.withExpressions file contents next' tasks w)) := by
  obtain ⟨table, ht⟩ := Option.ne_none_iff_exists'.mp hr
  unfold withExpressions SmallScheme.State.withExpressions
  have hread : Reader.readSource (some table) (.ofText file contents none) =
      ((w.read file contents).1, (w.read file contents).2.reader) := by
    rw [← ht]
    rfl
  have hw : withReader w (w.read file contents).2.reader = .ok (w.read file contents).2 :=
    withReader_eq (w.read file contents).2.faithful
  rw [ht, present_some, ok_bind, readSource_eq, ok_bind, hread]
  dsimp only
  rw [hw, ok_bind]
  cases (w.read file contents).1 with
  | ok forms => exact congrArg Except.ok (hn forms _)
  | error e => rfl

theorem fetch_eq (file : Text) (use : FileUse) :
    fetch files caller file use (tasks.map Task.view) w =
      .ok (view (SmallScheme.State.fetch files caller file use tasks w)) := by
  obtain ⟨store, stack, trace, reader, faithful⟩ := w
  cases use with
  | contents =>
    simp only [fetch, SmallScheme.State.fetch]
    cases files file <;> rfl
  | expressions =>
    cases reader with
    | none => rfl
    | some table =>
      simp only [fetch, SmallScheme.State.fetch]
      cases files file with
      | error fault => rfl
      | ok contents => exact withExpressions_eq (Option.some_ne_none table) fun forms w => rfl
  | load =>
    cases reader with
    | none => rfl
    | some table =>
      simp only [fetch, SmallScheme.State.fetch]
      cases files file with
      | error fault => rfl
      | ok contents =>
        exact withExpressions_eq (Option.some_ne_none table) fun forms w => sequence_eq caller forms

/-- Where a task ends a call there is a call on the stack. -/
theorem exists_pop {s : CallStack} (h : Balanced base (.leave caller :: tasks) s) :
    ∃ f, s.pop? = .ok (f, s.pop) := by
  cases h with
  | @call _ s _ name procedure _ =>
    refine ⟨⟨name, procedure⟩, ?_⟩
    simp [CallStack.pop?, CallStack.top?, CallStack.add]
  | wait ht => exact absurd rfl (ht caller)

theorem leave_value (h : Balanced base (.leave caller :: tasks) w.stack) :
    leave (some v) none (tasks.map Task.view) w =
      .ok (view (SmallScheme.State.leave (.ok v) tasks w)) := by
  obtain ⟨f, hf⟩ := exists_pop h
  simp only [leave, Option.isSome_none, Bool.false_eq_true, if_false, hf, ofMisuse, ok_bind]
  rfl

theorem leave_error {e : Error} (h : Balanced base (.leave caller :: tasks) w.stack) :
    leave none (some e) (tasks.map Task.view) w =
      .ok (view (SmallScheme.State.leave (.error e) tasks w)) := by
  have hn : w.note.stack = w.stack := by
    obtain ⟨trace, hw⟩ := w.exists_note_eq
    rw [hw]
  obtain ⟨f, hf⟩ := exists_pop (hn ▸ h)
  simp only [leave, Option.isSome_some, if_true, hf, ofMisuse, ok_bind]
  rfl

-- a task that ends a call where none is in progress
example : leave (some (.bool true)) none [] (World.new { primitives := false }) =
    .error (.misuse .emptyStack) := rfl

theorem apply_eq {places : Nat} {done todo : List Value}
    (hp : places = done.length + todo.length) :
    apply frame name procedure places done todo (tasks.map Task.view) w =
      .ok (view (SmallScheme.State.apply frame name procedure done todo tasks w)) := by
  cases todo with
  | nil =>
    have hp : done.length = places := hp.symm
    rw [apply, if_pos hp]
    rfl
  | cons form todo =>
    rw [List.length_cons, ← Nat.add_assoc, Nat.add_right_comm] at hp
    rw [hp]
    rfl

theorem resume_eq {task : SmallScheme.Task} (hw : w.store.WellFormed)
    (ht : task.Within w.store.domain) (h : Balanced base (task :: tasks) w.stack) :
    resume (some v) (Task.view task) (tasks.map Task.view) w =
      .ok (view (SmallScheme.State.resume v task tasks w)) := by
  cases task with
  | branch => rfl
  | assign frame name =>
    simp only [Task.view, resume, set_eq hw ht, ok_bind, Store.set, SmallScheme.State.resume]
    cases w.store.owner? frame name <;> rfl
  | define frame name =>
    simp only [Task.view, resume, define_eq ht, ok_bind]
    rfl
  | operator frame name todo =>
    have hp : todo.length = ([] : List Value).length + todo.length := (Nat.zero_add _).symm
    exact apply_eq hp
  | operands frame name procedure done todo =>
    have hl : done.length < done.length + 1 + todo.length := by omega
    simp only [Task.view, resume, present_some, ok_bind, hl, if_true]
    exact apply_eq rfl
  | leave => exact leave_value h
  | sequence frame todo => cases todo <;> rfl

theorem unwind_eq {task : SmallScheme.Task} {e : Error}
    (h : Balanced base (task :: tasks) w.stack) :
    unwind e (Task.view task) (tasks.map Task.view) w =
      .ok (view (SmallScheme.State.unwind e task tasks w)) := by
  cases task with
  | leave => exact leave_error h
  | _ => rfl

/-- A step does not go wrong. -/
theorem step_eq {s : SmallScheme.State} (hs : s.Sound) (hb : s.BalancedOn base) :
    step files (view s) = .ok (view (s.step files)) := by
  obtain ⟨control, tasks, w⟩ := s
  obtain ⟨hw, hc, ht⟩ := hs
  cases control with
  | eval frame form => exact eval_eq hw hc.1 form
  | call caller name procedure args => exact call_eq hc.1
  | fetch caller file use => exact fetch_eq file use
  | result r =>
    cases tasks with
    | nil => cases r <;> rfl
    | cons task tasks =>
      have ht := ht task List.mem_cons_self
      cases r with
      | ok v => exact resume_eq hw ht hb
      | error e => exact unwind_eq hb

theorem run_succ (files : Files) (fuel : Nat) (s : State) :
    run files (fuel + 1) s = step files s >>= run files fuel := by
  obtain ⟨control, tasks, w⟩ := s
  cases control with
  | eval | call | fetch => rfl
  | answer v e =>
    cases tasks with
    | nil => cases e <;> simp only [step, run, ok_bind]
    | cons => cases e <;> rfl

/-- A run does not go wrong, however far it is followed. -/
theorem run_eq {s : SmallScheme.State} (hs : s.Sound) (hb : s.BalancedOn base) (fuel : Nat) :
    run files fuel (view s) = .ok (s.run files fuel) := by
  induction fuel generalizing s with
  | zero =>
    obtain ⟨control, tasks, w⟩ := s
    cases control with
    | eval | call | fetch => rfl
    | result r => cases tasks <;> cases r <;> rfl
  | succ fuel ih =>
    rw [run_succ, step_eq hs hb, ok_bind, SmallScheme.State.run_succ]
    exact ih hs.step (SmallScheme.State.balanced_step hb)

end State

end Guarded

end SmallScheme
