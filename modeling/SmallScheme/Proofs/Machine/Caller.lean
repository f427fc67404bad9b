import Mathlib.Data.Option.Basic
import Mathlib.Logic.Function.Basic
import SmallScheme.Proofs.Machine.Definitions

/-!
# The frame that calls

A call is made from a frame. A primitive procedure is told this frame and hands it on to what it
calls in turn, a file is fetched for it, and the call is ended for it. So two runs can differ in the
frames that call and in nothing else; `State.Alike` says so of two states, and the machine keeps it
(`State.Alike.step`): what is evaluated next is evaluated in the same frame by both.

Frames of several runtimes can live in one store. A runtime has a call stack, a trace, a reader and
a supply of files, which its frames share, and the machine acts with the runtime of the frame on
whose behalf it acts. There the frame that calls counts through its runtime alone
(`Realm.apply_eq_of_home`).
-/

namespace SmallScheme

set_option autoImplicit false

/-! ## Runs that differ in the frames that call -/

section Alike

variable (K : Nat → Nat → Prop)

/-- Controls that differ in the frame that calls, or that asks for a file. A file that is loaded is
evaluated in the frame that asks for it, so this frame is the same. -/
inductive Control.Alike : Control → Control → Prop where
  | eval (frame : Nat) (form : Value) : Alike (.eval frame form) (.eval frame form)
  | call {i j : Nat} (h : K i j) (name : Text) (procedure : Value) (args : List Value) :
    Alike (.call i name procedure args) (.call j name procedure args)
  | fetch {i j : Nat} (h : K i j) (file : Text) (use : FileUse) (hu : use = .load → i = j) :
    Alike (.fetch i file use) (.fetch j file use)
  | result (r : Except Error Value) : Alike (.result r) (.result r)

/-- Tasks that differ in the frame from which a call was made. -/
inductive Task.Alike : Task → Task → Prop where
  | same (task : Task) : Alike task task
  | leave {i j : Nat} (h : K i j) : Alike (.leave i) (.leave j)

/-- Effects that differ in the frame on whose behalf they are carried out. -/
inductive Primitive.Effect.Alike : Primitive.Effect → Primitive.Effect → Prop where
  | result (r : Except Error Value) : Alike (.result r) (.result r)
  | call {i j : Nat} (h : K i j) (procedure : Value) (args : List Value) :
    Alike (.call i procedure args) (.call j procedure args)
  | contents {i j : Nat} (h : K i j) (file : Text) : Alike (.contents i file) (.contents j file)
  | expressions {i j : Nat} (h : K i j) (file : Text) :
    Alike (.expressions i file) (.expressions j file)

/-- States in one world that differ in the frames that call. -/
structure State.Alike (s t : State) : Prop where
  control : s.control.Alike K t.control
  tasks : List.Forall₂ (Task.Alike K) s.tasks t.tasks
  world_eq : t.world = s.world

end Alike

variable {K L : Nat → Nat → Prop} {i j frame : Nat} {name : Text} {procedure v : Value}
  {args : List Value}

theorem Control.Alike.mono (hle : ∀ i j, K i j → L i j) {c c' : Control} (h : c.Alike K c') :
    c.Alike L c' := by
  cases h with
  | eval frame form => exact .eval frame form
  | call h name procedure args => exact .call (hle _ _ h) name procedure args
  | fetch h file use hu => exact .fetch (hle _ _ h) file use hu
  | result r => exact .result r

theorem Task.Alike.mono (hle : ∀ i j, K i j → L i j) {t t' : Task} (h : t.Alike K t') :
    t.Alike L t' := by
  cases h with
  | same => exact .same t
  | leave h => exact .leave (hle _ _ h)

/-- A primitive procedure does with its arguments what it does for any other frame. -/
theorem Primitive.effect_alike (op : Primitive) (h : K i j) (args : List Value) :
    (op.effect i args).Alike K (op.effect j args) := by
  have hfile {ei ej : Text → Effect} (he : ∀ file, (ei file).Alike K (ej file)) :
      (onFile ei args).Alike K (onFile ej args) := by
    unfold onFile
    split
    · exact he _
    · exact .result _
    · exact .result _
  cases op with
  | apply =>
    simp only [effect, application]
    split
    · exact .call h _ _
    · exact .call h _ _
    · exact .result _
  | readContents => exact hfile (.contents h)
  | readAll => exact hfile (.expressions h)
  | _ => exact .result _

namespace State

variable {files : Files} {tasks tasks' : List Task} {task task' : Task} {w : World}

section Functions

variable (hK : ∀ i, K i i) (ht : List.Forall₂ (Task.Alike K) tasks tasks')
include hK ht

/-- What acts in a frame of its own does the same in both runs. -/
theorem alike_direct (d : Directive) :
    Alike K (direct frame d tasks w) (direct frame d tasks' w) := by
  cases d with
  | quote v => exact ⟨.result _, ht, rfl⟩
  | conditional test whenTrue whenFalse => exact ⟨.eval _ _, .cons (.same _) ht, rfl⟩
  | assignment name form => exact ⟨.eval _ _, .cons (.same _) ht, rfl⟩
  | definition name form => exact ⟨.eval _ _, .cons (.same _) ht, rfl⟩
  | procedure name formals body => exact ⟨.result _, ht, rfl⟩
  | lambda formals body => exact ⟨.result _, ht, rfl⟩
  | load file => exact ⟨.fetch (hK frame) file .load fun _ => rfl, ht, rfl⟩

theorem alike_eval (form : Value) :
    Alike K (eval frame form tasks w) (eval frame form tasks' w) := by
  cases form with
  | list items =>
    cases items with
    | nil => exact ⟨.result _, ht, rfl⟩
    | cons head rest =>
      rw [eval, eval]
      cases specialForm? head with
      | none => exact ⟨.eval _ _, .cons (.same _) ht, rfl⟩
      | some special =>
        dsimp only
        cases Directive.ofArguments? special rest with
        | none => exact ⟨.result _, ht, rfl⟩
        | some d => exact alike_direct hK ht d
  | _ => exact ⟨.result _, ht, rfl⟩

omit hK in
/-- A closure is run in a frame that extends the captured one, whoever calls it. -/
theorem alike_enter (h : K i j) :
    Alike K (enter i procedure args tasks w) (enter j procedure args tasks' w) := by
  cases procedure with
  | primitive id op =>
    have he := op.effect_alike h args
    rw [enter, enter]
    generalize op.effect i args = e at he
    generalize op.effect j args = e' at he
    cases he with
    | result r => exact ⟨.result r, ht, rfl⟩
    | call h procedure args => exact ⟨.call h _ _ _, ht, rfl⟩
    | contents h file =>
      refine ⟨.fetch h file .contents ?_, ht, rfl⟩
      intro hu
      cases hu
    | expressions h file =>
      refine ⟨.fetch h file .expressions ?_, ht, rfl⟩
      intro hu
      cases hu
  | closure id formals body captured =>
    rw [enter, enter]
    cases arityFault? formals args with
    | some e => exact ⟨.result _, ht, rfl⟩
    | none => exact ⟨.eval _ _, ht, rfl⟩
  | _ => exact ⟨.result _, ht, rfl⟩

omit hK in
theorem alike_call (h : K i j) :
    Alike K (call i name procedure args tasks w) (call j name procedure args tasks' w) := by
  unfold call
  split
  · split
    · exact ⟨.result _, ht, rfl⟩
    · exact alike_enter (.cons (.leave h) ht) h
  · exact ⟨.result _, ht, rfl⟩

omit hK in
theorem alike_sequence (forms : List Value) :
    Alike K (sequence frame forms tasks w) (sequence frame forms tasks' w) := by
  cases forms with
  | nil => exact ⟨.result _, ht, rfl⟩
  | cons form todo => exact ⟨.eval _ _, .cons (.same _) ht, rfl⟩

omit hK in
theorem alike_withExpressions (file contents : Text)
    {next next' : List Value → List Task → World → State}
    (hn : ∀ forms w, Alike K (next forms tasks w) (next' forms tasks' w)) :
    Alike K (withExpressions file contents next tasks w)
      (withExpressions file contents next' tasks' w) := by
  unfold withExpressions
  dsimp only
  split
  · exact hn _ _
  · exact ⟨.result _, ht, rfl⟩

omit hK in
theorem alike_fetch {use : FileUse} (hu : use = .load → i = j) (file : Text) :
    Alike K (fetch files i file use tasks w) (fetch files j file use tasks' w) := by
  unfold fetch
  split
  · exact ⟨.result _, ht, rfl⟩
  · exact ⟨.result _, ht, rfl⟩
  · split
    · exact ⟨.result _, ht, rfl⟩
    · split
      · exact ⟨.result _, ht, rfl⟩
      · exact alike_withExpressions ht file _ fun forms w => ⟨.result _, ht, rfl⟩
      · rw [hu rfl]
        exact alike_withExpressions ht file _ fun forms w => alike_sequence ht forms

omit hK in
theorem alike_leave (r : Except Error Value) : Alike K (leave r tasks w) (leave r tasks' w) := by
  cases r with
  | ok v => exact ⟨.result _, ht, rfl⟩
  | error e => exact ⟨.result _, ht, rfl⟩

theorem alike_apply (done todo : List Value) :
    Alike K (apply frame name procedure done todo tasks w)
      (apply frame name procedure done todo tasks' w) := by
  cases todo with
  | nil => exact ⟨.call (hK frame) _ _ _, ht, rfl⟩
  | cons form todo => exact ⟨.eval _ _, .cons (.same _) ht, rfl⟩

theorem alike_resume (h : task.Alike K task') :
    Alike K (resume v task tasks w) (resume v task' tasks' w) := by
  cases h with
  | leave h => exact alike_leave ht (.ok v)
  | same =>
    cases task with
    | branch frame whenTrue whenFalse => exact ⟨.eval _ _, ht, rfl⟩
    | assign frame name =>
      rw [resume, resume]
      cases w.store.owner? frame name with
      | none => exact ⟨.result _, ht, rfl⟩
      | some i => exact ⟨.result _, ht, rfl⟩
    | define frame name => exact ⟨.result _, ht, rfl⟩
    | operator frame name todo => exact alike_apply hK ht [] todo
    | operands frame name procedure done todo => exact alike_apply hK ht (v :: done) todo
    | leave => exact alike_leave ht (.ok v)
    | sequence frame todo =>
      cases todo with
      | nil => exact ⟨.result _, ht, rfl⟩
      | cons form todo => exact ⟨.eval _ _, .cons (.same _) ht, rfl⟩

omit hK in
theorem alike_unwind (h : task.Alike K task') (e : Error) :
    Alike K (unwind e task tasks w) (unwind e task' tasks' w) := by
  cases h with
  | leave h => exact alike_leave ht (.error e)
  | same =>
    cases task with
    | leave => exact alike_leave ht (.error e)
    | _ => exact ⟨.result _, ht, rfl⟩

end Functions

/-- A step of two runs that differ in the frames that call. -/
theorem Alike.step {s t : State} (h : Alike K s t) (hK : ∀ i, K i i) (files : Files) :
    Alike K (s.step files) (t.step files) := by
  obtain ⟨c, tasks, w⟩ := s
  obtain ⟨c', tasks', w'⟩ := t
  obtain ⟨hc, ht, rfl⟩ := h
  cases hc with
  | eval frame form => exact alike_eval hK ht form
  | call h name procedure args => exact alike_call ht h
  | fetch h file use hu => exact alike_fetch ht hu file
  | result r =>
    cases ht with
    | nil =>
      cases r with
      | ok v => exact ⟨.result _, .nil, rfl⟩
      | error e => exact ⟨.result _, .nil, rfl⟩
    | cons hhead ht =>
      cases r with
      | ok v => exact alike_resume hK ht hhead
      | error e => exact alike_unwind ht hhead e

theorem Alike.run_eq {s t : State} (h : Alike K s t) (hK : ∀ i, K i i) (files : Files)
    (fuel : Nat) : s.run files fuel = t.run files fuel := by
  induction fuel generalizing s t with
  | zero =>
    obtain ⟨c, tasks, w⟩ := s
    obtain ⟨c', tasks', w'⟩ := t
    obtain ⟨hc, ht, rfl⟩ := h
    cases hc with
    | eval | call | fetch => rfl
    | result r =>
      cases ht with
      | nil => rfl
      | cons => rfl
  | succ fuel ih => rw [run_succ, run_succ, ih (h.step hK files)]

end State

/-! ## Frames of several runtimes -/

/-- What the frames of a runtime share. -/
structure Runtime where
  stack : CallStack
  trace : Option CallStack
  reader : Option SymbolTable
  faithful : SymbolTable.Faithful? reader
  files : Files

namespace Runtime

/-- The world of a runtime, with the frames of a store. -/
def world (u : Runtime) (store : Store) : World := ⟨store, u.stack, u.trace, u.reader, u.faithful⟩

/-- The runtime when its world has changed. -/
def update (u : Runtime) (w : World) : Runtime := ⟨w.stack, w.trace, w.reader, w.faithful, u.files⟩

end Runtime

/-- Frames of several runtimes in one store. -/
structure Realm where
  store : Store
  /-- The number of the runtime that a frame belongs to. -/
  home : Nat → Nat
  runtimes : Nat → Runtime

/-- The frame on whose behalf something is done, save where a result is handed on. -/
def Control.actor? : Control → Option Nat
  | .eval frame _ | .call frame _ _ _ | .fetch frame _ _ => some frame
  | .result _ => none

/-- The frame on whose behalf a task waits. -/
def Task.actor : Task → Nat
  | .branch frame _ _ | .assign frame _ | .define frame _ | .operator frame _ _
  | .operands frame _ _ _ _ | .leave frame | .sequence frame _ => frame

namespace Realm

/-- The runtime that a frame belongs to. -/
def runtime (r : Realm) (frame : Nat) : Runtime := r.runtimes (r.home frame)

/-- The world as it is for a frame. -/
def world (r : Realm) (frame : Nat) : World := (r.runtime frame).world r.store

/-- The realm when the world of a frame has changed. A new frame belongs to the runtime of the frame
that it extends. -/
def update (r : Realm) (frame : Nat) (w : World) : Realm where
  store := w.store
  home i := if i < r.store.frames.size then r.home i else (w.store.parent? i).elim (r.home i) r.home
  runtimes := Function.update r.runtimes (r.home frame) ((r.runtime frame).update w)

/-- A state of the machine in a realm. -/
structure State where
  control : Control
  tasks : List Task
  realm : Realm

namespace State

/-- The frame on whose behalf the machine acts. A result is handed to the task that waits for it, on
behalf of the frame for which the task waits. -/
def actor? (s : State) : Option Nat := s.control.actor?.or (s.tasks.head?.map Task.actor)

/-- The state as the runtime of a frame sees it. -/
def view (s : State) (frame : Nat) : SmallScheme.State := ⟨s.control, s.tasks, s.realm.world frame⟩

/-- One step of the machine, with the runtime of the frame on whose behalf it acts. -/
def step (s : State) : State :=
  match s.actor? with
  | none => s
  | some frame =>
    let next := (s.view frame).step (s.realm.runtime frame).files
    ⟨next.control, next.tasks, s.realm.update frame next.world⟩

/-- Runs the machine for a number of steps, for the result that no task waits for. -/
def run : (fuel : Nat) → State → Option (Except Error Value × Realm)
  | _, ⟨.result r, [], realm⟩ => some (r, realm)
  | 0, _ => none
  | fuel + 1, s => run fuel s.step

end State

/-- Applies a procedure to arguments, called from a frame. -/
def apply (r : Realm) (fuel caller : Nat) (procedure : Value) (args : List Value) :
    Option (Except Error Value × Realm) :=
  State.run fuel ⟨.call caller [] procedure args, [], r⟩

/-- Frames that are the same for what is done on their behalf: one frame, or two of one runtime. -/
def Kin (r : Realm) (i j : Nat) : Prop :=
  i = j ∨ r.store.Allocated i ∧ r.store.Allocated j ∧ r.home i = r.home j

section Kin

variable {r : Realm} {w : World}

theorem Kin.home_eq (h : r.Kin i j) : r.home i = r.home j := by
  rcases h with rfl | ⟨-, -, h⟩
  · rfl
  · exact h

theorem Kin.runtime_eq (h : r.Kin i j) : r.runtime i = r.runtime j := by
  rw [runtime, h.home_eq, runtime]

theorem Kin.world_eq (h : r.Kin i j) : r.world i = r.world j := by
  rw [world, h.runtime_eq, world]

theorem Kin.update_eq (h : r.Kin i j) (w : World) : r.update i w = r.update j w := by
  rw [update, h.home_eq, h.runtime_eq, update]

theorem home_update (hi : r.store.Allocated i) (frame : Nat) (w : World) :
    (r.update frame w).home i = r.home i :=
  if_pos hi

theorem Kin.update (h : r.Kin i j) (frame : Nat)
    (hw : r.store.frames.size ≤ w.store.frames.size) : (r.update frame w).Kin i j := by
  rcases h with rfl | ⟨hi, hj, h⟩
  · exact .inl rfl
  · refine .inr ⟨Nat.lt_of_lt_of_le hi hw, Nat.lt_of_lt_of_le hj hw, ?_⟩
    rw [home_update hi, home_update hj, h]

end Kin

namespace State

/-- States in one realm that differ in the frames that call, and these are of one runtime. -/
structure Alike (s t : State) : Prop where
  control : s.control.Alike s.realm.Kin t.control
  tasks : List.Forall₂ (Task.Alike s.realm.Kin) s.tasks t.tasks
  realm_eq : t.realm = s.realm

variable {s t : State}

/-- The machine acts on behalf of frames of one runtime. -/
theorem Alike.actor? (h : Alike s t) : Option.Rel s.realm.Kin s.actor? t.actor? := by
  obtain ⟨c, tasks, realm⟩ := s
  obtain ⟨c', tasks', realm'⟩ := t
  obtain ⟨hc, ht, rfl⟩ := h
  cases hc with
  | eval frame form => exact .some (.inl rfl)
  | call h name procedure args => exact .some h
  | fetch h file use hu => exact .some h
  | result r =>
    cases ht with
    | nil => exact .none
    | cons hhead ht =>
      cases hhead with
      | same => exact .some (.inl rfl)
      | leave h => exact .some h

theorem Alike.view (h : Alike s t) (hk : s.realm.Kin i j) :
    SmallScheme.State.Alike s.realm.Kin (s.view i) (t.view j) := by
  refine ⟨h.control, h.tasks, ?_⟩
  rw [State.view, State.view, h.realm_eq, hk.world_eq]

theorem Alike.step (h : Alike s t) : Alike s.step t.step := by
  have ha := h.actor?
  unfold State.step
  generalize s.actor? = a at ha
  generalize t.actor? = b at ha
  cases ha with
  | none => exact h
  | @some i j hk =>
    -- both act in one world, and what is alike before the step is alike in the realm behind it
    have hn := (h.view hk).step (fun _ => .inl rfl) (s.realm.runtime i).files
    have hw := SmallScheme.State.size_le_step (s.realm.runtime i).files (s.view i)
    have hle : ∀ k l, s.realm.Kin k l → (s.realm.update i _).Kin k l :=
      fun _ _ hkl => hkl.update i hw
    have hfiles : (t.realm.runtime j).files = (s.realm.runtime i).files := by
      rw [h.realm_eq, hk.runtime_eq]
    dsimp only
    rw [hfiles, h.realm_eq]
    refine ⟨hn.control.mono hle, hn.tasks.imp fun _ _ ht => ht.mono hle, ?_⟩
    rw [hn.world_eq, hk.update_eq]

theorem run_succ (fuel : Nat) (s : State) : run (fuel + 1) s = run fuel s.step := by
  obtain ⟨control, tasks, realm⟩ := s
  cases control with
  | eval | call | fetch => rfl
  | result r =>
    cases tasks with
    | nil => cases fuel <;> rfl
    | cons => rfl

theorem Alike.run_eq (h : Alike s t) (fuel : Nat) : run fuel s = run fuel t := by
  induction fuel generalizing s t with
  | zero =>
    obtain ⟨c, tasks, realm⟩ := s
    obtain ⟨c', tasks', realm'⟩ := t
    obtain ⟨hc, ht, rfl⟩ := h
    cases hc with
    | eval | call | fetch => rfl
    | result r =>
      cases ht with
      | nil => rfl
      | cons => rfl
  | succ fuel ih => rw [run_succ, run_succ, ih h.step]

end State

section Single

variable {k : Nat} {realm : Realm} (hk : ∀ i, realm.home i = k)
include hk

theorem home_update_single (frame i : Nat) (w : World) : (realm.update frame w).home i = k := by
  simp only [Realm.update]
  split
  · exact hk i
  · cases w.store.parent? i with
    | none => exact hk i
    | some p => exact hk p

theorem runtime_single (i : Nat) : realm.runtime i = realm.runtimes k := by
  rw [runtime, hk]

theorem runtimes_update_single (frame : Nat) (w : World) :
    (realm.update frame w).runtimes k = (realm.runtimes k).update w := by
  simp only [Realm.update, runtime, hk, Function.update_self]

theorem world_update_single (frame i : Nat) (w : World) : (realm.update frame w).world i = w := by
  rw [world, runtime_single (home_update_single hk frame · w), runtimes_update_single hk]
  rfl

end Single

namespace State

variable {k : Nat} {s : State}

theorem step_of_actor? (ha : s.actor? = some i) : s.step =
    ⟨((s.view i).step (s.realm.runtime i).files).control,
      ((s.view i).step (s.realm.runtime i).files).tasks,
      s.realm.update i ((s.view i).step (s.realm.runtime i).files).world⟩ := by
  rw [step, ha]

/-- Where nobody acts, the machine has come to an end. -/
theorem step_of_actor?_none (ha : s.actor? = none) (files : Files) :
    s.step = s ∧ (s.view i).step files = s.view i := by
  refine ⟨by rw [step, ha], ?_⟩
  obtain ⟨c, tasks, realm⟩ := s
  cases c with
  | eval | call | fetch => cases ha
  | result r =>
    cases tasks with
    | nil => cases r <;> rfl
    | cons => cases ha

/-- With one runtime, the machine in the realm is the machine in the world of any of its frames. -/
theorem run_view (hk : ∀ i, s.realm.home i = k) (fuel frame : Nat) :
    (run fuel s).map (fun o => (o.1, o.2.world frame)) =
      (s.view frame).run (s.realm.runtimes k).files fuel := by
  induction fuel generalizing s with
  | zero =>
    obtain ⟨c, tasks, realm⟩ := s
    cases c with
    | eval | call | fetch => rfl
    | result r =>
      cases tasks with
      | nil => rfl
      | cons => rfl
  | succ fuel ih =>
    rw [run_succ, SmallScheme.State.run_succ]
    cases ha : s.actor? with
    | none =>
      obtain ⟨hs, hv⟩ := step_of_actor?_none ha (s.realm.runtimes k).files
      rw [hs, hv, ih hk]
    | some i =>
      have hv : s.view i = s.view frame := by
        rw [view, view, world, world, runtime_single hk, runtime_single hk]
      rw [step_of_actor? ha, runtime_single hk, hv]
      generalize (s.view frame).step (s.realm.runtimes k).files = next
      rw [ih (home_update_single hk i · next.world)]
      simp only [view, world_update_single hk, runtimes_update_single hk]
      rfl

end State

theorem apply_of_single {k : Nat} {realm : Realm} (hk : ∀ i, realm.home i = k)
    (fuel caller : Nat) (procedure : Value) (args : List Value) :
    (realm.apply fuel caller procedure args).map (fun o => (o.1, o.2.world caller)) =
      (realm.world caller).apply (realm.runtimes k).files fuel caller procedure args :=
  State.run_view hk fuel caller

end Realm

namespace World

/-- In one world it is nothing to a call from which frame it is made. -/
theorem apply_caller (files : Files) (fuel : Nat) (w : World) (i j : Nat) (procedure : Value)
    (args : List Value) :
    w.apply files fuel i procedure args = w.apply files fuel j procedure args := by
  have hs : State.Alike (fun _ _ => True) ⟨.call i [] procedure args, [], w⟩
      ⟨.call j [] procedure args, [], w⟩ :=
    ⟨.call trivial [] procedure args, .nil, rfl⟩
  exact hs.run_eq (fun _ => trivial) files fuel

/-- The form that applies a procedure to arguments, all of them quoted. -/
def application (procedure : Value) (args : List Value) : Value :=
  .list (procedure.quoted :: args.map Value.quoted)

theorem run_operands (files : Files) (fuel frame : Nat) (procedure : Value) (done args : List Value)
    (w : World) :
    State.run files (fuel + 2 * args.length)
        (State.apply frame [] procedure done (args.map Value.quoted) [] w) =
      State.run files fuel ⟨.call frame [] procedure (done.reverse ++ args), [], w⟩ := by
  induction args generalizing done with
  | nil => simp [State.apply]
  | cons v args ih =>
    have hf : fuel + 2 * (v :: args).length = fuel + 2 * args.length + 1 + 1 := by
      rw [List.length_cons]
      omega
    rw [hf, State.run_succ, State.run_succ]
    have hi := ih (v :: done)
    rw [List.reverse_cons, List.append_assoc] at hi
    exact hi

/-- An application of quoted values is a call of the procedure. -/
theorem eval_application (files : Files) (fuel : Nat) (w : World) (frame : Nat) (procedure : Value)
    (args : List Value) :
    w.eval files (fuel + 2 * args.length + 3) frame (application procedure args) =
      w.apply files fuel frame procedure args := by
  rw [eval, State.run_succ, State.run_succ, State.run_succ]
  exact run_operands files fuel frame procedure [] args w

end World

namespace Realm

/-- A call comes to the same end, by the same steps and with the same realm behind it, whichever
frame of a runtime it is made from. With one runtime only this is the call that the world makes.
There it is the same from any two frames, and so is the evaluation of an application of quoted
values. -/
theorem apply_eq_of_home {realm : Realm} {e₁ e₂ : Nat} (h₁ : realm.store.Allocated e₁)
    (h₂ : realm.store.Allocated e₂) (hh : realm.home e₁ = realm.home e₂) (fuel : Nat)
    (procedure : Value) (args : List Value) :
    realm.apply fuel e₁ procedure args = realm.apply fuel e₂ procedure args ∧
    ((∀ i, realm.home i = realm.home e₁) →
      (realm.apply fuel e₁ procedure args).map (fun o => (o.1, o.2.world e₁)) =
        (realm.world e₁).apply (realm.runtime e₁).files fuel e₁ procedure args) ∧
    ∀ (files : Files) (w : World),
      w.apply files fuel e₁ procedure args = w.apply files fuel e₂ procedure args ∧
      w.eval files (fuel + 2 * args.length + 3) e₁ (World.application procedure args) =
        w.eval files (fuel + 2 * args.length + 3) e₂ (World.application procedure args) ∧
      w.eval files (fuel + 2 * args.length + 3) e₁ (World.application procedure args) =
        w.apply files fuel e₁ procedure args := by
  refine ⟨?_, fun hk => apply_of_single hk fuel e₁ procedure args, fun files w => ?_⟩
  · have hs : State.Alike ⟨.call e₁ [] procedure args, [], realm⟩
        ⟨.call e₂ [] procedure args, [], realm⟩ :=
      ⟨.call (.inr ⟨h₁, h₂, hh⟩) [] procedure args, .nil, rfl⟩
    exact hs.run_eq fuel
  · have hcall := w.apply_caller files fuel e₁ e₂ procedure args
    refine ⟨hcall, ?_, w.eval_application files fuel e₁ procedure args⟩
    rw [World.eval_application, World.eval_application, hcall]

/-- Two frames of one runtime and a frame of another, where no more than one call is admitted. -/
def neighbours : Realm where
  store := ⟨#[.empty none, .empty (some 0), .empty none], 0⟩
  home i := if i = 2 then 1 else 0
  runtimes i := ⟨.empty i, none, none, SymbolTable.faithful?_none, fun _ => .ok []⟩

/-- A procedure of the other runtime is applied by `apply`, which is applied by `apply`. -/
theorem apply_eq_of_neighbours :
    ∃ realm, neighbours.apply 9 0 (.primitive 0 .apply) [.primitive 0 .apply, .list
        [.closure 1 ⟨[.ofString "x"], none⟩ (.atom (.ofString "x")) 2, .number 5]] =
          some (.ok (.number 5), realm) ∧
      neighbours.apply 9 1 (.primitive 0 .apply) [.primitive 0 .apply, .list
        [.closure 1 ⟨[.ofString "x"], none⟩ (.atom (.ofString "x")) 2, .number 5]] =
          some (.ok (.number 5), realm) := by
  have hv : (neighbours.apply 9 0 (.primitive 0 .apply) [.primitive 0 .apply, .list
      [.closure 1 ⟨[.ofString "x"], none⟩ (.atom (.ofString "x")) 2, .number 5]]).map Prod.fst =
        some (.ok (.number 5)) := by
    with_unfolding_all rfl
  obtain ⟨⟨r, realm⟩, he, rfl⟩ := Option.map_eq_some_iff.mp hv
  have ha (i : Nat) (hi : i < 3) : neighbours.store.Allocated i := hi
  refine ⟨realm, he, ?_⟩
  rw [← (apply_eq_of_home (ha 0 (by decide)) (ha 1 (by decide)) rfl 9 _ _).1]
  exact he

end Realm

end SmallScheme
