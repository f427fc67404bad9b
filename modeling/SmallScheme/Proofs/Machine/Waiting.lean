import SmallScheme.Proofs.Machine.Invariant
import SmallScheme.Proofs.Reader.Interning

/-!
# Waiting tasks

The machine looks at the latest task only, at no trace, and at the symbol table of the reader only
to see whether there is one, since it is faithful. So it makes the same steps with other tasks below
its own, up to the result that it hands to them (`State.yields_of_run`). Forms that are evaluated one
after another are therefore evaluated alike as a program that is loaded and waits while each of them
runs (`World.exists_load_of_evalEach`).
-/

namespace SmallScheme

set_option autoImplicit false

/-- Worlds with the same store and the same calls, both with a reader or both without. -/
structure World.Same (w w' : World) : Prop where
  store_eq : w'.store = w.store
  stack_eq : w'.stack = w.stack
  reader_eq : w'.reader.isSome = w.reader.isSome

namespace World.Same

variable {w w' : World}

theorem withStore (h : w.Same w') (store : Store) :
    World.Same { w with store := store } { w' with store := store } :=
  ⟨rfl, h.stack_eq, h.reader_eq⟩

theorem withTrace (h : w.Same w') (trace trace' : Option CallStack) :
    World.Same { w with trace := trace } { w' with trace := trace' } :=
  ⟨h.store_eq, h.stack_eq, h.reader_eq⟩

theorem pushCall (h : w.Same w') (name : Text) (procedure : Value) :
    (w.pushCall name procedure).Same (w'.pushCall name procedure) :=
  ⟨h.store_eq, congrArg (·.add name procedure) h.stack_eq, h.reader_eq⟩

theorem popCall (h : w.Same w') : w.popCall.Same w'.popCall :=
  ⟨h.store_eq, congrArg CallStack.pop h.stack_eq, h.reader_eq⟩

theorem forget (h : w.Same w') : w.forget.Same w'.forget := by
  obtain ⟨trace, hw⟩ := w.exists_forget_eq
  obtain ⟨trace', hw'⟩ := w'.exists_forget_eq
  rw [hw, hw']
  exact h.withTrace trace trace'

theorem note (h : w.Same w') : w.note.Same w'.note := by
  obtain ⟨trace, hw⟩ := w.exists_note_eq
  obtain ⟨trace', hw'⟩ := w'.exists_note_eq
  rw [hw, hw']
  exact h.withTrace trace trace'

/-- The two tables may differ, but they are faithful, so what is read depends on neither. -/
theorem read (h : w.Same w') (name contents : Text) :
    (w'.read name contents).1 = (w.read name contents).1 ∧
      (w.read name contents).2.Same (w'.read name contents).2 := by
  refine ⟨Reader.fst_readNamed w'.faithful w.faithful name contents, h.store_eq, h.stack_eq, ?_⟩
  have hs := Reader.isSome_readNamed w.reader name contents
  have hs' := Reader.isSome_readNamed w'.reader name contents
  exact hs'.trans (h.reader_eq.trans hs.symm)

end World.Same

namespace World

variable {files : Files} {fuel frame : Nat} {forms values : List Value} {w w₁ : World}

theorem exists_of_evalEach_cons {form : Value}
    (h : evalEach files fuel frame w (form :: forms) = some ⟨values, none, w₁⟩) :
    ∃ v rest w₂, World.eval files fuel { w with trace := none } frame form = some (.ok v, w₂) ∧
      evalEach files fuel frame w₂ forms = some ⟨rest, none, w₁⟩ ∧ values = v :: rest := by
  rw [evalEach] at h
  obtain ⟨⟨r, w₂⟩, he, h⟩ := Option.bind_eq_some_iff.mp h
  cases r with
  | error e => cases h
  | ok v =>
    obtain ⟨batch, hb, h⟩ := Option.bind_eq_some_iff.mp h
    obtain ⟨rest, failure, w₃⟩ := batch
    cases h
    exact ⟨v, rest, w₂, he, hb, rfl⟩

theorem evalEach_append {forms' values' : List Value} {w₂ : World}
    (h : evalEach files fuel frame w forms = some ⟨values, none, w₁⟩)
    (h' : evalEach files fuel frame w₁ forms' = some ⟨values', none, w₂⟩) :
    evalEach files fuel frame w (forms ++ forms') = some ⟨values ++ values', none, w₂⟩ := by
  induction forms generalizing w values with
  | nil =>
    cases h
    exact h'
  | cons form forms ih =>
    obtain ⟨v, rest, w₃, he, hr, rfl⟩ := exists_of_evalEach_cons h
    rw [List.cons_append, evalEach, he]
    simp only [Option.bind_eq_bind, Option.bind_some, ih hr]
    rfl

theorem length_of_evalEach (h : evalEach files fuel frame w forms = some ⟨values, none, w₁⟩) :
    values.length = forms.length := by
  induction forms generalizing w values with
  | nil =>
    cases h
    rfl
  | cons form forms ih =>
    obtain ⟨v, rest, w₂, -, hr, rfl⟩ := exists_of_evalEach_cons h
    rw [List.length_cons, List.length_cons, ih hr]

end World

namespace State

/-- A state with other tasks below its own, in a world that is the same. -/
structure Lifted (below : List Task) (s s' : State) : Prop where
  control_eq : s'.control = s.control
  tasks_eq : s'.tasks = s.tasks ++ below
  world : s.world.Same s'.world

section Functions

variable {files : Files} {below tasks : List Task} {w w' : World} {caller frame : Nat} {name : Text}
  {procedure v : Value} {args : List Value} (h : w.Same w')
include h

theorem lifted_direct (d : Directive) :
    Lifted below (direct frame d tasks w) (direct frame d (tasks ++ below) w') := by
  cases d with
  | quote | conditional | assignment | definition | load => exact ⟨rfl, rfl, h⟩
  | procedure name formals body =>
    simp only [direct, h.store_eq]
    exact ⟨rfl, rfl, h.withStore _⟩
  | lambda formals body =>
    simp only [direct, h.store_eq]
    exact ⟨rfl, rfl, h.withStore _⟩

theorem lifted_eval (form : Value) :
    Lifted below (eval frame form tasks w) (eval frame form (tasks ++ below) w') := by
  cases form with
  | atom name =>
    simp only [eval, h.store_eq]
    exact ⟨rfl, rfl, h⟩
  | list items =>
    cases items with
    | nil => exact ⟨rfl, rfl, h⟩
    | cons head rest =>
      rw [eval, eval]
      cases specialForm? head with
      | none => exact ⟨rfl, rfl, h⟩
      | some special =>
        dsimp only
        cases Directive.ofArguments? special rest with
        | none => exact ⟨rfl, rfl, h⟩
        | some d => exact lifted_direct h d
  | _ => exact ⟨rfl, rfl, h⟩

theorem lifted_enter :
    Lifted below (enter caller procedure args tasks w)
      (enter caller procedure args (tasks ++ below) w') := by
  cases procedure with
  | primitive id op =>
    rw [enter, enter]
    cases op.effect caller args with
    | result | call | contents | expressions => exact ⟨rfl, rfl, h⟩
  | closure id formals body captured =>
    rw [enter, enter, h.store_eq]
    cases arityFault? formals args with
    | some e => exact ⟨rfl, rfl, h⟩
    | none => exact ⟨rfl, rfl, h.withStore _⟩
  | _ => exact ⟨rfl, rfl, h⟩

theorem lifted_call :
    Lifted below (call caller name procedure args tasks w)
      (call caller name procedure args (tasks ++ below) w') := by
  unfold call
  rw [h.stack_eq]
  split
  · split
    · exact ⟨rfl, rfl, h.store_eq, rfl, h.reader_eq⟩
    · exact lifted_enter (h.forget.pushCall name procedure)
  · exact ⟨rfl, rfl, h⟩

theorem lifted_sequence (forms : List Value) :
    Lifted below (sequence frame forms tasks w) (sequence frame forms (tasks ++ below) w') := by
  cases forms with
  | nil => exact ⟨rfl, rfl, h⟩
  | cons => exact ⟨rfl, rfl, h⟩

theorem lifted_withExpressions (file contents : Text)
    {next : List Value → List Task → World → State}
    (hn : ∀ {w w' : World} (forms : List Value), w.Same w' →
      Lifted below (next forms tasks w) (next forms (tasks ++ below) w')) :
    Lifted below (withExpressions file contents next tasks w)
      (withExpressions file contents next (tasks ++ below) w') := by
  obtain ⟨hr, hw⟩ := h.read file contents
  simp only [withExpressions, hr]
  cases (w.read file contents).1 with
  | ok forms => exact hn forms hw
  | error e => exact ⟨rfl, rfl, hw⟩

theorem lifted_fetch (file : Text) (use : FileUse) :
    Lifted below (fetch files caller file use tasks w)
      (fetch files caller file use (tasks ++ below) w') := by
  have hr := h.reader_eq
  have given (table table' : SymbolTable) (ht : w.reader = some table)
      (ht' : w'.reader = some table') :
      Lifted below (fetch files caller file use tasks w)
        (fetch files caller file use (tasks ++ below) w') := by
    simp only [fetch, ht, ht']
    cases files file with
    | error fault => exact ⟨rfl, rfl, h⟩
    | ok contents =>
      cases use with
      | contents => exact ⟨rfl, rfl, h⟩
      | expressions => exact lifted_withExpressions h file contents fun _ hw => ⟨rfl, rfl, hw⟩
      | load =>
        exact lifted_withExpressions h file contents fun forms hw => lifted_sequence hw forms
  cases ht : w.reader with
  | some table =>
    rw [ht, Option.isSome_some] at hr
    obtain ⟨table', ht'⟩ := Option.isSome_iff_exists.mp hr
    exact given table table' ht ht'
  | none =>
    rw [ht, Option.isSome_none, Option.isSome_eq_false_iff, Option.isNone_iff_eq_none] at hr
    simp only [fetch, ht, hr]
    cases use with
    | contents =>
      cases files file with
      | error fault => exact ⟨rfl, rfl, h⟩
      | ok contents => exact ⟨rfl, rfl, h⟩
    | expressions => exact ⟨rfl, rfl, h⟩
    | load => exact ⟨rfl, rfl, h⟩

theorem lifted_leave (r : Except Error Value) :
    Lifted below (leave r tasks w) (leave r (tasks ++ below) w') := by
  cases r with
  | ok v => exact ⟨rfl, rfl, h.popCall⟩
  | error e => exact ⟨rfl, rfl, h.note.popCall⟩

theorem lifted_apply (done todo : List Value) :
    Lifted below (apply frame name procedure done todo tasks w)
      (apply frame name procedure done todo (tasks ++ below) w') := by
  cases todo with
  | nil => exact ⟨rfl, rfl, h⟩
  | cons => exact ⟨rfl, rfl, h⟩

theorem lifted_resume (task : Task) :
    Lifted below (resume v task tasks w) (resume v task (tasks ++ below) w') := by
  cases task with
  | branch => exact ⟨rfl, rfl, h⟩
  | assign frame name =>
    rw [resume, resume, h.store_eq]
    cases w.store.owner? frame name with
    | some i => exact ⟨rfl, rfl, h.withStore _⟩
    | none => exact ⟨rfl, rfl, h⟩
  | define frame name =>
    simp only [resume, h.store_eq]
    exact ⟨rfl, rfl, h.withStore _⟩
  | operator => exact lifted_apply h _ _
  | operands => exact lifted_apply h _ _
  | leave => exact lifted_leave h (.ok v)
  | sequence frame todo =>
    cases todo with
    | nil => exact ⟨rfl, rfl, h⟩
    | cons => exact ⟨rfl, rfl, h⟩

theorem lifted_unwind (e : Error) (task : Task) :
    Lifted below (unwind e task tasks w) (unwind e task (tasks ++ below) w') := by
  cases task with
  | leave => exact lifted_leave h (.error e)
  | _ => exact ⟨rfl, rfl, h⟩

end Functions

variable {files : Files} {below : List Task} {s s' t : State}

/-- A step that hands no result to the tasks below does not see them. -/
theorem Lifted.step (h : Lifted below s s') (hs : ∀ r w, s ≠ ⟨.result r, [], w⟩) :
    Lifted below (s.step files) (s'.step files) := by
  obtain ⟨control, tasks, w⟩ := s
  obtain ⟨control', tasks', w'⟩ := s'
  obtain ⟨hc, ht, hw⟩ := h
  dsimp only at hc ht hw
  subst hc ht
  cases control' with
  | eval frame form => exact lifted_eval hw form
  | call => exact lifted_call hw
  | fetch caller file use => exact lifted_fetch hw file use
  | result r =>
    cases tasks with
    | nil => exact absurd rfl (hs r w)
    | cons task tasks =>
      cases r with
      | ok v => exact lifted_resume hw task
      | error e => exact lifted_unwind hw e task

/-- The value that a state hands to a program for which nothing else waits. -/
def handed : State → List Value
  | ⟨.result (.ok v), [.sequence _ _], _⟩ => [v]
  | _ => []

/-- The machine comes from one state to another, and these values are handed to the program on the
way. -/
inductive Yields (files : Files) : State → List Value → State → Prop where
  | refl (s : State) : Yields files s [] s
  | step {s t : State} {vs : List Value} : Yields files (s.step files) vs t →
      Yields files s (s.handed ++ vs) t

namespace Yields

variable {u : State} {vs ws : List Value}

theorem trans (hst : Yields files s vs t) (htu : Yields files t ws u) :
    Yields files s (vs ++ ws) u := by
  induction hst with
  | refl => exact htu
  | step _ ih =>
    rw [List.append_assoc]
    exact .step (ih htu)

theorem leads (h : Yields files s vs t) : Leads files s t := by
  induction h with
  | refl => exact .refl _
  | step _ ih => exact .step ih

end Yields

theorem Lifted.handed_eq_nil {task : Task} (h : Lifted [task] s s')
    (hs : ∀ r w, s ≠ ⟨.result r, [], w⟩) : s'.handed = [] := by
  obtain ⟨control, tasks, w⟩ := s
  obtain ⟨control', tasks', w'⟩ := s'
  obtain ⟨hc, ht, -⟩ := h
  dsimp only at hc ht
  subst hc ht
  cases control' with
  | eval | call | fetch => rfl
  | result r =>
    match tasks with
    | [] => exact absurd rfl (hs r w)
    | [upper] => cases r <;> cases upper <;> rfl
    | upper :: next :: tasks => cases r <;> cases upper <;> rfl

/-- A run with a task below it comes to its result and hands nothing over before. -/
theorem yields_of_run {task : Task} {fuel : Nat} {r : Except Error Value} {w : World}
    (h : Lifted [task] s s') (hr : run files fuel s = some (r, w)) :
    ∃ w', w.Same w' ∧ Yields files s' [] ⟨.result r, [task], w'⟩ := by
  fun_induction run files fuel s generalizing s' with
  | case1 fuel r' w₀ =>
    obtain ⟨rfl, rfl⟩ := Prod.mk.inj (Option.some.inj hr)
    obtain ⟨control', tasks', w'⟩ := s'
    obtain ⟨hc, ht, hw⟩ := h
    dsimp only at hc ht hw
    subst hc ht
    exact ⟨w', hw, .refl _⟩
  | case2 => cases hr
  | case3 fuel s hs ih =>
    have hs : ∀ r w, s ≠ ⟨.result r, [], w⟩ := fun r w hn => hs r w hn
    obtain ⟨w', hw, hy⟩ := ih (h.step hs) hr
    have hy := Yields.step hy
    rw [h.handed_eq_nil hs] at hy
    exact ⟨w', hw, hy⟩

/-- Forms that succeed one after another succeed as a program, which is handed their values. -/
theorem yields_sequence {fuel frame : Nat} {forms values : List Value} {w w' w₁ : World}
    (h : World.evalEach files fuel frame w forms = some ⟨values, none, w₁⟩) (hw : w.Same w') :
    ∃ w₁', w₁.Same w₁' ∧ Yields files (sequence frame forms [] w') values
      ⟨.result (.ok (values.getLast?.getD (.list []))), [], w₁'⟩ := by
  induction forms generalizing w w' values with
  | nil =>
    cases h
    exact ⟨w', hw, .refl _⟩
  | cons form forms ih =>
    obtain ⟨v, rest, w₂, he, hr, rfl⟩ := World.exists_of_evalEach_cons h
    -- The first form runs by itself, and in the program with the other forms waiting below it.
    have hl : Lifted [.sequence frame forms] ⟨.eval frame form, [], { w with trace := none }⟩
        ⟨.eval frame form, [.sequence frame forms], w'⟩ :=
      ⟨rfl, rfl, hw.withTrace none w'.trace⟩
    obtain ⟨w₂', hw₂, hy⟩ := yields_of_run hl he
    cases forms with
    | nil =>
      cases hr
      have hv := hy.trans (.step (.refl _))
      exact ⟨w₂', hw₂, hv⟩
    | cons next forms =>
      obtain ⟨w₁', hw₁, hrest⟩ := ih hr hw₂
      obtain ⟨u, rest, rfl⟩ : ∃ u us, rest = u :: us := by
        apply List.exists_cons_of_length_pos
        rw [World.length_of_evalEach hr]
        exact Nat.succ_pos _
      rw [List.getLast?_cons_cons]
      exact ⟨w₁', hw₁, hy.trans (.step hrest)⟩

end State

/-- A program whose forms succeed one after another can be loaded. The load is handed their values
and leaves the same store and calls. -/
theorem World.exists_load_of_evalEach {files : Files} {fuel frame : Nat} {name contents : Text}
    {forms values : List Value} {w w₁ : World} (hr : w.reader.isSome = true)
    (hf : (Reader.readNamed w.reader name contents).1 = .ok forms)
    (h : World.evalEach files fuel frame w forms = some ⟨values, none, w₁⟩) :
    ∃ fuel' w', w₁.Same w' ∧
      State.Yields files (State.withExpressions name contents (State.sequence frame) [] w) values
        ⟨.result (.ok (values.getLast?.getD (.list []))), [], w'⟩ ∧
      w.load files fuel' frame name contents =
        some (.ok (values.getLast?.getD (.list [])), w') := by
  have hf : (w.read name contents).1 = .ok forms := hf
  have hs : w.Same (w.read name contents).2 :=
    ⟨rfl, rfl, Reader.isSome_readNamed w.reader name contents⟩
  obtain ⟨w', hw, hy⟩ := State.yields_sequence h hs
  have hn : State.withExpressions name contents (State.sequence frame) [] w =
      State.sequence frame forms [] (w.read name contents).2 := by
    simp only [State.withExpressions, hf]
  rw [← hn] at hy
  obtain ⟨fuel', hl⟩ := hy.leads.exists_run
  obtain ⟨table, ht⟩ := Option.isSome_iff_exists.mp hr
  refine ⟨fuel', w', hw, hy, ?_⟩
  simp only [load, ht]
  exact hl

end SmallScheme
