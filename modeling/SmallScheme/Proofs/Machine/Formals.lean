import SmallScheme.Proofs.Machine.Invariant

/-!
# Formals

The formals of a procedure are spelled by an atom, a list or a dotted list (`Formals.SpelledBy`).
They are recognised in two places: in a lambda form, and behind the name in the head of a
definition. Both recognise the same formals, so a definition with such a head does what the
definition of the name by a lambda form does (`World.eval_short_definition`).
-/

namespace SmallScheme

set_option autoImplicit false

/-- The spellings of formals. -/
inductive Formals.SpelledBy : Value → Formals → Prop where
  /-- An atom takes all arguments. -/
  | rest (rest : Text) : SpelledBy (.atom rest) (.ofNames [] rest)
  /-- Atoms in a list take one argument each. -/
  | fixed (params : List Text) : SpelledBy (.list (params.map .atom)) ⟨params, none⟩
  /-- The tail of a dotted list takes the arguments that remain. -/
  | variadic (params : List Text) (rest : Text) :
    SpelledBy (.dotted (params.map .atom) (.atom rest)) (.ofNames params rest)

theorem Value.mapM_atomName?_eq_some_iff {items : List Value} {names : List Text} :
    items.mapM atomName? = some names ↔ items = names.map .atom := by
  induction items generalizing names with
  | nil => cases names <;> simp
  | cons v items ih =>
    cases v with
    | atom name =>
      cases names with
      | nil => simp [atomName?, Option.bind_eq_some_iff]
      | cons n names =>
        simp only [List.mapM_cons, atomName?, Option.pure_def, Option.bind_eq_bind,
          Option.bind_some, Option.bind_eq_some_iff, Option.some.injEq, List.cons.injEq,
          List.map_cons, Value.atom.injEq, ih]
        constructor
        · rintro ⟨_, rfl, rfl, rfl⟩
          exact ⟨rfl, rfl⟩
        · rintro ⟨rfl, rfl⟩
          exact ⟨names, rfl, rfl, rfl⟩
    | _ => cases names <;> simp [atomName?]

/-- A lambda form recognises the spellings of formals and nothing else. -/
theorem Formals.ofValue?_eq_some_iff {v : Value} {formals : Formals} :
    ofValue? v = some formals ↔ SpelledBy v formals := by
  constructor
  · intro h
    unfold ofValue? at h
    split at h
    · cases h
      exact .rest _
    · obtain ⟨params, hp, rfl⟩ := Option.map_eq_some_iff.mp h
      cases Value.mapM_atomName?_eq_some_iff.mp hp
      exact .fixed params
    · obtain ⟨params, hp, rfl⟩ := Option.map_eq_some_iff.mp h
      cases Value.mapM_atomName?_eq_some_iff.mp hp
      exact .variadic params _
    · cases h
  · rintro (rest | params | ⟨params, rest⟩)
    · rfl
    · rw [ofValue?, Value.mapM_atomName?_eq_some_iff.mpr rfl]
      rfl
    · rw [ofValue?, Value.mapM_atomName?_eq_some_iff.mpr rfl]
      rfl

/-- Behind a name, a definition recognises what a lambda form does. -/
theorem Directive.definition?_pair (name : Text) (v body : Value) :
    definition? (Primitive.pair (.atom name) v) body =
      (Formals.ofValue? v).map (.procedure name · body) := by
  cases v with
  | atom rest => rfl
  | list items => simp only [Primitive.pair, definition?, Formals.ofValue?, Option.map_map]; rfl
  | dotted items last =>
    cases last with
    | atom rest => simp only [Primitive.pair, definition?, Formals.ofValue?, Option.map_map]; rfl
    | _ => rfl
  | _ => rfl

namespace Value

/-- The form that defines a name as a procedure by the shape of its calls. -/
def procedureDefinition (name : Text) (v body : Value) : Value :=
  .list [.atom (.ofString "define"), Primitive.pair (.atom name) v, body]

/-- The form that makes a procedure without a name. -/
def lambda (v body : Value) : Value := .list [.atom (.ofString "lambda"), v, body]

/-- The form that defines a name by a form. -/
def definition (name : Text) (form : Value) : Value :=
  .list [.atom (.ofString "define"), .atom name, form]

end Value

namespace State

variable {files : Files} {w : World} {frame : Nat} {name : Text} {v body : Value}
  {tasks : List Task}

/-- A special form does what its arguments spell, or is not recognised. -/
theorem eval_special (special : SpecialForm) (args : List Value) :
    eval frame (.list (.atom special.name :: args)) tasks w =
      match Directive.ofArguments? special args with
      | some d => direct frame d tasks w
      | none => .fail (.unrecognized (.list (.atom special.name :: args))) tasks w := by
  have hs : specialForm? (.atom special.name) = some special := by cases special <;> decide
  cases hd : Directive.ofArguments? special args <;> simp only [eval, hs, hd]

theorem eval_lambda : eval frame (.lambda v body) tasks w =
    match Formals.ofValue? v with
    | some formals => direct frame (.lambda formals body) tasks w
    | none => .fail (.unrecognized (.lambda v body)) tasks w := by
  refine (eval_special .lambda [v, body]).trans ?_
  rw [Directive.ofArguments?]
  cases Formals.ofValue? v <;> rfl

theorem eval_procedureDefinition : eval frame (.procedureDefinition name v body) tasks w =
    match Formals.ofValue? v with
    | some formals => direct frame (.procedure name formals body) tasks w
    | none => .fail (.unrecognized (.procedureDefinition name v body)) tasks w := by
  refine (eval_special .definition [Primitive.pair (.atom name) v, body]).trans ?_
  rw [Directive.ofArguments?, Directive.definition?_pair]
  cases Formals.ofValue? v <;> rfl

theorem eval_definition {form : Value} : eval frame (.definition name form) tasks w =
    ⟨.eval frame form, .define frame name :: tasks, w⟩ :=
  eval_special .definition [.atom name, form]

end State

/-- The definition of a procedure by the shape of its calls is short for the definition of its name
by a lambda form. Where formals are spelled, both give the same closure and leave the same world,
in which the name is bound to it; where none are, both fail and leave the world as it is. -/
theorem World.eval_short_definition (files : Files) (fuel : Nat) (w : World) (frame : Nat)
    (name : Text) (v body : Value) :
    (∃ formals closure w', Formals.SpelledBy v formals ∧
      closure = .closure w.store.nextId formals body frame ∧
      w' = { w with store :=
        (w.store.makeClosure formals body frame).2.define frame name closure } ∧
      w.eval files (fuel + 3) frame (.procedureDefinition name v body) = some (.ok closure, w') ∧
      w.eval files (fuel + 3) frame (.definition name (.lambda v body)) = some (.ok closure, w')) ∨
    ((¬ ∃ formals, Formals.SpelledBy v formals) ∧
      w.eval files (fuel + 3) frame (.procedureDefinition name v body) =
        some (.error (.unrecognized (.procedureDefinition name v body)), w) ∧
      w.eval files (fuel + 3) frame (.definition name (.lambda v body)) =
        some (.error (.unrecognized (.lambda v body)), w)) := by
  have short : w.eval files (fuel + 3) frame (.procedureDefinition name v body) =
      State.run files (fuel + 2) (State.eval frame (.procedureDefinition name v body) [] w) := by
    rw [World.eval, State.run_succ, State.step]
  have long : w.eval files (fuel + 3) frame (.definition name (.lambda v body)) =
      State.run files (fuel + 1)
        (State.eval frame (.lambda v body) [.define frame name] w) := by
    rw [World.eval, State.run_succ, State.step, State.eval_definition, State.run_succ, State.step]
  rw [short, long, State.eval_procedureDefinition, State.eval_lambda]
  cases hv : Formals.ofValue? v with
  | some formals =>
    refine .inl ⟨formals, _, _, Formals.ofValue?_eq_some_iff.mp hv, rfl, rfl, ?_, ?_⟩
    · simp only [State.direct, State.give, State.run]
      rfl
    · simp only [State.direct, State.give, State.run_succ, State.step, State.resume, State.run]
      rfl
  | none =>
    refine .inr ⟨?_, ?_, ?_⟩
    · rintro ⟨formals, hf⟩
      rw [Formals.ofValue?_eq_some_iff.mpr hf] at hv
      cases hv
    · simp only [State.fail, State.run]
    · simp only [State.fail, State.run_succ, State.step, State.unwind, State.run]

end SmallScheme
