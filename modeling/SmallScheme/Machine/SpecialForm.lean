import SmallScheme.Value.Basic

/-!
# Special forms

A list that begins with the name of a special form is not an application. Special forms are known
by name alone, so no binding can hide them. This module recognises the shapes of special forms; what
they do is in `SmallScheme.Machine.Step`.
-/

namespace SmallScheme

set_option autoImplicit false

/-- The special forms. -/
inductive SpecialForm where
  | quote | conditional | assignment | definition | lambda | load
  deriving DecidableEq, Repr

namespace SpecialForm

/-- The special forms in the order in which they are listed. -/
def all : List SpecialForm := [.quote, .conditional, .assignment, .definition, .lambda, .load]

/-- The name of a special form. -/
def name : SpecialForm → Text
  | .quote => .ofString "quote"
  | .conditional => .ofString "if"
  | .assignment => .ofString "set!"
  | .definition => .ofString "define"
  | .lambda => .ofString "lambda"
  | .load => .ofString "load"

/-- The special form with a given name. -/
def ofName? (name : Text) : Option SpecialForm := all.find? (·.name == name)

/-- The names of the special forms. -/
def names : List Text := all.map SpecialForm.name

end SpecialForm

/-- The name of an atom. -/
def Value.atomName? : Value → Option Text
  | .atom name => some name
  | _ => none

/-- The formals that a value spells: atoms in a list, perhaps with an atom as its tail, or one atom
that takes all arguments. -/
def Formals.ofValue? : Value → Option Formals
  | .atom rest => some (.ofNames [] rest)
  | .list items => (items.mapM Value.atomName?).map fun params => .ofNames params []
  | .dotted items (.atom rest) =>
    (items.mapM Value.atomName?).map fun params => .ofNames params rest
  | _ => none

/-- A form with its special form recognised and its shape checked. -/
inductive Directive where
  | quote (v : Value)
  | conditional (test whenTrue whenFalse : Value)
  | assignment (name : Text) (form : Value)
  | definition (name : Text) (form : Value)
  | procedure (name : Text) (formals : Formals) (body : Value)
  | lambda (formals : Formals) (body : Value)
  | load (file : Text)

namespace Directive

/-- The definition that the two arguments of a definition spell: of a variable, or of a procedure by
the shape of its calls. -/
def definition? : (head body : Value) → Option Directive
  | .atom name, body => some (.definition name body)
  | .list (.atom name :: items), body =>
    (items.mapM Value.atomName?).map fun params => .procedure name (.ofNames params []) body
  | .dotted (.atom name :: items) (.atom rest), body =>
    (items.mapM Value.atomName?).map fun params => .procedure name (.ofNames params rest) body
  | _, _ => none

/-- The directive that a special form makes of its arguments, if they have the right shape. -/
def ofArguments? : SpecialForm → List Value → Option Directive
  | .quote, [v] => some (.quote v)
  | .conditional, [test, whenTrue, whenFalse] => some (.conditional test whenTrue whenFalse)
  | .assignment, [.atom name, form] => some (.assignment name form)
  | .definition, [head, body] => definition? head body
  | .lambda, [formals, body] => (Formals.ofValue? formals).map (.lambda · body)
  | .load, [.string file] => some (.load file)
  | _, _ => none

end Directive

end SmallScheme
