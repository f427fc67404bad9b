import SmallScheme.Value.Equality
import SmallScheme.Value.Printer

/-!
# Errors

Everything that stops reading, evaluation or loading, as causes; `Error.message` gives the wording.
The field texts are kept as bytes, since they may quote any source text.
-/

namespace SmallScheme

set_option autoImplicit false

/-- Why a source file could not be fetched, and whether the reason is that it does not exist. -/
structure FileFault where
  message : Text
  absent : Bool
  deriving DecidableEq, Repr

/-- The causes of failure. -/
inductive Error where
  /-- Source text that does not match the grammar, with the place where that shows. -/
  | parse (source message : Text)
  /-- A procedure applied to the wrong number of arguments. -/
  | arity (expected : Int) (atLeast : Bool) (found : List Value)
  /-- A primitive procedure applied to a value of the wrong variant. -/
  | typeMismatch (expected : Text) (found : Value)
  /-- A variable that no frame in scope binds, and what was attempted with it. -/
  | unbound (attempt name : Text)
  /-- A form that cannot be evaluated. -/
  | badForm (message : Text) (form : Value)
  /-- A value in operator position that is no procedure. -/
  | notApplicable (value : Value)
  /-- Division by zero in the named operation. -/
  | divideByZero (operation : Text)
  /-- Procedure calls nested deeper than the limit. -/
  | stackOverflow (height : Int)
  /-- A source file that could not be fetched. -/
  | unavailable (name : Text) (fault : FileFault)
  /-- A load attempted where no reader is configured. -/
  | noReader (name : Text)
  /-- A command-line file that could not be fetched. -/
  | file (fault : FileFault)
  deriving DecidableEq

instance decidableEqExcept {ε α : Type} [DecidableEq ε] [DecidableEq α] :
    DecidableEq (Except ε α)
  | .error e, .error e' => decidable_of_iff (e = e') (by rw [Except.error.injEq])
  | .ok a, .ok a' => decidable_of_iff (a = a') (by rw [Except.ok.injEq])
  | .error _, .ok _ => isFalse (by simp)
  | .ok _, .error _ => isFalse (by simp)

namespace Error

/-- The attempt to use the value of an unbound variable. -/
def getting : Text := .ofString "Getting an unbound variable"

/-- The attempt to assign to an unbound variable. -/
def setting : Text := .ofString "Setting an unbound variable"

/-- A form that has the wrong shape, or that is no application at all. -/
def unrecognized (form : Value) : Error := .badForm (.ofString "Unrecognized special form") form

/-- The wording of an error. -/
def message : Error → Text
  | .parse source msg =>
    if source.isEmpty then .ofString "Parse error: " ++ msg
    else .ofString "Parse error at " ++ source ++ .ofString ": " ++ msg
  | .arity expected atLeast found =>
    .ofString (if atLeast then "Expected at least " else "Expected ") ++ Decimal.ofInt expected
      ++ .ofString " args; found values " ++ Value.renderAll found
  | .typeMismatch expected found =>
    .ofString "Invalid type: expected " ++ expected ++ .ofString ", found " ++ found.render
  | .unbound attempt name => attempt ++ .ofString ": " ++ name
  | .badForm msg form => msg ++ .ofString ": " ++ form.render
  | .notApplicable v => .ofString "Not a procedure: " ++ v.render
  | .divideByZero op => .ofString "Division by zero: " ++ op
  | .stackOverflow h => .ofString "Maximum stack height exceeded: " ++ Decimal.ofInt h
  | .unavailable name fault => .ofString "load " ++ name ++ .ofString ": " ++ fault.message
  | .noReader name => .ofString "load " ++ name ++ .ofString ": no reader configured"
  | .file fault => fault.message

end Error

end SmallScheme
