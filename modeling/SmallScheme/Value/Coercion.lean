import SmallScheme.Error
import SmallScheme.Value.Equality

/-!
# Coercions of values

Numbers are also read from strings and from the first element of a list, texts from numbers and
truth values. Two values are `Value.equal` when they are the same or when one coercion takes both
to the same number, truth value or text.
-/

namespace SmallScheme.Value

set_option autoImplicit false

/-- The number that a value stands for. -/
def toNumber : Value → Except Error Int64
  | .number n => .ok n
  | .string t =>
    match Decimal.int64? t with
    | some n => .ok n
    | none => .error (.typeMismatch (.ofString "number") (.string t))
  | .list (v :: _) => v.toNumber
  | v => .error (.typeMismatch (.ofString "number") v)

/-- The text that a value stands for. -/
def toText : Value → Except Error Text
  | .string t => .ok t
  | .number n => .ok (render (.number n))
  | .bool b => .ok (render (.bool b))
  | v => .error (.typeMismatch (.ofString "string") v)

/-- The truth value that a value stands for. -/
def toBool : Value → Except Error Bool
  | .bool b => .ok b
  | v => .error (.typeMismatch (.ofString "boolean") v)

/-- Whether a coercion takes two values to the same result. -/
def agree {α : Type} [DecidableEq α] (coerce : Value → Except Error α) (v w : Value) : Bool :=
  match coerce v, coerce w with
  | .ok a, .ok b => a = b
  | _, _ => false

/-- Whether two values are the same or coerce to the same number, truth value or text. -/
def equal (v w : Value) : Bool :=
  agree toNumber v w || agree toBool v w || agree toText v w || eqv v w

end SmallScheme.Value
