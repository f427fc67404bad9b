import SmallScheme.Misuse
import SmallScheme.Primitive.Basic
import SmallScheme.Text.CodePoint

/-!
# Values

One type serves for programs and for data. Procedures carry an identity, given when they are made,
so that two procedures that look alike are still told apart. A closure refers to the frame that it
captured by that frame's number.
-/

namespace SmallScheme

set_option autoImplicit false

/-- The parameters of a closure: the fixed ones, and the one that takes the remaining arguments. -/
structure Formals where
  params : List Text
  rest : Option Text
  deriving DecidableEq, Repr

/-- Formals with a rest parameter unless its name is empty. -/
def Formals.ofNames (params : List Text) (rest : Text) : Formals :=
  ⟨params, if rest.isEmpty then none else some rest⟩

/-- A value of the language. -/
inductive Value where
  | atom (name : Text)
  | number (n : Int64)
  | string (text : Text)
  | char (p : CodePoint)
  | bool (b : Bool)
  | list (items : List Value)
  | dotted (items : List Value) (last : Value)
  | closure (id : Nat) (formals : Formals) (body : Value) (frame : Nat)
  | primitive (id : Nat) (op : Primitive)

namespace Value

instance : Inhabited Value := ⟨.list []⟩

/-- The variants of values. -/
inductive Kind where
  | atom | number | string | character | boolean | list | dottedList | closure | primitive
  deriving DecidableEq, Repr

/-- The variant of a value. -/
def kind : Value → Kind
  | .atom _ => .atom
  | .number _ => .number
  | .string _ => .string
  | .char _ => .character
  | .bool _ => .boolean
  | .list _ => .list
  | .dotted _ _ => .dottedList
  | .closure .. => .closure
  | .primitive .. => .primitive

namespace Kind

/-- The kinds in the order of their numbers, which start at one. -/
def all : List Kind :=
  [.atom, .number, .string, .character, .boolean, .list, .dottedList, .closure, .primitive]

/-- The kind with a given number. -/
def ofNumber? : Nat → Option Kind
  | 0 => none
  | n + 1 => all[n]?

/-- The name of a kind. -/
def name : Kind → String
  | .atom => "atom"
  | .number => "number"
  | .string => "string"
  | .character => "character"
  | .boolean => "boolean"
  | .list => "list"
  | .dottedList => "dotted-list"
  | .closure => "closure"
  | .primitive => "primitive"

/-- The name of the kind with a given number. A number that no kind has is named too, as long as
it is a signed 64-bit word. -/
def nameOfNumber (n : Nat) : Except Misuse String :=
  if n < 0x8000000000000000 then .ok (((ofNumber? n).map name).getD "INVALID")
  else .error (.outOfRange n (all.length + 1))

end Kind

/-- The list that quotes a value. -/
def quoted (v : Value) : Value := .list [.atom (.ofString "quote"), v]

/-- Whether a value is the empty list. -/
def isNil : Value → Bool
  | .list [] => true
  | _ => false

/-- Whether a value is false; every other value counts as true. -/
def isFalse : Value → Bool
  | .bool false => true
  | _ => false

/-- Whether a value can be applied to arguments. -/
def isProcedure : Value → Bool
  | .closure .. => true
  | .primitive .. => true
  | _ => false

/-- The number of elements of a list, or of elements before the last of a dotted list. -/
def size : Value → Nat
  | .list items => items.length
  | .dotted items _ => items.length
  | _ => 0

end Value

end SmallScheme
