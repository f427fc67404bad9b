import SmallScheme.Text.Decimal

/-!
# Misuse of operations

Some operations of this library ask more of their arguments than types say: a call to take from a
stack, a position inside a line. A mistake about that is a value, and evaluation never makes one.
-/

namespace SmallScheme

set_option autoImplicit false

/-- Mistakes in the use of this library's operations. -/
inductive Misuse where
  /-- The latest call is taken from a stack without calls. -/
  | emptyStack
  /-- A stack is used that is not there. -/
  | absentStack
  /-- A primitive procedure is added where its name is bound already. -/
  | alreadyBound (name : Text)
  /-- Of `length` things the one with number `index` is asked for. -/
  | outOfRange (index : Int) (length : Nat)
  /-- A line is cut at a position before its beginning. -/
  | negativeBound (bound : Int)
  deriving DecidableEq, Repr

/-- The wording of a mistake. -/
def Misuse.message : Misuse → Text
  | .emptyStack => .ofString "pop called on an empty stack"
  | .absentStack =>
    .ofString "runtime error: invalid memory address or nil pointer dereference"
  | .alreadyBound name => .ofString "symbol already defined: " ++ name
  | .outOfRange index length =>
    .ofString "runtime error: index out of range [" ++ Decimal.ofInt index
      ++ .ofString "] with length " ++ Decimal.ofNat length
  | .negativeBound bound =>
    .ofString "runtime error: slice bounds out of range [:" ++ Decimal.ofInt bound
      ++ .ofString "]"

end SmallScheme
