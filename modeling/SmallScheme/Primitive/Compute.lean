import SmallScheme.Value.Coercion

/-!
# What the primitive procedures compute

The primitive procedures that neither call procedures nor fetch files are functions of their
arguments. Arithmetic wraps at 64 bits; division rounds toward zero, `mod` takes the sign of the
dividend, and `quotient` rounds down.
-/

namespace SmallScheme

set_option autoImplicit false

/-- The wrong number of arguments for a primitive procedure. -/
def arityError (expected : Nat) (args : List Value) : Error := .arity expected false args

namespace Arithmetic

/-- Division that rounds down. -/
def floorDiv (a b : Int64) : Int64 :=
  let q := a / b
  if a % b ≠ 0 ∧ decide (a < 0) ≠ decide (b < 0) then q - 1 else q

/-- One step of an arithmetic fold. -/
def step (op : Arithmetic) (a b : Int64) : Except Error Int64 :=
  match op with
  | .add => .ok (a + b)
  | .sub => .ok (a - b)
  | .mul => .ok (a * b)
  | .div => if b = 0 then .error (.divideByZero op.name) else .ok (a / b)
  | .mod => if b = 0 then .error (.divideByZero op.name) else .ok (a % b)
  | .quotient => if b = 0 then .error (.divideByZero op.name) else .ok (floorDiv a b)

/-- Folds an operation over arguments, from left to right. -/
def fold (op : Arithmetic) (acc : Int64) : List Value → Except Error Int64
  | [] => .ok acc
  | v :: vs => do
    let b ← v.toNumber
    op.fold (← op.step acc b) vs

end Arithmetic

namespace NumberRelation

/-- Whether a relation holds between two numbers. -/
def holds (rel : NumberRelation) (a b : Int64) : Bool :=
  match rel with
  | .eq => a = b
  | .lt => a < b
  | .gt => b < a
  | .ne => a ≠ b
  | .ge => b ≤ a
  | .le => a ≤ b

end NumberRelation

namespace Connective

/-- The value of a connective. -/
def holds (op : Connective) (a b : Bool) : Bool :=
  match op with
  | .and => a && b
  | .or => a || b

end Connective

namespace TextRelation

/-- Whether a relation holds between two texts, compared byte by byte. -/
def holds (rel : TextRelation) (a b : Text) : Bool :=
  match rel with
  | .eq => a = b
  | .lt => a < b
  | .gt => b < a
  | .le => a ≤ b
  | .ge => b ≤ a

end TextRelation

namespace Primitive

/-- A comparison of exactly two arguments behind a coercion. -/
def comparison {α : Type} (coerce : Value → Except Error α) (holds : α → α → Bool) :
    List Value → Except Error Value
  | [v, w] => do
    let a ← coerce v
    let b ← coerce w
    return .bool (holds a b)
  | args => .error (arityError 2 args)

/-- The first element of a pair. -/
def first : List Value → Except Error Value
  | [.list (v :: _)] => .ok v
  | [.dotted (v :: _) _] => .ok v
  | [v] => .error (.typeMismatch (.ofString "pair") v)
  | args => .error (arityError 1 args)

/-- What remains of a pair without its first element. -/
def remainder : List Value → Except Error Value
  | [.list (_ :: vs)] => .ok (.list vs)
  | [.dotted [_] last] => .ok last
  | [.dotted (_ :: v :: vs) last] => .ok (.dotted (v :: vs) last)
  | [v] => .error (.typeMismatch (.ofString "pair") v)
  | args => .error (arityError 1 args)

/-- The pair of two values. -/
def pair (head : Value) : Value → Value
  | .list vs => .list (head :: vs)
  | .dotted vs last => .dotted (head :: vs) last
  | tail => .dotted [head] tail

/-- A function of exactly two arguments. -/
def binary (f : Value → Value → Value) : List Value → Except Error Value
  | [v, w] => .ok (f v w)
  | args => .error (arityError 2 args)

/-- The result of an arithmetic operation on two or more arguments. -/
def arithmeticOf (op : Arithmetic) : List Value → Except Error Value
  | v :: w :: vs => do
    let a ← v.toNumber
    return .number (← op.fold a (w :: vs))
  | args => .error (arityError 2 args)

/-- What an application of a primitive procedure comes to. What remains to be done is done on behalf
of a frame. -/
inductive Effect where
  /-- A result. -/
  | result (r : Except Error Value)
  /-- A call of another procedure. -/
  | call (caller : Nat) (procedure : Value) (args : List Value)
  /-- The contents of a file are asked for. -/
  | contents (caller : Nat) (file : Text)
  /-- The expressions of a file are asked for. -/
  | expressions (caller : Nat) (file : Text)

/-- An effect that takes the name of a file as its only argument. -/
def onFile (effect : Text → Effect) : List Value → Effect
  | [.string file] => effect file
  | [v] => .result (.error (.typeMismatch (.ofString "string") v))
  | args => .result (.error (arityError 1 args))

/-- The application of a procedure to a list of arguments, or to the arguments that follow it. -/
def application (caller : Nat) : List Value → Effect
  | procedure :: .list args :: _ => .call caller procedure args
  | procedure :: v :: vs => .call caller procedure (v :: vs)
  | args => .result (.error (arityError 2 args))

/-- What a primitive procedure does with its arguments, called from a frame. -/
def effect (op : Primitive) (caller : Nat) (args : List Value) : Effect :=
  match op with
  | .arithmetic op => .result (arithmeticOf op args)
  | .compareNumbers rel => .result (comparison Value.toNumber rel.holds args)
  | .connective op => .result (comparison Value.toBool op.holds args)
  | .compareTexts rel => .result (comparison Value.toText rel.holds args)
  | .car => .result (first args)
  | .cdr => .result (remainder args)
  | .cons => .result (binary pair args)
  | .eq | .eqv => .result (binary (fun v w => .bool (v.eqv w)) args)
  | .equal => .result (binary (fun v w => .bool (v.equal w)) args)
  | .apply => application caller args
  | .readContents => onFile (.contents caller) args
  | .readAll => onFile (.expressions caller) args

end Primitive

end SmallScheme
