import SmallScheme.Text.Basic

/-!
# Names of the primitive procedures

The primitive procedures fall into families: arithmetic folds, comparisons of numbers, connectives,
comparisons of texts, operations on pairs, equality, application and file access. This module lists
and names them; what they compute is in `SmallScheme.Primitive.Compute`.
-/

namespace SmallScheme

set_option autoImplicit false

/-- Operations on numbers that are folded over two or more arguments. -/
inductive Arithmetic where
  | add | sub | mul | div | mod | quotient
  deriving DecidableEq, Repr

/-- Comparisons of two numbers. -/
inductive NumberRelation where
  | eq | lt | gt | ne | ge | le
  deriving DecidableEq, Repr

/-- Operations on two truth values. -/
inductive Connective where
  | and | or
  deriving DecidableEq, Repr

/-- Comparisons of two texts. -/
inductive TextRelation where
  | eq | lt | gt | le | ge
  deriving DecidableEq, Repr

/-- The primitive procedures. -/
inductive Primitive where
  | arithmetic (op : Arithmetic)
  | compareNumbers (rel : NumberRelation)
  | connective (op : Connective)
  | compareTexts (rel : TextRelation)
  | car | cdr | cons
  | eq | eqv | equal
  | apply
  | readContents | readAll
  deriving DecidableEq, Repr

/-- The name of an arithmetic operation. -/
def Arithmetic.name : Arithmetic → Text
  | .add => .ofString "+"
  | .sub => .ofString "-"
  | .mul => .ofString "*"
  | .div => .ofString "/"
  | .mod => .ofString "mod"
  | .quotient => .ofString "quotient"

/-- The name of a comparison of numbers. -/
def NumberRelation.name : NumberRelation → Text
  | .eq => .ofString "="
  | .lt => .ofString "<"
  | .gt => .ofString ">"
  | .ne => .ofString "/="
  | .ge => .ofString ">="
  | .le => .ofString "<="

/-- The name of a connective. -/
def Connective.name : Connective → Text
  | .and => .ofString "&&"
  | .or => .ofString "||"

/-- The name of a comparison of texts. -/
def TextRelation.name : TextRelation → Text
  | .eq => .ofString "string=?"
  | .lt => .ofString "string<?"
  | .gt => .ofString "string>?"
  | .le => .ofString "string<=?"
  | .ge => .ofString "string>=?"

namespace Primitive

/-- The name that a primitive procedure is bound to. -/
def name : Primitive → Text
  | .arithmetic op => op.name
  | .compareNumbers rel => rel.name
  | .connective op => op.name
  | .compareTexts rel => rel.name
  | .car => .ofString "car"
  | .cdr => .ofString "cdr"
  | .cons => .ofString "cons"
  | .eq => .ofString "eq?"
  | .eqv => .ofString "eqv?"
  | .equal => .ofString "equal?"
  | .apply => .ofString "apply"
  | .readContents => .ofString "read-contents"
  | .readAll => .ofString "read-all"

/-- Every primitive procedure, in the order in which they are bound. -/
def all : List Primitive :=
  [ .arithmetic .add, .arithmetic .sub, .arithmetic .mul, .arithmetic .div, .arithmetic .mod,
    .arithmetic .quotient,
    .compareNumbers .eq, .compareNumbers .lt, .compareNumbers .gt, .compareNumbers .ne,
    .compareNumbers .ge, .compareNumbers .le,
    .connective .and, .connective .or,
    .compareTexts .eq, .compareTexts .lt, .compareTexts .gt, .compareTexts .le, .compareTexts .ge,
    .car, .cdr, .cons, .eq, .eqv, .equal, .apply, .readContents, .readAll ]

/-- The primitive procedures with the given names, in the order of `all`; names that stand for none
of them stand for all. -/
def named (names : List Text) : List Primitive :=
  match all.filter fun p => names.contains p.name with
  | [] => all
  | found => found

/-- No primitive procedure is missing from the list. -/
theorem mem_all (p : Primitive) : p ∈ all := by
  cases p with
  | arithmetic op => cases op <;> decide
  | compareNumbers rel => cases rel <;> decide
  | connective op => cases op <;> decide
  | compareTexts rel => cases rel <;> decide
  | _ => decide

end Primitive

end SmallScheme
