import SmallScheme.Environment.Store
import SmallScheme.Machine.SpecialForm
import SmallScheme.Text.Utf8

/-!
# Completion of names

The word before the cursor is completed to the names of special forms and of visible variables. The
candidates are listed in the order of their bytes; a name that is both is listed twice.
-/

namespace SmallScheme.Completion

set_option autoImplicit false

/-- The characters that end a word. -/
def isDelimiter (c : Char) : Bool := [' ', '\t', '\n', '(', ')', '\'', '"'].contains c

/-- The word that a line ends with. -/
def word (line : List Char) : List Char := (line.reverse.takeWhile (!isDelimiter ·)).reverse

/-- The names that a word can be completed to, in the order of their bytes. -/
def candidates (store : Store) (frame : Nat) : List Text :=
  (SpecialForm.names ++ store.visibleNames frame).mergeSort fun a b => decide (a ≤ b)

/-- What a name adds to a word that it properly extends. -/
def suffix? (word name : Text) : Option (List Char) :=
  if word.isPrefixOf name ∧ name ≠ word then some (Text.shown (name.drop word.length)) else none

/-- The completions of the word that a line ends with, and the number of its characters. -/
def atEnd (store : Store) (frame : Nat) (line : List Char) : List (List Char) × Nat :=
  let word := word line
  if word.isEmpty then ([], 0)
  else ((candidates store frame).filterMap (suffix? (Text.ofChars word)), word.length)

/-- The completions of the word before a position, which has to lie in the line. -/
def complete (store : Store) (frame : Nat) (line : List Char) (pos : Int) :
    Except Misuse (List (List Char) × Nat) :=
  if pos < 0 then .error (.negativeBound pos)
  else if line.length < pos then .error (.outOfRange (pos - 1) line.length)
  else .ok (atEnd store frame (line.take pos.toNat))

/-- What two sequences of characters begin with alike. -/
def shared : List Char → List Char → List Char
  | a :: as, b :: bs => if a = b then a :: shared as bs else []
  | _, _ => []

/-- What all sequences of characters begin with alike. -/
def sharedByAll : List (List Char) → List Char
  | [] => []
  | cs :: rest => rest.foldl shared cs

/-- What the completions of a line have in common. -/
def extension (store : Store) (frame : Nat) (line : List Char) : List Char :=
  sharedByAll (atEnd store frame line).1

end SmallScheme.Completion
