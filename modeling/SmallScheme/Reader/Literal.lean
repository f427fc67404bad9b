import SmallScheme.Reader.Fault
import SmallScheme.Reader.SymbolTable
import SmallScheme.Text.Utf8

/-!
# Values of literal tokens

The value that a single token of kind number, string, character or symbol stands for. In a string,
a backslash before `n`, `r`, a backslash or a quotation mark makes one byte with it; any other
backslash is kept.
-/

namespace SmallScheme

set_option autoImplicit false

/-- The byte that a backslash and another byte make together. -/
def escaped? (b : UInt8) : Option UInt8 :=
  if b = 110 then some 10
  else if b = 114 then some 13
  else if b = 92 then some 92
  else if b = 34 then some 34
  else none

/-- Resolves the escapes of a string's inner text in one pass from the left. -/
def unescape : Text → Text
  | [] => []
  | [b] => [b]
  | b :: d :: t =>
    if b = 92 then
      match escaped? d with
      | some e => e :: unescape t
      | none => b :: d :: unescape t
    else b :: unescape (d :: t)

/-- The text between the two quotation marks of a string token. -/
def innerText (t : Text) : Text := (t.drop 1).dropLast

/-- The character that a character literal names. -/
def literalChar? (t : Text) : Option Char :=
  let name : Text := t.drop 2
  if name = .ofString "space" then some ' '
  else if name = .ofString "newline" then some '\n'
  else
    match name.pieces with
    | [p] => some p.shown
    | _ => none

/-- The value of a symbol: a truth value or an atom whose name is interned. -/
def symbolValue (table : Option SymbolTable) (t : Text) : Value × Option SymbolTable :=
  if t = .ofString "#t" then (.bool true, table)
  else if t = .ofString "#f" then (.bool false, table)
  else
    let (name, table) := SymbolTable.intern? table t
    (.atom name, table)

/-- The value of a number. -/
def intValue (t : Text) : Except Complaint Value :=
  match Decimal.int64? t with
  | some n => .ok (.number n)
  | none => .error (.overflow t)

/-- The value of a character literal. -/
def charValue (t : Text) : Except Complaint Value :=
  match literalChar? t with
  | some c => .ok (.char (.ofChar c))
  | none => .error (.characterName t)

end SmallScheme
