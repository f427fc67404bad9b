import SmallScheme.Text.Utf8
import SmallScheme.Text.Printable

/-!
# Quoted texts and characters

A quotation shows any text in printable characters. The enclosing mark and the backslash are
written after a backslash, the usual control characters by a letter, other characters that are not
printable by their number, and stray bytes in hexadecimal.
-/

namespace SmallScheme.Quoted

set_option autoImplicit false

/-- One hexadecimal digit in lower case. -/
def hexDigit (n : Nat) : Char :=
  if n % 16 < 10 then Char.ofNat (48 + n % 16) else Char.ofNat (87 + n % 16)

/-- The last `width` hexadecimal digits of a number. -/
def hex : (width : Nat) → Nat → List Char
  | 0, _ => []
  | w + 1, n => hex w (n / 16) ++ [hexDigit n]

/-- The letter that names a control character after a backslash. -/
def controlLetter? (c : Char) : Option Char :=
  match c.toNat with
  | 7 => some 'a'
  | 8 => some 'b'
  | 9 => some 't'
  | 10 => some 'n'
  | 11 => some 'v'
  | 12 => some 'f'
  | 13 => some 'r'
  | _ => none

/-- One character between quotation marks of the given kind. -/
def escape (mark c : Char) : List Char :=
  if c = mark ∨ c = '\\' then ['\\', c]
  else if isPrintable c then [c]
  else
    match controlLetter? c with
    | some l => ['\\', l]
    | none =>
      if c.toNat < 0x80 then '\\' :: 'x' :: hex 2 c.toNat
      else if c.toNat < 0x10000 then '\\' :: 'u' :: hex 4 c.toNat
      else '\\' :: 'U' :: hex 8 c.toNat

/-- One piece of a text between quotation marks of the given kind. -/
def escapePiece (mark : Char) : Piece → List Char
  | .char c => escape mark c
  | .stray b => '\\' :: 'x' :: hex 2 b.toNat

/-- A text between double quotation marks. -/
def text (t : Text) : Text :=
  Text.ofChars ('"' :: t.pieces.flatMap (escapePiece '"') ++ ['"'])

/-- A character between single quotation marks. -/
def char (c : Char) : Text :=
  Text.ofChars ('\'' :: escape '\'' c ++ ['\''])

/-- A byte between single quotation marks, shown as the character with that number. -/
def byte (b : UInt8) : Text := char (Char.ofNat b.toNat)

end SmallScheme.Quoted
