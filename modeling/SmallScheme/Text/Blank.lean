import SmallScheme.Text.Utf8

/-!
# Blank characters

The white space of the reader: the ASCII blanks from tab to carriage return, the space, next line,
no-break space, and the separators of Unicode. A stray byte is never blank.
-/

namespace SmallScheme

set_option autoImplicit false

/-- The blank characters outside ASCII. -/
def wideBlanks : List Char :=
  ['\u0085', '\u00A0', '\u1680', '\u2000', '\u2001', '\u2002', '\u2003', '\u2004', '\u2005',
    '\u2006', '\u2007', '\u2008', '\u2009', '\u200A', '\u2028', '\u2029', '\u202F', '\u205F',
    '\u3000']

/-- White space between tokens. -/
def isBlank (c : Char) : Bool :=
  if c.toNat < 0x80 then c == ' ' || ('\t' ≤ c && c ≤ '\r') else wideBlanks.contains c

namespace Piece

/-- Whether a piece is a blank character. -/
def isBlank : Piece → Bool
  | .char c => SmallScheme.isBlank c
  | .stray _ => false

/-- Drops the blanks at both ends. -/
def trim (ps : List Piece) : List Piece :=
  ((ps.dropWhile isBlank).reverse.dropWhile isBlank).reverse

end Piece

namespace Text

/-- A text without the blanks at its ends. -/
def trim (t : Text) : Text := (Piece.trim t.pieces).flatMap Piece.bytes

end Text

end SmallScheme
