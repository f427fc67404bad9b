import SmallScheme.Text.Blank
import SmallScheme.Text.Letter
import SmallScheme.Token.Basic

/-!
# The lexical grammar

`Lexeme.ofHead` looks at characters that do not start with a blank and finds the token that they
begin with: a delimiter, a comment, a dot, a character literal, a string, a number or a symbol. It
knows nothing of places and of what precedes the characters.
-/

namespace SmallScheme

set_option autoImplicit false

/-- The punctuation that may stand anywhere in a symbol. -/
def symbolMarks : List Char := "!#$%&|*+-/:<=>?@^_~".toList

/-- Whether a symbol may begin with a character. -/
def startsSymbol (c : Char) : Bool := isLetter c || symbolMarks.contains c

/-- Whether a symbol may go on with a character. -/
def continuesSymbol (c : Char) : Bool := isLetter c || isDigit c || symbolMarks.contains c

/-- What a sequence of characters begins with. -/
inductive Lexeme where
  /-- A token of the given kind that takes up the first `size` characters. -/
  | token (kind : TokenKind) (size : Nat)
  /-- A fault that shows in the first `size` characters. -/
  | fault (message : Text) (size : Nat)
  /-- A character that begins no token. -/
  | invalid (c : Char)
  /-- A token that the end of the characters cuts short. -/
  | cut
  deriving DecidableEq, Repr

namespace Lexeme

/-- The number of characters up to the mark that closes a string, the mark included. A backslash
takes the character behind it with it. -/
def closingMark : List Char → Option Nat
  | [] => none
  | [c] => if c = '"' then some 1 else none
  | c :: d :: cs =>
    if c = '"' then some 1
    else if c = '\\' then (closingMark cs).map (· + 2)
    else (closingMark (d :: cs)).map (· + 1)

/-- The names of characters that take more than one letter. -/
def characterNames : List (List Char) := ["space".toList, "newline".toList]

/-- A character literal, given the characters behind its `#\`. -/
def character : List Char → Lexeme
  | [] => .cut
  | c :: cs =>
    if isLetter c then
      let name := c :: cs.takeWhile isLetter
      if name.length = 1 ∨ name ∈ characterNames then .token .char (name.length + 2)
      else .fault (.ofString "invalid character name: #\\" ++ Text.ofChars name) (name.length + 2)
    else if isDigit c || c = ' ' then .token .char 3
    else .fault (.ofString "invalid character literal: #\\" ++ Text.encode c) 3

/-- What a non-empty sequence of characters begins with, given its first character apart. -/
def ofHead (c : Char) (cs : List Char) : Lexeme :=
  if c = '(' then .token .openParen 1
  else if c = ')' then .token .closeParen 1
  else if c = '\'' then .token .quote 1
  else if c = ';' then .token .comment (1 + (cs.takeWhile (· ≠ '\n')).length)
  else if c = '.' then
    if cs.head?.any isBlank then .token .dot 1
    else .fault (.ofString "dot must be followed by whitespace") 1
  else if c = '"' then
    match closingMark cs with
    | some n => .token .string (1 + n)
    | none => .cut
  else if c = '#' ∧ cs.head? = some '\\' then character cs.tail
  else if isDigit c then .token .int (1 + (cs.takeWhile isDigit).length)
  else if startsSymbol c then .token .symbol (1 + (cs.takeWhile continuesSymbol).length)
  else .invalid c

/-- A token takes up at least one character. -/
theorem size_pos {c : Char} {cs : List Char} {kind : TokenKind} {size : Nat}
    (h : ofHead c cs = .token kind size) : 0 < size := by
  unfold ofHead character at h
  grind

end Lexeme

end SmallScheme
