import SmallScheme.Source.Location
import SmallScheme.Text.Quoted

/-!
# Tokens

A token has a kind, the text that it was read from, the place where it starts, and a mark for
whether white space or a comment stands before it.
-/

namespace SmallScheme

set_option autoImplicit false

/-- The kinds of tokens. -/
inductive TokenKind where
  | invalid | error | eof | symbol | int | string | char | comment | quote | dot
  | openParen | closeParen
  deriving DecidableEq, Repr

namespace TokenKind

/-- The kinds in the order of their numbers. -/
def all : List TokenKind :=
  [.invalid, .error, .eof, .symbol, .int, .string, .char, .comment, .quote, .dot,
    .openParen, .closeParen]

/-- The kind with a given number; a number that no kind has counts as invalid. -/
def ofNumber (n : Nat) : TokenKind := all.getD n .invalid

/-- The name of a kind. -/
def name : TokenKind → String
  | .invalid => "invalid"
  | .error => "error"
  | .eof => "EOF"
  | .symbol => "symbol"
  | .int => "int"
  | .string => "string"
  | .char => "character"
  | .comment => ";"
  | .quote => "'"
  | .dot => "."
  | .openParen => "("
  | .closeParen => ")"

/-- Whether no source text follows a token of this kind. -/
def isFinal : TokenKind → Bool
  | .invalid | .error | .eof => true
  | _ => false

end TokenKind

/-- A token of the reader. -/
structure Token where
  kind : TokenKind
  text : Text
  source : Location
  /-- White space or a comment stands before the token. -/
  spaced : Bool
  deriving DecidableEq, Repr

namespace Token

/-- The written form of a token with a given kind and text. -/
def describe (kind : TokenKind) (text : Text) : Text :=
  if kind = .eof then .ofString "EOF"
  else .ofString kind.name ++ .ofString " " ++ Quoted.text text

/-- The written form of a token. -/
def render (t : Token) : Text := describe t.kind t.text

end Token

end SmallScheme
