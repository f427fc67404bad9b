import SmallScheme.Error
import SmallScheme.Token.Basic

/-!
# What the reader objects to

A fault has a cause and, once a token has been read, the place of the last token read.
-/

namespace SmallScheme

set_option autoImplicit false

/-- The causes for which the reader gives up. -/
inductive Complaint where
  /-- The lexer's own message. -/
  | lexical (message : Text)
  | unexpectedEnd
  | unexpected (kind : TokenKind)
  /-- An open list at the end of the input. -/
  | unmatched
  /-- Two expressions, or an expression and a dot, with nothing between them. -/
  | missingSpace (kind : TokenKind)
  | spaceAfterQuote
  /-- A dotted list that goes on after its tail. -/
  | afterTail
  | overflow (digits : Text)
  | characterName (literal : Text)
  /-- A construct asked for by kind where another token stands. -/
  | wrongStart (construct : TokenKind) (found : TokenKind)
  deriving DecidableEq, Repr

namespace Complaint

/-- How a construct is called that begins with a token of the given kind. -/
def constructName : TokenKind → String
  | .int => "integer literal"
  | .string => "string literal"
  | .char => "character literal"
  | .quote => "quote"
  | .symbol => "symbol"
  | .openParen => "list"
  | kind => kind.name

/-- The wording of a complaint. -/
def message : Complaint → Text
  | .lexical message => message
  | .unexpectedEnd => .ofString "unexpected end of input"
  | .unexpected kind => .ofString "unexpected " ++ .ofString kind.name
  | .unmatched => .ofString "unmatched ("
  | .missingSpace kind => .ofString "expected whitespace before " ++ .ofString kind.name
  | .spaceAfterQuote => .ofString "unexpected whitespace after '"
  | .afterTail => .ofString "expected ) after dotted list tail"
  | .overflow digits => .ofString "integer literal overflows int: " ++ digits
  | .characterName literal => .ofString "invalid character name: " ++ literal
  | .wrongStart construct found =>
    .ofString "invalid " ++ .ofString (constructName construct) ++ .ofString ": "
      ++ .ofString found.name

end Complaint

/-- A complaint and the place that it is about. -/
structure Fault where
  complaint : Complaint
  source : Option Location
  deriving DecidableEq, Repr

namespace Fault

/-- A complaint about a token. -/
def about (t : Token) (c : Complaint) : Fault := ⟨c, some t.source⟩

/-- A fault as an error of the interpreter. -/
def toError (f : Fault) : Error :=
  .parse ((f.source.map Location.render).getD []) f.complaint.message

end Fault

end SmallScheme
