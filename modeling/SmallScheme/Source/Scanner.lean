import SmallScheme.Token.Basic

/-!
# Scanning source text

A source is what can be read of a text: the characters before its first stray byte, and the reason
why no character follows them. A scanner walks over the characters of a source and remembers the
characters since the last token, so that each token gets its text and its place.
-/

namespace SmallScheme

set_option autoImplicit false

/-- Why a source has no further character. -/
inductive Ending where
  | complete
  | stray (b : UInt8)
  | failed (message : Text)
  deriving DecidableEq, Repr

/-- Why nothing more is scanned. -/
inductive Stop where
  | atEnd
  | fault (message : Text)
  deriving DecidableEq, Repr

namespace Ending

/-- The stop that the ending of a source means. -/
def stop : Ending → Stop
  | .complete => .atEnd
  | .stray b =>
    .fault (.ofString "invalid utf-8 sequence in source text starting with byte " ++ Quoted.byte b)
  | .failed message => .fault message

/-- The character that is shown where a source ends. -/
def mark : Ending → Char
  | .stray _ => '\uFFFD'
  | .complete | .failed _ => '\x00'

end Ending

/-- The readable part of a source text. -/
structure Source where
  file : Text
  chars : List Char
  ending : Ending
  deriving DecidableEq, Repr

/-- The source with the given contents. A read error stands behind the contents. -/
def Source.ofText (file contents : Text) (readError : Option Text) : Source where
  file := file
  chars := contents.chars
  ending :=
    match contents.firstStray?, readError with
    | some b, _ => .stray b
    | none, some message => .failed message
    | none, none => .complete

/-- A scanner over a source. -/
structure Scanner where
  file : Text
  /-- Where the current token starts. -/
  start : Position
  /-- The characters of the current token, the latest first. -/
  taken : List Char
  /-- Where the next character stands. -/
  position : Position
  /-- The characters still to be scanned. -/
  rest : List Char
  ending : Ending
  /-- The character scanned last. -/
  latest : Option Char
  deriving DecidableEq, Repr

namespace Scanner

/-- The scanner at the beginning of a source. -/
def ofSource (s : Source) : Scanner where
  file := s.file
  start := .first
  taken := []
  position := .first
  rest := s.chars
  ending := s.ending
  latest := none

/-- The next character. -/
def peek? (s : Scanner) : Option Char := s.rest.head?

/-- Adds the next character to the current token; nothing changes at the end. -/
def advance (s : Scanner) : Scanner :=
  match s.rest with
  | [] => s
  | c :: rest =>
    { s with
      taken := c :: s.taken
      position := s.position.after c
      rest := rest
      latest := some c }

/-- Adds the next character to the current token, or says why there is none. -/
def scan (s : Scanner) : Except Stop Scanner :=
  match s.rest with
  | [] => .error s.ending.stop
  | _ :: _ => .ok s.advance

/-- Adds the next `n` characters to the current token. -/
def advanceBy : Nat → Scanner → Scanner
  | 0, s => s
  | n + 1, s => advanceBy n s.advance

/-- Drops the characters of the current token. -/
def ignore (s : Scanner) : Scanner := { s with start := s.position, taken := [] }

/-- The text of the current token. -/
def text (s : Scanner) : Text := Text.ofChars s.taken.reverse

/-- The place where the current token starts. -/
def startLocation (s : Scanner) : Location := .ofPosition s.file s.start

/-- The place of the next character. -/
def location (s : Scanner) : Location := .ofPosition s.file s.position

/-- A token of the given kind with the text of the current token. -/
def token (s : Scanner) (kind : TokenKind) : Token := ⟨kind, s.text, s.startLocation, false⟩

/-- Hands out the current token and begins the next. -/
def emit (s : Scanner) (kind : TokenKind) : Token × Scanner := (s.token kind, s.ignore)

@[simp] theorem rest_advance (s : Scanner) : s.advance.rest = s.rest.tail := by
  unfold advance
  split <;> simp_all

@[simp] theorem rest_advanceBy (n : Nat) (s : Scanner) :
    (advanceBy n s).rest = s.rest.drop n := by
  induction n generalizing s with
  | zero => rfl
  | succ n ih => simp [advanceBy, ih]

@[simp] theorem rest_ignore (s : Scanner) : s.ignore.rest = s.rest := rfl

end Scanner

end SmallScheme
