import SmallScheme.Source.Scanner
import SmallScheme.Token.Lexeme

/-!
# From a source to its tokens

A lexer hands out the tokens of a source one by one, skipping white space. What it hands out from
some point on never changes: the source is followed by one token, repeated for ever. So the tokens
of a source are a finite list and that last token.
-/

namespace SmallScheme

set_option autoImplicit false

/-- A lexer: a scanner between two tokens. -/
structure Lexer where
  scanner : Scanner
  /-- White space or a comment precedes the next token. -/
  spaced : Bool
  stopped : Option Stop
  deriving DecidableEq, Repr

namespace Lexer

/-- The lexer at the beginning of a source. -/
def ofSource (s : Source) : Lexer := ⟨.ofSource s, false, none⟩

/-- The token that reports a stop between tokens. -/
def stopToken (s : Scanner) (spaced : Bool) : Stop → Token
  | .atEnd => ⟨.eof, [], s.startLocation, spaced⟩
  | .fault message => ⟨.error, message, s.startLocation, spaced⟩

/-- The token that reports a stop inside a token. -/
def cutToken (s : Scanner) (spaced : Bool) : Stop → Token
  | .atEnd => ⟨.error, .ofString "unexpected EOF", s.startLocation, spaced⟩
  | .fault message => ⟨.error, message, s.startLocation, spaced⟩

/-- The message for a character that begins no token. -/
def unexpected (c : Char) : Text := .ofString "unexpected text starting with " ++ Quoted.char c

/-- The next token, from a scanner that stands at its first character. -/
def lexeme (s : Scanner) (spaced : Bool) : Token × Lexer :=
  match s.rest with
  | [] =>
    let stop := s.ending.stop
    (stopToken s spaced stop, ⟨s, false, some stop⟩)
  | c :: cs =>
    match Lexeme.ofHead c cs with
    | .token kind size =>
      let s := s.advanceBy size
      ({ s.token kind with spaced := spaced }, ⟨s.ignore, kind = .comment, none⟩)
    | .fault message size =>
      let s := s.advanceBy size
      (⟨.error, message, s.startLocation, spaced⟩, ⟨s.ignore, false, some (.fault message)⟩)
    | .invalid c =>
      let s := s.advance
      (⟨.invalid, unexpected c, s.startLocation, spaced⟩,
        ⟨s.ignore, false, some (.fault (unexpected c))⟩)
    | .cut =>
      let s := s.advanceBy s.rest.length
      let stop := s.ending.stop
      (cutToken s spaced stop, ⟨s.ignore, false, some stop⟩)

/-- The next token and the lexer behind it. -/
def next (lx : Lexer) : Token × Lexer :=
  match lx.stopped with
  | some stop => (stopToken lx.scanner lx.spaced stop, { lx with spaced := false })
  | none =>
    let blanks := (lx.scanner.rest.takeWhile isBlank).length
    lexeme (lx.scanner.advanceBy blanks).ignore (lx.spaced || blanks != 0)

@[simp] theorem isFinal_stopToken (s : Scanner) (spaced : Bool) (stop : Stop) :
    (stopToken s spaced stop).kind.isFinal = true := by cases stop <;> rfl

@[simp] theorem isFinal_cutToken (s : Scanner) (spaced : Bool) (stop : Stop) :
    (cutToken s spaced stop).kind.isFinal = true := by cases stop <;> rfl

theorem rest_lexeme_lt {s : Scanner} {spaced : Bool}
    (h : (lexeme s spaced).1.kind.isFinal = false) :
    (lexeme s spaced).2.scanner.rest.length < s.rest.length := by
  cases hr : s.rest with
  | nil => simp [lexeme, hr] at h
  | cons c cs =>
    cases hl : Lexeme.ofHead c cs with
    | token kind size =>
      have := Lexeme.size_pos hl
      simp only [lexeme, hr, hl, Scanner.rest_ignore, Scanner.rest_advanceBy, List.length_drop,
        List.length_cons]
      omega
    | fault message size => simp [lexeme, hr, hl, TokenKind.isFinal] at h
    | invalid c => simp [lexeme, hr, hl, TokenKind.isFinal] at h
    | cut => simp [lexeme, hr, hl] at h

/-- A token that is not final takes characters away from the source. -/
theorem rest_next_lt (lx : Lexer) (h : lx.next.1.kind.isFinal = false) :
    lx.next.2.scanner.rest.length < lx.scanner.rest.length := by
  unfold next at h ⊢
  split at h
  · simp at h
  · have hl := rest_lexeme_lt h
    simp only [Scanner.rest_ignore, Scanner.rest_advanceBy, List.length_drop] at hl ⊢
    omega

end Lexer

/-- The tokens of a source: finitely many, the last of them final, and the token that every
further request gives. -/
structure TokenStream where
  pending : List Token
  repeated : Token
  deriving DecidableEq, Repr

/-- The tokens up to the first final one, and `extra` more. -/
def TokenStream.first (ts : TokenStream) (extra : Nat) : List Token :=
  ts.pending ++ List.replicate extra ts.repeated

/-- All tokens that a lexer hands out. -/
def Lexer.tokens (lx : Lexer) : TokenStream :=
  match hn : lx.next with
  | (t, after) =>
    if hf : t.kind.isFinal = true then ⟨[t], after.next.1⟩
    else
      have : after.scanner.rest.length < lx.scanner.rest.length := by
        simpa [hn] using rest_next_lt lx (by simpa [hn] using hf)
      let more := after.tokens
      { more with pending := t :: more.pending }
termination_by lx.scanner.rest.length

/-- The tokens of a source. -/
def Source.tokens (s : Source) : TokenStream := (Lexer.ofSource s).tokens

end SmallScheme
