import SmallScheme.Text.Blank
import SmallScheme.Token.Lexeme

/-!
# Input that awaits more

An interactive reader has to know whether a text could still become a program when more lines
follow. `Text.awaitsMore` decides it by the parentheses and strings of the text alone: the text
splits into terminals, and either a string or a list is still open. A text that does not split into
terminals awaits nothing, so that the reader can report what is wrong with it.

The splitting is left to general combinators for tokens, of which this is assumed:

* blanks are skipped before each token, and these are space, tab, carriage return and line feed
  (`Terminal.isGap`);
* the patterns for tokens are alternatives in order: the first that matches is taken, whatever the
  later ones match, and a closed string stands before an open one, a character before an atom;
* a pattern has to match at the cursor, and it takes its longest match from there;
* the repetition of tokens stops at the first place where no pattern matches, without an error and
  with the cursor at that place, so that a text is split if and only if the cursor comes to its end.
-/

namespace SmallScheme

set_option autoImplicit false

/-- The pieces of text that matter for what is still open. -/
inductive Terminal where
  | openString
  | openParen
  | closeParen
  /-- Comments, closed strings, characters, numbers, atoms, quotation marks and dots. -/
  | other
  deriving DecidableEq, Repr

namespace Terminal

/-- The blanks that are skipped before a terminal. -/
def isGap : Piece → Bool
  | .char c => c = ' ' || c = '\t' || c = '\r' || c = '\n'
  | .stray _ => false

/-- Whether a piece is a character with a given property. -/
def charIs (p : Char → Bool) : Piece → Bool
  | .char c => p c
  | .stray _ => false

/-- What follows the mark that closes a string; a backslash takes the piece behind it with it. -/
def afterString? : List Piece → Option (List Piece)
  | [] => none
  | [p] => if p = .char '"' then some [] else none
  | p :: q :: ps =>
    if p = .char '"' then some (q :: ps)
    else if p = .char '\\' then afterString? ps
    else afterString? (q :: ps)

/-- What follows a character literal, given what stands behind its `#\`. -/
def afterCharacter? : List Piece → Option (List Piece)
  | [] => none
  | p :: ps =>
    if charIs isLetter p then some (ps.dropWhile (charIs isLetter))
    else if charIs (fun c => isDigit c || c = ' ') p then some ps
    else none

/-- The terminal that begins with a character, and the pieces behind it: that of the first pattern
that matches. -/
def ofHead? (c : Char) (ps : List Piece) : Option (Terminal × List Piece) :=
  if c = ';' then some (.other, ps.dropWhile (· ≠ .char '\n'))
  else if c = '"' then
    match afterString? ps with
    | some rest => some (.other, rest)
    | none => some (.openString, [])
  else if c = '(' then some (.openParen, ps)
  else if c = ')' then some (.closeParen, ps)
  else if c = '\'' || c = '.' then some (.other, ps)
  else if isDigit c then some (.other, ps.dropWhile (charIs isDigit))
  else if startsSymbol c then
    let symbol := some (.other, ps.dropWhile (charIs continuesSymbol))
    if c = '#' ∧ ps.head? = some (.char '\\') then
      match afterCharacter? ps.tail with
      | some rest => some (.other, rest)
      | none => symbol
    else symbol
  else none

theorem length_dropWhile_le (p : Piece → Bool) (ps : List Piece) :
    (ps.dropWhile p).length ≤ ps.length := (List.dropWhile_suffix p).length_le

theorem length_afterString? {ps rest : List Piece} (h : afterString? ps = some rest) :
    rest.length < ps.length := by
  fun_induction afterString? ps with grind

theorem length_afterCharacter? {ps rest : List Piece} (h : afterCharacter? ps = some rest) :
    rest.length < ps.length := by
  cases ps with
  | nil => simp [afterCharacter?] at h
  | cons p ps => grind [afterCharacter?, length_dropWhile_le]

theorem length_ofHead? {c : Char} {ps rest : List Piece} {t : Terminal}
    (h : ofHead? c ps = some (t, rest)) : rest.length ≤ ps.length := by
  unfold ofHead? at h
  grind [→ length_afterString?, → length_afterCharacter?, length_dropWhile_le]

/-- The terminals of a text, if it consists of nothing else. As assumed of the combinators, blanks
are skipped, the first pattern in order that matches at the cursor is taken (`ofHead?`), and the
first place where none matches stops the splitting before the end of the text. -/
def all? (ps : List Piece) : Option (List Terminal) :=
  match hd : ps.dropWhile isGap with
  | [] => some []
  | .stray _ :: _ => none
  | .char c :: after =>
    match ho : ofHead? c after with
    | none => none
    | some (t, rest) =>
      have : rest.length < ps.length := by
        have hr := length_ofHead? ho
        have hp := length_dropWhile_le isGap ps
        rw [hd, List.length_cons] at hp
        omega
      (all? rest).map (t :: ·)
termination_by ps.length

/-- Whether terminals leave something open, with `depth` lists open before them. -/
def leavesOpen : (depth : Nat) → List Terminal → Bool
  | depth, [] => depth ≠ 0
  | _, .openString :: _ => true
  | depth, .openParen :: ts => leavesOpen (depth + 1) ts
  | 0, .closeParen :: _ => false
  | depth + 1, .closeParen :: ts => leavesOpen depth ts
  | depth, .other :: ts => leavesOpen depth ts

end Terminal

/-- Whether a text needs further lines: it has an open list or an open string, and nothing in it
rules out that it becomes a program. -/
def Text.awaitsMore (t : Text) : Bool :=
  match Terminal.all? (Piece.trim t.pieces) with
  | some ts => Terminal.leavesOpen 0 ts
  | none => false

end SmallScheme
