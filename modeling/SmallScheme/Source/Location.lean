import SmallScheme.Text.Decimal

/-!
# Places in source text

A position counts bytes from zero, and lines and columns from one; columns count characters. A
location is a position in a named source. Line and column are zero where they are not tracked.
-/

namespace SmallScheme

set_option autoImplicit false

/-- A position in a source text. -/
structure Position where
  offset : Nat
  line : Nat
  column : Nat
  deriving DecidableEq, Repr

namespace Position

/-- The position of the first character. -/
def first : Position := ⟨0, 1, 1⟩

/-- The position behind a character. -/
def after (p : Position) (c : Char) : Position :=
  let offset := p.offset + (Text.encode c).length
  if c = '\n' then ⟨offset, p.line + 1, 1⟩ else ⟨offset, p.line, p.column + 1⟩

/-- The position behind a sequence of characters. -/
def afterAll (p : Position) (cs : List Char) : Position := cs.foldl after p

end Position

/-- A place in a named source. -/
structure Location where
  file : Text
  offset : Int
  line : Int
  column : Int
  deriving DecidableEq, Repr

namespace Location

/-- A position of a source as a place in it. -/
def ofPosition (file : Text) (p : Position) : Location := ⟨file, p.offset, p.line, p.column⟩

/-- The written form of a place: line and column if they are tracked, else the offset. -/
def render (l : Location) : Text :=
  if l.line = 0 then
    l.file ++ .ofString "[" ++ Decimal.ofInt l.offset ++ .ofString "]"
  else if l.file.isEmpty then
    Decimal.ofInt l.line ++ .ofString ":" ++ Decimal.ofInt l.column
  else if l.column = 0 then
    l.file ++ .ofString ":" ++ Decimal.ofInt l.line
  else
    l.file ++ .ofString ":" ++ Decimal.ofInt l.line ++ .ofString ":" ++ Decimal.ofInt l.column

end Location

end SmallScheme
