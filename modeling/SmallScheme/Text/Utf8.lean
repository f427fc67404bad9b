import SmallScheme.Text.Basic

/-!
# Reading a text as UTF-8

A text splits into pieces, left to right: a character where a well-formed UTF-8 sequence stands,
and a single stray byte where none does. Surrogates, overlong forms and values above U+10FFFF are
not well formed. The pieces of a text always put the text together again.
-/

namespace SmallScheme

set_option autoImplicit false

/-- One step of decoding: a character, or a byte that starts no character. -/
inductive Piece where
  | char (c : Char)
  | stray (b : UInt8)
  deriving DecidableEq, Repr

namespace Piece

/-- The bytes that a piece was read from. -/
def bytes : Piece → Text
  | .char c => Text.encode c
  | .stray b => [b]

/-- The character of a piece, none for a stray byte. -/
def char? : Piece → Option Char
  | .char c => some c
  | .stray _ => none

/-- The character that stands for a piece where only characters are shown: a stray byte is shown
as the replacement character. -/
def shown : Piece → Char
  | .char c => c
  | .stray _ => '\uFFFD'

end Piece

namespace Text

/-- The payload of a continuation byte. -/
def tail? (b : UInt8) : Option Nat :=
  if 0x80 ≤ b ∧ b < 0xC0 then some (b.toNat - 0x80) else none

/-- The character with number `n`, if there is one and `n` is at least `least`. -/
def charFrom? (least n : Nat) : Option Char :=
  if least ≤ n ∧ n.isValidChar then some (Char.ofNat n) else none

/-- The character that two bytes encode. -/
def decode₂? (a b : UInt8) : Option Char :=
  if 0xC0 ≤ a ∧ a < 0xE0 then do
    let x ← tail? b
    charFrom? 0x80 ((a.toNat - 0xC0) * 0x40 + x)
  else none

/-- The character that three bytes encode. -/
def decode₃? (a b c : UInt8) : Option Char :=
  if 0xE0 ≤ a ∧ a < 0xF0 then do
    let x ← tail? b
    let y ← tail? c
    charFrom? 0x800 ((a.toNat - 0xE0) * 0x1000 + x * 0x40 + y)
  else none

/-- The character that four bytes encode. -/
def decode₄? (a b c d : UInt8) : Option Char :=
  if 0xF0 ≤ a ∧ a < 0xF8 then do
    let x ← tail? b
    let y ← tail? c
    let z ← tail? d
    charFrom? 0x10000 ((a.toNat - 0xF0) * 0x40000 + x * 0x1000 + y * 0x40 + z)
  else none

/-- The pieces of a text, left to right. -/
def pieces : Text → List Piece
  | [] => []
  | a :: t =>
    if a < 0x80 then .char (Char.ofNat a.toNat) :: pieces t
    else
      match t with
      | [] => [.stray a]
      | b :: t₂ =>
        match decode₂? a b with
        | some c => .char c :: pieces t₂
        | none =>
          match t₂ with
          | [] => .stray a :: pieces [b]
          | c :: t₃ =>
            match decode₃? a b c with
            | some e => .char e :: pieces t₃
            | none =>
              match t₃ with
              | [] => .stray a :: pieces [b, c]
              | d :: t₄ =>
                match decode₄? a b c d with
                | some e => .char e :: pieces t₄
                | none => .stray a :: pieces (b :: c :: d :: t₄)

/-- The characters before the first stray byte. -/
def chars (t : Text) : List Char := (t.pieces.takeWhile (·.char?.isSome)).filterMap Piece.char?

/-- The first stray byte of a text. -/
def firstStray? (t : Text) : Option UInt8 :=
  t.pieces.findSome? fun
    | .char _ => none
    | .stray b => some b

/-- A text is well formed when no byte of it is stray. -/
def WellFormed (t : Text) : Prop := ∃ cs : List Char, t = ofChars cs

/-- The text as a string, if it is well formed. -/
def toString? (t : Text) : Option String :=
  (t.pieces.mapM Piece.char?).map String.ofList

/-- The characters of a text, with the replacement character for every stray byte. -/
def shown (t : Text) : List Char := t.pieces.map Piece.shown

end Text

end SmallScheme
