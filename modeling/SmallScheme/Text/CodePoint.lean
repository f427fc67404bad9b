import SmallScheme.Text.Basic

/-!
# Code points

A code point is a signed 32-bit number. The numbers of characters are among them; a number that no
character has is shown as the replacement character and still differs from it.
-/

namespace SmallScheme

set_option autoImplicit false

/-- A number that may be that of a character. -/
structure CodePoint where
  number : Int32
  deriving DecidableEq, Repr

namespace CodePoint

/-- The code point of a character. -/
def ofChar (c : Char) : CodePoint := ⟨Int32.ofNat c.toNat⟩

/-- The character with a given code point. -/
def char? (p : CodePoint) : Option Char :=
  let n := p.number.toInt
  if 0 ≤ n ∧ n.toNat.isValidChar then some (Char.ofNat n.toNat) else none

/-- The character that a code point is shown as. -/
def shown (p : CodePoint) : Char := p.char?.getD '\uFFFD'

theorem toInt_ofChar (c : Char) : (ofChar c).number.toInt = c.toNat := by
  have h : c.toNat < 0x110000 := by
    rcases c.valid with h | h
    · exact Nat.lt_trans h (by decide)
    · exact h.2
  exact Int32.toInt_ofNat_of_lt (by omega)

@[simp] theorem char?_ofChar (c : Char) : (ofChar c).char? = some c := by
  have hv : c.toNat.isValidChar := c.valid
  simp only [char?, toInt_ofChar, Int.toNat_natCast]
  rw [if_pos ⟨Int.natCast_nonneg _, hv⟩, Char.ofNat_toNat]

@[simp] theorem shown_ofChar (c : Char) : (ofChar c).shown = c := by simp [shown]

end CodePoint

end SmallScheme
