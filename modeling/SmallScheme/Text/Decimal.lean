import SmallScheme.Text.Basic

/-!
# Integers in decimal

Writing integers in decimal, and reading signed 64-bit integers: an optional sign, then one or more
ASCII digits, with a value that fits the word.
-/

namespace SmallScheme.Decimal

set_option autoImplicit false

/-- The byte of a digit. -/
def digit (n : Nat) : UInt8 := (48 + n % 10).toUInt8

/-- The decimal digits of a natural number, without leading zeros. -/
def ofNat (n : Nat) : Text :=
  if n < 10 then [digit n] else ofNat (n / 10) ++ [digit n]
termination_by n

/-- An integer in decimal, with a minus sign when it is negative. -/
def ofInt : Int → Text
  | .ofNat n => ofNat n
  | .negSucc n => 45 :: ofNat (n + 1)

/-- The value of a digit byte. -/
def digit? (b : UInt8) : Option Nat :=
  if 48 ≤ b ∧ b ≤ 57 then some (b.toNat - 48) else none

/-- Continues a decimal numeral whose value so far is `acc`. -/
def digitsFrom? (acc : Nat) : Text → Option Nat
  | [] => some acc
  | b :: t => (digit? b).bind fun d => digitsFrom? (acc * 10 + d) t

/-- The value of a non-empty sequence of digits. -/
def digits? : Text → Option Nat
  | [] => none
  | b :: t => digitsFrom? 0 (b :: t)

/-- The value of digits behind an optional sign. -/
def int? : Text → Option Int
  | [] => none
  | b :: t =>
    if b = 43 then (digits? t).map Int.ofNat
    else if b = 45 then (digits? t).map fun n => -Int.ofNat n
    else (digits? (b :: t)).map Int.ofNat

/-- The word with a given value, if the value is in the signed 64-bit range. -/
def word? (z : Int) : Option Int64 :=
  if -0x8000000000000000 ≤ z ∧ z < 0x8000000000000000 then some (Int64.ofInt z) else none

/-- Reads a signed 64-bit integer. -/
def int64? (t : Text) : Option Int64 := (int? t).bind word?

end SmallScheme.Decimal
