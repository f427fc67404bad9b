import SmallScheme.Text.Decimal

/-!
# Integers on the command line

An integer may have a sign and a base mark: `0x`, `0o`, `0b`, or a leading zero for octal. Between
its digits, and behind a base mark, single underscores may stand.
-/

namespace SmallScheme

set_option autoImplicit false

/-- Why a text is no integer. -/
inductive NumeralFault where
  | malformed
  | tooLarge
  deriving DecidableEq, Repr

namespace NumeralFault

/-- The wording of a fault. -/
def message : NumeralFault → Text
  | .malformed => .ofString "invalid syntax"
  | .tooLarge => .ofString "value out of range"

end NumeralFault

namespace Numeral

/-- The underscore. -/
def underscore : UInt8 := 95

/-- An ASCII letter in lower case. -/
def lower (b : UInt8) : UInt8 := if 65 ≤ b ∧ b ≤ 90 then b + 32 else b

/-- The value of a digit in bases up to thirty-six. -/
def digit? (b : UInt8) : Option Nat :=
  if 48 ≤ b ∧ b ≤ 57 then some (b.toNat - 48)
  else if 97 ≤ lower b ∧ lower b ≤ 122 then some ((lower b).toNat - 87)
  else none

/-- Continues a numeral, underscores skipped, whose value so far is `acc`. The first fault from the
left decides. -/
def digits (base acc : Nat) : Text → Except NumeralFault Nat
  | [] => .ok acc
  | b :: t =>
    if b = underscore then digits base acc t
    else
      match digit? b with
      | none => .error .malformed
      | some d =>
        if base ≤ d then .error .malformed
        else if 2 ^ 64 ≤ acc * base + d then .error .tooLarge
        else digits base (acc * base + d) t

/-- The base that the second byte of a numeral marks. -/
def markedBase? (b : UInt8) : Option Nat :=
  if lower b = 98 then some 2
  else if lower b = 111 then some 8
  else if lower b = 120 then some 16
  else none

/-- The base of an unsigned numeral and its digits. -/
def base (t : Text) : Nat × Text :=
  match t with
  | 48 :: b :: c :: more =>
    match markedBase? b with
    | some base => (base, c :: more)
    | none => (8, b :: c :: more)
  | 48 :: more => (8, more)
  | t => (10, t)

/-- What precedes a place in a numeral, as far as underscores are concerned. -/
inductive Before where
  | nothing | digit | underscore | other
  deriving DecidableEq, Repr

/-- Whether every underscore stands behind a digit or base mark and before a digit. -/
def underscoresFit (hex : Bool) : Before → Text → Bool
  | before, [] => before ≠ .underscore
  | before, b :: t =>
    if (48 ≤ b && b ≤ 57) || (hex && 97 ≤ lower b && lower b ≤ 102) then
      underscoresFit hex .digit t
    else if b = underscore then before = .digit && underscoresFit hex .underscore t
    else before ≠ .underscore && underscoresFit hex .other t

/-- Whether the underscores of an unsigned numeral stand where they may. -/
def wellSpaced (t : Text) : Bool :=
  match t with
  | 48 :: b :: more =>
    match markedBase? b with
    | some base => underscoresFit (base = 16) .digit more
    | none => underscoresFit false .nothing t
  | _ => underscoresFit false .nothing t

/-- The value of an unsigned numeral. -/
def nat (t : Text) : Except NumeralFault Nat := do
  if t.isEmpty then throw .malformed
  let n ← digits (base t).1 0 (base t).2
  if t.contains underscore && !wellSpaced t then throw .malformed
  return n

/-- The value of a numeral with an optional sign, in the signed 64-bit range. -/
def int64 (t : Text) : Except NumeralFault Int64 := do
  let (negative, digits) : Bool × Text :=
    match t with
    | 43 :: more => (false, more)
    | 45 :: more => (true, more)
    | t => (false, t)
  let n ← nat digits
  let z : Int := if negative then -(n : Int) else n
  match Decimal.word? z with
  | some w => return w
  | none => throw .tooLarge

end Numeral

end SmallScheme
