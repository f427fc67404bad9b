import Mathlib.Data.Rat.Floor
import SmallScheme.Primitive.Compute

/-!
# Division of 64-bit numbers

Quotients and remainders of words are those of the integers that the words stand for, with one
exception: the least word divided by minus one has a quotient that no word stands for
(`Arithmetic.Overflows`). Rounding down lowers the truncated quotient by one where a remainder is
left and the signs differ. Such a quotient is above the least word, since the divisor is neither one
nor minus one.
-/

namespace SmallScheme

set_option autoImplicit false

/-- Rounding a quotient of integers down. -/
theorem floor_div_eq_fdiv (a b : ℤ) : ⌊(a : ℚ) / b⌋ = a.fdiv b := by
  have nonneg (a b : ℤ) (hb : 0 ≤ b) : ⌊(a : ℚ) / b⌋ = a.fdiv b := by
    obtain ⟨n, rfl⟩ := Int.eq_ofNat_of_zero_le hb
    rw [Int.fdiv_eq_ediv_of_nonneg a hb]
    exact Rat.floor_intCast_div_natCast a n
  by_cases hb : 0 ≤ b
  · exact nonneg a b hb
  · have h := nonneg (-a) (-b) (by omega)
    rwa [Int.neg_fdiv_neg, Int.cast_neg, Int.cast_neg, neg_div_neg_eq] at h

/-- Where a remainder is left, the quotient is at most half of the dividend. -/
theorem two_mul_natAbs_tdiv_le {a b : ℤ} (hr : a.tmod b ≠ 0) (hb : b ≠ 0) :
    2 * (a.tdiv b).natAbs ≤ a.natAbs := by
  have hr' : a.natAbs % b.natAbs ≠ 0 := by rwa [← Int.natAbs_tmod, Int.natAbs_ne_zero]
  -- By one or minus one nothing is left, and division by zero is excluded.
  have htwo : 2 ≤ b.natAbs := by
    by_contra h
    have hone : b.natAbs = 1 := by omega
    rw [hone, Nat.mod_one] at hr'
    exact hr' rfl
  rw [Int.natAbs_tdiv]
  calc 2 * (a.natAbs / b.natAbs)
    _ ≤ b.natAbs * (a.natAbs / b.natAbs) := Nat.mul_le_mul_right _ htwo
    _ ≤ a.natAbs := Nat.mul_div_le _ _

namespace Arithmetic

/-- The one division whose exact quotient is no 64-bit number. -/
def Overflows (a b : Int64) : Prop := a = Int64.minValue ∧ b = -1

/-- Rounding down differs from truncation: a remainder is left, and the signs differ. -/
def Corrects (a b : Int64) : Prop := a % b ≠ 0 ∧ decide (a < 0) ≠ decide (b < 0)

variable {a b : Int64}

theorem toInt_eq_zero_iff : b.toInt = 0 ↔ b = 0 := by
  rw [← Int64.toInt_zero, Int64.toInt_inj]

theorem toInt_div (h : ¬ Overflows a b) : (a / b).toInt = a.toInt.tdiv b.toInt := by
  by_cases ha : a = Int64.minValue
  · exact Int64.toInt_div_of_ne_right a b fun hb => h ⟨ha, hb⟩
  · exact Int64.toInt_div_of_ne_left a b ha

theorem tmod_ne_zero (h : Corrects a b) : a.toInt.tmod b.toInt ≠ 0 := by
  rw [← Int64.toInt_mod]
  exact fun hr => h.1 (toInt_eq_zero_iff.mp hr)

/-- Lowering a truncated quotient in order to round down never wraps around. -/
theorem toInt_div_sub_one (hb : b ≠ 0) (h : Corrects a b) :
    (a / b - 1).toInt = (a / b).toInt - 1 := by
  have hb' : b.toInt ≠ 0 := fun he => hb (toInt_eq_zero_iff.mp he)
  have hno : ¬ Overflows a b := by
    rintro ⟨rfl, rfl⟩
    exact h.1 (by decide)
  have hhalf := two_mul_natAbs_tdiv_le (tmod_ne_zero h) hb'
  have hlow := a.le_toInt
  have hhigh := a.toInt_lt
  rw [Int64.toInt_sub, Int64.toInt_one, toInt_div hno]
  exact Int.bmod_eq_of_le (by omega) (by omega)

/-- Truncation and correction together round down. -/
theorem toInt_floorDiv (hb : b ≠ 0) (h : ¬ Overflows a b) :
    (floorDiv a b).toInt = a.toInt.fdiv b.toInt := by
  have hb' : b.toInt ≠ 0 := fun he => hb (toInt_eq_zero_iff.mp he)
  have hneg (c : Int64) : c < 0 ↔ c.toInt < 0 := by
    rw [Int64.lt_iff_toInt_lt, Int64.toInt_zero]
  -- Rounding down on integers lowers the truncated quotient under the same condition.
  rw [Int.fdiv_eq_tdiv]
  unfold floorDiv
  split
  · rename_i hc
    have hd : ¬ b.toInt ∣ a.toInt := by
      rw [Int.dvd_iff_tmod_eq_zero]
      exact tmod_ne_zero hc
    have hsigns : ¬ (a.toInt < 0 ↔ b.toInt < 0) := by
      rw [← hneg, ← hneg]
      exact fun hi => hc.2 (decide_eq_decide.mpr hi)
    rw [toInt_div_sub_one hb hc, toInt_div h, if_neg hd]
    by_cases ha : 0 ≤ a.toInt
    · rw [if_pos ha, if_neg (by omega)]
    · rw [if_neg ha, if_pos (by omega), Int.sign_eq_one_of_pos (by omega)]
  · rename_i hc
    rw [toInt_div h]
    by_cases hd : b.toInt ∣ a.toInt
    · rw [if_pos hd, Int.sub_zero]
    · have hr : a % b ≠ 0 := by
        intro hr
        apply hd
        rw [Int.dvd_iff_tmod_eq_zero, ← Int64.toInt_mod, hr, Int64.toInt_zero]
      have hsigns : a.toInt < 0 ↔ b.toInt < 0 := by
        rw [← hneg, ← hneg]
        by_contra hi
        exact hc ⟨hr, fun he => hi (decide_eq_decide.mp he)⟩
      rw [if_neg hd]
      by_cases ha : 0 ≤ a.toInt
      · rw [if_pos ha, if_pos (by omega), Int.sub_zero]
      · rw [if_neg ha, if_neg (by omega), Int.sign_eq_neg_one_of_neg (by omega)]
        omega

/-- In wrapping arithmetic quotient and remainder always give back the dividend. -/
theorem div_mul_add_mod (a b : Int64) : a / b * b + a % b = a := by
  have hq : Int64.ofInt (a.toInt.tdiv b.toInt) = a / b :=
    (Int64.ofInt_eq_iff_bmod_eq_toInt _ _).mpr (Int64.toInt_div a b).symm
  have hr : Int64.ofInt (a.toInt.tmod b.toInt) = a % b := by
    rw [← Int64.toInt_mod, Int64.ofInt_toInt]
  calc a / b * b + a % b
    _ = Int64.ofInt (a.toInt.tdiv b.toInt * b.toInt + a.toInt.tmod b.toInt) := by
        rw [Int64.ofInt_add, Int64.ofInt_mul, hq, hr, Int64.ofInt_toInt]
    _ = a := by rw [Int.tdiv_mul_add_tmod, Int64.ofInt_toInt]

/-- The remainder is what the truncated quotient leaves, smaller than the divisor and of the sign of
the dividend unless it is zero. -/
theorem remainder_laws (a : Int64) (hb : b ≠ 0) :
    (a % b).toInt = a.toInt - b.toInt * a.toInt.tdiv b.toInt ∧
      (a % b).toInt.natAbs < b.toInt.natAbs ∧
      (a % b = 0 ∨ (a % b).toInt.sign = a.toInt.sign) := by
  have hb' : 0 < b.toInt.natAbs := by
    rw [Int.natAbs_pos]
    exact fun he => hb (toInt_eq_zero_iff.mp he)
  rw [← toInt_eq_zero_iff, Int64.toInt_mod]
  refine ⟨Int.tmod_def _ _, ?_, ?_⟩
  · rw [Int.natAbs_tmod]
    exact Nat.mod_lt _ hb'
  · rw [Int.sign_tmod, ← Int.dvd_iff_tmod_eq_zero]
    by_cases hd : b.toInt ∣ a.toInt
    · exact .inl hd
    · exact .inr (if_neg hd)

/-- Division by zero fails in the name of the operation. Any other divisor has a truncated quotient,
its remainder and a quotient rounded down, none of which wraps around, except that the least number
divided by minus one is itself. -/
theorem division_laws (a b : Int64) :
    (∀ (op : Arithmetic) (caller : Nat),
      Primitive.effect (.arithmetic op) caller [.number a, .number b] =
        .result ((op.step a b).map .number)) ∧
    (b = 0 →
      step .div a b = .error (.divideByZero (.ofString "/")) ∧
      step .mod a b = .error (.divideByZero (.ofString "mod")) ∧
      step .quotient a b = .error (.divideByZero (.ofString "quotient"))) ∧
    (b ≠ 0 → ∃ q r f : Int64,
      step .div a b = .ok q ∧ step .mod a b = .ok r ∧ step .quotient a b = .ok f ∧
      (r.toInt = a.toInt - b.toInt * a.toInt.tdiv b.toInt ∧
        r.toInt.natAbs < b.toInt.natAbs ∧ (r = 0 ∨ r.toInt.sign = a.toInt.sign)) ∧
      (¬ Overflows a b →
        q.toInt = a.toInt.tdiv b.toInt ∧ f.toInt = ⌊(a.toInt : ℚ) / b.toInt⌋) ∧
      (Overflows a b → q = Int64.minValue ∧ r = 0 ∧ f = Int64.minValue) ∧
      (Corrects a b → f = q - 1 ∧ (q - 1).toInt = q.toInt - 1) ∧
      q * b + r = a) := by
  refine ⟨?_, ?_, ?_⟩
  · intro op caller
    have hfold : op.fold a [.number b] = op.step a b := by
      change op.step a b >>= Except.ok = op.step a b
      cases op.step a b <;> rfl
    change Primitive.Effect.result (op.fold a [.number b] >>= fun n => .ok (.number n)) = _
    rw [hfold]
    cases op.step a b <;> rfl
  · rintro rfl
    exact ⟨rfl, rfl, rfl⟩
  · intro hb
    refine ⟨a / b, a % b, floorDiv a b, if_neg hb, if_neg hb, if_neg hb, remainder_laws a hb,
      ?_, ?_, ?_, div_mul_add_mod a b⟩
    · intro h
      rw [floor_div_eq_fdiv]
      exact ⟨toInt_div h, toInt_floorDiv hb h⟩
    · rintro ⟨rfl, rfl⟩
      decide
    · intro h
      exact ⟨if_pos h, toInt_div_sub_one hb h⟩

/-- The least number has a remainder by the greatest, and is its own quotient by minus one. -/
theorem division_laws_minValue :
    (∃ q r f : Int64,
      step .div Int64.minValue Int64.maxValue = .ok q ∧
      step .mod Int64.minValue Int64.maxValue = .ok r ∧
      step .quotient Int64.minValue Int64.maxValue = .ok f ∧
      q.toInt = Int64.minValue.toInt.tdiv Int64.maxValue.toInt ∧
      f.toInt = ⌊(Int64.minValue.toInt : ℚ) / Int64.maxValue.toInt⌋ ∧
      f = q - 1 ∧ (q - 1).toInt = q.toInt - 1) ∧
    (∃ q : Int64, step .div Int64.minValue (-1) = .ok q ∧ q = Int64.minValue) ∧
    step .quotient 7 0 = .error (.divideByZero (.ofString "quotient")) := by
  refine ⟨?_, ?_, ?_⟩
  · obtain ⟨q, r, f, hq, hr, hf, -, hexact, -, hlower, -⟩ :=
      (division_laws Int64.minValue Int64.maxValue).2.2 (by decide)
    obtain ⟨hqe, hfe⟩ := hexact fun h => by cases h.2
    exact ⟨q, r, f, hq, hr, hf, hqe, hfe, hlower ⟨by decide, by decide⟩⟩
  · obtain ⟨q, r, f, hq, -, -, -, -, hover, -⟩ :=
      (division_laws Int64.minValue (-1)).2.2 (by decide)
    exact ⟨q, hq, (hover ⟨rfl, rfl⟩).1⟩
  · exact ((division_laws 7 0).2.1 rfl).2.2

end Arithmetic

end SmallScheme
