import SmallScheme.Text.Decimal

/-!
# Laws of decimal notation

Reading undoes writing: the decimal form of a natural number, an integer or a 64-bit word reads back
as that number.
-/

namespace SmallScheme.Decimal

set_option autoImplicit false

theorem digit?_digit (n : Nat) : digit? (digit n) = some (n % 10) := by
  have hn : (digit n).toNat = 48 + n % 10 := by
    simp only [digit, UInt8.toNat_ofNat']
    omega
  simp only [digit?, UInt8.le_iff_toNat_le, UInt8.reduceToNat, hn]
  rw [if_pos (by omega), Nat.add_sub_cancel_left]

theorem digitsFrom?_append (acc : Nat) (t u : Text) :
    digitsFrom? acc (t ++ u) = (digitsFrom? acc t).bind (digitsFrom? · u) := by
  induction t generalizing acc with
  | nil => rfl
  | cons b t ih =>
    simp only [List.cons_append, digitsFrom?]
    cases digit? b with
    | none => rfl
    | some d => simp only [Option.bind_some, ih]

theorem digitsFrom?_ofNat (n : Nat) : digitsFrom? 0 (ofNat n) = some n := by
  induction n using Nat.strongRecOn with
  | ind n ih =>
    rw [ofNat]
    split
    · rename_i h
      simp [digitsFrom?, digit?_digit, Nat.mod_eq_of_lt h]
    · rename_i h
      rw [digitsFrom?_append, ih (n / 10) (by omega)]
      simp only [Option.bind_some, digitsFrom?, digit?_digit]
      congr 1
      omega

theorem ofNat_ne_nil (n : Nat) : ofNat n ≠ [] := by
  rw [ofNat]
  split <;> simp

theorem digits?_ofNat (n : Nat) : digits? (ofNat n) = some n := by
  have h := digitsFrom?_ofNat n
  cases ht : ofNat n with
  | nil => exact absurd ht (ofNat_ne_nil n)
  | cons b t => rwa [ht] at h

/-- Every byte of a numeral is a digit. -/
theorem digit_of_mem_ofNat (n : Nat) (b : UInt8) (h : b ∈ ofNat n) :
    48 ≤ b.toNat ∧ b.toNat ≤ 57 := by
  induction n using Nat.strongRecOn with
  | ind n ih =>
    have hd : (digit n).toNat = 48 + n % 10 := by
      simp only [digit, UInt8.toNat_ofNat']
      omega
    rw [ofNat] at h
    split at h
    · simp only [List.mem_singleton] at h
      subst h
      omega
    · simp only [List.mem_append, List.mem_singleton] at h
      rcases h with h | h
      · exact ih (n / 10) (by omega) h
      · subst h
        omega

theorem int?_ofNat (n : Nat) : int? (ofNat n) = some (Int.ofNat n) := by
  have h := digits?_ofNat n
  have hd := digit_of_mem_ofNat n
  cases ht : ofNat n with
  | nil => exact absurd ht (ofNat_ne_nil n)
  | cons b t =>
    rw [ht] at h hd
    have hb := hd b List.mem_cons_self
    have h43 : b ≠ 43 := by rintro rfl; simp at hb
    have h45 : b ≠ 45 := by rintro rfl; simp at hb
    simp only [int?, h43, h45, if_false, h, Option.map_some]

/-- The decimal form of an integer reads back as that integer. -/
theorem int?_ofInt (z : Int) : int? (ofInt z) = some z := by
  cases z with
  | ofNat n => exact int?_ofNat n
  | negSucc n =>
    have h : (45 : UInt8) ≠ 43 := by decide
    simp only [ofInt, int?, h, if_false, if_true, digits?_ofNat, Option.map_some]
    rfl

theorem word?_toInt (n : Int64) : word? n.toInt = some n := by
  have h₁ := Int64.le_toInt n
  have h₂ := Int64.toInt_lt n
  simp only [word?]
  rw [if_pos ⟨h₁, h₂⟩, Int64.ofInt_toInt]

/-- The decimal form of a word reads back as that word. -/
theorem int64?_ofInt (n : Int64) : int64? (ofInt n.toInt) = some n := by
  simp only [int64?, int?_ofInt, Option.bind_some, word?_toInt]

end SmallScheme.Decimal
