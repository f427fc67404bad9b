import SmallScheme.Text.Decimal.Lemmas
import SmallScheme.Value.Coercion

/-!
# Loose equality of values

`Value.equal` joins four relations, and such a union need not be transitive. It is an equivalence
because the coercions fit together: a value that stands for a text stands for the number that the
text denotes, if it denotes one. So two values are equal when they have the same `Value.essence`:
their number, else their text, else the value itself.
-/

namespace SmallScheme.Value

set_option autoImplicit false

/-- What counts of a value when it is compared loosely. -/
inductive Essence where
  | number (n : Int64)
  | text (t : Text)
  | itself (v : Value)

def essence (v : Value) : Essence :=
  match v.toNumber, v.toText with
  | .ok n, _ => .number n
  | .error _, .ok t => .text t
  | .error _, .error _ => .itself v

section Coercions

variable {v w : Value} {n : Int64} {t : Text}

theorem agree_iff {α : Type} [DecidableEq α] {coerce : Value → Except Error α} :
    agree coerce v w = true ↔ ∃ a, coerce v = .ok a ∧ coerce w = .ok a := by
  unfold agree
  constructor
  · intro h
    split at h
    · rename_i a b ha hb
      have hab : a = b := of_decide_eq_true h
      exact ⟨a, ha, hab ▸ hb⟩
    · cases h
  · rintro ⟨a, hv, hw⟩
    simp [hv, hw]

theorem toBool_eq_ok {b : Bool} (h : v.toBool = .ok b) : v = .bool b := by
  cases v with
  | bool c => exact congrArg Value.bool (Except.ok.inj h)
  | _ => cases h

/-- The text of a value determines its number. -/
theorem toNumber_of_toText (h : v.toText = .ok t) :
    v.toNumber = .ok n ↔ Decimal.int64? t = some n := by
  cases v with
  | string u =>
    obtain rfl : u = t := Except.ok.inj h
    rw [toNumber]
    cases Decimal.int64? u with
    | none => simp
    | some m => simp
  | number m =>
    have ht : Decimal.ofInt m.toInt = t := by
      simpa [render, write] using Except.ok.inj h
    rw [toNumber, ← ht, Decimal.int64?_ofInt, Except.ok.injEq, Option.some.injEq]
  | bool b =>
    -- The marks of truth values are no numerals.
    have ht : render (.bool b) = t := Except.ok.inj h
    have hn : Decimal.int64? (render (.bool b)) = none := by cases b <;> rfl
    rw [toNumber, ← ht, hn]
    · simp
    all_goals nofun
  | _ => cases h

theorem essence_of_toNumber (h : v.toNumber = .ok n) : v.essence = .number n := by
  rw [essence, h]

theorem essence_of_toText (h : v.toText = .ok t) :
    v.essence = (match Decimal.int64? t with
      | some n => .number n
      | none => .text t) := by
  cases ht : Decimal.int64? t with
  | some n => exact essence_of_toNumber ((toNumber_of_toText h).mpr ht)
  | none =>
    cases hv : v.toNumber with
    | ok n =>
      rw [(toNumber_of_toText h).mp hv] at ht
      cases ht
    | error e => rw [essence, hv, h]

theorem toNumber_of_essence (h : v.essence = .number n) : v.toNumber = .ok n := by
  unfold essence at h
  split at h
  · rename_i hv
    rw [hv, Essence.number.inj h]
  · cases h
  · cases h

theorem toText_of_essence (h : v.essence = .text t) : v.toText = .ok t := by
  unfold essence at h
  split at h
  · cases h
  · rename_i hv
    rw [hv, Essence.text.inj h]
  · cases h

theorem eq_of_essence (h : v.essence = .itself w) : v = w := by
  unfold essence at h
  split at h
  · cases h
  · cases h
  · exact Essence.itself.inj h

end Coercions

theorem essence_of_equal {v w : Value} (h : equal v w = true) : v.essence = w.essence := by
  simp only [equal, Bool.or_eq_true] at h
  rcases h with ((h | h) | h) | h
  · obtain ⟨n, hv, hw⟩ := agree_iff.mp h
    rw [essence_of_toNumber hv, essence_of_toNumber hw]
  · obtain ⟨b, hv, hw⟩ := agree_iff.mp h
    rw [toBool_eq_ok hv, toBool_eq_ok hw]
  · obtain ⟨t, hv, hw⟩ := agree_iff.mp h
    rw [essence_of_toText hv, essence_of_toText hw]
  · rw [eqv_iff.mp h]

theorem equal_of_essence {v w : Value} (h : v.essence = w.essence) : equal v w = true := by
  simp only [equal, Bool.or_eq_true]
  cases hw : w.essence with
  | number n =>
    have ha : agree toNumber v w = true :=
      agree_iff.mpr ⟨n, toNumber_of_essence (h.trans hw), toNumber_of_essence hw⟩
    exact .inl (.inl (.inl ha))
  | text t =>
    have ha : agree toText v w = true :=
      agree_iff.mpr ⟨t, toText_of_essence (h.trans hw), toText_of_essence hw⟩
    exact .inl (.inr ha)
  | itself u =>
    have ha : v = w := (eq_of_essence (h.trans hw)).trans (eq_of_essence hw).symm
    exact .inr (eqv_iff.mpr ha)

/-- Values are loosely equal when the same counts of them. -/
theorem equal_iff_essence {v w : Value} : equal v w = true ↔ v.essence = w.essence :=
  ⟨essence_of_equal, equal_of_essence⟩

/-- Loose equality is an equivalence relation, and values that are the same are loosely equal. -/
theorem equal_equivalence :
    Equivalence (fun v w : Value => equal v w = true) ∧
      ∀ v w : Value, eqv v w = true → equal v w = true := by
  refine ⟨⟨?_, ?_, ?_⟩, ?_⟩
  · intro v
    exact equal_iff_essence.mpr rfl
  · intro v w h
    exact equal_iff_essence.mpr (equal_iff_essence.mp h).symm
  · intro u v w huv hvw
    exact equal_iff_essence.mpr ((equal_iff_essence.mp huv).trans (equal_iff_essence.mp hvw))
  · intro v w h
    rw [eqv_iff.mp h]
    exact equal_iff_essence.mpr rfl

/-- A list agrees with a number by its first element, the number with a text by its digits. -/
theorem equal_equivalence_digits :
    equal (.list [.string (.ofString "+07"), .bool true]) (.number 7) = true ∧
      equal (.number 7) (.string (.ofString "7")) = true ∧
      equal (.list [.string (.ofString "+07"), .bool true]) (.string (.ofString "7")) = true := by
  have hl : equal (.list [.string (.ofString "+07"), .bool true]) (.number 7) = true := by decide
  have hr : equal (.number 7) (.string (.ofString "7")) = true := by decide +kernel
  exact ⟨hl, hr, equal_equivalence.1.trans hl hr⟩

end SmallScheme.Value
