import SmallScheme.Value.Basic

/-!
# Sameness of values

`Value.eqv` decides whether two values are the same: data by their parts, procedures by their
identity. It decides equality of values, as `Value.eqv_iff` says, so the parts of a procedure are
compared beside its identity. They never decide: of the procedures that one world has made, equal
identities belong to equal parts (`World.eqv_iff_identity_eq`).
-/

namespace SmallScheme.Value

set_option autoImplicit false

mutual

/-- Whether two values are the same. -/
def eqv : Value → Value → Bool
  | .atom a, .atom b => a == b
  | .number m, .number n => m == n
  | .string s, .string t => s == t
  | .char p, .char q => p == q
  | .bool p, .bool q => p == q
  | .list xs, .list ys => eqvItems xs ys
  | .dotted xs x, .dotted ys y => eqvItems xs ys && eqv x y
  | .closure i f x k, .closure j g y l => i == j && f == g && k == l && eqv x y
  | .primitive i p, .primitive j q => i == j && p == q
  | _, _ => false

/-- Whether two lists of values have the same length and the same elements. -/
def eqvItems : List Value → List Value → Bool
  | [], [] => true
  | x :: xs, y :: ys => eqv x y && eqvItems xs ys
  | _, _ => false

end

mutual

theorem eqv_self : (v : Value) → eqv v v = true
  | .atom _ | .number _ | .string _ | .char _ | .bool _ | .primitive _ _ => by simp [eqv]
  | .list xs => by simp [eqv, eqvItems_self xs]
  | .dotted xs x => by simp [eqv, eqvItems_self xs, eqv_self x]
  | .closure _ _ x _ => by simp [eqv, eqv_self x]

theorem eqvItems_self : (vs : List Value) → eqvItems vs vs = true
  | [] => rfl
  | v :: vs => by simp [eqvItems, eqv_self v, eqvItems_self vs]

end

mutual

theorem eq_of_eqv : (v w : Value) → eqv v w = true → v = w
  | .atom _, w, h => by cases w <;> simp_all [eqv]
  | .number _, w, h => by cases w <;> simp_all [eqv]
  | .string _, w, h => by cases w <;> simp_all [eqv]
  | .char _, w, h => by cases w <;> simp_all [eqv]
  | .bool _, w, h => by cases w <;> simp_all [eqv]
  | .primitive _ _, w, h => by cases w <;> simp_all [eqv]
  | .list xs, w, h => by
    cases w with
    | list ys => rw [eq_of_eqvItems xs ys (by simpa [eqv] using h)]
    | _ => simp [eqv] at h
  | .dotted xs x, w, h => by
    cases w with
    | dotted ys y =>
      simp only [eqv, Bool.and_eq_true] at h
      rw [eq_of_eqvItems xs ys h.1, eq_of_eqv x y h.2]
    | _ => simp [eqv] at h
  | .closure i f x k, w, h => by
    cases w with
    | closure j g y l =>
      simp only [eqv, Bool.and_eq_true, beq_iff_eq] at h
      rw [eq_of_eqv x y h.2, h.1.1.1, h.1.1.2, h.1.2]
    | _ => simp [eqv] at h

theorem eq_of_eqvItems : (vs ws : List Value) → eqvItems vs ws = true → vs = ws
  | [], ws, h => by cases ws <;> simp_all [eqvItems]
  | v :: vs, ws, h => by
    cases ws with
    | nil => simp [eqvItems] at h
    | cons w ws =>
      simp only [eqvItems, Bool.and_eq_true] at h
      rw [eq_of_eqv v w h.1, eq_of_eqvItems vs ws h.2]

end

/-- Sameness is equality. -/
theorem eqv_iff {v w : Value} : eqv v w = true ↔ v = w :=
  ⟨eq_of_eqv v w, fun h => h ▸ eqv_self v⟩

instance : DecidableEq Value := fun _ _ => decidable_of_iff _ eqv_iff

end SmallScheme.Value
