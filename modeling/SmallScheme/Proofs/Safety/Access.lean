import SmallScheme.Value.Basic

/-!
# Operations that can go wrong

Indexing, slicing, division, the use of something that may be missing: each has inputs for which it
gives nothing. Here they are operations of `Guarded`, which says what went wrong. The modules beside
this one carry out reading and evaluation with them, and show that nothing ever does.
-/

namespace SmallScheme

set_option autoImplicit false

/-- What can go wrong with an operation that asks more of its arguments than types say. -/
inductive Hazard where
  | misuse (m : Misuse)
  /-- Of `length` things those from `low` up to `high` are asked for. -/
  | outside (low high : Int) (length : Nat)
  /-- Something is used that is not there. -/
  | absent
  | zeroDivisor
  /-- A loop does not come to its end. -/
  | endless
  /-- A symbol table keeps a name for another one. -/
  | unfaithful
  deriving DecidableEq, Repr

/-- The result of an operation that can go wrong. -/
abbrev Guarded (α : Type) := Except Hazard α

namespace Guarded

variable {α β : Type} {xs : List α} {x : α}

@[simp] theorem ok_bind (a : α) (f : α → Guarded β) : (Except.ok a >>= f) = f a := rfl

@[simp] theorem pure_eq (a : α) : (pure a : Guarded α) = .ok a := rfl

/-- Goes on with a result unless it is an error. -/
def andThen {ε : Type} (x : Guarded (Except ε α)) (f : α → Guarded (Except ε β)) :
    Guarded (Except ε β) := do
  match ← x with
  | .error e => return .error e
  | .ok a => f a

theorem andThen_eq {ε : Type} {x : Guarded (Except ε α)} {f : α → Guarded (Except ε β)}
    {r : Except ε α} {g : α → Except ε β} (hx : x = .ok r) (hf : ∀ a, f a = .ok (g a)) :
    andThen x f = .ok (r >>= g) := by
  subst hx
  cases r with
  | error e => rfl
  | ok a => exact hf a

def present : Option α → Guarded α
  | some a => .ok a
  | none => .error .absent

@[simp] theorem present_some (a : α) : present (some a) = .ok a := rfl

def ofMisuse : Except Misuse α → Guarded α
  | .ok a => .ok a
  | .error m => .error (.misuse m)

/-- The element with a given number, counted from zero. -/
def index (xs : List α) : Int → Guarded α
  | .ofNat i =>
    match xs[i]? with
    | some x => .ok x
    | none => .error (.misuse (.outOfRange i xs.length))
  | .negSucc i => .error (.misuse (.outOfRange (.negSucc i) xs.length))

theorem index_eq {i : Nat} (h : xs[i]? = some x) : index xs i = .ok x := by
  change (match xs[i]? with | some x => _ | none => _) = _
  rw [h]

@[simp] theorem index_zero (x : α) (xs : List α) : index (x :: xs) 0 = .ok x := rfl

@[simp] theorem index_one (x y : α) (xs : List α) : index (x :: y :: xs) 1 = .ok y := rfl

theorem mem_of_index {i : Int} (h : index xs i = .ok x) : x ∈ xs := by
  unfold index at h
  split at h
  · split at h
    · rename_i hx
      cases h
      exact List.mem_of_getElem? hx
    · cases h
  · cases h

/-- The elements from one number up to another. -/
def slice (xs : List α) (low high : Int) : Guarded (List α) :=
  if 0 ≤ low ∧ low ≤ high ∧ high ≤ xs.length then .ok ((xs.take high.toNat).drop low.toNat)
  else .error (.outside low high xs.length)

theorem slice_eq {low high : Nat} (h : low ≤ high) (hx : high ≤ xs.length) :
    slice xs low high = .ok ((xs.take high).drop low) := by
  rw [slice, if_pos (by omega)]
  rfl

/-- The elements from one number on. -/
def sliceFrom (xs : List α) (low : Int) : Guarded (List α) := slice xs low xs.length

theorem sliceFrom_eq {low : Nat} (h : low ≤ xs.length) :
    sliceFrom xs low = .ok (xs.drop low) := by
  rw [sliceFrom, slice_eq h (Nat.le_refl _), List.take_length]

@[simp] theorem sliceFrom_one (x : α) (xs : List α) : sliceFrom (x :: xs) 1 = .ok xs :=
  sliceFrom_eq (Nat.le_add_left 1 xs.length)

def divide (a b : Int64) : Guarded Int64 := if b = 0 then .error .zeroDivisor else .ok (a / b)

def modulo (a b : Int64) : Guarded Int64 := if b = 0 then .error .zeroDivisor else .ok (a % b)

theorem divide_eq (a : Int64) {b : Int64} (h : b ≠ 0) : divide a b = .ok (a / b) := if_neg h

theorem modulo_eq (a : Int64) {b : Int64} (h : b ≠ 0) : modulo a b = .ok (a % b) := if_neg h

end Guarded

end SmallScheme
