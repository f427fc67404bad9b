import Mathlib.Algebra.BigOperators.Group.List.Basic
import Mathlib.Algebra.Ring.Int.Defs
import Mathlib.Data.List.Forall2
import Mathlib.Data.List.Perm.Basic
import SmallScheme.Proofs.Environment.Captures

/-!
# Sums and products

Arithmetic reads its arguments as numbers while it combines them. Where no step can fail, it comes
to the same to read all arguments first (`Arithmetic.arithmeticOf_cons`). What `+` and `*` make of
the numbers is then the word of their exact sum or product, whatever their order and grouping. What
fails, for these two as well as for `-`, is the reading of the first argument that stands for no
number.
-/

namespace SmallScheme

set_option autoImplicit false

section Reading

open Primitive (exists_ok_of_bind)

variable {α β : Type} {f : α → Except Error β} {xs : List α}

theorem mapM_eq_ok_iff {ys : List β} :
    xs.mapM f = .ok ys ↔ List.Forall₂ (fun x y => f x = .ok y) xs ys := by
  induction xs generalizing ys with
  | nil =>
    rw [List.mapM_nil, List.forall₂_nil_left_iff]
    exact ⟨fun h => (Except.ok.inj h).symm, fun h => h ▸ rfl⟩
  | cons x xs ih =>
    rw [List.mapM_cons]
    constructor
    · intro h
      obtain ⟨y, hy, h⟩ := exists_ok_of_bind h
      obtain ⟨zs, hzs, h⟩ := exists_ok_of_bind h
      cases h
      exact .cons hy (ih.mp hzs)
    · intro h
      cases h with
      | cons hx hxs =>
        rw [hx, ih.mpr hxs]
        rfl

theorem exists_mapM_eq_ok_iff :
    (∃ ys, xs.mapM f = .ok ys) ↔ ∀ x ∈ xs, ∃ y, f x = .ok y := by
  induction xs with
  | nil => exact ⟨fun _ => nofun, fun _ => ⟨[], rfl⟩⟩
  | cons x xs ih =>
    rw [List.forall_mem_cons, ← ih, List.mapM_cons]
    constructor
    · rintro ⟨ys, h⟩
      obtain ⟨y, hy, h⟩ := exists_ok_of_bind h
      obtain ⟨zs, hzs, -⟩ := exists_ok_of_bind h
      exact ⟨⟨y, hy⟩, zs, hzs⟩
    · rintro ⟨⟨y, hy⟩, zs, hzs⟩
      rw [hy, hzs]
      exact ⟨y :: zs, rfl⟩

/-- The failure is that of the first member that fails. -/
theorem mapM_eq_error_iff {e : Error} :
    xs.mapM f = .error e ↔ ∃ before x after, xs = before ++ x :: after ∧
      (∀ y ∈ before, ∃ b, f y = .ok b) ∧ f x = .error e := by
  constructor
  · intro h
    induction xs with
    | nil => cases h
    | cons x xs ih =>
      rw [List.mapM_cons] at h
      cases hx : f x with
      | error e' =>
        rw [hx] at h
        cases h
        exact ⟨[], x, xs, rfl, nofun, hx⟩
      | ok b =>
        cases hxs : xs.mapM f with
        | ok bs =>
          rw [hx, hxs] at h
          cases h
        | error e' =>
          rw [hx, hxs] at h
          cases h
          obtain ⟨before, y, after, rfl, hb, hy⟩ := ih hxs
          exact ⟨x :: before, y, after, rfl, List.forall_mem_cons.mpr ⟨⟨b, hx⟩, hb⟩, hy⟩
  · rintro ⟨before, x, after, rfl, hb, hx⟩
    obtain ⟨bs, hbs⟩ := exists_mapM_eq_ok_iff.mpr hb
    rw [List.mapM_append, List.mapM_cons, hbs, hx]
    rfl

end Reading

/-- A value that stands for no number is refused for its variant. -/
theorem Value.toNumber_eq_error {e : Error} : (v : Value) → v.toNumber = .error e →
    ∃ found, e = .typeMismatch (.ofString "number") found
  | .number _, h => by cases h
  | .string t, h => by
    rw [toNumber] at h
    cases ht : Decimal.int64? t with
    | some n =>
      rw [ht] at h
      cases h
    | none =>
      rw [ht] at h
      cases h
      exact ⟨_, rfl⟩
  | .list (v :: _), h => toNumber_eq_error v h
  | .list [], h | .atom _, h | .char _, h | .bool _, h | .dotted .., h | .closure .., h
  | .primitive .., h => by
    cases h
    exact ⟨_, rfl⟩

namespace Arithmetic

open Primitive (arithmeticOf exists_ok_of_bind)

/-- The operations that compute a total of integers, which wraps around at the width of words. -/
inductive Totals : Arithmetic → (List ℤ → ℤ) → Prop where
  | sum : Totals .add List.sum
  | product : Totals .mul List.prod

/-- The word of the total of the integers that words stand for. -/
def wrapped (total : List ℤ → ℤ) (ns : List Int64) : Int64 :=
  Int64.ofInt (total (ns.map Int64.toInt))

section Steps

variable {op : Arithmetic} {f : Int64 → Int64 → Int64} (h : ∀ a b, op.step a b = .ok (f a b))
include h

/-- Where no step fails, arguments may be read before they are combined. -/
theorem fold_eq (acc : Int64) (vs : List Value) :
    op.fold acc vs = (vs.mapM Value.toNumber).map (List.foldl f acc) := by
  induction vs generalizing acc with
  | nil => rfl
  | cons v vs ih =>
    rw [fold, List.mapM_cons]
    cases v.toNumber with
    | error e => rfl
    | ok b =>
      change op.step acc b >>= (fun c => op.fold c vs) = _
      rw [h acc b]
      change op.fold (f acc b) vs = _
      rw [ih (f acc b)]
      cases vs.mapM Value.toNumber <;> rfl

theorem arithmeticOf_cons {vs : List Value} (hl : 1 ≤ vs.length) (v : Value) :
    arithmeticOf op (v :: vs) = ((v :: vs).mapM Value.toNumber).map fun ns =>
      .number (ns.tail.foldl f (ns.headD 0)) := by
  obtain ⟨w, ws, rfl⟩ := List.exists_cons_of_length_pos hl
  rw [arithmeticOf, List.mapM_cons]
  cases v.toNumber with
  | error e => rfl
  | ok a =>
    change op.fold a (w :: ws) >>= (fun n => .ok (Value.number n)) = _
    rw [fold_eq h]
    cases (w :: ws).mapM Value.toNumber <;> rfl

variable {vs : List Value} (hl : 2 ≤ vs.length)
include hl

theorem exists_arithmeticOf_iff :
    (∃ v, arithmeticOf op vs = .ok v) ↔ ∀ u ∈ vs, ∃ n, u.toNumber = .ok n := by
  obtain ⟨v, ws, rfl⟩ := List.exists_cons_of_length_pos (by omega : 0 < vs.length)
  rw [arithmeticOf_cons h (by simpa using hl), ← exists_mapM_eq_ok_iff]
  cases (v :: ws).mapM Value.toNumber with
  | error e => exact ⟨nofun, nofun⟩
  | ok ns => exact ⟨fun _ => ⟨ns, rfl⟩, fun _ => ⟨_, rfl⟩⟩

theorem arithmeticOf_eq_error_iff {e : Error} :
    arithmeticOf op vs = .error e ↔ vs.mapM Value.toNumber = .error e := by
  obtain ⟨v, ws, rfl⟩ := List.exists_cons_of_length_pos (by omega : 0 < vs.length)
  rw [arithmeticOf_cons h (by simpa using hl)]
  cases (v :: ws).mapM Value.toNumber with
  | error e' => simp [Except.map]
  | ok ns => exact ⟨nofun, nofun⟩

end Steps

/-- No step of a sum, a product or a difference fails. -/
theorem exists_step_eq {op : Arithmetic} (ho : op ∈ [Arithmetic.add, .mul, .sub]) :
    ∃ f : Int64 → Int64 → Int64, ∀ a b, op.step a b = .ok (f a b) := by
  simp only [List.mem_cons, List.not_mem_nil, or_false] at ho
  rcases ho with rfl | rfl | rfl
  · exact ⟨_, fun _ _ => rfl⟩
  · exact ⟨_, fun _ _ => rfl⟩
  · exact ⟨_, fun _ _ => rfl⟩

section Totals

variable {op : Arithmetic} {total : List ℤ → ℤ} (h : Totals op total)
include h

theorem Totals.step (a b : Int64) : op.step a b = .ok (wrapped total [a, b]) := by
  cases h with
  | sum => simp [Arithmetic.step, wrapped, Int64.ofInt_add]
  | product => simp [Arithmetic.step, wrapped, Int64.ofInt_mul]

theorem Totals.single (n : ℤ) : total [n] = n := by
  cases h with
  | sum => exact List.sum_singleton
  | product => exact List.prod_singleton

theorem Totals.perm {ms ns : List ℤ} (hp : ms.Perm ns) : total ms = total ns := by
  cases h with
  | sum => exact hp.sum_eq
  | product => exact hp.prod_eq

theorem Totals.append (ms ns : List ℤ) : total (ms ++ ns) = total (total ms :: ns) := by
  cases h with
  | sum => rw [List.sum_append, List.sum_cons]
  | product => rw [List.prod_append, List.prod_cons]

/-- The word of a total depends on the words of its members only. -/
theorem Totals.congr {m n : ℤ} (he : Int64.ofInt m = Int64.ofInt n) (ns : List ℤ) :
    Int64.ofInt (total (m :: ns)) = Int64.ofInt (total (n :: ns)) := by
  cases h with
  | sum => rw [List.sum_cons, List.sum_cons, Int64.ofInt_add, he, ← Int64.ofInt_add]
  | product => rw [List.prod_cons, List.prod_cons, Int64.ofInt_mul, he, ← Int64.ofInt_mul]

theorem wrapped_perm {ms ns : List Int64} (hp : ms.Perm ns) : wrapped total ms = wrapped total ns :=
  congrArg Int64.ofInt (h.perm (hp.map Int64.toInt))

theorem wrapped_append (ms ns : List Int64) :
    wrapped total (ms ++ ns) = wrapped total (wrapped total ms :: ns) := by
  simp only [wrapped, List.map_append, List.map_cons]
  rw [h.append]
  exact h.congr (Int64.ofInt_toInt _).symm _

/-- Numbers next to one another may be replaced by their total. -/
theorem wrapped_middle (ks ms ns : List Int64) :
    wrapped total (ks ++ ms ++ ns) = wrapped total (ks ++ wrapped total ms :: ns) := by
  calc wrapped total (ks ++ ms ++ ns)
    _ = wrapped total (ms ++ (ks ++ ns)) := by
        rw [List.append_assoc]
        exact wrapped_perm h (List.perm_append_comm_assoc ks ms ns)
    _ = wrapped total (wrapped total ms :: (ks ++ ns)) := wrapped_append h _ _
    _ = wrapped total (ks ++ wrapped total ms :: ns) := wrapped_perm h List.perm_middle.symm

theorem foldl_eq_wrapped (acc : Int64) (ns : List Int64) :
    ns.foldl (fun a b => wrapped total [a, b]) acc = wrapped total (acc :: ns) := by
  induction ns generalizing acc with
  | nil => simp [wrapped, h.single]
  | cons n ns ih =>
    rw [List.foldl_cons, ih]
    exact (wrapped_append h [acc, n] ns).symm

variable {vs : List Value} (hl : 2 ≤ vs.length)
include hl

/-- Sums and products are the totals of the numbers that the arguments stand for. -/
theorem arithmeticOf_eq :
    arithmeticOf op vs = (vs.mapM Value.toNumber).map fun ns => .number (wrapped total ns) := by
  obtain ⟨v, ws, rfl⟩ := List.exists_cons_of_length_pos (by omega : 0 < vs.length)
  rw [arithmeticOf_cons h.step (by simpa using hl)]
  cases hm : (v :: ws).mapM Value.toNumber with
  | error e => rfl
  | ok ns =>
    cases mapM_eq_ok_iff.mp hm with
    | cons hv hws => exact congrArg (fun n => Except.ok (Value.number n)) (foldl_eq_wrapped h _ _)

theorem arithmeticOf_eq_ok_iff {v : Value} :
    arithmeticOf op vs = .ok v ↔
      ∃ ns, vs.mapM Value.toNumber = .ok ns ∧ v = .number (wrapped total ns) := by
  rw [arithmeticOf_eq h hl]
  cases vs.mapM Value.toNumber with
  | error e => exact ⟨nofun, nofun⟩
  | ok ns => simp [Except.map, eq_comm]

theorem arithmeticOf_perm {ws : List Value} (hp : vs.Perm ws) {v : Value}
    (hv : arithmeticOf op vs = .ok v) : arithmeticOf op ws = .ok v := by
  obtain ⟨ns, hns, rfl⟩ := (arithmeticOf_eq_ok_iff h hl).mp hv
  obtain ⟨ms, hms, hpm⟩ := List.perm_comp_forall₂ hp.symm (mapM_eq_ok_iff.mp hns)
  rw [arithmeticOf_eq_ok_iff h (hp.length_eq ▸ hl)]
  exact ⟨ms, mapM_eq_ok_iff.mpr hms, by rw [wrapped_perm h hpm]⟩

end Totals

section Grouping

variable {op : Arithmetic} {total : List ℤ → ℤ} {before mid after : List Value} {v : Value}

/-- Arguments next to one another may be replaced by their own result. -/
theorem arithmeticOf_group (h : Totals op total) (hm : 2 ≤ mid.length) (hl : before ++ after ≠ [])
    (hv : arithmeticOf op (before ++ mid ++ after) = .ok v) :
    ∃ m, arithmeticOf op mid = .ok m ∧ arithmeticOf op (before ++ m :: after) = .ok v := by
  have hlen : 1 ≤ before.length + after.length := by
    rw [← List.length_append]
    exact List.length_pos_iff.mpr hl
  have hwhole : 2 ≤ (before ++ mid ++ after).length := by
    simp only [List.length_append]
    omega
  have hgrouped (m : Value) : 2 ≤ (before ++ m :: after).length := by
    simp only [List.length_append, List.length_cons]
    omega
  obtain ⟨ls, hls, rfl⟩ := (arithmeticOf_eq_ok_iff h hwhole).mp hv
  rw [List.mapM_append, List.mapM_append] at hls
  obtain ⟨kms, hkms, hls⟩ := exists_ok_of_bind hls
  obtain ⟨ns, hns, hls⟩ := exists_ok_of_bind hls
  obtain ⟨ks, hks, hkms⟩ := exists_ok_of_bind hkms
  obtain ⟨ms, hms, hkms⟩ := exists_ok_of_bind hkms
  cases hkms
  cases hls
  refine ⟨.number (wrapped total ms), ?_, ?_⟩
  · exact (arithmeticOf_eq_ok_iff h hm).mpr ⟨ms, hms, rfl⟩
  · refine (arithmeticOf_eq_ok_iff h (hgrouped _)).mpr ⟨ks ++ wrapped total ms :: ns, ?_, ?_⟩
    · rw [List.mapM_append, List.mapM_cons, hks, hns]
      rfl
    · rw [wrapped_middle h]

end Grouping

section Subtraction

theorem foldl_sub (acc : Int64) (ns : List Int64) :
    ns.foldl (· - ·) acc = acc - wrapped List.sum ns := by
  induction ns generalizing acc with
  | nil => exact (Int64.sub_zero acc).symm
  | cons n ns ih =>
    have hs : wrapped List.sum (n :: ns) = n + wrapped List.sum ns := by
      simp [wrapped, Int64.ofInt_add]
    rw [List.foldl_cons, ih, hs]
    grind

/-- Differences take the sum of all arguments but the first from the first. -/
theorem arithmeticOf_sub_eq_ok_iff {a v : Value} {bs : List Value} (hl : 1 ≤ bs.length) :
    arithmeticOf .sub (a :: bs) = .ok v ↔ ∃ n ns, a.toNumber = .ok n ∧
      bs.mapM Value.toNumber = .ok ns ∧ v = .number (n - wrapped List.sum ns) := by
  have hstep : ∀ a b, Arithmetic.sub.step a b = .ok (a - b) := fun _ _ => rfl
  rw [arithmeticOf_cons hstep hl, List.mapM_cons]
  cases a.toNumber with
  | error e => exact ⟨nofun, nofun⟩
  | ok n =>
    cases bs.mapM Value.toNumber with
    | error e => exact ⟨nofun, nofun⟩
    | ok ns =>
      change Except.ok (Value.number (ns.foldl (· - ·) n)) = _ ↔ _
      rw [foldl_sub]
      simp [eq_comm]

theorem arithmeticOf_sub_iff_add {a v : Value} {bs : List Value} (hl : 2 ≤ bs.length) :
    arithmeticOf .sub (a :: bs) = .ok v ↔
      ∃ m, arithmeticOf .add bs = .ok m ∧ arithmeticOf .sub [a, m] = .ok v := by
  have hone (k : Int64) : wrapped List.sum [k] = k := by simp [wrapped]
  rw [arithmeticOf_sub_eq_ok_iff (by omega)]
  constructor
  · rintro ⟨n, ns, hn, hns, rfl⟩
    refine ⟨.number (wrapped List.sum ns), ?_, ?_⟩
    · exact (arithmeticOf_eq_ok_iff .sum hl).mpr ⟨ns, hns, rfl⟩
    · refine (arithmeticOf_sub_eq_ok_iff (by simp)).mpr ⟨n, [wrapped List.sum ns], hn, rfl, ?_⟩
      rw [hone]
  · rintro ⟨m, hm, hv⟩
    obtain ⟨ns, hns, rfl⟩ := (arithmeticOf_eq_ok_iff .sum hl).mp hm
    obtain ⟨n, ks, hn, hks, rfl⟩ := (arithmeticOf_sub_eq_ok_iff (by simp)).mp hv
    have hk : [wrapped List.sum ns] = ks := Except.ok.inj hks
    exact ⟨n, ns, hn, hns, by rw [← hk, hone]⟩

end Subtraction

/-- Sums and products depend neither on order nor on grouping. With two or more arguments they
succeed where every argument stands for a number, and give the exact sum or product of these numbers
as a word; reordered arguments give the same, and so do arguments some of which, next to one
another, were added or multiplied before. Subtracting several arguments is subtracting their sum.
Sums, products and differences fail as the first argument does that stands for no number. -/
theorem sums_and_products :
    (∀ op total, Totals op total → ∀ vs : List Value, 2 ≤ vs.length →
      (∀ v, arithmeticOf op vs = .ok v ↔
        ∃ ns, List.Forall₂ (fun u n => u.toNumber = .ok n) vs ns ∧
          v = .number (Int64.ofInt (total (ns.map Int64.toInt)))) ∧
      (∀ ws, vs.Perm ws → ∀ v, arithmeticOf op vs = .ok v ↔ arithmeticOf op ws = .ok v) ∧
      ∀ before mid after v, vs = before ++ mid ++ after → 2 ≤ mid.length →
        before ++ after ≠ [] → arithmeticOf op vs = .ok v →
        ∃ m, arithmeticOf op mid = .ok m ∧ arithmeticOf op (before ++ m :: after) = .ok v) ∧
    (∀ (a : Value) (bs : List Value) (v : Value), 2 ≤ bs.length →
      (arithmeticOf .sub (a :: bs) = .ok v ↔
        ∃ m, arithmeticOf .add bs = .ok m ∧ arithmeticOf .sub [a, m] = .ok v)) ∧
    ∀ op ∈ [Arithmetic.add, .mul, .sub], ∀ vs : List Value, 2 ≤ vs.length →
      ((∃ v, arithmeticOf op vs = .ok v) ↔ ∀ u ∈ vs, ∃ n, u.toNumber = .ok n) ∧
      (∀ e, arithmeticOf op vs = .error e ↔
        ∃ before u after, vs = before ++ u :: after ∧
          (∀ x ∈ before, ∃ n, x.toNumber = .ok n) ∧ u.toNumber = .error e) ∧
      ∀ e, arithmeticOf op vs = .error e →
        ∃ found, e = .typeMismatch (.ofString "number") found := by
  refine ⟨fun op total h vs hl => ⟨fun v => ?_, fun ws hp v => ?_, ?_⟩,
    fun a bs v => arithmeticOf_sub_iff_add, fun op ho vs hl => ?_⟩
  · simp only [← mapM_eq_ok_iff]
    exact arithmeticOf_eq_ok_iff h hl
  · exact ⟨arithmeticOf_perm h hl hp, arithmeticOf_perm h (hp.length_eq ▸ hl) hp.symm⟩
  · rintro before mid after v rfl hm hne hv
    exact arithmeticOf_group h hm hne hv
  · obtain ⟨f, hf⟩ := exists_step_eq ho
    refine ⟨exists_arithmeticOf_iff hf hl, fun e => ?_, fun e he => ?_⟩
    · exact (arithmeticOf_eq_error_iff hf hl).trans mapM_eq_error_iff
    · have hm := (arithmeticOf_eq_error_iff hf hl).mp he
      obtain ⟨-, u, -, -, -, hu⟩ := mapM_eq_error_iff.mp hm
      exact u.toNumber_eq_error hu

/-- Arguments whose sum wraps around: the greatest number, a text with a sign, and nested lists. -/
def coerced : List Value :=
  [.number Int64.maxValue, .string (.ofString "+7"), .list [.list [.number 5], .bool true]]

/-- Arguments of which the second is the first that stands for no number. -/
def refused : List Value := [.number 2, .list [.bool true], .list []]

theorem sums_and_products_coerced :
    2 ≤ coerced.length ∧
    (∀ u ∈ coerced, ∃ n, u.toNumber = .ok n) ∧
    arithmeticOf .add coerced.reverse = .ok (.number (Int64.minValue + 11)) ∧
    (∃ m, arithmeticOf .add (coerced.drop 1) = .ok m ∧
      arithmeticOf .add [.number Int64.maxValue, m] = .ok (.number (Int64.minValue + 11))) ∧
    (∃ m, arithmeticOf .add (coerced.drop 1) = .ok m ∧
      arithmeticOf .sub [.number 2, m] = .ok (.number (-10))) ∧
    ∀ op ∈ [Arithmetic.add, .mul, .sub],
      arithmeticOf op refused = .error (.typeMismatch (.ofString "number") (.bool true)) := by
  obtain ⟨totals, differences, failures⟩ := sums_and_products
  have hl : 2 ≤ coerced.length := by decide
  obtain ⟨hvalue, hperm, hgroup⟩ := totals .add List.sum .sum coerced hl
  have hv : arithmeticOf .add coerced = .ok (.number (Int64.minValue + 11)) :=
    (hvalue _).mpr ⟨[Int64.maxValue, 7, 5], .cons rfl (.cons rfl (.cons rfl .nil)), by decide⟩
  obtain ⟨hall, -, -⟩ := failures .add (by decide) coerced hl
  refine ⟨hl, hall.mp ⟨_, hv⟩, (hperm _ coerced.reverse_perm.symm _).mp hv, ?_, ?_, ?_⟩
  · exact hgroup [.number Int64.maxValue] _ [] _ rfl (by decide) (by decide) hv
  · exact (differences (.number 2) (coerced.drop 1) _ (by decide)).mp (by rfl)
  · intro op ho
    obtain ⟨-, hfirst, -⟩ := failures op ho refused (by decide)
    refine (hfirst _).mpr ⟨[.number 2], .list [.bool true], [.list []], rfl, ?_, rfl⟩
    simp [Value.toNumber]

end Arithmetic

end SmallScheme
