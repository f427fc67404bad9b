import Mathlib.Data.List.Forall2
import SmallScheme.Proofs.Machine.Invariant

/-!
# Sameness as a congruence

Values that are the same cannot be told apart by what is written of them or by primitive procedures:
a call comes to the same value or fails with the same words. The procedure that applies others is
left aside, since a call of it need not end; calls of all others end after three steps of the
machine, whatever they are applied to.
-/

namespace SmallScheme

set_option autoImplicit false

/-- The kinds of errors that a caller can distinguish. -/
inductive Error.Kind where
  | parse | arity | typeMismatch | unbound | badForm | notApplicable | divideByZero | stackOverflow
  /-- A file that does not exist. -/
  | absent
  | other
  deriving DecidableEq, Repr

def Error.kind : Error → Error.Kind
  | .parse .. => .parse
  | .arity .. => .arity
  | .typeMismatch .. => .typeMismatch
  | .unbound .. => .unbound
  | .badForm .. => .badForm
  | .notApplicable _ => .notApplicable
  | .divideByZero _ => .divideByZero
  | .stackOverflow _ => .stackOverflow
  | .unavailable _ fault | .file fault => if fault.absent then .absent else .other
  | .noReader _ => .other

/-- Results that cannot be told apart: the same value, or errors of one kind in the same words. -/
inductive Indistinct : Except Error Value → Except Error Value → Prop where
  | ok {v w : Value} : v.eqv w = true → Indistinct (.ok v) (.ok w)
  | error {e e' : Error} : e.kind = e'.kind → e.message = e'.message →
      Indistinct (.error e) (.error e')

theorem Indistinct.refl (r : Except Error Value) : Indistinct r r := by
  cases r with
  | ok v => exact .ok v.eqv_self
  | error e => exact .error rfl rfl

theorem Value.eq_of_forall₂_eqv {vs ws : List Value}
    (h : List.Forall₂ (fun v w => Value.eqv v w = true) vs ws) : vs = ws := by
  induction h with
  | nil => rfl
  | cons hv _ ih => rw [eqv_iff.mp hv, ih]

namespace Primitive

/-- Only one primitive procedure calls others. -/
theorem effect_ne_call {op : Primitive} (h : op ≠ .apply) (caller caller' : Nat)
    (args : List Value) (procedure : Value) (more : List Value) :
    op.effect caller args ≠ .call caller' procedure more := by
  cases op with
  | apply => exact absurd rfl h
  | readContents | readAll =>
    simp only [effect, onFile]
    split <;> nofun
  | _ => exact nofun

end Primitive

namespace State

variable {files : Files} {caller : Nat} {tasks : List Task} {w : World}

theorem exists_fetch {file : Text} {use : FileUse} (h : use ≠ .load) :
    ∃ r w', fetch files caller file use tasks w = ⟨.result r, tasks, w'⟩ := by
  unfold fetch
  split
  · exact ⟨_, _, rfl⟩
  · exact ⟨_, _, rfl⟩
  · split
    · exact ⟨_, _, rfl⟩
    · split
      · exact ⟨_, _, rfl⟩
      · unfold withExpressions
        dsimp only
        split <;> exact ⟨_, _, rfl⟩
      · exact absurd rfl h

/-- The machine comes to a result after a number of steps. -/
def EndsAfter (files : Files) : Nat → State → Prop
  | 0, s => ∃ r w, s = ⟨.result r, [], w⟩
  | n + 1, s => EndsAfter files n (s.step files)

theorem endsAfter_final (files : Files) (n : Nat) (r : Except Error Value) (w : World) :
    EndsAfter files n ⟨.result r, [], w⟩ := by
  induction n with
  | zero => exact ⟨r, w, rfl⟩
  | succ n ih => cases r <;> exact ih

theorem endsAfter_leave (files : Files) (n caller : Nat) (r : Except Error Value) (w : World) :
    EndsAfter files (n + 1) ⟨.result r, [.leave caller], w⟩ := by
  cases r <;> exact endsAfter_final files n _ _

theorem EndsAfter.exists_run {n : Nat} {s : State} (h : EndsAfter files n s) :
    ∃ r w, ∀ fuel, run files (fuel + n) s = some (r, w) := by
  induction n generalizing s with
  | zero =>
    obtain ⟨r, w, rfl⟩ := h
    exact ⟨r, w, fun fuel => by simp only [run]⟩
  | succ n ih =>
    obtain ⟨r, w, hr⟩ := ih h
    exact ⟨r, w, fun fuel => by rw [← Nat.add_assoc, run_succ, hr]⟩

/-- What a primitive procedure does at once, or with a file, is over in two steps. -/
theorem endsAfter_effect {op : Primitive} (h : op ≠ .apply) (id : Nat) (args : List Value) :
    EndsAfter files 2 (enter caller (.primitive id op) args [.leave caller] w) := by
  rw [enter]
  cases he : op.effect caller args with
  | result r => exact endsAfter_leave files 1 caller r w
  | call caller' procedure more =>
    exact absurd he (Primitive.effect_ne_call h caller caller' args procedure more)
  | contents caller' file =>
    obtain ⟨r, w', hf⟩ := @exists_fetch files caller' [.leave caller] w file .contents (by simp)
    change EndsAfter files 1 (fetch files caller' file .contents [.leave caller] w)
    rw [hf]
    exact endsAfter_leave files 0 caller r w'
  | expressions caller' file =>
    obtain ⟨r, w', hf⟩ := @exists_fetch files caller' [.leave caller] w file .expressions (by simp)
    change EndsAfter files 1 (fetch files caller' file .expressions [.leave caller] w)
    rw [hf]
    exact endsAfter_leave files 0 caller r w'

end State

namespace World

/-- A call of a primitive procedure that calls no others ends after three steps. -/
theorem exists_apply_primitive {op : Primitive} (h : op ≠ .apply) (files : Files) (w : World)
    (caller id : Nat) (args : List Value) :
    ∃ r w', ∀ fuel, w.apply files (fuel + 3) caller (.primitive id op) args = some (r, w') := by
  apply State.EndsAfter.exists_run
  change State.EndsAfter files 2 (State.call caller [] (.primitive id op) args [] w)
  have hp : (Value.primitive id op).isProcedure = true := rfl
  unfold State.call
  rw [if_pos hp]
  split
  · exact State.endsAfter_final files 2 _ _
  · exact State.endsAfter_effect h id args

end World

namespace Value

/-- Sameness is an equivalence relation. Values that are the same are written alike, and are alike
for every primitive procedure but the one that applies others: in whatever world, with whatever
files, two calls with the same arguments end with the same value, or fail with errors of one kind
and in the same words. -/
theorem eqv_congruence :
    Equivalence (fun v w : Value => eqv v w = true) ∧
    (∀ v w : Value, eqv v w = true → v.render = w.render) ∧
    ∀ (files : Files) (world : World) (caller id : Nat) (op : Primitive) (vs ws : List Value),
      op ≠ .apply → List.Forall₂ (fun v w => eqv v w = true) vs ws →
      ∃ r r' world₁ world₂,
        (∀ fuel, world.apply files (fuel + 3) caller (.primitive id op) vs = some (r, world₁)) ∧
        (∀ fuel, world.apply files (fuel + 3) caller (.primitive id op) ws = some (r', world₂)) ∧
        Indistinct r r' := by
  refine ⟨⟨eqv_self, fun h => ?_, fun h h' => ?_⟩, fun v w h => ?_, ?_⟩
  · exact eqv_iff.mpr (eqv_iff.mp h).symm
  · exact eqv_iff.mpr ((eqv_iff.mp h).trans (eqv_iff.mp h'))
  · rw [eqv_iff.mp h]
  · intro files world caller id op vs ws hop h
    obtain rfl := eq_of_forall₂_eqv h
    obtain ⟨r, world', hr⟩ := world.exists_apply_primitive hop files caller id vs
    exact ⟨r, r, world', world', hr, hr, .refl r⟩

/-- Arguments that a division refuses: a list that begins with a pair, which ends in a closure. -/
def undivided : List Value :=
  [.string (.ofString "7"),
    .list [.dotted [.number 1] (.closure 40 ⟨[], some (.ofString "x")⟩ (.atom (.ofString "x")) 0)]]

theorem eqv_congruence_undivided :
    ∃ r r' world₁ world₂,
      (∀ fuel, (World.new {}).apply (fun _ => .ok []) (fuel + 3) World.root
        (.primitive 3 (.arithmetic .div)) undivided = some (r, world₁)) ∧
      (∀ fuel, (World.new {}).apply (fun _ => .ok []) (fuel + 3) World.root
        (.primitive 3 (.arithmetic .div)) undivided = some (r', world₂)) ∧
      Indistinct r r' := by
  refine eqv_congruence.2.2 _ _ World.root 3 (.arithmetic .div) _ _ (by decide) ?_
  exact .cons (by decide) (.cons (by decide) .nil)

end Value

end SmallScheme
