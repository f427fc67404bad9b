import Mathlib.Data.List.Basic
import SmallScheme.Machine.SpecialForm
import SmallScheme.Primitive.Compute
import SmallScheme.Proofs.Safety.Access

/-!
# Arguments and parts of forms, by number

The primitive procedures and the special forms once more, now as they get at their arguments: a
length is tested, and then the parts are taken by number, the tail of a dotted list is used, a
number is divided by another. `Guarded.effect_eq` and `Guarded.directive_eq` say that the tests
suffice.
-/

namespace SmallScheme

set_option autoImplicit false

namespace Value

/-- The elements of a list, or those before the tail of a dotted list; other values have none. -/
def cells : Value → List Value
  | .list items => items
  | .dotted items _ => items
  | _ => []

/-- The tail of a dotted list; other values have none. -/
def last? : Value → Option Value
  | .dotted _ last => some last
  | _ => none

end Value

namespace Guarded

section Coercions

/-- The number that a value stands for, by way of first elements. -/
def toNumber (v : Value) : Guarded (Except Error Int64) :=
  match v with
  | .number n => .ok (.ok n)
  | .string t =>
    match Decimal.int64? t with
    | some n => .ok (.ok n)
    | none => .ok (.error (.typeMismatch (.ofString "number") v))
  | .list items =>
    if 0 < items.length then
      match h : index items 0 with
      | .ok w =>
        have := List.sizeOf_lt_of_mem (mem_of_index h)
        toNumber w
      | .error hazard => .error hazard
    else .ok (.error (.typeMismatch (.ofString "number") v))
  | _ => .ok (.error (.typeMismatch (.ofString "number") v))

theorem toNumber_eq (v : Value) : toNumber v = .ok v.toNumber := by
  fun_induction toNumber v with
  | case1 n => rfl
  | case2 t n hn => simp only [Value.toNumber, hn]
  | case3 t hn => simp only [Value.toNumber, hn]
  | case4 items hl w hw hlt ih =>
    cases items with
    | nil => cases hl
    | cons v rest =>
      cases hw
      exact ih
  | case5 items hl hazard hi =>
    cases items with
    | nil => cases hl
    | cons v rest => cases hi
  | case6 items hl =>
    cases items with
    | nil => rfl
    | cons v rest => exact absurd (List.length_pos_of_mem List.mem_cons_self) hl
  | case7 v hn hs hl =>
    cases v with
    | number n => exact absurd rfl (hn n)
    | string t => exact absurd rfl (hs t)
    | list items => exact absurd rfl (hl items)
    | _ => rfl

def agree {α : Type} [DecidableEq α] (coerce : Value → Guarded (Except Error α)) (v w : Value) :
    Guarded Bool := do
  match ← coerce v with
  | .error _ => return false
  | .ok a =>
    match ← coerce w with
    | .error _ => return false
    | .ok b => return a = b

theorem agree_eq {α : Type} [DecidableEq α] {coerce : Value → Guarded (Except Error α)}
    {coerce' : Value → Except Error α} (h : ∀ v, coerce v = .ok (coerce' v)) (v w : Value) :
    agree coerce v w = .ok (Value.agree coerce' v w) := by
  unfold agree Value.agree
  rw [h v, ok_bind]
  cases coerce' v with
  | error e => rfl
  | ok a =>
    simp only [h w, ok_bind]
    cases coerce' w with
    | error e => rfl
    | ok b => rfl

end Coercions

section Sameness

mutual

/-- Whether two values are the same. The recursion is on the first; what it is compared with is
taken from the second. -/
def eqv : Value → Value → Guarded Bool
  | .list xs, w =>
    if w.kind = .list ∧ xs.length = w.cells.length then eqvFrom w.cells 0 xs else .ok false
  | .dotted xs x, w =>
    if w.kind = .dottedList ∧ xs.length = w.cells.length then do
      if ← eqvFrom w.cells 0 xs then
        let y ← present w.last?
        eqv x y
      else return false
    else .ok false
  | v, w => .ok (v.eqv w)

def eqvFrom (ys : List Value) (i : Nat) : List Value → Guarded Bool
  | [] => .ok true
  | x :: xs => do
    let y ← index ys i
    if ← eqv x y then eqvFrom ys (i + 1) xs else return false

end

theorem eqvItems_of_length_ne {xs ys : List Value} (h : xs.length ≠ ys.length) :
    Value.eqvItems xs ys = false := by
  cases he : Value.eqvItems xs ys with
  | false => rfl
  | true => exact absurd (congrArg List.length (Value.eq_of_eqvItems xs ys he)) h

mutual

theorem eqv_eq : (v w : Value) → eqv v w = .ok (v.eqv w)
  | .list xs, w => by
    cases w with
    | list ys =>
      by_cases h : xs.length = ys.length
      · simp [eqv, Value.kind, Value.cells, Value.eqv, h, eqvFrom_eq xs ys 0 h]
      · simp [eqv, Value.kind, Value.cells, Value.eqv, h, eqvItems_of_length_ne h]
    | _ => simp [eqv, Value.kind, Value.eqv]
  | .dotted xs x, w => by
    cases w with
    | dotted ys y =>
      by_cases h : xs.length = ys.length
      · simp only [eqv, Value.kind, Value.cells, Value.last?, Value.eqv, h, and_self, if_true,
          eqvFrom_eq xs ys 0 h, ok_bind, List.drop_zero, present_some, eqv_eq x y]
        cases Value.eqvItems xs ys <;> rfl
      · simp [eqv, Value.kind, Value.cells, Value.eqv, h, eqvItems_of_length_ne h]
    | _ => simp [eqv, Value.kind, Value.eqv]
  | .atom _, w | .number _, w | .string _, w | .char _, w | .bool _, w | .closure .., w
  | .primitive .., w => by simp [eqv]

theorem eqvFrom_eq : (xs ys : List Value) → (i : Nat) → xs.length + i = ys.length →
    eqvFrom ys i xs = .ok (Value.eqvItems xs (ys.drop i))
  | [], ys, i, h => by
    have hd : ys.drop i = [] := List.drop_eq_nil_of_le (by simp at h; omega)
    rw [eqvFrom, hd, Value.eqvItems]
  | x :: xs, ys, i, h => by
    rw [List.length_cons] at h
    have hi : i < ys.length := by omega
    rw [eqvFrom, index_eq (List.getElem?_eq_getElem hi), ok_bind, eqv_eq x, ok_bind,
      eqvFrom_eq xs ys (i + 1) (by omega), List.drop_eq_getElem_cons hi, Value.eqvItems]
    cases x.eqv ys[i] <;> rfl

end

def equal (v w : Value) : Guarded Bool := do
  if ← agree toNumber v w then return true
  if ← agree (fun v => .ok v.toBool) v w then return true
  if ← agree (fun v => .ok v.toText) v w then return true
  eqv v w

theorem equal_eq (v w : Value) : equal v w = .ok (v.equal w) := by
  simp only [equal, Value.equal, agree_eq toNumber_eq, agree_eq fun _ => rfl, ok_bind, eqv_eq]
  cases Value.agree Value.toNumber v w <;> cases Value.agree Value.toBool v w <;>
    cases Value.agree Value.toText v w <;> rfl

end Sameness

section Primitives

/-- One step of an arithmetic fold: the divisor is tested before the division is made. -/
def arithmeticStep (op : Arithmetic) (a b : Int64) : Guarded (Except Error Int64) :=
  match op with
  | .add => .ok (.ok (a + b))
  | .sub => .ok (.ok (a - b))
  | .mul => .ok (.ok (a * b))
  | .div =>
    if b = 0 then .ok (.error (.divideByZero op.name))
    else do return .ok (← divide a b)
  | .mod =>
    if b = 0 then .ok (.error (.divideByZero op.name))
    else do return .ok (← modulo a b)
  | .quotient =>
    if b = 0 then .ok (.error (.divideByZero op.name))
    else do
      let q ← divide a b
      let r ← modulo a b
      return .ok (if r ≠ 0 ∧ decide (a < 0) ≠ decide (b < 0) then q - 1 else q)

theorem arithmeticStep_eq (op : Arithmetic) (a b : Int64) :
    arithmeticStep op a b = .ok (op.step a b) := by
  by_cases hb : b = 0
  · cases op <;> simp [arithmeticStep, Arithmetic.step, hb]
  · cases op <;>
      simp [arithmeticStep, Arithmetic.step, Arithmetic.floorDiv, hb, divide_eq, modulo_eq]

def arithmeticFold (op : Arithmetic) (acc : Int64) : List Value → Guarded (Except Error Int64)
  | [] => .ok (.ok acc)
  | v :: vs =>
    andThen (toNumber v) fun b =>
      andThen (arithmeticStep op acc b) fun acc => arithmeticFold op acc vs

theorem arithmeticFold_eq (op : Arithmetic) (acc : Int64) (vs : List Value) :
    arithmeticFold op acc vs = .ok (op.fold acc vs) := by
  induction vs generalizing acc with
  | nil => rfl
  | cons v vs ih =>
    exact andThen_eq (toNumber_eq v) fun b =>
      andThen_eq (arithmeticStep_eq op acc b) fun acc => ih acc

/-- A function of one argument, which is the only one. -/
def withOne {α : Type} (fail : Error → α) (f : Value → Guarded α) (args : List Value) :
    Guarded α :=
  if args.length ≠ 1 then .ok (fail (arityError 1 args))
  else do
    let v ← index args 0
    f v

theorem withOne_eq {α : Type} {fail : Error → α} {f : Value → Guarded α} {g : List Value → α}
    (hone : ∀ v, f v = .ok (g [v]))
    (hother : ∀ args, args.length ≠ 1 → g args = fail (arityError 1 args)) (args : List Value) :
    withOne fail f args = .ok (g args) := by
  by_cases h : args.length = 1
  · obtain ⟨v, rfl⟩ := List.length_eq_one_iff.mp h
    exact hone v
  · rw [withOne, if_pos h, hother args h]

def withTwo (f : Value → Value → Guarded (Except Error Value)) (args : List Value) :
    Guarded (Except Error Value) :=
  if args.length ≠ 2 then .ok (.error (arityError 2 args))
  else do
    let v ← index args 0
    let w ← index args 1
    f v w

theorem withTwo_eq {f : Value → Value → Guarded (Except Error Value)}
    {g : List Value → Except Error Value} (htwo : ∀ v w, f v w = .ok (g [v, w]))
    (hother : ∀ args, args.length ≠ 2 → g args = .error (arityError 2 args)) (args : List Value) :
    withTwo f args = .ok (g args) := by
  by_cases h : args.length = 2
  · obtain ⟨v, w, rfl⟩ := List.length_eq_two.mp h
    exact htwo v w
  · rw [withTwo, if_pos h, hother args h]

def comparison {α : Type} (coerce : Value → Guarded (Except Error α)) (holds : α → α → Bool)
    (v w : Value) : Guarded (Except Error Value) :=
  andThen (coerce v) fun a => andThen (coerce w) fun b => .ok (.ok (.bool (holds a b)))

theorem comparison_eq {α : Type} {coerce : Value → Guarded (Except Error α)}
    {coerce' : Value → Except Error α} (h : ∀ v, coerce v = .ok (coerce' v))
    (holds : α → α → Bool) (args : List Value) :
    withTwo (comparison coerce holds) args = .ok (Primitive.comparison coerce' holds args) := by
  refine withTwo_eq (fun v w => ?_) (fun args hl => ?_) args
  · exact andThen_eq (h v) fun a => andThen_eq (h w) fun b => rfl
  · unfold Primitive.comparison
    split
    · exact absurd rfl hl
    · rfl

def first (pair : Value) : Guarded (Except Error Value) :=
  if (pair.kind = .list ∨ pair.kind = .dottedList) ∧ 0 < pair.cells.length then do
    let v ← index pair.cells 0
    return .ok v
  else .ok (.error (.typeMismatch (.ofString "pair") pair))

theorem first_eq (args : List Value) :
    withOne .error first args = .ok (Primitive.first args) := by
  refine withOne_eq (fun v => ?_) (fun args hl => ?_) args
  · cases v with
    | list items => cases items <;> rfl
    | dotted items last => cases items <;> rfl
    | _ => rfl
  · unfold Primitive.first
    split
    · exact absurd rfl hl
    · exact absurd rfl hl
    · exact absurd rfl hl
    · rfl

def remainder (pair : Value) : Guarded (Except Error Value) :=
  if pair.kind = .list ∧ 0 < pair.cells.length then do
    let rest ← sliceFrom pair.cells 1
    return .ok (.list rest)
  else if pair.kind = .dottedList ∧ pair.cells.length = 1 then do
    let last ← present pair.last?
    return .ok last
  else if pair.kind = .dottedList ∧ 1 < pair.cells.length then do
    let rest ← sliceFrom pair.cells 1
    let last ← present pair.last?
    return .ok (.dotted rest last)
  else .ok (.error (.typeMismatch (.ofString "pair") pair))

theorem remainder_eq (args : List Value) :
    withOne .error remainder args = .ok (Primitive.remainder args) := by
  refine withOne_eq (fun v => ?_) (fun args hl => ?_) args
  · cases v with
    | list items =>
      cases items with
      | nil => rfl
      | cons v items => simp [remainder, Value.kind, Value.cells, Primitive.remainder]
    | dotted items last =>
      cases items with
      | nil => rfl
      | cons v items =>
        cases items with
        | nil => rfl
        | cons w items =>
          simp [remainder, Value.kind, Value.cells, Value.last?, Primitive.remainder]
    | _ => rfl
  · unfold Primitive.remainder
    split
    · exact absurd rfl hl
    · exact absurd rfl hl
    · exact absurd rfl hl
    · exact absurd rfl hl
    · rfl

def pair (head tail : Value) : Guarded Value :=
  match tail.kind with
  | .list => .ok (.list (head :: tail.cells))
  | .dottedList => do
    let last ← present tail.last?
    return .dotted (head :: tail.cells) last
  | _ => .ok (.dotted [head] tail)

theorem pair_eq (head tail : Value) : pair head tail = .ok (Primitive.pair head tail) := by
  cases tail <;> rfl

/-- A primitive procedure that has a value for any two arguments. -/
theorem binary_eq {f : Value → Value → Guarded Value} {g : Value → Value → Value}
    (h : ∀ v w, f v w = .ok (g v w)) (args : List Value) :
    withTwo (fun v w => .ok <$> f v w) args = .ok (Primitive.binary g args) := by
  refine withTwo_eq (fun v w => ?_) (fun args hl => ?_) args
  · rw [h v w]
    rfl
  · unfold Primitive.binary
    split
    · exact absurd rfl hl
    · rfl

def arithmeticOf (op : Arithmetic) (args : List Value) : Guarded (Except Error Value) :=
  if args.length < 2 then .ok (.error (arityError 2 args))
  else do
    let v ← index args 0
    andThen (toNumber v) fun a => do
      let rest ← sliceFrom args 1
      andThen (arithmeticFold op a rest) fun n => .ok (.ok (.number n))

theorem arithmeticOf_eq (op : Arithmetic) (args : List Value) :
    arithmeticOf op args = .ok (Primitive.arithmeticOf op args) := by
  match args with
  | [] | [_] => rfl
  | v :: w :: vs =>
    have hl : ¬ (v :: w :: vs).length < 2 := by simp
    rw [arithmeticOf, if_neg hl, index_zero, ok_bind]
    refine andThen_eq (toNumber_eq v) fun a => ?_
    rw [sliceFrom_one, ok_bind]
    exact andThen_eq (arithmeticFold_eq op a (w :: vs)) fun n => rfl

def application (caller : Nat) (args : List Value) : Guarded Primitive.Effect :=
  if args.length < 2 then .ok (.result (.error (arityError 2 args)))
  else do
    let procedure ← index args 0
    let second ← index args 1
    if second.kind = .list then return .call caller procedure second.cells
    else
      let rest ← sliceFrom args 1
      return .call caller procedure rest

theorem application_eq (caller : Nat) (args : List Value) :
    application caller args = .ok (Primitive.application caller args) := by
  match args with
  | [] | [_] => rfl
  | procedure :: v :: vs =>
    have hl : ¬ (procedure :: v :: vs).length < 2 := by simp
    rw [application, if_neg hl]
    simp only [index_zero, index_one, sliceFrom_one, ok_bind]
    cases v <;> rfl

def onFile (effect : Text → Primitive.Effect) : Value → Guarded Primitive.Effect
  | .string file => .ok (effect file)
  | v => .ok (.result (.error (.typeMismatch (.ofString "string") v)))

theorem onFile_eq (effect : Text → Primitive.Effect) (args : List Value) :
    withOne (fun e => .result (.error e)) (onFile effect) args =
      .ok (Primitive.onFile effect args) := by
  refine withOne_eq (fun v => ?_) (fun args hl => ?_) args
  · cases v <;> rfl
  · unfold Primitive.onFile
    split
    · exact absurd rfl hl
    · exact absurd rfl hl
    · rfl

def effect (op : Primitive) (caller : Nat) (args : List Value) : Guarded Primitive.Effect :=
  match op with
  | .arithmetic op => .result <$> arithmeticOf op args
  | .compareNumbers rel => .result <$> withTwo (comparison toNumber rel.holds) args
  | .connective op => .result <$> withTwo (comparison (fun v => .ok v.toBool) op.holds) args
  | .compareTexts rel => .result <$> withTwo (comparison (fun v => .ok v.toText) rel.holds) args
  | .car => .result <$> withOne .error first args
  | .cdr => .result <$> withOne .error remainder args
  | .cons => .result <$> withTwo (fun v w => .ok <$> pair v w) args
  | .eq | .eqv => .result <$> withTwo (fun v w => .ok <$> (Value.bool <$> eqv v w)) args
  | .equal => .result <$> withTwo (fun v w => .ok <$> (Value.bool <$> equal v w)) args
  | .apply => application caller args
  | .readContents => withOne (fun e => .result (.error e)) (onFile (.contents caller)) args
  | .readAll => withOne (fun e => .result (.error e)) (onFile (.expressions caller)) args

/-- No primitive procedure goes wrong, whatever its arguments are. -/
theorem effect_eq (op : Primitive) (caller : Nat) (args : List Value) :
    effect op caller args = .ok (op.effect caller args) := by
  have hb {f : Value → Value → Guarded Bool} {g : Value → Value → Bool}
      (h : ∀ v w, f v w = .ok (g v w)) (v w : Value) :
      Value.bool <$> f v w = .ok (Value.bool (g v w)) := by
    rw [h v w]
    rfl
  cases op with
  | arithmetic op => rw [effect, arithmeticOf_eq]; rfl
  | compareNumbers rel => rw [effect, comparison_eq toNumber_eq]; rfl
  | connective op => rw [effect, comparison_eq fun _ => rfl]; rfl
  | compareTexts rel => rw [effect, comparison_eq fun _ => rfl]; rfl
  | car => rw [effect, first_eq]; rfl
  | cdr => rw [effect, remainder_eq]; rfl
  | cons => rw [effect, binary_eq pair_eq]; rfl
  | eq => rw [effect, binary_eq (hb eqv_eq)]; rfl
  | eqv => rw [effect, binary_eq (hb eqv_eq)]; rfl
  | equal => rw [effect, binary_eq (hb equal_eq)]; rfl
  | apply => exact application_eq caller args
  | readContents => exact onFile_eq (.contents caller) args
  | readAll => exact onFile_eq (.expressions caller) args

end Primitives

section SpecialForms

/-- The formals that a value spells. The names of a dotted list stand before its tail. -/
def formals (v : Value) : Guarded (Option Formals) :=
  match v.kind with
  | .atom => .ok (v.atomName?.map (.ofNames []))
  | .list => .ok ((v.cells.mapM Value.atomName?).map (.ofNames · []))
  | .dottedList =>
    match v.cells.mapM Value.atomName? with
    | none => .ok none
    | some params => do
      let last ← present v.last?
      return last.atomName?.map (.ofNames params)
  | _ => .ok none

theorem formals_eq (v : Value) : formals v = .ok (Formals.ofValue? v) := by
  cases v with
  | dotted items last =>
    simp only [formals, Value.kind, Value.cells, Value.last?, present_some, ok_bind]
    cases last with
    | atom rest =>
      cases hn : items.mapM Value.atomName? <;> simp [Formals.ofValue?, hn, Value.atomName?]
    | _ => cases items.mapM Value.atomName? <;> rfl
  | _ => rfl

/-- The definition of a procedure by the shape of its calls. -/
def procedure (head body : Value) : Guarded (Option Directive) :=
  if head.cells.length = 0 then .ok none
  else do
    match ← index head.cells 0 with
    | .atom name =>
      let rest ← sliceFrom head.cells 1
      if head.kind = .dottedList then
        let last ← present head.last?
        return (← formals (.dotted rest last)).map (.procedure name · body)
      else return (← formals (.list rest)).map (.procedure name · body)
    | _ => return none

def definition (head body : Value) : Guarded (Option Directive) :=
  match head.kind with
  | .atom => .ok (head.atomName?.map (.definition · body))
  | .list | .dottedList => procedure head body
  | _ => .ok none

theorem definition_eq (head body : Value) :
    definition head body = .ok (Directive.definition? head body) := by
  cases head with
  | list items =>
    cases items with
    | nil => rfl
    | cons v items =>
      cases v with
      | atom name =>
        cases hn : items.mapM Value.atomName? <;>
          simp [definition, procedure, Value.kind, Value.cells, formals_eq, Formals.ofValue?, hn,
            Directive.definition?]
      | _ => rfl
  | dotted items last =>
    cases items with
    | nil => rfl
    | cons v items =>
      cases v with
      | atom name =>
        cases last with
        | atom rest =>
          cases hn : items.mapM Value.atomName? <;>
            simp [definition, procedure, Value.kind, Value.cells, Value.last?, formals_eq,
              Formals.ofValue?, hn, Directive.definition?]
        | _ =>
          simp [definition, procedure, Value.kind, Value.cells, Value.last?, formals_eq,
            Formals.ofValue?, Directive.definition?]
      | _ => rfl
  | _ => rfl

/-- The special form that a form spells: its length is tested before its parts are taken. -/
def directive (special : SpecialForm) (form : Value) : Guarded (Option Directive) :=
  let cells := form.cells
  match special with
  | .quote =>
    if cells.length ≠ 2 then .ok none
    else do
      let v ← index cells 1
      return some (.quote v)
  | .conditional =>
    if cells.length ≠ 4 then .ok none
    else do
      let test ← index cells 1
      let whenTrue ← index cells 2
      let whenFalse ← index cells 3
      return some (.conditional test whenTrue whenFalse)
  | .assignment =>
    if cells.length ≠ 3 then .ok none
    else do
      let name ← index cells 1
      let body ← index cells 2
      return name.atomName?.map (.assignment · body)
  | .definition =>
    if cells.length ≠ 3 then .ok none
    else do
      let head ← index cells 1
      let body ← index cells 2
      definition head body
  | .lambda =>
    if cells.length ≠ 3 then .ok none
    else do
      let head ← index cells 1
      let body ← index cells 2
      return (← formals head).map (.lambda · body)
  | .load =>
    if cells.length ≠ 2 then .ok none
    else do
      match ← index cells 1 with
      | .string file => return some (.load file)
      | _ => return none

/-- No special form goes wrong, whatever its shape is. -/
theorem directive_eq (special : SpecialForm) (head : Value) (rest : List Value) :
    directive special (.list (head :: rest)) = .ok (Directive.ofArguments? special rest) := by
  match special, rest with
  | .quote, [] | .quote, [_] | .quote, _ :: _ :: _ => rfl
  | .conditional, [] | .conditional, [_] | .conditional, [_, _] | .conditional, [_, _, _]
  | .conditional, _ :: _ :: _ :: _ :: _ => rfl
  | .assignment, [] => rfl
  | .assignment, [v] | .assignment, [v, _] | .assignment, v :: _ :: _ :: _ => cases v <;> rfl
  | .definition, [] | .definition, [_] | .definition, _ :: _ :: _ :: _ => rfl
  | .definition, [head, body] => exact definition_eq head body
  | .lambda, [] | .lambda, [_] | .lambda, _ :: _ :: _ :: _ => rfl
  | .lambda, [spelled, body] =>
    have hb : index [head, spelled, body] 2 = .ok body := rfl
    simp [directive, Value.cells, hb, formals_eq, Directive.ofArguments?]
  | .load, [] => rfl
  | .load, [v] | .load, v :: _ :: _ => cases v <;> rfl

end SpecialForms

end Guarded

end SmallScheme
