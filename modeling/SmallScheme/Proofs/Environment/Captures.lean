import SmallScheme.Primitive.Compute
import SmallScheme.Proofs.Reader.Readable

/-!
# Captured frames and procedures that occur

Procedures occur in a value at any depth, and a value refers to frames through the closures among
them. A `Domain` says to which frames and procedures something may refer. What the primitive
procedures make of values refers to nothing else, and what is read from a text refers to nothing.
-/

namespace SmallScheme

set_option autoImplicit false

/-- The frames that closures in a value capture. -/
inductive Value.Captures : Value → Nat → Prop where
  | frame {id : Nat} {formals : Formals} {body : Value} {k : Nat} :
      Captures (.closure id formals body k) k
  | body {id : Nat} {formals : Formals} {body : Value} {i k : Nat} :
      Captures body k → Captures (.closure id formals body i) k
  | item {vs : List Value} {v : Value} {k : Nat} :
      v ∈ vs → Captures v k → Captures (.list vs) k
  | initial {vs : List Value} {v last : Value} {k : Nat} :
      v ∈ vs → Captures v k → Captures (.dotted vs last) k
  | last {vs : List Value} {last : Value} {k : Nat} :
      Captures last k → Captures (.dotted vs last) k

/-- The procedures that occur in a value. -/
inductive Value.Contains : Value → Value → Prop where
  | closure {id : Nat} {formals : Formals} {body : Value} {k : Nat} :
      Contains (.closure id formals body k) (.closure id formals body k)
  | primitive {id : Nat} {op : Primitive} : Contains (.primitive id op) (.primitive id op)
  | body {id : Nat} {formals : Formals} {body p : Value} {k : Nat} :
      Contains body p → Contains (.closure id formals body k) p
  | item {vs : List Value} {v p : Value} : v ∈ vs → Contains v p → Contains (.list vs) p
  | initial {vs : List Value} {v last p : Value} :
      v ∈ vs → Contains v p → Contains (.dotted vs last) p
  | last {vs : List Value} {last p : Value} : Contains last p → Contains (.dotted vs last) p

/-- The frames and the procedures that something may refer to. With a procedure come the frames that
it captures. -/
structure Domain where
  frame : Nat → Prop
  procedure : Value → Prop
  captured : ∀ {p : Value} {k : Nat}, procedure p → p.Captures k → frame k

namespace Domain

variable {D E : Domain}

/-- All procedures that capture frames of a set. -/
def ofFrames (F : Nat → Prop) : Domain where
  frame := F
  procedure p := ∀ k, p.Captures k → F k
  captured h := h _

/-- A domain that has everything of another. -/
structure Le (D E : Domain) : Prop where
  frame : ∀ {i : Nat}, D.frame i → E.frame i
  procedure : ∀ {p : Value}, D.procedure p → E.procedure p

theorem Le.refl (D : Domain) : D.Le D := ⟨id, id⟩

theorem Le.trans {D' : Domain} (h : D.Le E) (h' : E.Le D') : D.Le D' :=
  ⟨fun hi => h'.frame (h.frame hi), fun hp => h'.procedure (h.procedure hp)⟩

theorem le_ofFrames {F : Nat → Prop} (h : ∀ i, D.frame i → F i) : D.Le (ofFrames F) :=
  ⟨h _, fun hp k hk => h k (D.captured hp hk)⟩

end Domain

namespace Value

/-- A value in which procedures of a domain occur and no others. -/
def Within (D : Domain) (v : Value) : Prop := ∀ p, v.Contains p → D.procedure p

variable {D E : Domain} {v p : Value} {vs : List Value} {k : Nat}

theorem Within.mono (h : v.Within D) (hle : D.Le E) : v.Within E :=
  fun p hp => hle.procedure (h p hp)

theorem Captures.contains (h : v.Captures k) : ∃ p, v.Contains p ∧ p.Captures k := by
  induction h with
  | frame => exact ⟨_, .closure, .frame⟩
  | body _ ih =>
    obtain ⟨p, hp, hk⟩ := ih
    exact ⟨p, .body hp, hk⟩
  | item hv _ ih =>
    obtain ⟨p, hp, hk⟩ := ih
    exact ⟨p, .item hv hp, hk⟩
  | initial hv _ ih =>
    obtain ⟨p, hp, hk⟩ := ih
    exact ⟨p, .initial hv hp, hk⟩
  | last _ ih =>
    obtain ⟨p, hp, hk⟩ := ih
    exact ⟨p, .last hp, hk⟩

theorem Contains.captures (h : v.Contains p) (hk : p.Captures k) : v.Captures k := by
  induction h with
  | closure | primitive => exact hk
  | body _ ih => exact .body (ih hk)
  | item hv _ ih => exact .item hv (ih hk)
  | initial hv _ ih => exact .initial hv (ih hk)
  | last _ ih => exact .last (ih hk)

theorem Within.captures (h : v.Within D) (hk : v.Captures k) : D.frame k := by
  obtain ⟨p, hp, hk⟩ := hk.contains
  exact D.captured (h p hp) hk

theorem within_ofFrames {F : Nat → Prop} :
    v.Within (.ofFrames F) ↔ ∀ k, v.Captures k → F k := by
  constructor
  · intro h k
    exact h.captures
  · intro h p hp k hk
    exact h k (hp.captures hk)

@[simp] theorem within_atom (name : Text) : (Value.atom name).Within D := nofun

@[simp] theorem within_number (n : Int64) : (Value.number n).Within D := nofun

@[simp] theorem within_string (t : Text) : (Value.string t).Within D := nofun

@[simp] theorem within_bool (b : Bool) : (Value.bool b).Within D := nofun

@[simp] theorem within_primitive {id : Nat} {op : Primitive} :
    (Value.primitive id op).Within D ↔ D.procedure (.primitive id op) := by
  constructor
  · intro h
    exact h _ .primitive
  · rintro h p (_ | _)
    exact h

@[simp] theorem within_list : (Value.list vs).Within D ↔ ∀ v ∈ vs, v.Within D := by
  constructor
  · intro h v hv p hp
    exact h p (.item hv hp)
  · rintro h p (_ | _ | _ | ⟨hv, hp⟩)
    exact h _ hv p hp

@[simp] theorem within_dotted {last : Value} :
    (Value.dotted vs last).Within D ↔ (∀ v ∈ vs, v.Within D) ∧ last.Within D := by
  constructor
  · intro h
    exact ⟨fun v hv p hp => h p (.initial hv hp), fun p hp => h p (.last hp)⟩
  · rintro ⟨hvs, hl⟩ p (_ | _ | _ | _ | ⟨hv, hp⟩ | hp)
    · exact hvs _ hv p hp
    · exact hl p hp

@[simp] theorem within_closure {id : Nat} {formals : Formals} {body : Value} :
    (Value.closure id formals body k).Within D ↔
      D.procedure (.closure id formals body k) ∧ body.Within D := by
  constructor
  · intro h
    exact ⟨h _ .closure, fun p hp => h p (.body hp)⟩
  · rintro ⟨hk, hb⟩ p (_ | _ | hp)
    · exact hk
    · exact hb p hp

/-- Texts denote no procedures. -/
theorem Readable.within {ok : Text → Prop} (h : v.Readable ok) : v.Within D := by
  induction h with
  | number | atom | string | bool => simp
  | char => exact nofun
  | list _ ih => exact within_list.mpr ih
  | dotted _ _ ih ih' => exact within_dotted.mpr ⟨ih, ih'⟩

end Value

/-- A result whose value, if there is one, refers to a domain. -/
def ResultWithin (D : Domain) (r : Except Error Value) : Prop := ∀ v, r = .ok v → v.Within D

theorem resultWithin_ok {D : Domain} {v : Value} (h : v.Within D) :
    ResultWithin D (.ok v) := by
  rintro _ ⟨⟩
  exact h

theorem resultWithin_error {D : Domain} (e : Error) : ResultWithin D (.error e) := nofun

namespace Reader

theorem within_readNamed {D : Domain} {symbols : Option SymbolTable} {name contents : Text}
    {vs : List Value} (hs : SymbolTable.Faithful? symbols)
    (h : (readNamed symbols name contents).1 = .ok vs) :
    ∀ v ∈ vs, v.Within D := by
  intro v hv
  exact (readable_of_readSource hs h v hv).within

end Reader

namespace Primitive

variable {D : Domain} {args : List Value}

/-- An effect whose values refer to a domain. -/
def Effect.Within (D : Domain) : Effect → Prop
  | .result r => ResultWithin D r
  | .call _ procedure args => procedure.Within D ∧ ∀ v ∈ args, v.Within D
  | .contents .. | .expressions .. => True

/-- A computation that succeeds has succeeded in each of its parts. -/
theorem exists_ok_of_bind {α β : Type} {x : Except Error α} {f : α → Except Error β} {b : β}
    (h : x >>= f = .ok b) : ∃ a, x = .ok a ∧ f a = .ok b := by
  cases x with
  | error e => cases h
  | ok a => exact ⟨a, rfl, h⟩

theorem within_arithmeticOf (op : Arithmetic) (args : List Value) :
    ResultWithin D (arithmeticOf op args) := by
  intro v h
  unfold arithmeticOf at h
  split at h
  · obtain ⟨a, -, h⟩ := exists_ok_of_bind h
    obtain ⟨n, -, h⟩ := exists_ok_of_bind h
    cases h
    exact Value.within_number n
  · cases h

theorem within_comparison {α : Type} (coerce : Value → Except Error α) (holds : α → α → Bool)
    (args : List Value) : ResultWithin D (comparison coerce holds args) := by
  intro v h
  unfold comparison at h
  split at h
  · obtain ⟨a, -, h⟩ := exists_ok_of_bind h
    obtain ⟨b, -, h⟩ := exists_ok_of_bind h
    cases h
    exact Value.within_bool _
  · cases h

section Pairs

variable (h : ∀ v ∈ args, v.Within D)
include h

theorem within_first : ResultWithin D (first args) := by
  unfold first
  split
  · refine resultWithin_ok ?_
    simp_all
  · refine resultWithin_ok ?_
    simp_all
  · exact resultWithin_error _
  · exact resultWithin_error _

theorem within_remainder : ResultWithin D (remainder args) := by
  unfold remainder
  split
  · refine resultWithin_ok ?_
    simp_all
  · refine resultWithin_ok ?_
    simp_all
  · refine resultWithin_ok ?_
    simp_all
  · exact resultWithin_error _
  · exact resultWithin_error _

theorem within_binary {f : Value → Value → Value}
    (hf : ∀ v w, v.Within D → w.Within D → (f v w).Within D) :
    ResultWithin D (binary f args) := by
  unfold binary
  split
  · exact resultWithin_ok (hf _ _ (h _ (by simp)) (h _ (by simp)))
  · exact resultWithin_error _

theorem within_application (caller : Nat) : (application caller args).Within D := by
  unfold application
  split
  · simp_all [Effect.Within]
  · simp_all [Effect.Within]
  · exact resultWithin_error _

end Pairs

theorem within_pair {v w : Value} (hv : v.Within D) (hw : w.Within D) : (pair v w).Within D := by
  unfold pair
  split
  · simp_all
  · simp_all
  · simp_all

theorem within_onFile {effect : Text → Effect} (h : ∀ file, (effect file).Within D)
    (args : List Value) : (onFile effect args).Within D := by
  unfold onFile
  split
  · exact h _
  · exact resultWithin_error _
  · exact resultWithin_error _

/-- Primitive procedures hand on the procedures that occur in their arguments, and no others. -/
theorem within_effect (op : Primitive) (caller : Nat) (h : ∀ v ∈ args, v.Within D) :
    (op.effect caller args).Within D := by
  cases op with
  | arithmetic op => exact within_arithmeticOf op args
  | compareNumbers => exact within_comparison _ _ args
  | connective => exact within_comparison _ _ args
  | compareTexts => exact within_comparison _ _ args
  | car => exact within_first h
  | cdr => exact within_remainder h
  | cons => exact within_binary h fun _ _ => within_pair
  | eq | eqv | equal => exact within_binary h fun _ _ _ _ => Value.within_bool _
  | apply => exact within_application h caller
  | readContents => exact @within_onFile D (.contents caller) (fun _ => trivial) args
  | readAll => exact @within_onFile D (.expressions caller) (fun _ => trivial) args

end Primitive

end SmallScheme
