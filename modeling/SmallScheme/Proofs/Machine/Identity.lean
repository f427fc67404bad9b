import SmallScheme.Proofs.Machine.Operations
import SmallScheme.Value.Equality

/-!
# Identities of procedures

A procedure carries an identity, and the store gives each identity once. A procedure is known if it
occurs in a bound value or in an earlier answer. Where operations are given no procedures but those
known, an identity belongs to one of them, so that `Value.eqv`, which compares procedures with all
their parts, tells them apart by their identities (`World.eqv_iff_identity_eq`). A procedure that was
made up outside could carry an identity that is taken.
-/

namespace SmallScheme

set_option autoImplicit false

/-- The identity of a procedure. -/
def Value.identity? : Value → Option Nat
  | .closure id _ _ _ | .primitive id _ => some id
  | _ => none

theorem Value.Contains.exists_identity {v p : Value} (h : v.Contains p) :
    ∃ i, p.identity? = some i := by
  induction h with
  | closure => exact ⟨_, rfl⟩
  | primitive => exact ⟨_, rfl⟩
  | body _ ih => exact ih
  | item _ _ ih => exact ih
  | initial _ _ ih => exact ih
  | last _ ih => exact ih

/-- The procedures of a domain have identities below a number, and no two have the same. -/
structure Domain.Identified (D : Domain) (n : Nat) : Prop where
  lt : ∀ {p : Value} {i : Nat}, D.procedure p → p.identity? = some i → i < n
  eq_of_identity : ∀ {p q : Value} {i : Nat}, D.procedure p → D.procedure q →
    p.identity? = some i → q.identity? = some i → p = q

/-- A procedure that takes the next number is told apart from the others. -/
theorem Domain.Identified.withProcedure {D : Domain} {n : Nat} {p : Value} (h : D.Identified n)
    (hp : ∀ k, p.Captures k → D.frame k) (hn : p.identity? = some n) :
    (D.withProcedure p hp).Identified (n + 1) := by
  have hself {i : Nat} (hi : p.identity? = some i) : i = n :=
    Option.some.inj (hi.symm.trans hn)
  constructor
  · rintro q i (hq | rfl) hi
    · exact Nat.lt_succ_of_lt (h.lt hq hi)
    · exact (hself hi).trans_lt (Nat.lt_succ_self n)
  · rintro q q' i (hq | rfl) (hq' | rfl) hi hi'
    · exact h.eq_of_identity hq hq' hi hi'
    · exact absurd (h.lt hq hi) (hself hi').not_lt
    · exact absurd (h.lt hq' hi') (hself hi).not_lt
    · rfl

namespace Store.Edit

variable {D D' : Domain} {s s' : Store}

/-- Whatever a step does to a store, identities are given once. -/
theorem identified (h : Edit D s D' s') (hd : D.Identified s.nextId) : D'.Identified s'.nextId := by
  induction h with
  | refl => exact hd
  | trans _ _ ih ih' => exact ih' (ih hd)
  | define => exact hd
  | assign => exact hd
  | allocate => exact ⟨hd.lt, hd.eq_of_identity⟩
  | makeClosure formals hk hb => exact hd.withProcedure _ rfl
  | makePrimitive op => exact hd.withProcedure _ rfl

/-- New frames come into the domain. -/
theorem frame_of_allocated (h : Edit D s D' s') (hd : ∀ i, s.Allocated i → D.frame i) :
    ∀ i, s'.Allocated i → D'.frame i := by
  induction h with
  | refl => exact hd
  | trans _ _ ih ih' => exact ih' (ih hd)
  | define =>
    intro i hi
    exact hd i (by simpa [Store.define, Allocated] using hi)
  | assign =>
    intro i hi
    exact hd i (by simpa [Store.assign, Allocated] using hi)
  | allocate =>
    intro i hi
    rw [Allocated, Store.allocate, Array.size_push] at hi
    rcases Nat.lt_succ_iff_lt_or_eq.mp hi with hi | rfl
    · exact .inl (hd i hi)
    · exact .inr rfl
  | makeClosure => exact hd
  | makePrimitive => exact hd

end Store.Edit

/-- The values that an operation is given. -/
def Operation.values : Operation → List Value
  | .eval _ form => [form]
  | .apply _ procedure args => procedure :: args
  | .set _ _ v | .define _ _ v => [v]
  | .bind _ _ args => args
  | .load .. | .loadFile .. | .get .. | .extend _ => []

def Operation.Answer.values : Operation.Answer → List Value
  | .result (.ok v) => [v]
  | _ => []

/-- An operation refers to the frames that have been made and to what occurs in its values. -/
theorem Operation.Admissible.within_of_values {D : Domain} {s : Store} {op : Operation}
    (h : op.Admissible s) (hd : ∀ i, s.Allocated i → D.frame i)
    (hv : ∀ v ∈ op.values, v.Within D) : op.Within D := by
  cases op with
  | eval frame form => exact ⟨hd frame h.1, hv form List.mem_cons_self⟩
  | apply frame procedure args =>
    exact ⟨hv procedure List.mem_cons_self, fun v hm => hv v (List.mem_cons_of_mem procedure hm)⟩
  | set frame name v => exact ⟨hd frame h.1, hv v List.mem_cons_self⟩
  | define frame name v => exact ⟨hd frame h.1, hv v List.mem_cons_self⟩
  | bind frame formals args => exact ⟨hd frame h.1, hv⟩
  | load frame | loadFile frame | get frame | extend frame => exact hd frame h

namespace World

variable {w : World} {answers : List Value} {p q : Value}

/-- The procedures that are known: those that occur in bound values and in answers. -/
inductive Knows (w : World) (answers : List Value) (p : Value) : Prop where
  | bound {i : Nat} {f : Frame} {name : Text} {v : Value} (hf : w.store.frames[i]? = some f)
    (hv : f.find? name = some v) (hp : v.Contains p) : Knows w answers p
  | answered {v : Value} (hv : v ∈ answers) (hp : v.Contains p) : Knows w answers p

/-- A world that operations lead to from a new one, and the values that they answered with. The
operations were given no procedures but those known. -/
inductive Served : World → List Value → Prop where
  | start (setup : Setup) : Served (World.new setup) []
  | step {w w' : World} {answers : List Value} {op : Operation} {reply : Operation.Answer}
      (files : Files) (fuel : Nat) : Served w answers → op.Admissible w.store →
      (∀ v ∈ op.values, ∀ p, v.Contains p → w.Knows answers p) →
      op.perform files fuel w = some (reply, w') → Served w' (reply.values ++ answers)

theorem Served.reachable (h : w.Served answers) : w.Reachable := by
  induction h with
  | start setup => exact .start setup
  | step files fuel _ ha _ hp ih => exact .step files fuel ih ha hp

/-- A domain to which all frames and all known procedures of a world belong. -/
structure Covers (D : Domain) (w : World) (answers : List Value) : Prop where
  closed : w.store.Closed D
  frame : ∀ i, w.store.Allocated i → D.frame i
  answered : ∀ v ∈ answers, v.Within D

theorem Covers.procedure {D : Domain} (h : Covers D w answers) (hp : w.Knows answers p) :
    D.procedure p := by
  cases hp with
  | answered hv hp => exact h.answered _ hv p hp
  | bound hf hv hp =>
    have hi := h.frame _ (Store.allocated_of_getElem? hf)
    exact (h.closed _ _ hi hf).values _ _ hv p hp

/-- What is known can be told apart, whatever operations have been carried out. -/
theorem Served.exists_covers (h : w.Served answers) :
    ∃ D, Covers D w answers ∧ D.Identified w.store.nextId := by
  induction h with
  | start setup =>
    let nothing : Domain := ⟨fun _ => False, fun _ => False, False.elim⟩
    obtain ⟨D, he⟩ := edit_new nothing setup
    refine ⟨D, ⟨he.closed nofun, he.frame_of_allocated ?_, nofun⟩, he.identified ⟨nofun, nofun⟩⟩
    intro i hi
    exact absurd hi (Nat.not_lt_zero i)
  | @step w w' answers op reply files fuel _ ha hv hp ih =>
    obtain ⟨D, hc, hd⟩ := ih
    have ho : op.Within D :=
      ha.within_of_values hc.frame fun v hm p hvp => hc.procedure (hv v hm p hvp)
    obtain ⟨D', he, hr⟩ := Operation.edit_perform hc.closed ho hp
    refine ⟨D', ⟨he.closed hc.closed, he.frame_of_allocated hc.frame, ?_⟩, he.identified hd⟩
    intro v hm
    rcases List.mem_append.mp hm with hm | hm
    · unfold Operation.Answer.values at hm
      split at hm
      · rw [List.mem_singleton.mp hm]
        exact hr _ rfl
      · cases hm
    · exact (hc.answered v hm).mono he.le

/-- Known procedures are the same if and only if they have the same identity. -/
theorem eqv_iff_identity_eq (h : w.Served answers) (hp : w.Knows answers p)
    (hq : w.Knows answers q) : p.eqv q = true ↔ p.identity? = q.identity? := by
  obtain ⟨D, hc, hd⟩ := h.exists_covers
  obtain ⟨i, hi⟩ : ∃ i, p.identity? = some i := by
    cases hp with
    | bound _ _ hp => exact hp.exists_identity
    | answered _ hp => exact hp.exists_identity
  rw [Value.eqv_iff]
  constructor
  · intro he
    rw [he]
  · intro he
    exact hd.eq_of_identity (hc.procedure hp) (hc.procedure hq) hi (he ▸ hi)

end World

end SmallScheme
