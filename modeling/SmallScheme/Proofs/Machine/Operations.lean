import SmallScheme.Proofs.Machine.Footprint

/-!
# Stores of whole runs

An environment is used by operations one after another: evaluations, calls, loads, and direct access
to frames. Whatever the operations were and however they ended, the store is well formed.
-/

namespace SmallScheme

set_option autoImplicit false

namespace State

variable {files : Files} {w w' : World} {s : State}

/-- A state that refers to frames of its well-formed store only. -/
def Sound (s : State) : Prop :=
  s.world.store.WellFormed ∧ s.Within s.world.store.domain

theorem Follows.sound (hw : w.store.WellFormed) (h : s.Follows w.store.domain w) :
    s.Sound := by
  obtain ⟨D, he, hs⟩ := h
  have hd := he.frame_allocated fun _ => id
  exact ⟨hw.edit he fun _ => id, hs.mono (Domain.le_ofFrames hd)⟩

theorem Sound.step (h : s.Sound) : (s.step files).Sound :=
  Follows.sound h.1 (follows_step h.1.closed h.2)

theorem follows_load {D : Domain} {frame : Nat} (hf : D.frame frame) (name contents : Text) :
    (withExpressions name contents (sequence frame) [] w).Follows D w := by
  apply follows_withExpressions within_nil
  intro forms w' hv he
  exact follows_sequence within_nil hf hv he

/-- A run only edits the store within what it refers to, and its value refers to what this has
become. -/
theorem Follows.run {D : Domain} {fuel : Nat} {r : Except Error Value} (hc : w.store.Closed D)
    (h : s.Follows D w) (hr : run files fuel s = some (r, w')) :
    ∃ D', w.store.Edit D D' w'.store ∧ ResultWithin D' r := by
  have hstep : ∀ t : State, t.Follows D w → (t.step files).Follows D w := by
    rintro t ⟨D₁, he, ht⟩
    obtain ⟨D₂, he', ht'⟩ : (t.step files).Follows D₁ t.world := follows_step (he.closed hc) ht
    exact ⟨D₂, he.trans he', ht'⟩
  obtain ⟨D', he, hw⟩ := invariant_run (P := (·.Follows D w)) hstep h hr
  exact ⟨D', he, hw.1⟩

end State

/-- An operation on an environment. -/
inductive Operation where
  | eval (frame : Nat) (form : Value)
  | apply (frame : Nat) (procedure : Value) (args : List Value)
  | load (frame : Nat) (name contents : Text)
  | loadFile (frame : Nat) (file : Text)
  | get (frame : Nat) (name : Text)
  | set (frame : Nat) (name : Text) (v : Value)
  | define (frame : Nat) (name : Text) (v : Value)
  /-- Makes a frame without bindings that extends another. -/
  | extend (frame : Nat)
  /-- Makes a frame that binds arguments. -/
  | bind (frame : Nat) (formals : Formals) (args : List Value)

inductive Operation.Answer where
  | result (r : Except Error Value)
  | frame (i : Nat)

namespace Operation

def ofOutcome (o : Option Outcome) : Option (Answer × World) := o.map fun o => (.result o.1, o.2)

/-- Carries out an operation; a new frame is answered by its number. -/
def perform (files : Files) (fuel : Nat) (w : World) : Operation → Option (Answer × World)
  | .eval frame form => ofOutcome (w.eval files fuel frame form)
  | .apply frame procedure args => ofOutcome (w.apply files fuel frame procedure args)
  | .load frame name contents => ofOutcome (w.load files fuel frame name contents)
  | .loadFile frame file => ofOutcome (w.loadFile files fuel frame file)
  | .get frame name => some (.result (w.store.get frame name), w)
  | .set frame name v =>
    match w.store.set frame name v with
    | .ok store => some (.result (.ok v), { w with store := store })
    | .error e => some (.result (.error e), w)
  | .define frame name v =>
    some (.result (.ok v), { w with store := w.store.define frame name v })
  | .extend frame =>
    let (i, store) := w.store.allocate (.empty (some frame))
    some (.frame i, { w with store := store })
  | .bind frame formals args =>
    let (i, store) := w.store.allocate (.ofArguments frame formals args)
    some (.frame i, { w with store := store })

/-- The frames that an operation names exist, and so do those that its values capture; there are
enough arguments to bind. -/
def Admissible (s : Store) : Operation → Prop
  | .eval frame form => s.Allocated frame ∧ form.Within s.domain
  | .apply frame procedure args =>
    s.Allocated frame ∧ procedure.Within s.domain ∧ ∀ v ∈ args, v.Within s.domain
  | .load frame _ _ | .loadFile frame _ | .get frame _ | .extend frame => s.Allocated frame
  | .set frame _ v | .define frame _ v => s.Allocated frame ∧ v.Within s.domain
  | .bind frame formals args => s.Allocated frame ∧ formals.params.length ≤ args.length ∧
      ∀ v ∈ args, v.Within s.domain

/-- An operation that refers to a domain only. -/
def Within (D : Domain) : Operation → Prop
  | .eval frame form => D.frame frame ∧ form.Within D
  | .apply _ procedure args => procedure.Within D ∧ ∀ v ∈ args, v.Within D
  | .load frame _ _ | .loadFile frame _ | .get frame _ | .extend frame => D.frame frame
  | .set frame _ v | .define frame _ v => D.frame frame ∧ v.Within D
  | .bind frame _ args => D.frame frame ∧ ∀ v ∈ args, v.Within D

theorem Admissible.within {s : Store} {op : Operation} (h : op.Admissible s) :
    op.Within s.domain := by
  cases op with
  | apply => exact h.2
  | bind => exact ⟨h.1, h.2.2⟩
  | _ => exact h

end Operation

/-- The worlds that operations lead to, from a new world on. -/
inductive World.Reachable : World → Prop where
  | start (setup : Setup) : Reachable (World.new setup)
  | step {w w' : World} {op : Operation} {reply : Operation.Answer} (files : Files) (fuel : Nat) :
      Reachable w → op.Admissible w.store → op.perform files fuel w = some (reply, w') →
      Reachable w'

def Operation.Answer.Within (D : Domain) : Operation.Answer → Prop
  | .result r => ResultWithin D r
  | .frame i => D.frame i

section Perform

variable {files : Files} {fuel : Nat} {w w' : World} {r : Except Error Value}

/-- What an operation does to a store that is well formed, where it refers to frames that have been
made and answers with what it has come to refer to. -/
theorem Store.Edit.sound {s s' : Store} {D : Domain} {reply : Operation.Answer}
    (h : Store.Edit s.domain s D s') (hw : s.WellFormed) (hr : reply.Within D) :
    s'.WellFormed ∧ reply.Within s'.domain := by
  have hle : D.Le s'.domain := Domain.le_ofFrames (h.frame_allocated fun _ => id)
  refine ⟨hw.edit h fun _ => id, ?_⟩
  cases reply with
  | result r => exact fun v hv => (hr v hv).mono hle
  | frame i => exact hle.frame hr

theorem Operation.exists_of_ofOutcome {o : Option Outcome} {reply : Operation.Answer}
    (h : ofOutcome o = some (reply, w')) : ∃ r, o = some (r, w') ∧ reply = .result r := by
  obtain ⟨⟨r, w₁⟩, hr, he⟩ := Option.map_eq_some_iff.mp h
  obtain ⟨rfl, rfl⟩ := Prod.mk.inj he
  exact ⟨r, hr, rfl⟩

/-- An operation only edits the store within what it refers to, and answers with what this has
become. -/
theorem Operation.edit_perform {D : Domain} {op : Operation} {reply : Operation.Answer}
    (hc : w.store.Closed D) (ho : op.Within D) (h : op.perform files fuel w = some (reply, w')) :
    ∃ D', w.store.Edit D D' w'.store ∧ reply.Within D' := by
  have hrun {s : State} (hs : s.Follows D w)
      (h : ofOutcome (State.run files fuel s) = some (reply, w')) :
      ∃ D', w.store.Edit D D' w'.store ∧ reply.Within D' := by
    obtain ⟨r, hr, rfl⟩ := exists_of_ofOutcome h
    exact hs.run hc hr
  have hstart {c : Control} (hs : c.Within D) : (State.mk c [] w).Follows D w :=
    .same rfl ⟨hs, State.within_nil⟩
  cases op with
  | eval frame form => exact @hrun ⟨.eval frame form, [], w⟩ (hstart ho) h
  | apply caller procedure args => exact @hrun ⟨.call caller [] procedure args, [], w⟩ (hstart ho) h
  | loadFile frame file => exact @hrun ⟨.fetch frame file .load, [], w⟩ (hstart ho) h
  | load frame name contents =>
    simp only [perform, World.load] at h
    split at h
    · obtain ⟨rfl, rfl⟩ := Prod.mk.inj (Option.some.inj h)
      exact ⟨D, .refl D _, resultWithin_error _⟩
    · exact hrun (State.follows_load ho name contents) h
  | get frame name =>
    obtain ⟨rfl, rfl⟩ := Prod.mk.inj (Option.some.inj h)
    exact ⟨D, .refl D _, hc.get ho⟩
  | set frame name v =>
    simp only [perform, Store.set] at h
    cases hj : w.store.owner? frame name with
    | none =>
      rw [hj] at h
      obtain ⟨rfl, rfl⟩ := Prod.mk.inj (Option.some.inj h)
      exact ⟨D, .refl D _, resultWithin_error _⟩
    | some j =>
      rw [hj] at h
      obtain ⟨rfl, rfl⟩ := Prod.mk.inj (Option.some.inj h)
      exact ⟨D, .assign (hc.owner? ho.1 hj) (Store.owner?_binds hj) ho.2, resultWithin_ok ho.2⟩
  | define frame name v =>
    obtain ⟨rfl, rfl⟩ := Prod.mk.inj (Option.some.inj h)
    exact ⟨D, .define name ho.1 ho.2, resultWithin_ok ho.2⟩
  | extend frame =>
    obtain ⟨rfl, rfl⟩ := Prod.mk.inj (Option.some.inj h)
    exact ⟨_, .allocate (Frame.within_empty ho) (Frame.consistent_empty _), .inr rfl⟩
  | bind frame formals args =>
    obtain ⟨rfl, rfl⟩ := Prod.mk.inj (Option.some.inj h)
    have hf : (Frame.ofArguments frame formals args).Within D :=
      Frame.within_ofArguments ho.1 ho.2
    exact ⟨_, .allocate hf (Frame.consistent_ofArguments _ _ _), .inr rfl⟩

/-- An operation keeps the store well formed, and answers with frames of the store. -/
theorem Operation.sound_perform {op : Operation} {reply : Operation.Answer}
    (hw : w.store.WellFormed) (ha : op.Admissible w.store)
    (h : op.perform files fuel w = some (reply, w')) :
    w'.store.WellFormed ∧ reply.Within w'.store.domain := by
  obtain ⟨D, he, hr⟩ := edit_perform hw.closed ha.within h
  exact he.sound hw hr

end Perform

section Start

/-- Binding primitive procedures to their names is one definition after another. -/
theorem Store.Edit.addPrimitives {D : Domain} {s : Store} {i : Nat} (hi : D.frame i)
    (ops : List Primitive) : ∃ D', Store.Edit D s D' (s.addPrimitives i ops).1 := by
  induction ops generalizing s D with
  | nil => exact ⟨D, .refl D s⟩
  | cons op ops ih =>
    rw [Store.addPrimitives]
    split
    · exact ⟨D, .refl D s⟩
    · have hm := Store.Edit.makePrimitive (D := D) (s := s) op
      have hv : (Value.primitive s.nextId op).Within
          (D.withProcedure (.primitive s.nextId op) nofun) :=
        Value.within_primitive.mpr (.inr rfl)
      obtain ⟨D', h⟩ := ih (hm.le.frame hi)
      exact ⟨D', hm.trans (.trans (.define op.name (hm.le.frame hi) hv) h)⟩

/-- A new world is made from nothing by edits. -/
theorem World.edit_new (D : Domain) (setup : Setup) :
    ∃ D', Store.empty.Edit D D' (new setup).store := by
  have hf : (Frame.empty none).Within D := ⟨nofun, nofun⟩
  have hroot := Store.Edit.allocate (s := .empty) hf (Frame.consistent_empty none)
  have hi : (D.withFrame 0).frame 0 := .inr rfl
  unfold new
  dsimp only
  split
  · obtain ⟨D', h⟩ := Store.Edit.addPrimitives hi Primitive.all
    exact ⟨D', hroot.trans h⟩
  · exact ⟨_, hroot⟩

theorem World.wellFormed_new (setup : Setup) : (new setup).store.WellFormed := by
  have he : Store.empty.WellFormed := by
    constructor <;> simp [Store.empty]
  obtain ⟨D, h⟩ := edit_new Store.empty.domain setup
  exact he.edit h fun _ => id

end Start

theorem World.Reachable.wellFormed {w : World} (h : w.Reachable) : w.store.WellFormed := by
  induction h with
  | start setup => exact World.wellFormed_new setup
  | step files fuel _ ha hp ih => exact (Operation.sound_perform ih ha hp).1

/-- Whatever operations have been carried out: every frame lists the names that it binds, each once;
it extends a frame made before it, so that chains of frames end; and closures, in bound values and
in answers, capture frames that have been made. -/
theorem store_of_reachable {w : World} (h : w.Reachable) :
    (∀ (i : Nat) (f : Frame), w.store.frames[i]? = some f →
      f.names.Nodup ∧ (∀ name, name ∈ f.names ↔ f.binds name = true) ∧
      (∀ p, f.parent = some p → p < i) ∧
      ∀ name v, f.find? name = some v → ∀ k, v.Captures k → k < w.store.frames.size) ∧
    (WellFounded fun p i : Nat => ∃ f : Frame, w.store.frames[i]? = some f ∧ f.parent = some p) ∧
    (∀ (i : Nat) (f : Frame), w.store.frames[i]? = some f →
      w.store.path i = i :: f.parent.elim [] w.store.path) ∧
    ∀ (files : Files) (fuel : Nat) (op : Operation) (v : Value) (w' : World),
      op.Admissible w.store → op.perform files fuel w = some (.result (.ok v), w') →
      ∀ k, v.Captures k → k < w'.store.frames.size := by
  have hw := h.wellFormed
  refine ⟨fun i f hf => ?_, hw.wellFounded, fun i f => hw.path_eq, ?_⟩
  · obtain ⟨hn, hm⟩ := hw.consistent i f hf
    refine ⟨hn, hm, fun p => hw.parent_lt i f p hf, fun name v hv k hk => ?_⟩
    exact (hw.captured i f hf name v hv).captures hk
  · intro files fuel op v w' ha hp k hk
    exact ((Operation.sound_perform hw ha hp).2 v rfl).captures hk

theorem store_of_reachable_lambda :
    ∃ w', Operation.perform (fun _ => .ok []) 1 (World.new { primitives := false })
        (.eval 0 (.list [.atom (.ofString "lambda"), .atom (.ofString "x"),
          .atom (.ofString "x")])) =
      some (.result (.ok (.closure 0 ⟨[], some (.ofString "x")⟩ (.atom (.ofString "x")) 0)), w') ∧
      0 < w'.store.frames.size := by
  refine ⟨_, rfl, ?_⟩
  refine (store_of_reachable (.start { primitives := false })).2.2.2 (fun _ => .ok []) 1
    (.eval 0 (.list [.atom (.ofString "lambda"), .atom (.ofString "x"), .atom (.ofString "x")]))
    _ _ ⟨Nat.zero_lt_one, by simp⟩ rfl 0 .frame

end SmallScheme
