import SmallScheme.Proofs.Environment.Scope
import SmallScheme.Proofs.Machine.Locality

/-!
# Where definitions take effect

A form is evaluated in one frame, and all that the machine puts aside for later is evaluated in the
frame where it stood, save for the bodies of procedures, which are evaluated in frames of their own.
So a run adds names to the frame that it begins in and to frames that it makes, and to no others; no
frame loses a name or comes to extend another frame.
-/

namespace SmallScheme

set_option autoImplicit false

variable {F : Nat → Prop}

/-- A frame as it may become in a run: it has the same parent, lists its names in the same order and
binds what it bound. There are new names, behind the others, and new bindings only if it is one of
those where definitions take effect. -/
structure Frame.Becomes (own : Prop) (g g' : Frame) : Prop where
  parent_eq : g'.parent = g.parent
  names_prefix : g.names <+: g'.names
  names_eq : ¬ own → g'.names = g.names
  binds : ∀ {name}, g.binds name = true → g'.binds name = true
  binds_eq : ¬ own → ∀ name, g'.binds name = g.binds name

namespace Frame.Becomes

variable {own : Prop} {g g' g'' : Frame}

theorem refl (own : Prop) (g : Frame) : g.Becomes own g :=
  ⟨rfl, List.prefix_rfl, fun _ => rfl, id, fun _ _ => rfl⟩

theorem trans (h : g.Becomes own g') (h' : g'.Becomes own g'') : g.Becomes own g'' where
  parent_eq := h'.parent_eq.trans h.parent_eq
  names_prefix := h.names_prefix.trans h'.names_prefix
  names_eq hn := (h'.names_eq hn).trans (h.names_eq hn)
  binds hb := h'.binds (h.binds hb)
  binds_eq hn name := (h'.binds_eq hn name).trans (h.binds_eq hn name)

theorem define (g : Frame) (name : Text) (v : Value) (h : own) :
    g.Becomes own (g.define name v) where
  parent_eq := g.parent_define name v
  names_prefix := by
    rw [g.names_define]
    split
    · exact List.prefix_rfl
    · exact List.prefix_append _ _
  names_eq hn := absurd h hn
  binds hb := by rw [g.binds_define, hb, Bool.or_true]
  binds_eq hn := absurd h hn

/-- An assignment to a name that is bound leaves the same names bound. -/
theorem assign (g : Frame) {name : Text} (v : Value) (h : g.binds name = true) :
    g.Becomes own (g.assign name v) where
  parent_eq := rfl
  names_prefix := List.prefix_rfl
  names_eq _ := rfl
  binds hb := by rw [g.binds_assign, hb, Bool.or_true]
  binds_eq _ other := by
    rw [g.binds_assign]
    by_cases ho : other = name <;> simp [ho, h]

end Frame.Becomes

namespace Store

variable {s s' s'' : Store}

/-- All frames of a store are still there in another, and names are new in frames of a set only. -/
def Becomes (F : Nat → Prop) (s s' : Store) : Prop :=
  ∀ (i : Nat) (g : Frame), s.frames[i]? = some g →
    ∃ g', s'.frames[i]? = some g' ∧ g.Becomes (F i) g'

theorem Becomes.refl (F : Nat → Prop) (s : Store) : s.Becomes F s :=
  fun _ g hg => ⟨g, hg, .refl _ g⟩

theorem Becomes.trans (h : s.Becomes F s') (h' : s'.Becomes F s'') : s.Becomes F s'' := by
  intro i g hg
  obtain ⟨g', hg', hb⟩ := h i g hg
  obtain ⟨g'', hg'', hb'⟩ := h' i g' hg'
  exact ⟨g'', hg'', hb.trans hb'⟩

/-- A frame in which no definition took effect is as it was, save for the values bound in it. -/
theorem Becomes.kept {i : Nat} {g : Frame} (h : s.Becomes (s.Since F) s')
    (hg : s.frames[i]? = some g) (hi : ¬ F i) :
    ∃ g', s'.frames[i]? = some g' ∧ g'.parent = g.parent ∧ g'.names = g.names ∧
      ∀ name, g'.binds name = g.binds name := by
  obtain ⟨g', hg', hc⟩ := h i g hg
  have hn : ¬ s.Since F i := by
    rintro (hi' | hi')
    · exact hi hi'
    · exact absurd (allocated_of_getElem? hg) (Nat.not_lt.mpr hi')
  exact ⟨g', hg', hc.parent_eq, hc.names_eq hn, hc.binds_eq hn⟩

/-- All that a step may do to the frames, where definitions take effect in frames of a set only. -/
inductive Change (F : Nat → Prop) (s s' : Store) : Prop where
  | same : s'.frames = s.frames → Change F s s'
  | assign {i : Nat} {name : Text} {v : Value} : s.binds i name = true →
      s'.frames = s.frames.modify i (·.assign name v) → Change F s s'
  | define {i : Nat} {name : Text} {v : Value} : F i →
      s'.frames = s.frames.modify i (·.define name v) → Change F s s'
  | allocate {f : Frame} : s'.frames = s.frames.push f → Change F s s'

theorem becomes_modify {i : Nat} {G : Frame → Frame}
    (h : ∀ g, s.frames[i]? = some g → g.Becomes (F i) (G g))
    (hs : s'.frames = s.frames.modify i G) : s.Becomes F s' := by
  intro j g hg
  rw [hs, Array.getElem?_modify, hg]
  split
  · rename_i hij
    subst hij
    exact ⟨_, rfl, h g hg⟩
  · exact ⟨g, rfl, .refl _ g⟩

namespace Change

variable (h : Change F s s')
include h

theorem size_le : s.frames.size ≤ s'.frames.size := by
  cases h with
  | same h => rw [h]
  | assign _ h => rw [h, Array.size_modify]
  | define _ h => rw [h, Array.size_modify]
  | allocate h =>
    rw [h, Array.size_push]
    exact Nat.le_succ _

theorem becomes : s.Becomes F s' := by
  cases h with
  | same h =>
    intro i g hg
    exact ⟨g, h ▸ hg, .refl _ g⟩
  | assign hb h =>
    refine becomes_modify (fun g hg => .assign g _ ?_) h
    rwa [binds_of_getElem? hg] at hb
  | define hi h => exact becomes_modify (fun g _ => .define g _ _ hi) h
  | allocate h =>
    intro i g hg
    have hi : i ≠ s.frames.size := Nat.ne_of_lt (allocated_of_getElem? hg)
    exact ⟨g, by rw [h, Array.getElem?_push, if_neg hi, hg], .refl _ g⟩

end Change

end Store

/-- What is done now is done in a frame of a set, if it is done in a frame. -/
def Control.ActsIn (F : Nat → Prop) : Control → Prop
  | .eval frame _ => F frame
  | .fetch frame _ .load => F frame
  | .fetch .. | .call .. | .result _ => True

/-- A task goes on in a frame of a set, if it goes on in a frame. -/
def Task.ActsIn (F : Nat → Prop) : Task → Prop
  | .branch frame _ _ | .assign frame _ | .define frame _ | .operator frame _ _
  | .operands frame _ _ _ _ | .sequence frame _ => F frame
  | .leave _ => True

namespace State

/-- The machine evaluates in frames of a set only, now and later. -/
def ActsIn (F : Nat → Prop) (s : State) : Prop :=
  s.control.ActsIn F ∧ ∀ t ∈ s.tasks, t.ActsIn F

/-- What the machine may come to from a world, where it evaluates in frames of a set only. -/
structure Moves (F : Nat → Prop) (w : World) (s : State) : Prop where
  change : w.store.Change F s.world.store
  acts : s.ActsIn F

variable {files : Files} {w w' : World} {s : State} {tasks : List Task} {task : Task}
  {caller frame : Nat} {name : Text} {v procedure form : Value} {args forms done todo : List Value}

theorem Moves.same (hw : s.world.store.frames = w.store.frames) (hs : s.ActsIn F) :
    s.Moves F w :=
  ⟨.same hw, hs⟩

theorem acts_cons (h : task.ActsIn F) (ht : ∀ t ∈ tasks, t.ActsIn F) :
    ∀ t ∈ task :: tasks, t.ActsIn F := by
  intro t hm
  rcases List.mem_cons.mp hm with rfl | hm
  · exact h
  · exact ht t hm

section Functions

variable (ht : ∀ t ∈ tasks, t.ActsIn F)
include ht

theorem moves_direct (hf : F frame) (d : Directive) : (direct frame d tasks w).Moves F w := by
  cases d with
  | quote v => exact .same rfl ⟨trivial, ht⟩
  | conditional test whenTrue whenFalse => exact .same rfl ⟨hf, acts_cons hf ht⟩
  | assignment name form => exact .same rfl ⟨hf, acts_cons hf ht⟩
  | definition name form => exact .same rfl ⟨hf, acts_cons hf ht⟩
  | procedure name formals body => exact ⟨.define hf rfl, trivial, ht⟩
  | lambda formals body => exact .same rfl ⟨trivial, ht⟩
  | load file => exact .same rfl ⟨hf, ht⟩

theorem moves_eval (hf : F frame) : (eval frame form tasks w).Moves F w := by
  cases form with
  | list items =>
    cases items with
    | nil => exact .same rfl ⟨trivial, ht⟩
    | cons head rest =>
      rw [eval]
      cases specialForm? head with
      | none => exact .same rfl ⟨hf, acts_cons hf ht⟩
      | some special =>
        dsimp only
        cases Directive.ofArguments? special rest with
        | none => exact .same rfl ⟨trivial, ht⟩
        | some d => exact moves_direct ht hf d
  | _ => exact .same rfl ⟨trivial, ht⟩

/-- The body of a closure is evaluated in a frame that is made for the call. -/
theorem moves_enter (hn : F w.store.frames.size) :
    (enter caller procedure args tasks w).Moves F w := by
  cases procedure with
  | primitive id op =>
    rw [enter]
    cases op.effect caller args with
    | result r => exact .same rfl ⟨trivial, ht⟩
    | call caller f args => exact .same rfl ⟨trivial, ht⟩
    | contents caller file => exact .same rfl ⟨trivial, ht⟩
    | expressions caller file => exact .same rfl ⟨trivial, ht⟩
  | closure id formals body captured =>
    rw [enter]
    cases arityFault? formals args with
    | some e => exact .same rfl ⟨trivial, ht⟩
    | none => exact ⟨.allocate rfl, hn, ht⟩
  | _ => exact .same rfl ⟨trivial, ht⟩

theorem moves_call (hn : F w.store.frames.size) :
    (call caller name procedure args tasks w).Moves F w := by
  unfold call
  split
  · split
    · exact .same rfl ⟨trivial, ht⟩
    · obtain ⟨trace, hw⟩ := w.exists_forget_eq
      rw [hw]
      obtain ⟨hc, ha⟩ := @moves_enter F (World.pushCall { w with trace := trace } name procedure)
        (.leave caller :: tasks) caller procedure args (acts_cons trivial ht) hn
      exact ⟨hc, ha⟩
  · exact .same rfl ⟨trivial, ht⟩

theorem moves_sequence (hf : F frame) (hw : w'.store.frames = w.store.frames) :
    (sequence frame forms tasks w').Moves F w := by
  cases forms with
  | nil => exact .same hw ⟨trivial, ht⟩
  | cons form todo => exact .same hw ⟨hf, acts_cons hf ht⟩

theorem moves_withExpressions {file contents : Text}
    {next : List Value → List Task → World → State}
    (hn : ∀ forms w', w'.store.frames = w.store.frames → (next forms tasks w').Moves F w) :
    (withExpressions file contents next tasks w).Moves F w := by
  unfold withExpressions
  dsimp only
  split
  · exact hn _ _ rfl
  · exact .same rfl ⟨trivial, ht⟩

/-- A file is loaded into the frame where the load stands. -/
theorem moves_fetch {file : Text} {use : FileUse} (hu : (Control.fetch caller file use).ActsIn F) :
    (fetch files caller file use tasks w).Moves F w := by
  unfold fetch
  split
  · exact .same rfl ⟨trivial, ht⟩
  · exact .same rfl ⟨trivial, ht⟩
  · split
    · exact .same rfl ⟨trivial, ht⟩
    · split
      · exact .same rfl ⟨trivial, ht⟩
      · exact moves_withExpressions ht fun forms w' hw => .same hw ⟨trivial, ht⟩
      · exact moves_withExpressions ht fun forms w' hw => moves_sequence ht hu hw

theorem moves_leave (r : Except Error Value) : (leave r tasks w).Moves F w := by
  cases r with
  | ok v => exact .same rfl ⟨trivial, ht⟩
  | error e =>
    obtain ⟨trace, hw⟩ := w.exists_note_eq
    rw [leave, hw]
    exact .same rfl ⟨trivial, ht⟩

theorem moves_apply (hf : F frame) : (apply frame name procedure done todo tasks w).Moves F w := by
  cases todo with
  | nil => exact .same rfl ⟨trivial, ht⟩
  | cons form todo => exact .same rfl ⟨hf, acts_cons hf ht⟩

theorem moves_resume (hs : task.ActsIn F) : (resume v task tasks w).Moves F w := by
  cases task with
  | branch frame whenTrue whenFalse => exact .same rfl ⟨hs, ht⟩
  | assign frame name =>
    rw [resume]
    cases ho : w.store.owner? frame name with
    | none => exact .same rfl ⟨trivial, ht⟩
    | some i =>
      exact ⟨.assign (Store.owner?_binds ho) rfl, trivial, ht⟩
  | define frame name => exact ⟨.define hs rfl, trivial, ht⟩
  | operator frame name todo => exact moves_apply ht hs
  | operands frame name procedure done todo => exact moves_apply ht hs
  | leave => exact moves_leave ht (.ok v)
  | sequence frame todo =>
    cases todo with
    | nil => exact .same rfl ⟨trivial, ht⟩
    | cons form todo => exact .same rfl ⟨hs, acts_cons hs ht⟩

theorem moves_unwind {e : Error} : (unwind e task tasks w).Moves F w := by
  cases task with
  | leave => exact moves_leave ht (.error e)
  | _ => exact .same rfl ⟨trivial, ht⟩

end Functions

theorem moves_step (hs : s.ActsIn F) (hn : F s.world.store.frames.size) :
    (s.step files).Moves F s.world := by
  obtain ⟨control, tasks, w⟩ := s
  obtain ⟨hc, ht⟩ := hs
  cases control with
  | eval frame form => exact moves_eval ht hc
  | call caller name procedure args => exact moves_call ht hn
  | fetch caller file use => exact moves_fetch ht hc
  | result r =>
    cases tasks with
    | nil => cases r <;> exact .same rfl ⟨trivial, ht⟩
    | cons task tasks =>
      have htasks : ∀ t ∈ tasks, t.ActsIn F := fun t hm => ht t (List.mem_cons_of_mem task hm)
      cases r with
      | ok v => exact moves_resume htasks (ht task List.mem_cons_self)
      | error e => exact moves_unwind htasks

theorem size_le_step (files : Files) (s : State) :
    s.world.store.frames.size ≤ (s.step files).world.store.frames.size := by
  have hs : s.ActsIn fun _ => True := by
    obtain ⟨control, tasks, w⟩ := s
    constructor
    · cases control with
      | fetch caller file use => cases use <;> trivial
      | _ => trivial
    · intro t _
      cases t <;> trivial
  exact (moves_step hs trivial).change.size_le

/-- A state of a run that began with the store `s₀`. It evaluates in frames of a set and in frames
made since, and the frames of the beginning are as they may have become. -/
structure Defining (F : Nat → Prop) (s₀ : Store) (s : State) : Prop where
  size_le : s₀.frames.size ≤ s.world.store.frames.size
  acts : s.ActsIn (s₀.Since F)
  becomes : s₀.Becomes (s₀.Since F) s.world.store

theorem Defining.step {s₀ : Store} (h : s.Defining F s₀) : (s.step files).Defining F s₀ := by
  obtain ⟨hc, ha⟩ := @moves_step (s₀.Since F) files s h.acts (.inr h.size_le)
  exact ⟨Nat.le_trans h.size_le hc.size_le, ha, h.becomes.trans hc.becomes⟩

/-- A run with nothing put aside defines names where it begins and in frames that it makes. -/
theorem becomes_of_run {control : Control} {fuel : Nat} {r : Except Error Value}
    (hc : control.ActsIn F) (h : run files fuel ⟨control, [], w⟩ = some (r, w')) :
    w.store.Becomes (w.store.Since F) w'.store := by
  have ha : control.ActsIn (w.store.Since F) := by
    cases control with
    | eval => exact .inl hc
    | fetch caller file use =>
      cases use with
      | load => exact .inl hc
      | contents | expressions => trivial
    | call | result => trivial
  have hs : (State.mk control [] w).Defining F w.store :=
    ⟨Nat.le_refl _, ⟨ha, nofun⟩, .refl _ _⟩
  exact (invariant_run (P := (·.Defining F w.store)) (fun _ => Defining.step) hs h).becomes

end State

namespace World

/-- An evaluation that finishes, however it ends, leaves every frame but its own with the names and
the parent that it had. To its own frame it may add names, behind those that were there. A call that
finishes leaves all frames with the names that they had, its caller's and the captured one too. -/
theorem names_of_eval {files : Files} {fuel : Nat} {w w' : World} {e : Nat} {form : Value}
    {r : Except Error Value} (h : w.eval files fuel e form = some (r, w')) :
    (∀ (i : Nat) (g : Frame), w.store.frames[i]? = some g → i ≠ e →
      ∃ g', w'.store.frames[i]? = some g' ∧ g'.parent = g.parent ∧ g'.names = g.names ∧
        ∀ name, g'.binds name = g.binds name) ∧
    (∀ g, w.store.frames[e]? = some g →
      ∃ g', w'.store.frames[e]? = some g' ∧ g'.parent = g.parent ∧ g.names <+: g'.names ∧
        ∀ name, g.binds name = true → g'.binds name = true) ∧
    ∀ (fuel caller : Nat) (name : Text) (procedure : Value) (args : List Value)
      (r : Except Error Value) (w' : World),
      State.run files fuel ⟨.call caller name procedure args, [], w⟩ = some (r, w') →
      ∀ (i : Nat) (g : Frame), w.store.frames[i]? = some g →
        ∃ g', w'.store.frames[i]? = some g' ∧ g'.parent = g.parent ∧ g'.names = g.names ∧
          ∀ name, g'.binds name = g.binds name := by
  have hc : (Control.eval e form).ActsIn (· = e) := rfl
  have hb := State.becomes_of_run hc h
  refine ⟨fun i g hg hi => hb.kept hg hi, fun g hg => ?_, ?_⟩
  · obtain ⟨g', hg', hg⟩ := hb e g hg
    exact ⟨g', hg', hg.parent_eq, hg.names_prefix, fun name => hg.binds⟩
  · intro fuel caller name procedure args r w' h i g hg
    have hc : (Control.call caller name procedure args).ActsIn fun _ => False := trivial
    exact (State.becomes_of_run hc h).kept hg not_false

/-- A frame that extends the root, and a form that defines a name as it calls a procedure, which
defines another and assigns to a variable of the root. -/
def extended : World where
  store :=
    { frames := #[(Frame.empty none).define (.ofString "x") (.number 1),
        (Frame.empty (some 0)).define (.ofString "y") (.number 2)]
      nextId := 0 }
  stack := .empty 0
  trace := none
  reader := none
  faithful := SymbolTable.faithful?_none

def definingCall : Value :=
  .list [.list [.atom (.ofString "lambda"), .list [.atom (.ofString "z")],
      .list [.atom (.ofString "if"),
        .list [.atom (.ofString "define"), .atom (.ofString "w"), .atom (.ofString "z")],
        .list [.atom (.ofString "set!"), .atom (.ofString "x"), .atom (.ofString "w")],
        .atom (.ofString "z")]],
    .list [.atom (.ofString "define"), .atom (.ofString "v"), .number 3]]

theorem names_of_definingCall :
    ∃ r w', extended.eval (fun _ => .ok []) 20 1 definingCall = some (r, w') ∧
      w'.store.get 1 (.ofString "x") = .ok (.number 3) ∧
      (∃ g, w'.store.frames[0]? = some g ∧ g.parent = none ∧ g.names = [.ofString "x"]) ∧
      ∃ g, w'.store.frames[1]? = some g ∧ g.parent = some 0 ∧ [.ofString "y"] <+: g.names := by
  have hv : (extended.eval (fun _ => .ok []) 20 1 definingCall).map
      (fun o => o.2.store.get 1 (.ofString "x")) = some (.ok (.number 3)) := by
    with_unfolding_all rfl
  obtain ⟨⟨r, w'⟩, he, hx⟩ := Option.map_eq_some_iff.mp hv
  obtain ⟨hother, hown, -⟩ := names_of_eval he
  obtain ⟨g, hg, hp, hn, -⟩ := hother 0 _ rfl (by decide)
  obtain ⟨g', hg', hp', hn', -⟩ := hown _ rfl
  exact ⟨r, w', he, hx, ⟨g, hg, hp, hn⟩, g', hg', hp', hn'⟩

end World

end SmallScheme
