import SmallScheme.Proofs.Machine.Footprint

/-!
# Locality of effects

Evaluation can come to the frame that it begins in and to those that its form captures, and from
each of them to the frame that it extends and to those that its bindings capture. All other frames
are out of reach: a run that adds frames and changes bindings on its way never puts a frame of the
beginning within reach that was not, and leaves it as it was.
-/

namespace SmallScheme

set_option autoImplicit false

namespace Store

variable {F : Nat → Prop} {s s' : Store} {frame i : Nat} {form : Value}

/-- The frames within reach of a form that is evaluated in a frame. -/
inductive Reach (s : Store) (frame : Nat) (form : Value) : Nat → Prop where
  | start : Reach s frame form frame
  | captured {k : Nat} : form.Captures k → Reach s frame form k
  | parent {i p : Nat} {f : Frame} : Reach s frame form i → s.frames[i]? = some f →
      f.parent = some p → Reach s frame form p
  | bound {i k : Nat} {f : Frame} {name : Text} {v : Value} : Reach s frame form i →
      s.frames[i]? = some f → f.find? name = some v → v.Captures k → Reach s frame form k

theorem closed_reach (s : Store) (frame : Nat) (form : Value) :
    s.Closed (.ofFrames (s.Reach frame form)) := by
  intro i f hi hf
  constructor
  · intro p hp
    exact .parent hi hf hp
  · intro name v hv
    exact Value.within_ofFrames.mpr fun k hk => .bound hi hf hv hk

/-- No closed set is smaller. -/
theorem Reach.least {D : Domain} (hc : s.Closed D) (hf : D.frame frame) (hv : form.Within D)
    (h : s.Reach frame form i) : D.frame i := by
  induction h with
  | start => exact hf
  | captured hk => exact hv.captures hk
  | parent _ hi hp ih => exact (hc _ _ ih hi).parent _ hp
  | bound _ hi hb hk ih => exact ((hc _ _ ih hi).values _ _ hb).captures hk

theorem Edit.frame_eq {D D' : Domain} (h : Edit D s D' s') (ha : s.Allocated i)
    (hn : ¬ D.frame i) : s'.frames[i]? = s.frames[i]? := by
  induction h with
  | refl | makeClosure | makePrimitive => rfl
  | @trans D D' D'' s s' s'' h _ ih ih' =>
    -- a frame that was there before does not come into the domain
    have hn' : ¬ D'.frame i := by
      intro hi
      rcases h.frame_cases hi with hi | ⟨hle, -⟩
      · exact hn hi
      · exact absurd ha (Nat.not_lt.mpr hle)
    rw [ih' (h.allocated ha) hn', ih ha hn]
  | @define D s j v name hj _ =>
    have hne : j ≠ i := by
      rintro rfl
      exact hn hj
    rw [Store.define, Array.getElem?_modify, if_neg hne]
  | @assign D s j name v hj _ _ =>
    have hne : j ≠ i := by
      rintro rfl
      exact hn hj
    rw [Store.assign, Array.getElem?_modify, if_neg hne]
  | @allocate D s f _ _ =>
    have hne : i ≠ s.frames.size := Nat.ne_of_lt ha
    rw [Store.allocate, Array.getElem?_push, if_neg hne]

/-- The frames of a set, and all that are made after the store. -/
def Since (F : Nat → Prop) (s : Store) (i : Nat) : Prop := F i ∨ s.frames.size ≤ i

theorem le_since {s₀ : Store} {D : Domain} (h : s₀.frames.size ≤ s.frames.size)
    (he : Edit (.ofFrames (Since F s₀)) s D s') : D.Le (.ofFrames (Since F s₀)) := by
  apply Domain.le_ofFrames
  intro i hi
  rcases he.frame_cases hi with hi | ⟨hle, -⟩
  · exact hi
  · exact .inr (Nat.le_trans h hle)

end Store

namespace State

variable {files : Files} {F : Nat → Prop} {s₀ : Store} {s : State}

/-- A state of a run that began with the store `s₀`. It refers to frames of a set and to frames made
since, and every other frame is as it was. -/
structure Confined (F : Nat → Prop) (s₀ : Store) (s : State) : Prop where
  size_le : s₀.frames.size ≤ s.world.store.frames.size
  closed : s.world.store.Closed (.ofFrames (s₀.Since F))
  within : s.Within (.ofFrames (s₀.Since F))
  frame_eq : ∀ i, s₀.Allocated i → ¬ F i → s.world.store.frames[i]? = s₀.frames[i]?

theorem confined_start {control : Control} {w : World} (hc : w.store.Closed (.ofFrames F))
    (hw : control.Within (.ofFrames F)) : (State.mk control [] w).Confined F w.store := by
  have hle : (Domain.ofFrames F).Le (.ofFrames (w.store.Since F)) :=
    Domain.le_ofFrames fun i hi => .inl hi
  refine ⟨Nat.le_refl _, ?_, ⟨hw.mono hle, within_nil⟩, fun _ _ _ => rfl⟩
  rintro i f (hf | hf) hg
  · exact (hc i f hf hg).mono hle
  · exact absurd (Store.allocated_of_getElem? hg) (Nat.not_lt.mpr hf)

theorem Confined.step (h : s.Confined F s₀) : (s.step files).Confined F s₀ := by
  obtain ⟨D, he, hw⟩ : (s.step files).Follows (.ofFrames (s₀.Since F)) s.world :=
    follows_step h.closed h.within
  -- Frames that the step adds count as made since, so the set does not grow.
  have hle := Store.le_since h.size_le he
  have hw := hw.mono hle
  have hc : (s.step files).world.store.Closed (.ofFrames (s₀.Since F)) := by
    intro i f hi hf
    exact ((he.closed h.closed) i f (he.le.frame hi) hf).mono hle
  refine ⟨Nat.le_trans h.size_le he.size_le, hc, hw, fun i ha hn => ?_⟩
  have hs : ¬ s₀.Since F i := by
    rintro (hi | hi)
    · exact hn hi
    · exact absurd ha (Nat.not_lt.mpr hi)
  rw [he.frame_eq (Nat.lt_of_lt_of_le ha h.size_le) hs]
  exact h.frame_eq i ha hn

end State

namespace World

/-- An evaluation that finishes, however it ends, has changed no frame out of its reach. -/
theorem frame_of_not_reach {files : Files} {fuel : Nat} {w w' : World} {frame : Nat}
    {form : Value} {r : Except Error Value} (h : w.eval files fuel frame form = some (r, w'))
    {i : Nat} (ha : i < w.store.frames.size) (hn : ¬ w.store.Reach frame form i) :
    w'.store.frames[i]? = w.store.frames[i]? := by
  have hs : (State.mk (.eval frame form) [] w).Confined (w.store.Reach frame form) w.store := by
    apply State.confined_start (w.store.closed_reach frame form)
    exact ⟨.start, Value.within_ofFrames.mpr fun k => .captured⟩
  have hr := State.invariant_run (P := (·.Confined (w.store.Reach frame form) w.store))
    (fun _ => State.Confined.step) hs h
  exact hr.frame_eq i ha hn

/-- Two switches in frames of their own, of which a name of the root frame reaches the first. -/
def switches : World where
  store :=
    { frames := #[
        (Frame.empty none).define (.ofString "on") (.closure 0 ⟨[], none⟩
          (.list [.atom (.ofString "set!"), .atom (.ofString "lit"), .bool true]) 1),
        (Frame.empty (some 0)).define (.ofString "lit") (.bool false),
        (Frame.empty (some 0)).define (.ofString "lit") (.bool false)]
      nextId := 1 }
  stack := .empty 0
  trace := none
  reader := none
  faithful := SymbolTable.faithful?_none

theorem frame_of_not_reach_switch :
    ∃ r w', switches.eval (fun _ => .ok []) 9 0 (.list [.atom (.ofString "on")]) = some (r, w') ∧
      w'.store.frames[1]?.bind (·.find? (.ofString "lit")) = some (.bool true) ∧
      w'.store.frames[2]? = switches.store.frames[2]? := by
  have hv : (switches.eval (fun _ => .ok []) 9 0 (.list [.atom (.ofString "on")])).map
      (fun o => o.2.store.frames[1]?.bind (·.find? (.ofString "lit"))) =
        some (some (.bool true)) := by
    -- Lookup follows a path of frames by well-founded recursion, which plain `rfl` does not unfold.
    with_unfolding_all rfl
  obtain ⟨⟨r, w'⟩, he, hl⟩ := Option.map_eq_some_iff.mp hv
  have hc : switches.store.Closed (.ofFrames (· < 2)) := by
    have hvalue {body : Value} (hb : body.Within (.ofFrames (· < 2))) :
        (Value.closure 0 ⟨[], none⟩ body 1).Within (.ofFrames (· < 2)) :=
      Value.within_ofFrames.mpr (Domain.captured_closure (show 1 < 2 by decide) hb)
    have hroot : (Frame.empty none).Within (.ofFrames (· < 2)) := ⟨nofun, nofun⟩
    have hswitch : (Frame.empty (some 0)).Within (.ofFrames (· < 2)) :=
      Frame.within_empty (show 0 < 2 by decide)
    intro i f hi hf
    change i < 2 at hi
    obtain rfl | rfl : i = 0 ∨ i = 1 := by omega
    · obtain rfl := Option.some.inj hf
      exact hroot.define (hvalue (by simp)) _
    · obtain rfl := Option.some.inj hf
      exact hswitch.define (Value.within_bool _) _
  have hn : ¬ switches.store.Reach 0 (.list [.atom (.ofString "on")]) 2 := by
    intro h
    have h2 : 2 < 2 := h.least hc (show 0 < 2 by decide) (by simp)
    omega
  exact ⟨r, w', he, hl, frame_of_not_reach he (by decide) hn⟩

end World

end SmallScheme
