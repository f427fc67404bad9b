import SmallScheme.Proofs.Environment.WellFormed
import SmallScheme.Proofs.Machine.Invariant

/-!
# The footprint of a step

A state refers to frames by number, directly and through closures, and to the procedures that occur
in its values. A step from a state that refers to a closed domain only edits the store within that
domain, and leads to a state that refers to the domain and to the frame or the procedure that the
step makes.
-/

namespace SmallScheme

set_option autoImplicit false

variable {D E : Domain}

section Parts

def Control.Within (D : Domain) : Control → Prop
  | .eval frame form => D.frame frame ∧ form.Within D
  | .call _ _ procedure args => procedure.Within D ∧ ∀ v ∈ args, v.Within D
  | .fetch frame _ .load => D.frame frame
  | .fetch .. => True
  | .result r => ResultWithin D r

def Task.Within (D : Domain) : Task → Prop
  | .branch frame whenTrue whenFalse => D.frame frame ∧ whenTrue.Within D ∧ whenFalse.Within D
  | .assign frame _ | .define frame _ => D.frame frame
  | .operator frame _ todo => D.frame frame ∧ ∀ v ∈ todo, v.Within D
  | .operands frame _ procedure done todo =>
    D.frame frame ∧ procedure.Within D ∧ (∀ v ∈ done, v.Within D) ∧ ∀ v ∈ todo, v.Within D
  | .leave _ => True
  | .sequence frame todo => D.frame frame ∧ ∀ v ∈ todo, v.Within D

def Directive.Within (D : Domain) : Directive → Prop
  | .quote v | .assignment _ v | .definition _ v | .procedure _ _ v | .lambda _ v => v.Within D
  | .conditional test whenTrue whenFalse =>
    test.Within D ∧ whenTrue.Within D ∧ whenFalse.Within D
  | .load _ => True

theorem forall_within_mono {vs : List Value} (h : ∀ v ∈ vs, v.Within D) (hle : D.Le E) :
    ∀ v ∈ vs, v.Within E :=
  fun v hv => (h v hv).mono hle

theorem Control.Within.mono {c : Control} (h : c.Within D) (hle : D.Le E) :
    c.Within E := by
  cases c with
  | eval => exact ⟨hle.frame h.1, h.2.mono hle⟩
  | call => exact ⟨h.1.mono hle, forall_within_mono h.2 hle⟩
  | fetch frame file use =>
    cases use with
    | load => exact hle.frame h
    | contents | expressions => trivial
  | result r => exact fun v hv => (h v hv).mono hle

theorem Task.Within.mono {t : Task} (h : t.Within D) (hle : D.Le E) : t.Within E := by
  cases t with
  | branch => exact ⟨hle.frame h.1, h.2.1.mono hle, h.2.2.mono hle⟩
  | assign frame => exact hle.frame h
  | define frame => exact hle.frame h
  | operator => exact ⟨hle.frame h.1, forall_within_mono h.2 hle⟩
  | operands =>
    obtain ⟨hf, hp, hd, ht⟩ := h
    exact ⟨hle.frame hf, hp.mono hle, forall_within_mono hd hle, forall_within_mono ht hle⟩
  | leave => trivial
  | sequence => exact ⟨hle.frame h.1, forall_within_mono h.2 hle⟩

theorem Directive.within_definition? {head body : Value} {d : Directive}
    (h : definition? head body = some d) (hb : body.Within D) : d.Within D := by
  unfold definition? at h
  split at h
  · cases h
    exact hb
  · obtain ⟨formals, -, rfl⟩ := Option.map_eq_some_iff.mp h
    exact hb
  · obtain ⟨formals, -, rfl⟩ := Option.map_eq_some_iff.mp h
    exact hb
  · cases h

theorem Directive.within_ofArguments? {special : SpecialForm} {args : List Value} {d : Directive}
    (h : ofArguments? special args = some d) (ha : ∀ v ∈ args, v.Within D) : d.Within D := by
  unfold ofArguments? at h
  split at h
  · cases h
    exact ha _ (by simp)
  · cases h
    exact ⟨ha _ (by simp), ha _ (by simp), ha _ (by simp)⟩
  · cases h
    exact ha _ (by simp)
  · exact within_definition? h (ha _ (by simp))
  · obtain ⟨formals, -, rfl⟩ := Option.map_eq_some_iff.mp h
    exact ha _ (by simp)
  · cases h
    trivial
  · cases h

end Parts

namespace State

/-- A state refers to a domain only. -/
def Within (D : Domain) (s : State) : Prop :=
  s.control.Within D ∧ ∀ t ∈ s.tasks, t.Within D

theorem Within.mono {s : State} (h : s.Within D) (hle : D.Le E) : s.Within E :=
  ⟨h.1.mono hle, fun t ht => (h.2 t ht).mono hle⟩

/-- What the machine may come to from a world, where it refers to a domain only: the step edits the
store within the domain, and the state refers to what the domain has become. -/
def Follows (D : Domain) (w : World) (s : State) : Prop :=
  ∃ D', w.store.Edit D D' s.world.store ∧ s.Within D'

variable {files : Files} {w : World} {s : State} {tasks : List Task} {caller frame : Nat}
  {name : Text} {v procedure form : Value} {args forms done todo : List Value}

theorem Follows.same (hw : s.world.store = w.store) (hs : s.Within D) : s.Follows D w :=
  ⟨D, hw ▸ .refl D w.store, hs⟩

theorem within_give {r : Except Error Value} (ht : ∀ t ∈ tasks, t.Within D)
    (hr : ResultWithin D r) : (give r tasks w).Within D :=
  ⟨hr, ht⟩

theorem within_fail {e : Error} (ht : ∀ t ∈ tasks, t.Within D) : (fail e tasks w).Within D :=
  ⟨resultWithin_error e, ht⟩

theorem within_nil : ∀ t ∈ ([] : List Task), t.Within D := nofun

theorem within_cons {t : Task} (h : t.Within D) (ht : ∀ t ∈ tasks, t.Within D) :
    ∀ u ∈ t :: tasks, u.Within D := by
  intro u hu
  rcases List.mem_cons.mp hu with rfl | hu
  · exact h
  · exact ht u hu

section Functions

variable (hc : w.store.Closed D) (ht : ∀ t ∈ tasks, t.Within D)

section
include ht

theorem follows_direct {d : Directive} (hf : D.frame frame) (hd : d.Within D) :
    (direct frame d tasks w).Follows D w := by
  cases d with
  | quote v => exact .same rfl (within_give ht (resultWithin_ok hd))
  | conditional test whenTrue whenFalse =>
    exact .same rfl ⟨⟨hf, hd.1⟩, within_cons ⟨hf, hd.2⟩ ht⟩
  | assignment name form => exact .same rfl ⟨⟨hf, hd⟩, within_cons hf ht⟩
  | definition name form => exact .same rfl ⟨⟨hf, hd⟩, within_cons hf ht⟩
  | procedure name formals body =>
    have hm := Store.Edit.makeClosure (s := w.store) formals hf hd
    have hv : (w.store.makeClosure formals body frame).1.Within _ :=
      Domain.within_withProcedure hf hd
    refine ⟨_, .trans hm (.define name hf hv), within_give (fun t hm' => ?_) (resultWithin_ok hv)⟩
    exact (ht t hm').mono hm.le
  | lambda formals body =>
    have hm := Store.Edit.makeClosure (s := w.store) formals hf hd
    refine ⟨_, hm, within_give (fun t hm' => (ht t hm').mono hm.le) (resultWithin_ok ?_)⟩
    exact Domain.within_withProcedure hf hd
  | load file => exact .same rfl ⟨hf, ht⟩

theorem follows_sequence (hf : D.frame frame) (hv : ∀ v ∈ forms, v.Within D) {w' : World}
    (hw : w'.store = w.store) : (sequence frame forms tasks w').Follows D w := by
  cases forms with
  | nil => exact .same hw (within_give ht (resultWithin_ok (by simp)))
  | cons form todo =>
    have htodo : ∀ v ∈ todo, v.Within D := fun v hm => hv v (List.mem_cons_of_mem form hm)
    exact .same hw ⟨⟨hf, hv form List.mem_cons_self⟩, within_cons ⟨hf, htodo⟩ ht⟩

theorem follows_withExpressions {file contents : Text}
    {next : List Value → List Task → World → State}
    (hn : ∀ forms w', (∀ v ∈ forms, v.Within D) → w'.store = w.store →
      (next forms tasks w').Follows D w) :
    (withExpressions file contents next tasks w).Follows D w := by
  unfold withExpressions
  dsimp only
  split
  · rename_i forms hr
    exact hn forms _ (Reader.within_readNamed w.faithful hr) rfl
  · exact .same rfl (within_fail ht)

theorem follows_fetch {file : Text} {use : FileUse}
    (hu : (Control.fetch caller file use).Within D) :
    (fetch files caller file use tasks w).Follows D w := by
  unfold fetch
  split
  · exact .same rfl (within_fail ht)
  · exact .same rfl (within_fail ht)
  · split
    · exact .same rfl (within_fail ht)
    · split
      · exact .same rfl (within_give ht (resultWithin_ok (by simp)))
      · refine follows_withExpressions ht fun forms w' hv hw => ?_
        have hl := resultWithin_ok (Value.within_list.mpr hv)
        exact .same hw (within_give ht hl)
      · refine follows_withExpressions ht fun forms w' hv hw => ?_
        exact follows_sequence ht hu hv hw

theorem follows_apply (hf : D.frame frame) (hp : procedure.Within D) (hd : ∀ v ∈ done, v.Within D)
    (hv : ∀ v ∈ todo, v.Within D) :
    (apply frame name procedure done todo tasks w).Follows D w := by
  cases todo with
  | nil => exact .same rfl ⟨⟨hp, fun v hm => hd v (List.mem_reverse.mp hm)⟩, ht⟩
  | cons form todo =>
    have htodo : ∀ v ∈ todo, v.Within D := fun v hm => hv v (List.mem_cons_of_mem form hm)
    exact .same rfl ⟨⟨hf, hv form List.mem_cons_self⟩, within_cons ⟨hf, hp, hd, htodo⟩ ht⟩

theorem follows_leave {r : Except Error Value} (hr : ResultWithin D r) :
    (leave r tasks w).Follows D w := by
  cases r with
  | ok v => exact .same rfl (within_give ht hr)
  | error e =>
    obtain ⟨trace, hw⟩ := w.exists_note_eq
    rw [leave, hw]
    exact .same rfl (within_fail ht)

theorem follows_unwind {e : Error} (t : Task) : (unwind e t tasks w).Follows D w := by
  cases t with
  | leave => exact follows_leave ht (resultWithin_error e)
  | _ => exact .same rfl (within_fail ht)

/-- A call adds the frame of its arguments, which extends the frame that the closure captured. -/
theorem follows_enter (hp : procedure.Within D) (ha : ∀ v ∈ args, v.Within D) :
    (enter caller procedure args tasks w).Follows D w := by
  cases procedure with
  | primitive id op =>
    have he := Primitive.within_effect op caller ha
    rw [enter]
    generalize op.effect caller args = effect at he ⊢
    cases effect with
    | result r => exact .same rfl (within_give ht he)
    | call caller f args => exact .same rfl ⟨he, ht⟩
    | contents caller file => exact .same rfl ⟨trivial, ht⟩
    | expressions caller file => exact .same rfl ⟨trivial, ht⟩
  | closure id formals body captured =>
    obtain ⟨hk, hb⟩ := Value.within_closure.mp hp
    rw [enter]
    cases arityFault? formals args with
    | some e => exact .same rfl (within_fail ht)
    | none =>
      have hf : (Frame.ofArguments captured formals args).Within D :=
        Frame.within_ofArguments (D.captured hk .frame) ha
      have he := Store.Edit.allocate (s := w.store) hf (Frame.consistent_ofArguments _ _ _)
      exact ⟨_, he, ⟨.inr rfl, hb.mono he.le⟩, fun t hm => (ht t hm).mono he.le⟩
  | _ => exact .same rfl (within_fail ht)

theorem follows_call (hp : procedure.Within D) (ha : ∀ v ∈ args, v.Within D) :
    (call caller name procedure args tasks w).Follows D w := by
  unfold call
  split
  · split
    · exact .same rfl (within_fail ht)
    · obtain ⟨trace, hw⟩ := w.exists_forget_eq
      rw [hw]
      exact @follows_enter D (World.pushCall { w with trace := trace } name procedure)
        (.leave caller :: tasks) caller procedure args (within_cons trivial ht) hp ha
  · exact .same rfl (within_fail ht)

end

include hc ht

theorem follows_eval (hf : D.frame frame) (hv : form.Within D) :
    (eval frame form tasks w).Follows D w := by
  cases form with
  | atom name => exact .same rfl (within_give ht (hc.get hf))
  | list items =>
    cases items with
    | nil => exact .same rfl (within_fail ht)
    | cons head rest =>
      have hv := Value.within_list.mp hv
      have hr : ∀ v ∈ rest, v.Within D := fun v hm => hv v (List.mem_cons_of_mem head hm)
      rw [eval]
      cases specialForm? head with
      | none => exact .same rfl ⟨⟨hf, hv head List.mem_cons_self⟩, within_cons ⟨hf, hr⟩ ht⟩
      | some special =>
        dsimp only
        cases hd : Directive.ofArguments? special rest with
        | none => exact .same rfl (within_fail ht)
        | some d => exact follows_direct ht hf (Directive.within_ofArguments? hd hr)
  | number | string | char | bool => exact .same rfl (within_give ht (resultWithin_ok hv))
  | dotted | closure | primitive => exact .same rfl (within_fail ht)

theorem follows_resume {t : Task} (hv : v.Within D) (hs : t.Within D) :
    (resume v t tasks w).Follows D w := by
  cases t with
  | branch frame whenTrue whenFalse =>
    refine .same rfl ⟨⟨hs.1, ?_⟩, ht⟩
    split
    · exact hs.2.2
    · exact hs.2.1
  | assign frame name =>
    rw [resume]
    cases ho : w.store.owner? frame name with
    | some i =>
      have hi := hc.owner? hs ho
      exact ⟨D, .assign hi (Store.owner?_binds ho) hv, within_give ht (resultWithin_ok hv)⟩
    | none => exact .same rfl (within_fail ht)
  | define frame name =>
    exact ⟨D, .define name hs hv, within_give ht (resultWithin_ok hv)⟩
  | operator frame name todo => exact follows_apply ht hs.1 hv (by simp) hs.2
  | operands frame name procedure done todo =>
    obtain ⟨hf, hp, hd, htodo⟩ := hs
    refine follows_apply ht hf hp (fun u hu => ?_) htodo
    rcases List.mem_cons.mp hu with rfl | hu
    · exact hv
    · exact hd u hu
  | leave => exact follows_leave ht (resultWithin_ok hv)
  | sequence frame todo =>
    cases todo with
    | nil => exact .same rfl (within_give ht (resultWithin_ok hv))
    | cons form todo => exact follows_sequence ht hs.1 hs.2 rfl

end Functions

theorem follows_step (hc : s.world.store.Closed D) (hs : s.Within D) :
    (s.step files).Follows D s.world := by
  obtain ⟨control, tasks, w⟩ := s
  obtain ⟨hcontrol, ht⟩ := hs
  cases control with
  | eval frame form => exact follows_eval hc ht hcontrol.1 hcontrol.2
  | call caller name procedure args => exact follows_call ht hcontrol.1 hcontrol.2
  | fetch caller file use => exact follows_fetch ht hcontrol
  | result r =>
    cases tasks with
    | nil => cases r <;> exact .same rfl ⟨hcontrol, ht⟩
    | cons t tasks =>
      have htasks : ∀ u ∈ tasks, u.Within D := fun u hu => ht u (List.mem_cons_of_mem t hu)
      cases r with
      | ok v => exact follows_resume hc htasks (hcontrol v rfl) (ht t List.mem_cons_self)
      | error e => exact follows_unwind htasks t

end State

end SmallScheme
