import SmallScheme.Proofs.Machine.Failure

/-!
# The limit on the calls in progress

The machine is put to work by an evaluation, a call or a load. From a stack within its limit it
comes to no stack beyond it, and an overflow reports the limit and leaves a trace that is full: no
call that the error passes through replaces the trace.
-/

namespace SmallScheme

set_option autoImplicit false

/-- The ways to put the machine to work. -/
inductive Entry where
  | eval (frame : Nat) (form : Value)
  | apply (caller : Nat) (procedure : Value) (args : List Value)
  | load (frame : Nat) (name contents : Text)
  | loadFile (frame : Nat) (file : Text)

namespace Entry

def outcome (files : Files) (fuel : Nat) (w : World) : Entry → Option Outcome
  | .eval frame form => w.eval files fuel frame form
  | .apply caller procedure args => w.apply files fuel caller procedure args
  | .load frame name contents => w.load files fuel frame name contents
  | .loadFile frame file => w.loadFile files fuel frame file

/-- The state in which the machine begins. -/
def start (w : World) : Entry → State
  | .eval frame form => ⟨.eval frame form, [], w⟩
  | .apply caller procedure args => ⟨.call caller [] procedure args, [], w⟩
  | .load frame name contents =>
    match w.reader with
    | none => .fail (.noReader name) [] w
    | some _ => State.withExpressions name contents (State.sequence frame) [] w
  | .loadFile frame file => ⟨.fetch frame file .load, [], w⟩

theorem outcome_eq_run (files : Files) (fuel : Nat) (w : World) (entry : Entry) :
    entry.outcome files fuel w = State.run files fuel (entry.start w) := by
  cases entry with
  | eval | apply | loadFile => rfl
  | load frame name contents =>
    cases hr : w.reader with
    | none => simp only [outcome, start, World.load, hr, State.fail, State.run]
    | some table => simp only [outcome, start, World.load, hr]

theorem balanced_start (w : World) (entry : Entry) : (entry.start w).BalancedOn w.stack := by
  cases entry with
  | eval | apply | loadFile => exact .done
  | load frame name contents =>
    unfold start
    dsimp only
    split
    · exact .done
    · apply State.balanced_withExpressions .done
      intro forms w' hw
      exact State.balanced_sequence (hw ▸ .done) forms

theorem stays_start (w : World) (entry : Entry) : (entry.start w).Stays w := by
  cases entry with
  | eval | apply | loadFile => exact State.stays_of_control rfl rfl (by simp)
  | load frame name contents =>
    unfold start
    dsimp only
    split
    · exact State.stays_fail (by simp)
    · apply State.stays_withExpressions
      intro forms w' hs ht
      obtain ⟨hs', ht', hc⟩ := @State.stays_sequence frame [] w' forms
      exact ⟨hs'.trans hs, ht'.trans ht, hc⟩

end Entry

theorem Balanced.limit_eq {base s : CallStack} {tasks : List Task} (h : Balanced base tasks s) :
    s.limit = base.limit := by
  induction h with
  | done => rfl
  | call _ _ _ _ ih => exact ih
  | wait _ _ ih => exact ih

theorem Balanced.exists_append {base s : CallStack} {tasks : List Task}
    (h : Balanced base tasks s) : ∃ more, s.frames.toList = base.frames.toList ++ more := by
  induction h with
  | done => exact ⟨[], (List.append_nil _).symm⟩
  | @call tasks s _ name procedure _ ih =>
    obtain ⟨more, hm⟩ := ih
    refine ⟨more ++ [⟨name, procedure⟩], ?_⟩
    rw [CallStack.add, Array.toList_push, hm, List.append_assoc]
  | wait _ _ ih => exact ih

theorem CallStack.height_pop_le (s : CallStack) : s.pop.height ≤ s.height := by
  simp only [pop, height, Array.size_pop]
  omega

namespace State

variable {files : Files} {base : CallStack} {s t : State}

/-- A state whose calls are those of `base` and others above them, within the limit. -/
structure Limited (base : CallStack) (s : State) : Prop where
  balanced : s.BalancedOn base
  height_le : (s.world.stack.height : Int) ≤ base.limit

theorem Limited.step (hl : 1 ≤ base.limit) (h : s.Limited base) :
    (s.step files).Limited base := by
  obtain ⟨hb, hh⟩ := h
  refine ⟨balanced_step hb, ?_⟩
  have hlimit : s.world.stack.limit = base.limit := Balanced.limit_eq hb
  by_cases hf : s.Failing
  · obtain ⟨e, he⟩ := hf
    rcases (step_of_failing files he).2 with hw | ⟨-, hw⟩
    · rw [hw]
      exact hh
    · have hp := s.world.stack.height_pop_le
      rw [hw, World.popCall, World.stack_note]
      dsimp only
      omega
  · have hc := conduct_step files hf
    generalize s.step files = s' at hc
    cases hc with
    | stay h =>
      rw [h.stack_eq]
      exact hh
    | @enter _ name procedure hroom h =>
      -- the limit is a positive number, so there is room below it
      obtain ⟨trace, hw⟩ := s.world.exists_forget_eq
      simp only [CallStack.full, Bool.and_eq_false_iff, decide_eq_false_iff_not] at hroom
      rw [h.stack_eq, hw, World.pushCall]
      dsimp only
      rw [CallStack.height_add]
      omega
    | exit h _ _ =>
      have hp := s.world.stack.height_pop_le
      rw [h]
      omega
    | overflow => exact hh

/-- An overflow is raised where the stack is full, and its trace is taken there. -/
theorem Raises.overflow_eq {n : Int} (h : Raises files s t) (hs : ¬ s.Overflowed)
    (ht : t.control = .result (.error (.stackOverflow n))) :
    n = t.world.stack.limit ∧ t.world.stack.full = true ∧
      t.world.trace = some t.world.stack := by
  induction h with
  | here => exact absurd ⟨n, ht⟩ hs
  | @later s t hn hr ih =>
    have hc := conduct_step files hn
    generalize s.step files = s' at hc hr ih
    cases hc with
    | stay h => exact ih h.calm ht
    | enter _ h => exact ih h.calm ht
    | exit _ _ hf =>
      apply ih _ ht
      rintro ⟨m, hm⟩
      exact hf ⟨_, hm⟩
    | overflow tasks hf =>
      rw [hr.eq_of_failing ⟨_, rfl⟩] at ht ⊢
      cases ht
      exact ⟨rfl, hf, rfl⟩

/-- A trace that has been taken stays as it is while the error passes through calls. -/
theorem trace_of_unwinding {e : Error} {trace : CallStack} {fuel : Nat} {r : Except Error Value}
    {w' : World} (hc : s.control = .result (.error e)) (ht : s.world.trace = some trace)
    (h : run files fuel s = some (r, w')) : r = .error e ∧ w'.trace = some trace := by
  have hp : Control.result r = .result (.error e) ∧ w'.trace = some trace := by
    refine invariant_run (P := fun s => s.control = .result (.error e) ∧
      s.world.trace = some trace) (fun s hs => ?_) ⟨hc, ht⟩ h
    obtain ⟨hc, ht⟩ := hs
    obtain ⟨hc', hw | ⟨-, hw⟩⟩ := step_of_failing files hc
    · exact ⟨hc', by rw [hw, ht]⟩
    · refine ⟨hc', ?_⟩
      rw [hw, World.note_of_trace ht]
      exact ht
  exact ⟨Control.result.inj hp.1, hp.2⟩

theorem overflow_of_run {fuel : Nat} {n : Int} {w' : World} (hl : 1 ≤ base.limit)
    (hs : s.Limited base) (ho : ¬ s.Overflowed)
    (h : run files fuel s = some (.error (.stackOverflow n), w')) :
    n = base.limit ∧ ∃ trace, w'.trace = some trace ∧ (trace.height : Int) = base.limit ∧
      trace.frames.toList.take base.height = base.frames.toList := by
  obtain ⟨t, hr⟩ := exists_raises h
  obtain ⟨fuel', hrun⟩ := hr.leads.run_eq h
  have hlim : t.Limited base := hr.leads.invariant (fun _ => Limited.step hl) hs
  have hlimit : t.world.stack.limit = base.limit := Balanced.limit_eq hlim.balanced
  have he := hr.control_eq h
  obtain ⟨hn, hfull, htrace⟩ := hr.overflow_eq ho he
  obtain ⟨-, htrace'⟩ := trace_of_unwinding he htrace hrun
  refine ⟨hn.trans hlimit, t.world.stack, htrace', ?_, ?_⟩
  · have hh := hlim.height_le
    simp only [CallStack.full, Bool.and_eq_true, decide_eq_true_eq] at hfull
    omega
  · obtain ⟨more, hm⟩ := Balanced.exists_append hlim.balanced
    rw [hm, CallStack.height, ← Array.length_toList, List.take_left]

end State

/-- From a stack within a positive limit, the machine never has more calls in progress than the
limit admits. If it ends with an overflow, the error names the limit, and the trace holds that many
calls, of which the first are those that were in progress at the beginning. -/
theorem Entry.height_le_limit {w : World} (entry : Entry) (files : Files)
    (hl : 1 ≤ w.stack.limit) (hh : (w.stack.height : Int) ≤ w.stack.limit) :
    (∀ t, State.Leads files (entry.start w) t →
      (t.world.stack.height : Int) ≤ w.stack.limit) ∧
    ∀ fuel n w', entry.outcome files fuel w = some (.error (.stackOverflow n), w') →
      n = w.stack.limit ∧ ∃ trace, w'.trace = some trace ∧
        (trace.height : Int) = w.stack.limit ∧
        trace.frames.toList.take w.stack.height = w.stack.frames.toList := by
  obtain ⟨hs, -, hc⟩ := entry.stays_start w
  have hlim : (entry.start w).Limited w.stack := ⟨entry.balanced_start w, by rw [hs]; exact hh⟩
  constructor
  · intro t ht
    exact (ht.invariant (P := State.Limited w.stack) (fun _ => .step hl) hlim).height_le
  · intro fuel n w' h
    rw [outcome_eq_run] at h
    exact State.overflow_of_run hl hlim hc h

/-- A stack with one call in progress that admits one more. -/
def World.oneCall : World :=
  { new { primitives := false } with stack := ⟨#[⟨.ofString "g", .primitive 0 .car⟩], 2⟩ }

theorem Entry.height_le_limit_nested :
    ∃ w' trace, (Entry.eval World.root World.nestedFailure).outcome (fun _ => .ok []) 20
        World.oneCall = some (.error (.stackOverflow 2), w') ∧
      w'.trace = some trace ∧ trace.height = 2 ∧
      trace.frames.toList.take 1 = World.oneCall.stack.frames.toList := by
  have hv : ((Entry.eval World.root World.nestedFailure).outcome (fun _ => .ok []) 20
      World.oneCall).map Prod.fst = some (.error (.stackOverflow 2)) := by
    with_unfolding_all rfl
  obtain ⟨⟨r, w'⟩, he, rfl⟩ := Option.map_eq_some_iff.mp hv
  obtain ⟨-, hall⟩ := height_le_limit (w := World.oneCall) (.eval World.root World.nestedFailure)
    (fun _ => .ok []) (by decide) (by decide)
  obtain ⟨-, trace, ht, hn, hp⟩ := hall 20 2 w' he
  exact ⟨w', trace, he, ht, Int.ofNat.inj hn, hp⟩

end SmallScheme
