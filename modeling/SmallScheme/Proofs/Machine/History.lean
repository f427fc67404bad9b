import SmallScheme.Proofs.Environment.Arguments
import SmallScheme.Proofs.Environment.Listing
import SmallScheme.Proofs.Safety.Session

/-!
# The history of definitions

A history lists the definitions that operations made, in their order: the frame and the name of
each. What the machine defines in a step is read off the state before it (`State.definitions`), so
every run and every operation has its history. The names of a frame stand in the order in which the
history first mentions them (`World.HasHistory.records`).
-/

namespace SmallScheme

set_option autoImplicit false

/-- Definitions in the order in which they were made: the frame and the name. -/
abbrev History := List (Nat × Text)

namespace History

/-- The names defined in a frame, in the order of the definitions. -/
def defined (log : History) (i : Nat) : List Text := (log.filter (·.1 = i)).map Prod.snd

/-- The names defined in a frame, each at its first definition. -/
def names (log : History) (i : Nat) : List Text := (log.defined i).eraseDups

/-- Definitions of several names in one frame. -/
def inFrame (i : Nat) (names : List Text) : History := names.map (i, ·)

variable {i j : Nat}

theorem defined_append (log more : History) (i : Nat) :
    (log ++ more).defined i = log.defined i ++ more.defined i := by
  rw [defined, List.filter_append, List.map_append, defined, defined]

theorem defined_inFrame (i : Nat) (names : List Text) : (inFrame i names).defined i = names := by
  induction names with
  | nil => rfl
  | cons name names ih =>
    rw [inFrame, List.map_cons, defined, List.filter_cons_of_pos (by simp), List.map_cons]
    exact congrArg _ ih

theorem defined_inFrame_of_ne (h : i ≠ j) (names : List Text) :
    (inFrame i names).defined j = [] := by
  rw [defined, List.map_eq_nil_iff, List.filter_eq_nil_iff]
  intro d hd
  obtain ⟨name, -, rfl⟩ := List.mem_map.mp hd
  simpa using h

theorem names_append_of_ne (log : History) (h : i ≠ j) (names : List Text) :
    (log ++ inFrame i names).names j = log.names j := by
  rw [History.names, defined_append, defined_inFrame_of_ne h, List.append_nil]
  rfl

theorem names_append_one (log : History) (i : Nat) (name : Text) :
    (log ++ inFrame i [name]).names i =
      if name ∈ log.names i then log.names i else log.names i ++ [name] := by
  rw [names, defined_append, defined_inFrame, List.eraseDups_append]
  by_cases hn : name ∈ log.defined i
  · simp [names, hn, List.removeAll]
  · simp [names, hn, List.removeAll, List.eraseDups_cons]

end History

namespace Store

/-- The names of all frames are those of a history. -/
def Records (s : Store) (log : History) : Prop := ∀ i, s.names i = log.names i

variable {s s' : Store} {log : History} {i : Nat} {name : Text} {v : Value}

theorem Records.of_frames_eq (h : s.Records log) (hf : s'.frames = s.frames) : s'.Records log := by
  intro i
  rw [names, hf]
  exact h i

theorem Records.define (h : s.Records log) (hw : s.WellFormed) (hi : s.Allocated i) (name : Text)
    (v : Value) : (s.define i name v).Records (log ++ .inFrame i [name]) := by
  intro j
  rw [names_define hw hi]
  by_cases hj : j = i
  · subst hj
    rw [History.names_append_one, ← h j]
    by_cases hn : name ∈ s.names j
    · rw [if_neg (fun hc => hc.2 hn), if_pos hn]
    · rw [if_pos ⟨rfl, hn⟩, if_neg hn]
  · rw [if_neg (fun hc => hj hc.1), History.names_append_of_ne log (Ne.symm hj), h j]

theorem Records.assign (h : s.Records log) (i : Nat) (name : Text) (v : Value) :
    (s.assign i name v).Records log := by
  intro j
  rw [names_assign]
  exact h j

theorem Records.allocate (h : s.Records log) {f : Frame} {ns : List Text}
    (hf : f.names = ns.eraseDups) :
    (s.allocate f).2.Records (log ++ .inFrame s.frames.size ns) := by
  intro j
  by_cases hj : j = s.frames.size
  · subst hj
    have hempty : log.defined s.frames.size = [] := by
      have hn := h s.frames.size
      rw [names, Array.getElem?_eq_none (Nat.le_refl _)] at hn
      cases hd : log.defined s.frames.size with
      | nil => rfl
      | cons name more =>
        rw [History.names, hd, List.eraseDups_cons] at hn
        cases hn
    have hnew : (s.allocate f).2.frames[s.frames.size]? = some f := by
      rw [Store.allocate, Array.getElem?_push_size]
    rw [names_eq hnew, hf, History.names, History.defined_append, hempty, History.defined_inFrame,
      List.nil_append]
  · have hold : (s.allocate f).2.names j = s.names j := by
      rw [names, names, Store.allocate, Array.getElem?_push, if_neg hj]
    rw [hold, History.names_append_of_ne log (Ne.symm hj), h j]

theorem Records.addPrimitives {ops : List Primitive} (h : s.Records log) (hw : s.WellFormed)
    (hi : s.Allocated i) (hn : (ops.map Primitive.name).Nodup)
    (hb : ∀ op ∈ ops, s.binds i op.name = false) :
    (s.addPrimitives i ops).1.Records (log ++ .inFrame i (ops.map Primitive.name)) := by
  induction ops generalizing s log with
  | nil =>
    rw [List.map_nil, History.inFrame, List.map_nil, List.append_nil]
    exact h
  | cons op ops ih =>
    obtain ⟨hop, hn⟩ := List.nodup_cons.mp hn
    let next := (s.makePrimitive op).2.define i op.name (s.makePrimitive op).1
    have hmade : (s.makePrimitive op).2.Records log := h.of_frames_eq rfl
    have hwm : (s.makePrimitive op).2.WellFormed := hw.of_frames_eq rfl
    have hnext : next.Records (log ++ .inFrame i [op.name]) := hmade.define hwm hi op.name _
    have hwn : next.WellFormed := hwm.define i op.name <|
      Value.within_ofFrames.mpr nofun
    have hrest := ih hnext hwn (allocated_define.mpr hi) hn (by
      intro other ho
      have hne : other.name ≠ op.name := by
        intro he
        exact hop (he ▸ List.mem_map_of_mem ho)
      rw [binds_define_of_ne fun hc => hne hc.2]
      exact hb other (List.mem_cons_of_mem op ho))
    rw [Store.addPrimitives, hb op List.mem_cons_self]
    rw [List.append_assoc] at hrest
    exact hrest

end Store

/-- The special form that a form is, if its shape is right. -/
def Value.directive? : Value → Option Directive
  | .list (head :: rest) => (State.specialForm? head).bind (Directive.ofArguments? · rest)
  | _ => none

/-- The names of formals in their order. -/
def Formals.names (formals : Formals) : List Text := formals.params ++ formals.rest.toList

namespace State

/-- The definitions that the next step makes. A definition of a variable is made when its value is
there, a definition of a procedure at once, and a call that is admitted defines the names of the
formals in a new frame. -/
def definitions (s : State) : History :=
  match s.control, s.tasks with
  | .eval frame form, _ =>
    match form.directive? with
    | some (.procedure name _ _) => .inFrame frame [name]
    | _ => []
  | .call _ _ (.closure _ formals _ _) args, _ =>
    if s.world.stack.full ∨ (arityFault? formals args).isSome then []
    else .inFrame s.world.store.frames.size formals.names
  | .result (.ok _), .define frame name :: _ => .inFrame frame [name]
  | _, _ => []

/-- The definitions that so many steps make. -/
def history (files : Files) : (fuel : Nat) → State → History
  | 0, _ => []
  | fuel + 1, s => s.definitions ++ history files fuel (s.step files)

variable {files : Files} {log : History} {w w' : World} {s s' : State} {tasks : List Task}
  {task : Task} {frame : Nat} {name : Text} {v procedure form : Value} {args : List Value}

/-- Most steps define nothing and leave the frames as they are. -/
theorem records_of_frames_eq (h : s.world.store.Records log) (hd : s.definitions = [])
    (hf : s'.world.store.frames = s.world.store.frames) :
    s'.world.store.Records (log ++ s.definitions) := by
  rw [hd, List.append_nil]
  exact h.of_frames_eq hf

section Functions

theorem world_sequence (forms : List Value) : (sequence frame forms tasks w).world = w := by
  cases forms <;> rfl

theorem store_withExpressions {file contents : Text}
    {next : List Value → List Task → World → State}
    (hn : ∀ forms w', (next forms tasks w').world.store = w'.store) :
    (withExpressions file contents next tasks w).world.store = w.store := by
  unfold withExpressions
  dsimp only
  split
  · exact hn _ _
  · rfl

theorem store_fetch (caller : Nat) (file : Text) (use : FileUse) :
    (fetch files caller file use tasks w).world.store = w.store := by
  unfold fetch
  split
  · rfl
  · rfl
  · split
    · rfl
    · split
      · rfl
      · exact store_withExpressions fun forms w' => rfl
      · exact store_withExpressions fun forms w' => by rw [world_sequence]

theorem store_leave (r : Except Error Value) : (leave r tasks w).world.store = w.store := by
  cases r with
  | ok v => rfl
  | error e =>
    obtain ⟨trace, hw⟩ := w.exists_note_eq
    rw [leave, hw]
    rfl

variable (h : w.store.Records log)
include h

theorem records_eval (hw : w.store.WellFormed) (hf : w.store.Allocated frame) (form : Value) :
    (eval frame form tasks w).world.store.Records
      (log ++ (State.mk (.eval frame form) tasks w).definitions) := by
  cases form with
  | list items =>
    cases items with
    | nil => exact records_of_frames_eq (s := ⟨.eval frame (.list []), tasks, w⟩) h rfl rfl
    | cons head rest =>
      simp only [definitions, Value.directive?, eval]
      cases specialForm? head with
      | none =>
        rw [Option.bind_none, List.append_nil]
        exact h
      | some special =>
        simp only [Option.bind_some]
        cases Directive.ofArguments? special rest with
        | none =>
          rw [List.append_nil]
          exact h
        | some d =>
          cases d with
          | procedure name formals body =>
            have hmade : (w.store.makeClosure formals body frame).2.Records log :=
              h.of_frames_eq rfl
            exact hmade.define (hw.of_frames_eq rfl) hf name _
          | quote | conditional | assignment | definition | lambda | load =>
            rw [List.append_nil]
            exact h.of_frames_eq rfl
  | _ => exact records_of_frames_eq (s := ⟨.eval frame _, tasks, w⟩) h rfl rfl

/-- A call of a closure that is admitted defines the names of its formals. -/
theorem records_call (caller : Nat) :
    (call caller name procedure args tasks w).world.store.Records
      (log ++ (State.mk (.call caller name procedure args) tasks w).definitions) := by
  obtain ⟨trace, hw⟩ := w.exists_forget_eq
  simp only [call, hw]
  cases procedure with
  | closure id formals body captured =>
    cases hfull : w.stack.full with
    | true =>
      simp only [definitions, hfull, true_or, if_true, List.append_nil]
      exact h
    | false =>
      simp only [definitions, enter, hfull]
      cases ha : arityFault? formals args with
      | some e =>
        simp only [Option.isSome_some, or_true, if_true, List.append_nil]
        exact h
      | none =>
        have hl : formals.params.length ≤ args.length := by
          simp only [arityFault?] at ha
          grind
        exact h.allocate (Frame.holdsArguments_ofArguments captured hl).names
  | primitive id op =>
    rw [definitions, List.append_nil]
    cases w.stack.full with
    | true => exact h
    | false =>
      simp only [enter]
      cases op.effect caller args with
      | result | call | contents | expressions => exact h
  | _ =>
    rw [definitions, List.append_nil]
    exact h

theorem records_resume (hw : w.store.WellFormed)
    (hs : ∀ frame name, task = .define frame name → w.store.Allocated frame) :
    (resume v task tasks w).world.store.Records
      (log ++ (State.mk (.result (.ok v)) (task :: tasks) w).definitions) := by
  cases task with
  | define frame name => exact h.define hw (hs frame name rfl) name v
  | assign frame name =>
    rw [definitions, List.append_nil, resume]
    cases ho : w.store.owner? frame name with
    | none => exact h
    | some i => exact h.assign i name v
  | branch => exact records_of_frames_eq (s := ⟨_, _, w⟩) h rfl rfl
  | operator frame name todo =>
    cases todo <;> exact records_of_frames_eq (s := ⟨_, _, w⟩) h rfl rfl
  | operands frame name procedure done todo =>
    cases todo <;> exact records_of_frames_eq (s := ⟨_, _, w⟩) h rfl rfl
  | sequence frame todo =>
    cases todo <;> exact records_of_frames_eq (s := ⟨_, _, w⟩) h rfl rfl
  | leave => exact records_of_frames_eq (s := ⟨_, _, w⟩) h rfl rfl

end Functions

theorem records_step (hs : s.Sound) (h : s.world.store.Records log) :
    (s.step files).world.store.Records (log ++ s.definitions) := by
  obtain ⟨control, tasks, w⟩ := s
  obtain ⟨hw, hcontrol, htasks⟩ := hs
  cases control with
  | eval frame form => exact records_eval h hw hcontrol.1 form
  | call caller name procedure args => exact records_call h caller
  | fetch caller file use =>
    exact records_of_frames_eq (s := ⟨_, _, w⟩) h rfl <|
      congrArg Store.frames (store_fetch caller file use)
  | result r =>
    cases tasks with
    | nil => cases r <;> exact records_of_frames_eq (s := ⟨_, _, w⟩) h rfl rfl
    | cons task tasks =>
      cases r with
      | ok v =>
        apply records_resume h hw
        rintro frame name rfl
        exact htasks _ List.mem_cons_self
      | error e =>
        apply records_of_frames_eq (s := ⟨_, _, w⟩) h
        · cases task <;> rfl
        · cases task with
          | leave => exact congrArg Store.frames (store_leave (.error e))
          | _ => rfl

theorem history_final (r : Except Error Value) (fuel : Nat) :
    history files fuel ⟨.result r, [], w⟩ = [] := by
  induction fuel with
  | zero => rfl
  | succ fuel ih => cases r <;> exact ih

/-- A run defines what its history says. -/
theorem records_run {fuel : Nat} {r : Except Error Value} (hs : s.Sound)
    (h : s.world.store.Records log) (hr : run files fuel s = some (r, w')) :
    w'.store.Records (log ++ s.history files fuel) := by
  fun_induction run files fuel s generalizing log with
  | case1 fuel r' w₀ =>
    obtain ⟨rfl, rfl⟩ := Prod.mk.inj (Option.some.inj hr)
    rw [history_final, List.append_nil]
    exact h
  | case2 => cases hr
  | case3 fuel s _ ih =>
    rw [history, ← List.append_assoc]
    exact ih hs.step (records_step hs h) hr

end State

/-- The definitions that an operation makes. -/
def Operation.history (files : Files) (fuel : Nat) (w : World) : Operation → History
  | .eval frame form => ((Entry.eval frame form).start w).history files fuel
  | .apply caller procedure args =>
    ((Entry.apply caller procedure args).start w).history files fuel
  | .load frame name contents => ((Entry.load frame name contents).start w).history files fuel
  | .loadFile frame file => ((Entry.loadFile frame file).start w).history files fuel
  | .define frame name _ => .inFrame frame [name]
  | .bind _ formals _ => .inFrame w.store.frames.size formals.names
  | .get .. | .set .. | .extend _ => []

/-- The definitions with which a world begins. -/
def Setup.history (setup : Setup) : History :=
  if setup.primitives then .inFrame World.root (Primitive.all.map Primitive.name) else []

/-- A world that operations lead to from a new one, and the definitions that they made. -/
inductive World.HasHistory : World → History → Prop where
  | start (setup : Setup) : HasHistory (World.new setup) setup.history
  | step {w w' : World} {log : History} {op : Operation} {reply : Operation.Answer}
      (files : Files) (fuel : Nat) : HasHistory w log → op.Admissible w.store →
      op.perform files fuel w = some (reply, w') → HasHistory w' (log ++ op.history files fuel w)

namespace World

variable {files : Files} {fuel : Nat} {w w' : World} {log : History}

theorem exists_hasHistory_iff : (∃ log, w.HasHistory log) ↔ w.Reachable := by
  constructor
  · rintro ⟨log, h⟩
    induction h with
    | start setup => exact .start setup
    | step files fuel _ ha hp ih => exact .step files fuel ih ha hp
  · intro h
    induction h with
    | start setup => exact ⟨_, .start setup⟩
    | step files fuel _ ha hp ih =>
      obtain ⟨log, hl⟩ := ih
      exact ⟨_, .step files fuel hl ha hp⟩

theorem records_new (setup : Setup) : (new setup).store.Records setup.history := by
  have hempty : Store.empty.Records [] := fun i => by simp [Store.names, Store.empty]; rfl
  have hnames : (Frame.empty none).names = ([] : List Text).eraseDups := rfl
  have hroot : (Store.empty.allocate (.empty none)).2.Records [] := hempty.allocate hnames
  have hw : (Store.empty.allocate (.empty none)).2.WellFormed :=
    wellFormed_new { primitives := false }
  unfold new Setup.history
  dsimp only
  split
  · refine hroot.addPrimitives hw Nat.zero_lt_one (by decide) ?_
    intro op _
    rfl
  · exact hroot

theorem records_entry {entry : Entry} {r : Except Error Value} (hw : w.store.WellFormed)
    (ha : entry.operation.Admissible w.store) (h : w.store.Records log)
    (ho : entry.outcome files fuel w = some (r, w')) :
    w'.store.Records (log ++ (entry.start w).history files fuel) := by
  have hs : (entry.start w).Sound := State.Follows.sound hw (Entry.follows_start ha)
  have hstore : (entry.start w).world.store = w.store := by
    cases entry with
    | eval | apply | loadFile => rfl
    | load frame name contents =>
      unfold Entry.start
      dsimp only
      split
      · rfl
      · exact State.store_withExpressions fun forms w' => by rw [State.world_sequence]
  rw [Entry.outcome_eq_run] at ho
  exact State.records_run hs (hstore.symm ▸ h) ho

theorem records_perform {op : Operation} {reply : Operation.Answer} (hw : w.store.WellFormed)
    (ha : op.Admissible w.store) (h : w.store.Records log)
    (hp : op.perform files fuel w = some (reply, w')) :
    w'.store.Records (log ++ op.history files fuel w) := by
  have hentry (entry : Entry) (ha : entry.operation.Admissible w.store)
      (hp : Operation.ofOutcome (entry.outcome files fuel w) = some (reply, w')) :
      w'.store.Records (log ++ (entry.start w).history files fuel) := by
    obtain ⟨r, hr, -⟩ := Operation.exists_of_ofOutcome hp
    exact records_entry hw ha h hr
  cases op with
  | eval frame form => exact hentry (.eval frame form) ha hp
  | apply caller procedure args => exact hentry (.apply caller procedure args) ha hp
  | load frame name contents => exact hentry (.load frame name contents) ha hp
  | loadFile frame file => exact hentry (.loadFile frame file) ha hp
  | get frame name =>
    cases hp
    rw [Operation.history, List.append_nil]
    exact h
  | set frame name v =>
    rw [Operation.history, List.append_nil]
    simp only [Operation.perform, Store.set] at hp
    cases ho : w.store.owner? frame name with
    | none =>
      rw [ho] at hp
      cases hp
      exact h
    | some j =>
      rw [ho] at hp
      cases hp
      exact h.assign j name v
  | define frame name v =>
    cases hp
    exact h.define hw ha.1 name v
  | extend frame =>
    cases hp
    have hnames : (Frame.empty (some frame)).names = ([] : List Text).eraseDups := rfl
    exact h.allocate hnames
  | bind frame formals args =>
    cases hp
    exact h.allocate (Frame.holdsArguments_ofArguments frame ha.2.1).names

/-- The names of every frame stand in the order of their first definition. -/
theorem HasHistory.records (h : w.HasHistory log) : w.store.Records log := by
  induction h with
  | start setup => exact records_new setup
  | step files fuel hl ha hp ih =>
    have hr : Reachable _ := exists_hasHistory_iff.mp ⟨_, hl⟩
    exact records_perform hr.wellFormed ha ih hp

/-- The listing of the names visible from a frame, whatever operations have been carried out. It
names nothing twice, and it names what a lookup finds. The names come frame by frame outward: from
each frame those that it is the nearest to bind, in the order in which they were first defined in
it. -/
theorem visibleNames_of_reachable (h : w.Reachable) {e : Nat} (he : w.store.Allocated e) :
    (w.store.visibleNames e).Nodup ∧
    (∀ name, name ∈ w.store.visibleNames e ↔ ∃ v, w.store.get e name = .ok v) ∧
    (∃ log, w.HasHistory log) ∧
    (∀ log, w.HasHistory log → w.store.visibleNames e = (w.store.path e).flatMap fun j =>
      (log.names j).filter fun name => w.store.owner? e name = some j) ∧
    w.store.path e = e :: (w.store.parent? e).elim [] w.store.path ∧
    ∀ name j, w.store.owner? e name = some j ↔ w.store.Nearest name e j := by
  have hw := h.wellFormed
  refine ⟨w.store.nodup_visibleNames e, fun _ => Store.mem_visibleNames_iff hw,
    exists_hasHistory_iff.mpr h, ?_, hw.path_of_allocated he, fun _ _ =>
    Store.owner?_eq_some_iff hw he⟩
  intro log hl
  have hn : w.store.names = log.names := funext hl.records
  rw [Store.visibleNames_eq hw, hn]

/-- A frame that extends the root and defines one of its names anew, behind a name of its own. -/
def shadowing : World :=
  { new { primitives := false } with
    store :=
      { frames := #[((Frame.empty none).define (.ofString "a") (.number 0)).define
            (.ofString "b") (.number 1),
          ((Frame.empty (some 0)).define (.ofString "c") (.number 2)).define
            (.ofString "a") (.number 3)]
        nextId := 0 } }

theorem reachable_shadowing : shadowing.Reachable := by
  let files : Files := fun _ => .ok []
  let form : Value := .list [.atom (.ofString "define"), .atom (.ofString "b"), .number 1]
  have ha (D : Domain) (v : Value) : v ∈ [form, .number 0, .number 2, .number 3] →
      v.Within D := by
    intro hv
    simp only [form, List.mem_cons, List.not_mem_nil, or_false] at hv
    rcases hv with rfl | rfl | rfl | rfl <;> simp
  have h₁ := @Reachable.step _ _ (.define 0 (.ofString "a") (.number 0)) _ files 0
    (.start { primitives := false }) ⟨Nat.zero_lt_one, ha _ _ (by simp)⟩ rfl
  have h₂ := @Reachable.step _ _ (.eval 0 form) _ files 3 h₁
    ⟨Nat.zero_lt_one, ha _ _ (by simp)⟩ rfl
  have h₃ := @Reachable.step _ _ (.extend 0) _ files 0 h₂ Nat.zero_lt_one rfl
  have h₄ := @Reachable.step _ _ (.define 1 (.ofString "c") (.number 2)) _ files 0 h₃
    ⟨Nat.one_lt_two, ha _ _ (by simp)⟩ rfl
  exact @Reachable.step _ _ (.define 1 (.ofString "a") (.number 3)) _ files 0 h₄
    ⟨Nat.one_lt_two, ha _ _ (by simp)⟩ rfl

theorem visibleNames_of_shadowing :
    shadowing.store.visibleNames 1 = [.ofString "c", .ofString "a", .ofString "b"] ∧
    (∃ v, shadowing.store.get 1 (.ofString "b") = .ok v) ∧
    (shadowing.store.visibleNames 1).Nodup := by
  have hlist : shadowing.store.visibleNames 1 =
      [.ofString "c", .ofString "a", .ofString "b"] := by
    with_unfolding_all rfl
  obtain ⟨hn, hm, -⟩ := visibleNames_of_reachable reachable_shadowing (e := 1) Nat.one_lt_two
  exact ⟨hlist, (hm _).mp (by simp [hlist]), hn⟩

end World

end SmallScheme
