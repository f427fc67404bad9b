import SmallScheme.Proofs.Machine.Limit
import SmallScheme.Proofs.Safety.Machine
import SmallScheme.Proofs.Session.Program

/-!
# Sessions that nothing goes wrong in

A world is set up, operations are carried out on it and sessions evaluate lines in it; each of these
can be done with the guarded machine and reader. `Session.guarded_of_reachable` says of every
session that lines and operations lead to, whatever they were and however they ended, that nothing
goes wrong with what comes next.
-/

namespace SmallScheme

set_option autoImplicit false

/-! ## Frames that stay -/

section Frames

/-- The store is well formed and holds a given frame. -/
def World.Holds (w : World) (i : Nat) : Prop := w.store.WellFormed ∧ w.store.Allocated i

/-- An evaluation as an operation on an environment. -/
def Entry.operation : Entry → Operation
  | .eval frame form => .eval frame form
  | .apply caller procedure args => .apply caller procedure args
  | .load frame name contents => .load frame name contents
  | .loadFile frame file => .loadFile frame file

variable {files : Files} {fuel : Nat} {w w' : World} {entry : Entry} {i : Nat}

theorem Store.allocated_define {s : Store} {j : Nat} {name : Text} {v : Value} :
    (s.define j name v).Allocated i ↔ s.Allocated i := by
  simp [Store.define, Store.Allocated]

theorem Entry.follows_start (ha : entry.operation.Admissible w.store) :
    (entry.start w).Follows w.store.domain w := by
  cases entry with
  | eval | loadFile => exact .same rfl ⟨ha, State.within_nil⟩
  | apply => exact .same rfl ⟨ha.2, State.within_nil⟩
  | load frame name contents =>
    unfold start
    dsimp only
    split
    · exact .same rfl ⟨resultWithin_error _, State.within_nil⟩
    · exact State.follows_load ha name contents

/-- No operation takes a frame away. -/
theorem Operation.holds_perform {op : Operation} {reply : Operation.Answer} (hw : w.Holds i)
    (ha : op.Admissible w.store) (h : op.perform files fuel w = some (reply, w')) :
    w'.Holds i := by
  obtain ⟨D, he, -⟩ := edit_perform hw.1.closed ha.within h
  exact ⟨(sound_perform hw.1 ha h).1, he.allocated hw.2⟩

theorem Entry.holds_outcome {r : Except Error Value} (hw : w.Holds i)
    (ha : entry.operation.Admissible w.store) (h : entry.outcome files fuel w = some (r, w')) :
    w'.Holds i := by
  have hp : entry.operation.perform files fuel w =
      Operation.ofOutcome (entry.outcome files fuel w) := by
    cases entry <;> rfl
  rw [h] at hp
  exact Operation.holds_perform hw ha hp

theorem World.holds_evalEach {frame : Nat} {forms : List Value} {batch : World.Batch}
    (hw : w.Holds frame) (hv : ∀ v ∈ forms, ∀ D, v.Within D)
    (h : World.evalEach files fuel frame w forms = some batch) : batch.world.Holds frame := by
  induction forms generalizing w batch with
  | nil =>
    cases h
    exact hw
  | cons form forms ih =>
    have hw₀ : World.Holds { w with trace := none } frame := hw
    obtain ⟨⟨r, w₁⟩, ho, h⟩ := Option.bind_eq_some_iff.mp h
    have ha : (Entry.eval frame form).operation.Admissible w.store :=
      ⟨hw.2, hv form List.mem_cons_self _⟩
    have hw₁ : w₁.Holds frame := Entry.holds_outcome hw₀ ha ho
    cases r with
    | error e =>
      cases h
      exact hw₁
    | ok v =>
      obtain ⟨rest, hr, h⟩ := Option.bind_eq_some_iff.mp h
      cases h
      change rest.world.Holds frame
      exact ih hw₁ (fun v hm => hv v (List.mem_cons_of_mem form hm)) hr

theorem Store.allocated_addPrimitives {s : Store} (hi : s.Allocated i) (j : Nat)
    (ops : List Primitive) : (s.addPrimitives j ops).1.Allocated i := by
  induction ops generalizing s with
  | nil => exact hi
  | cons op ops ih =>
    have hi' : (s.makePrimitive op).2.Allocated i := hi
    rw [addPrimitives]
    split
    · exact hi
    · exact ih (Store.allocated_define.mpr hi')

theorem World.holds_new (setup : Setup) : (World.new setup).Holds World.root := by
  have hr : (Store.empty.allocate (.empty none)).2.Allocated World.root := Nat.zero_lt_one
  refine ⟨World.wellFormed_new setup, ?_⟩
  unfold World.new
  dsimp only
  split
  · exact Store.allocated_addPrimitives hr _ _
  · exact hr

end Frames

namespace Guarded

open SmallScheme.World (Batch)

section Operations

def start (w : World) : Entry → Guarded State
  | .eval frame form => .ok ⟨.eval frame form, [], w⟩
  | .apply caller procedure args => .ok ⟨.call caller [] procedure args, [], w⟩
  | .load frame name contents =>
    match w.reader with
    | none => .ok (.fail (.noReader name) [] w)
    | some _ => State.withExpressions name contents (State.sequence frame) [] w
  | .loadFile frame file => .ok ⟨.fetch frame file .load, [], w⟩

def outcome (files : Files) (fuel : Nat) (w : World) (entry : Entry) :
    Guarded (Option Outcome) := do
  let s ← start w entry
  State.run files fuel s

def carryOut (files : Files) (fuel : Nat) (w : World) :
    Operation → Guarded (Option (Operation.Answer × World))
  | .eval frame form => Operation.ofOutcome <$> outcome files fuel w (.eval frame form)
  | .apply caller procedure args =>
    Operation.ofOutcome <$> outcome files fuel w (.apply caller procedure args)
  | .load frame name contents =>
    Operation.ofOutcome <$> outcome files fuel w (.load frame name contents)
  | .loadFile frame file => Operation.ofOutcome <$> outcome files fuel w (.loadFile frame file)
  | .get frame name => do
    let (v, e) ← get w.store frame name
    let (r, w) ← State.outcome w v e
    return some (.result r, w)
  | .set frame name v => do
    match ← set w.store frame name (some v) with
    | .ok store => return some (.result (.ok v), { w with store := store })
    | .error e => return some (.result (.error e), w)
  | .define frame name v => do
    let store ← define w.store frame name (some v)
    return some (.result (.ok v), { w with store := store })
  | .extend frame => do
    let _ ← present w.store.frames[frame]?
    let (i, store) := w.store.allocate (.empty (some frame))
    return some (.frame i, { w with store := store })
  | .bind frame formals args => do
    let (i, store) ← Guarded.bind w.store frame formals args
    return some (.frame i, { w with store := store })

variable {files : Files} {fuel : Nat} {w : World}

theorem start_eq (w : World) (entry : Entry) : start w entry = .ok (.view (entry.start w)) := by
  cases entry with
  | eval | apply | loadFile => rfl
  | load frame name contents =>
    cases hr : w.reader with
    | none =>
      simp only [start, Entry.start, hr]
      rfl
    | some table =>
      have hn : w.reader ≠ none := hr ▸ Option.some_ne_none table
      simp only [start, Entry.start, hr]
      rw [← List.map_nil]
      exact State.withExpressions_eq hn fun forms w => State.sequence_eq frame forms

theorem outcome_eq (hw : w.store.WellFormed) {entry : Entry}
    (ha : entry.operation.Admissible w.store) :
    outcome files fuel w entry = .ok (entry.outcome files fuel w) := by
  have hs := SmallScheme.State.Follows.sound hw (Entry.follows_start ha)
  rw [outcome, start_eq, ok_bind, State.run_eq hs (entry.balanced_start w), Entry.outcome_eq_run]

/-- An operation whose frames exist does not go wrong. -/
theorem carryOut_eq (hw : w.store.WellFormed) {op : Operation} (ha : op.Admissible w.store) :
    carryOut files fuel w op = .ok (op.perform files fuel w) := by
  have hentry (entry : Entry) (ha : entry.operation.Admissible w.store) :
      Operation.ofOutcome <$> outcome files fuel w entry =
        .ok (Operation.ofOutcome (entry.outcome files fuel w)) := by
    rw [outcome_eq hw ha]
    rfl
  cases op with
  | eval frame form => exact hentry (.eval frame form) ha
  | apply caller procedure args => exact hentry (.apply caller procedure args) ha
  | load frame name contents => exact hentry (.load frame name contents) ha
  | loadFile frame file => exact hentry (.loadFile frame file) ha
  | get frame name =>
    rw [carryOut, get_eq hw ha, ok_bind, Operation.perform]
    cases w.store.get frame name <;> rfl
  | set frame name v =>
    rw [carryOut, set_eq hw ha.1, ok_bind, Operation.perform]
    cases w.store.set frame name v <;> rfl
  | define frame name v =>
    rw [carryOut, define_eq ha.1]
    rfl
  | extend frame =>
    obtain ⟨f, hp, -⟩ := present_frame ha
    rw [carryOut, hp]
    rfl
  | bind frame formals args =>
    rw [carryOut, bind_eq ha.1 ha.2.1]
    rfl

end Operations

section SetUp

/-- Binds primitive procedures to their names, which must not be bound yet. -/
def addPrimitives (s : Store) (i : Nat) : List Primitive → Guarded Store
  | [] => .ok s
  | op :: ops => do
    let f ← present s.frames[i]?
    if f.binds op.name then .error (.misuse (.alreadyBound op.name))
    else
      let (v, s) := s.makePrimitive op
      let s ← define s i op.name (some v)
      addPrimitives s i ops

def setUp (setup : Setup) : Guarded World := do
  let (i, store) := Store.empty.allocate (.empty none)
  let store ← if setup.primitives then addPrimitives store i Primitive.all else pure store
  let w : World :=
    { store := store
      stack := .empty setup.limit
      trace := none
      reader := none
      faithful := SymbolTable.faithful?_none }
  State.withReader w (if setup.reader then some .empty else none)

theorem addPrimitives_eq {s : Store} {i : Nat} (hi : s.Allocated i) {ops : List Primitive}
    (h : (s.addPrimitives i ops).2 = none) :
    addPrimitives s i ops = .ok (s.addPrimitives i ops).1 := by
  induction ops generalizing s with
  | nil => rfl
  | cons op ops ih =>
    obtain ⟨f, hp, hf⟩ := present_frame hi
    have hb : s.binds i op.name = f.binds op.name := by simp [Store.binds, hf]
    rw [addPrimitives, hp, ok_bind]
    unfold Store.addPrimitives at h ⊢
    rw [hb] at h ⊢
    split
    · rename_i hb
      rw [if_pos hb] at h
      cases h
    · rename_i hb
      rw [if_neg hb] at h
      have hi' : (s.makePrimitive op).2.Allocated i := hi
      dsimp only
      rw [define_eq hi', ok_bind]
      refine ih ?_ h
      exact Store.allocated_define.mpr hi'

/-- The store with a root frame that binds nothing. -/
def bare : Store := (Store.empty.allocate (.empty none)).2

theorem store_new (setup : Setup) : (World.new setup).store =
    if setup.primitives then (bare.addPrimitives 0 Primitive.all).1 else bare := rfl

theorem setUp_eq (setup : Setup) : setUp setup = .ok (World.new setup) := by
  have hi : bare.Allocated 0 := Nat.zero_lt_one
  -- no two primitive procedures have the same name
  have hn : (bare.addPrimitives 0 Primitive.all).2 = none := by
    decide +kernel
  have hf : SymbolTable.Faithful? (if setup.reader then some .empty else none) :=
    (World.new setup).faithful
  have hs := store_new setup
  unfold setUp
  dsimp only
  split
  · rename_i hp
    rw [if_pos hp] at hs
    change (addPrimitives bare 0 Primitive.all >>= _) = _
    rw [addPrimitives_eq hi hn, ← hs, ok_bind, State.withReader_eq hf]
    rfl
  · rename_i hp
    rw [if_neg hp] at hs
    change (pure bare >>= _) = _
    rw [← hs, pure_eq, ok_bind, State.withReader_eq hf]
    rfl

end SetUp

section Sessions

/-- The lines of a stack trace for the calls up to a number, the latest first. -/
def renderFrames (frames : List CallFrame) : Nat → Guarded Text
  | 0 => .ok []
  | i + 1 => do
    let f ← index frames i
    let more ← renderFrames frames i
    return CallStack.renderFrame i f ++ more

def renderTrace (s : CallStack) : Guarded Text := do
  let lines ← renderFrames s.frames.toList s.height
  return .ofString "Stack Trace [" ++ Decimal.ofNat s.height
    ++ .ofString " frames -- entrypoint last]:\n" ++ lines

def errors (b : Batch) (debug : Bool) : Guarded Text :=
  match b.failure with
  | none => .ok []
  | some e => do
    let trace ←
      match debug, b.world.trace with
      | true, some trace => renderTrace trace
      | _, _ => pure []
    return e.message ++ .ofString "\n" ++ trace

def evalEach (files : Files) (fuel : Nat) (frame : Nat) (w : World) :
    List Value → Guarded (Option Batch)
  | [] => .ok (some ⟨[], none, w⟩)
  | form :: forms => do
    match ← outcome files fuel { w with trace := none } (.eval frame form) with
    | none => return none
    | some (.error e, w) => return some ⟨[], some e, w⟩
    | some (.ok v, w) =>
      let rest ← evalEach files fuel frame w forms
      return rest.map fun rest => { rest with values := v :: rest.values }

def feed (files : Files) (fuel : Nat) (s : Session) (line : Text) :
    Guarded (Option (Reply × Session)) :=
  if s.quits line then .ok (some (⟨false, true, [], []⟩, s))
  else
    let held := s.held ++ [line]
    let text := Text.join (.ofString "\n") held
    if text.awaitsMore then .ok (some (⟨true, false, [], []⟩, { s with held := held }))
    else do
      let (r, _) ← readSource (some .empty) [] text none
      match r with
      | .error e => return some (⟨false, false, [], e.message ++ .ofString "\n"⟩, s.reset)
      | .ok forms =>
        match ← evalEach files fuel s.frame s.world forms with
        | none => return none
        | some batch =>
          let err ← errors batch s.debug
          return some (⟨false, false, batch.output, err⟩, { s.reset with world := batch.world })

variable {files : Files} {fuel : Nat} {w : World} {frame : Nat}

theorem renderFrames_eq {frames : List CallFrame} {n : Nat} (h : n ≤ frames.length) :
    renderFrames frames n = .ok
      (((frames.take n).zipIdx.reverse.map fun x => CallStack.renderFrame x.2 x.1).flatten) := by
  induction n with
  | zero => rfl
  | succ n ih =>
    have hn := List.getElem?_eq_getElem h
    rw [renderFrames, index_eq hn, ok_bind, ih (Nat.le_of_succ_le h), ok_bind,
      List.take_add_one, hn]
    simp only [Option.toList_some, List.zipIdx_append, List.length_take,
      Nat.min_eq_left (Nat.le_of_succ_le h), List.reverse_append, List.map_append]
    simp

theorem renderTrace_eq (s : CallStack) : renderTrace s = .ok s.render := by
  have hh : s.height = s.frames.toList.length := rfl
  rw [renderTrace, renderFrames_eq (Nat.le_of_eq hh), hh, List.take_length]
  rfl

theorem errors_eq (b : Batch) (debug : Bool) : errors b debug = .ok (b.errors debug) := by
  unfold errors Batch.errors Batch.report World.renderTrace
  cases b.failure with
  | none => rfl
  | some e =>
    cases debug with
    | false => rfl
    | true =>
      cases b.world.trace with
      | none => rfl
      | some trace =>
        dsimp only
        rw [renderTrace_eq]
        rfl

/-- Forms that name no frame do not go wrong one after another. -/
theorem evalEach_eq (hw : w.Holds frame) {forms : List Value}
    (hv : ∀ v ∈ forms, ∀ D, v.Within D) :
    evalEach files fuel frame w forms = .ok (World.evalEach files fuel frame w forms) := by
  induction forms generalizing w with
  | nil => rfl
  | cons form forms ih =>
    have hw₀ : World.Holds { w with trace := none } frame := hw
    have ha : (Entry.eval frame form).operation.Admissible w.store :=
      ⟨hw.2, hv form List.mem_cons_self _⟩
    rw [evalEach, outcome_eq hw₀.1 ha, ok_bind, World.evalEach]
    change _ = Except.ok
      ((Entry.eval frame form).outcome files fuel { w with trace := none } >>= _)
    cases he : (Entry.eval frame form).outcome files fuel { w with trace := none } with
    | none => rfl
    | some o =>
      obtain ⟨r, w₁⟩ := o
      cases r with
      | error e => rfl
      | ok v =>
        have hw₁ : w₁.Holds frame := Entry.holds_outcome hw₀ ha he
        change (evalEach files fuel frame w₁ forms >>= _) = _
        rw [ih hw₁ fun v hm => hv v (List.mem_cons_of_mem form hm), ok_bind]
        cases hb : World.evalEach files fuel frame w₁ forms with
        | none => simp [hb]
        | some batch => simp [hb]

/-- A line that a session takes in a frame of its world does not go wrong. -/
theorem feed_eq {s : Session} (hw : s.world.Holds s.frame) (line : Text) :
    feed files fuel s line = .ok (s.feed files fuel line) := by
  unfold feed Session.feed Session.intake
  split
  · rfl
  dsimp only
  split
  · rfl
  rw [readSource_eq, ok_bind]
  change (match Reader.readAll _ with | .error e => _ | .ok forms => _) = _
  cases hr : Reader.readAll (Text.join (.ofString "\n") (s.held ++ [line])) with
  | error e => rfl
  | ok forms =>
    dsimp only
    rw [evalEach_eq hw fun v hv D =>
      Reader.within_readNamed SymbolTable.faithful?_empty hr v hv]
    change (match World.evalEach files fuel s.frame s.world forms with
      | none => _
      | some batch => _) = Except.ok (World.evalEach files fuel s.frame s.world forms >>= _)
    cases World.evalEach files fuel s.frame s.world forms with
    | none => rfl
    | some batch =>
      dsimp only
      rw [errors_eq]
      rfl

end Sessions

end Guarded

/-! ## Sessions from their beginning on -/

namespace Session

/-- The sessions that lines, operations and reading lead to from a new world on. The files that
there are may change between them. -/
inductive Reachable : Session → Prop where
  | start (setup : Setup) (debug : Bool) : Reachable (.new (World.new setup) debug)
  | feed {s s' : Session} {line : Text} {reply : Reply} (files : Files) (fuel : Nat) :
      Reachable s → s.feed files fuel line = some (reply, s') → Reachable s'
  | reset {s : Session} : Reachable s → Reachable s.reset
  | perform {s : Session} {op : Operation} {reply : Operation.Answer} {w : World} (files : Files)
      (fuel : Nat) : Reachable s → op.Admissible s.world.store →
      op.perform files fuel s.world = some (reply, w) → Reachable { s with world := w }
  | read {s : Session} (source : Source) : Reachable s →
      Reachable { s with world := { s.world with
        reader := (Reader.readSource s.world.reader source).2
        faithful := Reader.faithful_readSource s.world.faithful source } }
  /-- Another session begins, in any frame of the world. -/
  | opened {s : Session} {frame : Nat} (debug : Bool) : Reachable s →
      s.world.store.Allocated frame → Reachable (.opened s.world frame debug)

variable {files : Files} {fuel : Nat} {s s' : Session} {line : Text} {reply : Reply}

theorem holds_feed (hw : s.world.Holds s.frame) (h : s.feed files fuel line = some (reply, s')) :
    s'.world.Holds s'.frame := by
  rcases intake_cases s line with hi | hi | ⟨e, hi⟩ | ⟨forms, hr, hi⟩
  · rw [feed, hi] at h
    cases h
    exact hw
  · rw [feed, hi] at h
    cases h
    exact hw
  · rw [feed, hi] at h
    cases h
    exact hw
  · rw [feed, hi] at h
    obtain ⟨batch, hb, h⟩ := Option.bind_eq_some_iff.mp h
    cases h
    exact World.holds_evalEach hw
      (fun v hv D => Reader.within_readNamed SymbolTable.faithful?_empty hr v hv) hb

theorem Reachable.holds (h : s.Reachable) : s.world.Holds s.frame := by
  induction h with
  | start setup debug => exact World.holds_new setup
  | feed files fuel _ hf ih => exact holds_feed ih hf
  | reset _ ih => exact ih
  | perform files fuel _ ha hp ih => exact Operation.holds_perform ih ha hp
  | read source _ ih => exact ih
  | opened debug _ hf ih => exact ⟨ih.1, hf⟩

/-- Nothing goes wrong in a session, whatever came before: not with the next line, not with an
operation whose frames exist, and not with reading, whose expressions can be evaluated in every
frame. Nor does anything go wrong in setting up a world. -/
theorem guarded_of_reachable (h : s.Reachable) (files : Files) (fuel : Nat) :
    (∀ line, Guarded.feed files fuel s line = .ok (s.feed files fuel line)) ∧
    (∀ op, op.Admissible s.world.store →
      Guarded.carryOut files fuel s.world op = .ok (op.perform files fuel s.world)) ∧
    (∀ name contents readError,
      Guarded.readSource s.world.reader name contents readError =
        .ok (Reader.readSource s.world.reader (.ofText name contents readError)) ∧
      ∀ forms, (Reader.readSource s.world.reader (.ofText name contents readError)).1 = .ok forms →
        ∀ form ∈ forms, ∀ frame, s.world.store.Allocated frame →
          (Operation.eval frame form).Admissible s.world.store) ∧
    ∀ setup, Guarded.setUp setup = .ok (World.new setup) := by
  have hw := h.holds
  refine ⟨Guarded.feed_eq hw, fun op ha => Guarded.carryOut_eq hw.1 ha, ?_, Guarded.setUp_eq⟩
  intro name contents readError
  refine ⟨Guarded.readSource_eq _ name contents readError, ?_⟩
  intro forms hr form hm frame hf
  exact ⟨hf, (Reader.readable_of_readSource s.world.faithful hr form hm).within⟩

/-- A line that cannot be read, and behind it one that fails in a call. -/
theorem guarded_of_divisionByZero :
    ∃ s₁ s₂, (Session.new (World.new {}) true).feed (fun _ => .ok []) 20 (.ofString "(car . )") =
        some (⟨false, false, [], .ofString "Parse error at 1:8: unexpected )\n"⟩, s₁) ∧
      Guarded.feed (fun _ => .ok []) 20 s₁ (.ofString "(/ 1 0)") =
        .ok (some (⟨false, false, [], .ofString ("Division by zero: /\n" ++
          "Stack Trace [1 frames -- entrypoint last]:\n  height 0: /\n")⟩, s₂)) := by
  have hv : ((Session.new (World.new {}) true).feedAll (fun _ => .ok []) 20
      [.ofString "(car . )", .ofString "(/ 1 0)"]).map Prod.fst =
        some [⟨false, false, [], .ofString "Parse error at 1:8: unexpected )\n"⟩,
          ⟨false, false, [], .ofString ("Division by zero: /\n" ++
            "Stack Trace [1 frames -- entrypoint last]:\n  height 0: /\n")⟩] := by
    decide +kernel
  obtain ⟨⟨replies, s₂⟩, ha, rfl⟩ := Option.map_eq_some_iff.mp hv
  obtain ⟨reply₁, rest, s₁, hf₁, ha, hr⟩ := exists_of_feedAll_cons ha
  obtain ⟨reply₂, rest, s₂, hf₂, -, rfl⟩ := exists_of_feedAll_cons ha
  cases hr
  refine ⟨s₁, s₂, hf₁, ?_⟩
  rw [(guarded_of_reachable (.feed _ 20 (.start {} true) hf₁) (fun _ => .ok []) 20).1, hf₂]

end Session

end SmallScheme
