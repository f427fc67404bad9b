import SmallScheme.Proofs.Machine.Invariant
import SmallScheme.Proofs.Reader.Interning
import SmallScheme.Proofs.Reader.RoundTrip

/-!
# Files that load one another

Loading a file is not a call: it puts a task on the machine and nothing on the stack. So the limit
does not stop files that load one another in a circle. Such a load never ends, and the waiting tasks
grow without bound while the stack stays as it was.
-/

namespace SmallScheme

set_option autoImplicit false

/-- The form that loads a file. -/
def Value.loading (file : Text) : Value := .list [.atom (.ofString "load"), .string file]

/-- A file whose text, read under its name, consists of the given forms. -/
def Files.Holds (files : Files) (file : Text) (forms : List Value) : Prop :=
  ∃ contents, files file = .ok contents ∧
    (Reader.readNamed (some .empty) file contents).1 = .ok forms

theorem Value.readable_loading {file : Text} (h : file.Plain) :
    (loading file).Readable Text.Plain := by
  have hl : Text.IsSymbol (.ofString "load") :=
    ⟨"load".toList, rfl, symbolName_cons (by decide) (by decide)⟩
  apply Readable.list
  intro v hv
  simp only [List.mem_cons, List.not_mem_nil, or_false] at hv
  rcases hv with rfl | rfl
  · exact .atom hl (by decide) (by decide)
  · exact .string h

theorem Files.holds_loading {files : Files} {file next : Text} (h : next.Plain)
    (hf : files file = .ok (Value.loading next).render) :
    files.Holds file [.loading next] := by
  refine ⟨(Value.loading next).render, hf, ?_⟩
  apply Reader.readNamed_renderAll SymbolTable.faithful?_empty file [.loading next]
  intro v hv
  rw [List.mem_singleton.mp hv]
  exact Value.readable_loading h

namespace State

variable {files : Files} (frame : Nat) (tasks : List Task) {w : World} {file : Text} {form : Value}

theorem step_loading :
    step files ⟨.eval frame (.loading file), tasks, w⟩ = ⟨.fetch frame file .load, tasks, w⟩ :=
  rfl

/-- A file of one form comes to that form, with a task that waits for it and no call. -/
theorem step_fetch (hf : files.Holds file [form]) (hr : w.reader.isSome = true) :
    ∃ w', step files ⟨.fetch frame file .load, tasks, w⟩ =
        ⟨.eval frame form, .sequence frame [] :: tasks, w'⟩ ∧
      w'.stack = w.stack ∧ w'.reader.isSome = true := by
  obtain ⟨contents, hc, hv⟩ := hf
  obtain ⟨table, ht⟩ := Option.isSome_iff_exists.mp hr
  refine ⟨(w.read file contents).2, ?_, rfl, ?_⟩
  · have hn : (w.read file contents).1 = .ok [form] :=
      (Reader.fst_readNamed w.faithful SymbolTable.faithful?_empty file contents).trans hv
    simp only [step, fetch, ht, hc, withExpressions, hn, sequence]
  · exact (Reader.isSome_readNamed w.reader file contents).trans hr

section Cycle

variable {k : Nat} {names : Fin (k + 1) → Text} {frame : Nat} {tasks : List Task}

/-- A state in which one of the files is about to be loaded. -/
def Loading (names : Fin (k + 1) → Text) (frame : Nat) (s : State) : Prop :=
  s.world.reader.isSome = true ∧
    ∃ i, s.control = .eval frame (.loading (names i)) ∨ s.control = .fetch frame (names i) .load

variable (hc : ∀ i, files.Holds (names i) [.loading (names (i + 1))])
include hc

theorem Loading.step {s : State} (h : s.Loading names frame) :
    (s.step files).Loading names frame := by
  obtain ⟨control, tasks, w⟩ := s
  obtain ⟨hr, i, hs | hs⟩ := h
  · cases hs
    exact ⟨hr, i, .inr rfl⟩
  · cases hs
    obtain ⟨w', hw, -, hr'⟩ := step_fetch frame tasks (hc i) hr
    rw [hw]
    exact ⟨hr', i + 1, .inl rfl⟩

theorem Loading.run_eq_none {s : State} (h : s.Loading names frame) (fuel : Nat) :
    run files fuel s = none := by
  cases hr : run files fuel s with
  | none => rfl
  | some o =>
    have hl := invariant_run (P := Loading names frame) (fun _ => Loading.step hc) h hr
    obtain ⟨-, i, hi | hi⟩ := hl
    · cases hi
    · cases hi

/-- After any number of turns as many tasks wait, and no call is in progress that was not. -/
theorem leads_loading (hr : w.reader.isSome = true) (i : Fin (k + 1)) (turns : Nat) :
    ∃ j w', Leads files ⟨.eval frame (.loading (names i)), tasks, w⟩
        ⟨.eval frame (.loading (names j)), List.replicate turns (.sequence frame []) ++ tasks, w'⟩ ∧
      w'.stack = w.stack ∧ w'.reader.isSome = true := by
  induction turns with
  | zero => exact ⟨i, w, .refl _, rfl, hr⟩
  | succ turns ih =>
    obtain ⟨j, w', hl, hs, hr'⟩ := ih
    obtain ⟨w'', hw, hs', hr''⟩ := step_fetch frame
      (List.replicate turns (.sequence frame []) ++ tasks) (hc j) hr'
    refine ⟨j + 1, w'', hl.trans (.step (.step ?_)), hs'.trans hs, hr''⟩
    rw [step_loading, hw]
    exact .refl _

end Cycle

end State

namespace World

/-- Files that load one another in a circle are loaded without end, whatever the limit: ever more
tasks wait, and the stack is not touched. -/
theorem eval_loading_cycle {files : Files} {k : Nat} {names : Fin (k + 1) → Text}
    (hc : ∀ i, files.Holds (names i) [.loading (names (i + 1))]) {w : World}
    (hr : w.reader.isSome = true) (frame : Nat) (i : Fin (k + 1)) :
    (∀ fuel, w.eval files fuel frame (.loading (names i)) = none) ∧
    ∀ depth, ∃ s, State.Leads files ⟨.eval frame (.loading (names i)), [], w⟩ s ∧
      s.tasks.length = depth ∧ s.world.stack = w.stack := by
  constructor
  · intro fuel
    exact State.Loading.run_eq_none hc ⟨hr, i, .inl rfl⟩ fuel
  · intro depth
    obtain ⟨j, w', hl, hs, -⟩ := State.leads_loading hc hr i depth
    exact ⟨_, hl, by simp, hs⟩

/-- Three files, of which two load each other and one loads itself. -/
def circles : Files := fun file =>
  if file = .ofString "a" then .ok (.ofString "(load \"b\")")
  else if file = .ofString "b" then .ok (.ofString "(load \"a\")")
  else if file = .ofString "c" then .ok (.ofString "(load \"c\")")
  else .error ⟨.ofString "file does not exist", true⟩

theorem eval_loading_cycle_two :
    circles.Holds (.ofString "a") [.loading (.ofString "b")] ∧
    circles.Holds (.ofString "b") [.loading (.ofString "a")] ∧
    ∀ fuel, (new { limit := 1 }).eval circles fuel root (.loading (.ofString "a")) = none := by
  have ha : circles.Holds (.ofString "a") [.loading (.ofString "b")] :=
    Files.holds_loading ⟨⟨"b".toList, rfl⟩, by decide, by decide⟩ (by decide)
  have hb : circles.Holds (.ofString "b") [.loading (.ofString "a")] :=
    Files.holds_loading ⟨⟨"a".toList, rfl⟩, by decide, by decide⟩ (by decide)
  have hc : ∀ i : Fin 2, circles.Holds (if i = 0 then .ofString "a" else .ofString "b")
      [.loading (if i + 1 = 0 then .ofString "a" else .ofString "b")] := by
    intro i
    match i with
    | 0 => exact ha
    | 1 => exact hb
  exact ⟨ha, hb, (eval_loading_cycle hc rfl root 0).1⟩

theorem eval_loading_self :
    ¬ ∃ fuel e w', (new { limit := 1 }).eval circles fuel root (.loading (.ofString "c")) =
      some (.error e, w') := by
  rintro ⟨fuel, e, w', h⟩
  have hc : ∀ _ : Fin 1, circles.Holds (.ofString "c") [.loading (.ofString "c")] := fun _ =>
    Files.holds_loading ⟨⟨"c".toList, rfl⟩, by decide, by decide⟩ (by decide)
  have hs : (State.mk (.eval root (.loading (.ofString "c"))) [] (new { limit := 1 })).Loading
      (fun _ : Fin 1 => .ofString "c") root := ⟨rfl, 0, .inl rfl⟩
  rw [eval, State.Loading.run_eq_none hc hs fuel] at h
  cases h

end World

end SmallScheme
