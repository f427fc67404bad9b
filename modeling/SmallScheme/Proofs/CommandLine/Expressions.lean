import SmallScheme.CommandLine.Run
import SmallScheme.Proofs.Machine.Twins
import SmallScheme.Proofs.Reader.Names
import SmallScheme.Proofs.Session.Program

/-!
# Expressions on the command line

The command that runs expressions and prints their values does with its arguments what a session
does with them as lines, up to the first that is reported (`CommandLine.execute_expressions`). The
two keep separate symbol tables: the command has one for all arguments, and a session reads each
line with a new one.
-/

namespace SmallScheme

set_option autoImplicit false

/-- Answers lines one after another, up to the first to which something is reported. -/
def Session.feedUntilReport (files : Files) (fuel : Nat) :
    Session → List Text → Option (List Reply)
  | _, [] => some []
  | s, line :: lines => do
    let (reply, s) ← s.feed files fuel line
    if reply.err = [] then return reply :: (← s.feedUntilReport files fuel lines)
    else return [reply]

namespace Session

variable {files : Files} {fuel : Nat} {s s' : Session} {line : Text} {reply : Reply}

theorem feedUntilReport_reported (h : s.feed files fuel line = some (reply, s'))
    (hr : reply.err ≠ []) (lines : List Text) :
    s.feedUntilReport files fuel (line :: lines) = some [reply] := by
  simp only [feedUntilReport, h, Option.bind_eq_bind, Option.bind_some, hr, if_false]
  rfl

theorem feedUntilReport_silent (h : s.feed files fuel line = some (reply, s'))
    (hr : reply.err = []) (lines : List Text) :
    s.feedUntilReport files fuel (line :: lines) =
      (s'.feedUntilReport files fuel lines).map (reply :: ·) := by
  simp only [feedUntilReport, h, Option.bind_eq_bind, Option.bind_some, hr, if_true]
  cases s'.feedUntilReport files fuel lines <;> rfl

theorem feedUntilReport_unfinished (h : s.feed files fuel line = none) (lines : List Text) :
    s.feedUntilReport files fuel (line :: lines) = none := by
  rw [feedUntilReport, h]
  rfl

end Session

namespace CommandLine

/-- Reports of the command and of a session on the same text. They are the same if the text can be
read; if not, the place in the one is written behind the name of the source. -/
structure SameReport (text err err' : Text) : Prop where
  read : (∃ forms, Reader.readAll text = .ok forms) → err = err'
  refused : (∃ e, Reader.readAll text = .error e) → ∃ place message, place ≠ [] ∧
    err = (Error.parse (Text.ofString "<expression>:" ++ place) message).message ++ newline ∧
    err' = (Error.parse place message).message ++ newline

/-- What the command does with texts to which a session gives these replies. -/
structure Mirrors (texts : List Text) (replies : List Reply) (run : Execution) : Prop where
  out_eq : run.out = replies.flatMap Reply.out
  status_eq : run.status = if ∃ r ∈ replies, r.err ≠ [] then 1 else 0
  silent : (∀ r ∈ replies, r.err = []) → run.err = [] ∧ replies.length = texts.length
  reported (earlier : List Reply) (reply : Reply) : replies = earlier ++ [reply] →
    reply.err ≠ [] → (∀ r ∈ earlier, r.err = []) ∧
      ∃ text, texts[earlier.length]? = some text ∧ SameReport text run.err reply.err

variable {files : Files} {fuel : Nat} {o : Options} {w : World} {s : Session} {text err : Text}
  {texts : List Text} {reply : Reply} {replies : List Reply} {run : Execution} {forms : List Value}

theorem mirrors_nil : Mirrors [] [] ⟨[], [], 0⟩ := by
  refine ⟨rfl, by simp, fun _ => ⟨rfl, rfl⟩, ?_⟩
  intro earlier reply he
  simp at he

theorem mirrors_reported (hr : reply.err ≠ []) (h : SameReport text err reply.err) :
    Mirrors (text :: texts) [reply] ⟨reply.out, err, 1⟩ := by
  refine ⟨by simp, by simp [hr], ?_, ?_⟩
  · intro hs
    exact absurd (hs reply List.mem_cons_self) hr
  · intro earlier reply' he _
    cases earlier with
    | nil =>
      obtain rfl : reply = reply' := by simpa using he
      exact ⟨by simp, text, rfl, h⟩
    | cons => simp at he

theorem Mirrors.cons (h : Mirrors texts replies run) (hr : reply.err = []) (text : Text) :
    Mirrors (text :: texts) (reply :: replies) { run with out := reply.out ++ run.out } := by
  refine ⟨?_, ?_, ?_, ?_⟩
  · rw [List.flatMap_cons, ← h.out_eq]
  · simp [h.status_eq, hr]
  · intro hs
    obtain ⟨he, hl⟩ := h.silent fun r hm => hs r (List.mem_cons_of_mem reply hm)
    exact ⟨he, congrArg Nat.succ hl⟩
  · intro earlier reply' hrs hr'
    cases earlier with
    | nil =>
      obtain ⟨rfl, -⟩ := List.cons.inj hrs
      exact absurd hr hr'
    | cons first earlier =>
      obtain ⟨rfl, he⟩ := List.cons.inj hrs
      obtain ⟨hs, text', ht, hsame⟩ := h.reported earlier reply' he hr'
      refine ⟨?_, text', ht, hsame⟩
      intro r hm
      rcases List.mem_cons.mp hm with rfl | hm
      · exact hr
      · exact hs r hm

section Feed

variable (hh : s.held = []) (hq : text.trim ≠ Session.quitCommand) (ha : text.awaitsMore = false)
include hh hq ha

/-- A session reads a line by itself if it holds none back, and if the line neither ends it nor
awaits more. -/
theorem intake_eq : s.intake text =
    match Reader.readAll text with
    | .error e => .refuse e s.reset
    | .ok forms => .forms forms s.reset := by
  have hquit : s.quits text = false := by
    simp [Session.quits, hq]
  have hjoin : Text.join (.ofString "\n") ([] ++ [text]) = text := rfl
  cases hr : Reader.readAll text with
  | error e => simp only [Session.intake, hquit, hh, hjoin, ha, hr, Bool.false_eq_true, if_false]
  | ok forms => simp only [Session.intake, hquit, hh, hjoin, ha, hr, Bool.false_eq_true, if_false]

theorem feed_refused {e : Error} (hr : Reader.readAll text = .error e) :
    s.feed files fuel text = some (⟨false, false, [], e.message ++ newline⟩, s.reset) := by
  rw [Session.feed, intake_eq hh hq ha, hr]
  rfl

theorem feed_forms (hr : Reader.readAll text = .ok forms) :
    s.feed files fuel text =
      (World.evalEach files fuel s.frame s.world forms).map fun batch =>
        (⟨false, false, batch.output, batch.errors s.debug⟩,
          { s.reset with world := batch.world }) := by
  have hf : s.reset.frame = s.frame := rfl
  have hw : s.reset.world = s.world := rfl
  rw [Session.feed, intake_eq hh hq ha, hr]
  dsimp only
  rw [hf, hw]
  cases World.evalEach files fuel s.frame s.world forms <;> rfl

end Feed

theorem readArgument_eq (he : o.expression = true) :
    readArgument files o w text = w.read expressionName text := by
  rw [readArgument, if_pos he]

theorem twin_behind_reading {w' : World} (h : w.Twin w') (name contents : Text) :
    (w.read name contents).2.Twin w' := by
  refine ⟨⟨h.store_eq, h.stack_eq, ?_⟩, h.trace_eq⟩
  exact h.reader_eq.trans (Reader.isSome_readNamed w.reader name contents).symm

theorem sameReport_refl (h : Reader.readAll text = .ok forms) (err : Text) :
    SameReport text err err := by
  refine ⟨fun _ => rfl, ?_⟩
  rintro ⟨e, he⟩
  rw [h] at he
  cases he

theorem errors_ne_nil {b : World.Batch} {e : Error} {debug : Bool} (h : b.failure = some e) :
    b.errors debug ≠ [] := by
  intro hn
  have hf := World.Batch.failure_of_errors hn
  rw [h] at hf
  cases hf

/-- The command on one argument and the rest. -/
theorem runEach_cons (he : o.expression = true) (hp : o.print = true)
    (hr : (w.read expressionName text).1 = .ok forms) :
    runEach files fuel o w (text :: texts) =
      (World.evalEach files fuel World.root (w.read expressionName text).2 forms).bind fun batch =>
        if batch.failure.isSome then some ⟨batch.output, batch.errors o.debug, 1⟩
        else (runEach files fuel o batch.world texts).map fun rest =>
          { rest with out := batch.output ++ rest.out } := by
  obtain ⟨w', hw⟩ : ∃ w', w.read expressionName text = (.ok forms, w') := ⟨_, Prod.ext hr rfl⟩
  rw [runEach, readArgument_eq he, hw]
  simp only [hp, if_true]
  cases World.evalEach files fuel World.root w' forms with
  | none => rfl
  | some batch =>
    simp only [Option.bind_eq_bind, Option.bind_some]
    split
    · rfl
    · cases runEach files fuel o batch.world texts <;> rfl

theorem runEach_refused (he : o.expression = true) {e : Error}
    (hr : (w.read expressionName text).1 = .error e) :
    runEach files fuel o w (text :: texts) = some ⟨[], e.message ++ newline, 1⟩ := by
  obtain ⟨w', hw⟩ : ∃ w', w.read expressionName text = (.error e, w') := ⟨_, Prod.ext hr rfl⟩
  rw [runEach, readArgument_eq he, hw]

/-- A text that cannot be read is reported by both, and both stop. -/
theorem mirrors_refused (he : o.expression = true) (hq : text.trim ≠ Session.quitCommand)
    (ha : text.awaitsMore = false) (hh : s.held = []) {place message : Text} (hne : place ≠ [])
    (hr : ∀ name symbols, SymbolTable.Faithful? symbols →
      (Reader.readNamed symbols name text).1 = .error (.parse (name.label ++ place) message)) :
    Option.Rel (Mirrors (text :: texts)) (s.feedUntilReport files fuel (text :: texts))
      (runEach files fuel o w (text :: texts)) := by
  have hall : Reader.readAll text = .error (.parse place message) :=
    hr [] (some .empty) SymbolTable.faithful?_empty
  have hfeed := @feed_refused files fuel s text hh hq ha _ hall
  have hn : (Error.parse place message).message ++ newline ≠ [] := by
    intro hn
    cases (List.append_eq_nil_iff.mp hn).2
  rw [runEach_refused he (hr _ _ w.faithful), Session.feedUntilReport_reported hfeed hn]
  refine .some (mirrors_reported hn ⟨?_, fun _ => ⟨place, message, hne, rfl, rfl⟩⟩)
  rintro ⟨forms, hf⟩
  rw [hall] at hf
  cases hf

theorem mirrors_runEach (he : o.expression = true) (hp : o.print = true)
    (hq : ∀ text ∈ texts, text.trim ≠ Session.quitCommand)
    (ha : ∀ text ∈ texts, text.awaitsMore = false) (hw : w.Twin s.world) (hh : s.held = [])
    (hf : s.frame = World.root) (hd : s.debug = o.debug) :
    Option.Rel (Mirrors texts) (s.feedUntilReport files fuel texts)
      (runEach files fuel o w texts) := by
  induction texts generalizing w s with
  | nil => exact .some mirrors_nil
  | cons text texts ih =>
    have hq₁ := hq text List.mem_cons_self
    have ha₁ := ha text List.mem_cons_self
    rcases Reader.exists_readNamed text with ⟨forms, hr⟩ | ⟨place, message, hne, hr⟩
    · have hall : Reader.readAll text = .ok forms :=
        hr [] (some .empty) SymbolTable.faithful?_empty
      have hfeed := @feed_forms files fuel s text forms hh hq₁ ha₁ hall
      have hb : Option.Rel World.TwinBatches _ (World.evalEach files fuel s.frame s.world forms) :=
        World.twin_evalEach (twin_behind_reading hw expressionName text) forms
      rw [runEach_cons he hp (hr _ _ w.faithful)]
      rw [hf] at hb hfeed
      generalize World.evalEach files fuel World.root s.world forms = b at hb hfeed
      generalize World.evalEach files fuel World.root _ forms = b' at hb
      cases hb with
      | none =>
        rw [Session.feedUntilReport_unfinished hfeed]
        exact .none
      | @some b' b hb =>
        have hout : b.output = b'.output := hb.output_eq
        have herr : b.errors s.debug = b'.errors o.debug := by rw [hb.errors_eq, hd]
        simp only [Option.map_some, hout, herr] at hfeed
        cases hfail : b'.failure with
        | some e =>
          have hn : b'.errors o.debug ≠ [] := errors_ne_nil hfail
          rw [Session.feedUntilReport_reported hfeed hn]
          simp only [Option.bind_some, hfail, Option.isSome_some, if_true]
          exact .some (mirrors_reported hn (sameReport_refl hall _))
        | none =>
          have hn : b'.errors o.debug = [] := by rw [World.Batch.errors, hfail]
          rw [Session.feedUntilReport_silent hfeed hn]
          have hrest := ih (s := { s.reset with world := b.world })
            (fun text ht => hq text (List.mem_cons_of_mem _ ht))
            (fun text ht => ha text (List.mem_cons_of_mem _ ht)) hb.world rfl hf hd
          simp only [Option.bind_some, hfail, Option.isSome_none, Bool.false_eq_true, if_false]
          generalize runEach files fuel o b'.world texts = run at hrest
          generalize Session.feedUntilReport files fuel _ texts = replies at hrest
          cases hrest with
          | none => exact .none
          | some hm => exact .some (hm.cons hn text)
    · exact mirrors_refused he hq₁ ha₁ hh hne hr

/-- The command that runs expressions and prints their values agrees with a session. It prints what
a new session prints when it is given the expressions as lines, up to the first to which the session
reports something. The command fails if and only if there is one, and its report is that of the
session. -/
theorem execute_expressions (files : Files) (fuel : Nat) (input : Text) {args : List Text}
    (hr : request args = .ok (.run o texts)) (he : o.expression = true) (hp : o.print = true)
    (hq : ∀ text ∈ texts, text.trim ≠ Session.quitCommand)
    (ha : ∀ text ∈ texts, text.awaitsMore = false) :
    Option.Rel (Mirrors texts)
      ((Session.new (world o) o.debug).feedUntilReport files fuel texts)
      (execute files fuel input args) := by
  simp only [execute, hr]
  exact mirrors_runEach he hp hq ha (.refl _) rfl rfl rfl

/-- A definition, a text whose second form fails, and a text behind it. -/
def failingTexts : List Text :=
  ["(define (f x) (+ x 1))", "(f 1) (f \"a\")", "(f 2)"].map Text.ofString

theorem execute_expressions_failing :
    ∃ replies run,
      (Session.new (World.new { limit := 10000 }) true).feedUntilReport (fun _ => .ok []) 20
        failingTexts = some replies ∧
      execute (fun _ => .ok []) 20 []
        (["run", "-e", "--debug", "-p"].map Text.ofString ++ failingTexts) = some run ∧
      Mirrors failingTexts replies run ∧
      run.out = Text.ofString "(lambda (x) ...)\n2\n" ∧ run.status = 1 := by
  have hr : request (["run", "-e", "--debug", "-p"].map Text.ofString ++ failingTexts) =
      .ok (.run { debug := true, expression := true, print := true } failingTexts) := by
    decide +kernel
  have hrun : (execute (fun _ => .ok []) 20 []
      (["run", "-e", "--debug", "-p"].map Text.ofString ++ failingTexts)).map
        (fun run => (run.out, run.status)) =
      some (Text.ofString "(lambda (x) ...)\n2\n", 1) := by
    decide +kernel
  have h := execute_expressions (fun _ => .ok []) 20 [] hr rfl rfl (by decide +kernel)
    (by decide +kernel)
  obtain ⟨run, he, ho⟩ := Option.map_eq_some_iff.mp hrun
  obtain ⟨hout, hstatus⟩ := Prod.mk.inj ho
  rw [he] at h
  generalize hf : Session.feedUntilReport _ _ _ _ = replies at h
  cases h with
  | @some replies _ hm => exact ⟨replies, run, hf, he, hm, hout, hstatus⟩

end CommandLine

end SmallScheme
