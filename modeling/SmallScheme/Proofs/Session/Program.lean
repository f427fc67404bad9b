import SmallScheme.Proofs.Machine.Waiting
import SmallScheme.Proofs.Reader.Lines
import SmallScheme.Session.Basic

/-!
# A session as one program

A session cuts its lines into groups and reads and evaluates each group by itself. As long as it
reports nothing, the groups together are the program that the lines form: it is read as the forms of
the groups (`Session.exists_forms_of_feedAll`), and loading it evaluates the same forms to the same
values, with the same store behind them.
-/

namespace SmallScheme

set_option autoImplicit false

theorem Text.join_append (separator : Text) {ts us : List Text} (ht : ts ≠ []) (hu : us ≠ []) :
    Text.join separator (ts ++ us) =
      Text.join separator ts ++ separator ++ Text.join separator us := by
  induction ts with
  | nil => exact absurd rfl ht
  | cons t ts ih =>
    cases ts with
    | nil =>
      obtain ⟨u, us, rfl⟩ := List.exists_cons_of_ne_nil hu
      rfl
    | cons t' ts =>
      have ih := ih (List.cons_ne_nil t' ts)
      simp only [List.cons_append, Text.join] at ih ⊢
      simp only [ih, List.append_assoc]

theorem World.Batch.failure_of_errors {b : World.Batch} {debug : Bool}
    (h : b.errors debug = []) : b.failure = none := by
  cases hf : b.failure with
  | none => rfl
  | some e =>
    rw [errors, hf] at h
    have hn := (List.append_eq_nil_iff.mp (List.append_eq_nil_iff.mp h).1).2
    cases hn

namespace Session

/-- Answers lines of input one after another. -/
def feedAll (files : Files) (fuel : Nat) : Session → List Text → Option (List Reply × Session)
  | s, [] => some ([], s)
  | s, line :: lines => do
    let (reply, s) ← s.feed files fuel line
    let (replies, s) ← s.feedAll files fuel lines
    return (reply :: replies, s)

variable {files : Files} {fuel : Nat} {s s' : Session} {line : Text} {reply : Reply}

theorem exists_of_feedAll_cons {lines : List Text} {replies : List Reply}
    (h : s.feedAll files fuel (line :: lines) = some (replies, s')) :
    ∃ reply rest s₁, s.feed files fuel line = some (reply, s₁) ∧
      s₁.feedAll files fuel lines = some (rest, s') ∧ replies = reply :: rest := by
  rw [feedAll] at h
  obtain ⟨⟨reply, s₁⟩, hf, h⟩ := Option.bind_eq_some_iff.mp h
  obtain ⟨⟨rest, s₂⟩, hr, h⟩ := Option.bind_eq_some_iff.mp h
  cases h
  exact ⟨reply, rest, s₁, hf, hr, rfl⟩

theorem intake_cases (s : Session) (line : Text) :
    s.intake line = .quit ∨
      s.intake line = .hold { s with held := s.held ++ [line] } ∨
      (∃ e, s.intake line = .refuse e s.reset) ∨
      ∃ forms, Reader.readAll (Text.join (.ofString "\n") (s.held ++ [line])) = .ok forms ∧
        s.intake line = .forms forms s.reset := by
  unfold intake
  split
  · exact .inl rfl
  dsimp only
  split
  · exact .inr (.inl rfl)
  cases Reader.readAll (Text.join (.ofString "\n") (s.held ++ [line])) with
  | error e => exact .inr (.inr (.inl ⟨e, rfl⟩))
  | ok forms => exact .inr (.inr (.inr ⟨forms, rfl, rfl⟩))

/-- What a session does with a line where it neither ends nor reports anything: it holds the line
back, or it evaluates the forms of all lines held back. -/
theorem feed_cases (h : s.feed files fuel line = some (reply, s')) (hq : reply.quit = false)
    (he : reply.err = []) :
    (reply.more = true ∧ reply.out = [] ∧ s' = { s with held := s.held ++ [line] }) ∨
      ∃ forms values, reply.more = false ∧
        Reader.readAll (Text.join (.ofString "\n") (s.held ++ [line])) = .ok forms ∧
        World.evalEach files fuel s.frame s.world forms = some ⟨values, none, s'.world⟩ ∧
        reply.out = (World.Batch.mk values none s'.world).output ∧
        s'.held = [] ∧ s'.frame = s.frame := by
  rcases intake_cases s line with hi | hi | ⟨e, hi⟩ | ⟨forms, hr, hi⟩
  · rw [feed, hi] at h
    cases h
    cases hq
  · rw [feed, hi] at h
    cases h
    exact .inl ⟨rfl, rfl, rfl⟩
  · rw [feed, hi] at h
    cases h
    cases (List.append_eq_nil_iff.mp he).2
  · rw [feed, hi] at h
    obtain ⟨batch, hb, h⟩ := Option.bind_eq_some_iff.mp h
    cases h
    have hf := World.Batch.failure_of_errors he
    obtain ⟨values, failure, world⟩ := batch
    dsimp only at hf
    subst hf
    exact .inr ⟨forms, values, rfl, hr, hb, rfl, rfl, rfl⟩

/-- Lines that a session answers without a report are read as one program and evaluated form by
form. -/
theorem exists_forms_of_feedAll {lines : List Text} {replies : List Reply}
    (h : s.feedAll files fuel lines = some (replies, s')) (hq : ∀ r ∈ replies, r.quit = false)
    (he : ∀ r ∈ replies, r.err = []) (hl : ∀ r ∈ replies.getLast?, r.more = false)
    (hh : lines = [] → s.held = []) :
    ∃ forms values,
      Reader.readAll (Text.join (.ofString "\n") (s.held ++ lines)) = .ok forms ∧
      World.evalEach files fuel s.frame s.world forms = some ⟨values, none, s'.world⟩ ∧
      replies.flatMap Reply.out = (World.Batch.mk values none s'.world).output := by
  induction lines generalizing s replies with
  | nil =>
    cases h
    refine ⟨[], [], ?_, rfl, rfl⟩
    rw [hh rfl]
    decide +kernel
  | cons line lines ih =>
    obtain ⟨reply, rest, s₁, hf, hr, rfl⟩ := exists_of_feedAll_cons h
    have hq' : ∀ r ∈ rest, r.quit = false := fun r hr => hq r (List.mem_cons_of_mem reply hr)
    have he' : ∀ r ∈ rest, r.err = [] := fun r hr => he r (List.mem_cons_of_mem reply hr)
    have hl' : ∀ r ∈ rest.getLast?, r.more = false := fun r hr =>
      hl r (List.mem_getLast?_cons hr)
    rcases feed_cases hf (hq reply List.mem_cons_self) (he reply List.mem_cons_self) with
      ⟨hm, ho, rfl⟩ | ⟨forms₁, values₁, -, hr₁, he₁, ho, hh₁, hs₁⟩
    · -- a line that is held back is not the last
      have hn : lines ≠ [] := by
        rintro rfl
        cases hr
        have hm' := hl reply rfl
        rw [hm] at hm'
        cases hm'
      obtain ⟨forms, values, hread, heval, hout⟩ := ih hr hq' he' hl' fun h => absurd h hn
      rw [List.append_assoc, List.singleton_append] at hread
      refine ⟨forms, values, hread, heval, ?_⟩
      rw [List.flatMap_cons, ho, hout, List.nil_append]
    · by_cases hn : lines = []
      · subst hn
        cases hr
        refine ⟨forms₁, values₁, hr₁, he₁, ?_⟩
        rw [List.flatMap_cons, ho, List.flatMap_nil, List.append_nil]
      · obtain ⟨forms₂, values₂, hr₂, he₂, hout⟩ := ih hr hq' he' hl' fun h => absurd h hn
        rw [hh₁, List.nil_append] at hr₂
        rw [hs₁] at he₂
        refine ⟨forms₁ ++ forms₂, values₁ ++ values₂, ?_, World.evalEach_append he₁ he₂, ?_⟩
        · rw [List.append_cons, Text.join_append _ (by simp) hn]
          exact Reader.readAll_append hr₁ hr₂
        · rw [List.flatMap_cons, ho, hout]
          simp only [World.Batch.output, List.flatMap_append]

/-- A session without reports is the same as a load. Where lines are answered in a new session, none
of them ends it, nothing is reported and nothing is awaited behind the last, the lines joined are
read as a program that loads in the same world under any name. The program is handed the values of
its forms in their order, the session prints these values, each on a line, and both end with the
same frames and bindings. -/
theorem load_of_feedAll {w : World} {frame : Nat} {debug : Bool} {lines : List Text}
    {replies : List Reply} (hw : w.reader.isSome = true)
    (h : (opened w frame debug).feedAll files fuel lines = some (replies, s))
    (hq : ∀ r ∈ replies, r.quit = false) (he : ∀ r ∈ replies, r.err = [])
    (hl : ∀ r ∈ replies.getLast?, r.more = false) (name : Text) :
    ∃ forms values fuel' w',
      (Reader.readNamed w.reader name (Text.join (.ofString "\n") lines)).1 = .ok forms ∧
      World.evalEach files fuel frame w forms = some ⟨values, none, s.world⟩ ∧
      State.Yields files
        (State.withExpressions name (Text.join (.ofString "\n") lines) (State.sequence frame) [] w)
        values ⟨.result (.ok (values.getLast?.getD (.list []))), [], w'⟩ ∧
      w.load files fuel' frame name (Text.join (.ofString "\n") lines) =
        some (.ok (values.getLast?.getD (.list [])), w') ∧
      replies.flatMap Reply.out = values.flatMap (fun v => v.render ++ Text.ofString "\n") ∧
      w'.store = s.world.store ∧ w'.stack = s.world.stack := by
  obtain ⟨forms, values, hread, heval, hout⟩ := exists_forms_of_feedAll h hq he hl fun _ => rfl
  have hread := Reader.readNamed_of_readAll hread w.faithful name
  obtain ⟨fuel', w', hs, hy, hload⟩ := World.exists_load_of_evalEach hw hread heval
  exact ⟨forms, values, fuel', w', hread, heval, hy, hload, hout, hs.store_eq, hs.stack_eq⟩

theorem load_of_fourLines :
    ∃ (replies : List Reply) (s : Session) (values : List Value) (fuel' : Nat) (w' : World),
      (opened (World.new {}) World.root false).feedAll (fun _ => .ok []) 30
          [.ofString "(define x 2)", .ofString "(+ x", .ofString "   3)", .ofString "1 2 3"] =
        some (replies, s) ∧
      replies.flatMap Reply.out = Text.ofString "2\n5\n1\n2\n3\n" ∧
      (World.new {}).load (fun _ => .ok []) fuel' World.root (.ofString "four lines")
          (.ofString "(define x 2)\n(+ x\n   3)\n1 2 3") =
        some (.ok (values.getLast?.getD (.list [])), w') ∧
      values.flatMap (fun v => v.render ++ Text.ofString "\n") =
        Text.ofString "2\n5\n1\n2\n3\n" ∧
      w'.store = s.world.store := by
  have ha : ((opened (World.new {}) World.root false).feedAll (fun _ => .ok []) 30
      [.ofString "(define x 2)", .ofString "(+ x", .ofString "   3)", .ofString "1 2 3"]).map
        Prod.fst =
      some [⟨false, false, .ofString "2\n", []⟩, ⟨true, false, [], []⟩,
        ⟨false, false, .ofString "5\n", []⟩, ⟨false, false, .ofString "1\n2\n3\n", []⟩] := by
    decide +kernel
  obtain ⟨⟨replies, s⟩, h, hr⟩ := Option.map_eq_some_iff.mp ha
  have ho : replies.flatMap Reply.out = Text.ofString "2\n5\n1\n2\n3\n" := by
    rw [show replies = _ from hr]
    decide +kernel
  have ht : Text.join (.ofString "\n")
      [.ofString "(define x 2)", .ofString "(+ x", .ofString "   3)", .ofString "1 2 3"] =
        .ofString "(define x 2)\n(+ x\n   3)\n1 2 3" := by
    decide +kernel
  dsimp only at hr
  subst hr
  obtain ⟨-, values, fuel', w', -, -, -, hload, hout, hstore, -⟩ :=
    load_of_feedAll rfl h (by decide) (by decide) (by decide) (.ofString "four lines")
  exact ⟨_, s, values, fuel', w', h, ho, ht ▸ hload, hout.symm.trans ho, hstore⟩

end Session

end SmallScheme
