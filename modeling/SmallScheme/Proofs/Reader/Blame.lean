import SmallScheme.Proofs.Reader.Lines
import SmallScheme.Proofs.Token.Layout

/-!
# The places of faults

Whatever the reader objects to is about one of the tokens up to the end of the input, and it names
the place of that token. The scanner keeps places right, so the line and the column in an error are
those of the beginning of a token.
-/

namespace SmallScheme

set_option autoImplicit false

/-- A place in a text is written as its line and column, behind the name of the text if it has one. -/
theorem Location.render_within (file contents : Text) (offset : Nat) :
    (within file contents offset).render =
      (if file.isEmpty then [] else file ++ .ofString ":") ++
        Decimal.ofNat (Text.line (contents.take offset)) ++ Text.ofString ":" ++
        Decimal.ofNat (Text.column (contents.take offset)) := by
  have hl : ((Text.line (contents.take offset) : Nat) : Int) ≠ 0 := by
    unfold Text.line
    omega
  have hc : ((Text.column (contents.take offset) : Nat) : Int) ≠ 0 := by
    unfold Text.column
    omega
  have hd (n : Nat) : Decimal.ofInt (n : Int) = Decimal.ofNat n := rfl
  simp only [render, within, hl, hc, hd, if_false]
  split
  · rfl
  · simp only [List.append_assoc]

namespace Reader

/-- What reading does with some tokens: a fault is about one of them, and a success leaves some of
them for later, the final one among these. -/
structure Blames {α : Type} (ts : List Token) (r : Reading α) : Prop where
  fault : ∀ f, r.1 = .error f → ∃ t ∈ ts, f.source = some t.source
  rest : ∀ v, r.1 = .ok v → Sealed r.2.pending ∧ r.2.pending ⊆ ts

variable {t repeated : Token} {ts us : List Token}

theorem Blames.mono {α : Type} {r : Reading α} (h : Blames ts r) (hs : ts ⊆ us) : Blames us r := by
  constructor
  · intro f hf
    obtain ⟨t, ht, hsource⟩ := h.fault f hf
    exact ⟨t, hs ht, hsource⟩
  · intro v hv
    obtain ⟨hsealed, hsub⟩ := h.rest v hv
    exact ⟨hsealed, fun u hu => hs (hsub hu)⟩

theorem blames_about {α : Type} (ht : t ∈ ts) (c : Complaint) (cursor : Cursor) :
    Blames ts ((.error (.about t c), cursor) : Reading α) := by
  constructor
  · intro f hf
    cases hf
    exact ⟨t, ht, rfl⟩
  · intro v hv
    cases hv

theorem blames_perform {mode : Mode} {around : List Context} {symbols : Option SymbolTable}
    {a : Action} (hs : Sealed ts)
    (ih : ∀ mode around symbols, Blames ts (walk repeated ts mode around symbols)) :
    Blames (t :: ts) (perform repeated t ts mode around symbols a) := by
  have later (mode : Mode) (around : List Context) (symbols : Option SymbolTable) :
      Blames (t :: ts) (walk repeated ts mode around symbols) :=
    (ih mode around symbols).mono (List.subset_cons_self t ts)
  cases a with
  | skip => exact later mode around symbols
  | refuse c => exact blames_about List.mem_cons_self c _
  | enter mode within => exact later mode (within ++ around) symbols
  | quote within =>
    simp only [perform]
    split
    · exact later .expression _ symbols
    · obtain ⟨u, rest, rfl⟩ := hs.exists_cons
      exact blames_about (List.mem_cons_of_mem t List.mem_cons_self) .spaceAfterQuote _
  | value v symbols' within =>
    simp only [perform]
    cases settle (within ++ around) v with
    | inl w =>
      constructor
      · intro f hf
        cases hf
      · intro x _
        exact ⟨hs, List.subset_cons_self t ts⟩
    | inr next => exact later next.1 next.2 symbols'

theorem blames_walk (hs : Sealed ts) (mode : Mode) (around : List Context)
    (symbols : Option SymbolTable) : Blames ts (walk repeated ts mode around symbols) := by
  induction hs generalizing mode around symbols with
  | @last t hf =>
    obtain ⟨c, hc⟩ := act_final hf symbols mode
    rw [walk_cons, hc]
    exact blames_about List.mem_cons_self c _
  | @more t ts _ hs ih =>
    rw [walk_cons]
    exact blames_perform hs ih

/-- Every fault of a program is about one of its tokens. -/
theorem blames_programFrom {c : Cursor} (hs : Sealed c.pending) (done : List Value) :
    ∀ f, (programFrom done c).1 = .error f → ∃ t ∈ c.pending, f.source = some t.source := by
  induction hn : c.pending.length using Nat.strongRecOn generalizing c done with
  | ind n ih =>
    intro f hf
    obtain ⟨cs, t, rest, hp, hc, ht, hr⟩ := exists_comments hs
    have hskip := pending_skipComments hp hc ht
    have hsub : c.skipComments.pending ⊆ c.pending := by
      rw [hskip, hp]
      exact List.subset_append_right cs (t :: rest)
    have hpeek : c.skipComments.peek ∈ c.pending := by
      apply hsub
      rw [Cursor.peek, hskip]
      exact List.mem_cons_self
    rw [← hskip] at hr
    rw [programFrom_eq] at hf
    split at hf
    · cases hf
    split at hf
    · cases hf
      exact ⟨_, hpeek, rfl⟩
    have hb : Blames c.pending (expression c.skipComments) :=
      (blames_walk hr .expression [] c.skipComments.symbols).mono hsub
    cases he : expression c.skipComments with
    | mk r after =>
      rw [he] at hf hb
      cases r with
      | error x =>
        cases hf
        exact hb.fault f rfl
      | ok v =>
        obtain ⟨hsealed, hrest⟩ := hb.rest v rfl
        have hlt : after.pending.length < n := by
          rw [← hn]
          exact Nat.lt_of_lt_of_le (pending_walk_lt he) (length_skipComments c)
        obtain ⟨u, hu, hsource⟩ := ih _ hlt hsealed (v :: done) rfl f hf
        exact ⟨u, hrest hu, hsource⟩

theorem exists_token_of_error {symbols : Option SymbolTable} {src : Source} {e : Error}
    (h : (readSource symbols src).1 = .error e) :
    ∃ t ∈ src.tokens.pending, ∃ message, e = .parse t.source.render message := by
  cases hp : (program (.ofStream src.tokens symbols)).1 with
  | ok vs =>
    simp only [readSource, hp] at h
    cases h
  | error f =>
    simp only [readSource, hp] at h
    cases h
    obtain ⟨t, ht, hsource⟩ :=
      blames_programFrom (c := .ofStream src.tokens symbols) src.sealed_tokens [] f hp
    refine ⟨t, ht, f.complaint.message, ?_⟩
    rw [Fault.toError, hsource]
    rfl

end Reader

namespace Lexer

variable {name contents : Text} {readError : Option Text} {earlier : List Token}
  {read : List Char} {lx : Lexer}

theorem Rests.startLocation (h : Rests (.ofText name contents readError) read lx) :
    lx.scanner.startLocation = .within name contents (Text.ofChars read).length := by
  rw [Scanner.startLocation, h.behind.file_eq, h.behind.start_eq]
  exact Scanner.location_eq_within h.chars_eq

theorem Follows.source_eq (h : Follows (.ofText name contents readError) earlier read lx) :
    lx.next.1.source = .within name contents lx.next.1.start := by
  obtain ⟨gap, rest, -, hr, hsource, -⟩ := next_cases h.rests h.running
  rw [Token.start_of_source hsource, hsource]
  exact Scanner.location_eq_within (h.rests.chars_of_rest hr)

theorem source_next_of_stopped (h : lx.stopped.isSome = true) :
    lx.next.1.source = lx.scanner.startLocation := by
  obtain ⟨stop, hs⟩ := Option.isSome_iff_exists.mp h
  simp only [next, hs]
  cases stop <;> rfl

theorem source_repeated (name contents : Text) (readError : Option Text) :
    ∃ offset ≤ contents.length, (Source.ofText name contents readError).tokens.repeated.source =
      .within name contents offset := by
  obtain ⟨ts, e, hts, he⟩ := (Source.ofText name contents readError).sealed_tokens.exists_last
  obtain ⟨mid, hmid, rfl⟩ := exists_emits hts
  obtain ⟨read, hf⟩ := hmid.follows (follows_ofSource _)
  obtain ⟨gap, rest, -, -, -, -, ⟨text, more, -, hfound⟩ | hend⟩ := next_cases hf.rests hf.running
  · rw [hfound.admits.not_final] at he
    cases he
  · obtain ⟨read', hrests⟩ := hend.rests
    refine ⟨(Text.ofChars read').length, Scanner.length_ofChars_le hrests.chars_eq, ?_⟩
    rw [Source.tokens, hmid.repeated_eq, repeated_tokens_final he,
      source_next_of_stopped hend.stopped, hrests.startLocation]

end Lexer

namespace Reader

/-- Places in a source are right. After any operations on a scanner, its two places lie in the text
and have the lines and columns that counting gives, what was handed out and dropped makes up the
text before the second, and only a character ahead can be added. So every token names the place
where it begins, and every error in reading names the line and the column of such a token. -/
theorem places_right (name contents : Text) (readError : Option Text) :
    (∀ ops s parts, (Scanner.ofSource (.ofText name contents readError)).carryOutAll ops =
        (s, parts) →
      s.start.offset ≤ s.position.offset ∧ s.position.offset ≤ contents.length ∧
      s.startLocation = .within name contents s.start.offset ∧
      s.location = .within name contents s.position.offset ∧
      parts.flatten ++ s.text = contents.take s.position.offset ∧
      (∀ c, s.peek? = some c → ∃ after, s.scan = .ok after ∧ after.text = s.text ++ Text.encode c) ∧
      ∀ stop, s.scan = .error stop → s.carryOut .scan = (s, [])) ∧
    (∀ earlier t later,
      (Source.ofText name contents readError).tokens.pending = earlier ++ t :: later →
      t.source = .within name contents t.start ∧ t.Lies contents earlier) ∧
    (∃ offset ≤ contents.length, (Source.ofText name contents readError).tokens.repeated.source =
      .within name contents offset) ∧
    (∀ symbols e, (readSource symbols (.ofText name contents readError)).1 = .error e →
      ∃ t ∈ (Source.ofText name contents readError).tokens.pending, ∃ source message,
        e = .parse source message ∧ source ≠ [] ∧
        source = (if name.isEmpty then [] else name ++ Text.ofString ":") ++
          Decimal.ofNat (Text.line (contents.take t.start)) ++ Text.ofString ":" ++
          Decimal.ofNat (Text.column (contents.take t.start))) := by
  have place {earlier later : List Token} {t : Token}
      (h : (Source.ofText name contents readError).tokens.pending = earlier ++ t :: later) :
      t.source = .within name contents t.start ∧ t.Lies contents earlier := by
    obtain ⟨mid, read, hmid, rfl⟩ := Lexer.follows_of_pending h
    exact ⟨hmid.source_eq, hmid.lies⟩
  refine ⟨?_, fun _ _ _ => place, Lexer.source_repeated name contents readError, ?_⟩
  · intro ops s parts h
    obtain ⟨hle, hlen, hstart, hposition, hparts⟩ :=
      Scanner.places_of_carryOutAll name contents readError ops h
    refine ⟨hle, hlen, hstart, hposition, hparts, ?_, ?_⟩
    · intro c hc
      obtain ⟨cs, hr⟩ := List.head?_eq_some_iff.mp hc
      refine ⟨s.advance, ?_, Scanner.text_advance hr⟩
      simp only [Scanner.scan, hr]
    · intro stop hstop
      simp only [Scanner.carryOut, hstop]
  · intro symbols e he
    obtain ⟨t, ht, message, rfl⟩ := exists_token_of_error he
    obtain ⟨earlier, later, hp⟩ := List.append_of_mem ht
    have hr := Location.render_within name contents t.start
    rw [← (place hp).1] at hr
    refine ⟨t, ht, t.source.render, message, rfl, ?_, hr⟩
    rw [hr]
    simp [Decimal.ofNat_ne_nil]

/-- A list that is not closed, on the second line behind a line that is not ASCII. -/
theorem places_right_unclosed :
    (readSource none (.ofText (.ofString "f") (.ofString "é\n(λ") none)).1 =
        .error (.parse (.ofString "f:2:3") (.ofString "unmatched (")) ∧
      ∃ t ∈ (Source.ofText (.ofString "f") (.ofString "é\n(λ") none).tokens.pending,
        Text.ofString "f:2:3" = Text.ofString "f:" ++
          Decimal.ofNat (Text.line ((Text.ofString "é\n(λ").take t.start)) ++ Text.ofString ":" ++
          Decimal.ofNat (Text.column ((Text.ofString "é\n(λ").take t.start)) := by
  have he : (readSource none (.ofText (.ofString "f") (.ofString "é\n(λ") none)).1 =
      .error (.parse (.ofString "f:2:3") (.ofString "unmatched (")) := by
    decide +kernel
  obtain ⟨t, ht, source, message, hparse, -, hsource⟩ :=
    (places_right (.ofString "f") (.ofString "é\n(λ") none).2.2.2 none _ he
  cases hparse
  exact ⟨he, t, ht, hsource⟩

end Reader

end SmallScheme
