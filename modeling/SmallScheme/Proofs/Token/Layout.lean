import SmallScheme.Proofs.Source.Positions
import SmallScheme.Proofs.Token.Segments

/-!
# How tokens lie in a text

The tokens of a source are sections of its text, one behind another, with nothing but blanks between
them. Each begins where the blanks behind its forerunner end, and takes as much as its class admits.
-/

namespace SmallScheme

set_option autoImplicit false

namespace Token

/-- The number of bytes before a token. -/
def start (t : Token) : Nat := t.source.offset.toNat

/-- The number of bytes up to the end of a token. -/
def stop (t : Token) : Nat := t.start + t.text.length

/-- The number of bytes up to the end of the last of some tokens. -/
def reach (ts : List Token) : Nat := (ts.getLast?.map stop).getD 0

/-- Whether the last of some tokens is a comment. -/
def trailsComment (ts : List Token) : Bool :=
  (ts.getLast?.map fun t => decide (t.kind = .comment)).getD false

theorem reach_le {ts : List Token} {n : Nat} (h : ∀ t ∈ ts, t.stop ≤ n) : reach ts ≤ n := by
  rw [reach]
  cases hl : ts.getLast? with
  | none => exact Nat.zero_le n
  | some t => exact h t (List.mem_of_getLast? hl)

theorem start_of_source {t : Token} {file : Text} {cs : List Char}
    (h : t.source = .ofPosition file (Position.first.afterAll cs)) :
    t.start = (Text.ofChars cs).length := by
  rw [start, h, Position.afterAll_first]
  rfl

end Token

section Munch

variable {kind : TokenKind} {text more rest : List Char}

theorem TokenKind.Admits.ne_nil (h : kind.Admits text) : text ≠ [] := by
  rintro rfl
  cases kind with
  | symbol =>
    obtain ⟨c, cs, hx, -⟩ := h
    cases hx
  | int => exact h.1 rfl
  | string | char | comment =>
    obtain ⟨body, -, hx⟩ := h
    cases hx
  | quote | dot | openParen | closeParen => cases h
  | invalid | error | eof => exact h.elim

theorem StringBody.not_extended {body body' : List Char} {d : Char} (h : StringBody body)
    (h' : StringBody body') : body ++ '"' :: d :: more ≠ body' ++ ['"'] := by
  intro he
  have hc := Lexeme.closingMark_append h (d :: more)
  have hl := congrArg List.length he
  rw [he, Lexeme.closingMark_append h' []] at hc
  simp only [Option.some.injEq] at hc
  simp only [List.length_append, List.length_cons, List.length_nil] at hl
  omega

theorem CharacterName.not_extended {name : List Char} {d : Char} (h : CharacterName name)
    (he : (∃ c ∈ name.getLast?, isLetter c = true) → isLetter d = false) :
    ¬ CharacterName (name ++ d :: more) := by
  intro h'
  have hn := Lexeme.ne_nil_of_characterName h
  rcases Lexeme.letters_of_characterName h' with ⟨c, cs, hx, hl⟩ | ⟨c, hx, -, -⟩
  · rw [← hx] at hl
    have hlast := hl _ (List.mem_append_left _ (List.getLast_mem hn))
    have hd := he ⟨_, List.getLast?_eq_some_getLast hn, hlast⟩
    rw [hl d (by simp)] at hd
    cases hd
  · have hlen := congrArg List.length hx
    have hpos := List.length_pos_iff.mpr hn
    simp only [List.length_append, List.length_cons, List.length_nil] at hlen
    omega

/-- No text of the class is longer: a token takes all that its class admits. -/
theorem TokenKind.Admits.not_extended (ha : kind.Admits text) (he : kind.Ends text rest)
    (hp : more <+: rest) (hn : more ≠ []) : ¬ kind.Admits (text ++ more) := by
  obtain ⟨d, more, rfl⟩ := List.exists_cons_of_ne_nil hn
  obtain ⟨rest, rfl⟩ := hp
  have hd : d ∈ (d :: more ++ rest).head? := rfl
  have alone (c : Char) : [c] ++ d :: more ≠ [c] := by simp
  intro h
  cases kind with
  | symbol =>
    obtain ⟨c, cs, rfl, -, -⟩ := ha
    obtain ⟨c', cs', hx, -, hcs⟩ := h
    obtain ⟨-, rfl⟩ := List.cons.inj hx
    have hc := hcs d (List.mem_append_right cs List.mem_cons_self)
    rw [he.1 d hd] at hc
    cases hc
  | int =>
    have hc := h.2 d (List.mem_append_right text List.mem_cons_self)
    rw [he d hd] at hc
    cases hc
  | string =>
    obtain ⟨body, hb, rfl⟩ := ha
    obtain ⟨body', hb', hx⟩ := h
    apply hb.not_extended hb'
    simpa using hx
  | char =>
    obtain ⟨name, hname, rfl⟩ := ha
    obtain ⟨name', hname', hx⟩ := h
    obtain rfl : name ++ d :: more = name' := by simpa using hx
    rw [TokenKind.Ends, Lexeme.getLast?_literal hname] at he
    exact hname.not_extended (fun hl => he hl d hd) hname'
  | comment =>
    obtain ⟨body, -, rfl⟩ := ha
    obtain ⟨body', hb', hx⟩ := h
    obtain ⟨-, rfl⟩ := List.cons.inj hx
    rw [← he d hd] at hb'
    exact hb' (List.mem_append_right body List.mem_cons_self)
  | quote | dot | openParen | closeParen =>
    obtain rfl := ha
    exact alone _ h
  | invalid | error | eof => exact ha.elim

end Munch

namespace Lexer

/-- A lexer between two tokens of a source, behind the characters `read`. -/
structure Rests (src : Source) (read : List Char) (lx : Lexer) : Prop where
  behind : lx.scanner.Behind src read
  taken_eq : lx.scanner.taken = []

variable {src : Source} {read : List Char} {lx last : Lexer} {s : Scanner} {spaced : Bool}

theorem rests_ofSource (src : Source) : Rests src [] (ofSource src) :=
  ⟨Scanner.behind_ofSource src, rfl⟩

theorem Rests.chars_eq (h : Rests src read lx) : src.chars = read ++ lx.scanner.rest := by
  have hc := h.behind.chars_eq
  rwa [h.taken_eq] at hc

theorem behind_ignore (h : s.Behind src read) (ht : s.taken = []) (n : Nat) :
    (s.advanceBy n).ignore.Behind src (read ++ s.rest.take n) := by
  have hb := (h.advanceBy n).ignore
  rwa [Scanner.taken_advanceBy, ht, List.append_nil, List.reverse_reverse] at hb

theorem startLocation_advanceBy (h : s.Behind src read) (n : Nat) :
    (s.advanceBy n).startLocation = .ofPosition src.file (Position.first.afterAll read) := by
  have hb := h.advanceBy n
  rw [Scanner.startLocation, hb.file_eq, hb.start_eq]

/-- A request that finds a token: the characters that it takes, and where it leaves the lexer. -/
structure Found (src : Source) (read text more : List Char) (t : Token) (after : Lexer) : Prop where
  admits : t.kind.Admits text
  ends : t.kind.Ends text more
  text_eq : t.text = Text.ofChars text
  rests : Rests src (read ++ text) after
  running : after.stopped = none
  spaced_eq : after.spaced = decide (t.kind = .comment)

/-- A request that finds no token. -/
structure Ended (src : Source) (rest : List Char) (t : Token) (after : Lexer) : Prop where
  final : t.kind.isFinal = true
  complete : t.kind = .eof → rest = [] ∧ t.text = [] ∧ src.ending = .complete
  rests : ∃ read', Rests src read' after
  stopped : after.stopped.isSome = true

theorem lexeme_cases (h : s.Behind src read) (ht : s.taken = []) :
    (lexeme s spaced).1.source = .ofPosition src.file (Position.first.afterAll read) ∧
    (lexeme s spaced).1.spaced = spaced ∧
    ((∃ text more, s.rest = text ++ more ∧
        Found src read text more (lexeme s spaced).1 (lexeme s spaced).2) ∨
      Ended src s.rest (lexeme s spaced).1 (lexeme s spaced).2) := by
  have hplace := startLocation_advanceBy h
  cases hr : s.rest with
  | nil =>
    have hl : lexeme s spaced =
        (stopToken s spaced s.ending.stop, ⟨s, false, some s.ending.stop⟩) := by
      simp only [lexeme, hr]
    have hkind : (stopToken s spaced s.ending.stop).kind = .eof →
        (stopToken s spaced s.ending.stop).text = [] ∧ src.ending = .complete := by
      rw [h.ending_eq]
      cases src.ending <;> simp [Ending.stop, stopToken]
    rw [hl]
    refine ⟨?_, ?_, .inr ⟨isFinal_stopToken _ _ _, fun hk => ⟨rfl, hkind hk⟩, ⟨read, h, ht⟩, rfl⟩⟩
    · cases s.ending.stop <;> exact hplace 0
    · cases s.ending.stop <;> rfl
  | cons c cs =>
    cases hl : Lexeme.ofHead c cs with
    | token kind size =>
      obtain ⟨text, more, rfl, rfl, ha, he⟩ := Lexeme.exists_token hl
      have hx := Scanner.text_advanceBy ht (text.length + 1)
      have hb := behind_ignore h ht (text.length + 1)
      rw [hr, List.take_succ_cons, List.take_left] at hx hb
      simp only [lexeme, hr, hl, Scanner.token]
      exact ⟨hplace _, trivial, .inl ⟨c :: text, more, rfl, ha, he, hx, ⟨hb, rfl⟩, rfl, rfl⟩⟩
    | fault message size =>
      simp only [lexeme, hr, hl]
      refine ⟨hplace _, trivial, .inr ⟨rfl, ?_, ⟨_, behind_ignore h ht size, rfl⟩, rfl⟩⟩
      intro hk
      cases hk
    | invalid d =>
      simp only [lexeme, hr, hl]
      refine ⟨hplace 1, trivial, .inr ⟨rfl, ?_, ⟨_, behind_ignore h ht 1, rfl⟩, rfl⟩⟩
      intro hk
      cases hk
    | cut =>
      simp only [lexeme, hr, hl]
      refine ⟨?_, ?_, .inr ⟨isFinal_cutToken _ _ _, ?_, ⟨_, behind_ignore h ht _, rfl⟩, rfl⟩⟩
      · cases Ending.stop _ <;> exact hplace _
      · cases Ending.stop _ <;> rfl
      · cases Ending.stop _ <;> intro hk <;> cases hk

/-- A request to a lexer that has not stopped goes over the blanks ahead. -/
theorem next_lexeme (h : Rests src read lx) (hs : lx.stopped = none) :
    ∃ s : Scanner, s.Behind src (read ++ lx.scanner.rest.takeWhile isBlank) ∧ s.taken = [] ∧
      s.rest = lx.scanner.rest.dropWhile isBlank ∧
      lx.next = lexeme s (lx.spaced || !(lx.scanner.rest.takeWhile isBlank).isEmpty) := by
  let gap := lx.scanner.rest.takeWhile isBlank
  have htake : lx.scanner.rest.take gap.length = gap := by
    have hrest : lx.scanner.rest = gap ++ lx.scanner.rest.dropWhile isBlank :=
      List.takeWhile_append_dropWhile.symm
    nth_rewrite 1 [hrest]
    exact List.take_left
  refine ⟨(lx.scanner.advanceBy gap.length).ignore, ?_, rfl, ?_, ?_⟩
  · have hb := behind_ignore h.behind h.taken_eq gap.length
    rwa [htake] at hb
  · rw [Scanner.rest_ignore, Scanner.rest_advanceBy, Lexeme.drop_takeWhile]
  · have hl : (gap.length != 0) = !gap.isEmpty := by cases gap <;> rfl
    rw [← hl]
    simp only [next, hs]
    rfl

/-- What one request gives, from a lexer that has not stopped. -/
theorem next_cases (h : Rests src read lx) (hs : lx.stopped = none) :
    ∃ gap rest, Blank gap ∧ lx.scanner.rest = gap ++ rest ∧
      lx.next.1.source = .ofPosition src.file (Position.first.afterAll (read ++ gap)) ∧
      lx.next.1.spaced = (lx.spaced || !gap.isEmpty) ∧
      ((∃ text more, rest = text ++ more ∧
          Found src (read ++ gap) text more lx.next.1 lx.next.2) ∨
        Ended src rest lx.next.1 lx.next.2) := by
  obtain ⟨s, hb, ht, hr, hn⟩ := next_lexeme h hs
  refine ⟨lx.scanner.rest.takeWhile isBlank, lx.scanner.rest.dropWhile isBlank,
    fun d => Lexeme.of_mem_takeWhile, List.takeWhile_append_dropWhile.symm, ?_⟩
  rw [hn, ← hr]
  exact lexeme_cases hb ht

theorem exists_emits {earlier later : List Token} {t : Token}
    (h : lx.tokens.pending = earlier ++ t :: later) :
    ∃ mid, Emits lx earlier mid ∧ mid.next.1 = t := by
  induction earlier generalizing lx with
  | nil =>
    obtain ⟨ts, ht⟩ := head_pending lx
    rw [ht] at h
    exact ⟨lx, .nil lx, (List.cons.inj h).1⟩
  | cons u earlier ih =>
    cases hf : lx.next.1.kind.isFinal with
    | true =>
      rw [pending_tokens_final hf] at h
      have hl := congrArg List.length h
      simp at hl
    | false =>
      rw [pending_tokens_more hf] at h
      obtain ⟨rfl, hrest⟩ := List.cons.inj h
      obtain ⟨mid, hmid, hnext⟩ := ih hrest
      exact ⟨mid, .cons hf hmid, hnext⟩

/-- A token that is not final: its gap, its characters and what is behind it. -/
theorem next_found (h : Rests src read lx) (hs : lx.stopped = none)
    (hf : lx.next.1.kind.isFinal = false) :
    ∃ gap text more, Blank gap ∧ lx.scanner.rest = gap ++ (text ++ more) ∧
      lx.next.1.start = (Text.ofChars (read ++ gap)).length ∧
      lx.next.1.stop = (Text.ofChars (read ++ gap ++ text)).length ∧
      Found src (read ++ gap) text more lx.next.1 lx.next.2 := by
  obtain ⟨gap, rest, hg, hr, hsource, -, ⟨text, more, rfl, hfound⟩ | hend⟩ := next_cases h hs
  · have hstart := Token.start_of_source hsource
    refine ⟨gap, text, more, hg, hr, hstart, ?_, hfound⟩
    rw [Token.stop, hstart, hfound.text_eq, ← List.length_append, ← Text.ofChars_append]
  · rw [hend.final] at hf
    cases hf

/-- Where a lexer stands after some tokens. -/
structure Follows (src : Source) (ts : List Token) (read : List Char) (lx : Lexer) : Prop where
  rests : Rests src read lx
  running : lx.stopped = none
  spaced_eq : lx.spaced = Token.trailsComment ts
  reach_eq : Token.reach ts = (Text.ofChars read).length
  stop_le : ∀ t ∈ ts, t.stop ≤ (Text.ofChars read).length

theorem follows_ofSource (src : Source) : Follows src [] [] (ofSource src) :=
  ⟨rests_ofSource src, rfl, rfl, rfl, nofun⟩

theorem Follows.next {ts : List Token} (h : Follows src ts read lx)
    (hf : lx.next.1.kind.isFinal = false) :
    ∃ read', Follows src (ts ++ [lx.next.1]) read' lx.next.2 := by
  obtain ⟨gap, text, more, -, -, -, hstop, hfound⟩ := next_found h.rests h.running hf
  refine ⟨read ++ gap ++ text, hfound.rests, hfound.running, ?_, ?_, ?_⟩
  · simp [Token.trailsComment, hfound.spaced_eq]
  · simp [Token.reach, hstop]
  · intro t ht
    rcases List.mem_append.mp ht with ht | ht
    · have hle := h.stop_le t ht
      rw [Text.ofChars_append, Text.ofChars_append, List.length_append, List.length_append]
      omega
    · rw [List.mem_singleton.mp ht]
      exact Nat.le_of_eq hstop

theorem Emits.follows {ts us : List Token} (h : Emits lx us last) (hf : Follows src ts read lx) :
    ∃ read', Follows src (ts ++ us) read' last := by
  induction h generalizing ts read with
  | nil =>
    rw [List.append_nil]
    exact ⟨read, hf⟩
  | cons hk _ ih =>
    obtain ⟨read', hnext⟩ := hf.next hk
    rw [List.append_cons]
    exact ih hnext

theorem follows_of_pending {earlier later : List Token} {t : Token}
    (h : src.tokens.pending = earlier ++ t :: later) :
    ∃ mid read, Follows src earlier read mid ∧ mid.next.1 = t := by
  obtain ⟨mid, hmid, ht⟩ := exists_emits h
  obtain ⟨read, hread⟩ := hmid.follows (follows_ofSource src)
  exact ⟨mid, read, hread, ht⟩

/-- The characters that a lexer takes are the gaps and the texts of its tokens. -/
theorem Emits.ofChars_rest {ts : List Token} (h : Emits lx ts last) (hr : Rests src read lx)
    (hs : lx.stopped = none) :
    ∃ gaps : List (List Char), gaps.length = ts.length ∧ (∀ g ∈ gaps, Blank g) ∧
      Text.ofChars lx.scanner.rest =
        (List.zipWith (fun g t => Text.ofChars g ++ t.text) gaps ts).flatten ++
          Text.ofChars last.scanner.rest := by
  induction h generalizing read with
  | nil => exact ⟨[], rfl, nofun, rfl⟩
  | @cons lx last ts hf _ ih =>
    obtain ⟨gap, text, more, hg, hrest, -, -, hfound⟩ := next_found hr hs hf
    obtain ⟨gaps, hl, hb, hgaps⟩ := ih hfound.rests hfound.running
    have hmore : lx.next.2.scanner.rest = more := by
      have hc := hfound.rests.chars_eq
      rw [hr.chars_eq, hrest, List.append_assoc, List.append_assoc] at hc
      simpa using hc.symm
    refine ⟨gap :: gaps, ?_, ?_, ?_⟩
    · rw [List.length_cons, List.length_cons, hl]
    · intro g hm
      rcases List.mem_cons.mp hm with rfl | hm
      · exact hg
      · exact hb g hm
    · rw [hmore] at hgaps
      rw [hrest, Text.ofChars_append, Text.ofChars_append, hgaps, List.zipWith_cons_cons,
        List.flatten_cons, hfound.text_eq]
      simp only [List.append_assoc]

end Lexer

/-- How a token lies in a text behind the tokens before it: none of them reaches into it, and nothing
but blanks stands before it. Blanks or a comment before it set it apart. -/
structure Token.Lies (contents : Text) (earlier : List Token) (t : Token) : Prop where
  behind : ∀ p ∈ earlier, p.stop ≤ t.start
  start_le : t.start ≤ contents.length
  gap : ∃ gap, Blank gap ∧
    (contents.take t.start).drop (reach earlier) = Text.ofChars gap ∧
    (t.spaced = true ↔ gap ≠ [] ∨ ∃ p ∈ earlier.getLast?, p.kind = .comment)

/-- A token that is cut out of a text: it is a section of the text and belongs to its class, and the
characters behind it cannot extend it. -/
structure Token.Cut (contents : Text) (t : Token) : Prop where
  start_lt : t.start < t.stop
  stop_le : t.stop ≤ contents.length
  text_eq : t.text = (contents.take t.stop).drop t.start
  maximal : ∃ text, t.text = Text.ofChars text ∧ t.kind.Admits text ∧
    t.kind.Ends text (Text.chars (contents.drop t.stop)) ∧
    ∀ more, more ≠ [] → more <+: Text.chars (contents.drop t.stop) → ¬ t.kind.Admits (text ++ more)

namespace Lexer

variable {name contents : Text} {readError : Option Text} {earlier : List Token}
  {read : List Char} {lx : Lexer}

theorem Rests.chars_of_rest {gap rest : List Char}
    (h : Rests (.ofText name contents readError) read lx) (hr : lx.scanner.rest = gap ++ rest) :
    contents.chars = read ++ gap ++ rest := by
  rw [List.append_assoc, ← hr]
  exact h.chars_eq

theorem Follows.lies (h : Follows (.ofText name contents readError) earlier read lx) :
    lx.next.1.Lies contents earlier := by
  obtain ⟨gap, rest, hg, hr, hsource, hspaced, -⟩ := next_cases h.rests h.running
  have hc := h.rests.chars_of_rest hr
  have hstart := Token.start_of_source hsource
  refine ⟨?_, ?_, gap, hg, ?_, ?_⟩
  · intro p hp
    have hle := h.stop_le p hp
    rw [hstart, Text.ofChars_append, List.length_append]
    omega
  · rw [hstart]
    exact Scanner.length_ofChars_le hc
  · rw [hstart, Scanner.take_ofText hc, h.reach_eq, Text.ofChars_append, List.drop_left]
  · rw [hspaced, h.spaced_eq, Token.trailsComment]
    cases earlier.getLast? with
    | none => simp
    | some p => simp [or_comm]

theorem Follows.cut (h : Follows (.ofText name contents readError) earlier read lx)
    (hf : lx.next.1.kind.isFinal = false) : lx.next.1.Cut contents := by
  obtain ⟨gap, text, more, -, hr, hstart, hstop, hfound⟩ := next_found h.rests h.running hf
  have hc : contents.chars = read ++ gap ++ text ++ more := by
    rw [List.append_assoc _ text]
    exact h.rests.chars_of_rest hr
  have hmore : Text.chars (contents.drop lx.next.1.stop) = more := by
    rw [hstop]
    exact Scanner.chars_drop_ofText hc
  have hpos : 0 < (Text.ofChars text).length := by
    obtain ⟨c, cs, rfl⟩ := List.exists_cons_of_ne_nil hfound.admits.ne_nil
    rw [Text.ofChars_cons, List.length_append]
    have := List.length_pos_iff.mpr (Text.encode_ne_nil c)
    omega
  refine ⟨?_, ?_, ?_, text, hfound.text_eq, hfound.admits, ?_, ?_⟩
  · rw [hstart, hstop, Text.ofChars_append _ text, List.length_append]
    omega
  · rw [hstop]
    exact Scanner.length_ofChars_le hc
  · rw [hstart, hstop, Scanner.take_ofText hc, Text.ofChars_append _ text, List.drop_left]
    exact hfound.text_eq
  · rw [hmore]
    exact hfound.ends
  · intro ext hn hp
    rw [hmore] at hp
    exact hfound.admits.not_extended hfound.ends hp hn

theorem Follows.eof (h : Follows (.ofText name contents readError) earlier read lx)
    (hk : lx.next.1.kind = .eof) :
    lx.next.1.start = contents.length ∧ lx.next.1.text = [] ∧ Blank lx.scanner.rest ∧
      Text.ofChars contents.chars = contents := by
  obtain ⟨gap, rest, hg, hr, hsource, -, ⟨text, more, -, hfound⟩ | hend⟩ :=
    next_cases h.rests h.running
  · have hf := hfound.admits.not_final
    rw [hk] at hf
    cases hf
  · obtain ⟨rfl, htext, hcomplete⟩ := hend.complete hk
    rw [List.append_nil] at hr
    have hw := Text.ofChars_chars (Source.ending_ofText_eq_complete.mp hcomplete).1
    have hc : contents.chars = read ++ gap := by
      rw [← hr]
      exact h.rests.chars_eq
    refine ⟨?_, htext, hr ▸ hg, hw⟩
    rw [Token.start_of_source hsource, ← hc, hw]

end Lexer

/-- The tokens of a source lie in its text one behind another. They are sections of it, with nothing
but blanks between them, and each takes as much as its class admits. Where they end with the end of
the input, they and the blanks make up the text. -/
theorem Source.tokens_lie (name contents : Text) (readError : Option Text) :
    let ts := (Source.ofText name contents readError).tokens.pending
    Sealed ts ∧
    (∀ earlier t later, ts = earlier ++ t :: later → t.Lies contents earlier ∧
      (t.kind.isFinal = false → t.Cut contents) ∧
      (t.kind = .eof → t.start = contents.length)) ∧
    (∀ e, ts.getLast? = some e → e.kind = .eof →
      ∃ gaps : List (List Char), gaps.length = ts.length ∧ (∀ g ∈ gaps, Blank g) ∧
        contents = (List.zipWith (fun g t => Text.ofChars g ++ t.text) gaps ts).flatten) := by
  refine ⟨Source.sealed_tokens _, ?_, ?_⟩
  · intro earlier t later h
    obtain ⟨mid, read, hmid, rfl⟩ := Lexer.follows_of_pending h
    exact ⟨hmid.lies, hmid.cut, fun hk => (hmid.eof hk).1⟩
  · intro e he hk
    obtain ⟨ts, hts⟩ := List.getLast?_eq_some_iff.mp he
    obtain ⟨mid, hmid, rfl⟩ := Lexer.exists_emits hts
    obtain ⟨read, hfollows⟩ := hmid.follows (Lexer.follows_ofSource _)
    obtain ⟨-, htext, hblank, hw⟩ := hfollows.eof hk
    obtain ⟨gaps, hl, hg, hrest⟩ := hmid.ofChars_rest (Lexer.rests_ofSource _) rfl
    refine ⟨gaps ++ [mid.scanner.rest], ?_, ?_, ?_⟩
    · rw [hts, List.length_append, List.length_append, hl]
      rfl
    · intro g hm
      rcases List.mem_append.mp hm with hm | hm
      · exact hg g hm
      · rw [List.mem_singleton.mp hm]
        exact hblank
    · have hchars : (Lexer.ofSource (.ofText name contents readError)).scanner.rest =
          contents.chars := rfl
      rw [hchars, hw] at hrest
      rw [hts, List.zipWith_append hl, List.flatten_append, List.zipWith_cons_cons, htext,
        List.append_nil, List.zipWith_nil_left, List.flatten_cons, List.flatten_nil,
        List.append_nil]
      exact hrest

/-- A comment that is not ASCII ends in front of the line feed, and the quotation mark behind it is set
apart. -/
theorem Source.tokens_lie_comment :
    ∃ x c q later, (Source.ofText [] (.ofString "x;λ\n'y") none).tokens.pending = [x, c] ++ q :: later ∧
      c.kind = .comment ∧ c.stop = 4 ∧ c.Cut (.ofString "x;λ\n'y") ∧
      q.kind = .quote ∧ q.start = 5 ∧ q.Lies (.ofString "x;λ\n'y") [x, c] := by
  let x : Token := ⟨.symbol, .ofString "x", ⟨[], 0, 1, 1⟩, false⟩
  let c : Token := ⟨.comment, .ofString ";λ", ⟨[], 1, 1, 2⟩, false⟩
  let q : Token := ⟨.quote, .ofString "'", ⟨[], 5, 2, 1⟩, true⟩
  let y : Token := ⟨.symbol, .ofString "y", ⟨[], 6, 2, 2⟩, false⟩
  let e : Token := ⟨.eof, [], ⟨[], 7, 2, 3⟩, false⟩
  have hp : (Source.ofText [] (.ofString "x;λ\n'y") none).tokens.pending = [x, c, q, y, e] := by
    decide +kernel
  obtain ⟨-, hlie, -⟩ := Source.tokens_lie [] (.ofString "x;λ\n'y") none
  obtain ⟨-, hcut, -⟩ := hlie [x] c [q, y, e] hp
  exact ⟨x, c, q, [y, e], hp, rfl, rfl, hcut rfl, rfl, rfl, (hlie [x, c] q [y, e] hp).1⟩

end SmallScheme
