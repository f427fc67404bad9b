import SmallScheme.Proofs.Reader.Comments

/-!
# Blanks and comments in place of each other

A comment may stand where blanks stand between two tokens, and a blank where a comment stands, and
the text is read alike (`readAll_of_comment`). There is one exception: directly behind a dot a
comment is refused.
-/

namespace SmallScheme

set_option autoImplicit false

namespace Text

theorem exists_append_of_length_le {as bs cs ds : List Char} (h : as ++ bs = cs ++ ds)
    (hl : (ofChars as).length ≤ (ofChars cs).length) : ∃ ms, cs = as ++ ms ∧ bs = ms ++ ds := by
  rcases append_cases h with hms | ⟨ms, hn, rfl, -⟩
  · exact hms
  · obtain ⟨m, ms, rfl⟩ := List.exists_cons_of_ne_nil hn
    have hpos := List.length_pos_iff.mpr (encode_ne_nil m)
    rw [ofChars_append, ofChars_cons, List.length_append, List.length_append] at hl
    omega

theorem append_inj_of_length_eq {as bs cs ds : List Char} (h : as ++ bs = cs ++ ds)
    (hl : (ofChars as).length = (ofChars cs).length) : as = cs ∧ bs = ds := by
  obtain ⟨ms, rfl, rfl⟩ := exists_append_of_length_le h (Nat.le_of_eq hl)
  obtain ⟨ns, hns, -⟩ := exists_append_of_length_le h.symm (Nat.le_of_eq hl.symm)
  rw [List.append_assoc, List.self_eq_append_right, List.append_eq_nil_iff] at hns
  obtain ⟨rfl, -⟩ := hns
  exact ⟨(List.append_nil as).symm, rfl⟩

/-- The tokens of a text, up to the first final one. -/
abbrev tokens (t : Text) : List Token := (Source.ofText [] t none).tokens.pending

/-- Blanks of a text that no token reaches into, between two tokens or before or behind all of
them. -/
structure Gap (t : Text) (before run after : List Char) : Prop where
  text_eq : t = ofChars (before ++ (run ++ after))
  blank : Blank run
  ne_nil : run ≠ []
  outside : ∀ x ∈ t.tokens,
    x.stop ≤ (ofChars before).length ∨ (ofChars (before ++ run)).length ≤ x.start

theorem Gap.chars_eq {cs before run after : List Char} (h : (ofChars cs).Gap before run after) :
    cs = before ++ (run ++ after) := by
  have ht := congrArg chars h.text_eq
  rwa [chars_ofChars, chars_ofChars] at ht

end Text

namespace Reader

open Grammar

variable {cs before run after : List Char} {vs : List Value} {x : Token}

/-- Characters are read alike where what stands behind some of their tokens is replaced by
something with the same tokens, comments aside. -/
theorem readAll_swap {read rest : List Char} {ts : List Token} {mid : Lexer}
    (h : readAll (.ofChars cs) = .ok vs)
    (hm : (Lexer.ofSource (.ofText [] (.ofChars cs) none)).Emits ts mid)
    (hr : cs = read ++ mid.scanner.rest)
    (he : ∀ t ∈ ts.getLast?, ∀ text, t.kind.Ends text mid.scanner.rest → t.kind.Ends text rest)
    (hb : bareTokens mid.spaced rest = bareTokens mid.spaced mid.scanner.rest) :
    readAll (.ofChars (read ++ rest)) = .ok vs := by
  have hr' : (Source.ofText [] (Text.ofChars cs) none).chars = read ++ mid.scanner.rest :=
    (Text.chars_ofChars cs).trans hr
  rw [readAll_ofChars_iff] at h ⊢
  rw [Lexer.bareTokens_behind hm hr' he, hb, ← Lexer.bareTokens_behind hm hr' fun _ _ _ he => he,
    ← hr]
  exact h

/-- The first token behind a gap. -/
theorem exists_first_behind (h : readAll (.ofChars cs) = .ok vs)
    (hg : (Text.ofChars cs).Gap before run after) :
    ∃ earlier x later,
      (Text.ofChars cs).tokens = earlier ++ x :: later ∧
      (∀ y ∈ earlier, y.stop ≤ (Text.ofChars before).length) ∧
      (Text.ofChars (before ++ run)).length ≤ x.start := by
  obtain ⟨e, he, hk⟩ := getLast?_of_grammar
    ((readSource_eq_ok_iff SymbolTable.faithful?_empty).mp h)
  have hend : e.start = (Text.ofChars cs).length := by
    obtain ⟨us, hus⟩ := List.getLast?_eq_some_iff.mp he
    obtain ⟨mid, read, hf, rfl⟩ := Lexer.follows_of_pending hus
    exact (hf.eof hk).1
  have hlt : (Text.ofChars before).length < e.stop := by
    obtain ⟨c, run, rfl⟩ := List.exists_cons_of_ne_nil hg.ne_nil
    have hpos := List.length_pos_iff.mpr (Text.encode_ne_nil c)
    rw [Token.stop, hend, hg.text_eq]
    simp only [Text.ofChars_append, Text.ofChars_cons, List.cons_append, List.length_append]
    omega
  obtain ⟨x, hx⟩ : ∃ x, (Text.ofChars cs).tokens.find?
      (fun x => decide ((Text.ofChars before).length < x.stop)) = some x := by
    apply Option.isSome_iff_exists.mp
    exact List.find?_isSome.mpr ⟨e, List.mem_of_getLast? he, decide_eq_true hlt⟩
  obtain ⟨hstop, earlier, later, hp, hall⟩ := List.find?_eq_some_iff_append.mp hx
  refine ⟨earlier, x, later, hp, fun y hy => ?_, ?_⟩
  · simpa using hall y hy
  · have hm : x ∈ (Text.ofChars cs).tokens := by
      rw [hp]
      exact List.mem_append_right earlier List.mem_cons_self
    exact (hg.outside x hm).resolve_left (Nat.not_le.mpr (of_decide_eq_true hstop))

/-- Where a lexer stands in front of a gap. -/
theorem exists_emits_of_gap (h : readAll (.ofChars cs) = .ok vs)
    (hg : (Text.ofChars cs).Gap before run after) :
    ∃ earlier mid read lead, (Lexer.ofSource (.ofText [] (.ofChars cs) none)).Emits earlier mid ∧
      Lexer.Follows (.ofText [] (.ofChars cs) none) earlier read mid ∧
      Blank lead ∧ before = read ++ lead ∧ mid.scanner.rest = lead ++ (run ++ after) := by
  obtain ⟨earlier, x, later, hp, hstop, hstart⟩ := exists_first_behind h hg
  obtain ⟨mid, hmid, rfl⟩ := Lexer.exists_emits hp
  obtain ⟨read, hf⟩ := hmid.follows (Lexer.follows_ofSource _)
  obtain ⟨gap, rest, hgap, hrest, hsource, -⟩ := Lexer.next_cases hf.rests hf.running
  have hread : (Text.ofChars read).length ≤ (Text.ofChars before).length := by
    rw [← hf.reach_eq]
    exact Token.reach_le hstop
  have hchars : read ++ (gap ++ rest) = before ++ (run ++ after) := by
    rw [← hrest, ← hg.chars_eq, ← hf.rests.chars_eq]
    exact Text.chars_ofChars cs
  obtain ⟨lead, rfl, hlead⟩ := Text.exists_append_of_length_le hchars hread
  rw [Token.start_of_source hsource, List.append_assoc, Text.ofChars_append read,
    Text.ofChars_append read, List.length_append, List.length_append] at hstart
  obtain ⟨ms, rfl, -⟩ := @Text.exists_append_of_length_le (lead ++ run) after gap rest
    (by rw [hlead, List.append_assoc]) (by omega)
  refine ⟨earlier, mid, read, lead, hmid, hf, ?_, rfl, hrest.trans hlead⟩
  intro d hd
  exact hgap d (List.mem_append_left ms (List.mem_append_left run hd))

/-- A lexer in front of a token: what it has read, the blanks in front of the token, its characters
and what stands behind it. -/
theorem exists_spot (hx : x ∈ (Text.ofChars cs).tokens)
    (hk : x.kind.isFinal = false) :
    ∃ ts mid read gap text more,
      (Lexer.ofSource (.ofText [] (.ofChars cs) none)).Emits ts mid ∧
      cs = read ++ mid.scanner.rest ∧ mid.scanner.rest = gap ++ (text ++ more) ∧
      Blank gap ∧ x.kind.Admits text ∧ x.kind.Ends text more ∧
      x.start = (Text.ofChars (read ++ gap)).length ∧
      x.stop = (Text.ofChars (read ++ gap ++ text)).length := by
  obtain ⟨ts, later, hp⟩ := List.append_of_mem hx
  obtain ⟨mid, hmid, rfl⟩ := Lexer.exists_emits hp
  obtain ⟨read, hf⟩ := hmid.follows (Lexer.follows_ofSource _)
  obtain ⟨gap, text, more, hg, hr, hstart, hstop, hfound⟩ := Lexer.next_found hf.rests hf.running hk
  have hc : cs = read ++ mid.scanner.rest := (Text.chars_ofChars cs).symm.trans hf.rests.chars_eq
  exact ⟨ts, mid, read, gap, text, more, hmid, hc, hr, hg, hfound.admits, hfound.ends, hstart, hstop⟩

/-- A lexer in front of the token that a gap stands directly behind. -/
theorem exists_spot_of_gap (hg : (Text.ofChars cs).Gap before run after)
    (hx : x ∈ (Text.ofChars cs).tokens)
    (hk : x.kind.isFinal = false) (hs : x.stop = (Text.ofChars before).length) :
    ∃ ts mid read gap text,
      (Lexer.ofSource (.ofText [] (.ofChars cs) none)).Emits ts mid ∧
      cs = read ++ mid.scanner.rest ∧ mid.scanner.rest = gap ++ (text ++ (run ++ after)) ∧
      Blank gap ∧ x.kind.Admits text ∧ x.kind.Ends text (run ++ after) ∧
      before = read ++ (gap ++ text) := by
  obtain ⟨ts, mid, read, gap, text, more, hmid, hc, hr, hgap, ha, he, -, hstop⟩ := exists_spot hx hk
  rw [List.append_assoc] at hstop
  obtain ⟨rfl, rfl⟩ := @Text.append_inj_of_length_eq (read ++ (gap ++ text)) more before _
    (by rw [← hg.chars_eq, hc, hr, List.append_assoc, List.append_assoc]) (hstop.symm.trans hs)
  exact ⟨ts, mid, read, gap, text, hmid, hc, hr, hgap, ha, he, rfl⟩

section Replaced

variable {c : List Char}

/-- A comment in place of blanks behind a token that is neither a comment nor a dot, or behind other
blanks. -/
theorem readAll_commented (h : readAll (.ofChars cs) = .ok vs)
    (hg : (Text.ofChars cs).Gap before run after) (hc : '\n' ∉ c)
    (hx : ∀ x ∈ (Text.ofChars cs).tokens,
      x.stop = (Text.ofChars before).length → x.kind ≠ .dot ∧ x.kind ≠ .comment) :
    readAll (.ofChars (before ++ ';' :: (c ++ '\n' :: after))) = .ok vs := by
  obtain ⟨earlier, mid, read, lead, hmid, hf, hlead, rfl, hrest⟩ := exists_emits_of_gap h hg
  have hchars : cs = read ++ mid.scanner.rest :=
    (Text.chars_ofChars cs).symm.trans hf.rests.chars_eq
  rw [List.append_assoc]
  apply readAll_swap h hmid hchars
  · intro x hlast text he
    rw [hrest] at he
    cases lead with
    | cons d lead => exact he.congr rfl
    | nil =>
      have hm : x ∈ (Text.ofChars cs).tokens := by
        rw [Text.tokens, Source.tokens, hmid.pending_eq]
        exact List.mem_append_left _ (List.mem_of_getLast? hlast)
      have hstop : x.stop = (Text.ofChars (read ++ [])).length := by
        rw [List.append_nil, ← hf.reach_eq, Token.reach, Option.mem_def.mp hlast]
        rfl
      obtain ⟨hd, hk⟩ := hx x hm hstop
      exact TokenKind.ends_before_comment hd hk text _
  · rw [bareTokens_comment hlead hc (by simp), bareTokens_lineFeed, hrest, ← List.append_assoc,
      bareTokens_spaced (hlead.append hg.blank) (by simp [hg.ne_nil])]

/-- Directly behind a comment, a comment in place of blanks goes on with the first one. -/
theorem readAll_comment_extended (h : readAll (.ofChars cs) = .ok vs)
    (hg : (Text.ofChars cs).Gap before run after) (hc : '\n' ∉ c)
    (hx : x ∈ (Text.ofChars cs).tokens) (hk : x.kind = .comment)
    (hstop : x.stop = (Text.ofChars before).length) :
    readAll (.ofChars (before ++ ';' :: (c ++ '\n' :: after))) = .ok vs := by
  obtain ⟨ts, mid, read, gap, text, hmid, hchars, hrest, hgap, ha, he, rfl⟩ :=
    exists_spot_of_gap hg hx (by rw [hk]; rfl) hstop
  rw [hk] at ha he
  obtain ⟨body, hbody, rfl⟩ := ha
  have hnew : read ++ (gap ++ ';' :: body) ++ ';' :: (c ++ '\n' :: after) =
      read ++ (gap ++ ';' :: ((body ++ ';' :: c) ++ '\n' :: after)) := by
    simp
  rw [hnew]
  apply readAll_swap h hmid hchars
  · intro y _ text' he'
    rw [hrest] at he'
    apply he'.congr
    cases gap <;> rfl
  · have hn : '\n' ∉ body ++ ';' :: c := by simp [hbody, hc]
    rw [bareTokens_comment hgap hn (by simp), bareTokens_lineFeed, hrest, List.cons_append,
      bareTokens_comment hgap hbody he, bareTokens_spaced hg.blank hg.ne_nil]

/-- Directly behind a dot, a comment in place of blanks is refused. -/
theorem readAll_dot_comment (hg : (Text.ofChars cs).Gap before run after)
    (hx : x ∈ (Text.ofChars cs).tokens) (hk : x.kind = .dot)
    (hstop : x.stop = (Text.ofChars before).length) (rest : List Char) :
    ∃ e, readAll (.ofChars (before ++ ';' :: rest)) = .error e := by
  obtain ⟨ts, mid, read, gap, text, hmid, hchars, hrest, hgap, ha, -, rfl⟩ :=
    exists_spot_of_gap hg hx (by rw [hk]; rfl) hstop
  rw [hk] at ha
  obtain rfl : text = ['.'] := ha
  have hnew : read ++ (gap ++ ['.']) ++ ';' :: rest = read ++ (gap ++ '.' :: ';' :: rest) := by simp
  have hb : bareTokens false (read ++ (gap ++ '.' :: ';' :: rest)) = none := by
    rw [Lexer.bareTokens_behind hmid ((Text.chars_ofChars cs).trans hchars), bareTokens_unlexed hgap]
    · rfl
    · exact ⟨by decide, by simp [Lexeme.ofHead, show isBlank ';' = false by decide]⟩
    · intro y _ text' he'
      rw [hrest] at he'
      apply he'.congr
      cases gap <;> rfl
  rw [hnew]
  cases hr : readAll (.ofChars (read ++ (gap ++ '.' :: ';' :: rest))) with
  | error e => exact ⟨e, rfl⟩
  | ok vs =>
    obtain ⟨ts, hts, -⟩ := readAll_ofChars_iff.mp hr
    rw [hb] at hts
    cases hts

/-- A blank in place of a comment. -/
theorem readAll_blank_of_comment (h : readAll (.ofChars cs) = .ok vs)
    (hx : x ∈ (Text.ofChars cs).tokens) (hk : x.kind = .comment) :
    readAll ((Text.ofChars cs).take x.start ++ .ofString " " ++ (Text.ofChars cs).drop x.stop) =
      .ok vs := by
  obtain ⟨ts, mid, read, gap, text, more, hmid, hchars, hrest, hgap, ha, he, hstart, hstop⟩ :=
    exists_spot hx (by rw [hk]; rfl)
  rw [hk] at ha he
  obtain ⟨body, hbody, rfl⟩ := ha
  have hcs : cs = (read ++ gap ++ ';' :: body) ++ more := by
    rw [hchars, hrest]
    simp
  have htake : (Text.ofChars cs).take x.start = Text.ofChars (read ++ gap) := by
    rw [hstart]
    apply Scanner.take_ofText
    rw [Text.chars_ofChars, hcs, List.append_assoc]
  have hdrop : (Text.ofChars cs).drop x.stop = Text.ofChars more := by
    rw [hstop, hcs, Text.ofChars_append _ more, List.drop_left]
  have hnew : (Text.ofChars cs).take x.start ++ Text.ofString " " ++
      (Text.ofChars cs).drop x.stop = Text.ofChars (read ++ (gap ++ ' ' :: more)) := by
    rw [htake, hdrop, Text.ofString, ← Text.ofChars_append, ← Text.ofChars_append]
    simp
  rw [hnew]
  apply readAll_swap h hmid hchars
  · intro y _ text' he'
    rw [hrest] at he'
    cases gap with
    | nil => exact TokenKind.Ends.before_blank he' more
    | cons d gap => exact he'.congr rfl
  · rw [List.append_cons, bareTokens_spaced (hgap.append .space) (by simp), hrest,
      List.cons_append, bareTokens_comment hgap hbody he]

end Replaced

/-- Comments count as white space. Where a text can be read, a comment and a line break in place of
blanks between its tokens leave what is read, and so does a blank in place of a comment. The blanks
directly behind a dot are the only ones that no comment can stand for. -/
theorem readAll_of_comment {t : Text} (h : readAll t = .ok vs) :
    (∀ before run after c, t.Gap before run after → '\n' ∉ c →
      let commented := Text.ofChars (before ++ ';' :: (c ++ '\n' :: after))
      let behindDot := ∃ x ∈ t.tokens,
        x.kind = .dot ∧ x.stop = (Text.ofChars before).length
      (¬ behindDot → readAll commented = .ok vs) ∧
      (behindDot → ∃ e, readAll commented = .error e)) ∧
    ∀ x ∈ t.tokens, x.kind = .comment →
      readAll (t.take x.start ++ .ofString " " ++ t.drop x.stop) = .ok vs := by
  obtain ⟨cs, rfl⟩ : t.WellFormed := by
    obtain ⟨he, -, -⟩ := exists_tokens_of_verdict (verdict_of_readAll h)
    exact ⟨t.chars, (Text.ofChars_chars (firstStray?_of_complete he)).symm⟩
  refine ⟨fun before run after c hg hc => ⟨fun hd => ?_, ?_⟩, fun x => readAll_blank_of_comment h⟩
  · by_cases hk : ∃ x ∈ (Text.ofChars cs).tokens,
        x.kind = .comment ∧ x.stop = (Text.ofChars before).length
    · obtain ⟨x, hx, hk, hstop⟩ := hk
      exact readAll_comment_extended h hg hc hx hk hstop
    · refine readAll_commented h hg hc fun x hx hstop => ⟨fun hxd => ?_, fun hxc => ?_⟩
      · exact hd ⟨x, hx, hxd, hstop⟩
      · exact hk ⟨x, hx, hxc, hstop⟩
  · rintro ⟨x, hx, hk, hstop⟩
    exact readAll_dot_comment hg hx hk hstop _

/-- Before a dot a comment may stand for a blank, and behind it none may. The comment of the text may
become a blank. -/
theorem readAll_of_comment_dotted :
    let t := Text.ofString "(a . b);x\n'c"
    let vs : List Value := [.dotted [.atom (.ofString "a")] (.atom (.ofString "b")),
      .quoted (.atom (.ofString "c"))]
    readAll t = .ok vs ∧
      t.Gap "(a".toList [' '] ". b);x\n'c".toList ∧
      readAll (.ofString "(a;λ\n. b);x\n'c") = .ok vs ∧
      t.Gap "(a .".toList [' '] "b);x\n'c".toList ∧
      (∃ e, readAll (.ofString "(a .;λ\nb);x\n'c") = .error e) ∧
      readAll (.ofString "(a . b) \n'c") = .ok vs := by
  intro t vs
  have h : readAll t = .ok vs := by decide +kernel
  have hbefore : t.Gap "(a".toList [' '] ". b);x\n'c".toList :=
    ⟨by decide +kernel, .space, by simp, by decide +kernel⟩
  have hbehind : t.Gap "(a .".toList [' '] "b);x\n'c".toList :=
    ⟨by decide +kernel, .space, by simp, by decide +kernel⟩
  let comment : Token := ⟨.comment, .ofString ";x", ⟨[], 7, 1, 8⟩, false⟩
  obtain ⟨hcomment, hcut⟩ := readAll_of_comment h
  refine ⟨h, hbefore, ?_, hbehind, ?_, ?_⟩
  · exact (hcomment _ _ _ ['λ'] hbefore (by decide)).1 (by decide +kernel)
  · exact (hcomment _ _ _ ['λ'] hbehind (by decide)).2 (by decide +kernel)
  · exact hcut comment (by decide +kernel) rfl

/-- A comment directly behind a dot, in place of the only blank there. -/
theorem readAll_error_of_dot_comment :
    readAll (.ofString "(a . b)") =
        .ok [.dotted [.atom (.ofString "a")] (.atom (.ofString "b"))] ∧
      (Text.ofString "(a . b)").Gap "(a .".toList [' '] "b)".toList ∧
      readAll (.ofChars ("(a .".toList ++ ';' :: (['c'] ++ '\n' :: "b)".toList))) =
        .error (.parse (.ofString "1:4") (.ofString "dot must be followed by whitespace")) := by
  refine ⟨?_, ⟨?_, .space, by simp, ?_⟩, ?_⟩ <;> decide +kernel

end Reader

end SmallScheme
