import SmallScheme.Proofs.Reader.Depth
import SmallScheme.Proofs.Reader.Lines
import SmallScheme.Proofs.Token.Faithful

/-!
# Which texts await more

A text that can be read never awaits more. A text that cannot be read, but can be with more lines
behind it, awaits more exactly where its terminals are its tokens: there an open list or an open
string is seen, and elsewhere nothing is.
-/

namespace SmallScheme

open Grammar
set_option autoImplicit false

theorem loose_of_blank {rest : List Char} (h : Blank rest) :
    Loose rest ∧ looseTerminals rest = [] := by
  rw [Loose, looseTerminals, h.dropWhile_eq_nil]
  exact ⟨by simp, rfl⟩

namespace Reader

theorem terminals_of_unplaced {ts : List Token} {spaced : Bool} {ss : List Segment}
    (h : ts.map Token.unplaced = Segment.tokens spaced ss) :
    ts.map (·.kind.terminal) = ss.map (·.kind.terminal) := by
  have hk : (ts.map Token.unplaced).map Token.kind = ss.map Segment.kind := by
    rw [h, Segment.map_kind_tokens]
  have ht := congrArg (List.map TokenKind.terminal) hk
  rw [List.map_map, List.map_map, List.map_map] at ht
  exact ht

/-- A complete program never awaits more. -/
theorem awaitsMore_of_readAll {t : Text} {vs : List Value} (h : readAll t = .ok vs) :
    t.awaitsMore = false := by
  obtain ⟨he, hb, ts, hts, hf⟩ := exists_tokens_of_verdict (verdict_of_readAll h)
  have hx := Text.ofChars_chars (firstStray?_of_complete he)
  obtain ⟨hl, hn⟩ := loose_of_blank hb
  have ha := Terminal.awaitsMore_ofChars hl
  rw [hn, List.append_nil, ← terminals_of_unplaced hts, hf.raises.leavesOpen_eq,
    show decide (0 ≠ 0) = false from rfl, Bool.and_false] at ha
  rw [← hx]
  exact ha

theorem awaitsMore_of_comment :
    readAll (.ofString "'a ; (b") = .ok [.quoted (.atom (.ofString "a"))] ∧
      (Text.ofString "'a ; (b").awaitsMore = false := by
  have h : readAll (.ofString "'a ; (b") = .ok [.quoted (.atom (.ofString "a"))] := by
    decide +kernel
  exact ⟨h, awaitsMore_of_readAll h⟩

/-- Tokens that a lexer hands out on its way to the end of a program. -/
theorem raises_of_emits {lx mid : Lexer} {p : List Token} {vs : List Value} (h : lx.Emits p mid)
    (hp : Program lx.tokens.pending vs) :
    ∃ k, Raises p k ∧ (mid.next.1.spaced = true → k = 0 → ∃ ws, Forms true p ws) := by
  obtain ⟨q, e, hm⟩ : ∃ q e, mid.tokens.pending = q ++ [e] := by
    obtain ⟨more, hmore⟩ := mid.head_pending
    rcases List.eq_nil_or_concat mid.tokens.pending with hn | ⟨q, e, hq⟩
    · rw [hn] at hmore
      cases hmore
    · exact ⟨q, e, hq.trans List.concat_eq_append⟩
  rw [h.pending_eq, hm, ← List.append_assoc, program_concat] at hp
  obtain ⟨k, hk, hz⟩ := hp.1.cut
  refine ⟨k, hk, fun hs h0 => ?_⟩
  rcases hz h0 with ⟨t, ht, hn⟩ | hw
  · -- The token behind them is the next one of the lexer, which is set apart.
    obtain ⟨more, hmore⟩ := mid.head_pending
    cases q with
    | nil => cases ht
    | cons u q =>
      rw [hm, List.cons_append] at hmore
      rw [← Option.some.inj ht, (List.cons.inj hmore).1, hs] at hn
      cases hn
  · exact hw

theorem readSource_of_forms {symbols : Option SymbolTable}
    (hs : SymbolTable.Faithful? symbols) {s : Source} {us : List Token} {ws : List Value}
    (he : s.ending = .complete) (hb : Blank (split s.chars).2)
    (hu : us.map Token.unplaced = Segment.tokens false (split s.chars).1)
    (hf : Forms true us ws) : (readSource symbols s).1 = .ok ws := by
  obtain ⟨ts, e, ht, hts, hk⟩ := Lexer.pending_split (Lexer.stands_ofSource s)
  have hp : Program s.tokens.pending ws := by
    refine program_of_unplaced ?_ s.sealed_tokens s.classed_of_mem_tokens
      (program_concat.mpr ⟨hf, hk.mpr ⟨he, hb⟩⟩)
    rw [Source.tokens, ht, List.map_append, List.map_append, hu, hts]
  exact (readSource_eq_ok_iff hs).mpr hp

/-- Only a string goes on behind a line break. -/
theorem eq_mark_of_lineFeed {kind : TokenKind} {c : Char} {text : List Char}
    (h : kind.Admits (c :: text)) (hm : '\n' ∈ text) : c = '"' := by
  cases kind with
  | symbol =>
    obtain ⟨d, ds, hx, -, hds⟩ := h
    obtain ⟨rfl, rfl⟩ := List.cons.inj hx
    exact absurd (hds _ hm) (by decide)
  | int => exact absurd (h.2 _ (List.mem_cons_of_mem c hm)) (by decide)
  | string =>
    obtain ⟨body, -, hx⟩ := h
    exact (List.cons.inj hx).1
  | char =>
    obtain ⟨name, hn, hx⟩ := h
    obtain ⟨rfl, rfl⟩ := List.cons.inj hx
    have hm := (List.mem_cons.mp hm).resolve_left (by decide)
    rcases Lexeme.letters_of_characterName hn with ⟨d, ds, rfl, hl⟩ | ⟨d, rfl, -, hd⟩
    · exact absurd (hl _ hm) (by decide)
    · rw [← List.mem_singleton.mp hm] at hd
      exact absurd hd (by decide)
  | comment =>
    obtain ⟨body, hb, hx⟩ := h
    obtain ⟨rfl, rfl⟩ := List.cons.inj hx
    exact absurd hm hb
  | quote | dot | openParen | closeParen =>
    obtain ⟨-, rfl⟩ := List.cons.inj h
    cases hm
  | invalid | error | eof => exact h.elim

/-- What a line break can turn into the beginning of a token. -/
theorem eq_of_unlexed {c : Char} {cs ds : List Char} (h : Unlexed c cs)
    (h' : ¬ Unlexed c (cs ++ '\n' :: ds)) : c = '"' ∨ c = '.' ∧ cs = [] := by
  have ht : ∃ kind size, Lexeme.ofHead c (cs ++ '\n' :: ds) = .token kind size := by
    by_contra hn
    exact h' ⟨h.1, fun kind size ho => hn ⟨kind, size, ho⟩⟩
  obtain ⟨kind, size, ho⟩ := ht
  obtain ⟨text, rest, hcs, -, ha, he⟩ := Lexeme.exists_token ho
  have token (as : List Char) (has : cs = text ++ as) (he : kind.Ends (c :: text) as) :
      c = '"' ∨ c = '.' ∧ cs = [] := by
    rw [has] at h
    exact absurd (Lexeme.ofHead_of_admits ha he) (h.2 kind _)
  rcases append_cases hcs.symm with ⟨as, has, rfl⟩ | ⟨as, hn, rfl, hr⟩
  · by_cases hd : kind = .dot
    · subst hd
      obtain ⟨rfl, rfl⟩ := List.cons.inj ha
      cases as with
      | nil => exact .inr ⟨rfl, has⟩
      | cons d as => exact token (d :: as) has he
    · exact token as has (he.of_append hd)
  · obtain ⟨a, as, rfl⟩ := List.exists_cons_of_ne_nil hn
    obtain ⟨rfl, -⟩ := List.cons.inj hr
    exact .inl (eq_mark_of_lineFeed ha (List.mem_append_right cs List.mem_cons_self))

section Continued

variable {lx mid : Lexer} {us : List Token} {spaced : Bool} {cs ds : List Char} {vs : List Value}

theorem leavesOpen_of_continued (h : lx.Emits us mid) (hp : Program lx.tokens.pending vs)
    (hm : mid.Stands spaced .complete (cs ++ '\n' :: ds))
    (hf : Blank cs → ¬ ∃ ws, Forms true us ws)
    (hr : Blank cs ∨ ∃ gap c rest, cs = gap ++ c :: rest ∧ Blank gap ∧ Unlexed c rest) :
    Loose cs ∧ Terminal.leavesOpen 0 (us.map (·.kind.terminal) ++ looseTerminals cs) = true := by
  obtain ⟨k, hk, hz⟩ := raises_of_emits h hp
  rcases hr with hb | ⟨gap, c, rest, rfl, hg, hc⟩
  · obtain ⟨hl, hn⟩ := loose_of_blank hb
    rw [List.append_cons] at hm
    have hs := Lexer.spaced_next_of_gap hb.lineFeed (by simp) hm
    have h0 : k ≠ 0 := fun h0 => hf hb (hz hs h0)
    rw [hn, List.append_nil, hk.leavesOpen_eq]
    exact ⟨hl, decide_eq_true h0⟩
  · rw [List.append_assoc, List.cons_append] at hm
    have hn : ¬ Unlexed c (rest ++ '\n' :: ds) := by
      intro hu
      obtain ⟨hfin, hne⟩ := Lexer.next_unlexed hm hg hu
      rw [h.pending_eq, Lexer.pending_tokens_final hfin, program_concat] at hp
      exact hne hp.2
    rw [Loose, looseTerminals, hg.dropWhile_cons hc.1]
    rcases eq_of_unlexed hc hn with rfl | ⟨rfl, rfl⟩
    · refine ⟨fun d hd => .inl (Option.some.inj hd).symm, ?_⟩
      rw [hk 0]
      cases k <;> rfl
    · refine ⟨fun d hd => .inr rfl, ?_⟩
      -- The dot is a token of the longer text, and no program ends with it.
      have ha : TokenKind.dot.Admits ['.'] := rfl
      have he : TokenKind.dot.Ends ['.'] ('\n' :: ds) := ⟨'\n', rfl, by decide⟩
      obtain ⟨ht, hs⟩ := Lexer.next_admitted hm hg ha he
      have hdot : mid.next.1.kind = .dot := (Token.eq_of_unplaced ht).1
      have hus := h.append (.cons (by rw [hdot]; rfl) (.nil mid.next.2))
      obtain ⟨m, hm, hz⟩ := raises_of_emits hus hp
      have hs := Lexer.spaced_next_of_gap Blank.nil.lineFeed (by simp) hs
      have h0 : m ≠ 0 := by
        intro h0
        obtain ⟨ws, hw⟩ := hz hs h0
        exact hw.last_ne_dot hdot
      have ho := hm.leavesOpen_eq
      rw [List.map_append, List.map_singleton, hdot] at ho
      exact ho.trans (decide_eq_true h0)

end Continued

/-- Where a text cannot be read, but can be with another line behind it, it awaits more if and only
if its terminals are its tokens. -/
theorem awaitsMore_iff_of_continued {t u : Text} {e : Error} {vs : List Value}
    (h : readAll t = .error e) (hu : readAll (t ++ .ofString "\n" ++ u) = .ok vs) :
    t.awaitsMore = true ↔ Faithful (t.chars.dropWhile isBlank) := by
  obtain ⟨he, -, -⟩ := exists_tokens_of_verdict (verdict_of_readAll hu)
  obtain ⟨cs, rfl⟩ : t.WellFormed := by
    have hx := Text.ofChars_chars (firstStray?_of_complete he)
    rw [List.append_assoc] at hx
    exact Text.wellFormed_of_append (by decide) ⟨_, hx.symm⟩
  have hst := Lexer.stands_ofSource (Source.ofText [] (Text.ofChars cs ++ .ofString "\n" ++ u) none)
  have hc : (Source.ofText [] (Text.ofChars cs ++ .ofString "\n" ++ u) none).chars =
      cs ++ '\n' :: u.chars := by
    rw [Text.ofString, ← Text.ofChars_append]
    exact (Text.chars_ofChars_append _ u).trans (List.append_assoc cs ['\n'] u.chars)
  rw [he, hc] at hst
  obtain ⟨us, mid, spaced, hus, hum, hmid⟩ := Lexer.emits_split (by simp) hst
  have hf : Blank (split cs).2 → ¬ ∃ ws, Forms true us ws := by
    rintro hb ⟨ws, hf⟩
    have hr : readAll (Text.ofChars cs) = .ok ws := by
      have hs : (Source.ofText [] (Text.ofChars cs) none).chars = cs := Text.chars_ofChars cs
      apply readSource_of_forms SymbolTable.faithful?_empty
      · simp [Source.ofText, Text.firstStray?_ofChars]
      · rwa [hs]
      · rwa [hs]
      · exact hf
    rw [h] at hr
    cases hr
  have hp := (readSource_eq_ok_iff SymbolTable.faithful?_empty).mp hu
  obtain ⟨hl, ho⟩ := leavesOpen_of_continued hus hp hmid hf (split_rest cs)
  rw [Terminal.awaitsMore_ofChars hl, ← terminals_of_unplaced hum, ho, Bool.and_true,
    Text.chars_ofChars, decide_eq_true_iff]

theorem awaitsMore_iff_of_openString :
    readAll (.ofString "(a \"b") = .error (.parse (.ofString "1:4") (.ofString "unexpected EOF")) ∧
      readAll (.ofString "(a \"b" ++ .ofString "\n" ++ .ofString "\")") =
        .ok [.list [.atom (.ofString "a"), .string (.ofString "b\n")]] ∧
      (Text.ofString "(a \"b").awaitsMore = true := by
  have h : readAll (.ofString "(a \"b") =
      .error (.parse (.ofString "1:4") (.ofString "unexpected EOF")) := by decide +kernel
  have hu : readAll (.ofString "(a \"b" ++ .ofString "\n" ++ .ofString "\")") =
      .ok [.list [.atom (.ofString "a"), .string (.ofString "b\n")]] := by decide +kernel
  exact ⟨h, hu, (awaitsMore_iff_of_continued h hu).mpr (by decide +kernel)⟩

/-- A line may complete a text that awaits nothing: the blank of the literal for the space is taken
for a blank at the end. -/
theorem not_awaitsMore_of_spaceLiteral :
    readAll (.ofString "(#\\ ") = .error (.parse (.ofString "1:5") (.ofString "unmatched (")) ∧
      readAll (.ofString "(#\\ " ++ .ofString "\n" ++ .ofString ")") =
        .ok [.list [.char (.ofChar ' ')]] ∧
      (Text.ofString "(#\\ ").awaitsMore = false := by
  decide +kernel

end Reader

end SmallScheme
