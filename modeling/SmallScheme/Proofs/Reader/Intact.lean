import SmallScheme.Proofs.Reader.Lines
import SmallScheme.Proofs.Source.Extent

/-!
# Only intact sources are read

A source that breaks off, by a read error or at a stray byte, is followed by an error token, and no
program ends with one. So what is read is read from the whole text: the lexer has come to its last
byte, and the reader has taken every token up to the end of the input.
-/

namespace SmallScheme

set_option autoImplicit false

namespace Lexer

variable {lx last : Lexer} {contents unread : Text} {ts : List Token}

theorem Emits.over (h : Emits lx ts last) (ho : lx.scanner.Over contents unread) :
    last.scanner.Over contents unread := by
  induction h with
  | nil => exact ho
  | cons _ _ ih => exact ih (over_next ho)

theorem rest_next_of_blank {spaced : Bool} {ending : Ending} {gap : List Char}
    (h : lx.Stands spaced ending gap) (hg : Blank gap) : lx.next.2.scanner.rest = [] := by
  obtain ⟨s, -, -, hr, hn⟩ := next_running h.running
  rw [h.rest_eq, hg.dropWhile_eq_nil] at hr
  rw [hn]
  simp only [lexeme, hr]

end Lexer

namespace Reader

/-- A program is read up to its last token, which ends the input. -/
theorem program_of_grammar_cursor {stream : TokenStream} {vs : List Value}
    (h : Grammar.Program stream.pending vs) {symbols : Option SymbolTable}
    (hs : SymbolTable.Faithful? symbols) :
    (program (.ofStream stream symbols)).2.pending = [] ∧
      (program (.ofStream stream symbols)).2.latest = stream.pending.getLast? := by
  obtain ⟨us, cs, e, hp, hi, hc, he⟩ := h
  obtain ⟨c, -, hcp, -, hr⟩ := programFrom_items hi [] (.ofStream stream symbols) hs rfl hp
  have hs := pending_skipComments hcp hc (by simp [he])
  have hk : c.skipComments.peek = e := by simp [Cursor.peek, hs]
  rw [program, hr, programFrom_eq, if_pos (by rw [hk, he]), hp, ← List.append_assoc,
    List.getLast?_concat]
  simp [Cursor.advance, hk, hs]

/-- What is read comes from a text without stray bytes and without a read error, and the lexer has
gone over that text to its last byte when it hands the reader its last token. A text with a stray
byte anywhere, or with a read error behind it, gives an error and no expression. -/
theorem intact_of_readSource {symbols : Option SymbolTable}
    (hs : SymbolTable.Faithful? symbols) (name contents : Text) (readError : Option Text) :
    (∀ vs, (readSource symbols (.ofText name contents readError)).1 = .ok vs →
      contents.WellFormed ∧ readError = none ∧
      ∃ ts last, (Lexer.ofSource (.ofText name contents readError)).Emits ts last ∧
        last.next.1.kind = .eof ∧
        last.next.2.scanner.rest = [] ∧
        last.next.2.scanner.position.offset = contents.length ∧
        (program (.ofStream (Source.ofText name contents readError).tokens symbols)).2.latest =
          some last.next.1 ∧
        (program (.ofStream (Source.ofText name contents readError).tokens symbols)).2.pending =
          []) ∧
    (readError ≠ none ∨ ¬ contents.WellFormed →
      ∃ e, (readSource symbols (.ofText name contents readError)).1 = .error e) := by
  have intact (vs : List Value)
      (h : (readSource symbols (.ofText name contents readError)).1 = .ok vs) :
      contents.firstStray? = none ∧ readError = none ∧
        Blank (split (Source.ofText name contents readError).chars).2 := by
    obtain ⟨he, hb, -⟩ := exists_tokens_of_verdict ((readSource_eq_ok_iff_verdict hs).mp h)
    obtain ⟨hf, hr⟩ := Source.ending_ofText_eq_complete.mp he
    exact ⟨hf, hr, hb⟩
  constructor
  · intro vs h
    obtain ⟨hf, hr, hb⟩ := intact vs h
    have hw := Text.ofChars_chars hf
    refine ⟨⟨contents.chars, hw.symm⟩, hr, ?_⟩
    have hstands := Lexer.stands_ofSource (.ofText name contents readError)
    rw [← List.append_nil (Source.ofText name contents readError).chars] at hstands
    obtain ⟨ts, last, spaced, hts, -, hlast⟩ := Lexer.emits_split (by simp) hstands
    rw [List.append_nil] at hlast
    obtain ⟨hfinal, heof⟩ := Lexer.next_blank hlast hb
    -- nothing of the text lies behind its characters
    have hover : (Scanner.ofSource (.ofText name contents readError)).Over contents [] :=
      ⟨[], by rw [List.append_nil]; exact hw.symm, rfl, rfl⟩
    have hrest := Lexer.rest_next_of_blank hlast hb
    have hpending : (Source.ofText name contents readError).tokens.pending =
        ts ++ [last.next.1] := by
      rw [Source.tokens, hts.pending_eq, Lexer.pending_tokens_final hfinal]
    obtain ⟨hall, hlatest⟩ := program_of_grammar_cursor ((readSource_eq_ok_iff hs).mp h) hs
    rw [hpending, List.getLast?_concat] at hlatest
    refine ⟨ts, last, hts, ?_, hrest, ?_, hlatest, hall⟩
    · exact heof.mpr (Source.ending_ofText_eq_complete.mpr ⟨hf, hr⟩)
    · exact (Lexer.over_next (hts.over hover)).offset_eq hrest
  · intro hd
    cases h : (readSource symbols (.ofText name contents readError)).1 with
    | error e => exact ⟨e, rfl⟩
    | ok vs =>
      obtain ⟨hf, hr, -⟩ := intact vs h
      rcases hd with hd | hd
      · exact absurd hr hd
      · exact absurd ⟨contents.chars, (Text.ofChars_chars hf).symm⟩ hd

/-- A list with a string that is not ASCII, and a comment that ends the text. -/
theorem intact_of_comment :
    (readSource none (.ofText [] (.ofString "(f \"λ\") ; é") none)).1 =
        .ok [.list [.atom (.ofString "f"), .string (.ofString "λ")]] ∧
      (Text.ofString "(f \"λ\") ; é").WellFormed ∧
      ∃ e, (readSource none (.ofText [] (Text.ofString "(f \"λ\") ; é" ++ [0xC3]) none)).1 =
        .error e := by
  have hv : (readSource none (.ofText [] (.ofString "(f \"λ\") ; é") none)).1 =
      .ok [.list [.atom (.ofString "f"), .string (.ofString "λ")]] := by
    decide +kernel
  have hd : ¬ (Text.ofString "(f \"λ\") ; é" ++ [0xC3]).WellFormed := by
    rintro ⟨cs, hcs⟩
    have hn := Text.firstStray?_ofChars cs
    rw [← hcs] at hn
    revert hn
    decide +kernel
  exact ⟨hv, ((intact_of_readSource SymbolTable.faithful?_none [] _ none).1 _ hv).1,
    (intact_of_readSource SymbolTable.faithful?_none [] _ none).2 (.inr hd)⟩

end Reader

end SmallScheme
