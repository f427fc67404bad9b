import SmallScheme.Proofs.Token.Layout

/-!
# Requests to a lexer

A lexer answers every request, and each token that is not final takes bytes away from the text
(`Lexer.unread_next_lt`). The first final token stops it, and `Lexer.Halts` says what it
answers from then on: after the end of the input come further ends, and after a fault come errors
with the same message. One fault is forgotten. Where a complete text ends inside a string or a
character literal, one error says so, and then the input just ends
(`Source.requests_behind_final`).
-/

namespace SmallScheme

set_option autoImplicit false

/-- Characters that begin a token and end before the token does: a string without its closing mark,
or a character literal without its character. -/
def Truncated (cs : List Char) : Prop :=
  (∃ body, cs = '"' :: body ∧
    ∀ text rest, StringBody text → body ≠ text ++ '"' :: rest) ∨ cs = ['#', '\\']

namespace Lexeme

theorem closingMark_eq_none_iff {cs : List Char} :
    closingMark cs = none ↔ ∀ text rest, StringBody text → cs ≠ text ++ '"' :: rest := by
  constructor
  · rintro h text rest ht rfl
    rw [closingMark_append ht] at h
    cases h
  · intro h
    cases hm : closingMark cs with
    | none => rfl
    | some n =>
      obtain ⟨text, ht, hn⟩ := take_closingMark hm
      refine absurd ?_ (h text (cs.drop n) ht)
      rw [List.append_cons, ← hn, List.take_append_drop]

theorem character_eq_cut_iff {cs : List Char} : character cs = .cut ↔ cs = [] := by
  cases cs with
  | nil => exact ⟨fun _ => rfl, fun _ => rfl⟩
  | cons c cs =>
    simp only [character, reduceCtorEq, iff_false]
    split
    · split <;> simp
    · split <;> simp

/-- The end of the characters cuts a token short where they are truncated. -/
theorem ofHead_eq_cut_iff {c : Char} {cs : List Char} :
    ofHead c cs = .cut ↔ Truncated (c :: cs) := by
  by_cases hq : c = '"'
  · subst hq
    have ho : ofHead '"' cs = .cut ↔ closingMark cs = none := by
      simp only [ofHead]
      cases closingMark cs <;> simp
    rw [ho, closingMark_eq_none_iff]
    simp [Truncated]
  by_cases hh : c = '#' ∧ cs.head? = some '\\'
  · obtain ⟨rfl, hd⟩ := hh
    obtain ⟨d, ds, rfl⟩ : ∃ d ds, cs = d :: ds := by
      cases cs with
      | nil => cases hd
      | cons d ds => exact ⟨d, ds, rfl⟩
    obtain rfl := Option.some.inj hd
    have ho : ofHead '#' ('\\' :: ds) = character ds := by simp [ofHead]
    rw [ho, character_eq_cut_iff]
    simp [Truncated]
  · have ht : ¬ Truncated (c :: cs) := by
      rintro (⟨body, hb, -⟩ | hb)
      · exact hq (List.cons.inj hb).1
      · obtain ⟨rfl, rfl⟩ := List.cons.inj hb
        exact hh ⟨rfl, rfl⟩
    simp only [ht, iff_false, ofHead, hq, hh, if_false]
    grind

end Lexeme

namespace Lexer

/-- The lexer behind a number of requests. -/
def later : Lexer → Nat → Lexer
  | lx, 0 => lx
  | lx, n + 1 => later lx.next.2 n

/-- The token that a request gives; requests count from zero. -/
def request (lx : Lexer) (n : Nat) : Token := (lx.later n).next.1

theorem later_add (lx : Lexer) (n k : Nat) : lx.later (n + k) = (lx.later n).later k := by
  induction n generalizing lx with
  | zero => rw [Nat.zero_add, later]
  | succ n ih =>
    rw [Nat.succ_add]
    exact ih lx.next.2

theorem request_add (lx : Lexer) (n k : Nat) : lx.request (n + k) = (lx.later n).request k := by
  rw [request, later_add, request]

section Unread

/-- The number of bytes of the readable text that a lexer has not scanned. -/
def unread (lx : Lexer) : Nat := (Text.ofChars lx.scanner.rest).length

theorem suffix_next (lx : Lexer) : lx.next.2.scanner.rest <:+ lx.scanner.rest := by
  have ha (s : Scanner) (h : s.rest <:+ lx.scanner.rest) : s.advance.rest <:+ lx.scanner.rest := by
    rw [Scanner.rest_advance]
    exact (List.tail_suffix s.rest).trans h
  exact next_induction ha (fun _ h => h) (List.suffix_refl _)

/-- The bytes that a request scans are those by which the scanner moves on. -/
theorem offset_next (lx : Lexer) :
    lx.next.2.scanner.position.offset + lx.next.2.unread =
      lx.scanner.position.offset + lx.unread := by
  have ha (s : Scanner)
      (h : s.position.offset + (Text.ofChars s.rest).length =
        lx.scanner.position.offset + lx.unread) :
      s.advance.position.offset + (Text.ofChars s.advance.rest).length =
        lx.scanner.position.offset + lx.unread := by
    rw [← h]
    cases hr : s.rest with
    | nil => simp only [Scanner.advance, hr]
    | cons c cs =>
      simp only [Scanner.advance, hr, Position.offset_after, Text.ofChars_cons,
        List.length_append]
      omega
  exact next_induction ha (fun _ h => h) rfl

theorem unread_next_le (lx : Lexer) : lx.next.2.unread ≤ lx.unread := by
  obtain ⟨used, hu⟩ := lx.suffix_next
  rw [unread, unread, ← hu, Text.ofChars_append, List.length_append]
  omega

/-- A token that is not final takes bytes away from the text. -/
theorem unread_next_lt {lx : Lexer} (h : lx.next.1.kind.isFinal = false) :
    lx.next.2.unread < lx.unread := by
  have hl := lx.rest_next_lt h
  obtain ⟨used, hu⟩ := lx.suffix_next
  cases used with
  | nil =>
    rw [← hu, List.nil_append] at hl
    exact absurd hl (Nat.lt_irrefl _)
  | cons c cs =>
    have hc := List.length_pos_iff.mpr (Text.encode_ne_nil c)
    rw [unread, unread, ← hu, List.cons_append, Text.ofChars_cons, Text.ofChars_append]
    simp only [List.length_append]
    omega

theorem offset_later (lx : Lexer) (n : Nat) :
    (lx.later n).scanner.position.offset + (lx.later n).unread =
      lx.scanner.position.offset + lx.unread := by
  induction n generalizing lx with
  | zero => rfl
  | succ n ih =>
    have hn := ih lx.next.2
    rw [offset_next] at hn
    exact hn

theorem unread_ofSource_le (name contents : Text) (readError : Option Text) :
    (ofSource (.ofText name contents readError)).unread ≤ contents.length := by
  obtain ⟨unread, hu⟩ := contents.exists_ofChars_append
  have hl := congrArg List.length hu
  rw [List.length_append] at hl
  change (Text.ofChars contents.chars).length ≤ contents.length
  omega

/-- No scanner moves beyond the end of its text. -/
theorem offset_later_le (name contents : Text) (readError : Option Text) (n : Nat) :
    ((ofSource (.ofText name contents readError)).later n).scanner.position.offset ≤
      contents.length := by
  have hl := offset_later (ofSource (.ofText name contents readError)) n
  have hu := unread_ofSource_le name contents readError
  have hz : (ofSource (.ofText name contents readError)).scanner.position.offset = 0 := rfl
  omega

end Unread

section Stopped

variable {lx : Lexer} {stop : Stop}

theorem request_of_stopped (h : lx.stopped = some stop) (n : Nat) :
    lx.request n = stopToken lx.scanner (lx.spaced && n == 0) stop := by
  induction n generalizing lx with
  | zero =>
    rw [beq_self_eq_true, Bool.and_true]
    simp only [request, later, next, h]
  | succ n ih =>
    have hn : lx.next.2 = { lx with spaced := false } := by simp only [next, h]
    have hs : lx.next.2.stopped = some stop := by
      rw [hn]
      exact h
    have hi := ih hs
    rw [hn, Bool.false_and] at hi
    have hl : lx.request (n + 1) = lx.next.2.request n := rfl
    rw [hl, hn, hi, beq_false_of_ne (Nat.succ_ne_zero n), Bool.and_false]

theorem later_stopped (h : lx.stopped = some stop) (n : Nat) :
    (lx.later n).stopped = some stop := by
  induction n generalizing lx with
  | zero => exact h
  | succ n ih =>
    apply ih
    simp only [next, h]

end Stopped

/-- Why a lexer stops that hands out a final token in front of the given characters. -/
inductive Halts (ending : Ending) (cs : List Char) (t : Token) : Stop → Prop where
  | eof : t.kind = .eof → Halts ending cs t .atEnd
  | short : t.kind = .error → t.text = .ofString "unexpected EOF" → ending = .complete →
      Truncated cs → Halts ending cs t .atEnd
  | fault : t.kind = .error ∨ t.kind = .invalid → ¬ (ending = .complete ∧ Truncated cs) →
      Halts ending cs t (.fault t.text)

section Halting

variable {lx : Lexer} {s : Scanner} {spaced : Bool}

theorem lexeme_halts (hf : (lexeme s spaced).1.kind.isFinal = true) :
    ∃ stop, (lexeme s spaced).2.stopped = some stop ∧ (lexeme s spaced).2.spaced = false ∧
      Halts s.ending s.rest (lexeme s spaced).1 stop := by
  cases hr : s.rest with
  | nil =>
    have ht : ¬ Truncated [] := by simp [Truncated]
    simp only [lexeme, hr]
    refine ⟨s.ending.stop, rfl, trivial, ?_⟩
    cases s.ending.stop with
    | atEnd => exact .eof rfl
    | fault message => exact .fault (.inl rfl) fun h => ht h.2
  | cons c cs =>
    have hcut := @Lexeme.ofHead_eq_cut_iff c cs
    cases ho : Lexeme.ofHead c cs with
    | token kind size =>
      obtain ⟨text, rest, -, -, ha, -⟩ := Lexeme.exists_token ho
      simp only [lexeme, hr, ho, Scanner.token] at hf
      rw [ha.not_final] at hf
      cases hf
    | fault message size =>
      rw [ho] at hcut
      simp only [lexeme, hr, ho]
      exact ⟨.fault message, rfl, trivial, .fault (.inl rfl) fun h => by cases hcut.mpr h.2⟩
    | invalid d =>
      rw [ho] at hcut
      simp only [lexeme, hr, ho]
      exact ⟨.fault (unexpected d), rfl, trivial, .fault (.inr rfl) fun h => by cases hcut.mpr h.2⟩
    | cut =>
      simp only [lexeme, hr, ho, Scanner.ending_advanceBy]
      refine ⟨s.ending.stop, rfl, trivial, ?_⟩
      -- only a complete source ends in silence behind a token that is cut short
      cases s.ending with
      | complete => exact .short rfl rfl rfl (hcut.mp ho)
      | stray b => exact .fault (.inl rfl) fun h => by cases h.1
      | failed message => exact .fault (.inl rfl) fun h => by cases h.1

theorem next_halts (hs : lx.stopped = none) (hf : lx.next.1.kind.isFinal = true) :
    ∃ stop, lx.next.2.stopped = some stop ∧ lx.next.2.spaced = false ∧
      Halts lx.scanner.ending (lx.scanner.rest.dropWhile isBlank) lx.next.1 stop := by
  obtain ⟨s, -, he, hr, hn⟩ := next_running hs
  rw [hn] at hf ⊢
  rw [← he, ← hr]
  exact lexeme_halts hf

theorem stopped_next (hf : lx.next.1.kind.isFinal = true) :
    ∃ stop, lx.next.2.stopped = some stop ∧ lx.next.2.spaced = false := by
  cases hs : lx.stopped with
  | none =>
    obtain ⟨stop, hstop, hspaced, -⟩ := next_halts hs hf
    exact ⟨stop, hstop, hspaced⟩
  | some stop => exact ⟨stop, by simp only [next, hs], by simp only [next, hs]⟩

/-- The requests to a lexer give its tokens, and then the repeated one for ever. -/
theorem request_eq_tokens (lx : Lexer) (n : Nat) :
    lx.request n = (lx.tokens.pending[n]?).getD lx.tokens.repeated := by
  induction hl : lx.scanner.rest.length using Nat.strongRecOn generalizing lx n with
  | ind l ih =>
    cases hf : lx.next.1.kind.isFinal with
    | true =>
      rw [pending_tokens_final hf, repeated_tokens_final hf]
      cases n with
      | zero => rfl
      | succ n =>
        obtain ⟨stop, hstop, hspaced⟩ := stopped_next hf
        change lx.next.2.request n = lx.next.2.request 0
        rw [request_of_stopped hstop, request_of_stopped hstop, hspaced, Bool.false_and,
          Bool.false_and]
    | false =>
      rw [pending_tokens_more hf, repeated_tokens_more hf]
      cases n with
      | zero => rfl
      | succ n => exact ih _ (hl ▸ rest_next_lt lx hf) lx.next.2 n rfl

theorem isFinal_repeated (lx : Lexer) : lx.tokens.repeated.kind.isFinal = true := by
  induction hn : lx.scanner.rest.length using Nat.strongRecOn generalizing lx with
  | ind n ih =>
    cases hf : lx.next.1.kind.isFinal with
    | false =>
      rw [repeated_tokens_more hf]
      exact ih _ (hn ▸ lx.rest_next_lt hf) lx.next.2 rfl
    | true =>
      obtain ⟨stop, hs, -⟩ := stopped_next hf
      rw [repeated_tokens_final hf, next, hs]
      exact isFinal_stopToken _ _ stop

theorem exists_emits_later {n : Nat} (h : ∀ i < n, (lx.request i).kind.isFinal = false) :
    ∃ ts, Emits lx ts (lx.later n) := by
  induction n generalizing lx with
  | zero => exact ⟨[], .nil lx⟩
  | succ n ih =>
    have hi (i : Nat) (hi : i < n) : (lx.next.2.request i).kind.isFinal = false :=
      h (i + 1) (Nat.succ_lt_succ hi)
    obtain ⟨ts, hts⟩ := ih hi
    exact ⟨lx.next.1 :: ts, .cons (h 0 (Nat.succ_pos n)) hts⟩

end Halting

variable {name contents : Text} {readError : Option Text} {earlier : List Token}
  {read : List Char} {lx : Lexer} {n : Nat}

/-- What stands in a text from the beginning of a token on. -/
theorem Follows.chars_start (h : Follows (.ofText name contents readError) earlier read lx) :
    Text.chars (contents.drop lx.next.1.start) = lx.scanner.rest.dropWhile isBlank := by
  obtain ⟨s, hb, ht, hr, hn⟩ := next_lexeme h.rests h.running
  have hstart : lx.next.1.start =
      (Text.ofChars (read ++ lx.scanner.rest.takeWhile isBlank)).length := by
    rw [hn]
    exact Token.start_of_source (lexeme_cases hb ht).1
  rw [hstart]
  exact Scanner.chars_drop_ofText (h.rests.chars_of_rest List.takeWhile_append_dropWhile.symm)

/-- A request gives the first final token, the text can be read to its end, and it ends inside that
token. -/
structure BreaksOff (contents : Text) (readError : Option Text) (lx : Lexer) (n : Nat) : Prop where
  first : ∀ i < n, (lx.request i).kind.isFinal = false
  wellFormed : contents.WellFormed
  readError_eq : readError = none
  truncated : Truncated (Text.chars (contents.drop (lx.request n).start))

theorem breaksOff_iff :
    BreaksOff contents readError lx n ↔ (∀ i < n, (lx.request i).kind.isFinal = false) ∧
      (Source.ofText name contents readError).ending = .complete ∧
        Truncated (Text.chars (contents.drop (lx.request n).start)) := by
  have hw : contents.WellFormed ↔ contents.firstStray? = none := by
    constructor
    · rintro ⟨cs, rfl⟩
      exact Text.firstStray?_ofChars cs
    · exact fun h => ⟨contents.chars, (Text.ofChars_chars h).symm⟩
  rw [Source.ending_ofText_eq_complete, ← hw]
  exact ⟨fun h => ⟨h.first, ⟨h.wellFormed, h.readError_eq⟩, h.truncated⟩,
    fun h => ⟨h.1, h.2.1.1, h.2.1.2, h.2.2⟩⟩

/-- A final token stops the lexer, as it says itself. -/
theorem request_halts (hlx : lx = ofSource (.ofText name contents readError))
    (hf : (lx.request n).kind.isFinal = true) :
    ∃ stop ending cs, (lx.later (n + 1)).stopped = some stop ∧
      Halts ending cs (lx.request n) stop ∧
      (lx.BreaksOff contents readError n ↔ ending = .complete ∧ Truncated cs) := by
  by_cases hfirst : ∀ i < n, (lx.request i).kind.isFinal = false
  · obtain ⟨ts, hts⟩ := exists_emits_later hfirst
    obtain ⟨read, hread⟩ := (hlx ▸ hts).follows (follows_ofSource _)
    rw [← hlx] at hread
    obtain ⟨stop, hstop, -, hhalts⟩ := next_halts hread.running hf
    refine ⟨stop, _, _, ?_, hhalts, ?_⟩
    · rw [later_add]
      exact hstop
    · rw [hread.rests.behind.ending_eq, ← hread.chars_start, @breaksOff_iff name]
      exact and_iff_right hfirst
  · -- an earlier request has stopped the lexer, and the stop is reported again
    simp only [not_forall, Bool.not_eq_false] at hfirst
    obtain ⟨j, hj, hjf⟩ := hfirst
    obtain ⟨m, hm⟩ := Nat.exists_eq_add_of_lt hj
    have hn : n = j + 1 + m := by omega
    obtain ⟨stop, hstop, -⟩ := stopped_next hjf
    have hlater : (lx.later (j + 1)).stopped = some stop := by
      rw [later_add]
      exact hstop
    have hb : ¬ lx.BreaksOff contents readError n := by
      intro hb
      rw [hb.first j hj] at hjf
      cases hjf
    have ht : ¬ Truncated [] := by simp [Truncated]
    refine ⟨stop, .complete, [], ?_, ?_, iff_of_false hb fun h => ht h.2⟩
    · rw [hn, Nat.add_assoc, later_add]
      exact later_stopped hlater (m + 1)
    · rw [hn, request_add, request_of_stopped hlater]
      cases stop with
      | atEnd => exact .eof rfl
      | fault message => exact .fault (.inl rfl) fun h => ht h.2

end Lexer

/-- Behind the end of the input a lexer gives further ends. Behind a fault it gives errors with the
same message, unless the fault was that a text which can be read to its end ends inside a token:
then the input ends. -/
theorem Source.requests_behind_final (name contents : Text) (readError : Option Text) (n k : Nat) :
    let lx := Lexer.ofSource (.ofText name contents readError)
    let t := lx.request n
    let u := lx.request (n + 1 + k)
    (t.kind = .eof → u.kind = .eof) ∧
    (t.kind = .error ∨ t.kind = .invalid →
      (¬ lx.BreaksOff contents readError n → u.kind = .error ∧ u.text = t.text) ∧
      (lx.BreaksOff contents readError n →
        t.kind = .error ∧ t.text = .ofString "unexpected EOF" ∧ u.kind = .eof)) := by
  intro lx t u
  have contradictory {p : Prop} {a b : TokenKind} (hab : a ≠ b) (ha : t.kind = a)
      (hb : t.kind = b) : p := absurd (ha.symm.trans hb) hab
  by_cases hf : t.kind.isFinal = true
  · obtain ⟨stop, ending, cs, hstop, hhalts, hb⟩ := Lexer.request_halts rfl hf
    have hu : u = Lexer.stopToken (lx.later (n + 1)).scanner _ stop :=
      (lx.request_add (n + 1) k).trans (Lexer.request_of_stopped hstop k)
    rw [hu, hb]
    cases hhalts with
    | eof hk =>
      refine ⟨fun _ => rfl, ?_⟩
      rintro (he | he)
      · exact contradictory (by decide) hk he
      · exact contradictory (by decide) hk he
    | short hk ht hc htr =>
      exact ⟨fun _ => rfl, fun _ => ⟨fun hn => absurd ⟨hc, htr⟩ hn, fun _ => ⟨hk, ht, rfl⟩⟩⟩
    | fault hk hn =>
      refine ⟨fun he => ?_, fun _ => ⟨fun _ => ⟨rfl, rfl⟩, fun h => absurd h hn⟩⟩
      rcases hk with hk | hk
      · exact contradictory (by decide) hk he
      · exact contradictory (by decide) hk he
  · refine ⟨fun he => absurd (by rw [he]; rfl) hf, ?_⟩
    rintro (he | he)
    · exact absurd (by rw [he]; rfl) hf
    · exact absurd (by rw [he]; rfl) hf

/-- In `(a "b` the second token behind the parenthesis is an error, and the input ends behind it. In
`a[ b` the bracket is refused for ever. -/
theorem Source.requests_behind_final_string :
    let lx := Lexer.ofSource (.ofText [] (.ofString "(a \"b") none)
    let ly := Lexer.ofSource (.ofText [] (.ofString "a[ b") none)
    (lx.request 2).kind = .error ∧ (lx.request 5).kind = .eof ∧ (lx.request 9).kind = .eof ∧
      (ly.request 1).kind = .invalid ∧ (ly.request 4).kind = .error := by
  intro lx ly
  have hb : lx.BreaksOff (.ofString "(a \"b") none 2 := by
    have hc : Text.chars ((Text.ofString "(a \"b").drop (lx.request 2).start) = ['"', 'b'] := by
      decide +kernel
    refine ⟨by decide +kernel, ⟨"(a \"b".toList, rfl⟩, rfl, ?_⟩
    rw [hc]
    exact .inl ⟨['b'], rfl, Lexeme.closingMark_eq_none_iff.mp rfl⟩
  have hn : ¬ ly.BreaksOff (.ofString "a[ b") none 1 := by
    have hc : Text.chars ((Text.ofString "a[ b").drop (ly.request 1).start) = ['[', ' ', 'b'] := by
      decide +kernel
    intro hb
    have ht := hb.truncated
    rw [hc] at ht
    simp [Truncated] at ht
  have he : (lx.request 2).kind = .error := by decide +kernel
  have hi : (ly.request 1).kind = .invalid := by decide +kernel
  have h₂ := (requests_behind_final [] (.ofString "(a \"b") none 2 2).2 (.inl he)
  have h₅ := (requests_behind_final [] (.ofString "(a \"b") none 5 3).1 (h₂.2 hb).2.2
  have h₄ := (requests_behind_final [] (.ofString "a[ b") none 1 2).2 (.inr hi)
  exact ⟨he, (h₂.2 hb).2.2, h₅, hi, (h₄.1 hn).1⟩

/-- An end behind an error. -/
theorem Source.eof_behind_error :
    let lx := Lexer.ofSource (.ofText [] (.ofString "\"") none)
    (lx.request 0).kind = .error ∧ (lx.request 1).kind = .eof := by
  decide +kernel

end SmallScheme
