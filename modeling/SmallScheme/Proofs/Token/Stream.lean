import SmallScheme.Proofs.Token.Ends
import SmallScheme.Token.Lexer

/-!
# The tokens of a source

What one request to a lexer gives depends on the characters ahead, on how the source ends and on
whether something was skipped before; places never matter. `Lexer.Emits` chains requests, and the
token stream of a source ends with its first final token.
-/

namespace SmallScheme

set_option autoImplicit false

namespace Scanner

theorem taken_advanceBy (n : Nat) (s : Scanner) :
    (advanceBy n s).taken = (s.rest.take n).reverse ++ s.taken := by
  induction n generalizing s with
  | zero => simp [advanceBy]
  | succ n ih =>
    rw [advanceBy, ih]
    cases hr : s.rest with
    | nil => simp [advance, hr]
    | cons c rest => simp [advance, hr]

theorem ending_advance (s : Scanner) : s.advance.ending = s.ending := by
  unfold advance
  split <;> rfl

@[simp] theorem ending_advanceBy (n : Nat) (s : Scanner) :
    (advanceBy n s).ending = s.ending := by
  induction n generalizing s with
  | zero => rfl
  | succ n ih => rw [advanceBy, ih, ending_advance]

theorem text_advanceBy {s : Scanner} (h : s.taken = []) (n : Nat) :
    (advanceBy n s).text = Text.ofChars (s.rest.take n) := by
  simp [text, taken_advanceBy, h]

end Scanner

namespace Lexer

/-- A lexer that goes on with the given characters and ending. -/
structure Stands (lx : Lexer) (spaced : Bool) (ending : Ending) (cs : List Char) : Prop where
  running : lx.stopped = none
  spaced_eq : lx.spaced = spaced
  ending_eq : lx.scanner.ending = ending
  rest_eq : lx.scanner.rest = cs

theorem stands_ofSource (s : Source) : (ofSource s).Stands false s.ending s.chars :=
  ⟨rfl, rfl, rfl, rfl⟩

variable {lx : Lexer} {spaced : Bool} {ending : Ending} {gap : List Char}

theorem takeWhile_gap {c : Char} (hg : ∀ d ∈ gap, isBlank d = true) (hc : isBlank c = false)
    (cs : List Char) : (gap ++ c :: cs).takeWhile isBlank = gap := by
  rw [List.takeWhile_append_of_pos hg]
  simp [hc]

/-- One request where a token stands behind blanks. -/
theorem next_token {c : Char} {cs : List Char} {kind : TokenKind} {size : Nat}
    (h : lx.Stands spaced ending (gap ++ c :: cs)) (hg : ∀ d ∈ gap, isBlank d = true)
    (hc : isBlank c = false) (ho : Lexeme.ofHead c cs = .token kind size) :
    ∃ source, lx.next.1 = ⟨kind, Text.ofChars ((c :: cs).take size), source,
        spaced || !gap.isEmpty⟩ ∧
      lx.next.2.Stands (kind = .comment) ending ((c :: cs).drop size) := by
  have ht := takeWhile_gap hg hc cs
  have hl : (gap.length != 0) = !gap.isEmpty := by cases gap <;> rfl
  have hr : (lx.scanner.advanceBy gap.length).ignore.rest = c :: cs := by simp [h.rest_eq]
  have hx := Scanner.text_advanceBy (s := (lx.scanner.advanceBy gap.length).ignore) rfl size
  rw [hr] at hx
  simp only [next, h.running, h.rest_eq, h.spaced_eq, ht, hl, lexeme, hr, ho, Scanner.token, hx]
  exact ⟨_, rfl, rfl, rfl, by simp [Scanner.ignore, h.ending_eq], by simp [h.rest_eq]⟩

/-- One request where nothing but blanks is left of a complete source. -/
theorem next_end (h : lx.Stands spaced .complete gap) (hg : ∀ d ∈ gap, isBlank d = true) :
    lx.next.1.kind = .eof := by
  have ht : gap.takeWhile isBlank = gap := by
    rw [← List.append_nil gap, List.takeWhile_append_of_pos hg, List.takeWhile_nil]
  have hr : (lx.scanner.advanceBy gap.length).ignore.rest = [] := by simp [h.rest_eq]
  have he : (lx.scanner.advanceBy gap.length).ignore.ending = .complete := by
    simp [Scanner.ignore, h.ending_eq]
  simp only [next, h.running, h.rest_eq, ht, lexeme, hr, he, Ending.stop, stopToken]

theorem lexeme_admits {s : Scanner} (hs : s.taken = [])
    (h : (lexeme s spaced).1.kind.isFinal = false) :
    ∃ cs, (lexeme s spaced).1.text = Text.ofChars cs ∧ (lexeme s spaced).1.kind.Admits cs := by
  cases hr : s.rest with
  | nil => simp [lexeme, hr] at h
  | cons c cs =>
    cases hl : Lexeme.ofHead c cs with
    | token kind size =>
      have hx := Scanner.text_advanceBy hs size
      obtain ⟨text, rest, rfl, rfl, ha, -⟩ := Lexeme.exists_token hl
      rw [hr, List.take_succ_cons, List.take_left] at hx
      refine ⟨c :: text, ?_, ?_⟩
      · simp only [lexeme, hr, hl, Scanner.token, hx]
      · simpa only [lexeme, hr, hl, Scanner.token] using ha
    | fault message size => simp [lexeme, hr, hl, TokenKind.isFinal] at h
    | invalid c => simp [lexeme, hr, hl, TokenKind.isFinal] at h
    | cut => simp [lexeme, hr, hl] at h

/-- The text of a token belongs to its kind. -/
theorem next_admits (h : lx.next.1.kind.isFinal = false) :
    ∃ cs, lx.next.1.text = Text.ofChars cs ∧ lx.next.1.kind.Admits cs := by
  unfold next at h ⊢
  split at h
  · simp at h
  · exact lexeme_admits rfl h

theorem pending_tokens_final (h : lx.next.1.kind.isFinal = true) :
    lx.tokens.pending = [lx.next.1] := by
  rw [tokens]
  split
  rename_i t after hn
  have ht : lx.next.1 = t := congrArg Prod.fst hn
  rw [ht] at h ⊢
  rw [dif_pos h]

theorem pending_tokens_more (h : lx.next.1.kind.isFinal = false) :
    lx.tokens.pending = lx.next.1 :: lx.next.2.tokens.pending := by
  rw [tokens]
  split
  rename_i t after hn
  have ht : lx.next.1 = t := congrArg Prod.fst hn
  have ha : lx.next.2 = after := congrArg Prod.snd hn
  rw [ht] at h ⊢
  rw [ha, dif_neg (by simp [h])]

theorem repeated_tokens_final (h : lx.next.1.kind.isFinal = true) :
    lx.tokens.repeated = lx.next.2.next.1 := by
  rw [tokens]
  split
  rename_i t after hn
  have ht : lx.next.1 = t := congrArg Prod.fst hn
  have ha : lx.next.2 = after := congrArg Prod.snd hn
  rw [ht] at h
  rw [ha, dif_pos h]

theorem repeated_tokens_more (h : lx.next.1.kind.isFinal = false) :
    lx.tokens.repeated = lx.next.2.tokens.repeated := by
  rw [tokens]
  split
  rename_i t after hn
  have ht : lx.next.1 = t := congrArg Prod.fst hn
  have ha : lx.next.2 = after := congrArg Prod.snd hn
  rw [ht] at h
  rw [ha, dif_neg (by simp [h])]

/-- Requests one after another, none of which gives a final token. -/
inductive Emits : Lexer → List Token → Lexer → Prop where
  | nil (lx : Lexer) : Emits lx [] lx
  | cons {lx last : Lexer} {ts : List Token} : lx.next.1.kind.isFinal = false →
      Emits lx.next.2 ts last → Emits lx (lx.next.1 :: ts) last

namespace Emits

variable {mid last : Lexer} {ts us : List Token}

theorem append (h : Emits lx ts mid) (h' : Emits mid us last) : Emits lx (ts ++ us) last := by
  induction h with
  | nil => exact h'
  | cons hf _ ih => exact .cons hf (ih h')

theorem pending_eq (h : Emits lx ts last) :
    lx.tokens.pending = ts ++ last.tokens.pending := by
  induction h with
  | nil => rfl
  | cons hf _ ih => rw [pending_tokens_more hf, ih, List.cons_append]

theorem repeated_eq (h : Emits lx ts last) : lx.tokens.repeated = last.tokens.repeated := by
  induction h with
  | nil => rfl
  | cons hf _ ih => rw [repeated_tokens_more hf, ih]

end Emits

end Lexer

/-- Tokens of which the last one, and no other, is final. -/
inductive Sealed : List Token → Prop where
  | last {t : Token} : t.kind.isFinal = true → Sealed [t]
  | more {t : Token} {ts : List Token} : t.kind.isFinal = false → Sealed ts → Sealed (t :: ts)

namespace Sealed

variable {t : Token} {ts us : List Token}

theorem tail (h : Sealed (t :: ts)) (ht : t.kind.isFinal = false) : Sealed ts := by
  cases h with
  | last hf => simp [ht] at hf
  | more _ h => exact h

theorem of_append (h : Sealed (ts ++ us)) (hts : ∀ t ∈ ts, t.kind.isFinal = false) :
    Sealed us := by
  induction ts with
  | nil => exact h
  | cons t ts ih =>
    exact ih (h.tail (hts t List.mem_cons_self)) fun u hu => hts u (List.mem_cons_of_mem t hu)

theorem eq_nil_of_final (h : Sealed (t :: ts)) (ht : t.kind.isFinal = true) : ts = [] := by
  cases h with
  | last => rfl
  | more hf => simp [ht] at hf

theorem exists_cons (h : Sealed ts) : ∃ t us, ts = t :: us := by
  cases h with
  | last => exact ⟨_, _, rfl⟩
  | more => exact ⟨_, _, rfl⟩

theorem exists_last (h : Sealed ts) : ∃ us t, ts = us ++ [t] ∧ t.kind.isFinal = true := by
  induction h with
  | @last t hf => exact ⟨[], t, rfl, hf⟩
  | @more t ts _ _ ih =>
    obtain ⟨us, e, rfl, he⟩ := ih
    exact ⟨t :: us, e, rfl, he⟩

end Sealed

/-- Tokens that a lexer hands out go before any sealed ones. -/
theorem Lexer.Emits.sealed {lx last : Lexer} {ts us : List Token} (h : Emits lx ts last)
    (hu : Sealed us) : Sealed (ts ++ us) := by
  induction h with
  | nil => exact hu
  | cons hf _ ih => exact .more hf ih

/-- A token whose text belongs to its kind. -/
def Token.Classed (t : Token) : Prop :=
  t.kind.isFinal = false → ∃ cs, t.text = Text.ofChars cs ∧ t.kind.Admits cs

theorem Lexer.sealed_tokens (lx : Lexer) :
    Sealed lx.tokens.pending ∧ ∀ t ∈ lx.tokens.pending, t.Classed := by
  -- Every request that does not end the stream shortens what is left of the source.
  induction hn : lx.scanner.rest.length using Nat.strongRecOn generalizing lx with
  | ind n ih =>
    cases hf : lx.next.1.kind.isFinal with
    | true =>
      rw [pending_tokens_final hf]
      refine ⟨.last hf, fun t ht hk => ?_⟩
      obtain rfl := List.mem_singleton.mp ht
      simp [hf] at hk
    | false =>
      obtain ⟨hs, hc⟩ := ih _ (hn ▸ rest_next_lt lx hf) lx.next.2 rfl
      rw [pending_tokens_more hf]
      refine ⟨.more hf hs, fun t ht => ?_⟩
      rcases List.mem_cons.mp ht with rfl | ht
      · exact next_admits
      · exact hc t ht

theorem Source.sealed_tokens (s : Source) : Sealed s.tokens.pending :=
  (Lexer.sealed_tokens _).1

theorem Source.classed_of_mem_tokens (s : Source) :
    ∀ t ∈ s.tokens.pending, t.Classed := (Lexer.sealed_tokens _).2

end SmallScheme
