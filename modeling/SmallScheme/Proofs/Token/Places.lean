import SmallScheme.Proofs.Token.Stream

/-!
# Tokens without their places

Two lexers with the same characters ahead hand out the same tokens, save for their places
(`Lexer.tokens_alike`). Blanks in front of the characters change nothing but whether the first
token is set apart (`Lexer.tokens_behind`), and a token behind a comment always is.
-/

namespace SmallScheme

set_option autoImplicit false

namespace Token

/-- The token with its place changed. -/
def moved (f : Location → Location) (t : Token) : Token := { t with source := f t.source }

/-- The token at a place that stands for all places. -/
def unplaced (t : Token) : Token := t.moved fun _ => ⟨[], 0, 0, 0⟩

@[simp] theorem kind_moved (f : Location → Location) (t : Token) : (t.moved f).kind = t.kind := rfl

@[simp] theorem text_moved (f : Location → Location) (t : Token) : (t.moved f).text = t.text := rfl

@[simp] theorem spaced_moved (f : Location → Location) (t : Token) :
    (t.moved f).spaced = t.spaced := rfl

/-- The token with or without white space before it. -/
def respaced (t : Token) (spaced : Bool) : Token := { t with spaced := spaced }

@[simp] theorem kind_respaced (t : Token) (spaced : Bool) : (t.respaced spaced).kind = t.kind := rfl

theorem eq_of_unplaced {t u : Token} (h : t.unplaced = u.unplaced) :
    t.kind = u.kind ∧ t.text = u.text ∧ t.spaced = u.spaced := by
  simp only [unplaced, moved, mk.injEq] at h
  exact ⟨h.1, h.2.1, h.2.2.2⟩

end Token

namespace Lexer

/-- Lexers that differ in places only. -/
structure Alike (lx lx' : Lexer) : Prop where
  spaced_eq : lx.spaced = lx'.spaced
  stopped_eq : lx.stopped = lx'.stopped
  ending_eq : lx.scanner.ending = lx'.scanner.ending
  rest_eq : lx.scanner.rest = lx'.scanner.rest

variable {lx lx' : Lexer}

theorem stopToken_alike (s s' : Scanner) (spaced spaced' : Bool) (stop : Stop) :
    (stopToken s spaced stop).unplaced = (stopToken s' spaced' stop).unplaced.respaced spaced := by
  cases stop <;> rfl

theorem lexeme_alike {s s' : Scanner} (ht : s.taken = []) (ht' : s'.taken = [])
    (he : s.ending = s'.ending) (hr : s.rest = s'.rest) (spaced spaced' : Bool) :
    (lexeme s spaced).1.unplaced = (lexeme s' spaced').1.unplaced.respaced spaced ∧
      (lexeme s spaced).2.Alike (lexeme s' spaced').2 := by
  cases hc : s'.rest with
  | nil =>
    simp only [lexeme, hr, hc, he]
    exact ⟨stopToken_alike s s' spaced spaced' s'.ending.stop, rfl, rfl, he, hr⟩
  | cons c cs =>
    rw [hc] at hr
    simp only [lexeme, hr, hc]
    cases Lexeme.ofHead c cs with
    | token kind size =>
      have hx := Scanner.text_advanceBy ht size
      have hx' := Scanner.text_advanceBy ht' size
      rw [hr] at hx
      rw [hc] at hx'
      refine ⟨?_, rfl, rfl, ?_, ?_⟩
      · simp only [Scanner.token, Token.unplaced, Token.moved, Token.respaced, hx, hx']
      · simpa [Scanner.ignore] using he
      · simp [hr, hc]
    | fault message size =>
      refine ⟨rfl, rfl, rfl, ?_, ?_⟩
      · simpa [Scanner.ignore] using he
      · simp [hr, hc]
    | invalid d =>
      refine ⟨rfl, rfl, rfl, ?_, ?_⟩
      · simpa [Scanner.ignore, Scanner.ending_advance] using he
      · simp [hr, hc]
    | cut =>
      simp only [Scanner.ending_advanceBy, he]
      refine ⟨?_, rfl, rfl, ?_, ?_⟩
      · cases s'.ending.stop <;> rfl
      · simpa [Scanner.ignore] using he
      · simp [hr, hc]

theorem next_running (h : lx.stopped = none) : ∃ s : Scanner, s.taken = [] ∧
    s.ending = lx.scanner.ending ∧ s.rest = lx.scanner.rest.dropWhile isBlank ∧
    lx.next = lexeme s (lx.spaced || !(lx.scanner.rest.takeWhile isBlank).isEmpty) := by
  have hb : ((lx.scanner.rest.takeWhile isBlank).length != 0) =
      !(lx.scanner.rest.takeWhile isBlank).isEmpty := by
    cases lx.scanner.rest.takeWhile isBlank <;> rfl
  refine ⟨(lx.scanner.advanceBy (lx.scanner.rest.takeWhile isBlank).length).ignore, rfl, ?_, ?_, ?_⟩
  · exact Scanner.ending_advanceBy _ lx.scanner
  · rw [Scanner.rest_ignore, Scanner.rest_advanceBy]
    exact Lexeme.drop_takeWhile isBlank lx.scanner.rest
  · simp only [next, h, hb]

theorem spaced_next (h : lx.stopped = none) :
    lx.next.1.spaced = (lx.spaced || !(lx.scanner.rest.takeWhile isBlank).isEmpty) := by
  obtain ⟨s, ht, -, -, hn⟩ := next_running h
  rw [hn]
  exact congrArg Token.spaced (lexeme_alike ht ht rfl rfl _ false).1

theorem spaced_next_of_gap {spaced : Bool} {ending : Ending} {gap cs : List Char}
    (hg : ∀ d ∈ gap, isBlank d = true) (hn : gap ≠ []) (h : lx.Stands spaced ending (gap ++ cs)) :
    lx.next.1.spaced = true := by
  obtain ⟨g, gap, rfl⟩ := List.exists_cons_of_ne_nil hn
  rw [spaced_next h.running, h.rest_eq, List.takeWhile_append_of_pos hg]
  simp

theorem next_alike_of_dropWhile (h : lx.stopped = none) (h' : lx'.stopped = none)
    (he : lx.scanner.ending = lx'.scanner.ending)
    (hr : lx.scanner.rest.dropWhile isBlank = lx'.scanner.rest.dropWhile isBlank) :
    lx.next.1.unplaced = lx'.next.1.unplaced.respaced lx.next.1.spaced ∧
      lx.next.2.Alike lx'.next.2 := by
  obtain ⟨s, ht, hse, hsr, hn⟩ := next_running h
  obtain ⟨s', ht', hse', hsr', hn'⟩ := next_running h'
  have hs := spaced_next h
  rw [hs, hn, hn']
  exact lexeme_alike ht ht' (by rw [hse, hse', he]) (by rw [hsr, hsr', hr]) _ _

theorem next_alike (h : lx.Alike lx') :
    lx.next.1.unplaced = lx'.next.1.unplaced ∧ lx.next.2.Alike lx'.next.2 := by
  cases hs : lx'.stopped with
  | none =>
    have hr := h.stopped_eq.trans hs
    have hsp : lx.next.1.spaced = lx'.next.1.spaced := by
      rw [spaced_next hr, spaced_next hs, h.spaced_eq, h.rest_eq]
    have hn := next_alike_of_dropWhile hr hs h.ending_eq (by rw [h.rest_eq])
    rw [hsp] at hn
    exact hn
  | some stop =>
    have hr := h.stopped_eq.trans hs
    simp only [next, hr, hs, h.spaced_eq]
    refine ⟨?_, rfl, rfl, h.ending_eq, h.rest_eq⟩
    cases stop <;> rfl

/-- Lexers that differ in places hand out tokens that differ in places. -/
theorem tokens_alike (h : lx.Alike lx') :
    lx.tokens.pending.map Token.unplaced = lx'.tokens.pending.map Token.unplaced ∧
      lx.tokens.repeated.unplaced = lx'.tokens.repeated.unplaced := by
  induction hn : lx.scanner.rest.length using Nat.strongRecOn generalizing lx lx' with
  | ind n ih =>
    obtain ⟨ht, ha⟩ := next_alike h
    have hk := (Token.eq_of_unplaced ht).1
    cases hf : lx.next.1.kind.isFinal with
    | true =>
      have hf' := hk ▸ hf
      rw [pending_tokens_final hf, pending_tokens_final hf', repeated_tokens_final hf,
        repeated_tokens_final hf']
      exact ⟨congrArg (fun t => [t]) ht, (next_alike ha).1⟩
    | false =>
      have hf' := hk ▸ hf
      obtain ⟨hp, hr⟩ := ih _ (hn ▸ rest_next_lt lx hf) ha rfl
      rw [pending_tokens_more hf, pending_tokens_more hf', repeated_tokens_more hf,
        repeated_tokens_more hf', List.map_cons, List.map_cons, ht, hp]
      exact ⟨rfl, hr⟩

/-- Blanks in front of the characters ahead set the first token apart and change no other. -/
theorem tokens_behind {spaced spaced' : Bool} {ending : Ending} {gap cs : List Char}
    (hg : ∀ d ∈ gap, isBlank d = true) (hn : gap ≠ []) (h : lx.Stands spaced ending (gap ++ cs))
    (h' : lx'.Stands spaced' ending cs) :
    ∃ t ts, lx'.tokens.pending.map Token.unplaced = t :: ts ∧
      lx.tokens.pending.map Token.unplaced = t.respaced true :: ts ∧
      lx.tokens.repeated.unplaced = lx'.tokens.repeated.unplaced := by
  have hs := spaced_next_of_gap hg hn h
  have hd : lx.scanner.rest.dropWhile isBlank = lx'.scanner.rest.dropWhile isBlank := by
    rw [h.rest_eq, h'.rest_eq, List.dropWhile_append_of_pos hg]
  obtain ⟨ht, ha⟩ := next_alike_of_dropWhile h.running h'.running
    (h.ending_eq.trans h'.ending_eq.symm) hd
  rw [hs] at ht
  have hk : lx.next.1.kind = lx'.next.1.kind :=
    (congrArg Token.kind ht : lx.next.1.unplaced.kind = (lx'.next.1.unplaced.respaced true).kind)
  cases hf : lx.next.1.kind.isFinal with
  | true =>
    have hf' := hk ▸ hf
    rw [pending_tokens_final hf, pending_tokens_final hf', repeated_tokens_final hf,
      repeated_tokens_final hf']
    exact ⟨_, [], rfl, congrArg (fun t => [t]) ht, (next_alike ha).1⟩
  | false =>
    have hf' := hk ▸ hf
    obtain ⟨hp, hr⟩ := tokens_alike ha
    rw [pending_tokens_more hf, pending_tokens_more hf', repeated_tokens_more hf,
      repeated_tokens_more hf']
    refine ⟨_, _, rfl, ?_, hr⟩
    rw [List.map_cons, ht, hp]

theorem spaced_lexeme_of_comment {s : Scanner} {spaced : Bool}
    (h : (lexeme s spaced).1.kind = .comment) : (lexeme s spaced).2.spaced = true := by
  cases hr : s.rest with
  | nil =>
    have hf := isFinal_stopToken s spaced s.ending.stop
    simp only [lexeme, hr] at h
    rw [h] at hf
    cases hf
  | cons c cs =>
    cases hl : Lexeme.ofHead c cs with
    | token kind size =>
      simp only [lexeme, hr, hl, Scanner.token] at h ⊢
      simp [h]
    | fault message size => simp [lexeme, hr, hl] at h
    | invalid d => simp [lexeme, hr, hl] at h
    | cut =>
      have hf := isFinal_cutToken (s.advanceBy s.rest.length) spaced
        (s.advanceBy s.rest.length).ending.stop
      simp only [lexeme, hr, hl] at h hf
      rw [h] at hf
      cases hf

theorem spaced_next_of_spaced (h : lx.spaced = true) : lx.next.1.spaced = true := by
  cases hs : lx.stopped with
  | none => rw [spaced_next hs, h, Bool.true_or]
  | some stop =>
    simp only [next, hs, h]
    cases stop <;> rfl

theorem spaced_behind_comment (h : lx.next.1.kind = .comment) :
    lx.next.2.next.1.spaced = true := by
  apply spaced_next_of_spaced
  cases hs : lx.stopped with
  | none =>
    obtain ⟨s, -, -, -, hn⟩ := next_running hs
    rw [hn] at h ⊢
    exact spaced_lexeme_of_comment h
  | some stop =>
    have hf := isFinal_stopToken lx.scanner lx.spaced stop
    simp only [next, hs] at h
    rw [h] at hf
    cases hf

theorem head_pending (lx : Lexer) : ∃ ts, lx.tokens.pending = lx.next.1 :: ts := by
  cases hf : lx.next.1.kind.isFinal with
  | true => exact ⟨[], pending_tokens_final hf⟩
  | false => exact ⟨_, pending_tokens_more hf⟩

/-- Behind a first token that is set apart, comments set the next token apart. -/
theorem spaced_of_pending {cs rest : List Token} {t : Token} (h : lx.next.1.spaced = true)
    (hp : lx.tokens.pending = cs ++ t :: rest) (hc : ∀ c ∈ cs, c.kind = .comment) :
    t.spaced = true := by
  induction cs generalizing lx with
  | nil =>
    obtain ⟨ts, ht⟩ := head_pending lx
    rw [ht] at hp
    obtain ⟨rfl, -⟩ := List.cons.inj hp
    exact h
  | cons c cs ih =>
    have hk : lx.next.1.kind = .comment := by
      obtain ⟨ts, ht⟩ := head_pending lx
      rw [ht] at hp
      obtain ⟨rfl, -⟩ := List.cons.inj hp
      exact hc _ List.mem_cons_self
    rw [pending_tokens_more (by rw [hk]; rfl)] at hp
    exact ih (spaced_behind_comment hk) (List.cons.inj hp).2 fun d hd =>
      hc d (List.mem_cons_of_mem c hd)

end Lexer

end SmallScheme
