import SmallScheme.Proofs.Reader.Lines
import SmallScheme.Proofs.Token.Comments

/-!
# Comments as white space

The reader passes over comments, and a token behind a comment counts as set apart. So tokens are
read as they are read without their comments.
-/

namespace SmallScheme

set_option autoImplicit false

namespace Reader

open Grammar SymbolTable

/-- Readings of tokens with and without their comments: both fail, or they give the same value and
go on with the same tokens, comments aside. -/
inductive Agrees : Reading Value → Reading Value → Prop where
  | ok {v : Value} {c c' : Cursor} : Separated c.pending → c'.pending = uncommented c.pending →
      c'.repeated = c.repeated → c'.symbols = c.symbols → Agrees (.ok v, c) (.ok v, c')
  | error {f f' : Fault} {c c' : Cursor} : Agrees (.error f, c) (.error f', c')

variable {t repeated : Token} {ts : List Token} {mode : Mode} {around within : List Context}
  {symbols : Option SymbolTable}

theorem walk_nil : ∃ f c, walk repeated [] mode around symbols = (.error f, c) := ⟨_, _, rfl⟩

theorem walk_eof (h : t.kind = .eof) :
    ∃ f c, walk repeated (t :: ts) .expression around symbols = (.error f, c) := by
  have ha : act symbols .expression t = .refuse .unexpectedEnd := by
    simp [act, begin, h]
  rw [walk_cons, ha]
  exact ⟨_, _, rfl⟩

/-- A quotation mark in front of a token that is set apart quotes nothing. -/
theorem perform_quote_spaced (h : ∀ u ∈ ts.head?, u.spaced = true) :
    ∃ f c, perform repeated t ts mode around symbols (.quote within) = (.error f, c) := by
  simp only [perform]
  split
  · rename_i ht
    cases ts with
    | nil => exact walk_nil
    | cons u us =>
      have hu : u.kind = .eof := by
        simpa [touches, h u rfl] using ht
      exact walk_eof hu
  · exact ⟨_, _, rfl⟩

theorem agrees_perform (hs : Separated ts)
    (ih : ∀ mode around symbols, Agrees (walk repeated ts mode around symbols)
      (walk repeated (uncommented ts) mode around symbols)) (a : Action) :
    Agrees (perform repeated t ts mode around symbols a)
      (perform repeated t (uncommented ts) mode around symbols a) := by
  cases a with
  | skip => exact ih mode around symbols
  | refuse c => exact .error
  | enter mode within => exact ih mode (within ++ around) symbols
  | value v symbols' within =>
    simp only [perform]
    cases settle (within ++ around) v with
    | inl w => exact .ok hs rfl rfl rfl
    | inr next => exact ih next.1 next.2 symbols'
  | quote within =>
    by_cases hc : ∀ u ∈ ts.head?, u.kind ≠ .comment
    · simp only [perform, headD_uncommented hc]
      split
      · exact ih .expression _ symbols
      · exact .error
    · -- A comment stands behind the mark, and without it a token that is set apart.
      obtain ⟨u, us, rfl, hu⟩ : ∃ u us, ts = u :: us ∧ u.kind = .comment := by
        cases ts with
        | nil =>
          refine absurd ?_ hc
          intro v hv
          cases hv
        | cons u us =>
          refine ⟨u, us, rfl, ?_⟩
          by_contra hk
          apply hc
          rintro v hv
          obtain rfl := Option.some.inj hv
          exact hk
      have ht : touches u = false := by simp [touches, hu]
      have hspaced : ∀ v ∈ (uncommented (u :: us)).head?, v.spaced = true := by
        rw [uncommented_comment hu]
        exact hs.spaced hu
      obtain ⟨f, c, hf⟩ := @perform_quote_spaced t repeated _ mode around within symbols hspaced
      rw [hf]
      simp only [perform, List.headD_cons, ht]
      exact .error

/-- An expression is read as it is read without its comments. -/
theorem walk_uncommented (hs : Separated ts) (mode : Mode) (around : List Context)
    (symbols : Option SymbolTable) :
    Agrees (walk repeated ts mode around symbols)
      (walk repeated (uncommented ts) mode around symbols) := by
  induction ts generalizing mode around symbols with
  | nil => exact .error
  | cons t ts ih =>
    by_cases hk : t.kind = .comment
    · have ha : act symbols mode t = .skip := by simp [act, hk]
      rw [walk_cons, ha, uncommented_comment hk]
      exact ih hs.tail mode around symbols
    · rw [uncommented_cons hk, walk_cons, walk_cons]
      exact agrees_perform hs.tail (ih hs.tail) _

theorem programFrom_uncommented {c c' : Cursor} (hs : Separated c.pending)
    (hp : c'.pending = uncommented c.pending) (hr : c'.repeated = c.repeated)
    (hsym : c'.symbols = c.symbols) (done vs : List Value) :
    (programFrom done c).1 = .ok vs ↔ (programFrom done c').1 = .ok vs := by
  induction hn : c.pending.length using Nat.strongRecOn generalizing c c' done with
  | ind n ih =>
    have hskip : c'.skipComments.pending = uncommented c.skipComments.pending := by
      simp only [Cursor.skipComments, hp]
      rw [dropWhile_uncommented, uncommented_dropWhile]
    have hhead : ∀ t ∈ c.skipComments.pending.head?, t.kind ≠ .comment := by
      intro t ht
      have hd := List.head?_dropWhile_not (fun u : Token => decide (u.kind = .comment)) c.pending
      have ht : (c.pending.dropWhile fun u => decide (u.kind = .comment)).head? = some t := ht
      rw [ht] at hd
      simpa using hd
    have hpeek : c'.skipComments.peek = c.skipComments.peek := by
      rw [Cursor.peek, Cursor.peek, hskip, ← headD_uncommented hhead]
      exact congrArg _ hr
    rw [programFrom_eq, programFrom_eq done c', hpeek]
    split
    · rfl
    split
    · simp
    have ha : Agrees (expression c.skipComments) (expression c'.skipComments) := by
      have hw := @walk_uncommented c.repeated _ hs.dropWhile .expression [] c.symbols
      rw [expression, expression, hskip]
      change Agrees _ (walk c'.repeated _ _ _ c'.symbols)
      rw [hr, hsym]
      exact hw
    cases he : expression c.skipComments with
    | mk r after =>
      cases he' : expression c'.skipComments with
      | mk r' after' =>
        rw [he, he'] at ha
        cases ha with
        | error => simp
        | ok hsep hpend hrep hsym' =>
          have hlt : after.pending.length < n := by
            rw [← hn]
            exact Nat.lt_of_lt_of_le (pending_walk_lt he) (length_skipComments c)
          exact ih _ hlt hsep hpend hrep hsym' _ rfl

theorem sealed_uncommented (h : Sealed ts) : Sealed (uncommented ts) := by
  induction h with
  | @last t hf =>
    have hk : t.kind ≠ .comment := by
      intro hk
      rw [hk] at hf
      cases hf
    rw [uncommented_cons hk]
    exact .last hf
  | @more t ts hf _ ih =>
    by_cases hk : t.kind = .comment
    · rwa [uncommented_comment hk]
    · rw [uncommented_cons hk]
      exact .more hf ih

theorem classed_uncommented (h : ∀ t ∈ ts, t.Classed) : ∀ t ∈ uncommented ts, t.Classed := by
  intro t ht
  exact h t (List.mem_filter.mp ht).1

theorem uncommented_concat {e : Token} (he : e.kind = .eof) (ts : List Token) :
    uncommented (ts ++ [e]) = uncommented ts ++ [e] := by
  rw [uncommented_append, uncommented_cons (by simp [he])]
  rfl

/-- Tokens spell a program if and only if they spell it without their comments. -/
theorem program_uncommented (hs : Sealed ts) (hc : ∀ t ∈ ts, t.Classed) (hsep : Separated ts)
    (vs : List Value) : Program ts vs ↔ Program (uncommented ts) vs := by
  obtain ⟨e, -, -⟩ := hs.exists_cons
  have hp := @programFrom_uncommented (.ofStream ⟨ts, e⟩ none) (.ofStream ⟨uncommented ts, e⟩ none)
    hsep rfl rfl rfl [] vs
  constructor
  · intro h
    exact grammar_of_program faithful?_none (sealed_uncommented hs) (classed_uncommented hc)
      (hp.mp (program_of_grammar h e faithful?_none))
  · intro h
    exact grammar_of_program faithful?_none hs hc
      (hp.mpr (program_of_grammar h e faithful?_none))

theorem forms_uncommented {e : Token} (hs : Sealed (ts ++ [e])) (hc : ∀ t ∈ ts ++ [e], t.Classed)
    (hsep : Separated (ts ++ [e])) (he : e.kind = .eof) (vs : List Value) :
    Forms true ts vs ↔ Forms true (uncommented ts) vs := by
  have hp := program_uncommented hs hc hsep vs
  rwa [uncommented_concat he, program_concat, program_concat, and_iff_left he, and_iff_left he] at hp

theorem forms_of_unplaced {us : List Token} {e : Token} {vs : List Value}
    (hu : us.map Token.unplaced = ts.map Token.unplaced) (hs : Sealed (ts ++ [e]))
    (hc : ∀ t ∈ ts ++ [e], t.Classed) (he : e.kind = .eof) (h : Forms true us vs) :
    Forms true ts vs := by
  have hp : Program (ts ++ [e]) vs := by
    apply program_of_unplaced _ hs hc (program_concat.mpr ⟨h, he⟩)
    rw [List.map_append, List.map_append, hu]
  exact (program_concat.mp hp).1

/-- What characters are read as depends on their tokens without the comments. -/
theorem readAll_ofChars_iff {cs : List Char} {vs : List Value} :
    readAll (.ofChars cs) = .ok vs ↔
      ∃ ts, bareTokens false cs = some (ts.map Token.unplaced) ∧ Forms true ts vs := by
  let src := Source.ofText [] (Text.ofChars cs) none
  have hchars : src.chars = cs := Text.chars_ofChars cs
  have hending : src.ending = .complete :=
    Source.ending_ofText_eq_complete.mpr ⟨Text.firstStray?_ofChars cs, rfl⟩
  obtain ⟨ts, e, hp, hu, hk⟩ := Lexer.pending_split (Lexer.stands_ofSource src)
  have hread : readAll (.ofChars cs) = .ok vs ↔ Program (ts ++ [e]) vs := by
    rw [← hp]
    exact readSource_eq_ok_iff faithful?_empty
  have hbare : uncommented (Segment.tokens false (split cs).1) =
      (uncommented ts).map Token.unplaced := by
    rw [uncommented_unplaced, hu, hchars]
  obtain ⟨hs, hc⟩ := Lexer.sealed_tokens (Lexer.ofSource src)
  have hsep := Lexer.separated_tokens (Lexer.ofSource src)
  rw [hp] at hs hc hsep
  rw [hchars, and_iff_right hending] at hk
  rw [hread, program_concat]
  constructor
  · rintro ⟨hf, he⟩
    refine ⟨uncommented ts, bareTokens_eq_some_iff.mpr ⟨hk.mp he, hbare⟩, ?_⟩
    exact (forms_uncommented hs hc hsep he vs).mp hf
  · rintro ⟨us, hus, hf⟩
    obtain ⟨hb, hus⟩ := bareTokens_eq_some_iff.mp hus
    have he := hk.mpr hb
    have hs' := sealed_uncommented hs
    have hc' := classed_uncommented hc
    rw [uncommented_concat he] at hs' hc'
    have hf' := forms_of_unplaced (hus.symm.trans hbare) hs' hc' he hf
    exact ⟨(forms_uncommented hs hc hsep he vs).mpr hf', he⟩

end Reader

end SmallScheme
