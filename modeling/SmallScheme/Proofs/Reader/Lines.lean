import SmallScheme.Proofs.Reader.Places
import SmallScheme.Proofs.Text.Encoding
import SmallScheme.Proofs.Token.Segments
import SmallScheme.Value.Equality

/-!
# Reading line by line

Behind a text that can be read, a line break begins afresh: what follows is read as if nothing stood
before it. The tokens of the first text stay as they are, the first token of the second is set apart
from them, and no other token of the second sees the first.
-/

namespace SmallScheme.Reader

open Grammar SymbolTable
set_option autoImplicit false

theorem program_of_unplaced {ts us : List Token} {vs : List Value}
    (hu : ts.map Token.unplaced = us.map Token.unplaced) (hs : Sealed us)
    (hc : ∀ t ∈ us, t.Classed) (h : Program ts vs) : Program us vs := by
  obtain ⟨e, -, -⟩ := getLast?_of_grammar h
  have ha : verdict ⟨ts, e⟩ = verdict ⟨us, e⟩ := verdict_alike Comments.nil hu rfl
  rw [verdict, program_of_grammar h e faithful?_none] at ha
  have hp : (program (.ofStream ⟨us, e⟩ none)).1 = .ok vs := mapError_eq_ok_iff.mp ha.symm
  exact grammar_of_program faithful?_none hs hc hp

theorem firstStray?_of_complete {name contents : Text}
    (h : (Source.ofText name contents none).ending = .complete) : contents.firstStray? = none := by
  cases hs : contents.firstStray? with
  | none => rfl
  | some b => simp [Source.ofText, hs] at h

theorem exists_tokens_of_verdict {s : Source} {vs : List Value} (h : verdict s.tokens = .ok vs) :
    s.ending = .complete ∧ Blank (split s.chars).2 ∧
      ∃ ts, ts.map Token.unplaced = Segment.tokens false (split s.chars).1 ∧
        Forms true ts vs := by
  have hr : (readSource none s).1 = .ok vs :=
    (readSource_eq_ok_iff_verdict faithful?_none).mpr h
  have hp := (readSource_eq_ok_iff faithful?_none).mp hr
  obtain ⟨ts, e, ht, hu, hk⟩ := Lexer.pending_split (Lexer.stands_ofSource s)
  rw [Source.tokens, ht, program_concat] at hp
  obtain ⟨hc, hb⟩ := hk.mp hp.2
  exact ⟨hc, hb, ts, hu, hp.1⟩

theorem verdict_of_readAll {t : Text} {vs : List Value} (h : readAll t = .ok vs) :
    verdict (Source.ofText [] t none).tokens = .ok vs :=
  (readSource_eq_ok_iff_verdict faithful?_empty).mp h

section Program

/-- Expressions read before stand in front of those still to be read. -/
theorem programFrom_onto (base : List Value) (done : List Value) (c : Cursor)
    (hs : done = [] → c.skipComments.peek.spaced = true) :
    (programFrom (done ++ base) c).1 = (programFrom done c).1.map (base.reverse ++ ·) := by
  induction hn : c.pending.length using Nat.strongRecOn generalizing done c with
  | ind n ih =>
    have hm : (!(done ++ base).isEmpty && !c.skipComments.peek.spaced) =
        (!done.isEmpty && !c.skipComments.peek.spaced) := by
      cases done with
      | nil => rw [hs rfl, Bool.not_true, Bool.and_false, Bool.and_false]
      | cons v done => rfl
    rw [programFrom_eq, programFrom_eq done, hm]
    split
    · rw [List.reverse_append]
      rfl
    split
    · rfl
    cases he : expression c.skipComments with
    | mk r after =>
      cases r with
      | error x => rfl
      | ok v =>
        have hlt : after.pending.length < n := by
          rw [← hn]
          exact Nat.lt_of_lt_of_le (pending_walk_lt he) (length_skipComments c)
        exact ih _ hlt (v :: done) after nofun rfl

variable {repeated t : Token} {ts : List Token}

theorem walk_respaced (spaced : Bool) (around : List Context) (symbols : Option SymbolTable) :
    (walk repeated (t.respaced spaced :: ts) .expression around symbols).1 =
        (walk repeated (t :: ts) .expression around symbols).1 ∧
      (walk repeated (t.respaced spaced :: ts) .expression around symbols).2.pending =
        (walk repeated (t :: ts) .expression around symbols).2.pending ∧
      (walk repeated (t.respaced spaced :: ts) .expression around symbols).2.repeated =
        (walk repeated (t :: ts) .expression around symbols).2.repeated := by
  have ha : act symbols .expression (t.respaced spaced) = act symbols .expression t := rfl
  rw [walk_cons, walk_cons, ha]
  cases act symbols .expression t with
  | value v symbols' within =>
    simp only [perform]
    cases settle (within ++ around) v with
    | inl w => exact ⟨rfl, rfl, rfl⟩
    | inr next => exact ⟨rfl, rfl, rfl⟩
  | _ => exact ⟨rfl, rfl, rfl⟩

/-- A program may begin with a token that is set apart or not. -/
theorem verdict_respaced (spaced : Bool) :
    verdict ⟨t.respaced spaced :: ts, repeated⟩ = verdict ⟨t :: ts, repeated⟩ := by
  by_cases hk : t.kind = .comment
  -- A comment is skipped, and any other first token is looked at as the beginning of an expression.
  · have skip (u : Token) (hu : u.kind = .comment) :
        verdict ⟨u :: ts, repeated⟩ = verdict ⟨ts, repeated⟩ :=
      verdict_alike (Comments.nil.cons hu) rfl rfl
    rw [skip (t.respaced spaced) hk, skip t hk]
  · have stay (u : Token) (hu : u.kind ≠ .comment) :
        Cursor.skipComments ⟨none, u :: ts, repeated, none⟩ = ⟨none, u :: ts, repeated, none⟩ := by
      simp [Cursor.skipComments, hu]
    simp only [verdict, program, Cursor.ofStream]
    rw [programFrom_eq, programFrom_eq [], stay (t.respaced spaced) hk, stay t hk]
    simp only [Cursor.peek, List.headD_cons, Token.kind_respaced, List.isEmpty_nil, Bool.not_true,
      Bool.false_and, Bool.false_eq_true, if_false, expression]
    split
    · rfl
    obtain ⟨hr, hp, hq⟩ := @walk_respaced repeated t ts spaced [] none
    have hs (u : Token) := faithful_walk faithful?_none repeated (u :: ts) .expression []
    cases hw : walk repeated (t :: ts) .expression [] none with
    | mk r after =>
      cases hw' : walk repeated (t.respaced spaced :: ts) .expression [] none with
      | mk r' after' =>
        rw [hw, hw'] at hr hp hq
        have hf := hw ▸ hs t
        have hf' := hw' ▸ hs (t.respaced spaced)
        obtain rfl : r' = r := hr
        cases r' with
        | error x => rfl
        | ok v =>
          exact programFrom_alike after' after hf' hf Comments.nil (congrArg _ hp)
            (congrArg _ hq) [v]

end Program

theorem map_mapError {α β γ δ : Type} (f : γ → δ) (g : α → β) (r : Except α γ) :
    (r.map f).mapError g = (r.mapError g).map f := by
  cases r <;> rfl

section Lexers

variable {lx mid : Lexer} {us : List Token} {spaced : Bool} {gap : List Char} {s : Source}

theorem forms_of_emits {ts : List Token} {xs : List Value} (h : lx.Emits us mid)
    (hu : us.map Token.unplaced = ts.map Token.unplaced) (hx : Forms true ts xs) :
    Forms true us xs := by
  obtain ⟨e, he⟩ : ∃ e : Token, e.kind = .eof := ⟨⟨.eof, [], ⟨[], 0, 0, 0⟩, false⟩, rfl⟩
  have hp : Program (ts ++ [e]) xs := program_concat.mpr ⟨hx, he⟩
  refine (program_concat.mp (program_of_unplaced ?_ (h.sealed (.last (by rw [he]; rfl))) ?_ hp)).1
  · rw [List.map_append, List.map_append, hu]
  · intro t ht
    rcases List.mem_append.mp ht with ht | ht
    · exact lx.sealed_tokens.2 t (h.pending_eq ▸ List.mem_append_left _ ht)
    · obtain rfl := List.mem_singleton.mp ht
      intro hf
      rw [he] at hf
      cases hf

/-- Expressions, and behind them what a lexer goes on with, if that is set apart. -/
theorem verdict_onto {xs : List Value} (h : lx.Emits us mid) (hx : Forms true us xs)
    (hs : (Cursor.ofStream mid.tokens none).skipComments.peek.spaced = true) :
    verdict lx.tokens = (verdict mid.tokens).map (xs ++ ·) := by
  obtain ⟨ws, cs, rfl, hi, hcs⟩ := hx
  have hp := h.pending_eq
  rw [List.append_assoc] at hp
  obtain ⟨c, hf, hcp, hcr, hrun⟩ :=
    programFrom_items hi [] (.ofStream lx.tokens none) faithful?_none rfl hp
  calc verdict lx.tokens
    _ = (programFrom xs.reverse c).1.mapError Fault.complaint := by
      rw [verdict, program, hrun, List.append_nil]
    _ = (programFrom ([] ++ xs.reverse) (.ofStream mid.tokens none)).1.mapError
        Fault.complaint := by
      refine programFrom_alike c (.ofStream mid.tokens none) hf faithful?_none hcs
        (congrArg _ hcp) ?_ xs.reverse
      exact congrArg Token.unplaced (hcr.trans h.repeated_eq)
    _ = (verdict mid.tokens).map (xs ++ ·) := by
      rw [programFrom_onto xs.reverse [] _ fun _ => hs, List.reverse_reverse, map_mapError]
      rfl

/-- Blanks in front of a source change nothing. -/
theorem verdict_behind (hg : Blank gap) (hn : gap ≠ [])
    (h : mid.Stands spaced s.ending (gap ++ s.chars)) : verdict mid.tokens = verdict s.tokens := by
  obtain ⟨t, rest, hs, hm, hr⟩ := Lexer.tokens_behind hg hn h (Lexer.stands_ofSource s)
  rw [← Source.tokens] at hs hr
  calc verdict mid.tokens
    _ = verdict ⟨t.respaced true :: rest, s.tokens.repeated⟩ := by
      rw [← hm, verdict_unplaced hr.symm]
    _ = verdict ⟨t :: rest, s.tokens.repeated⟩ := verdict_respaced true
    _ = verdict s.tokens := by rw [← hs, verdict_unplaced rfl]

theorem spaced_behind {ending : Ending} {cs : List Char} (hg : Blank gap) (hn : gap ≠ [])
    (h : mid.Stands spaced ending (gap ++ cs)) :
    (Cursor.ofStream mid.tokens none).skipComments.peek.spaced = true := by
  obtain ⟨ds, u, more, hp, hds, hk, -⟩ := exists_comments mid.sealed_tokens.1
  have hs : (Cursor.ofStream mid.tokens none).skipComments.pending = u :: more :=
    pending_skipComments hp hds hk
  rw [Cursor.peek, hs]
  exact Lexer.spaced_of_pending (Lexer.spaced_next_of_gap hg hn h) hp hds

end Lexers

/-- A source that continues a readable source on a new line is read as both, one after the other. -/
theorem verdict_lines {s s₁ s₂ : Source} {xs : List Value} (h : verdict s₁.tokens = .ok xs)
    (hc : s.chars = s₁.chars ++ '\n' :: s₂.chars) (he : s.ending = s₂.ending) :
    verdict s.tokens = (verdict s₂.tokens).map (xs ++ ·) := by
  obtain ⟨-, hb, ts, hts, hx⟩ := exists_tokens_of_verdict h
  have hst := Lexer.stands_ofSource s
  rw [hc] at hst
  obtain ⟨us, mid, spaced, hus, hu, hmid⟩ := Lexer.emits_split (by simp) hst
  have hgap := hb.lineFeed
  rw [List.append_cons, he] at hmid
  have hx := forms_of_emits hus (hu.trans hts.symm) hx
  have hs := verdict_onto hus hx (spaced_behind hgap (by simp) hmid)
  rwa [verdict_behind hgap (by simp) hmid] at hs

theorem verdict_join {a : Text} {xs : List Value} (name name₁ name₂ b : Text)
    (h : verdict (Source.ofText name₁ a none).tokens = .ok xs) :
    verdict (Source.ofText name (a ++ .ofString "\n" ++ b) none).tokens =
      (verdict (Source.ofText name₂ b none).tokens).map (xs ++ ·) := by
  have hn := firstStray?_of_complete (exists_tokens_of_verdict h).1
  have hx : a ++ .ofString "\n" ++ b = Text.ofChars (a.chars ++ ['\n']) ++ b := by
    rw [Text.ofChars_append, Text.ofChars_chars hn]
    rfl
  apply verdict_lines h
  · rw [hx]
    simp only [Source.ofText, Text.chars_ofChars_append, List.append_assoc, List.singleton_append]
  · rw [hx]
    simp only [Source.ofText, Text.firstStray?_ofChars_append]

theorem readAll_append {a b : Text} {xs ys : List Value} (ha : readAll a = .ok xs)
    (hb : readAll b = .ok ys) : readAll (a ++ .ofString "\n" ++ b) = .ok (xs ++ ys) := by
  have hv := verdict_join [] [] [] b (verdict_of_readAll ha)
  rw [verdict_of_readAll hb] at hv
  exact (readSource_eq_ok_iff_verdict faithful?_empty).mpr hv

/-- What a text is read as, it is read as under any name and with any faithful table. -/
theorem readNamed_of_readAll {t : Text} {vs : List Value} (h : readAll t = .ok vs)
    {symbols : Option SymbolTable} (hs : Faithful? symbols) (name : Text) :
    (readNamed symbols name t).1 = .ok vs := by
  have hv : verdict (Source.ofText name t none).tokens =
      verdict (Source.ofText [] t none).tokens := verdict_eq_of_chars rfl rfl
  exact (readSource_eq_ok_iff_verdict hs).mpr (hv.trans (verdict_of_readAll h))

/-- Reading is compositional over lines. Behind a text that can be read, a text on a new line is
read as it is alone, and refused with the message with which it is refused alone. -/
theorem readAll_lines {a : Text} {xs : List Value} (h : readAll a = .ok xs) (b : Text) :
    (∀ zs, readAll (a ++ .ofString "\n" ++ b) = .ok zs ↔
      ∃ ys, readAll b = .ok ys ∧ zs = xs ++ ys) ∧
    ∀ message, (∃ source, readAll (a ++ .ofString "\n" ++ b) = .error (.parse source message)) ↔
      ∃ source, readAll b = .error (.parse source message) := by
  have hv := verdict_join [] [] [] b (verdict_of_readAll h)
  simp only [readAll, readNamed, readSource_eq_ok_iff_verdict faithful?_empty,
    readSource_eq_error_iff_verdict faithful?_empty, hv]
  cases verdict (Source.ofText [] b none).tokens with
  | ok ys => simp [Except.map, eq_comm]
  | error x => simp [Except.map]

theorem readAll_lines_comment :
    readAll (.ofString "(f . 'x) ; two") =
        .ok [.dotted [.atom (.ofString "f")] (.quoted (.atom (.ofString "x")))] ∧
      readAll (.ofString "(f . 'x) ; two" ++ .ofString "\n" ++ .ofString "3") =
        .ok [.dotted [.atom (.ofString "f")] (.quoted (.atom (.ofString "x"))), .number 3] := by
  have ha : readAll (.ofString "(f . 'x) ; two") =
      .ok [.dotted [.atom (.ofString "f")] (.quoted (.atom (.ofString "x")))] := by
    decide +kernel
  have hb : readAll (.ofString "3") = .ok [.number 3] := by decide +kernel
  exact ⟨ha, ((readAll_lines ha _).1 _).mpr ⟨_, hb, rfl⟩⟩

end SmallScheme.Reader
