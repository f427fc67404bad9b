import SmallScheme.Proofs.Token.Places

/-!
# Characters as tokens and gaps

`split` cuts characters into segments, each a token with the blanks before it, and what no token
begins. A lexer hands out the tokens of the segments (`Lexer.emits_split`). A token that ends where
the characters end also ends in front of a line break, so that more lines leave the segments of the
first line as they are.
-/

namespace SmallScheme

set_option autoImplicit false

section Ends

variable {kind : TokenKind} {text rest : List Char}

/-- A token that ends also ends in front of a line break. -/
theorem TokenKind.Ends.append {more : List Char} (h : kind.Ends text rest)
    (hm : ∀ d ∈ more.head?, d = '\n') : kind.Ends text (rest ++ more) := by
  cases rest with
  | cons d rest => cases kind <;> exact h
  | nil =>
    cases kind with
    | symbol =>
      refine ⟨fun d hd => ?_, fun _ hd => ?_⟩
      · rw [hm d hd]
        decide
      · exact absurd (hm _ hd) (by decide)
    | int =>
      intro d hd
      rw [hm d hd]
      decide
    | char =>
      intro _ d hd
      rw [hm d hd]
      decide
    | comment => exact hm
    | dot =>
      obtain ⟨d, hd, -⟩ := h
      cases hd
    | _ => trivial

theorem TokenKind.Admits.not_final {cs : List Char} (h : kind.Admits cs) :
    kind.isFinal = false := by
  cases kind with
  | invalid | error | eof => exact h.elim
  | _ => rfl

theorem TokenKind.Admits.not_blank {c : Char} (h : kind.Admits (c :: text)) :
    isBlank c = false := by
  cases kind with
  | symbol =>
    obtain ⟨d, ds, hx, hd, -⟩ := h
    obtain ⟨rfl, -⟩ := List.cons.inj hx
    exact (startsSymbol_plain hd).2.1
  | int => exact (isDigit_plain (h.2 c List.mem_cons_self)).2.2.1
  | string | char | comment =>
    obtain ⟨body, -, hx⟩ := h
    obtain ⟨rfl, -⟩ := List.cons.inj hx
    decide
  | quote | dot | openParen | closeParen =>
    obtain ⟨rfl, -⟩ := List.cons.inj h
    decide
  | invalid | error | eof => exact h.elim

end Ends

/-- A token and the blanks before it. -/
structure Segment where
  gap : List Char
  kind : TokenKind
  text : List Char
  deriving DecidableEq, Repr

/-- The segments that characters begin with, and the characters behind them. -/
def split (cs : List Char) : List Segment × List Char :=
  match hd : cs.dropWhile isBlank with
  | [] => ([], cs)
  | c :: after =>
    match ho : Lexeme.ofHead c after with
    | .token kind size =>
      have : after.length + 1 - size < cs.length := by
        have hs := Lexeme.size_pos ho
        have hl := (List.dropWhile_suffix isBlank (l := cs)).length_le
        rw [hd, List.length_cons] at hl
        omega
      let more := split ((c :: after).drop size)
      (⟨cs.takeWhile isBlank, kind, (c :: after).take size⟩ :: more.1, more.2)
    | _ => ([], cs)
termination_by cs.length

/-- Blanks only. -/
def Blank (cs : List Char) : Prop := ∀ d ∈ cs, isBlank d = true

/-- A character that is not blank and, with what follows it, no token. -/
def Unlexed (c : Char) (cs : List Char) : Prop :=
  isBlank c = false ∧ ∀ kind size, Lexeme.ofHead c cs ≠ .token kind size

section Split

variable {gap text rest cs : List Char} {c : Char} {kind : TokenKind}

theorem Blank.nil : Blank [] := nofun

theorem Blank.dropWhile_append (h : Blank gap) (cs : List Char) :
    (gap ++ cs).dropWhile isBlank = cs.dropWhile isBlank :=
  List.dropWhile_append_of_pos h

theorem Blank.dropWhile_cons (h : Blank gap) (hc : isBlank c = false) (cs : List Char) :
    (gap ++ c :: cs).dropWhile isBlank = c :: cs := by
  rw [h.dropWhile_append, List.dropWhile_cons_of_neg (by simp [hc])]

theorem Blank.dropWhile_eq_nil (h : Blank cs) : cs.dropWhile isBlank = [] := by
  rw [← List.append_nil cs, h.dropWhile_append, List.dropWhile_nil]

theorem Blank.lineFeed (h : Blank cs) : Blank (cs ++ ['\n']) := by
  intro d hd
  rcases List.mem_append.mp hd with hd | hd
  · exact h d hd
  · rw [List.mem_singleton.mp hd]
    decide

theorem Blank.eq_nil (h : Blank cs) (hl : ∀ d ∈ cs.getLast?, isBlank d = false) : cs = [] := by
  rcases List.eq_nil_or_concat cs with rfl | ⟨ys, d, rfl⟩
  · rfl
  · rw [List.concat_eq_append] at hl h
    have hd := hl d (by simp)
    rw [h d (by simp)] at hd
    cases hd

/-- Two ways to cut the same characters: the first cut is not behind the second, or it is. -/
theorem append_cases {xs ys trail : List Char} (h : xs ++ rest = ys ++ trail) :
    (∃ as, ys = xs ++ as ∧ rest = as ++ trail) ∨
      ∃ as, as ≠ [] ∧ xs = ys ++ as ∧ trail = as ++ rest := by
  rcases List.append_eq_append_iff.mp h with ⟨as, hys, hr⟩ | ⟨as, hxs, htr⟩
  · exact .inl ⟨as, hys, hr⟩
  · by_cases has : as = []
    · rw [has, List.append_nil] at hxs
      rw [has, List.nil_append] at htr
      exact .inl ⟨[], by rw [hxs, List.append_nil], htr.symm⟩
    · exact .inr ⟨as, has, hxs, htr⟩

theorem split_blank (h : Blank cs) : split cs = ([], cs) := by
  rw [split]
  split
  · rfl
  · rename_i hd
    rw [h.dropWhile_eq_nil] at hd
    cases hd

theorem split_unlexed (hg : Blank gap) (h : Unlexed c cs) :
    split (gap ++ c :: cs) = ([], gap ++ c :: cs) := by
  have hd := hg.dropWhile_cons h.1 cs
  rw [split]
  split
  · rfl
  · rename_i hd'
    obtain ⟨rfl, rfl⟩ := List.cons.inj (hd.symm.trans hd')
    split
    · rename_i ho
      exact absurd ho (h.2 _ _)
    · rfl

theorem split_token (hg : Blank gap) (ha : kind.Admits (c :: text))
    (he : kind.Ends (c :: text) rest) :
    split (gap ++ c :: (text ++ rest)) =
      (⟨gap, kind, c :: text⟩ :: (split rest).1, (split rest).2) := by
  have ho := Lexeme.ofHead_of_admits ha he
  have hd := hg.dropWhile_cons ha.not_blank (text ++ rest)
  rw [split]
  split
  · rename_i hd'
    rw [hd] at hd'
    cases hd'
  · rename_i hd'
    obtain ⟨rfl, rfl⟩ := List.cons.inj (hd.symm.trans hd')
    split
    · rename_i ho'
      rw [ho] at ho'
      obtain ⟨rfl, rfl⟩ := Lexeme.token.inj ho'
      rw [List.drop_succ_cons, List.drop_left, List.take_succ_cons, List.take_left,
        Lexer.takeWhile_gap hg ha.not_blank]
    · rename_i hn
      exact absurd ho (hn _ _)

/-- What characters begin with: nothing but blanks, or something that is no token, or a token. -/
@[elab_as_elim]
theorem split_induction {motive : List Char → Prop} (blank : ∀ cs, Blank cs → motive cs)
    (unlexed : ∀ gap c cs, Blank gap → Unlexed c cs → motive (gap ++ c :: cs))
    (token : ∀ gap c text rest kind, Blank gap → TokenKind.Admits kind (c :: text) →
      TokenKind.Ends kind (c :: text) rest → motive rest → motive (gap ++ c :: (text ++ rest)))
    (cs : List Char) : motive cs := by
  -- A token takes at least its first character away.
  induction hn : cs.length using Nat.strongRecOn generalizing cs with
  | ind n ih =>
    have hcs := List.takeWhile_append_dropWhile (p := isBlank) (l := cs)
    have hg : Blank (cs.takeWhile isBlank) := fun d => Lexeme.of_mem_takeWhile
    rcases hd : cs.dropWhile isBlank with - | ⟨c, rest⟩
    · rw [hd, List.append_nil] at hcs
      exact blank cs (hcs ▸ hg)
    · have hc : isBlank c = false := Lexeme.head?_dropWhile c (by rw [hd]; rfl)
      rw [hd] at hcs
      cases ho : Lexeme.ofHead c rest with
      | token kind size =>
        obtain ⟨text, rest, rfl, -, ha, he⟩ := Lexeme.exists_token ho
        have hlt : rest.length < n := by
          rw [← hn, ← hcs]
          simp only [List.length_append, List.length_cons]
          omega
        exact hcs ▸ token _ c text rest kind hg ha he (ih _ hlt rest rfl)
      | fault | invalid | cut => exact hcs ▸ unlexed _ c rest hg ⟨hc, by rw [ho]; exact nofun⟩

theorem split_rest (cs : List Char) : Blank (split cs).2 ∨
    ∃ gap c ds, (split cs).2 = gap ++ c :: ds ∧ Blank gap ∧ Unlexed c ds := by
  induction cs using split_induction with
  | blank cs h =>
    rw [split_blank h]
    exact .inl h
  | unlexed gap c cs hg h =>
    rw [split_unlexed hg h]
    exact .inr ⟨gap, c, cs, rfl, hg, h⟩
  | token gap c text rest kind hg ha he ih =>
    rw [split_token hg ha he]
    exact ih

end Split

/-- The tokens of segments, at no place. -/
def Segment.tokens : Bool → List Segment → List Token
  | _, [] => []
  | spaced, s :: ss =>
    Token.unplaced ⟨s.kind, Text.ofChars s.text, ⟨[], 0, 0, 0⟩, spaced || !s.gap.isEmpty⟩ ::
      tokens (s.kind = .comment) ss

theorem Segment.map_kind_tokens (spaced : Bool) (ss : List Segment) :
    (tokens spaced ss).map Token.kind = ss.map Segment.kind := by
  induction ss generalizing spaced with
  | nil => rfl
  | cons s ss ih => rw [tokens, List.map_cons, List.map_cons, ih]; rfl

namespace Lexer

variable {lx : Lexer} {spaced : Bool} {ending : Ending} {gap cs text rest : List Char} {c : Char}
  {kind : TokenKind}

theorem next_blank (h : lx.Stands spaced ending gap) (hg : Blank gap) :
    lx.next.1.kind.isFinal = true ∧ (lx.next.1.kind = .eof ↔ ending = .complete) := by
  obtain ⟨s, -, he, hr, hn⟩ := next_running h.running
  rw [h.rest_eq, hg.dropWhile_eq_nil] at hr
  rw [h.ending_eq] at he
  rw [hn]
  simp only [lexeme, hr, he]
  refine ⟨isFinal_stopToken _ _ _, ?_⟩
  cases ending <;> simp [Ending.stop, stopToken]

theorem next_unlexed (h : lx.Stands spaced ending (gap ++ c :: cs)) (hg : Blank gap)
    (hc : Unlexed c cs) : lx.next.1.kind.isFinal = true ∧ lx.next.1.kind ≠ .eof := by
  obtain ⟨s, -, he, hr, hn⟩ := next_running h.running
  rw [h.rest_eq, hg.dropWhile_cons hc.1] at hr
  rw [hn]
  simp only [lexeme, hr]
  cases hl : Lexeme.ofHead c cs with
  | token kind size => exact absurd hl (hc.2 kind size)
  | fault message size => exact ⟨rfl, by simp⟩
  | invalid d => exact ⟨rfl, by simp⟩
  | cut =>
    dsimp only
    refine ⟨isFinal_cutToken _ _ _, ?_⟩
    cases Ending.stop _ <;> simp [cutToken]

theorem next_admitted (h : lx.Stands spaced ending (gap ++ c :: (text ++ rest)))
    (hg : Blank gap) (ha : kind.Admits (c :: text)) (he : kind.Ends (c :: text) rest) :
    lx.next.1.unplaced =
        Token.unplaced ⟨kind, Text.ofChars (c :: text), ⟨[], 0, 0, 0⟩, spaced || !gap.isEmpty⟩ ∧
      lx.next.2.Stands (kind = .comment) ending rest := by
  obtain ⟨source, ht, hs⟩ := next_token h hg ha.not_blank (Lexeme.ofHead_of_admits ha he)
  rw [List.take_succ_cons, List.take_left] at ht
  rw [List.drop_succ_cons, List.drop_left] at hs
  rw [ht]
  exact ⟨rfl, hs⟩

/-- A lexer hands out the tokens of the segments, also where a line break and more follow. -/
theorem emits_split {more : List Char} (hm : ∀ d ∈ more.head?, d = '\n')
    (h : lx.Stands spaced ending (cs ++ more)) :
    ∃ ts mid spaced', Emits lx ts mid ∧
      ts.map Token.unplaced = Segment.tokens spaced (split cs).1 ∧
      mid.Stands spaced' ending ((split cs).2 ++ more) := by
  induction cs using split_induction generalizing lx spaced with
  | blank cs hb =>
    rw [split_blank hb]
    exact ⟨[], lx, spaced, .nil lx, rfl, h⟩
  | unlexed gap c cs hg hc =>
    rw [split_unlexed hg hc]
    exact ⟨[], lx, spaced, .nil lx, rfl, h⟩
  | token gap c text rest kind hg ha he ih =>
    rw [List.append_assoc, List.cons_append, List.append_assoc] at h
    obtain ⟨ht, hs⟩ := next_admitted h hg ha (he.append hm)
    have hf : lx.next.1.kind.isFinal = false := by
      rw [(Token.eq_of_unplaced ht).1]
      exact ha.not_final
    obtain ⟨ts, mid, spaced', hts, hu, hmid⟩ := ih hs
    rw [split_token hg ha he]
    exact ⟨lx.next.1 :: ts, mid, spaced', .cons hf hts, by rw [List.map_cons, ht, hu]; rfl, hmid⟩

/-- The tokens of a source are those of its segments and one more. -/
theorem pending_split (h : lx.Stands spaced ending cs) :
    ∃ ts e, lx.tokens.pending = ts ++ [e] ∧
      ts.map Token.unplaced = Segment.tokens spaced (split cs).1 ∧
      (e.kind = .eof ↔ ending = .complete ∧ Blank (split cs).2) := by
  rw [← List.append_nil cs] at h
  obtain ⟨ts, mid, spaced', hts, hu, hmid⟩ := emits_split (by simp) h
  rw [List.append_nil] at hmid
  have hp := hts.pending_eq
  rcases split_rest cs with hb | ⟨gap, c, ds, hr, hg, hc⟩
  · obtain ⟨hf, hk⟩ := next_blank hmid hb
    rw [pending_tokens_final hf] at hp
    refine ⟨ts, mid.next.1, hp, hu, ?_⟩
    rw [hk, and_iff_left hb]
  · have hn : ¬ Blank (split cs).2 := by
      intro hb
      have hc' := hb c (by rw [hr]; exact List.mem_append_right gap List.mem_cons_self)
      rw [hc.1] at hc'
      cases hc'
    rw [hr] at hmid
    obtain ⟨hf, hk⟩ := next_unlexed hmid hg hc
    rw [pending_tokens_final hf] at hp
    exact ⟨ts, mid.next.1, hp, hu, fun he => absurd he hk, fun he => absurd he.2 hn⟩

end Lexer

end SmallScheme
