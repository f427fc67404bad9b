import SmallScheme.Proofs.Text.Encoding
import SmallScheme.Proofs.Token.Terminals

/-!
# Where terminals are tokens

A text is cut into terminals after the blanks at both its ends are dropped, and only narrow blanks
may stand between terminals. `Faithful` says when this does no harm: no other blank stands before a
token, and the blank of the literal for the space is not at the end. Then the terminals are those of
the tokens, and otherwise there are none (`Terminal.all?_split`).
-/

namespace SmallScheme

set_option autoImplicit false

/-- What is left of characters behind their segments, as one more segment of no kind. -/
def unfinished (rest : List Char) : List Segment :=
  if rest.all isBlank then []
  else [⟨rest.takeWhile isBlank, .error, rest.dropWhile isBlank⟩]

/-- The segments of characters, also the last one if it is no token. -/
def segments (cs : List Char) : List Segment := (split cs).1 ++ unfinished (split cs).2

/-- The literal for the space. -/
def spaceLiteral : List Char := ['#', '\\', ' ']

/-- Characters whose terminals are their tokens: only narrow blanks stand before tokens, and the
last token is not the literal for the space. -/
def Faithful (cs : List Char) : Prop :=
  (∀ s ∈ segments cs, Terminal.Narrow s.gap) ∧
    (segments cs).getLast?.map Segment.text ≠ some spaceLiteral

instance (cs : List Char) : Decidable (Faithful cs) :=
  inferInstanceAs (Decidable ((∀ s ∈ segments cs, Terminal.Narrow s.gap) ∧
    (segments cs).getLast?.map Segment.text ≠ some spaceLiteral))

section Segments

variable {gap text rest cs : List Char} {c : Char} {kind : TokenKind}

theorem segments_blank (h : Blank cs) : segments cs = [] := by
  rw [segments, split_blank h, unfinished, if_pos (List.all_eq_true.mpr h)]
  rfl

theorem segments_unlexed (hg : Blank gap) (h : Unlexed c cs) :
    segments (gap ++ c :: cs) = [⟨gap, .error, c :: cs⟩] := by
  have hn : ¬ (gap ++ c :: cs).all isBlank = true := by
    rw [List.all_eq_true]
    intro hb
    have hc := hb c (List.mem_append_right gap List.mem_cons_self)
    rw [h.1] at hc
    cases hc
  rw [segments, split_unlexed hg h, unfinished, if_neg hn, Lexer.takeWhile_gap hg h.1,
    hg.dropWhile_cons h.1]
  rfl

theorem segments_token (hg : Blank gap) (ha : kind.Admits (c :: text))
    (he : kind.Ends (c :: text) rest) :
    segments (gap ++ c :: (text ++ rest)) = ⟨gap, kind, c :: text⟩ :: segments rest := by
  rw [segments, split_token hg ha he]
  rfl

theorem segments_eq_nil_iff : segments cs = [] ↔ Blank cs := by
  refine ⟨fun h => ?_, segments_blank⟩
  induction cs using split_induction with
  | blank cs hb => exact hb
  | unlexed gap c cs hg hc =>
    rw [segments_unlexed hg hc] at h
    cases h
  | token gap c text rest kind hg ha he =>
    rw [segments_token hg ha he] at h
    cases h

theorem faithful_token (hg : Blank gap) (ha : kind.Admits (c :: text))
    (he : kind.Ends (c :: text) rest) (hl : Blank rest → c :: text ≠ spaceLiteral) :
    Faithful (gap ++ c :: (text ++ rest)) ↔ Terminal.Narrow gap ∧ Faithful rest := by
  have hlast : (⟨gap, kind, c :: text⟩ :: segments rest).getLast?.map Segment.text ≠
      some spaceLiteral ↔ (segments rest).getLast?.map Segment.text ≠ some spaceLiteral := by
    cases hs : segments rest with
    | nil => simpa using hl (segments_eq_nil_iff.mp hs)
    | cons s ss => rw [List.getLast?_cons_cons]
  rw [Faithful, segments_token hg ha he, hlast, Faithful, List.forall_mem_cons, and_assoc]

theorem faithful_unlexed (hg : Blank gap) (h : Unlexed c cs) (hc : c ≠ '#') :
    Faithful (gap ++ c :: cs) ↔ Terminal.Narrow gap := by
  have hl : c :: cs ≠ spaceLiteral := fun hl => hc (List.cons.inj hl).1
  simp [Faithful, segments_unlexed hg h, hl]

end Segments

/-- Characters behind the last segment that a further line may complete: none but blanks, a string
without its closing mark, or a dot with nothing behind it. -/
def Loose (rest : List Char) : Prop :=
  ∀ c ∈ (rest.dropWhile isBlank).head?, c = '"' ∨ rest.dropWhile isBlank = ['.']

/-- The terminals of such characters. -/
def looseTerminals (rest : List Char) : List Terminal :=
  (rest.dropWhile isBlank).head?.toList.map fun c => if c = '"' then .openString else .other

namespace Terminal

variable {gap text rest cs xs trail : List Char} {c : Char} {kind : TokenKind}

theorem exists_of_trail (ht : Blank trail) (hc : isBlank c = false)
    (h : xs ++ trail = gap ++ c :: cs) : ∃ ys, xs = gap ++ c :: ys ∧ cs = ys ++ trail := by
  have hn : c ∉ trail := by
    intro hm
    rw [ht c hm] at hc
    cases hc
  rcases List.append_eq_append_iff.mp h with ⟨as, -, has⟩ | ⟨as, has, hcs⟩
  · exact absurd (has ▸ List.mem_append_right as List.mem_cons_self) hn
  · cases as with
    | nil =>
      rw [List.nil_append] at hcs
      exact absurd (hcs ▸ List.mem_cons_self) hn
    | cons d as =>
      obtain ⟨rfl, rfl⟩ := List.cons.inj hcs
      exact ⟨as, has, rfl⟩

theorem all?_behind (hg : Blank gap) (hc : isBlank c = false) (cs : List Char) :
    all? ((gap ++ c :: cs).map .char) =
      if Narrow gap then (ofHead? c (cs.map .char)).bind fun r => (all? r.2).map (r.1 :: ·)
      else none := by
  rw [List.map_append, List.map_cons]
  split
  · rename_i hn
    rw [all?_narrow hn, all?_cons (isGap_of_not_blank hc)]
  · rename_i hn
    exact all?_wide hg hn _

theorem all?_unlexed (hg : Blank gap) (hc : Unlexed c (cs ++ trail))
    (hl : Loose (gap ++ c :: (cs ++ trail))) :
    all? ((gap ++ c :: cs).map .char) =
      if Faithful (gap ++ c :: (cs ++ trail)) then
        some (looseTerminals (gap ++ c :: (cs ++ trail))) else none := by
  have hd := hg.dropWhile_cons hc.1 (cs ++ trail)
  have hl := hl c (by rw [hd]; rfl)
  rw [hd] at hl
  have hh : c ≠ '#' := by
    rcases hl with rfl | hl
    · decide
    · rw [(List.cons.inj hl).1]
      decide
  rw [all?_behind hg hc.1, looseTerminals, hd]
  simp only [faithful_unlexed hg hc hh]
  split
  · rcases hl with rfl | hl
    · have hm : Lexeme.closingMark (cs ++ trail) = none := by
        cases hm : Lexeme.closingMark (cs ++ trail) with
        | none => rfl
        | some n => exact absurd (by simp [Lexeme.ofHead, hm]) (hc.2 .string (1 + n))
      have hs := afterString?_eq cs
      rw [closingMark_eq_none_of_append hm, Option.map_none] at hs
      have ho : ofHead? '"' (cs.map .char) = some (.openString, []) := by
        simp only [ofHead?, hs]
        rfl
      rw [ho, Option.bind_some, all?_nil]
      rfl
    · obtain ⟨rfl, hn⟩ := List.cons.inj hl
      obtain ⟨rfl, -⟩ := List.append_eq_nil_iff.mp hn
      have ho : ofHead? '.' [] = some (.other, []) := rfl
      rw [List.map_nil, ho, Option.bind_some, all?_nil]
      rfl
  · rfl

/-- A token that the end of the text cuts short is a comment or the literal for the space. -/
theorem all?_straddle {ys as : List Char} (hg : Blank gap) (ha : kind.Admits (c :: (ys ++ as)))
    (he : kind.Ends (c :: (ys ++ as)) rest) (hn : as ≠ []) (has : Blank as) (hr : Blank rest) :
    all? ((gap ++ c :: ys).map .char) =
      if Faithful (gap ++ c :: (ys ++ as ++ rest)) then some [kind.terminal] else none := by
  have hlast : ∃ d, (c :: (ys ++ as)).getLast? = some d ∧ isBlank d = true := by
    refine ⟨as.getLast hn, ?_, has _ (List.getLast_mem hn)⟩
    rw [← List.cons_append, List.getLast?_append, List.getLast?_eq_some_getLast hn, Option.some_or]
  obtain ⟨d, hd, hb⟩ := hlast
  rw [all?_behind hg ha.not_blank]
  rcases ha.of_getLast?_blank hd hb with rfl | hsp
  · have hbody := ha
    obtain ⟨body, hnl, hx⟩ := hbody
    obtain ⟨rfl, rfl⟩ := List.cons.inj hx
    have hy : TokenKind.comment.Admits (';' :: ys) :=
      ⟨ys, fun h => hnl (List.mem_append_left as h), rfl⟩
    have ho : ofHead? ';' ((ys ++ []).map .char) = some (.other, [].map .char) :=
      ofHead?_of_admits hy fun _ => nofun
    have hf := faithful_token hg ha he fun _ => by simp [spaceLiteral]
    have hr : Faithful rest := by simp [Faithful, segments_blank hr]
    rw [List.append_nil] at ho
    simp only [hf, hr, and_true, ho, Option.bind_some, List.map_nil, all?_nil]
    rfl
  · have hf : ¬ Faithful (gap ++ c :: (ys ++ as ++ rest)) := by
      rw [Faithful, segments_token hg ha he, segments_blank hr, hsp]
      exact fun h => h.2 rfl
    -- Without its blank the literal is a symbol with a backslash behind it.
    have hy : c = '#' ∧ ys = ['\\'] := by
      obtain ⟨rfl, hys⟩ := List.cons.inj hsp
      refine ⟨rfl, ?_⟩
      rcases ys with - | ⟨y, - | ⟨z, ys⟩⟩
      · rw [List.nil_append] at hys
        exact absurd (has '\\' (by rw [hys]; exact List.mem_cons_self)) (by decide)
      · rw [(List.cons.inj hys).1]
      · exact absurd (List.append_eq_nil_iff.mp (List.cons.inj (List.cons.inj hys).2).2).2 hn
    obtain ⟨rfl, rfl⟩ := hy
    have ho : ofHead? '#' (['\\'].map .char) = some (.other, [.char '\\']) := by decide
    have hs : all? [.char '\\'] = none := by
      rw [all?_cons (by decide)]
      rfl
    rw [if_neg hf, ho, Option.bind_some, hs]
    split <;> rfl

/-- The terminals of a text without blanks at its end are those of its tokens. -/
theorem all?_split (ht : Blank trail) (hx : ∀ d ∈ xs.getLast?, isBlank d = false)
    (hl : Loose (split (xs ++ trail)).2) :
    all? (xs.map .char) = if Faithful (xs ++ trail) then
      some ((split (xs ++ trail)).1.map (·.kind.terminal) ++ looseTerminals (split (xs ++ trail)).2)
      else none := by
  generalize hcs : xs ++ trail = cs at hl ⊢
  induction cs using split_induction generalizing xs with
  | blank cs hb =>
    have hb' : Blank xs := fun d hd => hb d (hcs ▸ List.mem_append_left trail hd)
    have hf : Faithful cs := by simp [Faithful, segments_blank hb]
    rw [if_pos hf, split_blank hb, hb'.eq_nil hx, looseTerminals, hb.dropWhile_eq_nil]
    exact all?_nil
  | unlexed gap c cs hg hc =>
    obtain ⟨ys, rfl, rfl⟩ := exists_of_trail ht hc.1 hcs
    rw [split_unlexed hg hc] at hl ⊢
    exact all?_unlexed hg hc hl
  | token gap c text rest kind hg ha he ih =>
    obtain ⟨ys, rfl, hys⟩ := exists_of_trail ht ha.not_blank hcs
    rw [split_token hg ha he] at hl ⊢
    -- The token ends inside the text, or it reaches into the blanks that were dropped.
    rcases append_cases hys with ⟨as, rfl, rfl⟩ | ⟨as, hn, rfl, rfl⟩
    · have hx' : ∀ d ∈ as.getLast?, isBlank d = false := by
        intro d hd
        apply hx
        rw [← List.cons_append, ← List.append_assoc, List.getLast?_append, Option.mem_def.mp hd]
        rfl
      have hsp : Blank (as ++ trail) → c :: text ≠ spaceLiteral := by
        intro hb hsp
        have has : Blank as := fun d hd => hb d (List.mem_append_left trail hd)
        rw [has.eq_nil hx', List.append_nil, hsp] at hx
        have := hx ' ' (by rw [List.getLast?_append]; rfl)
        revert this
        decide
      have ho := ofHead?_of_admits ha fun hd => he.of_append hd
      rw [all?_behind hg ha.not_blank, ho, Option.bind_some, ih hx' rfl hl]
      simp only [faithful_token hg ha he hsp]
      by_cases hn : Narrow gap
      · by_cases hf : Faithful (as ++ trail)
        · rw [if_pos hn, if_pos hf, if_pos ⟨hn, hf⟩]
          rfl
        · rw [if_pos hn, if_neg hf, if_neg fun h => hf h.2]
          rfl
      · rw [if_neg hn, if_neg fun h => hn h.1]
    · have has : Blank as := fun d hd => ht d (List.mem_append_left rest hd)
      have hr : Blank rest := fun d hd => ht d (List.mem_append_right as hd)
      rw [all?_straddle hg ha he hn has hr, split_blank hr, looseTerminals, hr.dropWhile_eq_nil]
      rfl

theorem exists_trim (cs : List Char) : ∃ xs trail, cs.dropWhile isBlank = xs ++ trail ∧
    Blank trail ∧ (∀ d ∈ xs.getLast?, isBlank d = false) ∧
    Piece.trim (cs.map .char) = xs.map .char := by
  have hm (ds : List Char) : (ds.map Piece.char).dropWhile Piece.isBlank =
      (ds.dropWhile isBlank).map .char := List.dropWhile_map
  refine ⟨((cs.dropWhile isBlank).reverse.dropWhile isBlank).reverse,
    ((cs.dropWhile isBlank).reverse.takeWhile isBlank).reverse, ?_, ?_, ?_, ?_⟩
  · rw [← List.reverse_append, List.takeWhile_append_dropWhile, List.reverse_reverse]
  · intro d hd
    exact Lexeme.of_mem_takeWhile (List.mem_reverse.mp hd)
  · intro d hd
    rw [List.getLast?_reverse] at hd
    exact Lexeme.head?_dropWhile d hd
  · rw [Piece.trim, hm, ← List.map_reverse, hm, List.map_reverse]

theorem split_dropWhile (cs : List Char) :
    (split (cs.dropWhile isBlank)).1.map Segment.kind = (split cs).1.map Segment.kind ∧
      (split (cs.dropWhile isBlank)).2.dropWhile isBlank = (split cs).2.dropWhile isBlank := by
  induction cs using split_induction with
  | blank cs hb =>
    rw [hb.dropWhile_eq_nil, split_blank .nil, split_blank hb, hb.dropWhile_eq_nil]
    exact ⟨rfl, rfl⟩
  | unlexed gap c cs hg hc =>
    have hs := split_unlexed .nil hc
    rw [List.nil_append] at hs
    rw [split_unlexed hg hc, hg.dropWhile_cons hc.1, hs,
      List.dropWhile_cons_of_neg (by simp [hc.1])]
    exact ⟨rfl, rfl⟩
  | token gap c text rest kind hg ha he =>
    have hs := split_token .nil ha he
    rw [List.nil_append] at hs
    rw [split_token hg ha he, hg.dropWhile_cons ha.not_blank, hs]
    exact ⟨rfl, rfl⟩

/-- Whether a text awaits more, by its tokens. -/
theorem awaitsMore_ofChars (hl : Loose (split cs).2) :
    (Text.ofChars cs).awaitsMore = (decide (Faithful (cs.dropWhile isBlank)) &&
      leavesOpen 0 ((split cs).1.map (·.kind.terminal) ++ looseTerminals (split cs).2)) := by
  obtain ⟨xs, trail, hcs, ht, hx, htrim⟩ := exists_trim cs
  obtain ⟨hk, hr⟩ := split_dropWhile cs
  have hl' : Loose (split (cs.dropWhile isBlank)).2 := by rwa [Loose, hr]
  have hts : (split (cs.dropWhile isBlank)).1.map (·.kind.terminal) =
      (split cs).1.map (·.kind.terminal) := by
    have := congrArg (List.map TokenKind.terminal) hk
    rwa [List.map_map, List.map_map] at this
  have hs := all?_split ht hx (hcs ▸ hl')
  rw [← hcs, hts, looseTerminals, hr] at hs
  rw [Text.awaitsMore, Text.pieces_ofChars, htrim, hs, looseTerminals]
  by_cases hf : Faithful (cs.dropWhile isBlank)
  · simp only [hf, if_true, decide_true, Bool.true_and]
  · simp only [hf, if_false, decide_false, Bool.false_and]

end Terminal

end SmallScheme
