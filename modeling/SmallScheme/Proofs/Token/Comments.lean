import Mathlib.Data.List.Chain
import SmallScheme.Proofs.Token.Layout

/-!
# Comments among tokens

A comment is a token of its own, and it sets the token behind it apart as a blank does. `bareTokens`
gives the tokens of characters without the comments, and it takes a comment in front for blanks.
-/

namespace SmallScheme

set_option autoImplicit false

/-- The tokens that are no comments. -/
def uncommented (ts : List Token) : List Token := ts.filter (·.kind ≠ .comment)

/-- Tokens each of which is set apart from a comment before it. -/
def Separated (ts : List Token) : Prop := ts.IsChain fun t u => t.kind = .comment → u.spaced = true

section Uncommented

variable {t : Token} {ts : List Token}

theorem uncommented_comment (h : t.kind = .comment) (ts : List Token) :
    uncommented (t :: ts) = uncommented ts := by
  simp [uncommented, h]

theorem uncommented_cons (h : t.kind ≠ .comment) (ts : List Token) :
    uncommented (t :: ts) = t :: uncommented ts := by
  simp [uncommented, h]

theorem uncommented_append (ts us : List Token) :
    uncommented (ts ++ us) = uncommented ts ++ uncommented us :=
  List.filter_append ts us

theorem uncommented_unplaced (ts : List Token) :
    (uncommented ts).map Token.unplaced = uncommented (ts.map Token.unplaced) := by
  rw [uncommented, uncommented, List.filter_map]
  rfl

theorem uncommented_dropWhile (ts : List Token) :
    uncommented (ts.dropWhile (·.kind = .comment)) = uncommented ts := by
  induction ts with
  | nil => rfl
  | cons t ts ih =>
    by_cases h : t.kind = .comment
    · rw [List.dropWhile_cons_of_pos (by simpa using h), ih, uncommented_comment h]
    · rw [List.dropWhile_cons_of_neg (by simpa using h)]

theorem dropWhile_uncommented (ts : List Token) :
    (uncommented ts).dropWhile (·.kind = .comment) = uncommented ts := by
  cases hu : uncommented ts with
  | nil => rfl
  | cons u us =>
    have hm : u ∈ uncommented ts := hu ▸ List.mem_cons_self
    have hk := (List.mem_filter.mp hm).2
    apply List.dropWhile_cons_of_neg
    simpa using hk

theorem headD_uncommented (h : ∀ t ∈ ts.head?, t.kind ≠ .comment) (repeated : Token) :
    (uncommented ts).headD repeated = ts.headD repeated := by
  cases ts with
  | nil => rfl
  | cons t ts => rw [uncommented_cons (h t rfl)]; rfl

theorem Separated.tail (h : Separated (t :: ts)) : Separated ts := List.IsChain.tail h

theorem Separated.dropWhile (h : Separated ts) :
    Separated (ts.dropWhile (·.kind = .comment)) :=
  List.IsChain.suffix h (List.dropWhile_suffix _)

/-- Behind a comment, the first token that is none is set apart. -/
theorem Separated.spaced (h : Separated (t :: ts)) (ht : t.kind = .comment) :
    ∀ u ∈ (uncommented ts).head?, u.spaced = true := by
  induction ts generalizing t with
  | nil => exact nofun
  | cons u us ih =>
    have hu := (List.isChain_cons_cons.mp h).1 ht
    by_cases hk : u.kind = .comment
    · rw [uncommented_comment hk]
      exact ih h.tail hk
    · rw [uncommented_cons hk]
      intro v hv
      obtain rfl := Option.some.inj hv
      exact hu

end Uncommented

theorem Blank.append {cs ds : List Char} (h : Blank cs) (h' : Blank ds) : Blank (cs ++ ds) :=
  List.forall_mem_append.mpr ⟨h, h'⟩

theorem Blank.space : Blank [' '] := by
  intro d hd
  rw [List.mem_singleton.mp hd]
  decide

section Bare

/-- The tokens of characters at no place, without the comments, where nothing but tokens and blanks
stands among the characters. -/
def bareTokens (spaced : Bool) (cs : List Char) : Option (List Token) :=
  if (split cs).2.all isBlank then some (uncommented (Segment.tokens spaced (split cs).1)) else none

variable {spaced : Bool} {gap text rest more cs : List Char} {c : Char} {kind : TokenKind}

theorem bareTokens_eq_some_iff {ts : List Token} :
    bareTokens spaced cs = some ts ↔
      Blank (split cs).2 ∧ uncommented (Segment.tokens spaced (split cs).1) = ts := by
  rw [bareTokens, Option.ite_none_right_eq_some, List.all_eq_true, Option.some.injEq]
  rfl

theorem bareTokens_blank (h : Blank cs) (spaced : Bool) : bareTokens spaced cs = some [] := by
  rw [bareTokens_eq_some_iff, split_blank h]
  exact ⟨h, rfl⟩

theorem bareTokens_unlexed (hg : Blank gap) (h : Unlexed c cs) (spaced : Bool) :
    bareTokens spaced (gap ++ c :: cs) = none := by
  have hc : (gap ++ c :: cs).all isBlank = false := by
    rw [List.all_append, List.all_cons, h.1, Bool.false_and, Bool.and_false]
  rw [bareTokens, split_unlexed hg h, hc]
  rfl

theorem bareTokens_token (hg : Blank gap) (ha : kind.Admits (c :: text))
    (he : kind.Ends (c :: text) rest) (spaced : Bool) :
    bareTokens spaced (gap ++ c :: (text ++ rest)) = (bareTokens (kind = .comment) rest).map
      (uncommented [Token.unplaced
        ⟨kind, Text.ofChars (c :: text), ⟨[], 0, 0, 0⟩, spaced || !gap.isEmpty⟩] ++ ·) := by
  rw [bareTokens, bareTokens, split_token hg ha he]
  split
  · rw [Option.map_some, ← uncommented_append]
    rfl
  · rfl

theorem TokenKind.Ends.congr (h : kind.Ends text rest) (hm : more.head? = rest.head?) :
    kind.Ends text more := by
  cases kind with
  | symbol | int | char | comment | dot =>
    simp only [TokenKind.Ends, hm]
    exact h
  | _ => trivial

theorem TokenKind.ends_before_comment (hd : kind ≠ .dot) (hk : kind ≠ .comment)
    (text rest : List Char) : kind.Ends text (';' :: rest) := by
  apply Lexeme.ends_of_plain hd hk
  intro d hm
  rw [← Option.some.inj hm]
  decide

/-- What ends in front of a comment ends in front of a blank. -/
theorem TokenKind.Ends.before_blank (h : kind.Ends text (';' :: rest)) (more : List Char) :
    kind.Ends text (' ' :: more) := by
  by_cases hd : kind = .dot
  · subst hd
    exact ⟨' ', rfl, by decide⟩
  by_cases hk : kind = .comment
  · subst hk
    exact absurd (h ';' rfl) (by decide)
  apply Lexeme.ends_of_apart hd hk
  intro d hm
  rw [← Option.some.inj hm]
  decide

/-- Blanks in front set the first token apart. -/
theorem bareTokens_gap (hg : Blank gap) (spaced : Bool) (cs : List Char) :
    bareTokens spaced (gap ++ cs) = bareTokens (spaced || !gap.isEmpty) cs := by
  cases cs using split_induction with
  | blank cs h => rw [bareTokens_blank (hg.append h), bareTokens_blank h]
  | unlexed gap' c cs hg' h =>
    rw [← List.append_assoc, bareTokens_unlexed (hg.append hg') h, bareTokens_unlexed hg' h]
  | token gap' c text rest kind hg' ha he _ =>
    have hs : (spaced || !(gap ++ gap').isEmpty) = (spaced || !gap.isEmpty || !gap'.isEmpty) := by
      cases gap <;> simp
    rw [← List.append_assoc, bareTokens_token (hg.append hg') ha he, bareTokens_token hg' ha he, hs]

theorem bareTokens_spaced (hg : Blank gap) (hn : gap ≠ []) (spaced : Bool) (cs : List Char) :
    bareTokens spaced (gap ++ cs) = bareTokens true cs := by
  rw [bareTokens_gap hg, List.isEmpty_eq_false_iff.mpr hn, Bool.not_false, Bool.or_true]

theorem bareTokens_lineFeed (spaced : Bool) (cs : List Char) :
    bareTokens spaced ('\n' :: cs) = bareTokens true cs :=
  bareTokens_spaced Blank.nil.lineFeed (by simp) spaced cs

/-- A comment in front is taken for blanks. -/
theorem bareTokens_comment (hg : Blank gap) (hn : '\n' ∉ text) (hr : ∀ d ∈ rest.head?, d = '\n')
    (spaced : Bool) : bareTokens spaced (gap ++ ';' :: (text ++ rest)) = bareTokens true rest := by
  have ha : TokenKind.comment.Admits (';' :: text) := ⟨text, hn, rfl⟩
  rw [bareTokens_token hg ha hr, uncommented_comment (by rfl)]
  exact Option.map_id'

end Bare

namespace Lexer

variable {lx last : Lexer} {ts : List Token}

/-- A lexer sets apart what it hands out behind a comment. -/
theorem separated_tokens (lx : Lexer) : Separated lx.tokens.pending := by
  -- Every request that does not end the stream shortens what is left of the source.
  induction hn : lx.scanner.rest.length using Nat.strongRecOn generalizing lx with
  | ind n ih =>
    cases hf : lx.next.1.kind.isFinal with
    | true =>
      rw [pending_tokens_final hf]
      exact List.isChain_singleton _
    | false =>
      have hnext := ih _ (hn ▸ rest_next_lt lx hf) lx.next.2 rfl
      obtain ⟨us, hus⟩ := head_pending lx.next.2
      rw [pending_tokens_more hf, hus]
      rw [hus] at hnext
      exact List.isChain_cons_cons.mpr ⟨spaced_behind_comment, hnext⟩

theorem getLast?_cons_of_mem {t u : Token} (h : t ∈ ts.getLast?) : t ∈ (u :: ts).getLast? := by
  rw [List.getLast?_cons, Option.mem_def.mp h]
  rfl

/-- Tokens that a lexer has handed out stay in front of whatever does not change where the last of
them ends. -/
theorem Emits.exists_lead {src : Source} {read : List Char} (h : Emits lx ts last)
    (hr : Rests src read lx) (hs : lx.stopped = none) :
    ∃ lead, lx.scanner.rest = lead ++ last.scanner.rest ∧ (lead = [] → ts = []) ∧
      ∀ rest, (∀ t ∈ ts.getLast?, ∀ text, t.kind.Ends text last.scanner.rest →
          t.kind.Ends text rest) →
        bareTokens lx.spaced (lead ++ rest) =
          (bareTokens last.spaced rest).map (uncommented (ts.map Token.unplaced) ++ ·) := by
  induction h generalizing read with
  | nil lx =>
    refine ⟨[], rfl, fun _ => rfl, fun rest _ => ?_⟩
    exact Option.map_id'.symm
  | @cons lx last ts hf _ ih =>
    obtain ⟨gap, text, more, hg, hrest, -, -, hfound⟩ := next_found hr hs hf
    obtain ⟨c, text, rfl⟩ := List.exists_cons_of_ne_nil hfound.admits.ne_nil
    obtain ⟨ht, hnext⟩ := next_admitted ⟨hs, rfl, rfl, hrest⟩ hg hfound.admits hfound.ends
    obtain ⟨lead, hlead, hnil, hbare⟩ := ih hfound.rests hfound.running
    have hmore : more = lead ++ last.scanner.rest := hnext.rest_eq.symm.trans hlead
    refine ⟨gap ++ c :: (text ++ lead), ?_, by simp, fun rest he => ?_⟩
    · rw [hrest, hmore]
      simp
    have hends : lx.next.1.kind.Ends (c :: text) (lead ++ rest) := by
      have hends := hfound.ends
      rw [hmore] at hends
      cases lead with
      | nil =>
        obtain rfl := hnil rfl
        exact he _ rfl _ hends
      | cons d lead => exact hends.congr rfl
    have hb := hbare rest fun t hm => he t (getLast?_cons_of_mem hm)
    rw [hnext.spaced_eq] at hb
    rw [List.append_assoc, List.cons_append, List.append_assoc,
      bareTokens_token hg hfound.admits hends, hb, Option.map_map, List.map_cons, ht]
    congr 1
    funext us
    rw [Function.comp_apply, ← List.append_assoc, ← uncommented_append]
    rfl

theorem bareTokens_behind {src : Source} {read rest : List Char} (h : Emits (ofSource src) ts last)
    (hr : src.chars = read ++ last.scanner.rest)
    (he : ∀ t ∈ ts.getLast?, ∀ text, t.kind.Ends text last.scanner.rest → t.kind.Ends text rest) :
    bareTokens false (read ++ rest) =
      (bareTokens last.spaced rest).map (uncommented (ts.map Token.unplaced) ++ ·) := by
  obtain ⟨lead, hlead, -, hbare⟩ := h.exists_lead (rests_ofSource src) rfl
  obtain rfl : read = lead := List.append_cancel_right (hr.symm.trans hlead)
  exact hbare rest he

end Lexer

end SmallScheme
