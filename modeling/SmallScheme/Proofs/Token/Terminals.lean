import SmallScheme.Proofs.Token.Segments
import SmallScheme.Reader.Pending

/-!
# Terminals and tokens

A token that stands behind narrow blanks is one terminal (`Terminal.ofHead?_of_admits`), whatever
blanks its own text has. A blank that is not narrow belongs to no terminal, so that a text with one
before a token has no terminals at all (`Terminal.all?_wide`).
-/

namespace SmallScheme

set_option autoImplicit false

/-- What a kind of token means for the lists that are open. -/
def TokenKind.terminal : TokenKind → Terminal
  | .openParen => .openParen
  | .closeParen => .closeParen
  | _ => .other

section Ends

variable {kind : TokenKind} {c : Char} {text rest more : List Char}

theorem TokenKind.Ends.of_append (h : kind.Ends text (rest ++ more)) (hd : kind ≠ .dot) :
    kind.Ends text rest := by
  cases rest with
  | cons d rest => cases kind <;> exact h
  | nil =>
    cases kind with
    | symbol => exact ⟨nofun, nofun⟩
    | int => exact nofun
    | char => exact fun _ => nofun
    | comment => exact nofun
    | dot => exact absurd rfl hd
    | _ => trivial

theorem not_blank_of_continues {d : Char} (h : continuesSymbol d = true) : isBlank d = false := by
  cases hb : isBlank d with
  | false => rfl
  | true =>
    have hc := (separates_plain (show separates d = true by rw [separates, hb]; rfl)).1
    rw [h] at hc
    cases hc

/-- A token that ends with a blank is a comment or the literal for the space. -/
theorem TokenKind.Admits.of_getLast?_blank {cs : List Char} {d : Char} (h : kind.Admits cs)
    (hd : cs.getLast? = some d) (hb : isBlank d = true) :
    kind = .comment ∨ cs = ['#', '\\', ' '] := by
  have hm := List.mem_of_getLast? hd
  have plain (hn : isBlank d = false) : kind = .comment ∨ cs = ['#', '\\', ' '] := by
    rw [hn] at hb
    cases hb
  cases kind with
  | symbol =>
    obtain ⟨c, rest, rfl, hc, hr⟩ := h
    rcases List.mem_cons.mp hm with rfl | hm
    · exact plain (startsSymbol_plain hc).2.1
    · exact plain (not_blank_of_continues (hr d hm))
  | int => exact plain (isDigit_plain (h.2 d hm)).2.2.1
  | string =>
    obtain ⟨body, -, rfl⟩ := h
    rw [List.getLast?_append, List.getLast?_singleton, Option.some_or] at hd
    obtain rfl := Option.some.inj hd
    exact plain (by decide)
  | char =>
    obtain ⟨name, hn, rfl⟩ := h
    rw [Lexeme.getLast?_literal hn] at hd
    rcases Lexeme.letters_of_characterName hn with ⟨c, ds, rfl, hl⟩ | ⟨c, rfl, -, hc⟩
    · have hl := hl d (List.mem_of_getLast? hd)
      exact plain (startsSymbol_plain (by rw [startsSymbol, hl]; rfl)).2.1
    · obtain rfl : c = d := by simpa using hd
      simp only [Bool.or_eq_true, decide_eq_true_eq] at hc
      rcases hc with hc | rfl
      · exact plain (isDigit_plain hc).2.2.1
      · exact .inr rfl
  | comment => exact .inl rfl
  | quote | dot | openParen | closeParen =>
    subst h
    obtain rfl := Option.some.inj hd
    exact plain (by decide)
  | invalid | error | eof => exact h.elim

end Ends

namespace Terminal

variable {c : Char} {gap cs text rest : List Char} {ps : List Piece} {kind : TokenKind}

/-- Blanks that are skipped before terminals. -/
def Narrow (gap : List Char) : Prop := ∀ d ∈ gap, isGap (.char d) = true

instance (gap : List Char) : Decidable (Narrow gap) :=
  decidable_of_iff (gap.all fun d => isGap (.char d)) List.all_eq_true

theorem dropWhile_map_char (p : Piece → Bool) (hcs : ∀ d ∈ cs, p (.char d) = true)
    (hr : ∀ d ∈ rest.head?, p (.char d) = false) :
    ((cs ++ rest).map Piece.char).dropWhile p = rest.map .char := by
  have hm : ∀ q ∈ cs.map Piece.char, p q = true := by
    intro q hq
    obtain ⟨d, hd, rfl⟩ := List.mem_map.mp hq
    exact hcs d hd
  rw [List.map_append, List.dropWhile_append_of_pos hm]
  cases rest with
  | nil => rfl
  | cons d rest => rw [List.map_cons, List.dropWhile_cons_of_neg (by simp [hr d rfl])]

theorem afterString?_eq (cs : List Char) :
    afterString? (cs.map .char) = (Lexeme.closingMark cs).map fun n => (cs.drop n).map .char := by
  fun_induction Lexeme.closingMark cs with
  | case1 => rfl
  | case2 => rfl
  | case3 c hc => simp [afterString?, hc]
  | case4 d cs => simp [afterString?]
  | case5 d cs hc ih => simp [afterString?, ih, Option.map_map, Function.comp_def]
  | case6 c d cs hc hs ih =>
    rw [List.map_cons] at ih
    simp [afterString?, hc, hs, ih, Option.map_map, Function.comp_def]

theorem closingMark_eq_none_of_append {ds : List Char}
    (h : Lexeme.closingMark (cs ++ ds) = none) : Lexeme.closingMark cs = none := by
  cases hm : Lexeme.closingMark cs with
  | none => rfl
  | some n =>
    obtain ⟨body, hb, ht⟩ := Lexeme.take_closingMark hm
    rw [← List.take_append_drop n cs, ht, List.append_assoc, List.append_assoc,
      List.singleton_append, Lexeme.closingMark_append hb] at h
    cases h

theorem afterCharacter?_of_name {name : List Char} (hn : CharacterName name)
    (he : (∃ d ∈ name.getLast?, isLetter d = true) → ∀ d ∈ rest.head?, isLetter d = false) :
    afterCharacter? ((name ++ rest).map .char) = some (rest.map .char) := by
  rcases Lexeme.letters_of_characterName hn with ⟨c, ds, rfl, hl⟩ | ⟨c, rfl, hl, hc⟩
  · have hds := dropWhile_map_char (charIs isLetter) (fun d hd => hl d (List.mem_cons_of_mem c hd))
      (Lexeme.stop_of_letters hl he)
    rw [List.cons_append, List.map_cons, afterCharacter?, charIs, if_pos (hl c List.mem_cons_self),
      hds]
  · simp [afterCharacter?, charIs, hl, hc]

/-- A token is a terminal of its own. -/
theorem ofHead?_of_admits (ha : kind.Admits (c :: text))
    (he : kind ≠ .dot → kind.Ends (c :: text) rest) :
    ofHead? c ((text ++ rest).map .char) = some (kind.terminal, rest.map .char) := by
  cases kind with
  | symbol =>
    obtain ⟨_, _, hx, hc, hcs⟩ := ha
    obtain ⟨rfl, rfl⟩ := List.cons.inj hx
    obtain ⟨hd, -, hm⟩ := startsSymbol_plain hc
    obtain ⟨hstop, hhash⟩ := he (by decide)
    have hs : ¬ (c = '#' ∧ ((text ++ rest).map Piece.char).head? = some (.char '\\')) := by
      rintro ⟨rfl, hs⟩
      cases text with
      | nil =>
        cases rest with
        | nil => cases hs
        | cons d rest =>
          obtain rfl : d = '\\' := by simpa using hs
          exact hhash rfl rfl
      | cons d text =>
        obtain rfl : d = '\\' := by simpa using hs
        exact absurd (hcs _ List.mem_cons_self) (by decide)
    have ht := dropWhile_map_char (charIs continuesSymbol) hcs hstop
    simp only [String.reduceToList, List.mem_cons, List.not_mem_nil, or_false, not_or] at hm
    simp only [ofHead?, hm, hs, hd, hc, ht, if_false, if_true, Bool.false_eq_true, decide_false,
      Bool.or_self]
    rfl
  | int =>
    have hc := ha.2 c List.mem_cons_self
    obtain ⟨-, -, -, hm⟩ := isDigit_plain hc
    have ht := dropWhile_map_char (charIs isDigit)
      (fun d hd => ha.2 d (List.mem_cons_of_mem c hd)) (he (by decide))
    simp only [String.reduceToList, List.mem_cons, List.not_mem_nil, or_false, not_or] at hm
    simp only [ofHead?, hm, hc, ht, if_false, if_true, Bool.false_eq_true, decide_false,
      Bool.or_self]
    rfl
  | string =>
    obtain ⟨body, hb, hx⟩ := ha
    rw [List.cons_append] at hx
    obtain ⟨rfl, rfl⟩ := List.cons.inj hx
    have hd : (body ++ '"' :: rest).drop (body.length + 1) = rest := by simp [List.drop_append]
    have hs := afterString?_eq (body ++ '"' :: rest)
    rw [Lexeme.closingMark_append hb, Option.map_some, hd] at hs
    rw [List.append_assoc, List.singleton_append]
    simp only [ofHead?, hs]
    rfl
  | char =>
    obtain ⟨name, hn, hx⟩ := ha
    obtain ⟨rfl, rfl⟩ := List.cons.inj hx
    have he := he (by decide)
    rw [TokenKind.Ends, Lexeme.getLast?_literal hn] at he
    have ha := afterCharacter?_of_name hn he
    simp only [List.cons_append, List.map_cons, ofHead?, List.head?_cons, List.tail_cons, ha]
    rfl
  | comment =>
    obtain ⟨body, hb, hx⟩ := ha
    obtain ⟨rfl, rfl⟩ := List.cons.inj hx
    have hd : ((text ++ rest).map Piece.char).dropWhile (· ≠ .char '\n') = rest.map .char := by
      apply dropWhile_map_char
      · intro d hd
        have hne : d ≠ '\n' := fun h => hb (h ▸ hd)
        simpa using hne
      · intro d hd
        simpa using he (by decide) d hd
    simp only [ofHead?, hd]
    rfl
  | quote | openParen | closeParen | dot =>
    obtain ⟨rfl, rfl⟩ := List.cons.inj ha
    rfl
  | invalid | error | eof => exact ha.elim

theorem ofHead?_blank (h : isBlank c = true) (ps : List Piece) : ofHead? c ps = none := by
  obtain ⟨hc, hd, hl, -⟩ :=
    separates_plain (show separates c = true by rw [separates, h]; rfl)
  have hm : c ∉ ";\"()'.".toList := by
    intro hm
    have go : ";\"()'.".toList.all (fun c => !isBlank c) = true := by decide
    simpa [h] using List.all_eq_true.mp go c hm
  have hs : startsSymbol c = false := by
    simp only [continuesSymbol, Bool.or_eq_false_iff] at hc
    simp only [startsSymbol, hl, hc.2, Bool.or_self]
  simp only [String.reduceToList, List.mem_cons, List.not_mem_nil, or_false, not_or] at hm
  simp only [ofHead?, hm, hd, hs, if_false, Bool.false_eq_true, decide_false, Bool.or_self]

theorem all?_eq (ps : List Piece) :
    all? ps =
      match ps.dropWhile isGap with
      | [] => some []
      | .stray _ :: _ => none
      | .char c :: after => (ofHead? c after).bind fun r => (all? r.2).map (r.1 :: ·) := by
  rw [all?]
  split
  · rename_i hd
    simp only [hd]
  · rename_i hd
    simp only [hd]
  · rename_i hd
    simp only [hd]
    split
    · rename_i ho
      simp only [ho, Option.bind_none]
    · rename_i ho
      simp only [ho, Option.bind_some]

theorem all?_nil : all? [] = some [] := by
  rw [all?_eq, List.dropWhile_nil]

theorem all?_gap (h : isGap (.char c) = true) (ps : List Piece) :
    all? (.char c :: ps) = all? ps := by
  rw [all?_eq, List.dropWhile_cons_of_pos h, ← all?_eq]

theorem all?_cons (h : isGap (.char c) = false) (ps : List Piece) :
    all? (.char c :: ps) = (ofHead? c ps).bind fun r => (all? r.2).map (r.1 :: ·) := by
  rw [all?_eq, List.dropWhile_cons_of_neg (by simp [h])]

theorem all?_narrow (h : Narrow gap) (ps : List Piece) : all? (gap.map .char ++ ps) = all? ps := by
  induction gap with
  | nil => rfl
  | cons d gap ih =>
    rw [List.map_cons, List.cons_append, all?_gap (h d List.mem_cons_self)]
    exact ih fun e he => h e (List.mem_cons_of_mem d he)

/-- A blank that is not narrow belongs to no terminal. -/
theorem all?_wide (hb : Blank gap) (h : ¬ Narrow gap) (ps : List Piece) :
    all? (gap.map .char ++ ps) = none := by
  induction gap with
  | nil => exact absurd nofun h
  | cons d gap ih =>
    rw [List.map_cons, List.cons_append]
    cases hd : isGap (.char d) with
    | false =>
      rw [all?_cons hd, ofHead?_blank (hb d List.mem_cons_self)]
      rfl
    | true =>
      rw [all?_gap hd]
      refine ih (fun e he => hb e (List.mem_cons_of_mem d he)) fun hn => h fun e he => ?_
      rcases List.mem_cons.mp he with rfl | he
      · exact hd
      · exact hn e he

theorem isGap_of_not_blank (h : isBlank c = false) : isGap (.char c) = false := by
  have go : [' ', '\t', '\r', '\n'].all isBlank = true := by decide
  cases hg : isGap (.char c) with
  | false => rfl
  | true =>
    have hm : c ∈ [' ', '\t', '\r', '\n'] := by
      simpa [isGap, or_assoc] using hg
    rw [List.all_eq_true.mp go c hm] at h
    cases h

end Terminal

end SmallScheme
