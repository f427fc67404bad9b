import SmallScheme.Proofs.Token.Classes

/-!
# Where a token ends

The lexical grammar takes as much as the class of a token admits. `TokenKind.Ends` says what must
stand behind a token for it to end there. A token is cut out of its class at a place where it ends
(`Lexeme.exists_token`), and a text of a class is found whole where it ends
(`Lexeme.ofHead_of_admits`).
-/

namespace SmallScheme

set_option autoImplicit false

/-- What must stand behind a text of a kind of token for the token to end there. -/
def TokenKind.Ends (kind : TokenKind) (text rest : List Char) : Prop :=
  match kind with
  | .symbol =>
    (∀ d ∈ rest.head?, continuesSymbol d = false) ∧ (text = ['#'] → rest.head? ≠ some '\\')
  | .int => ∀ d ∈ rest.head?, isDigit d = false
  | .char => (∃ d ∈ text.getLast?, isLetter d = true) → ∀ d ∈ rest.head?, isLetter d = false
  | .comment => ∀ d ∈ rest.head?, d = '\n'
  | .dot => ∃ d ∈ rest.head?, isBlank d = true
  | _ => True

namespace Lexeme

theorem takeWhile_append_stop {p : Char → Bool} {cs rest : List Char}
    (hcs : ∀ c ∈ cs, p c = true) (hr : ∀ d ∈ rest.head?, p d = false) :
    (cs ++ rest).takeWhile p = cs := by
  rw [List.takeWhile_append_of_pos hcs]
  cases rest with
  | nil => simp
  | cons d rest => simp [hr d rfl]

theorem head?_dropWhile {p : Char → Bool} {cs : List Char} :
    ∀ d ∈ (cs.dropWhile p).head?, p d = false := by
  intro d hd
  have h := List.head?_dropWhile_not p cs
  rw [Option.mem_def.mp hd] at h
  exact h

theorem drop_takeWhile (p : Char → Bool) (cs : List Char) :
    cs.drop (cs.takeWhile p).length = cs.dropWhile p := by
  calc cs.drop (cs.takeWhile p).length
    _ = (cs.takeWhile p ++ cs.dropWhile p).drop (cs.takeWhile p).length := by
      rw [List.takeWhile_append_dropWhile]
    _ = cs.dropWhile p := List.drop_left

theorem closingMark_le {cs : List Char} {n : Nat} (h : closingMark cs = some n) :
    n ≤ cs.length := by
  fun_induction closingMark cs generalizing n with
  | case1 => cases h
  | case2 => cases h; simp
  | case3 => cases h
  | case4 => cases h; simp
  | case5 d cs _ ih =>
    obtain ⟨m, hm, rfl⟩ := Option.map_eq_some_iff.mp h
    have := ih hm
    simp only [List.length_cons]
    omega
  | case6 c d cs _ _ ih =>
    obtain ⟨m, hm, rfl⟩ := Option.map_eq_some_iff.mp h
    have := ih hm
    simp only [List.length_cons] at this ⊢
    omega

theorem exists_character {cs : List Char} {kind : TokenKind} {size : Nat}
    (h : character cs = .token kind size) :
    kind = .char ∧ ∃ name rest, cs = name ++ rest ∧ size = name.length + 2 ∧ CharacterName name ∧
      ((∃ d ∈ name.getLast?, isLetter d = true) → ∀ d ∈ rest.head?, isLetter d = false) := by
  cases cs with
  | nil => simp [character] at h
  | cons c cs =>
    simp only [character] at h
    split at h
    · rename_i hc
      split at h
      · rename_i hn
        simp only [Lexeme.token.injEq] at h
        obtain ⟨rfl, rfl⟩ := h
        refine ⟨rfl, c :: cs.takeWhile isLetter, cs.dropWhile isLetter, ?_, rfl, ?_, ?_⟩
        · rw [List.cons_append, List.takeWhile_append_dropWhile]
        · rcases hn with hn | hn
          · have h0 : cs.takeWhile isLetter = [] := by
              apply List.eq_nil_of_length_eq_zero
              simpa using hn
            exact .inr ⟨c, by rw [h0], by simp [hc]⟩
          · exact .inl hn
        · intro _
          exact head?_dropWhile
      · simp at h
    · rename_i hl
      split at h
      · rename_i hc
        simp only [Lexeme.token.injEq] at h
        obtain ⟨rfl, rfl⟩ := h
        refine ⟨rfl, [c], cs, rfl, rfl, .inr ⟨c, rfl, ?_⟩, ?_⟩
        · rw [Bool.or_assoc, hc, Bool.or_true]
        · rintro ⟨d, hd, hld⟩
          obtain rfl : c = d := by simpa using hd
          exact absurd hld hl
      · simp at h

theorem ne_nil_of_characterName {name : List Char} (h : CharacterName name) : name ≠ [] := by
  rcases h with h | ⟨c, rfl, -⟩
  · rintro rfl
    revert h
    decide
  · simp

theorem getLast?_literal {name : List Char} (h : CharacterName name) :
    ('#' :: '\\' :: name).getLast? = name.getLast? := by
  obtain ⟨c, cs, rfl⟩ := List.exists_cons_of_ne_nil (ne_nil_of_characterName h)
  rw [List.getLast?_cons_cons, List.getLast?_cons_cons]

/-- A token is cut out of its class, at a place where it ends. -/
theorem exists_token {c : Char} {cs : List Char} {kind : TokenKind} {size : Nat}
    (h : ofHead c cs = .token kind size) :
    ∃ text rest, cs = text ++ rest ∧ size = text.length + 1 ∧ kind.Admits (c :: text) ∧
      kind.Ends (c :: text) rest := by
  unfold ofHead at h
  split at h
  · cases h; subst c; exact ⟨[], cs, rfl, rfl, rfl, trivial⟩
  split at h
  · cases h; subst c; exact ⟨[], cs, rfl, rfl, rfl, trivial⟩
  split at h
  · cases h; subst c; exact ⟨[], cs, rfl, rfl, rfl, trivial⟩
  split at h
  · cases h; subst c
    refine ⟨cs.takeWhile (· ≠ '\n'), cs.dropWhile (· ≠ '\n'),
      List.takeWhile_append_dropWhile.symm, Nat.add_comm _ _, ⟨_, fun hm => ?_, rfl⟩,
      fun d hd => ?_⟩
    · simpa using of_mem_takeWhile hm
    · simpa using head?_dropWhile d hd
  split at h
  · split at h
    · rename_i hb
      cases h; subst c
      cases cs with
      | nil => simp at hb
      | cons d cs => exact ⟨[], d :: cs, rfl, rfl, rfl, d, rfl, by simpa using hb⟩
    · simp at h
  split at h
  · split at h
    · rename_i n hn
      cases h; subst c
      obtain ⟨body, hb, ht⟩ := take_closingMark hn
      have hl := congrArg List.length ht
      rw [List.length_take_of_le (closingMark_le hn), List.length_append] at hl
      refine ⟨body ++ ['"'], cs.drop n, ?_, ?_, ⟨body, hb, rfl⟩, trivial⟩
      · rw [← ht, List.take_append_drop]
      · rw [List.length_append, ← hl, Nat.add_comm]
    · simp at h
  split at h
  · rename_i hc
    obtain ⟨rfl, hs⟩ := hc
    cases cs with
    | nil => simp at hs
    | cons d cs =>
      obtain rfl : d = '\\' := by simpa using hs
      obtain ⟨rfl, name, rest, rfl, rfl, hn, he⟩ := exists_character h
      refine ⟨'\\' :: name, rest, rfl, rfl, ⟨name, hn, rfl⟩, ?_⟩
      rw [← getLast?_literal hn] at he
      exact he
  split at h
  · rename_i hc
    cases h
    refine ⟨cs.takeWhile isDigit, cs.dropWhile isDigit, List.takeWhile_append_dropWhile.symm,
      Nat.add_comm _ _, ⟨by simp, fun d hd => ?_⟩, head?_dropWhile⟩
    rcases List.mem_cons.mp hd with rfl | hd
    · exact hc
    · exact of_mem_takeWhile hd
  split at h
  · rename_i hh _ hc
    cases h
    refine ⟨cs.takeWhile continuesSymbol, cs.dropWhile continuesSymbol,
      List.takeWhile_append_dropWhile.symm, Nat.add_comm _ _,
      ⟨c, _, rfl, hc, fun d hd => of_mem_takeWhile hd⟩, head?_dropWhile, ?_⟩
    intro ht hd
    obtain ⟨rfl, hn⟩ := List.cons.inj ht
    have hcs := List.takeWhile_append_dropWhile (p := continuesSymbol) (l := cs)
    rw [hn, List.nil_append] at hcs
    rw [hcs] at hd
    exact hh ⟨rfl, hd⟩
  · simp at h

/-- The name of a character consists of letters, or it is a digit or the space. -/
theorem letters_of_characterName {name : List Char} (h : CharacterName name) :
    (∃ c ds, name = c :: ds ∧ ∀ d ∈ c :: ds, isLetter d = true) ∨
      ∃ c, name = [c] ∧ isLetter c = false ∧ (isDigit c || c = ' ') = true := by
  have words : characterNames.all (fun cs => !cs.isEmpty && cs.all isLetter) = true := by decide
  rcases h with h | ⟨c, rfl, hc⟩
  · have hw := List.all_eq_true.mp words _ h
    simp only [Bool.and_eq_true, Bool.not_eq_true', List.isEmpty_eq_false_iff,
      List.all_eq_true] at hw
    obtain ⟨c, ds, rfl⟩ := List.exists_cons_of_ne_nil hw.1
    exact .inl ⟨c, ds, rfl, hw.2⟩
  · cases hl : isLetter c with
    | true => exact .inl ⟨c, [], rfl, by simpa using hl⟩
    | false =>
      rw [hl, Bool.false_or] at hc
      exact .inr ⟨c, rfl, hl, hc⟩

theorem stop_of_letters {c : Char} {ds rest : List Char} (hl : ∀ d ∈ c :: ds, isLetter d = true)
    (he : (∃ d ∈ (c :: ds).getLast?, isLetter d = true) → ∀ d ∈ rest.head?, isLetter d = false) :
    ∀ d ∈ rest.head?, isLetter d = false :=
  he ⟨_, List.getLast?_eq_some_getLast (List.cons_ne_nil c ds), hl _ (List.getLast_mem _)⟩

theorem character_of_name {name rest : List Char} (hn : CharacterName name)
    (he : (∃ d ∈ name.getLast?, isLetter d = true) → ∀ d ∈ rest.head?, isLetter d = false) :
    character (name ++ rest) = .token .char (name.length + 2) := by
  rcases letters_of_characterName hn with ⟨c, ds, rfl, hl⟩ | ⟨c, rfl, hl, hc⟩
  · have hds := takeWhile_append_stop (fun d hd => hl d (List.mem_cons_of_mem c hd))
      (stop_of_letters hl he)
    have hw : (c :: ds).length = 1 ∨ c :: ds ∈ characterNames := by
      rcases hn with hn | ⟨d, hd, -⟩
      · exact .inr hn
      · exact .inl (by rw [hd]; rfl)
    simp only [List.cons_append, character, hl c List.mem_cons_self, hds, hw, if_true]
  · simp [character, hl, hc]

/-- A text of a class is found whole where it ends. -/
theorem ofHead_of_admits {c : Char} {text rest : List Char} {kind : TokenKind}
    (ha : kind.Admits (c :: text)) (he : kind.Ends (c :: text) rest) :
    ofHead c (text ++ rest) = .token kind (text.length + 1) := by
  cases kind with
  | symbol =>
    obtain ⟨_, _, hx, hc, hcs⟩ := ha
    obtain ⟨rfl, rfl⟩ := List.cons.inj hx
    obtain ⟨hd, -, hm⟩ := startsSymbol_plain hc
    have hs : ¬ (c = '#' ∧ (text ++ rest).head? = some '\\') := by
      rintro ⟨rfl, hs⟩
      cases text with
      | nil => exact he.2 rfl hs
      | cons d text =>
        obtain rfl := Option.some.inj hs
        exact absurd (hcs _ List.mem_cons_self) (by decide)
    have ht := takeWhile_append_stop hcs he.1
    simp only [String.reduceToList, List.mem_cons, List.not_mem_nil, or_false, not_or] at hm
    simp only [ofHead, hm, hs, hd, hc, ht, if_false, if_true, Bool.false_eq_true, Nat.add_comm]
  | int =>
    have hc := ha.2 c List.mem_cons_self
    obtain ⟨-, -, -, hm⟩ := isDigit_plain hc
    have ht := takeWhile_append_stop (fun d hd => ha.2 d (List.mem_cons_of_mem c hd)) he
    simp only [String.reduceToList, List.mem_cons, List.not_mem_nil, or_false, not_or] at hm
    simp only [ofHead, hm, hc, ht, false_and, if_false, if_true, Nat.add_comm]
  | string =>
    obtain ⟨body, hb, hx⟩ := ha
    obtain ⟨rfl, rfl⟩ := List.cons.inj hx
    simp [ofHead, closingMark_append hb, Nat.add_comm]
  | char =>
    obtain ⟨name, hn, hx⟩ := ha
    obtain ⟨rfl, rfl⟩ := List.cons.inj hx
    rw [TokenKind.Ends, getLast?_literal hn] at he
    simp [ofHead, character_of_name hn he]
  | comment =>
    obtain ⟨body, hb, hx⟩ := ha
    obtain ⟨rfl, rfl⟩ := List.cons.inj hx
    have ht : (text ++ rest).takeWhile (· ≠ '\n') = text := by
      apply takeWhile_append_stop
      · intro d hd
        have hne : d ≠ '\n' := fun h => hb (h ▸ hd)
        simpa using hne
      · intro d hd
        simpa using he d hd
    simp only [ofHead, ht, Nat.add_comm]
    rfl
  | dot =>
    obtain ⟨rfl, rfl⟩ := List.cons.inj ha
    obtain ⟨d, hd, hb⟩ := he
    simp [ofHead, Option.mem_def.mp hd, hb]
  | quote | openParen | closeParen =>
    obtain ⟨rfl, rfl⟩ := List.cons.inj ha
    rfl
  | invalid | error | eof => exact ha.elim

section Apart

variable {c : Char} {cs rest : List Char}

theorem ends_of_plain {kind : TokenKind} (hd : kind ≠ .dot) (hk : kind ≠ .comment)
    (hr : ∀ d ∈ rest.head?,
      continuesSymbol d = false ∧ isDigit d = false ∧ isLetter d = false ∧ d ≠ '\\') :
    kind.Ends cs rest := by
  cases kind with
  | symbol => exact ⟨fun d h => (hr d h).1, fun _ h => (hr _ h).2.2.2 rfl⟩
  | int => exact fun d h => (hr d h).2.1
  | char => exact fun _ d h => (hr d h).2.2.1
  | comment => exact absurd rfl hk
  | dot => exact absurd rfl hd
  | _ => trivial

theorem ends_of_apart {kind : TokenKind} (hd : kind ≠ .dot) (hk : kind ≠ .comment)
    (hr : Apart rest) : kind.Ends cs rest :=
  ends_of_plain hd hk fun d h => separates_plain (hr d h)

theorem ofHead_symbol (hc : startsSymbol c = true) (hcs : ∀ d ∈ cs, continuesSymbol d = true)
    (hr : Apart rest) : ofHead c (cs ++ rest) = .token .symbol (1 + cs.length) := by
  rw [Nat.add_comm]
  exact ofHead_of_admits ⟨c, cs, rfl, hc, hcs⟩ (ends_of_apart nofun nofun hr)

theorem ofHead_int (hcs : ∀ d ∈ c :: cs, isDigit d = true) (hr : Apart rest) :
    ofHead c (cs ++ rest) = .token .int (1 + cs.length) := by
  rw [Nat.add_comm]
  exact ofHead_of_admits ⟨by simp, hcs⟩ (ends_of_apart nofun nofun hr)

theorem ofHead_string (h : StringBody cs) (rest : List Char) :
    ofHead '"' (cs ++ '"' :: rest) = .token .string (1 + (cs.length + 1)) := by
  simp [ofHead, closingMark_append h rest]

theorem ofHead_character (h : CharacterName cs) (hr : Apart rest) :
    ofHead '#' ('\\' :: cs ++ rest) = .token .char (cs.length + 2) :=
  ofHead_of_admits ⟨cs, h, rfl⟩ (ends_of_apart nofun nofun hr)

theorem ofHead_dot (h : cs.head?.any isBlank = true) : ofHead '.' cs = .token .dot 1 := by
  simp [ofHead, h]

end Apart

end Lexeme

end SmallScheme
