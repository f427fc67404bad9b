import Mathlib.Data.Nat.Digits.Lemmas
import Mathlib.Tactic.Ring
import SmallScheme.Proofs.Reader.Grammar
import SmallScheme.Proofs.Text.Encoding
import SmallScheme.Proofs.Token.Stream
import SmallScheme.Reader.Faithful
import SmallScheme.Text.Decimal.Lemmas

/-!
# Literals

The reader gives a single token the value that the grammar gives it (`begin_literal`), and a token
with a text of its class is a literal unless it is a number that is too large (`exists_literal`).
-/

namespace SmallScheme

set_option autoImplicit false

namespace Decimal

theorem digitsFrom?_map_digit {ds : List Nat} (h : ∀ d ∈ ds, d < 10) (acc : Nat) :
    digitsFrom? acc (ds.map digit) =
      some (Nat.ofDigits 10 ds.reverse + acc * 10 ^ ds.length) := by
  induction ds generalizing acc with
  | nil => simp [digitsFrom?]
  | cons d ds ih =>
    have hd := Nat.mod_eq_of_lt (h d List.mem_cons_self)
    simp only [List.map_cons, digitsFrom?, digit?_digit, hd, Option.bind_some,
      ih fun e he => h e (List.mem_cons_of_mem d he), List.reverse_cons, Nat.ofDigits_append,
      Nat.ofDigits_singleton, List.length_reverse, List.length_cons]
    congr 1
    ring

theorem int?_map_digit {ds : List Nat} (hn : ds ≠ []) (h : ∀ d ∈ ds, d < 10) :
    int? (ds.map digit) = some (Int.ofNat (Nat.ofDigits 10 ds.reverse)) := by
  obtain ⟨d, es, rfl⟩ := List.exists_cons_of_ne_nil hn
  have hb : (digit d).toNat = 48 + d % 10 := by
    simp only [digit, UInt8.toNat_ofNat']
    omega
  have h43 : digit d ≠ 43 := fun he => by simp [he] at hb; omega
  have h45 : digit d ≠ 45 := fun he => by simp [he] at hb; omega
  have hv := digitsFrom?_map_digit h 0
  simp only [List.map_cons, Nat.zero_mul, Nat.add_zero] at hv
  simp only [List.map_cons, int?, h43, h45, if_false, digits?, hv, Option.map_some]

theorem word?_natCast (n : Nat) :
    word? (n : Int) = if n ≤ 2 ^ 63 - 1 then some (.ofNat n) else none := by
  simp only [word?, Int64.ofInt_eq_ofNat]
  by_cases hs : n ≤ 2 ^ 63 - 1
  · rw [if_pos hs, if_pos (by omega)]
  · rw [if_neg hs, if_neg (by omega)]

end Decimal

namespace Grammar

theorem Numeral.int64? {t : Text} {n : Nat} (h : Numeral t n) :
    Decimal.int64? t = if n ≤ 2 ^ 63 - 1 then some (.ofNat n) else none := by
  obtain ⟨ds, hn, hd, rfl, rfl⟩ := h
  rw [Decimal.int64?, Decimal.int?_map_digit hn hd, Option.bind_some]
  exact Decimal.word?_natCast _

theorem encode_of_isDigit {c : Char} (h : isDigit c = true) :
    Text.encode c = [Decimal.digit (c.toNat - 48)] ∧ c.toNat - 48 < 10 := by
  simp only [isDigit, Bool.and_eq_true, decide_eq_true_eq] at h
  have h₁ : 48 ≤ c.toNat := h.1
  have h₂ : c.toNat ≤ 57 := h.2
  refine ⟨?_, by omega⟩
  have hm : 48 + (c.toNat - 48) % 10 = c.toNat := by omega
  rw [Text.encode, if_pos (by omega), Decimal.digit, hm]

/-- A run of digits is a numeral. -/
theorem exists_numeral {cs : List Char} (hn : cs ≠ []) (h : ∀ c ∈ cs, isDigit c = true) :
    ∃ n, Numeral (Text.ofChars cs) n := by
  refine ⟨_, cs.map fun c => c.toNat - 48, by simpa using hn, ?_, ?_, rfl⟩
  · intro d hd
    obtain ⟨c, hc, rfl⟩ := List.mem_map.mp hd
    exact (encode_of_isDigit (h c hc)).2
  · clear hn
    induction cs with
    | nil => rfl
    | cons c cs ih =>
      rw [Text.ofChars_cons, (encode_of_isDigit (h c List.mem_cons_self)).1,
        ih fun d hd => h d (List.mem_cons_of_mem c hd)]
      rfl

theorem CharLiteral.literalChar? {t : Text} {c : Char} (h : CharLiteral t c) :
    literalChar? t = some c := by
  cases h with
  | space => rfl
  | newline => rfl
  | self c =>
    have hl := Text.length_encode_le c
    have hs : Text.encode c ≠ .ofString "space" := fun he => by
      rw [he] at hl; exact absurd hl (by decide)
    have hn : Text.encode c ≠ .ofString "newline" := fun he => by
      rw [he] at hl; exact absurd hl (by decide)
    have hp := Text.pieces_encode_append c []
    rw [List.append_nil] at hp
    have hd : (Text.ofString "#\\" ++ Text.encode c).drop 2 = Text.encode c := rfl
    simp only [SmallScheme.literalChar?, hd, hs, hn, if_false, hp, Text.pieces, Piece.shown]

theorem ofChars_charLiteral (c : Char) :
    Text.ofChars ['#', '\\', c] = Text.ofString "#\\" ++ Text.encode c := by
  rw [Text.ofChars_cons, Text.ofChars_cons, Text.ofChars_cons, Text.ofChars_nil, List.append_nil]
  rfl

theorem exists_charLiteral {name : List Char} (h : CharacterName name) :
    ∃ c, CharLiteral (Text.ofChars ('#' :: '\\' :: name)) c ∧
      (isLetter c || isDigit c || c = ' ' || c = '\n') = true := by
  rcases h with h | ⟨c, rfl, hc⟩
  · simp only [Lexeme.characterNames, List.mem_cons, List.not_mem_nil, or_false] at h
    rcases h with rfl | rfl
    · exact ⟨_, .space, by decide⟩
    · exact ⟨_, .newline, by decide⟩
  · exact ⟨c, ofChars_charLiteral c ▸ .self c, by rw [hc, Bool.true_or]⟩

theorem innerText_quoted (inner : Text) : innerText (34 :: inner ++ [34]) = inner := by
  simp [innerText]

/-- The reader gives a literal its value; its symbol table stays faithful. -/
theorem begin_literal {t : Token} {v : Value} (h : Literal t v) {symbols : Option SymbolTable}
    (hs : SymbolTable.Faithful? symbols) (within : List Reader.Context) :
    ∃ symbols', SymbolTable.Faithful? symbols' ∧
      Reader.begin symbols within t = .value v symbols' within := by
  have hf := Reader.faithful_begin hs within t
  suffices he : ∃ symbols', Reader.begin symbols within t = .value v symbols' within by
    obtain ⟨symbols', he⟩ := he
    rw [he] at hf
    exact ⟨symbols', hf, he⟩
  cases h with
  | number hk hn hs =>
    simp only [Reader.begin, hk, intValue, hn.int64?, if_pos hs, Reader.literal]
    exact ⟨_, rfl⟩
  | string hk ht =>
    simp only [Reader.begin, hk, ht, innerText_quoted]
    exact ⟨_, rfl⟩
  | char hk hc =>
    simp only [Reader.begin, hk, charValue, hc.literalChar?, Reader.literal]
    exact ⟨_, rfl⟩
  | yes hk ht =>
    simp only [Reader.begin, hk, ht, symbolValue, if_true]
    exact ⟨_, rfl⟩
  | no hk ht =>
    have hne : Text.ofString "#f" ≠ Text.ofString "#t" := by decide
    simp only [Reader.begin, hk, ht, symbolValue, hne, if_false, if_true]
    exact ⟨_, rfl⟩
  | atom hk h₁ h₂ =>
    simp only [Reader.begin, hk, symbolValue, h₁, h₂, if_false, SymbolTable.fst_intern? hs]
    exact ⟨_, rfl⟩

/-- The kinds of tokens that make an expression by themselves. -/
def single : TokenKind → Bool
  | .int | .string | .char | .symbol => true
  | _ => false

/-- A token with a text of its class is a literal, or the reader refuses it as too large. -/
theorem exists_literal {t : Token} (hs : single t.kind = true) (ht : t.Classed) :
    (∃ v, Literal t v) ∨
      ∀ symbols within, Reader.begin symbols within t = .refuse (.overflow t.text) := by
  obtain ⟨cs, hx, ha⟩ := ht (by cases hk : t.kind <;> simp_all [single, TokenKind.isFinal])
  cases hk : t.kind with
  | int =>
    rw [hk] at ha
    obtain ⟨n, hn⟩ := exists_numeral ha.1 ha.2
    rw [← hx] at hn
    by_cases hb : n ≤ 2 ^ 63 - 1
    · exact .inl ⟨_, .number hk hn hb⟩
    · refine .inr fun symbols within => ?_
      simp only [Reader.begin, hk, intValue, hn.int64?, if_neg hb, Reader.literal]
  | string =>
    rw [hk] at ha
    obtain ⟨body, -, rfl⟩ := ha
    refine .inl ⟨_, @Literal.string t (Text.ofChars body) hk ?_⟩
    rw [hx, List.cons_append, Text.ofChars_cons, Text.ofChars_append]
    rfl
  | char =>
    rw [hk] at ha
    obtain ⟨name, hn, rfl⟩ := ha
    obtain ⟨c, hc, -⟩ := exists_charLiteral hn
    exact .inl ⟨_, .char hk (hx ▸ hc)⟩
  | symbol =>
    by_cases h₁ : t.text = .ofString "#t"
    · exact .inl ⟨_, .yes hk h₁⟩
    by_cases h₂ : t.text = .ofString "#f"
    · exact .inl ⟨_, .no hk h₂⟩
    · exact .inl ⟨_, .atom hk h₁ h₂⟩
  | _ => simp [hk, single] at hs

end Grammar

end SmallScheme
