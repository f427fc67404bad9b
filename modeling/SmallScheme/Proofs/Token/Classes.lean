import SmallScheme.Token.Lexeme

/-!
# Classes of token texts

Each kind of token has a class of texts, `TokenKind.Admits`. The classes keep apart: no character
that begins a token of one kind is blank or begins a token of another kind.
-/

namespace SmallScheme

set_option autoImplicit false

/-- The blank characters. -/
def blanks : List Char := ['\t', '\n', '\x0b', '\x0c', '\r', ' '] ++ wideBlanks

theorem mem_blanks {c : Char} (h : isBlank c = true) : c ∈ blanks := by
  unfold isBlank at h
  split at h
  · simp only [Bool.or_eq_true, beq_iff_eq, Bool.and_eq_true, decide_eq_true_eq] at h
    rcases h with rfl | ⟨h₁, h₂⟩
    · decide
    · have h₁ : 9 ≤ c.toNat := h₁
      have h₂ : c.toNat ≤ 13 := h₂
      rw [← Char.ofNat_toNat c]
      obtain h | h | h | h | h : c.toNat = 9 ∨ c.toNat = 10 ∨ c.toNat = 11 ∨ c.toNat = 12 ∨
        c.toNat = 13 := by omega
      all_goals rw [h]; decide
  · exact List.mem_append_right _ (List.contains_iff_mem.mp h)

theorem mem_digits {c : Char} (h : isDigit c = true) : c ∈ "0123456789".toList := by
  simp only [isDigit, Bool.and_eq_true, decide_eq_true_eq] at h
  have h₁ : 48 ≤ c.toNat := h.1
  have h₂ : c.toNat ≤ 57 := h.2
  rw [← Char.ofNat_toNat c]
  obtain h | h | h | h | h | h | h | h | h | h : c.toNat = 48 ∨ c.toNat = 49 ∨ c.toNat = 50 ∨
    c.toNat = 51 ∨ c.toNat = 52 ∨ c.toNat = 53 ∨ c.toNat = 54 ∨ c.toNat = 55 ∨ c.toNat = 56 ∨
    c.toNat = 57 := by omega
  all_goals rw [h]; decide

theorem isDigit_ofNat {n : Nat} (h₁ : 48 ≤ n) (h₂ : n ≤ 57) : isDigit (Char.ofNat n) = true := by
  obtain rfl | rfl | rfl | rfl | rfl | rfl | rfl | rfl | rfl | rfl : n = 48 ∨ n = 49 ∨ n = 50 ∨
    n = 51 ∨ n = 52 ∨ n = 53 ∨ n = 54 ∨ n = 55 ∨ n = 56 ∨ n = 57 := by omega
  all_goals decide

theorem isDigit_plain {c : Char} (h : isDigit c = true) :
    startsSymbol c = false ∧ isLetter c = false ∧ isBlank c = false ∧ c ∉ "()';.\"#".toList := by
  have go : "0123456789".toList.all (fun c => startsSymbol c = false ∧ isLetter c = false ∧
      isBlank c = false ∧ c ∉ "()';.\"#".toList) = true := by decide
  exact of_decide_eq_true (List.all_eq_true.mp go c (mem_digits h))

/-- The characters that end a token of any kind: the blanks and the closing parenthesis. -/
def separates (c : Char) : Bool := isBlank c || c = ')'

/-- A text that cannot extend a token in front of it. -/
def Apart (rest : List Char) : Prop := ∀ c ∈ rest.head?, separates c = true

theorem separates_plain {c : Char} (h : separates c = true) :
    continuesSymbol c = false ∧ isDigit c = false ∧ isLetter c = false ∧ c ≠ '\\' := by
  have go : (')' :: blanks).all (fun c => continuesSymbol c = false ∧ c ≠ '\\') = true := by
    decide +kernel
  have hm : c ∈ ')' :: blanks := by
    simp only [separates, Bool.or_eq_true, decide_eq_true_eq] at h
    rcases h with h | rfl
    · exact List.mem_cons_of_mem _ (mem_blanks h)
    · exact List.mem_cons_self
  obtain ⟨hc, hs⟩ := of_decide_eq_true (List.all_eq_true.mp go c hm)
  have hc' := hc
  simp only [continuesSymbol, Bool.or_eq_false_iff] at hc'
  exact ⟨hc, hc'.1.2, hc'.1.1, hs⟩

theorem startsSymbol_plain {c : Char} (h : startsSymbol c = true) :
    isDigit c = false ∧ isBlank c = false ∧ c ∉ "()';.\"".toList := by
  have marks : "()';.\"".toList.all (!startsSymbol ·) = true := by decide
  refine ⟨?_, ?_, ?_⟩
  · cases hd : isDigit c with
    | false => rfl
    | true => simp [(isDigit_plain hd).1] at h
  · cases hb : isBlank c with
    | false => rfl
    | true =>
      have hc := (separates_plain (show separates c = true by rw [separates, hb]; rfl)).1
      simp only [startsSymbol, Bool.or_eq_true] at h
      simp only [continuesSymbol, Bool.or_eq_false_iff] at hc
      rcases h with h | h
      · rw [hc.1.1] at h
        exact h.symm
      · rw [hc.2] at h
        exact h.symm
  · intro hm
    simpa [h] using List.all_eq_true.mp marks c hm

/-- The characters of a symbol. -/
def SymbolName (cs : List Char) : Prop :=
  ∃ c rest, cs = c :: rest ∧ startsSymbol c = true ∧ ∀ d ∈ rest, continuesSymbol d = true

theorem symbolName_cons {c : Char} {cs : List Char} (hc : startsSymbol c = true)
    (h : cs.all continuesSymbol = true) : SymbolName (c :: cs) :=
  ⟨c, cs, rfl, hc, List.all_eq_true.mp h⟩

/-- The characters between the quotation marks of a string: every backslash has a partner, and no
other mark stands among them. -/
inductive StringBody : List Char → Prop where
  | nil : StringBody []
  | plain {c : Char} {cs : List Char} :
      c ≠ '"' → c ≠ '\\' → StringBody cs → StringBody (c :: cs)
  | escape {c : Char} {cs : List Char} : StringBody cs → StringBody ('\\' :: c :: cs)

/-- What may stand behind the `#\` of a character literal. -/
def CharacterName (cs : List Char) : Prop :=
  cs ∈ Lexeme.characterNames ∨ ∃ c, cs = [c] ∧ (isLetter c || isDigit c || c = ' ') = true

/-- The texts that a kind of token has. A final token stands for no text of the source. -/
def TokenKind.Admits : TokenKind → List Char → Prop
  | .symbol, cs => SymbolName cs
  | .int, cs => cs ≠ [] ∧ ∀ c ∈ cs, isDigit c = true
  | .string, cs => ∃ body, StringBody body ∧ cs = '"' :: body ++ ['"']
  | .char, cs => ∃ name, CharacterName name ∧ cs = '#' :: '\\' :: name
  | .comment, cs => ∃ body, '\n' ∉ body ∧ cs = ';' :: body
  | .quote, cs => cs = ['\'']
  | .dot, cs => cs = ['.']
  | .openParen, cs => cs = ['(']
  | .closeParen, cs => cs = [')']
  | .invalid, _ | .error, _ | .eof, _ => False

namespace Lexeme

theorem take_closingMark {cs : List Char} {n : Nat} (h : closingMark cs = some n) :
    ∃ body, StringBody body ∧ cs.take n = body ++ ['"'] := by
  fun_induction closingMark cs generalizing n with
  | case1 => simp at h
  | case2 =>
    obtain rfl := Option.some.inj h
    exact ⟨[], .nil, rfl⟩
  | case3 => simp at h
  | case4 =>
    obtain rfl := Option.some.inj h
    exact ⟨[], .nil, rfl⟩
  | case5 d cs _ ih =>
    obtain ⟨m, hm, rfl⟩ := Option.map_eq_some_iff.mp h
    obtain ⟨body, hb, ht⟩ := ih hm
    exact ⟨'\\' :: d :: body, .escape hb, by simp [ht]⟩
  | case6 c d cs hq hs ih =>
    obtain ⟨m, hm, rfl⟩ := Option.map_eq_some_iff.mp h
    obtain ⟨body, hb, ht⟩ := ih hm
    exact ⟨c :: body, .plain hq hs hb, by simp [ht]⟩

theorem closingMark_append {body : List Char} (h : StringBody body) (rest : List Char) :
    closingMark (body ++ '"' :: rest) = some (body.length + 1) := by
  induction h with
  | nil => cases rest <;> simp [closingMark]
  | @plain c cs hq hs _ ih =>
    cases cs with
    | nil => simpa [closingMark, hq, hs] using ih
    | cons d cs => simpa [closingMark, hq, hs] using ih
  | escape _ ih => simp [closingMark, ih]

theorem of_mem_takeWhile {p : Char → Bool} {cs : List Char} {c : Char}
    (h : c ∈ cs.takeWhile p) : p c = true :=
  List.all_eq_true.mp (List.all_takeWhile) c h

end Lexeme

end SmallScheme
