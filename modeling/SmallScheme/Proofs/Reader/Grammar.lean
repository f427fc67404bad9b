import Mathlib.Data.Nat.Digits.Defs
import SmallScheme.Reader.Literal

/-!
# The grammar of programs

A grammar over tokens, said without the reader: which tokens spell which values. Comments may stand
before an element of a list, before its dot, its tail and its end, and anywhere between the
expressions of a program; a quotation mark touches what it quotes.
-/

namespace SmallScheme.Grammar

set_option autoImplicit false

/-- Decimal digits, the most significant first, and the number that they denote. -/
def Numeral (t : Text) (n : Nat) : Prop :=
  ∃ ds : List Nat, ds ≠ [] ∧ (∀ d ∈ ds, d < 10) ∧ t = ds.map Decimal.digit ∧
    n = Nat.ofDigits 10 ds.reverse

/-- The literal of a character: a name, or the character itself. -/
inductive CharLiteral : Text → Char → Prop where
  | space : CharLiteral (.ofString "#\\space") ' '
  | newline : CharLiteral (.ofString "#\\newline") '\n'
  | self (c : Char) : CharLiteral (.ofString "#\\" ++ Text.encode c) c

/-- The value of a single token. -/
inductive Literal : Token → Value → Prop where
  | number {t : Token} {n : Nat} :
      t.kind = .int → Numeral t.text n → n ≤ 2 ^ 63 - 1 → Literal t (.number (.ofNat n))
  | string {t : Token} {inner : Text} :
      t.kind = .string → t.text = 34 :: inner ++ [34] → Literal t (.string (unescape inner))
  | char {t : Token} {c : Char} :
      t.kind = .char → CharLiteral t.text c → Literal t (.char (.ofChar c))
  | yes {t : Token} : t.kind = .symbol → t.text = .ofString "#t" → Literal t (.bool true)
  | no {t : Token} : t.kind = .symbol → t.text = .ofString "#f" → Literal t (.bool false)
  | atom {t : Token} : t.kind = .symbol → t.text ≠ .ofString "#t" → t.text ≠ .ofString "#f" →
      Literal t (.atom t.text)

def Comments (cs : List Token) : Prop := ∀ c ∈ cs, c.kind = .comment

mutual

/-- The tokens of one expression and its value. -/
inductive Spells : List Token → Value → Prop where
  | literal {t : Token} {v : Value} : Literal t v → Spells [t] v
  | quotation {q t : Token} {ts : List Token} {v : Value} :
      q.kind = .quote → t.spaced = false → Spells (t :: ts) v → Spells (q :: t :: ts) v.quoted
  | list {l r : Token} {ts cs : List Token} {vs : List Value} :
      l.kind = .openParen → Items true ts vs → Comments cs → r.kind = .closeParen →
      Spells (l :: (ts ++ (cs ++ [r]))) (.list vs)
  | dotted {l d r : Token} {ts cs cs₁ us cs₂ : List Token} {vs : List Value} {v : Value} :
      l.kind = .openParen → Items true ts vs → Comments cs →
      d.kind = .dot → (vs ≠ [] → d.spaced = true) →
      Comments cs₁ → Spells us v → Comments cs₂ → r.kind = .closeParen →
      Spells (l :: (ts ++ (cs ++ d :: (cs₁ ++ (us ++ (cs₂ ++ [r])))))) (.dotted vs v)

/-- Expressions one after another, with comments before them. Each is set apart from what precedes
it, the first only where `first` does not excuse it. -/
inductive Items : Bool → List Token → List Value → Prop where
  | nil (first : Bool) : Items first [] []
  | cons {first : Bool} {cs ts us : List Token} {t : Token} {v : Value} {vs : List Value} :
      Comments cs → (first = false → t.spaced = true) → Spells (t :: ts) v → Items false us vs →
      Items first (cs ++ (t :: ts ++ us)) (v :: vs)

end

/-- A program: expressions, comments and the end of the input. -/
def Program (ts : List Token) (vs : List Value) : Prop :=
  ∃ us cs e, ts = us ++ (cs ++ [e]) ∧ Items true us vs ∧ Comments cs ∧ e.kind = .eof

/-- Expressions and comments behind them. -/
def Forms (first : Bool) (ts : List Token) (vs : List Value) : Prop :=
  ∃ us cs, ts = us ++ cs ∧ Items first us vs ∧ Comments cs

theorem program_concat {ts : List Token} {e : Token} {vs : List Value} :
    Program (ts ++ [e]) vs ↔ Forms true ts vs ∧ e.kind = .eof := by
  constructor
  · rintro ⟨us, cs, e', hp, hi, hc, he⟩
    obtain ⟨rfl, he'⟩ := List.append_inj' (hp.trans (List.append_assoc us cs [e']).symm) rfl
    exact ⟨⟨us, cs, rfl, hi, hc⟩, (List.cons.inj he').1 ▸ he⟩
  · rintro ⟨⟨us, cs, rfl, hi, hc⟩, he⟩
    exact ⟨us, cs, e, List.append_assoc us cs [e], hi, hc, he⟩

/-- The kinds of tokens with which an expression begins. -/
def begins : TokenKind → Bool
  | .int | .string | .char | .symbol | .quote | .openParen => true
  | _ => false

theorem Literal.begins {t : Token} {v : Value} (h : Literal t v) : begins t.kind = true := by
  cases h with
  | number hk | string hk | char hk | yes hk | no hk | atom hk => rw [hk]; rfl

theorem Spells.begins {t : Token} {ts : List Token} {v : Value} (h : Spells (t :: ts) v) :
    begins t.kind = true := by
  cases h with
  | literal h => exact h.begins
  | quotation hk | list hk | dotted hk => rw [hk]; rfl

theorem Spells.exists_cons {ts : List Token} {v : Value} (h : Spells ts v) :
    ∃ t us, ts = t :: us := by
  cases h with
  | literal | quotation | list | dotted => exact ⟨_, _, rfl⟩

theorem not_final_of_begins {k : TokenKind} (h : begins k = true) : k.isFinal = false := by
  cases k <;> simp_all [Grammar.begins, TokenKind.isFinal]

theorem Comments.not_final {cs : List Token} (h : Comments cs) :
    ∀ t ∈ cs, t.kind.isFinal = false := by
  intro t ht
  rw [h t ht]
  rfl

theorem Comments.nil : Comments [] := fun _ h => absurd h List.not_mem_nil

theorem Comments.cons {c : Token} {cs : List Token} (hc : c.kind = .comment) (h : Comments cs) :
    Comments (c :: cs) := by
  intro d hd
  rcases List.mem_cons.mp hd with rfl | hd
  · exact hc
  · exact h d hd

/-- A comment in front belongs to the first expression, if there is one. -/
theorem Items.comment {first : Bool} {c : Token} {ts : List Token} {vs : List Value}
    (hc : c.kind = .comment) (h : Items first ts vs) :
    Items first (c :: ts) vs ∨ ts = [] ∧ vs = [] := by
  cases h with
  | nil => exact .inr ⟨rfl, rfl⟩
  | cons hcs ht hv hi => exact .inl (.cons (hcs.cons hc) ht hv hi)

mutual

/-- No final token stands inside an expression. -/
theorem Spells.not_final : ∀ {ts : List Token} {v : Value}, Spells ts v →
    ∀ t ∈ ts, t.kind.isFinal = false
  | _, _, .literal h => by
    intro t ht
    obtain rfl := List.mem_singleton.mp ht
    exact not_final_of_begins h.begins
  | _, _, .quotation hq _ h => by
    intro t ht
    rcases List.mem_cons.mp ht with rfl | ht
    · rw [hq]; rfl
    · exact h.not_final t ht
  | _, _, .list hl hi hc hr => by
    intro t ht
    simp only [List.mem_cons, List.mem_append, List.not_mem_nil, or_false] at ht
    rcases ht with rfl | ht | ht | rfl
    · rw [hl]; rfl
    · exact hi.not_final t ht
    · exact hc.not_final t ht
    · rw [hr]; rfl
  | _, _, .dotted hl hi hc hd _ hc₁ h hc₂ hr => by
    intro t ht
    simp only [List.mem_cons, List.mem_append, List.not_mem_nil, or_false] at ht
    rcases ht with rfl | ht | ht | rfl | ht | ht | ht | rfl
    · rw [hl]; rfl
    · exact hi.not_final t ht
    · exact hc.not_final t ht
    · rw [hd]; rfl
    · exact hc₁.not_final t ht
    · exact h.not_final t ht
    · exact hc₂.not_final t ht
    · rw [hr]; rfl

theorem Items.not_final : ∀ {first : Bool} {ts : List Token} {vs : List Value},
    Items first ts vs → ∀ t ∈ ts, t.kind.isFinal = false
  | _, _, _, .nil _ => by simp
  | _, _, _, .cons hc _ h hi => by
    intro t ht
    rcases List.mem_append.mp ht with ht | ht
    · exact hc.not_final t ht
    · rcases List.mem_append.mp ht with ht | ht
      · exact h.not_final t ht
      · exact hi.not_final t ht

end

end SmallScheme.Grammar
