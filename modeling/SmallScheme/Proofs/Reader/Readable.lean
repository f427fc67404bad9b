import SmallScheme.Proofs.Reader.Program
import SmallScheme.Proofs.Reader.Strings

/-!
# Readable values

`Value.Readable` describes the values that a text can denote, with a condition on strings left
open. Whatever the reader returns is readable with well-formed strings (`readable_of_readSource`):
tokens with texts of their classes spell nothing else.
-/

namespace SmallScheme

open Grammar
set_option autoImplicit false

namespace Text

/-- The name of an atom. -/
def IsSymbol (t : Text) : Prop := ∃ cs, t = ofChars cs ∧ SymbolName cs

/-- A well-formed text without quotation marks and backslashes. -/
def Plain (t : Text) : Prop := t.WellFormed ∧ 34 ∉ t ∧ 92 ∉ t

end Text

/-- The values that texts denote, with strings that satisfy a condition. -/
inductive Value.Readable (ok : Text → Prop) : Value → Prop where
  | number {n : Int64} : 0 ≤ n.toInt → Readable ok (.number n)
  | atom {t : Text} : t.IsSymbol → t ≠ .ofString "#t" → t ≠ .ofString "#f" → Readable ok (.atom t)
  | string {t : Text} : ok t → Readable ok (.string t)
  | char {c : Char} : (isLetter c || isDigit c || c = ' ' || c = '\n') = true →
      Readable ok (.char (.ofChar c))
  | bool (b : Bool) : Readable ok (.bool b)
  | list {vs : List Value} : (∀ v ∈ vs, Readable ok v) → Readable ok (.list vs)
  | dotted {vs : List Value} {v : Value} : (∀ u ∈ vs, Readable ok u) → Readable ok v →
      Readable ok (.dotted vs v)

namespace Grammar

theorem readable_of_literal {t : Token} {v : Value} (ht : t.Classed) (h : Literal t v) :
    v.Readable Text.WellFormed := by
  obtain ⟨cs, hx, ha⟩ := ht (not_final_of_begins h.begins)
  cases h with
  | number hk hn hs =>
    refine .number ?_
    rw [Int64.toInt_ofNat_of_lt (by omega)]
    exact Int.natCast_nonneg _
  | @string inner hk hi =>
    rw [hk] at ha
    obtain ⟨body, -, rfl⟩ := ha
    have he : inner = Text.ofChars body := by
      rw [hx, List.cons_append, Text.ofChars_cons, Text.ofChars_append] at hi
      exact (List.append_cancel_right (List.cons.inj hi).2).symm
    exact .string (he ▸ wellFormed_unescape body)
  | char hk hc =>
    rw [hk] at ha
    obtain ⟨name, hn, rfl⟩ := ha
    obtain ⟨d, hd, hr⟩ := exists_charLiteral hn
    rw [← hx] at hd
    obtain rfl := Option.some.inj (hc.literalChar?.symm.trans hd.literalChar?)
    exact .char hr
  | yes => exact .bool true
  | no => exact .bool false
  | atom hk h₁ h₂ =>
    rw [hk] at ha
    exact .atom ⟨cs, hx, ha⟩ h₁ h₂

mutual

/-- Tokens with texts of their classes spell readable values only. -/
theorem Spells.readable : ∀ {ts : List Token} {v : Value}, Spells ts v →
    (∀ t ∈ ts, t.Classed) → v.Readable Text.WellFormed
  | _, _, .literal h => fun hts => readable_of_literal (hts _ List.mem_cons_self) h
  | _, _, .quotation _ _ h => by
    intro hts
    have hv := h.readable fun t ht => hts t (List.mem_cons_of_mem _ ht)
    have hq : Text.IsSymbol (.ofString "quote") :=
      ⟨"quote".toList, rfl, symbolName_cons (by decide) (by decide)⟩
    refine .list fun u hu => ?_
    simp only [List.mem_cons, List.not_mem_nil, or_false] at hu
    rcases hu with hu | hu
    · exact hu ▸ .atom hq (by decide) (by decide)
    · exact hu ▸ hv
  | _, _, .list _ hi _ _ => by
    intro hts
    exact .list (hi.readable fun t ht => hts t (by simp [ht]))
  | _, _, .dotted _ hi _ _ _ _ h _ _ => by
    intro hts
    have hvs := hi.readable fun t ht => hts t (by simp [ht])
    exact .dotted hvs (h.readable fun t ht => hts t (by simp [ht]))

theorem Items.readable : ∀ {first : Bool} {ts : List Token} {vs : List Value}, Items first ts vs →
    (∀ t ∈ ts, t.Classed) → ∀ v ∈ vs, v.Readable Text.WellFormed
  | _, _, _, .nil _ => by simp
  | _, _, _, .cons _ _ h hi => by
    intro hts
    have hv := h.readable fun t ht => hts t (by simp only [List.mem_append]; exact .inr (.inl ht))
    have hvs := hi.readable fun t ht => hts t (by simp only [List.mem_append]; exact .inr (.inr ht))
    intro u hu
    rcases List.mem_cons.mp hu with hu | hu
    · exact hu ▸ hv
    · exact hvs u hu

end

end Grammar

namespace Reader

theorem fst_readSource (symbols : Option SymbolTable) (s : Source) :
    (readSource symbols s).1 =
      (program (.ofStream s.tokens symbols)).1.mapError Fault.toError := rfl

/-- A source is read, with any faithful table, where its tokens spell a program. -/
theorem readSource_eq_ok_iff {symbols : Option SymbolTable} (hf : SymbolTable.Faithful? symbols)
    {s : Source} {vs : List Value} :
    (readSource symbols s).1 = .ok vs ↔ Program s.tokens.pending vs := by
  rw [fst_readSource]
  constructor
  · intro h
    apply grammar_of_program hf s.sealed_tokens s.classed_of_mem_tokens
    cases hr : (program (.ofStream s.tokens symbols)).1 with
    | error f => rw [hr] at h; cases h
    | ok ws => rw [hr] at h; exact congrArg _ (Except.ok.inj h)
  · intro h
    have hv := program_of_grammar h s.tokens.repeated hf
    rw [hv]
    rfl

/-- Whatever is read from a source is readable. -/
theorem readable_of_readSource {symbols : Option SymbolTable}
    (hf : SymbolTable.Faithful? symbols) {s : Source} {vs : List Value}
    (h : (readSource symbols s).1 = .ok vs) : ∀ v ∈ vs, v.Readable Text.WellFormed := by
  obtain ⟨us, cs, e, ht, hi, -, -⟩ := (readSource_eq_ok_iff hf).mp h
  refine hi.readable fun t hm => s.classed_of_mem_tokens t ?_
  rw [ht]
  exact List.mem_append_left _ hm

end Reader

end SmallScheme
