import SmallScheme.Proofs.Reader.Readable
import SmallScheme.Value.Printer

/-!
# Reading what was written

The written form of a readable value is cut into tokens that spell the value, wherever a blank, a
closing parenthesis or the end of the source follows it. So written values with spaces between them
are read back, and nothing but readable values is ever read.
-/

namespace SmallScheme

open Grammar
set_option autoImplicit false

namespace Lexer

variable {lx : Lexer} {spaced : Bool} {ending : Ending} {gap ds rest : List Char} {c : Char}
  {kind : TokenKind}

theorem emits_token (h : lx.Stands spaced ending (gap ++ (c :: ds ++ rest)))
    (hg : ∀ d ∈ gap, isBlank d = true) (hc : isBlank c = false)
    (ho : Lexeme.ofHead c (ds ++ rest) = .token kind (1 + ds.length))
    (hf : kind.isFinal = false) (hk : kind ≠ .comment) :
    ∃ t last, lx.Emits [t] last ∧ last.Stands false ending rest ∧ t.kind = kind ∧
      t.text = Text.ofChars (c :: ds) ∧ t.spaced = (spaced || !gap.isEmpty) := by
  rw [List.cons_append] at h
  obtain ⟨source, ht, hs⟩ := next_token h hg hc ho
  have hl : 1 + ds.length = (c :: ds).length := Nat.add_comm 1 ds.length
  have htake : (c :: (ds ++ rest)).take (1 + ds.length) = c :: ds := by
    rw [hl, ← List.cons_append, List.take_left]
  have hdrop : (c :: (ds ++ rest)).drop (1 + ds.length) = rest := by
    rw [hl, ← List.cons_append, List.drop_left]
  rw [htake] at ht
  rw [hdrop, decide_eq_false hk] at hs
  refine ⟨lx.next.1, lx.next.2, .cons ?_ (.nil _), hs, ?_, ?_, ?_⟩
  · rw [ht]; exact hf
  · rw [ht]
  · rw [ht]
  · rw [ht]

end Lexer

/-- Characters that lexers cut into tokens of a value, behind blanks and before a text that is
apart. -/
def Scanned (cs : List Char) (v : Value) : Prop :=
  ∀ ⦃lx : Lexer⦄ ⦃spaced : Bool⦄ ⦃ending : Ending⦄ ⦃gap rest : List Char⦄,
    lx.Stands spaced ending (gap ++ (cs ++ rest)) → (∀ d ∈ gap, isBlank d = true) → Apart rest →
    ∃ t ts last, lx.Emits (t :: ts) last ∧ last.Stands false ending rest ∧ Spells (t :: ts) v ∧
      t.spaced = (spaced || !gap.isEmpty)

/-- Characters that lexers cut into tokens of values one after another. Nothing is asked of what
follows where there are no values. -/
def ScannedItems (first : Bool) (cs : List Char) (vs : List Value) : Prop :=
  ∀ ⦃lx : Lexer⦄ ⦃ending : Ending⦄ ⦃rest : List Char⦄, lx.Stands false ending (cs ++ rest) →
    vs = [] ∨ Apart rest →
    ∃ ts last, lx.Emits ts last ∧ last.Stands false ending rest ∧ Items first ts vs

theorem apart_blank {c : Char} (h : isBlank c = true) (cs : List Char) : Apart (c :: cs) := by
  intro d hd
  obtain rfl := Option.some.inj hd
  rw [separates, h, Bool.true_or]

theorem apart_close (cs : List Char) : Apart (')' :: cs) := by
  intro d hd
  obtain rfl := Option.some.inj hd
  rfl

theorem blank_of_mem_space : ∀ d ∈ [' '], isBlank d = true :=
  List.all_eq_true.mp (by decide)

section Single

variable {c : Char} {ds : List Char} {kind : TokenKind} {v : Value}

theorem scanned_of_literal (hc : isBlank c = false)
    (ho : ∀ rest, Apart rest → Lexeme.ofHead c (ds ++ rest) = .token kind (1 + ds.length))
    (hl : ∀ t : Token, t.kind = kind → t.text = Text.ofChars (c :: ds) → Literal t v)
    (hf : kind.isFinal = false) (hk : kind ≠ .comment) : Scanned (c :: ds) v := by
  intro lx spaced ending gap rest h hg hr
  obtain ⟨t, last, he, hs, htk, htx, hts⟩ := Lexer.emits_token h hg hc (ho rest hr) hf hk
  exact ⟨t, [], last, he, hs, .literal (hl t htk htx), hts⟩

theorem scanned_symbol {cs : List Char} (hcs : SymbolName cs)
    (hl : ∀ t : Token, t.kind = .symbol → t.text = Text.ofChars cs → Literal t v) :
    Scanned cs v := by
  obtain ⟨c, ds, rfl, hc, hds⟩ := hcs
  exact scanned_of_literal (startsSymbol_plain hc).2.1
    (fun rest hr => Lexeme.ofHead_symbol hc hds hr) hl rfl (by decide)

theorem scanned_bool (b : Bool) :
    ∃ cs, (Value.bool b).render = Text.ofChars cs ∧ Scanned cs (.bool b) := by
  cases b with
  | true =>
    refine ⟨['#', 't'], by decide, scanned_symbol (symbolName_cons (by decide) (by decide)) ?_⟩
    exact fun t hk hx => .yes hk hx
  | false =>
    refine ⟨['#', 'f'], by decide, scanned_symbol (symbolName_cons (by decide) (by decide)) ?_⟩
    exact fun t hk hx => .no hk hx

theorem exists_digits {n : Int64} (hn : 0 ≤ n.toInt) :
    ∃ cs, Decimal.ofInt n.toInt = Text.ofChars cs ∧ cs ≠ [] ∧ ∀ c ∈ cs, isDigit c = true := by
  obtain ⟨m, hm⟩ := Int.eq_ofNat_of_zero_le hn
  have hd := Decimal.digit_of_mem_ofNat m
  refine ⟨(Decimal.ofNat m).map fun b => Char.ofNat b.toNat, ?_, ?_, ?_⟩
  · rw [hm]
    exact (Text.ofChars_map_ofNat fun b hb => by have := (hd b hb).2; omega).symm
  · simpa using Decimal.ofNat_ne_nil m
  · intro c hc
    obtain ⟨b, hb, rfl⟩ := List.mem_map.mp hc
    exact isDigit_ofNat (hd b hb).1 (hd b hb).2

theorem scanned_number {n : Int64} (hn : 0 ≤ n.toInt) :
    ∃ cs, (Value.number n).render = Text.ofChars cs ∧ Scanned cs (.number n) := by
  obtain ⟨cs, hx, hne, hd⟩ := exists_digits hn
  refine ⟨cs, by rw [Value.render, Value.write, List.append_nil, hx], ?_⟩
  obtain ⟨m, hm⟩ := exists_numeral hne hd
  -- The digits read back as the number, so the number is the value of the numeral.
  have hv : (if m ≤ 2 ^ 63 - 1 then some (Int64.ofNat m) else none) = some n := by
    rw [← hm.int64?, ← hx, Decimal.int64?_ofInt]
  have hb : m ≤ 2 ^ 63 - 1 := by
    by_cases hb : m ≤ 2 ^ 63 - 1
    · exact hb
    · rw [if_neg hb] at hv
      cases hv
  rw [if_pos hb] at hv
  obtain rfl := Option.some.inj hv
  obtain ⟨c, ds, rfl⟩ := List.exists_cons_of_ne_nil hne
  refine scanned_of_literal (isDigit_plain (hd c List.mem_cons_self)).2.2.1
    (fun rest hr => Lexeme.ofHead_int hd hr) ?_ rfl (by decide)
  exact fun t hk ht => .number hk (ht ▸ hm) hb

/-- Characters of a string between quotation marks are read for their text with the escapes
resolved. -/
theorem scanned_body {body : List Char} (h : StringBody body) :
    Scanned ('"' :: (body ++ ['"'])) (.string (unescape (Text.ofChars body))) := by
  refine scanned_of_literal (by decide) (fun rest _ => ?_) (fun t hk hx => ?_)
    (show TokenKind.string.isFinal = false from rfl) (by decide)
  · have ho := Lexeme.ofHead_string h rest
    simpa using ho
  · have hw : Text.ofChars ('"' :: (body ++ ['"'])) = 34 :: Text.ofChars body ++ [34] := by
      rw [Text.ofChars_cons, Text.ofChars_append]
      rfl
    exact .string hk (hx.trans hw)

theorem scanned_string {t : Text} (ht : t.Plain) :
    ∃ cs, (Value.string t).render = Text.ofChars cs ∧ Scanned cs (.string t) := by
  obtain ⟨⟨body, rfl⟩, hq, hb⟩ := ht
  refine ⟨'"' :: (body ++ ['"']), ?_, ?_⟩
  · rw [Value.render, Value.write, Text.ofChars_cons, Text.ofChars_append]
    rfl
  · have h := scanned_body (stringBody_of_plain hq hb)
    rwa [unescape_eq_self hb] at h

theorem exists_characterName {c : Char}
    (hc : (isLetter c || isDigit c || c = ' ' || c = '\n') = true) :
    ∃ name, CharacterName name ∧ Value.charLiteral c = Text.ofChars ('#' :: '\\' :: name) ∧
      CharLiteral (Text.ofChars ('#' :: '\\' :: name)) c := by
  by_cases hs : c = ' '
  · subst hs
    exact ⟨"space".toList, .inl (by decide), by decide, .space⟩
  by_cases hn : c = '\n'
  · subst hn
    exact ⟨"newline".toList, .inl (by decide), by decide, .newline⟩
  · have hx := ofChars_charLiteral c
    refine ⟨[c], .inr ⟨c, rfl, by simpa [hn] using hc⟩, ?_, hx ▸ .self c⟩
    rw [Value.charLiteral, if_neg hs, if_neg hn, hx]

theorem scanned_char {c : Char} (hc : (isLetter c || isDigit c || c = ' ' || c = '\n') = true) :
    ∃ cs, (Value.char (.ofChar c)).render = Text.ofChars cs ∧ Scanned cs (.char (.ofChar c)) := by
  obtain ⟨name, hn, hx, hl⟩ := exists_characterName hc
  refine ⟨'#' :: '\\' :: name, ?_, ?_⟩
  · rw [Value.render, Value.write, CodePoint.shown_ofChar, List.append_nil, hx]
  · refine scanned_of_literal (by decide) (fun rest hr => ?_)
      (fun t hk ht => .char hk (ht ▸ hl)) rfl (by decide)
    rw [Lexeme.ofHead_character hn hr, List.length_cons, Nat.add_comm 1]

end Single

section Nested

variable {vs : List Value} {v : Value}

theorem exists_scannedMore
    (h : ∀ v ∈ vs, ∃ cs, v.render = Text.ofChars cs ∧ Scanned cs v) :
    ∃ cs, (∀ t, Value.writeMore vs t = Text.ofChars cs ++ t) ∧ ScannedItems false cs vs ∧
      ∀ rest, Apart rest → Apart (cs ++ rest) := by
  induction vs with
  | nil =>
    refine ⟨[], fun _ => rfl, ?_, fun rest hr => hr⟩
    intro lx ending rest hs _
    exact ⟨[], lx, .nil lx, hs, .nil false⟩
  | cons v vs ih =>
    obtain ⟨cs, hx, hv⟩ := h v List.mem_cons_self
    obtain ⟨ds, hy, hvs, hd⟩ := ih fun w hw => h w (List.mem_cons_of_mem v hw)
    refine ⟨' ' :: (cs ++ ds), fun t => ?_, ?_, fun rest _ => apart_blank (by decide) _⟩
    · rw [Value.writeMore, Value.write_eq, hx, hy, Text.ofChars_cons, Text.ofChars_append,
        List.append_assoc, List.append_assoc]
      rfl
    · intro lx ending rest hs hr
      have hr : Apart rest := hr.resolve_left (List.cons_ne_nil v vs)
      have hs' : lx.Stands false ending ([' '] ++ (cs ++ (ds ++ rest))) := by
        simpa using hs
      obtain ⟨t, ts, mid, he, hm, hsp, ht⟩ := hv hs' blank_of_mem_space (hd rest hr)
      obtain ⟨us, last, he', hl, hi⟩ := hvs hm (.inr hr)
      exact ⟨_, last, he.append he', hl, .cons .nil (fun _ => ht) hsp hi⟩

/-- Characters of one value are characters of a sequence of one value. -/
theorem Scanned.single {cs : List Char} (h : Scanned cs v) : ScannedItems true cs [v] := by
  intro lx ending rest hs hr
  have hr : Apart rest := hr.resolve_left (List.cons_ne_nil v [])
  have hs' : lx.Stands false ending ([] ++ (cs ++ rest)) := hs
  obtain ⟨t, ts, last, he, hl, hsp, -⟩ := h hs' (by simp) hr
  exact ⟨_, last, he.append (.nil last), hl, .cons .nil (fun h => by cases h) hsp (.nil false)⟩

theorem exists_scannedItems
    (h : ∀ v ∈ vs, ∃ cs, v.render = Text.ofChars cs ∧ Scanned cs v) :
    ∃ cs, (∀ t, Value.writeItems vs t = Text.ofChars cs ++ t) ∧ ScannedItems true cs vs := by
  cases vs with
  | nil =>
    refine ⟨[], fun _ => rfl, ?_⟩
    intro lx ending rest hs _
    exact ⟨[], lx, .nil lx, hs, .nil true⟩
  | cons v vs =>
    obtain ⟨cs, hx, hv⟩ := h v List.mem_cons_self
    obtain ⟨ds, hy, hvs, hd⟩ := exists_scannedMore fun w hw => h w (List.mem_cons_of_mem v hw)
    refine ⟨cs ++ ds, fun t => ?_, ?_⟩
    · rw [Value.writeItems, Value.write_eq, hx, hy, Text.ofChars_append, List.append_assoc]
    · intro lx ending rest hs hr
      have hr : Apart rest := hr.resolve_left (List.cons_ne_nil v vs)
      have hs' : lx.Stands false ending ([] ++ (cs ++ (ds ++ rest))) := by
        simpa only [List.nil_append, List.append_assoc] using hs
      obtain ⟨t, ts, mid, he, hm, hsp, -⟩ := hv hs' (by simp) (hd rest hr)
      obtain ⟨us, last, he', hl, hi⟩ := hvs hm (.inr hr)
      exact ⟨_, last, he.append he', hl, .cons .nil (fun h => by cases h) hsp hi⟩

theorem scanned_list {cs : List Char} (h : ScannedItems true cs vs) :
    Scanned ('(' :: (cs ++ [')'])) (.list vs) := by
  intro lx spaced ending gap rest hs hg _
  have hs' : lx.Stands spaced ending (gap ++ (['('] ++ (cs ++ ')' :: rest))) := by
    simpa using hs
  obtain ⟨l, mid, he, hm, hlk, -, hls⟩ := Lexer.emits_token hs' hg (by decide) rfl rfl (by decide)
  obtain ⟨ts, mid', he', hm', hi⟩ := h hm (.inr (apart_close rest))
  have hm'' : mid'.Stands false ending ([] ++ ([')'] ++ rest)) := hm'
  obtain ⟨r, last, he'', hl, hrk, -, -⟩ :=
    Lexer.emits_token hm'' (by simp) (by decide) rfl rfl (by decide)
  exact ⟨l, ts ++ ([] ++ [r]), last, he.append (he'.append he''), hl, .list hlk hi .nil hrk, hls⟩

theorem scanned_dotted {cs ds gap : List Char} (h : ScannedItems true cs vs) (h' : Scanned ds v)
    (hg : ∀ d ∈ gap, isBlank d = true) (hv : vs = [] ∨ gap ≠ []) :
    Scanned ('(' :: (cs ++ (gap ++ '.' :: ' ' :: (ds ++ [')'])))) (.dotted vs v) := by
  intro lx spaced ending before rest hs hb _
  have hs₁ : lx.Stands spaced ending
      (before ++ (['('] ++ (cs ++ (gap ++ '.' :: ' ' :: (ds ++ ')' :: rest))))) := by
    simpa using hs
  obtain ⟨l, lx₁, he₁, hm₁, hlk, -, hls⟩ := Lexer.emits_token hs₁ hb (by decide) rfl rfl (by decide)
  have ha : vs = [] ∨ Apart (gap ++ '.' :: ' ' :: (ds ++ ')' :: rest)) := by
    rcases hv with hv | hv
    · exact .inl hv
    · obtain ⟨g, gs, rfl⟩ := List.exists_cons_of_ne_nil hv
      exact .inr (apart_blank (hg g List.mem_cons_self) _)
  obtain ⟨ts, lx₂, he₂, hm₂, hi⟩ := h hm₁ ha
  have hs₃ : lx₂.Stands false ending (gap ++ (['.'] ++ ' ' :: (ds ++ ')' :: rest))) := hm₂
  obtain ⟨d, lx₃, he₃, hm₃, hdk, -, hds⟩ :=
    Lexer.emits_token hs₃ hg (by decide) (Lexeme.ofHead_dot rfl) rfl (by decide)
  have hs₄ : lx₃.Stands false ending ([' '] ++ (ds ++ ')' :: rest)) := hm₃
  obtain ⟨u, us, lx₄, he₄, hm₄, hsp, -⟩ := h' hs₄ blank_of_mem_space (apart_close rest)
  have hs₅ : lx₄.Stands false ending ([] ++ ([')'] ++ rest)) := hm₄
  obtain ⟨r, last, he₅, hl, hrk, -, -⟩ :=
    Lexer.emits_token hs₅ (by simp) (by decide) rfl rfl (by decide)
  have hd : vs ≠ [] → d.spaced = true := by
    intro hn
    rw [hds, List.isEmpty_eq_false_iff.mpr (hv.resolve_left hn)]
    rfl
  exact ⟨l, _, last, he₁.append (he₂.append (he₃.append (he₄.append he₅))), hl,
    .dotted hlk hi .nil hdk hd .nil hsp .nil hrk, hls⟩

/-- The dot of a dotted list is set apart from the elements before it. -/
theorem exists_gap (vs : List Value) (v : Value) :
    ∃ gap, (∀ d ∈ gap, isBlank d = true) ∧ (vs = [] ∨ gap ≠ []) ∧ (Value.dotted vs v).write [] =
      40 :: Value.writeItems vs (Text.ofChars gap ++ 46 :: 32 :: v.write [41]) := by
  cases vs with
  | nil => exact ⟨[], by simp, .inl rfl, rfl⟩
  | cons => exact ⟨[' '], blank_of_mem_space, .inr (by simp), rfl⟩

/-- The written form of a readable value spells the value. -/
theorem Value.Readable.scanned (h : v.Readable Text.Plain) :
    ∃ cs, v.render = Text.ofChars cs ∧ Scanned cs v := by
  induction h with
  | number hn => exact scanned_number hn
  | atom hs h₁ h₂ =>
    obtain ⟨cs, rfl, hcs⟩ := hs
    refine ⟨cs, by rw [render, write, List.append_nil], scanned_symbol hcs fun t hk hx => ?_⟩
    rw [← hx] at h₁ h₂ ⊢
    exact .atom hk h₁ h₂
  | string ht => exact scanned_string ht
  | char hc => exact scanned_char hc
  | bool b => exact scanned_bool b
  | list _ ih =>
    obtain ⟨cs, hx, hi⟩ := exists_scannedItems ih
    refine ⟨'(' :: (cs ++ [')']), ?_, scanned_list hi⟩
    rw [render, write, hx, Text.ofChars_cons, Text.ofChars_append]
    rfl
  | @dotted vs v _ _ ih ih' =>
    obtain ⟨cs, hx, hi⟩ := exists_scannedItems ih
    obtain ⟨ds, hy, hv⟩ := ih'
    obtain ⟨gap, hg, hn, hw⟩ := exists_gap vs v
    refine ⟨'(' :: (cs ++ (gap ++ '.' :: ' ' :: (ds ++ [')']))), ?_, scanned_dotted hi hv hg hn⟩
    rw [render, hw, hx, write_eq, hy]
    simp only [Text.ofChars_cons, Text.ofChars_append]
    rfl

theorem join_render (vs : List Value) :
    Text.join (.ofString " ") (vs.map Value.render) = Value.renderAll vs := by
  induction vs with
  | nil => rfl
  | cons v vs ih =>
    cases vs with
    | nil => rfl
    | cons w vs =>
      rw [Value.renderAll, Value.writeItems, Value.writeMore, Value.write_eq]
      rw [Value.renderAll, Value.writeItems] at ih
      rw [List.map_cons, List.map_cons, Text.join, ← List.map_cons, ih, List.append_assoc]
      rfl

end Nested

namespace Reader

/-- Characters that are cut into tokens of values are a program of these values. -/
theorem readNamed_of_scannedItems {symbols : Option SymbolTable}
    (hf : SymbolTable.Faithful? symbols) (name : Text) {cs : List Char} {vs : List Value}
    (h : ScannedItems true cs vs) :
    (readNamed symbols name (Text.ofChars cs)).1 = .ok vs := by
  have hs : Source.ofText name (Text.ofChars cs) none = ⟨name, cs, .complete⟩ := by
    simp only [Source.ofText, Text.chars_ofChars, Text.firstStray?_ofChars]
  have hl : (Lexer.ofSource ⟨name, cs, .complete⟩).Stands false .complete (cs ++ []) := by
    rw [List.append_nil]
    exact Lexer.stands_ofSource _
  obtain ⟨ts, last, he, hr, hi⟩ := h hl (.inr (by simp [Apart]))
  have hk := Lexer.next_end hr (by simp)
  have hp : Program (Source.mk name cs .complete).tokens.pending vs := by
    refine ⟨ts, [], last.next.1, ?_, hi, .nil, hk⟩
    rw [Source.tokens, he.pending_eq, Lexer.pending_tokens_final (by rw [hk]; rfl)]
    rfl
  rw [readNamed, hs, fst_readSource]
  have hv := program_of_grammar hp (Source.mk name cs .complete).tokens.repeated hf
  rw [hv]
  rfl

/-- Written values are read back under any name and with any faithful table. -/
theorem readNamed_renderAll {symbols : Option SymbolTable} (hf : SymbolTable.Faithful? symbols)
    (name : Text) (vs : List Value) (h : ∀ v ∈ vs, v.Readable Text.Plain) :
    (readNamed symbols name (Value.renderAll vs)).1 = .ok vs := by
  obtain ⟨cs, hx, hi⟩ := exists_scannedItems fun v hv => (h v hv).scanned
  rw [Value.renderAll, hx, List.append_nil]
  exact readNamed_of_scannedItems hf name hi

theorem readAll_of_scannedItems {cs : List Char} {vs : List Value}
    (h : ScannedItems true cs vs) : readAll (Text.ofChars cs) = .ok vs :=
  readNamed_of_scannedItems SymbolTable.faithful?_empty [] h

/-- Written values are read back, and nothing but readable values is read. -/
theorem readAll_render :
    (∀ vs : List Value, (∀ v ∈ vs, v.Readable Text.Plain) →
      readAll (Text.join (.ofString " ") (vs.map Value.render)) = .ok vs) ∧
    ∀ (t : Text) (vs : List Value), readAll t = .ok vs →
      ∀ v ∈ vs, v.Readable Text.WellFormed := by
  refine ⟨fun vs h => ?_, fun t vs h => readable_of_readSource SymbolTable.faithful?_empty h⟩
  obtain ⟨cs, hx, hi⟩ := exists_scannedItems fun v hv => (h v hv).scanned
  rw [join_render, Value.renderAll, hx, List.append_nil]
  exact readAll_of_scannedItems hi

theorem readAll_render_dotted :
    readAll (.ofString "(x . \"a b\")") =
      .ok [.dotted [.atom (.ofString "x")] (.string (.ofString "a b"))] := by
  have hx : Text.IsSymbol (.ofString "x") := ⟨['x'], rfl, symbolName_cons (by decide) (by decide)⟩
  have hv : (Value.dotted [.atom (.ofString "x")] (.string (.ofString "a b"))).Readable Text.Plain
      := by
    refine .dotted (fun u hu => ?_) (.string ⟨⟨"a b".toList, rfl⟩, by decide, by decide⟩)
    rw [List.mem_singleton.mp hu]
    exact .atom hx (by decide) (by decide)
  have hr := readAll_render.1 [_] fun u hu => List.mem_singleton.mp hu ▸ hv
  have ht : Text.join (.ofString " ") ([Value.dotted [.atom (.ofString "x")]
      (.string (.ofString "a b"))].map Value.render) = .ofString "(x . \"a b\")" := by decide
  rwa [ht] at hr

end Reader

end SmallScheme
