import Mathlib.Data.List.Infix
import SmallScheme.Proofs.Reader.Comments
import SmallScheme.Proofs.Reader.Pending
import SmallScheme.Proofs.Reader.Unfinished

/-!
# Texts that can be continued

Where anything behind a text makes it a program, one of a few short endings and closing parentheses
do (`Reader.readAll_append_iff`). The ending completes the token that the end of the text cuts, or
it gives a quotation mark or a dot a symbol. Whether a text can be continued at all is another
question than whether it awaits more.
-/

namespace SmallScheme

set_option autoImplicit false

open Grammar

section Prefixes

/-- The beginning of a string can be closed, unless it ends with a backslash. -/
theorem StringBody.of_append {cs ds : List Char} (h : StringBody (cs ++ ds)) :
    StringBody cs ∨ StringBody (cs ++ ['"']) := by
  generalize he : cs ++ ds = xs at h
  induction h generalizing cs with
  | nil =>
    obtain ⟨rfl, -⟩ := List.append_eq_nil_iff.mp he
    exact .inl .nil
  | @plain c xs hq hs _ ih =>
    cases cs with
    | nil => exact .inl .nil
    | cons d cs =>
      obtain ⟨rfl, hxs⟩ := List.cons.inj he
      exact (ih hxs).imp (.plain hq hs) (.plain hq hs)
  | @escape c xs _ ih =>
    cases cs with
    | nil => exact .inl .nil
    | cons d cs =>
      obtain ⟨rfl, hd⟩ := List.cons.inj he
      cases cs with
      | nil => exact .inr (.escape .nil)
      | cons e cs =>
        obtain ⟨rfl, hxs⟩ := List.cons.inj hd
        exact (ih hxs).imp .escape .escape

/-- The first digits of a numeral denote no larger number. -/
theorem Grammar.Numeral.of_append {t u : Text} {n : Nat} (h : Numeral (t ++ u) n) (ht : t ≠ []) :
    ∃ m ≤ n, Numeral t m := by
  obtain ⟨ds, -, hd, he, rfl⟩ := h
  obtain ⟨as, bs, rfl, rfl, rfl⟩ := List.append_eq_map_iff.mp he
  refine ⟨_, ?_, as, ?_, ?_, rfl, rfl⟩
  · rw [List.reverse_append, Nat.ofDigits_append]
    have hpos : 0 < 10 ^ bs.reverse.length := Nat.pow_pos (by omega)
    have hle := Nat.le_mul_of_pos_left (Nat.ofDigits 10 as.reverse) hpos
    omega
  · rintro rfl
    exact ht rfl
  · intro d h
    exact hd d (List.mem_append_left bs h)

theorem TokenKind.ends_before_lineFeed (kind : TokenKind) (text rest : List Char) :
    kind.Ends text ('\n' :: rest) := by
  by_cases hd : kind = .dot
  · subst hd
    exact ⟨'\n', rfl, by decide⟩
  by_cases hk : kind = .comment
  · subst hk
    intro d h
    exact (Option.some.inj h).symm
  apply Lexeme.ends_of_apart hd hk
  intro d h
  rw [← Option.some.inj h]
  decide

theorem SymbolName.of_append {cs ds : List Char} (h : SymbolName (cs ++ ds)) (hn : cs ≠ []) :
    SymbolName cs := by
  obtain ⟨c, rest, he, hc, hrest⟩ := h
  obtain ⟨d, cs, rfl⟩ := List.exists_cons_of_ne_nil hn
  obtain ⟨rfl, rfl⟩ := List.cons.inj he
  exact ⟨d, cs, rfl, hc, fun e h => hrest e (List.mem_append_left ds h)⟩

end Prefixes

/-- A token, no comment, that characters spell behind blanks. -/
structure Token.Spelled (spaced : Bool) (gap : List Char) (c : Char) (text : List Char)
    (t : Token) : Prop where
  blank : Blank gap
  admits : t.kind.Admits (c :: text)
  kind_ne : t.kind ≠ .comment
  text_eq : t.text = Text.ofChars (c :: text)
  spaced_eq : t.spaced = (spaced || !gap.isEmpty)

section Tokens

variable {gap text rest cs : List Char} {c : Char} {kind : TokenKind} {t : Token} {ts : List Token}
  {spaced : Bool}

theorem Token.Spelled.unplaced_eq (h : t.Spelled spaced gap c text) : t.unplaced = Token.unplaced
    ⟨t.kind, Text.ofChars (c :: text), ⟨[], 0, 0, 0⟩, spaced || !gap.isEmpty⟩ := by
  rw [← h.text_eq, ← h.spaced_eq]
  rfl

theorem bareTokens_cons (ht : t.Spelled spaced gap c text) (he : t.kind.Ends (c :: text) rest)
    (h : bareTokens false rest = some (ts.map Token.unplaced)) :
    bareTokens spaced (gap ++ c :: (text ++ rest)) = some ((t :: ts).map Token.unplaced) := by
  have hk : t.unplaced.kind ≠ .comment := ht.kind_ne
  rw [bareTokens_token ht.blank ht.admits he, decide_eq_false ht.kind_ne, h, ← ht.unplaced_eq,
    uncommented_cons hk]
  rfl

theorem exists_cons_of_bareTokens (hg : Blank gap) (ha : kind.Admits (c :: text))
    (he : kind.Ends (c :: text) rest) (hk : kind ≠ .comment)
    (h : bareTokens spaced (gap ++ c :: (text ++ rest)) = some (ts.map Token.unplaced)) :
    ∃ t us, ts = t :: us ∧ t.kind = kind ∧ t.Spelled spaced gap c text ∧
      bareTokens false rest = some (us.map Token.unplaced) := by
  rw [bareTokens_token hg ha he, decide_eq_false hk, uncommented_cons hk] at h
  obtain ⟨ws, hw, hts⟩ := Option.map_eq_some_iff.mp h
  obtain ⟨t, us, rfl, ht, rfl⟩ := List.map_eq_cons_iff.mp hts.symm
  obtain ⟨hkind, htext, hspaced⟩ := Token.eq_of_unplaced ht
  exact ⟨t, us, rfl, hkind, ⟨hg, by rwa [hkind], by rwa [hkind], htext, hspaced⟩, hw⟩

/-- The first token behind white space is set apart. -/
theorem spaced_of_bareTokens (h : bareTokens true cs = some (ts.map Token.unplaced)) :
    ∀ t ∈ ts.head?, t.spaced = true := by
  induction cs using split_induction generalizing ts with
  | blank cs hb =>
    rw [bareTokens_blank hb] at h
    obtain rfl := List.map_eq_nil_iff.mp (Option.some.inj h).symm
    intro t ht
    cases ht
  | unlexed gap c cs hg hc =>
    rw [bareTokens_unlexed hg hc] at h
    cases h
  | token gap c text rest kind hg ha he ih =>
    by_cases hk : kind = .comment
    · subst hk
      obtain ⟨body, hb, hx⟩ := ha
      obtain ⟨rfl, rfl⟩ := List.cons.inj hx
      rw [bareTokens_comment hg hb he] at h
      exact ih h
    · obtain ⟨t, us, rfl, -, ht, -⟩ := exists_cons_of_bareTokens hg ha he hk h
      intro u hu
      obtain rfl := Option.some.inj hu
      exact ht.spaced_eq

theorem apart_closing (k : Nat) : Apart (List.replicate k ')') := by
  intro c hc
  rw [List.eq_of_mem_replicate (List.mem_of_mem_head? hc)]
  decide

end Tokens

/-- The characters of a text that begins a well-formed one. A character that is cut is completed. -/
theorem Text.exists_chars {t u : Text} {es : List Char} (h : t ++ u = Text.ofChars es) :
    ∃ cs ds x, es = cs ++ ds ∧ t ++ x = Text.ofChars cs ∧ x.length ≤ 3 ∧
      cs.length ≤ t.length := by
  induction es generalizing t with
  | nil =>
    obtain ⟨rfl, -⟩ := List.append_eq_nil_iff.mp h
    exact ⟨[], [], [], rfl, rfl, Nat.zero_le _, Nat.zero_le _⟩
  | cons e es ih =>
    by_cases ht : t = []
    · subst ht
      exact ⟨[], e :: es, [], rfl, rfl, Nat.zero_le _, Nat.zero_le _⟩
    have htl := List.length_pos_iff.mpr ht
    have hel := length_encode_le e
    rw [ofChars_cons] at h
    rcases List.append_eq_append_iff.mp h with ⟨x, hx, -⟩ | ⟨t', rfl, hes⟩
    · refine ⟨[e], es, x, rfl, ?_, ?_, htl⟩
      · rw [ofChars_cons, ofChars_nil, List.append_nil, hx]
      · rw [hx, List.length_append] at hel
        omega
    · obtain ⟨cs, ds, x, rfl, hx, hxl, hl⟩ := ih hes.symm
      refine ⟨e :: cs, ds, x, rfl, ?_, hxl, ?_⟩
      · rw [List.append_assoc, hx, ofChars_cons]
      · have := List.length_pos_iff.mpr (encode_ne_nil e)
        rw [List.length_append, List.length_cons]
        omega

namespace Reader

/-- What completes a text but for its closing parentheses. -/
def endings : List (List Char) :=
  ["", "\n", "a", "\na", "\"", "\"\""].map String.toList ++ Lexeme.characterNames.flatMap List.tails

section Closing

theorem exists_closers (spaced : Bool) (k : Nat) : ∃ cl, Closers k cl ∧
    bareTokens spaced (List.replicate k ')') = some (cl.map Token.unplaced) := by
  induction k generalizing spaced with
  | zero => exact ⟨[], ⟨rfl, nofun⟩, bareTokens_blank .nil spaced⟩
  | succ k ih =>
    obtain ⟨cl, ⟨hl, hk⟩, hb⟩ := ih false
    let r : Token := ⟨.closeParen, Text.ofChars [')'], ⟨[], 0, 0, 0⟩, spaced⟩
    have hr : r.Spelled spaced [] ')' [] := ⟨.nil, rfl, nofun, rfl, (Bool.or_false spaced).symm⟩
    refine ⟨r :: cl, ⟨congrArg (· + 1) hl, ?_⟩, bareTokens_cons hr trivial hb⟩
    exact List.forall_mem_cons.mpr ⟨rfl, hk⟩

/-- A symbol that may stand where an expression is awaited. -/
def filler (spaced : Bool) : Token := ⟨.symbol, Text.ofChars ['a'], ⟨[], 0, 0, 0⟩, spaced⟩

theorem literal_filler (spaced : Bool) : Literal (filler spaced) (.atom (Text.ofChars ['a'])) := by
  have ht : Text.ofChars ['a'] ≠ Text.ofString "#t" := by decide
  have hf : Text.ofChars ['a'] ≠ Text.ofString "#f" := by decide
  exact .atom rfl ht hf

theorem bareTokens_filler (spaced : Bool) (k : Nat) : ∃ cl, Closers k cl ∧
    bareTokens spaced ('a' :: List.replicate k ')') =
      some ((filler spaced :: cl).map Token.unplaced) := by
  obtain ⟨cl, hcl, hb⟩ := exists_closers false k
  have ha : TokenKind.symbol.Admits ['a'] := ⟨'a', [], rfl, by decide, nofun⟩
  have he := @Lexeme.ends_of_apart ['a'] _ .symbol nofun nofun (apart_closing k)
  have ht : (filler spaced).Spelled spaced [] 'a' [] :=
    ⟨.nil, ha, nofun, rfl, (Bool.or_false spaced).symm⟩
  exact ⟨cl, hcl, bareTokens_cons ht he hb⟩

end Closing

/-- Characters among which no token begins, if a line break follows them. -/
def Idle (cs : List Char) : Prop :=
  ∀ spaced more, bareTokens spaced (cs ++ '\n' :: more) = bareTokens true more

section Idle

variable {gap text cs : List Char}

theorem idle_of_blank (h : Blank cs) : Idle cs := by
  intro spaced more
  rw [List.append_cons]
  exact bareTokens_spaced h.lineFeed (by simp) spaced more

theorem idle_of_comment (hg : Blank gap) (hn : '\n' ∉ text) (hi : Idle cs)
    (hh : ∀ d ∈ cs.head?, d = '\n') : Idle (gap ++ ';' :: (text ++ cs)) := by
  intro spaced more
  have hr : ∀ d ∈ (cs ++ '\n' :: more).head?, d = '\n' := by
    cases cs with
    | nil =>
      intro d hd
      exact (Option.some.inj hd).symm
    | cons e cs => exact hh
  rw [List.append_assoc, List.cons_append, List.append_assoc, bareTokens_comment hg hn hr]
  exact hi true more

end Idle

/-- An ending makes characters a literal. -/
def Completable (cs : List Char) (spaced : Bool) : Prop :=
  ∃ s ∈ endings, ∃ kind v, TokenKind.Admits kind (cs ++ s) ∧
    Literal ⟨kind, Text.ofChars (cs ++ s), ⟨[], 0, 0, 0⟩, spaced⟩ v

section Completable

variable {cs ds : List Char} {spaced : Bool} {t : Token} {v : Value}

theorem completable_of_symbol (h : SymbolName cs) : Completable cs spaced := by
  refine ⟨[], by decide, .symbol, ?_⟩
  rw [List.append_nil]
  by_cases h₁ : Text.ofChars cs = .ofString "#t"
  · exact ⟨_, h, .yes rfl h₁⟩
  by_cases h₂ : Text.ofChars cs = .ofString "#f"
  · exact ⟨_, h, .no rfl h₂⟩
  · exact ⟨_, h, .atom rfl h₁ h₂⟩

theorem completable_of_int (hn : cs ≠ []) (h : ∀ c ∈ cs, isDigit c = true) (hk : t.kind = .int)
    (ht : t.text = Text.ofChars (cs ++ ds)) (hl : Literal t v) : Completable cs spaced := by
  have hne : Text.ofChars cs ≠ [] := by
    obtain ⟨c, cs, rfl⟩ := List.exists_cons_of_ne_nil hn
    rw [Text.ofChars_cons]
    intro he
    exact Text.encode_ne_nil c (List.append_eq_nil_iff.mp he).1
  cases hl with
  | number _ hm hb =>
    rw [ht, Text.ofChars_append] at hm
    obtain ⟨m, hle, hm⟩ := hm.of_append hne
    refine ⟨[], by decide, .int, .number (.ofNat m), ?_⟩
    rw [List.append_nil]
    exact ⟨⟨hn, h⟩, .number rfl hm (Nat.le_trans hle hb)⟩
  | string h | char h | yes h | no h | atom h =>
    rw [hk] at h
    cases h

theorem completable_of_string (h : StringBody (cs ++ ds)) : Completable ('"' :: cs) spaced := by
  have close (body : List Char) (hb : StringBody body) : ∃ v, Literal
      ⟨.string, Text.ofChars ('"' :: body ++ ['"']), ⟨[], 0, 0, 0⟩, spaced⟩ v := by
    refine ⟨_, @Literal.string _ (Text.ofChars body) rfl ?_⟩
    rw [List.cons_append, Text.ofChars_cons, Text.ofChars_append]
    rfl
  rcases h.of_append with hb | hb
  · obtain ⟨v, hl⟩ := close cs hb
    exact ⟨['"'], by decide, .string, v, ⟨cs, hb, rfl⟩, hl⟩
  · obtain ⟨v, hl⟩ := close _ hb
    rw [← List.cons_append, List.append_assoc] at hl
    exact ⟨['"', '"'], by decide, .string, v, ⟨_, hb, by simp⟩, hl⟩

theorem completable_of_char (h : CharacterName (cs ++ ds)) (hn : ds ≠ []) :
    Completable ('#' :: '\\' :: cs) spaced := by
  have complete (s : List Char) (hs : s ∈ endings) (h : CharacterName (cs ++ s)) :
      Completable ('#' :: '\\' :: cs) spaced := by
    obtain ⟨c, hc, -⟩ := exists_charLiteral h
    exact ⟨s, hs, .char, _, ⟨_, h, rfl⟩, .char rfl hc⟩
  cases cs with
  | nil => exact complete ['a'] (by decide) (.inr ⟨'a', rfl, by decide⟩)
  | cons c cs =>
    rcases h with h | ⟨d, hd, -⟩
    · refine complete ds ?_ (.inl h)
      apply List.mem_append_right
      exact List.mem_flatMap.mpr ⟨_, h, (List.mem_tails ..).mpr (List.suffix_append _ ds)⟩
    · obtain ⟨-, hnil⟩ := List.cons.inj hd
      exact absurd (List.append_eq_nil_iff.mp hnil).2 hn

/-- The characters of a token up to a place inside it. -/
theorem completable_of_cut {gap : List Char} {c : Char} (h : t.Spelled spaced gap c (cs ++ ds))
    (hds : ds ≠ []) (hl : single t.kind = true → ∃ v, Literal t v) :
    Completable (c :: cs) t.spaced ∧ begins t.kind = true := by
  have ha := h.admits
  have whole {d : Char} (h : c :: (cs ++ ds) = [d]) : False := by
    obtain ⟨-, hn⟩ := List.cons.inj h
    exact hds (List.append_eq_nil_iff.mp hn).2
  cases hkind : t.kind with
  | symbol =>
    rw [hkind] at ha
    exact ⟨completable_of_symbol (@SymbolName.of_append (c :: cs) ds ha (by simp)), rfl⟩
  | int =>
    rw [hkind] at ha
    obtain ⟨v, hv⟩ := hl (by rw [hkind]; rfl)
    have hdigits : ∀ d ∈ c :: cs, isDigit d = true :=
      fun d hd => ha.2 d (List.mem_append_left ds hd)
    exact ⟨completable_of_int (by simp) hdigits hkind h.text_eq hv, rfl⟩
  | string =>
    rw [hkind] at ha
    obtain ⟨body, hb, he⟩ := ha
    obtain ⟨rfl, hbody⟩ := List.cons.inj he
    obtain ⟨ds, d, rfl⟩ := (List.eq_nil_or_concat ds).resolve_left hds
    have hbody : cs ++ ds ++ [d] = body ++ ['"'] := by
      rw [List.append_assoc, ← List.concat_eq_append]
      exact hbody
    obtain ⟨rfl, -⟩ := List.append_inj' hbody rfl
    exact ⟨completable_of_string hb, rfl⟩
  | char =>
    rw [hkind] at ha
    obtain ⟨name, hn, he⟩ := ha
    obtain ⟨rfl, hname⟩ := List.cons.inj he
    cases cs with
    | nil => exact ⟨completable_of_symbol ⟨'#', [], rfl, by decide, nofun⟩, rfl⟩
    | cons d cs =>
      obtain ⟨rfl, rfl⟩ := List.cons.inj hname
      exact ⟨completable_of_char hn hds, rfl⟩
  | quote | dot | openParen | closeParen =>
    rw [hkind] at ha
    exact (whole ha).elim
  | comment => exact absurd hkind h.kind_ne
  | invalid | error | eof =>
    rw [hkind] at ha
    exact ha.elim

end Completable

/-- With an ending, characters have tokens in front of a place and what fills the place. -/
structure Finish (spaced : Bool) (cs s : List Char) (ts p q f : List Token) : Prop where
  mem_endings : s ∈ endings
  eq_append : ts = p ++ q
  bare : Bare p
  length_le : p.length ≤ cs.length
  fills : Fills p q f
  tokens : ∀ k, ∃ cl, Closers k cl ∧ bareTokens spaced (cs ++ (s ++ List.replicate k ')')) =
    some ((p ++ (f ++ cl)).map Token.unplaced)

/-- Where the end of characters stands among the tokens `ts` of a longer text: in front of all of
them, or behind or inside one of them. -/
inductive Place (spaced : Bool) (cs : List Char) (ts : List Token) : Prop where
  | front : Idle cs → (cs = [] ∨ ∀ t ∈ ts.head?, t.spaced = true) → Place spaced cs ts
  | behind {s : List Char} {p q f : List Token} : Finish spaced cs s ts p q f → cs ≠ [] →
      (p ≠ [] ∨ f ≠ []) → Place spaced cs ts

section Place

variable {gap text cs ds s : List Char} {c : Char} {kind : TokenKind} {t : Token} {ts : List Token}
  {v : Value} {spaced : Bool}

theorem Place.exists_finish (h : Place spaced cs ts) : ∃ s p q f, Finish spaced cs s ts p q f := by
  cases h with
  | front hi =>
    refine ⟨['\n'], [], ts, [], by decide, rfl, .nil, Nat.zero_le _, .nothing ?_, ?_⟩
    · intro m hm
      cases hm
    intro k
    obtain ⟨cl, hcl, hb⟩ := exists_closers true k
    exact ⟨cl, hcl, (hi spaced _).trans hb⟩
  | behind h => exact ⟨_, _, _, _, h⟩

/-- The end of the characters cuts a token, and the ending completes it. -/
theorem Place.inside (hg : Blank gap) (hc : Completable (c :: text) t.spaced)
    (hb : begins t.kind = true) (ht : t.spaced = (spaced || !gap.isEmpty)) :
    Place spaced (gap ++ c :: text) (t :: ts) := by
  obtain ⟨s, hs, kind, v, ha, hl⟩ := hc
  let a : Token := ⟨kind, Text.ofChars (c :: text ++ s), ⟨[], 0, 0, 0⟩, t.spaced⟩
  have hd : kind ≠ .dot := by
    rintro rfl
    cases hl.begins
  have hk : kind ≠ .comment := by
    rintro rfl
    cases hl.begins
  have hspelled : a.Spelled spaced gap c (text ++ s) := ⟨hg, ha, hk, rfl, ht⟩
  apply @Place.behind spaced _ _ s [] (t :: ts) [a] _ (by simp) (.inr (by simp))
  refine ⟨hs, rfl, .nil, Nat.zero_le _, .instead hl rfl hb rfl, ?_⟩
  intro k
  obtain ⟨cl, hcl, hbare⟩ := exists_closers false k
  have he := @Lexeme.ends_of_apart (c :: text ++ s) _ kind hd hk (apart_closing k)
  have := bareTokens_cons hspelled he hbare
  exact ⟨cl, hcl, by simpa using this⟩

/-- A token in front of characters with an ending. -/
theorem Finish.token {p q f : List Token} (ht : t.Spelled spaced gap c text)
    (he : ∀ k, t.kind.Ends (c :: text) (cs ++ (s ++ List.replicate k ')')))
    (hs : s ∈ endings) (hpq : ts = p ++ q) (hb : Bare p) (hl : p.length ≤ cs.length)
    (hf : Fills (t :: p) q f)
    (h : ∀ k, ∃ cl, Closers k cl ∧ bareTokens false (cs ++ (s ++ List.replicate k ')')) =
      some ((p ++ (f ++ cl)).map Token.unplaced)) :
    Finish spaced (gap ++ c :: (text ++ cs)) s (t :: ts) (t :: p) q f := by
  refine ⟨hs, congrArg (t :: ·) hpq, List.forall_mem_cons.mpr ⟨ht.kind_ne, hb⟩, ?_, hf, ?_⟩
  · simp only [List.length_append, List.length_cons]
    omega
  · intro k
    obtain ⟨cl, hcl, hbare⟩ := h k
    have := bareTokens_cons ht (he k) hbare
    exact ⟨cl, hcl, by simpa using this⟩

/-- What fills the place right behind a token. -/
theorem exists_filling (hi : Idle cs) (hs : cs = [] ∨ ∀ t ∈ ts.head?, t.spaced = true)
    (hp : Proper (t :: ts)) :
    ∃ s ∈ endings, ∃ f, Fills [t] ts f ∧ (t.kind = .quote ∨ ∃ s', s = '\n' :: s') ∧
      ∀ k, ∃ cl, Closers k cl ∧ bareTokens false (cs ++ (s ++ List.replicate k ')')) =
        some ((f ++ cl).map Token.unplaced) := by
  have hlast : t ∈ [t].getLast? := rfl
  by_cases hq : t.kind = .quote
  · -- nothing stands between the mark and what it quotes
    obtain rfl : cs = [] := by
      apply hs.resolve_right
      intro hspaced
      obtain ⟨u, hu, hn⟩ := hp.2.1 hq
      rw [hspaced u hu] at hn
      cases hn
    refine ⟨['a'], by decide, [filler false], ?_, .inl hq, bareTokens_filler false⟩
    exact .awaited (literal_filler false) hlast (by rw [hq]; rfl) fun _ => rfl
  by_cases hd : t.kind = .dot
  · refine ⟨['\n', 'a'], by decide, [filler true], ?_, .inr ⟨_, rfl⟩, ?_⟩
    · exact .awaited (literal_filler true) hlast (by rw [hd]; rfl) fun h => absurd h hq
    · intro k
      obtain ⟨cl, hcl, hb⟩ := bareTokens_filler true k
      exact ⟨cl, hcl, (hi false _).trans hb⟩
  · refine ⟨['\n'], by decide, [], .nothing ?_, .inr ⟨_, rfl⟩, ?_⟩
    · intro m hm
      obtain rfl : t = m := Option.some.inj hm
      cases hk : t.kind with
      | quote => exact absurd hk hq
      | dot => exact absurd hk hd
      | _ => rfl
    · intro k
      obtain ⟨cl, hcl, hb⟩ := exists_closers true k
      exact ⟨cl, hcl, (hi false _).trans hb⟩

/-- A token in front of characters, with the end of the characters among the tokens behind it. -/
theorem Place.token (ht : t.Spelled spaced gap c text) (he : t.kind.Ends (c :: text) (cs ++ ds))
    (hp : Proper (t :: ts)) (h : Place false cs ts) :
    Place spaced (gap ++ c :: (text ++ cs)) (t :: ts) := by
  have ends (s : List Char) (hcs : cs ≠ []) : t.kind.Ends (c :: text) (cs ++ s) := by
    obtain ⟨d, cs, rfl⟩ := List.exists_cons_of_ne_nil hcs
    exact he.congr rfl
  cases h with
  | front hi hs =>
    obtain ⟨s, hs, f, hf, hline, h⟩ := exists_filling hi hs hp
    have hends (k : Nat) : t.kind.Ends (c :: text) (cs ++ (s ++ List.replicate k ')')) := by
      rcases hline with hq | ⟨s, rfl⟩
      · rw [hq]
        trivial
      · by_cases hcs : cs = []
        · rw [hcs]
          exact t.kind.ends_before_lineFeed (c :: text) _
        · exact ends _ hcs
    have hfinish := Finish.token ht hends hs rfl .nil (Nat.zero_le _) hf h
    exact .behind hfinish (by simp) (.inl (by simp))
  | @behind s p q f hf hcs hn =>
    obtain ⟨hs, hpq, hb, hl, hfill, htok⟩ := hf
    have hfinish := Finish.token ht (fun _ => ends _ hcs) hs hpq hb hl (hfill.cons hn t) htok
    exact .behind hfinish (by simp) (.inl (by simp))

theorem Place.comment (hg : Blank gap) (hn : '\n' ∉ text) (he : ∀ d ∈ (cs ++ ds).head?, d = '\n')
    (hts : ∀ t ∈ ts.head?, t.spaced = true) (h : Place true cs ts) :
    Place spaced (gap ++ ';' :: (text ++ cs)) ts := by
  cases h with
  | front hi =>
    refine .front (idle_of_comment hg hn hi ?_) (.inr hts)
    intro d hd
    exact he d (List.mem_head?_append_of_mem_head? hd)
  | @behind s p q f hf hcs hpf =>
    obtain ⟨hs, hpq, hb, hl, hfill, htok⟩ := hf
    refine @Place.behind spaced _ ts s p q f ⟨hs, hpq, hb, ?_, hfill, ?_⟩ (by simp) hpf
    · simp only [List.length_append, List.length_cons]
      omega
    · intro k
      obtain ⟨cl, hcl, hbare⟩ := htok k
      refine ⟨cl, hcl, ?_⟩
      have hr : ∀ d ∈ (cs ++ (s ++ List.replicate k ')')).head?, d = '\n' := by
        obtain ⟨e, cs, rfl⟩ := List.exists_cons_of_ne_nil hcs
        exact he
      rw [List.append_assoc, List.cons_append, List.append_assoc, bareTokens_comment hg hn hr,
        hbare]

/-- Where the end of characters stands among blanks, a token behind them and the rest. -/
theorem exists_cut {rest : List Char} (h : cs ++ ds = gap ++ c :: (text ++ rest)) :
    (∃ as, gap = cs ++ as) ∨ (∃ as bs, bs ≠ [] ∧ cs = gap ++ c :: as ∧ text = as ++ bs) ∨
      ∃ as, cs = gap ++ c :: (text ++ as) ∧ rest = as ++ ds := by
  rcases append_cases h with ⟨as, hgap, -⟩ | ⟨as, hn, rfl, has⟩
  · exact .inl ⟨as, hgap⟩
  · obtain ⟨d, as, rfl⟩ := List.exists_cons_of_ne_nil hn
    obtain ⟨rfl, hds⟩ := List.cons.inj has
    rcases append_cases hds with ⟨bs, rfl, rfl⟩ | ⟨bs, hn, rfl, -⟩
    · exact .inr (.inr ⟨bs, rfl, rfl⟩)
    · exact .inr (.inl ⟨as, bs, hn, rfl, rfl⟩)

end Place

/-- Characters of a program end at a place among its tokens. -/
theorem exists_place {cs ds : List Char} {ts : List Token} {spaced : Bool}
    (h : bareTokens spaced (cs ++ ds) = some (ts.map Token.unplaced)) (hp : Proper ts) :
    Place spaced cs ts := by
  generalize hx : cs ++ ds = xs at h
  induction xs using split_induction generalizing cs ts spaced with
  | blank xs hb =>
    rw [bareTokens_blank hb] at h
    obtain rfl := List.map_eq_nil_iff.mp (Option.some.inj h).symm
    refine .front (idle_of_blank ?_) (.inr ?_)
    · intro d hd
      exact hb d (hx ▸ List.mem_append_left ds hd)
    · intro t ht
      cases ht
  | unlexed gap c xs hg hc =>
    rw [bareTokens_unlexed hg hc] at h
    cases h
  | token gap c text rest kind hg ha he ih =>
    rcases exists_cut hx with ⟨as, rfl⟩ | hcut
    · have hb : Blank cs := fun d hd => hg d (List.mem_append_left as hd)
      refine .front (idle_of_blank hb) ?_
      by_cases hn : cs = []
      · exact .inl hn
      · right
        rw [bareTokens_spaced hg (by simp [hn])] at h
        exact spaced_of_bareTokens h
    by_cases hk : kind = .comment
    · subst hk
      obtain ⟨body, hbody, hx'⟩ := ha
      obtain ⟨rfl, rfl⟩ := List.cons.inj hx'
      rw [bareTokens_comment hg hbody he] at h
      have hts := spaced_of_bareTokens h
      rcases hcut with ⟨as, bs, -, rfl, rfl⟩ | ⟨as, rfl, rfl⟩
      · have hn : '\n' ∉ as := fun hm => hbody (List.mem_append_left bs hm)
        have hi : Idle (gap ++ ';' :: (as ++ [])) := by
          apply idle_of_comment hg hn (idle_of_blank .nil)
          intro d hd
          cases hd
        rw [List.append_nil] at hi
        exact .front hi (.inr hts)
      · exact .comment hg hbody he hts (ih hp rfl h)
    · obtain ⟨t, us, rfl, rfl, ht, hus⟩ := exists_cons_of_bareTokens hg ha he hk h
      rcases hcut with ⟨as, bs, hn, rfl, rfl⟩ | ⟨as, rfl, rfl⟩
      · obtain ⟨hc, hb⟩ := completable_of_cut ht hn hp.1
        exact .inside hg hc hb ht.spaced_eq
      · exact .token ht he hp (ih hp.2.2 rfl hus)

/-- Where characters can be continued, an ending and closing parentheses do. -/
theorem exists_ending {cs ds : List Char} {vs : List Value}
    (h : readAll (.ofChars (cs ++ ds)) = .ok vs) :
    ∃ s ∈ endings, ∃ k ≤ cs.length, ∃ ws,
      readAll (.ofChars (cs ++ (s ++ List.replicate k ')'))) = .ok ws := by
  obtain ⟨ts, hts, hf⟩ := readAll_ofChars_iff.mp h
  obtain ⟨s, p, q, f, hs, rfl, hb, hl, hfill, htok⟩ := (exists_place hts hf.proper).exists_finish
  obtain ⟨k, hk, hclose⟩ := hf.close hb hfill
  obtain ⟨cl, hcl, hbare⟩ := htok k
  obtain ⟨ws, hw⟩ := hclose cl hcl
  exact ⟨s, hs, k, Nat.le_trans hk hl, ws, readAll_ofChars_iff.mpr ⟨_, hbare, hw⟩⟩

/-- A text can be continued to a program if and only if it can be with the bytes that a character at
its end lacks, an ending and no more closing parentheses than it has bytes. -/
theorem readAll_append_iff (t : Text) :
    (∃ u vs, readAll (t ++ u) = .ok vs) ↔
      ∃ x s k vs, x.length ≤ 3 ∧ s ∈ endings ∧ k ≤ t.length ∧
        readAll (t ++ x ++ .ofChars (s ++ List.replicate k ')')) = .ok vs := by
  constructor
  · rintro ⟨u, vs, h⟩
    obtain ⟨he, -, -⟩ := exists_tokens_of_verdict (verdict_of_readAll h)
    have hes := (Text.ofChars_chars (firstStray?_of_complete he)).symm
    obtain ⟨cs, ds, x, hcs, hx, hxl, hl⟩ := Text.exists_chars hes
    rw [hes, hcs] at h
    obtain ⟨s, hs, k, hk, ws, hw⟩ := exists_ending h
    refine ⟨x, s, k, ws, hxl, hs, Nat.le_trans hk hl, ?_⟩
    rwa [hx, ← Text.ofChars_append]
  · rintro ⟨x, s, k, vs, -, -, -, h⟩
    rw [List.append_assoc] at h
    exact ⟨_, vs, h⟩

/-- A text that awaits more is no program, and whether anything behind it makes it one shows with a
few short endings. -/
theorem continued_of_awaitsMore {t : Text} (h : t.awaitsMore = true) :
    (∃ e, readAll t = .error e) ∧
      ((∃ u vs, readAll (t ++ u) = .ok vs) ↔
        ∃ x s k vs, x.length ≤ 3 ∧ s ∈ endings ∧ k ≤ t.length ∧
          readAll (t ++ x ++ .ofChars (s ++ List.replicate k ')')) = .ok vs) := by
  refine ⟨?_, readAll_append_iff t⟩
  cases hr : readAll t with
  | error e => exact ⟨e, rfl⟩
  | ok vs =>
    rw [awaitsMore_of_readAll hr] at h
    cases h

/-- A string in the tail of a list is cut behind a backslash. -/
theorem continued_of_openString :
    (Text.ofString "(a . \"b\\").awaitsMore = true ∧
      ∃ u vs, readAll (.ofString "(a . \"b\\" ++ u) = .ok vs := by
  have h : (Text.ofString "(a . \"b\\").awaitsMore = true := by decide +kernel
  refine ⟨h, (continued_of_awaitsMore h).2.mpr ?_⟩
  refine ⟨[], ['"', '"'], 1, [.dotted [.atom (.ofString "a")] (.string (.ofString "b\""))], ?_⟩
  decide +kernel

theorem unlexed_ab (ds : List Char) : Unlexed '#' ('\\' :: 'a' :: 'b' :: ds) := by
  refine ⟨by decide, ?_⟩
  intro kind size h
  have ha : isLetter 'a' = true := by decide
  have hb : isLetter 'b' = true := by decide
  have hname : ('b' :: ds).takeWhile isLetter = 'b' :: ds.takeWhile isLetter :=
    List.takeWhile_cons_of_pos hb
  simp [Lexeme.ofHead, Lexeme.character, ha, hname, Lexeme.characterNames] at h

/-- A text may await more although nothing makes it a program. No name of a character begins as the
one in this text does. -/
theorem not_continued_of_characterName :
    (Text.ofString "(#\\ab").awaitsMore = true ∧
      ∀ u, ∃ e, readAll (.ofString "(#\\ab" ++ u) = .error e := by
  refine ⟨by decide +kernel, ?_⟩
  intro u
  cases hr : readAll (.ofString "(#\\ab" ++ u) with
  | error e => exact ⟨e, rfl⟩
  | ok vs =>
    exfalso
    obtain ⟨he, -, -⟩ := exists_tokens_of_verdict (verdict_of_readAll hr)
    have hes := Text.ofChars_chars (firstStray?_of_complete he)
    rw [Text.ofString, Text.chars_ofChars_append] at hes
    rw [Text.ofString, ← hes] at hr
    obtain ⟨ts, hts, -⟩ := readAll_ofChars_iff.mp hr
    have hk : TokenKind.openParen ≠ .comment := by decide
    obtain ⟨t, us, -, -, -, hus⟩ := @exists_cons_of_bareTokens [] []
      ('#' :: '\\' :: 'a' :: 'b' :: u.chars) '(' .openParen ts false .nil rfl trivial hk hts
    have hn := bareTokens_unlexed .nil (unlexed_ab u.chars) false
    rw [List.nil_append] at hn
    rw [hn] at hus
    cases hus

end Reader

end SmallScheme
