import SmallScheme.Proofs.Reader.Recognition

/-!
# Programs

`program` accepts exactly the token streams that the grammar derives, with the value that it
derives; the value is unique, since the reader is a function. A stream that ends with an error is
refused, as no derivation reaches beyond the end of the input.
-/

namespace SmallScheme.Reader

open Grammar SymbolTable
set_option autoImplicit false

theorem begin_final {t : Token} (ht : t.kind.isFinal = true) (symbols : Option SymbolTable)
    (within : List Context) : ∃ complaint, begin symbols within t = .refuse complaint := by
  unfold begin
  cases hk : t.kind <;> rw [hk] at ht <;> first | exact ⟨_, rfl⟩ | cases ht

/-- Nothing goes on behind a final token. -/
theorem act_final {t : Token} (ht : t.kind.isFinal = true) (symbols : Option SymbolTable)
    (mode : Mode) : ∃ complaint, act symbols mode t = .refuse complaint := by
  have hk : t.kind ≠ .comment ∧ t.kind ≠ .closeParen ∧ t.kind ≠ .dot := by
    refine ⟨?_, ?_, ?_⟩ <;> (intro hk; rw [hk] at ht; cases ht)
  unfold act
  rw [if_neg hk.1]
  cases mode with
  | expression => exact begin_final ht symbols []
  | element done =>
    dsimp only
    split
    · exact ⟨_, rfl⟩
    rw [if_neg hk.2.1]
    split
    · exact ⟨_, rfl⟩
    rw [if_neg hk.2.2]
    exact begin_final ht symbols [.element done]
  | close list =>
    dsimp only
    rw [if_neg hk.2.1]
    exact ⟨_, rfl⟩

section Steps

variable {c after : Cursor} {done : List Value} {v : Value}

theorem programFrom_eq (done : List Value) (c : Cursor) :
    programFrom done c =
      if c.skipComments.peek.kind = .eof then (.ok done.reverse, c.skipComments.advance)
      else if !done.isEmpty && !c.skipComments.peek.spaced then
        (.error (.about c.skipComments.peek (.missingSpace c.skipComments.peek.kind)),
          c.skipComments.advance)
      else
        match expression c.skipComments with
        | (.error x, after) => (.error x, after)
        | (.ok v, after) => programFrom (v :: done) after := by
  rw [programFrom]
  split
  · rfl
  split
  · rfl
  split
  · rename_i he
    simp only [he]
  · rename_i he
    simp only [he]

theorem programFrom_end (h : c.skipComments.peek.kind = .eof) :
    (programFrom done c).1 = .ok done.reverse := by
  rw [programFrom_eq, if_pos h]

theorem programFrom_step (hk : c.skipComments.peek.kind ≠ .eof)
    (hs : done.isEmpty = false → c.skipComments.peek.spaced = true)
    (he : expression c.skipComments = (.ok v, after)) :
    programFrom done c = programFrom (v :: done) after := by
  have hm : ¬ (!done.isEmpty && !c.skipComments.peek.spaced) = true := by
    cases hd : done.isEmpty with
    | true => simp
    | false => simp [hs hd]
  rw [programFrom_eq, if_neg hk, if_neg hm, he]

/-- What a program that goes on consists of. -/
theorem programFrom_cases {vs : List Value} (h : (programFrom done c).1 = .ok vs) :
    (c.skipComments.peek.kind = .eof ∧ vs = done.reverse) ∨
      ∃ v after, c.skipComments.peek.kind ≠ .eof ∧
        (done.isEmpty = false → c.skipComments.peek.spaced = true) ∧
        expression c.skipComments = (.ok v, after) ∧
        (programFrom (v :: done) after).1 = .ok vs := by
  rw [programFrom_eq] at h
  split at h
  · rename_i hk
    exact .inl ⟨hk, (Except.ok.inj h).symm⟩
  split at h
  · cases h
  rename_i hk hm
  split at h
  · cases h
  · rename_i v after he
    exact .inr ⟨v, after, hk, by simpa using hm, he, h⟩

/-- A token that is not final is one of those that are pending. -/
theorem length_advance_lt (h : c.repeated.kind.isFinal = true) (hk : c.peek.kind.isFinal = false) :
    c.advance.pending.length < c.pending.length := by
  obtain ⟨latest, pending, repeated, symbols⟩ := c
  cases pending with
  | nil => cases h.symm.trans hk
  | cons t ts => exact Nat.lt_succ_self ts.length

theorem skipComments_comment (h : c.repeated.kind.isFinal = true) (hk : c.peek.kind = .comment) :
    c.skipComments = c.advance.skipComments := by
  obtain ⟨latest, pending, repeated, symbols⟩ := c
  cases pending with
  | nil =>
    rw [show repeated.kind = .comment from hk] at h
    cases h
  | cons t ts =>
    have ht : t.kind = .comment := hk
    simp only [Cursor.skipComments, Cursor.advance, List.tail_cons, List.takeWhile_cons,
      List.dropWhile_cons, ht, decide_true, if_true, List.getLast?_cons]
    cases (ts.takeWhile (·.kind = .comment)).getLast? <;> rfl

theorem skipComments_other (hk : c.peek.kind ≠ .comment) : c.skipComments = c := by
  obtain ⟨latest, pending, repeated, symbols⟩ := c
  cases pending with
  | nil => rfl
  | cons t ts =>
    have ht : t.kind ≠ .comment := hk
    simp only [Cursor.skipComments, List.takeWhile_cons, List.dropWhile_cons, ht, decide_false]
    rfl

theorem pending_skipComments {cs rest : List Token} {t : Token} (h : c.pending = cs ++ t :: rest)
    (hc : Comments cs) (ht : t.kind ≠ .comment) : c.skipComments.pending = t :: rest := by
  have hd : (cs ++ t :: rest).dropWhile (·.kind = .comment) = t :: rest := by
    rw [List.dropWhile_append_of_pos fun d hd => by simpa using hc d hd]
    simp [ht]
  simpa only [Cursor.skipComments, h] using hd

/-- The comments that stand first, and the token behind them. -/
theorem exists_comments {ts : List Token} (h : Sealed ts) :
    ∃ cs t rest, ts = cs ++ t :: rest ∧ Comments cs ∧ t.kind ≠ .comment ∧
      Sealed (t :: rest) := by
  induction h with
  | @last t hf =>
    refine ⟨[], t, [], rfl, .nil, fun hk => ?_, .last hf⟩
    simp [hk, TokenKind.isFinal] at hf
  | @more t ts hf hs ih =>
    by_cases hk : t.kind = .comment
    · obtain ⟨cs, u, rest, rfl, hc, hu, hr⟩ := ih
      exact ⟨t :: cs, u, rest, rfl, hc.cons hk, hu, hr⟩
    · exact ⟨[], t, ts, rfl, .nil, hk, .more hf hs⟩

end Steps

/-- A derivation of expressions takes the reader behind their tokens. -/
theorem programFrom_items {first : Bool} {us rest : List Token} {vs : List Value}
    (h : Items first us vs) : ∀ (done : List Value) (c : Cursor), Faithful? c.symbols →
      done.isEmpty = first → c.pending = us ++ rest →
      ∃ c' : Cursor, Faithful? c'.symbols ∧ c'.pending = rest ∧ c'.repeated = c.repeated ∧
        programFrom done c = programFrom (vs.reverse ++ done) c' := by
  intro done c hf hfirst hp
  cases h with
  | nil => exact ⟨c, hf, hp, rfl, rfl⟩
  | @cons _ cs ts us t v vs hc ht hv hi =>
    have hs : c.skipComments.pending = t :: (ts ++ (us ++ rest)) := by
      refine pending_skipComments (hp.trans ?_) hc (ne_comment_of_begins hv.begins)
      simp only [List.append_assoc, List.cons_append]
    have hpeek : c.skipComments.peek = t := by simp [Cursor.peek, hs]
    have hk : t.kind ≠ .eof := by
      intro hk
      simpa [hk, Grammar.begins] using hv.begins
    obtain ⟨u, symbols, hf', hw⟩ := @walk_spells c.skipComments.repeated _ _ hv (us ++ rest) []
      c.skipComments.symbols hf
    have hx : expression c.skipComments =
        (.ok v, ⟨some u, us ++ rest, c.skipComments.repeated, symbols⟩) := by
      rw [expression, hs]
      exact hw
    obtain ⟨c', hc', hp', hr', he⟩ := programFrom_items hi (v :: done)
      ⟨some u, us ++ rest, c.skipComments.repeated, symbols⟩ hf' rfl rfl
    refine ⟨c', hc', hp', hr', ?_⟩
    rw [programFrom_step (hpeek ▸ hk) (fun hd => hpeek ▸ ht (hfirst ▸ hd)) hx, he,
      List.reverse_cons, List.append_assoc, List.singleton_append]

/-- What the reader accepts as a program is derived by the grammar. -/
theorem items_of_programFrom {done vs : List Value} {c : Cursor} (hf : Faithful? c.symbols)
    (hs : Sealed c.pending) (hts : ∀ t ∈ c.pending, t.Classed)
    (h : (programFrom done c).1 = .ok vs) :
    ∃ us cs e ws, c.pending = us ++ (cs ++ [e]) ∧ Items done.isEmpty us ws ∧ Comments cs ∧
      e.kind = .eof ∧ vs = done.reverse ++ ws := by
  -- Each expression takes a token, so the tokens ahead decrease.
  induction hn : c.pending.length using Nat.strongRecOn generalizing c done with
  | ind n ih =>
    obtain ⟨cs, t, rest, hp, hc, ht, hr⟩ := exists_comments hs
    have hskip := pending_skipComments hp hc ht
    have hpeek : c.skipComments.peek = t := by simp [Cursor.peek, hskip]
    rcases programFrom_cases h with ⟨hk, rfl⟩ | ⟨v, after, hk, hspaced, hx, hrest⟩
    · rw [hpeek] at hk
      have hnil := hr.eq_nil_of_final (by rw [hk]; rfl)
      subst hnil
      exact ⟨[], cs, t, [], hp, .nil _, hc, hk, by simp⟩
    · rw [hpeek] at hspaced
      rw [expression, hskip] at hx
      have hclassed : ∀ u ∈ t :: rest, u.Classed := fun u hu =>
        hts u (hp ▸ List.mem_append_right cs hu)
      have hf' : Faithful? after.symbols := by
        have hf' := faithful_walk hf c.skipComments.repeated (t :: rest) .expression []
        rwa [show c.symbols = c.skipComments.symbols from rfl, hx] at hf'
      obtain ⟨used, hu, cs', us', rest', w, rfl, hc', hw, hcl⟩ := walk_sound _ hclassed hf hx
      obtain ⟨rfl, rfl⟩ := hcl
      -- The comments before the expression have been skipped already.
      obtain rfl : cs' = [] := by
        cases cs' with
        | nil => rfl
        | cons d ds =>
          obtain rfl : t = d := by simpa using congrArg List.head? hu
          exact absurd (hc' t List.mem_cons_self) ht
      obtain ⟨t', us', rfl⟩ := hw.exists_cons
      simp only [List.nil_append, List.append_nil, List.cons_append, List.cons.injEq] at hu
      obtain ⟨rfl, rfl⟩ := hu
      have hp' : c.pending = cs ++ ((t :: us') ++ after.pending) := by simpa using hp
      have hsealed : Sealed after.pending :=
        @Sealed.of_append (t :: us') _ (by simpa using hr) hw.not_final
      have hlt : after.pending.length < n := by
        rw [← hn, hp']
        simp only [List.length_append, List.length_cons]
        omega
      obtain ⟨us, cs₂, e, ws, ha, hi, hc₂, he, rfl⟩ := ih _ hlt hf' hsealed
        (fun u hu => hts u (by rw [hp']; simp [hu])) hrest rfl
      refine ⟨cs ++ (t :: us' ++ us), cs₂, e, w :: ws, ?_, .cons hc hspaced hw hi, hc₂, he, ?_⟩
      · rw [hp', ha]
        simp only [List.append_assoc, List.cons_append]
      · simp only [List.reverse_cons, List.append_assoc, List.singleton_append]

section Streams

variable {ts : List Token} {vs ws : List Value} {symbols : Option SymbolTable}

/-- A derived program is read, whatever follows its end. -/
theorem program_of_grammar (h : Program ts vs) (repeated : Token) (hf : Faithful? symbols) :
    (program (.ofStream ⟨ts, repeated⟩ symbols)).1 = .ok vs := by
  obtain ⟨us, cs, e, rfl, hi, hc, he⟩ := h
  obtain ⟨c, -, hp, -, hr⟩ :=
    programFrom_items hi [] (.ofStream ⟨us ++ (cs ++ [e]), repeated⟩ symbols) hf rfl rfl
  have hs := pending_skipComments hp hc (by simp [he])
  rw [program, hr, programFrom_end (by simp [Cursor.peek, hs, he]), List.append_nil,
    List.reverse_reverse]

theorem grammar_of_program {stream : TokenStream} (hf : Faithful? symbols)
    (hs : Sealed stream.pending) (hts : ∀ t ∈ stream.pending, t.Classed)
    (h : (program (.ofStream stream symbols)).1 = .ok vs) : Program stream.pending vs := by
  obtain ⟨us, cs, e, ws, hp, hi, hc, he, rfl⟩ := items_of_programFrom hf hs hts h
  exact ⟨us, cs, e, hp, hi, hc, he⟩

theorem getLast?_of_grammar (h : Program ts vs) : ∃ e, ts.getLast? = some e ∧ e.kind = .eof := by
  obtain ⟨us, cs, e, rfl, -, -, he⟩ := h
  exact ⟨e, by rw [← List.append_assoc, List.getLast?_concat], he⟩

/-- Tokens spell at most one program. -/
theorem grammar_unique (h : Program ts vs) (h' : Program ts ws) : vs = ws := by
  obtain ⟨e, -, -⟩ := getLast?_of_grammar h
  have hv := program_of_grammar h e faithful?_none
  rw [program_of_grammar h' e faithful?_none] at hv
  exact (Except.ok.inj hv).symm

/-- The reader accepts exactly the programs of the grammar, and gives them their values. -/
theorem program_eq_ok_iff (s : Source) (hf : Faithful? symbols) :
    Sealed s.tokens.pending ∧
    (∀ vs, (program (.ofStream s.tokens symbols)).1 = .ok vs ↔ Program s.tokens.pending vs) ∧
    (∀ ts vs ws, Program ts vs → Program ts ws → vs = ws) ∧
    (∀ t, s.tokens.pending.getLast? = some t → t.kind = .error ∨ t.kind = .invalid →
      ∃ f, (program (.ofStream s.tokens symbols)).1 = .error f) := by
  have sound (vs : List Value) (h : (program (.ofStream s.tokens symbols)).1 = .ok vs) :
      Program s.tokens.pending vs :=
    grammar_of_program hf s.sealed_tokens s.classed_of_mem_tokens h
  refine ⟨s.sealed_tokens, fun vs => ⟨sound vs, fun h => ?_⟩, fun _ _ _ => grammar_unique, ?_⟩
  · exact program_of_grammar h s.tokens.repeated hf
  · intro t hl hk
    cases hr : (program (.ofStream s.tokens symbols)).1 with
    | error f => exact ⟨f, rfl⟩
    | ok vs =>
      obtain ⟨e, he, hke⟩ := getLast?_of_grammar (sound vs hr)
      obtain rfl := Option.some.inj (hl.symm.trans he)
      rcases hk with hk | hk
      · rw [hk] at hke; cases hke
      · rw [hk] at hke; cases hke

/-- A quotation behind a comment, read after another text that held one of its names. -/
theorem program_of_quotation :
    let symbols := (readNamed (some .empty) [] (.ofString "(b a)")).2
    let s := Source.ofText [] (.ofString "; once\n'a") none
    Faithful? symbols ∧
    (program (.ofStream s.tokens symbols)).1 = .ok [Value.quoted (.atom (.ofString "a"))] ∧
    Program s.tokens.pending [Value.quoted (.atom (.ofString "a"))] := by
  intro symbols s
  have hf : Faithful? symbols := faithful_readNamed faithful?_empty _ _
  have hr : (program (.ofStream s.tokens symbols)).1 =
      .ok [Value.quoted (.atom (.ofString "a"))] := by decide +kernel
  exact ⟨hf, hr, ((program_eq_ok_iff s hf).2.1 _).mp hr⟩

end Streams

end SmallScheme.Reader
