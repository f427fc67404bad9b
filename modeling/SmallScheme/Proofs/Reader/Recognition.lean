import SmallScheme.Proofs.Reader.Literals

/-!
# The reader recognises the grammar

The reader keeps unfinished constructs in contexts, so a run of it is no derivation by itself.
`Closes` says what the contexts around a finished value still ask of the tokens behind it; with it,
each step of `walk` adds one token to a derivation. In the other direction a derivation drives
`walk` to the point behind its last token. Both together make `program` the recogniser of the
grammar. The symbol table is faithful all along, so that an atom gets the name of its token.
-/

namespace SmallScheme.Reader

open Grammar SymbolTable
set_option autoImplicit false

/-- The rest of an open list behind the elements `done`, and the value of the whole list. -/
inductive Remainder (done : List Value) : List Token → Value → Prop where
  | proper {ts cs : List Token} {r : Token} {vs : List Value} :
      Items done.isEmpty ts vs → Comments cs → r.kind = .closeParen →
      Remainder done (ts ++ (cs ++ [r])) (.list (done.reverse ++ vs))
  | dotted {ts cs cs₁ us cs₂ : List Token} {d r : Token} {vs : List Value} {v : Value} :
      Items done.isEmpty ts vs → Comments cs →
      d.kind = .dot → (done.reverse ++ vs ≠ [] → d.spaced = true) →
      Comments cs₁ → Spells us v → Comments cs₂ → r.kind = .closeParen →
      Remainder done (ts ++ (cs ++ d :: (cs₁ ++ (us ++ (cs₂ ++ [r])))))
        (.dotted (done.reverse ++ vs) v)

/-- The end of a list whose tail has been read. -/
def Closing (ts : List Token) : Prop := ∃ cs r, ts = cs ++ [r] ∧ Comments cs ∧ r.kind = .closeParen

/-- What contexts ask of the tokens behind a value, for the value of the outermost construct. -/
def Closes : List Context → Value → List Token → Value → Prop
  | [], v, ts, w => ts = [] ∧ v = w
  | .quoted :: around, v, ts, w => Closes around v.quoted ts w
  | .element done :: around, v, ts, w =>
    ∃ us rest x, ts = us ++ rest ∧ Remainder (v :: done) us x ∧ Closes around x rest w
  | .tail done :: around, v, ts, w =>
    ∃ us rest, ts = us ++ rest ∧ Closing us ∧ Closes around (.dotted done.reverse v) rest w

/-- What the reader asks of the tokens ahead, by what may stand first. -/
def Awaits : Mode → List Context → List Token → Value → Prop
  | .expression, around, ts, w =>
    ∃ cs us rest v, ts = cs ++ (us ++ rest) ∧ Comments cs ∧ Spells us v ∧ Closes around v rest w
  | .element done, around, ts, w =>
    ∃ us rest v, ts = us ++ rest ∧ Remainder done us v ∧ Closes around v rest w
  | .close list, around, ts, w =>
    ∃ us rest, ts = us ++ rest ∧ Closing us ∧ Closes around list rest w

theorem Remainder.element {done : List Value} {cs us ts : List Token} {t : Token} {v x : Value}
    (hc : Comments cs) (ht : done.isEmpty = false → t.spaced = true) (hv : Spells (t :: us) v)
    (h : Remainder (v :: done) ts x) : Remainder done (cs ++ (t :: us ++ ts)) x := by
  cases h with
  | proper hi hcs hr =>
    have h := Remainder.proper (.cons hc ht hv hi) hcs hr
    simpa only [List.reverse_cons, List.append_assoc, List.singleton_append, List.cons_append,
      List.nil_append] using h
  | dotted hi hcs hd hds hc₁ hu hc₂ hr =>
    have h := Remainder.dotted (.cons hc ht hv hi) hcs hd (fun _ => hds (by simp)) hc₁ hu hc₂ hr
    simpa only [List.reverse_cons, List.append_assoc, List.singleton_append, List.cons_append,
      List.nil_append] using h

theorem Remainder.comment {done : List Value} {ts : List Token} {t : Token} {x : Value}
    (ht : t.kind = .comment) (h : Remainder done ts x) : Remainder done (t :: ts) x := by
  cases h with
  | proper hi hcs hr =>
    rcases hi.comment ht with hi | ⟨rfl, rfl⟩
    · exact .proper hi hcs hr
    · exact .proper (.nil _) (hcs.cons ht) hr
  | dotted hi hcs hd hds hc₁ hu hc₂ hr =>
    rcases hi.comment ht with hi | ⟨rfl, rfl⟩
    · exact .dotted hi hcs hd hds hc₁ hu hc₂ hr
    · exact .dotted (.nil _) (hcs.cons ht) hd hds hc₁ hu hc₂ hr

theorem Remainder.spells {l : Token} {ts : List Token} {x : Value} (hl : l.kind = .openParen)
    (h : Remainder [] ts x) : Spells (l :: ts) x := by
  cases h with
  | proper hi hcs hr => exact .list hl hi hcs hr
  | dotted hi hcs hd hds hc₁ hu hc₂ hr => exact .dotted hl hi hcs hd hds hc₁ hu hc₂ hr

theorem Closing.comment {t : Token} {ts : List Token} (ht : t.kind = .comment)
    (h : Closing ts) : Closing (t :: ts) := by
  obtain ⟨cs, r, rfl, hc, hr⟩ := h
  exact ⟨t :: cs, r, rfl, hc.cons ht, hr⟩

theorem Awaits.comment {mode : Mode} {around : List Context} {t : Token} {ts : List Token}
    {w : Value} (ht : t.kind = .comment) (h : Awaits mode around ts w) :
    Awaits mode around (t :: ts) w := by
  cases mode with
  | expression =>
    obtain ⟨cs, us, rest, v, rfl, hc, hv, hw⟩ := h
    exact ⟨t :: cs, us, rest, v, rfl, hc.cons ht, hv, hw⟩
  | element done =>
    obtain ⟨us, rest, v, rfl, hv, hw⟩ := h
    exact ⟨t :: us, rest, v, rfl, hv.comment ht, hw⟩
  | close list =>
    obtain ⟨us, rest, rfl, hv, hw⟩ := h
    exact ⟨t :: us, rest, rfl, hv.comment ht, hw⟩

theorem closes_of_settle {around : List Context} {v w : Value} (h : settle around v = .inl w) :
    Closes around v [] w := by
  induction around generalizing v with
  | nil => exact ⟨rfl, Sum.inl.inj h⟩
  | cons context around ih =>
    cases context with
    | quoted => exact ih h
    | element done => cases h
    | tail done => cases h

theorem closes_of_awaits {around around' : List Context} {mode : Mode} {v w : Value}
    {ts : List Token} (h : settle around v = .inr (mode, around'))
    (hw : Awaits mode around' ts w) : Closes around v ts w := by
  induction around generalizing v with
  | nil => cases h
  | cons context around ih =>
    cases context with
    | quoted => exact ih h
    | element done =>
      obtain ⟨rfl, rfl⟩ := Prod.mk.inj (Sum.inr.inj h)
      exact hw
    | tail done =>
      obtain ⟨rfl, rfl⟩ := Prod.mk.inj (Sum.inr.inj h)
      exact hw

section Walk

variable {repeated : Token}

/-- What `walk` does once the action on a token is known. -/
def perform (repeated t : Token) (ts : List Token) (mode : Mode) (around : List Context)
    (symbols : Option SymbolTable) : Action → Reading Value
  | .skip => walk repeated ts mode around symbols
  | .refuse c => (.error (.about t c), ⟨some t, ts, repeated, symbols⟩)
  | .enter mode within => walk repeated ts mode (within ++ around) symbols
  | .quote within =>
    if touches (ts.headD repeated) then
      walk repeated ts .expression (.quoted :: within ++ around) symbols
    else
      (.error (.about (ts.headD repeated) .spaceAfterQuote),
        ⟨some (ts.headD repeated), ts.tail, repeated, symbols⟩)
  | .value v symbols within =>
    match settle (within ++ around) v with
    | .inl v => (.ok v, ⟨some t, ts, repeated, symbols⟩)
    | .inr (mode, around) => walk repeated ts mode around symbols

theorem walk_cons (t : Token) (ts : List Token) (mode : Mode) (around : List Context)
    (symbols : Option SymbolTable) :
    walk repeated (t :: ts) mode around symbols =
      perform repeated t ts mode around symbols (act symbols mode t) := by
  rw [walk]
  cases act symbols mode t <;> rfl

/-- On these tokens, what `walk` reads is what it asks for. -/
def Sound (repeated : Token) (ts : List Token) : Prop :=
  ∀ {mode : Mode} {around : List Context} {symbols : Option SymbolTable} {w : Value} {c : Cursor},
    Faithful? symbols → walk repeated ts mode around symbols = (.ok w, c) →
      ∃ used, ts = used ++ c.pending ∧ Awaits mode around used w

variable {t : Token} {ts : List Token} {mode : Mode} {around within : List Context}
  {symbols symbols' : Option SymbolTable} {v w : Value} {c : Cursor}

theorem closes_of_value (ih : Sound repeated ts) (hs : Faithful? symbols')
    (h : perform repeated t ts mode around symbols (.value v symbols' within) = (.ok w, c)) :
    ∃ rest, ts = rest ++ c.pending ∧ Closes (within ++ around) v rest w := by
  simp only [perform] at h
  split at h
  · rename_i x hx
    obtain ⟨he, rfl⟩ := Prod.mk.inj h
    obtain rfl := Except.ok.inj he
    exact ⟨[], rfl, closes_of_settle hx⟩
  · rename_i mode' around' hx
    obtain ⟨used, rfl, hw⟩ := ih hs h
    exact ⟨used, rfl, closes_of_awaits hx hw⟩

theorem spells_of_quote (ih : Sound repeated ts) (hs : Faithful? symbols) (hk : t.kind = .quote)
    (h : perform repeated t ts mode around symbols (.quote within) = (.ok w, c)) :
    ∃ us rest v, ts = us ++ (rest ++ c.pending) ∧ Spells (t :: us) v ∧
      Closes (within ++ around) v rest w := by
  simp only [perform] at h
  split at h
  · rename_i htouch
    obtain ⟨used, hu, cs, us, rest, v, rfl, hc, hv, hw⟩ := ih hs h
    obtain ⟨u, us, rfl⟩ := hv.exists_cons
    cases cs with
    | nil =>
      rw [hu] at htouch
      have hs : u.spaced = false := by
        have hb := hv.begins
        by_cases he : u.kind = .eof
        · simp [he, Grammar.begins] at hb
        · simp only [List.nil_append, List.cons_append, List.headD_cons, touches, he, decide_false,
            Bool.false_or, Bool.and_eq_true, Bool.not_eq_true'] at htouch
          exact htouch.1
      exact ⟨u :: us, rest, v.quoted, by simpa using hu, .quotation hk hs hv, hw⟩
    | cons d cs =>
      rw [hu] at htouch
      simp [touches, hc d List.mem_cons_self] at htouch
  · simp at h

/-- An expression that begins with a token, as far as its contexts ask for it. -/
theorem spells_of_begin (ih : Sound repeated ts) (hs : Faithful? symbols) (ht : t.Classed)
    (h : perform repeated t ts mode around symbols (begin symbols within t) = (.ok w, c)) :
    ∃ us rest v, ts = us ++ (rest ++ c.pending) ∧ Spells (t :: us) v ∧
      Closes (within ++ around) v rest w := by
  have single (hk : Grammar.single t.kind = true) : ∃ us rest v,
      ts = us ++ (rest ++ c.pending) ∧ Spells (t :: us) v ∧ Closes (within ++ around) v rest w := by
    rcases exists_literal hk ht with ⟨v, hv⟩ | hr
    · obtain ⟨symbols', hs', hb⟩ := begin_literal hv hs within
      rw [hb] at h
      obtain ⟨rest, hts, hw⟩ := closes_of_value ih hs' h
      exact ⟨[], rest, v, hts, .literal hv, hw⟩
    · rw [hr] at h
      simp [perform] at h
  cases hk : t.kind with
  | int | string | char | symbol => exact single (by rw [hk]; rfl)
  | quote =>
    simp only [begin, hk] at h
    exact spells_of_quote ih hs hk h
  | openParen =>
    simp only [begin, hk] at h
    obtain ⟨used, rfl, us, rest, v, rfl, hv, hw⟩ := ih hs h
    exact ⟨us, rest, v, by simp, hv.spells hk, hw⟩
  | error | invalid | eof | dot | closeParen | comment => simp [begin, hk, perform] at h

theorem awaits_expression (ih : Sound repeated ts) (hs : Faithful? symbols) (ht : t.Classed)
    (hk : t.kind ≠ .comment)
    (h : perform repeated t ts .expression around symbols (act symbols .expression t) =
      (.ok w, c)) :
    ∃ used, t :: ts = used ++ c.pending ∧ Awaits .expression around used w := by
  simp only [act, hk, if_false] at h
  obtain ⟨us, rest, v, rfl, hv, hw⟩ := spells_of_begin ih hs ht h
  exact ⟨t :: us ++ rest, by simp, [], t :: us, rest, v, rfl, .nil, hv, hw⟩

theorem awaits_element {done : List Value} (ih : Sound repeated ts) (hs : Faithful? symbols)
    (ht : t.Classed) (hk : t.kind ≠ .comment)
    (h : perform repeated t ts (.element done) around symbols (act symbols (.element done) t) =
      (.ok w, c)) :
    ∃ used, t :: ts = used ++ c.pending ∧ Awaits (.element done) around used w := by
  simp only [act, hk, if_false] at h
  split at h
  · simp [perform] at h
  split at h
  · rename_i hr
    obtain ⟨rest, rfl, hw⟩ := closes_of_value ih hs h
    refine ⟨t :: rest, rfl, [t], rest, _, rfl, ?_, hw⟩
    have h : Remainder done ([] ++ ([] ++ [t])) _ := .proper (.nil _) .nil hr
    simpa using h
  split at h
  · simp [perform] at h
  rename_i hm
  have hspaced : done.isEmpty = false → t.spaced = true := by simpa using hm
  split at h
  · rename_i hd
    obtain ⟨used, rfl, cs, us, rest, v, rfl, hc, hv, us', rest', rfl, ⟨cs', r, rfl, hc', hr⟩, hw⟩ :=
      ih hs h
    refine ⟨t :: (cs ++ (us ++ (cs' ++ [r] ++ rest'))), rfl,
      t :: (cs ++ (us ++ (cs' ++ [r]))), rest', _, by simp, ?_, hw⟩
    have hds : done.reverse ++ [] ≠ [] → t.spaced = true := by
      intro hne
      exact hspaced (by simpa using hne)
    simpa using Remainder.dotted (.nil _) .nil hd hds hc hv hc' hr
  · obtain ⟨us, rest, v, rfl, hv, us', rest', x, rfl, hx, hw⟩ := spells_of_begin ih hs ht h
    refine ⟨t :: us ++ (us' ++ rest'), by simp, t :: us ++ us', rest', x, by simp, ?_, hw⟩
    exact Remainder.element .nil hspaced hv hx

theorem awaits_close {list : Value} (ih : Sound repeated ts) (hs : Faithful? symbols)
    (hk : t.kind ≠ .comment)
    (h : perform repeated t ts (.close list) around symbols (act symbols (.close list) t) =
      (.ok w, c)) :
    ∃ used, t :: ts = used ++ c.pending ∧ Awaits (.close list) around used w := by
  simp only [act, hk, if_false] at h
  split at h
  · rename_i hr
    obtain ⟨rest, rfl, hw⟩ := closes_of_value ih hs h
    exact ⟨t :: rest, rfl, [t], rest, rfl, ⟨[], t, rfl, .nil, hr⟩, hw⟩
  · simp [perform] at h

/-- Every value that `walk` reads is derived by the grammar. -/
theorem walk_sound (ts : List Token) (hts : ∀ t ∈ ts, t.Classed) : Sound repeated ts := by
  induction ts with
  | nil =>
    intro mode around symbols w c _ h
    simp [walk] at h
  | cons t ts ih =>
    intro mode around symbols w c hs h
    have ih : Sound repeated ts := ih fun u hu => hts u (List.mem_cons_of_mem t hu)
    have ht := hts t List.mem_cons_self
    rw [walk_cons] at h
    by_cases hk : t.kind = .comment
    · simp only [act, hk, if_true, perform] at h
      obtain ⟨used, rfl, hw⟩ := ih hs h
      exact ⟨t :: used, rfl, hw.comment hk⟩
    · cases mode with
      | expression => exact awaits_expression ih hs ht hk h
      | element done => exact awaits_element ih hs ht hk h
      | close list => exact awaits_close ih hs hk h

theorem walk_comments {cs : List Token} (hc : Comments cs) (rest : List Token) :
    walk repeated (cs ++ rest) mode around symbols = walk repeated rest mode around symbols := by
  induction cs with
  | nil => rfl
  | cons d cs ih =>
    have hd := hc d List.mem_cons_self
    rw [List.cons_append, walk_cons]
    simp only [act, hd, if_true, perform]
    exact ih fun e he => hc e (List.mem_cons_of_mem d he)

theorem ne_comment_of_begins {k : TokenKind} (h : begins k = true) : k ≠ .comment := by
  rintro rfl
  simp [Grammar.begins] at h

/-- The contexts that a token opens may as well have been open before it. -/
theorem perform_begin :
    perform repeated t ts mode around symbols (begin symbols within t) =
      perform repeated t ts .expression (within ++ around) symbols (begin symbols [] t) := by
  cases hk : t.kind with
  | int =>
    simp only [begin, hk]
    cases intValue t.text <;> rfl
  | char =>
    simp only [begin, hk]
    cases charValue t.text <;> rfl
  | _ =>
    simp only [begin, hk]
    rfl

theorem walk_element {done : List Value} (hb : begins t.kind = true)
    (hs : done.isEmpty = false → t.spaced = true) :
    walk repeated (t :: ts) (.element done) around symbols =
      walk repeated (t :: ts) .expression (.element done :: around) symbols := by
  have hk : t.kind ≠ .comment ∧ t.kind ≠ .eof ∧ t.kind ≠ .closeParen ∧ t.kind ≠ .dot := by
    cases hk : t.kind <;> simp_all [Grammar.begins]
  have hm : (!done.isEmpty && !t.spaced) = false := by
    cases hd : done.isEmpty with
    | true => rfl
    | false => simp [hs hd]
  rw [walk_cons, walk_cons]
  simp only [act, hk.1, hk.2.1, hk.2.2.1, hk.2.2.2, hm, if_false, Bool.false_eq_true]
  exact perform_begin

theorem walk_closeParen {done : List Value} (ht : t.kind = .closeParen) :
    walk repeated (t :: ts) (.element done) around symbols =
      perform repeated t ts .expression around symbols
        (.value (.list done.reverse) symbols []) := by
  rw [walk_cons]
  simp only [act, ht, reduceCtorEq, if_false, if_true]
  rfl

theorem walk_dot {done : List Value} (ht : t.kind = .dot)
    (hs : done.isEmpty = false → t.spaced = true) :
    walk repeated (t :: ts) (.element done) around symbols =
      walk repeated ts .expression (.tail done :: around) symbols := by
  have hm : (!done.isEmpty && !t.spaced) = false := by
    cases hd : done.isEmpty with
    | true => rfl
    | false => simp [hs hd]
  rw [walk_cons]
  simp only [act, ht, hm, reduceCtorEq, if_false, if_true, Bool.false_eq_true]
  rfl

theorem walk_close {list : Value} (ht : t.kind = .closeParen) :
    walk repeated (t :: ts) (.close list) around symbols =
      perform repeated t ts .expression around symbols (.value list symbols []) := by
  rw [walk_cons]
  simp only [act, ht, reduceCtorEq, if_false, if_true]
  rfl

mutual

/-- A derivation of an expression takes the reader behind its tokens. -/
theorem walk_spells : ∀ {ts : List Token} {v : Value}, Spells ts v →
    ∀ (rest : List Token) (around : List Context) (symbols : Option SymbolTable),
    Faithful? symbols → ∃ t symbols', Faithful? symbols' ∧
      walk repeated (ts ++ rest) .expression around symbols =
        perform repeated t rest .expression around symbols (.value v symbols' [])
  | _, _, @Spells.literal t v h => by
    intro rest around symbols hs
    obtain ⟨symbols', hs', hb⟩ := begin_literal h hs []
    refine ⟨t, symbols', hs', ?_⟩
    rw [List.singleton_append, walk_cons]
    simp only [act, ne_comment_of_begins h.begins, if_false, hb]
  | _, _, @Spells.quotation q t ts v hq hs h => by
    intro rest around symbols hf
    obtain ⟨u, symbols', hf', hw⟩ := walk_spells h rest (.quoted :: around) symbols hf
    refine ⟨u, symbols', hf', ?_⟩
    have ht : touches t = true := by simp [touches, hs, ne_comment_of_begins h.begins]
    rw [List.cons_append, walk_cons]
    simp only [act, hq, reduceCtorEq, if_false, begin, perform, List.cons_append, List.headD_cons,
      ht, if_true]
    exact hw
  | _, _, @Spells.list l r ts cs vs hl hi hc hr => by
    intro rest around symbols hs
    obtain ⟨symbols', hs', hw⟩ := walk_items hi (cs ++ r :: rest) [] around symbols hs rfl
    refine ⟨r, symbols', hs', ?_⟩
    rw [List.cons_append, walk_cons]
    simp only [act, hl, reduceCtorEq, if_false, begin, perform, List.append_assoc,
      List.singleton_append, List.nil_append]
    rw [hw, walk_comments hc, walk_closeParen hr]
    simp only [perform, List.append_nil, List.reverse_reverse, List.nil_append]
  | _, _, @Spells.dotted l d r ts cs cs₁ us cs₂ vs v hl hi hc hd hds hc₁ h hc₂ hr => by
    intro rest around symbols hs
    obtain ⟨symbols₁, hs₁, hw₁⟩ :=
      walk_items hi (cs ++ d :: (cs₁ ++ (us ++ (cs₂ ++ r :: rest)))) [] around symbols hs rfl
    obtain ⟨u, symbols₂, hs₂, hw₂⟩ :=
      walk_spells h (cs₂ ++ r :: rest) (.tail vs.reverse :: around) symbols₁ hs₁
    refine ⟨r, symbols₂, hs₂, ?_⟩
    have hd' : vs.reverse.isEmpty = false → d.spaced = true := by
      intro he
      exact hds (by simpa using he)
    rw [List.cons_append, walk_cons]
    simp only [act, hl, reduceCtorEq, if_false, begin, perform, List.append_assoc,
      List.cons_append, List.nil_append]
    rw [hw₁, walk_comments hc, List.append_nil, walk_dot hd hd', walk_comments hc₁, hw₂]
    simp only [perform, List.nil_append, settle]
    rw [walk_comments hc₂, walk_close hr, List.reverse_reverse]
    rfl

theorem walk_items : ∀ {first : Bool} {ts : List Token} {vs : List Value}, Items first ts vs →
    ∀ (rest : List Token) (done : List Value) (around : List Context)
      (symbols : Option SymbolTable), Faithful? symbols → done.isEmpty = first →
    ∃ symbols', Faithful? symbols' ∧
      walk repeated (ts ++ rest) (.element done) around symbols =
        walk repeated rest (.element (vs.reverse ++ done)) around symbols'
  | _, _, _, .nil _ => fun _ _ _ symbols hs _ => ⟨symbols, hs, rfl⟩
  | _, _, _, @Items.cons first cs ts us t v vs hc ht hv hi => by
    intro rest done around symbols hf hfirst
    obtain ⟨u, symbols₁, hf₁, hw₁⟩ :=
      walk_spells hv (us ++ rest) (.element done :: around) symbols hf
    obtain ⟨symbols₂, hf₂, hw₂⟩ := walk_items hi rest (v :: done) around symbols₁ hf₁ rfl
    refine ⟨symbols₂, hf₂, ?_⟩
    have hs : done.isEmpty = false → t.spaced = true := fun hd => ht (hfirst ▸ hd)
    simp only [List.cons_append] at hw₁
    rw [List.append_assoc, walk_comments hc, List.append_assoc, List.cons_append,
      walk_element hv.begins hs, hw₁]
    simp only [perform, List.nil_append, settle, hw₂, List.reverse_cons, List.append_assoc,
      List.singleton_append]

end

end Walk

end SmallScheme.Reader
