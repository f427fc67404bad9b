import SmallScheme.Proofs.Reader.Depth
import SmallScheme.Proofs.Reader.Literals

/-!
# Expressions that are cut short

Tokens in front of a place of a program can be finished in a uniform way, whatever stood behind
them. Where a quotation mark or a dot awaits an expression, or where an expression begins, a literal
will do; then only closing parentheses are missing (`Grammar.Forms.close`).
-/

namespace SmallScheme

set_option autoImplicit false

namespace Grammar

/-- No token is a comment. -/
def Bare (ts : List Token) : Prop := ∀ t ∈ ts, t.kind ≠ .comment

theorem Bare.nil : Bare [] := fun _ h => absurd h List.not_mem_nil

theorem Bare.tail {t : Token} {ts : List Token} (h : Bare (t :: ts)) : Bare ts :=
  (List.forall_mem_cons.mp h).2

/-- So many closing parentheses. -/
def Closers (k : Nat) (ts : List Token) : Prop := ts.length = k ∧ ∀ t ∈ ts, t.kind = .closeParen

/-- What may stand behind tokens `p` instead of the tokens `q` that follow them. -/
inductive Fills (p q : List Token) : List Token → Prop where
  | nothing : (∀ m ∈ p.getLast?, awaits m.kind = false) → Fills p q []
  /-- A literal that is awaited. It touches a quotation mark. -/
  | awaited {m a : Token} {v : Value} : Literal a v → m ∈ p.getLast? → awaits m.kind = true →
      (m.kind = .quote → a.spaced = false) → Fills p q [a]
  /-- A literal in the place of an expression. -/
  | instead {t a : Token} {us : List Token} {v : Value} : Literal a v → q = t :: us →
      begins t.kind = true → a.spaced = t.spaced → Fills p q [a]

section Closers

variable {k : Nat} {ts : List Token}

theorem Closers.eq_nil (h : Closers 0 ts) : ts = [] :=
  List.eq_nil_of_length_eq_zero h.1

theorem Closers.exists_concat (h : Closers (k + 1) ts) :
    ∃ us r, ts = us ++ [r] ∧ Closers k us ∧ r.kind = .closeParen := by
  rcases List.eq_nil_or_concat ts with rfl | ⟨us, r, rfl⟩
  · cases h.1
  · rw [List.concat_eq_append] at h ⊢
    obtain ⟨hl, hk⟩ := h
    rw [List.length_append, List.length_singleton] at hl
    refine ⟨us, r, rfl, ⟨by omega, ?_⟩, hk r (by simp)⟩
    intro t ht
    exact hk t (List.mem_append_left [r] ht)

end Closers

section Fills

variable {p q rest f : List Token} {r : Token}

/-- Of the tokens in front only the last one matters. -/
theorem Fills.of_getLast? {p' : List Token} (h : Fills p q f) (hl : p'.getLast? = p.getLast?) :
    Fills p' q f := by
  cases h with
  | nothing hm => exact .nothing (hl ▸ hm)
  | awaited ha hm hw hs => exact .awaited ha (hl ▸ hm) hw hs
  | instead ha hq hb hs => exact .instead ha hq hb hs

/-- Tokens further in front do not matter, if an expression that they await begins behind them. -/
theorem Fills.behind {xs : List Token} (h : Fills (xs ++ p) q f)
    (hp : p = [] → ∀ m ∈ xs.getLast?, awaits m.kind = false) : Fills p q f := by
  rcases List.eq_nil_or_concat p with rfl | ⟨us, u, rfl⟩
  · rw [List.append_nil] at h
    cases h with
    | nothing => exact .nothing nofun
    | awaited ha hm hw =>
      rw [hp rfl _ hm] at hw
      cases hw
    | instead ha hq hb hs => exact .instead ha hq hb hs
  · apply h.of_getLast?
    rw [List.concat_eq_append, ← List.append_assoc, List.getLast?_concat, List.getLast?_concat]

/-- Nothing is awaited behind an opening parenthesis. -/
theorem Fills.behind_paren (h : Fills (r :: p) q f) (hr : r.kind = .openParen) : Fills p q f := by
  apply @Fills.behind p q f [r] h
  intro _ m hm
  obtain rfl : r = m := by simpa using hm
  rw [hr]
  rfl

/-- A token further in front does not matter, unless it is what awaits an expression. -/
theorem Fills.cons (h : Fills p q f) (hn : p ≠ [] ∨ f ≠ []) (t : Token) : Fills (t :: p) q f := by
  cases p with
  | nil =>
    cases h with
    | nothing => exact absurd rfl (hn.resolve_left fun h => h rfl)
    | awaited _ hm => cases hm
    | instead ha hq hb hs => exact .instead ha hq hb hs
  | cons u p => exact h.of_getLast? List.getLast?_cons_cons

/-- Only the first of the tokens that follow matters. -/
theorem Fills.before (h : Fills p (q ++ rest) f)
    (hq : q = [] → ∀ t ∈ rest.head?, begins t.kind = false) : Fills p q f := by
  cases h with
  | nothing hm => exact .nothing hm
  | awaited ha hm hw hs => exact .awaited ha hm hw hs
  | @instead t a us v ha he hb hs =>
    cases q with
    | nil =>
      rw [List.nil_append] at he
      rw [hq rfl t (by rw [he]; rfl)] at hb
      cases hb
    | cons u q =>
      obtain ⟨rfl, -⟩ := List.cons.inj he
      exact .instead ha rfl hb hs

/-- Behind tokens that await nothing and in front of a token that begins nothing, nothing fits. -/
theorem Fills.eq_nil (h : Fills p q f) (hp : ∀ m ∈ p.getLast?, awaits m.kind = false)
    (hq : ∀ t ∈ q.head?, begins t.kind = false) : f = [] := by
  cases h with
  | nothing => rfl
  | awaited _ hm hw =>
    rw [hp _ hm] at hw
    cases hw
  | instead _ he hb =>
    subst he
    rw [hq _ rfl] at hb
    cases hb

end Fills

section Comments

variable {cs rest p q : List Token} {r : Token}

theorem Comments.eq_nil_of_bare (hc : Comments cs) (h : cs ++ rest = p ++ q) (hp : Bare p)
    (hn : p ≠ []) : cs = [] := by
  obtain ⟨u, p, rfl⟩ := List.exists_cons_of_ne_nil hn
  cases cs with
  | nil => rfl
  | cons c cs =>
    obtain ⟨rfl, -⟩ := List.cons.inj h
    exact absurd (hc c List.mem_cons_self) (hp c List.mem_cons_self)

theorem Comments.head_not_begins (hc : Comments cs) (hr : begins r.kind = false) :
    ∀ t ∈ (cs ++ r :: rest).head?, begins t.kind = false := by
  intro t ht
  cases cs with
  | nil =>
    obtain rfl := Option.some.inj ht
    exact hr
  | cons c cs =>
    obtain rfl := Option.some.inj ht
    rw [hc c List.mem_cons_self]
    rfl

end Comments

theorem Spells.last_awaits_nothing {ts : List Token} {v : Value} (h : Spells ts v) :
    ∀ m ∈ ts.getLast?, awaits m.kind = false := by
  obtain ⟨us, t, rfl, ht⟩ := h.exists_last
  intro m hm
  rw [List.getLast?_concat] at hm
  obtain rfl := Option.some.inj hm
  exact ht

/-- Where the elements of a list end and something that begins no expression follows, a place among
all these tokens is a place among the elements. -/
theorem exists_element_place {ts cs p q rest : List Token} {r : Token} (hc : Comments cs)
    (hp : Bare p) (h : ts ++ (cs ++ r :: rest) = p ++ q) :
    (∃ q', ts = p ++ q' ∧ q = q' ++ (cs ++ r :: rest)) ∨
      cs = [] ∧ ∃ p', p = ts ++ r :: p' ∧ rest = p' ++ q := by
  rcases List.append_eq_append_iff.mp h with ⟨p', rfl, hp'⟩ | ⟨q', rfl, hq⟩
  · by_cases hn : p' = []
    · subst hn
      rw [List.nil_append] at hp'
      exact .inl ⟨[], by simp, hp'.symm⟩
    · have hbare : Bare p' := fun t ht => hp t (List.mem_append_right ts ht)
      obtain rfl := hc.eq_nil_of_bare hp' hbare hn
      obtain ⟨u, p', rfl⟩ := List.exists_cons_of_ne_nil hn
      obtain ⟨rfl, hrest⟩ := List.cons.inj hp'
      exact .inr ⟨rfl, p', rfl, hrest⟩
  · exact .inl ⟨q', rfl, hq⟩

/-- What is put behind a quotation mark is a literal that touches it. -/
theorem Fills.behind_quote {m t : Token} {ts f : List Token} (h : Fills [m] (t :: ts) f)
    (hm : m.kind = .quote) (ht : t.spaced = false) :
    ∃ a v, f = [a] ∧ Literal a v ∧ a.spaced = false := by
  cases h with
  | nothing hw =>
    have := hw m rfl
    rw [hm] at this
    cases this
  | awaited ha hl _ hs =>
    obtain rfl := Option.some.inj hl
    exact ⟨_, _, rfl, ha, hs hm⟩
  | instead ha hq _ hs =>
    obtain ⟨rfl, -⟩ := List.cons.inj hq
    exact ⟨_, _, rfl, ha, hs.trans ht⟩

/-- What is put behind a dot is a literal. -/
theorem Fills.behind_dot {p q f : List Token} {m : Token} (h : Fills p q f) (hl : m ∈ p.getLast?)
    (hm : m.kind = .dot) : ∃ a v, f = [a] ∧ Literal a v := by
  cases h with
  | nothing hw =>
    have := hw m hl
    rw [hm] at this
    cases this
  | awaited ha | instead ha => exact ⟨_, _, rfl, ha⟩

/-- With no more closing parentheses than tokens in front of the place, something is derived. -/
def Closable {α : Type} (derives : List Token → α → Prop) (p f : List Token) : Prop :=
  ∃ k ≤ p.length, ∀ cl, Closers k cl → ∃ v, derives (p ++ (f ++ cl)) v

section Closable

variable {l d : Token} {ts p f : List Token} {vs : List Value}

theorem Closable.of_derives {α : Type} {derives : List Token → α → Prop} {v : α}
    (h : derives (p ++ f) v) : Closable derives p f := by
  refine ⟨0, Nat.zero_le _, ?_⟩
  intro cl hcl
  obtain rfl := hcl.eq_nil
  exact ⟨v, by rwa [List.append_nil]⟩

theorem Closable.list (hl : l.kind = .openParen) (h : Closable (Items true) p f) :
    Closable Spells (l :: p) f := by
  obtain ⟨k, hk, hc⟩ := h
  refine ⟨k + 1, Nat.succ_le_succ hk, ?_⟩
  intro cl hcl
  obtain ⟨cl, r, rfl, hcl, hr⟩ := hcl.exists_concat
  obtain ⟨vs, hi⟩ := hc cl hcl
  have := Spells.list hl hi .nil hr
  exact ⟨.list vs, by simpa using this⟩

theorem Closable.dotted (hl : l.kind = .openParen) (hi : Items true ts vs) (hd : d.kind = .dot)
    (hs : vs ≠ [] → d.spaced = true) (h : Closable Spells p f) :
    Closable Spells (l :: (ts ++ d :: p)) f := by
  obtain ⟨k, hk, hc⟩ := h
  refine ⟨k + 1, ?_, ?_⟩
  · rw [List.length_cons, List.length_append, List.length_cons]
    omega
  · intro cl hcl
    obtain ⟨cl, r, rfl, hcl, hr⟩ := hcl.exists_concat
    obtain ⟨v, hv⟩ := hc cl hcl
    have := Spells.dotted hl hi .nil hd hs .nil hv .nil hr
    exact ⟨.dotted vs v, by simpa using this⟩

/-- The expressions behind the first one are finished. -/
theorem Closable.behind {first : Bool} {t : Token} {v : Value}
    (hs : first = false → t.spaced = true) (h : Spells (t :: ts) v) (hc : Closable (Items false) p f) :
    Closable (Items first) (t :: ts ++ p) f := by
  obtain ⟨k, hk, hc⟩ := hc
  refine ⟨k, ?_, ?_⟩
  · rw [List.length_append]
    omega
  · intro cl hcl
    obtain ⟨vs, hi⟩ := hc cl hcl
    have := Items.cons .nil hs h hi
    exact ⟨v :: vs, by simpa using this⟩

/-- The expression that the tokens begin is the last one. -/
theorem Closable.alone {first : Bool} {t : Token} (hs : first = false → t.spaced = true)
    (hc : Closable Spells (t :: p) f) : Closable (Items first) (t :: p) f := by
  obtain ⟨k, hk, hc⟩ := hc
  refine ⟨k, hk, ?_⟩
  intro cl hcl
  obtain ⟨v, h⟩ := hc cl hcl
  have := Items.cons .nil hs h (.nil false)
  exact ⟨[v], by simpa using this⟩

end Closable

mutual

/-- By induction on the derivation. What stands behind the place is dropped, and every parenthesis
that is open there is closed. -/
theorem Spells.close : ∀ {ts : List Token} {v : Value}, Spells ts v → ∀ {p q f : List Token},
    ts = p ++ q → p ≠ [] → q ≠ [] → Bare p → Fills p q f → Closable Spells p f
  | _, _, .literal h, p, q, f => by
    intro he hp hq
    have hl := congrArg List.length he
    rw [List.length_singleton, List.length_append] at hl
    have := List.length_pos_iff.mpr hp
    have := List.length_pos_iff.mpr hq
    omega
  | _, _, .quotation (q := m) (t := t) hm ht h, p, q, f => by
    intro he hp hq hb hf
    obtain ⟨p, rfl, hpq⟩ := (List.cons_eq_append_iff.mp he).resolve_left fun h => hp h.1
    by_cases hn : p = []
    · subst hn
      obtain rfl : t :: _ = q := hpq
      obtain ⟨a, v, rfl, ha, hs⟩ := hf.behind_quote hm ht
      exact .of_derives (.quotation hm hs (.literal ha))
    · have hf' : Fills p q f := @Fills.behind p q f [m] hf fun h => absurd h hn
      obtain ⟨k, hk, hc⟩ := h.close hpq hn hq hb.tail hf'
      refine ⟨k, Nat.le_succ_of_le hk, ?_⟩
      intro cl hcl
      obtain ⟨v, hv⟩ := hc cl hcl
      obtain ⟨p', rfl, -⟩ := (List.cons_eq_append_iff.mp hpq).resolve_left fun h => hn h.1
      exact ⟨_, .quotation hm ht hv⟩
  | _, _, .list (l := l) (r := r) hl hi hc hr, p, q, f => by
    intro he hp hq hb hf
    obtain ⟨p, rfl, hpq⟩ := (List.cons_eq_append_iff.mp he).resolve_left fun h => hp h.1
    rcases exists_element_place hc hb.tail hpq with ⟨q', hts, rfl⟩ | ⟨-, p', -, hn⟩
    · have hf' := (hf.behind_paren hl).before fun _ => hc.head_not_begins (by rw [hr]; rfl)
      exact .list hl (hi.close hts hb.tail hf')
    · exact absurd (List.append_eq_nil_iff.mp hn.symm).2 hq
  | _, _, @Spells.dotted l d r ts _ cs₁ us cs₂ _ _ hl hi hc hd hs hc₁ h hc₂ hr, p, q, f => by
    intro he hp hq hb hf
    obtain ⟨p, rfl, hpq⟩ := (List.cons_eq_append_iff.mp he).resolve_left fun h => hp h.1
    rcases exists_element_place hc hb.tail hpq with ⟨q', hts, rfl⟩ | ⟨rfl, p', rfl, htail⟩
    · have hf' := (hf.behind_paren hl).before fun _ => hc.head_not_begins (by rw [hd]; rfl)
      exact .list hl (hi.close hts hb.tail hf')
    · apply Closable.dotted hl hi hd hs
      -- what stands in front of the place is a part of the tail
      have hb' : Bare p' := fun u hu => hb.tail u (by simp [hu])
      by_cases hn : p' = []
      · subst hn
        have hl : d ∈ (l :: ts ++ [d]).getLast? := List.getLast?_concat
        obtain ⟨a, v, rfl, ha⟩ := hf.behind_dot hl hd
        exact .of_derives (.literal ha)
      · obtain rfl := hc₁.eq_nil_of_bare htail hb' hn
        have hf' : Fills p' q f :=
          @Fills.behind p' q f (l :: (ts ++ [d])) (by simpa using hf) fun h => absurd h hn
        rcases exists_element_place hc₂ hb' htail with ⟨q', rfl, rfl⟩ | ⟨-, p', -, hnil⟩
        · have hf'' := hf'.before fun _ => hc₂.head_not_begins (by rw [hr]; rfl)
          by_cases hq' : q' = []
          · subst hq'
            rw [List.append_nil] at h
            obtain rfl := hf''.eq_nil h.last_awaits_nothing nofun
            exact .of_derives (by rwa [List.append_nil])
          · exact h.close rfl hn hq' hb' hf''
        · exact absurd (List.append_eq_nil_iff.mp hnil.symm).2 hq

/-- The same of the elements of a list. -/
theorem Items.close : ∀ {first : Bool} {ts : List Token} {vs : List Value}, Items first ts vs →
    ∀ {p q f : List Token}, ts = p ++ q → Bare p → Fills p q f → Closable (Items first) p f
  | _, _, _, .nil first, p, q, f => by
    intro he hb hf
    obtain ⟨rfl, rfl⟩ := List.append_eq_nil_iff.mp he.symm
    obtain rfl := hf.eq_nil nofun nofun
    exact .of_derives (.nil first)
  | first, _, _, @Items.cons _ cs ts us t _ _ hc ht h hi, p, q, f => by
    intro he hb hf
    by_cases hn : p = []
    · subst hn
      cases hf with
      | nothing => exact .of_derives (.nil first)
      | awaited _ hl => cases hl
      | @instead u a _ v ha hq hu hs =>
        subst hq
        obtain rfl : cs = [] := by
          by_contra hcs
          obtain ⟨c, cs', rfl⟩ := List.exists_cons_of_ne_nil hcs
          obtain ⟨rfl, -⟩ := List.cons.inj he
          rw [hc c List.mem_cons_self] at hu
          cases hu
        obtain ⟨rfl, -⟩ := List.cons.inj he
        have hs' : first = false → a.spaced = true := fun h => hs.trans (ht h)
        exact .of_derives (.cons .nil hs' (.literal ha) (.nil false))
    · obtain rfl := hc.eq_nil_of_bare he hb hn
      rw [List.nil_append] at he
      rcases List.append_eq_append_iff.mp he with ⟨p', rfl, hp'⟩ | ⟨q', hq', rfl⟩
      · have hb' : Bare p' := fun u hu => hb u (List.mem_append_right (t :: ts) hu)
        have hf' : Fills p' q f := hf.behind fun _ => h.last_awaits_nothing
        exact .behind ht h (hi.close hp' hb' hf')
      · by_cases hq : q' = []
        · subst hq
          obtain rfl : t :: ts = p := by rwa [List.append_nil] at hq'
          have hf' : Fills [] us f := by
            apply @Fills.behind [] us f (t :: ts) _ fun _ => h.last_awaits_nothing
            rwa [List.append_nil]
          have := Closable.behind ht h (hi.close rfl .nil hf')
          rwa [List.append_nil] at this
        · have hf' : Fills p q' f := hf.before fun h => absurd h hq
          have hv := h.close hq' hn hq hb hf'
          obtain ⟨p', rfl, -⟩ := (List.cons_eq_append_iff.mp hq').resolve_left fun h => hn h.1
          exact .alone ht hv

end

/-- Tokens in front of a place of a program can be finished as what stands there allows. -/
theorem Forms.close {first : Bool} {p q f : List Token} {vs : List Value}
    (h : Forms first (p ++ q) vs) (hp : Bare p) (hf : Fills p q f) :
    Closable (Forms first) p f := by
  obtain ⟨us, cs, he, hi, hc⟩ := h
  have hhead : ∀ t ∈ cs.head?, begins t.kind = false := by
    intro t ht
    rw [hc t (List.mem_of_mem_head? ht)]
    rfl
  have hclose : Closable (Items first) p f := by
    rcases List.append_eq_append_iff.mp he with ⟨q', rfl, rfl⟩ | ⟨p', rfl, rfl⟩
    · exact hi.close rfl hp (hf.before fun _ => hhead)
    · -- a comment would stand among the tokens
      obtain rfl : p' = [] := by
        by_contra hn
        obtain ⟨c, p', rfl⟩ := List.exists_cons_of_ne_nil hn
        exact hp c (by simp) (hc c (by simp))
      rw [List.append_nil] at hp hf ⊢
      have hf' : Fills us [] f := Fills.before (q := []) hf fun _ => hhead
      exact hi.close (List.append_nil us).symm hp hf'
  obtain ⟨k, hk, hcl⟩ := hclose
  refine ⟨k, hk, ?_⟩
  intro cl hc
  obtain ⟨ws, hw⟩ := hcl cl hc
  exact ⟨ws, _, [], (List.append_nil _).symm, hw, .nil⟩

/-- What every token of a program owes to itself and to the token behind it: it is no number that is
too large, and a quotation mark is touched. -/
def Proper : List Token → Prop
  | [] => True
  | t :: ts => (single t.kind = true → ∃ v, Literal t v) ∧
      (t.kind = .quote → ∃ u ∈ ts.head?, u.spaced = false) ∧ Proper ts

namespace Proper

variable {t : Token} {ts us : List Token}

theorem append (h : Proper ts) (h' : Proper us) : Proper (ts ++ us) := by
  induction ts with
  | nil => exact h'
  | cons t ts ih =>
    obtain ⟨hl, hq, hts⟩ := h
    refine ⟨hl, ?_, ih hts⟩
    intro hk
    obtain ⟨u, hu, hs⟩ := hq hk
    exact ⟨u, List.mem_head?_append_of_mem_head? hu, hs⟩

theorem cons (hs : single t.kind = false) (hq : t.kind ≠ .quote) (h : Proper ts) :
    Proper (t :: ts) := by
  refine ⟨?_, fun hk => absurd hk hq, h⟩
  intro hk
  rw [hs] at hk
  cases hk

theorem literal {v : Value} (h : Literal t v) : Proper [t] := by
  refine ⟨fun _ => ⟨v, h⟩, ?_, trivial⟩
  intro hk
  cases h with
  | number ht | string ht | char ht | yes ht | no ht | atom ht =>
    rw [hk] at ht
    cases ht

end Proper

theorem Comments.proper {cs : List Token} (h : Comments cs) : Proper cs := by
  induction cs with
  | nil => trivial
  | cons c cs ih =>
    have hc := h c List.mem_cons_self
    apply Proper.cons (by rw [hc]; rfl) (by rw [hc]; nofun)
    exact ih fun d hd => h d (List.mem_cons_of_mem c hd)

mutual

theorem Spells.proper : ∀ {ts : List Token} {v : Value}, Spells ts v → Proper ts
  | _, _, .literal h => .literal h
  | _, _, .quotation (t := t) hm ht h => by
    refine ⟨?_, fun _ => ⟨t, rfl, ht⟩, h.proper⟩
    intro hs
    rw [hm] at hs
    cases hs
  | _, _, .list hl hi hc hr => by
    have hend : Proper [_] := .cons (by rw [hr]; rfl) (by rw [hr]; nofun) trivial
    exact .cons (by rw [hl]; rfl) (by rw [hl]; nofun) (hi.proper.append (hc.proper.append hend))
  | _, _, .dotted hl hi hc hd _ hc₁ h hc₂ hr => by
    have hend : Proper [_] := .cons (by rw [hr]; rfl) (by rw [hr]; nofun) trivial
    have htail := hc₁.proper.append (h.proper.append (hc₂.proper.append hend))
    have hdot := Proper.cons (by rw [hd]; rfl) (by rw [hd]; nofun) htail
    exact .cons (by rw [hl]; rfl) (by rw [hl]; nofun) (hi.proper.append (hc.proper.append hdot))

theorem Items.proper : ∀ {first : Bool} {ts : List Token} {vs : List Value},
    Items first ts vs → Proper ts
  | _, _, _, .nil _ => trivial
  | _, _, _, .cons hc _ h hi => hc.proper.append (h.proper.append hi.proper)

end

theorem Forms.proper {first : Bool} {ts : List Token} {vs : List Value} (h : Forms first ts vs) :
    Proper ts := by
  obtain ⟨us, cs, rfl, hi, hc⟩ := h
  exact hi.proper.append hc.proper

end Grammar

end SmallScheme
