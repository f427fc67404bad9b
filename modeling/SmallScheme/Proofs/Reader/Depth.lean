import SmallScheme.Proofs.Reader.Grammar
import SmallScheme.Proofs.Token.Terminals

/-!
# Open lists in front of a token

What the grammar derives opens and closes its own lists. So tokens in front of a place of a program
leave open exactly the lists around the place: where none is open, either a quotation mark stands
right before the place, or the tokens in front of it are a program of their own
(`Grammar.Forms.cut`).
-/

namespace SmallScheme

set_option autoImplicit false

namespace Grammar

open Terminal

/-- Tokens that open so many more lists than they close, and close no list open before them. -/
def Raises (ts : List Token) (k : Nat) : Prop :=
  ∀ depth rest, leavesOpen depth (ts.map (·.kind.terminal) ++ rest) = leavesOpen (depth + k) rest

namespace Raises

variable {t : Token} {ts us : List Token} {k m : Nat}

theorem nil : Raises [] 0 := fun _ _ => rfl

theorem append (h : Raises ts k) (h' : Raises us m) : Raises (ts ++ us) (k + m) := by
  intro depth rest
  rw [List.map_append, List.append_assoc, h, h', Nat.add_assoc]

theorem single (h : t.kind.terminal = .other) : Raises [t] 0 := by
  intro depth rest
  rw [List.map_singleton, h]
  cases depth <;> rfl

theorem openParen (h : t.kind = .openParen) : Raises [t] 1 := by
  intro depth rest
  rw [List.map_singleton, h]
  cases depth <;> rfl

theorem close (h : Raises ts (k + 1)) (ht : t.kind = .closeParen) : Raises (ts ++ [t]) k := by
  intro depth rest
  rw [List.map_append, List.append_assoc, h, List.map_singleton, ht]
  rfl

theorem leavesOpen_eq (h : Raises ts k) :
    leavesOpen 0 (ts.map (·.kind.terminal)) = decide (k ≠ 0) := by
  have h := h 0 []
  rwa [List.append_nil, Nat.zero_add] at h

end Raises

/-- Tokens that close the lists that they open, and no other. -/
structure Level (ts : List Token) : Prop where
  raises : Raises ts 0
  cut : ∀ p q, ts = p ++ q → ∃ k, Raises p k

namespace Level

variable {l r t : Token} {ts us : List Token}

theorem nil : Level [] := by
  refine ⟨.nil, fun p q h => ?_⟩
  obtain ⟨rfl, -⟩ := List.append_eq_nil_iff.mp h.symm
  exact ⟨0, .nil⟩

theorem append (h : Level ts) (h' : Level us) : Level (ts ++ us) := by
  refine ⟨h.raises.append h'.raises, fun p q hp => ?_⟩
  rcases List.append_eq_append_iff.mp hp with ⟨p', rfl, hp'⟩ | ⟨q', hq', -⟩
  · obtain ⟨k, hk⟩ := h'.cut p' q hp'
    exact ⟨0 + k, h.raises.append hk⟩
  · exact h.cut p q' hq'

theorem single (h : t.kind.terminal = .other) : Level [t] := by
  refine ⟨.single h, fun p q hp => ?_⟩
  cases p with
  | nil => exact ⟨0, .nil⟩
  | cons u p =>
    obtain ⟨rfl, hn⟩ := List.cons.inj hp
    obtain ⟨rfl, -⟩ := List.append_eq_nil_iff.mp hn.symm
    exact ⟨0, .single h⟩

theorem cons (h : t.kind.terminal = .other) (hts : Level ts) : Level (t :: ts) :=
  (single h).append hts

/-- A place inside a list has the list open around it. -/
theorem inside (h : Level ts) (hl : l.kind = .openParen) {p q : List Token}
    (hp : l :: (ts ++ [r]) = p ++ q) (hne : p ≠ []) (hq : q ≠ []) : ∃ k, Raises p (k + 1) := by
  obtain ⟨u, p, rfl⟩ := List.exists_cons_of_ne_nil hne
  obtain ⟨rfl, hts⟩ := List.cons.inj hp
  have hcut : ∃ q', ts = p ++ q' := by
    rcases List.append_eq_append_iff.mp hts with ⟨p', hp', hq'⟩ | ⟨q', hq', -⟩
    · cases p' with
      | nil => exact ⟨[], by rw [hp', List.append_nil, List.append_nil]⟩
      | cons v p' =>
        obtain ⟨-, hq'⟩ := List.cons.inj hq'
        exact absurd (List.append_eq_nil_iff.mp hq'.symm).2 hq
    · exact ⟨q', hq'⟩
  obtain ⟨q', hq'⟩ := hcut
  obtain ⟨k, hk⟩ := h.cut p q' hq'
  refine ⟨k, ?_⟩
  rw [Nat.add_comm]
  exact (Raises.openParen hl).append hk

theorem list (h : Level ts) (hl : l.kind = .openParen) (hr : r.kind = .closeParen) :
    Level (l :: (ts ++ [r])) := by
  have hall : Raises (l :: (ts ++ [r])) 0 := by
    have ho : Raises ([l] ++ ts) (0 + 1) := (Raises.openParen hl).append h.raises
    exact ho.close hr
  refine ⟨hall, fun p q hp => ?_⟩
  by_cases hne : p = []
  · exact ⟨0, hne ▸ .nil⟩
  by_cases hq : q = []
  · rw [hq, List.append_nil] at hp
    exact ⟨0, hp ▸ hall⟩
  · obtain ⟨k, hk⟩ := h.inside hl hp hne hq
    exact ⟨k + 1, hk⟩

end Level

theorem Comments.level {cs : List Token} (h : Comments cs) : Level cs := by
  induction cs with
  | nil => exact .nil
  | cons c cs ih =>
    have hc := h c List.mem_cons_self
    exact .cons (by rw [hc]; rfl) (ih fun d hd => h d (List.mem_cons_of_mem c hd))

theorem Literal.terminal {t : Token} {v : Value} (h : Literal t v) : t.kind.terminal = .other := by
  cases h with
  | number hk | string hk | char hk | yes hk | no hk | atom hk => rw [hk]; rfl

mutual

theorem Spells.level : ∀ {ts : List Token} {v : Value}, Spells ts v → Level ts
  | _, _, .literal h => .single h.terminal
  | _, _, .quotation hq _ h => .cons (by rw [hq]; rfl) h.level
  | _, _, .list hl hi hc hr => by
    have h := (hi.level.append hc.level).list hl hr
    rwa [List.append_assoc] at h
  | _, _, .dotted hl hi hc hd _ hc₁ h hc₂ hr => by
    have hd := Level.cons (by rw [hd]; rfl) (hc₁.level.append (h.level.append hc₂.level))
    have h := (hi.level.append (hc.level.append hd)).list hl hr
    simpa only [List.append_assoc, List.cons_append] using h

theorem Items.level : ∀ {first : Bool} {ts : List Token} {vs : List Value},
    Items first ts vs → Level ts
  | _, _, _, .nil _ => .nil
  | _, _, _, .cons hc _ h hi => hc.level.append (h.level.append hi.level)

end

/-- Inside an expression a list is open, or the next token follows a quotation mark. -/
theorem Spells.inside {p q : List Token} : ∀ {ts : List Token} {v : Value}, Spells ts v →
    ts = p ++ q → p ≠ [] → q ≠ [] →
      (∃ k, Raises p (k + 1)) ∨ Raises p 0 ∧ ∃ t ∈ q.head?, t.spaced = false
  | _, _, .literal _ => by
    intro hp hne hq
    have hl := congrArg List.length hp
    rw [List.length_append, List.length_singleton] at hl
    have := List.length_pos_iff.mpr hne
    have := List.length_pos_iff.mpr hq
    omega
  | _, _, @Spells.quotation m t ts v hm hs h => by
    intro hp hne hq
    obtain ⟨u, p, rfl⟩ := List.exists_cons_of_ne_nil hne
    obtain ⟨rfl, hts⟩ := List.cons.inj hp
    have hm : Raises [m] 0 := .single (by rw [hm]; rfl)
    by_cases hn : p = []
    · subst hn
      exact .inr ⟨hm, t, congrArg List.head? hts.symm, hs⟩
    · rcases h.inside hts hn hq with ⟨k, hk⟩ | ⟨hk, ht⟩
      · exact .inl ⟨k, Nat.zero_add (k + 1) ▸ hm.append hk⟩
      · exact .inr ⟨hm.append hk, ht⟩
  | _, _, .list hl hi hc hr => by
    intro hp hne hq
    rw [← List.append_assoc] at hp
    exact .inl ((hi.level.append hc.level).inside hl hp hne hq)
  | _, _, @Spells.dotted l d r ts cs cs₁ us cs₂ vs v hl hi hc hd _ hc₁ h hc₂ hr => by
    intro hp hne hq
    have hd := Level.cons (by rw [hd]; rfl) (hc₁.level.append (h.level.append hc₂.level))
    have hin := hi.level.append (hc.level.append hd)
    have hp : l :: ((ts ++ (cs ++ d :: (cs₁ ++ (us ++ cs₂)))) ++ [r]) = p ++ q := by
      rw [← hp]
      simp only [List.append_assoc, List.cons_append]
    exact .inl (hin.inside hl hp hne hq)

/-- Where no list is open between tokens of expressions, the next token follows a quotation mark,
or the tokens so far are expressions. -/
def Cut (first : Bool) (p q : List Token) : Prop :=
  ∃ k, Raises p k ∧ (k = 0 → (∃ t ∈ q.head?, t.spaced = false) ∨ ∃ vs, Forms first p vs)

theorem Comments.cut {p q : List Token} (h : Comments p) (first : Bool) : Cut first p q :=
  ⟨0, h.level.raises, fun _ => .inr ⟨[], [], p, rfl, .nil first, h⟩⟩

theorem Items.cut {p q : List Token} : ∀ {first : Bool} {ts : List Token} {vs : List Value},
    Items first ts vs → ts = p ++ q → Cut first p q
  | first, _, _, .nil _ => by
    intro hp
    obtain ⟨rfl, -⟩ := List.append_eq_nil_iff.mp hp.symm
    exact Comments.nil.cut first
  | first, _, _, @Items.cons _ cs ts us t v vs hc ht hv hi => by
    intro hp
    rcases List.append_eq_append_iff.mp hp with ⟨p', rfl, hp'⟩ | ⟨q', rfl, -⟩
    · rcases List.append_eq_append_iff.mp hp' with ⟨p', rfl, hus⟩ | ⟨q', hts, rfl⟩
      -- The place is behind the first expression.
      · obtain ⟨k, hk, hz⟩ := hi.cut hus
        refine ⟨0 + (0 + k), hc.level.raises.append (hv.level.raises.append hk), fun hk => ?_⟩
        rcases hz (by omega) with hq | ⟨ws, us', cs', rfl, hi', hc'⟩
        · exact .inl hq
        · refine .inr ⟨v :: ws, cs ++ (t :: ts ++ us'), cs', ?_, .cons hc ht hv hi', hc'⟩
          simp only [List.append_assoc]
      · by_cases hne : p' = []
        · rw [hne, List.append_nil]
          exact hc.cut first
        by_cases hq : q' = []
        · rw [hq, List.append_nil] at hts
          rw [← hts]
          refine ⟨0 + 0, hc.level.raises.append hv.level.raises, fun _ => .inr ⟨[v], _, [], ?_,
            .cons hc ht hv (.nil false), .nil⟩⟩
          rw [List.append_nil, List.append_nil]
        · rcases hv.inside hts hne hq with ⟨k, hk⟩ | ⟨hk, t, ht, hs⟩
          · exact ⟨0 + (k + 1), hc.level.raises.append hk, fun h => absurd h (by omega)⟩
          · refine ⟨0 + 0, hc.level.raises.append hk, fun _ => .inl ⟨t, ?_, hs⟩⟩
            exact List.head?_append.trans (by rw [Option.mem_def.mp ht]; rfl)
    · exact Comments.cut (fun d hd => hc d (List.mem_append_left q' hd)) first

theorem Forms.raises {first : Bool} {ts : List Token} {vs : List Value}
    (h : Forms first ts vs) : Raises ts 0 := by
  obtain ⟨us, cs, rfl, hi, hc⟩ := h
  exact hi.level.raises.append hc.level.raises

theorem Forms.cut {first : Bool} {p q : List Token} {vs : List Value}
    (h : Forms first (p ++ q) vs) : Cut first p q := by
  obtain ⟨us, cs, hp, hi, hc⟩ := h
  rcases List.append_eq_append_iff.mp hp with ⟨p', rfl, hq⟩ | ⟨q', rfl, hcs⟩
  · obtain ⟨k, hk, hz⟩ := hi.cut rfl
    refine ⟨k, hk, fun h0 => (hz h0).imp_left ?_⟩
    rintro ⟨t, ht, hs⟩
    refine ⟨t, ?_, hs⟩
    rw [hq, List.head?_append, Option.mem_def.mp ht]
    rfl
  · have hc' : Comments q' := fun d hd => hc d (hcs ▸ List.mem_append_left q hd)
    exact ⟨0 + 0, hi.level.raises.append hc'.level.raises, fun _ => .inr ⟨vs, us, q', rfl, hi, hc'⟩⟩

/-- The kinds of tokens that await an expression. -/
def awaits : TokenKind → Bool
  | .quote | .dot => true
  | _ => false

/-- An expression never ends with a token that awaits one. -/
theorem Spells.exists_last {ts : List Token} {v : Value} (h : Spells ts v) :
    ∃ us t, ts = us ++ [t] ∧ awaits t.kind = false := by
  induction ts generalizing v with
  | nil => cases h
  | cons t ts ih =>
    cases h with
    | literal h =>
      refine ⟨[], t, rfl, ?_⟩
      cases h with
      | number hk | string hk | char hk | yes hk | no hk | atom hk => rw [hk]; rfl
    | quotation _ _ h =>
      obtain ⟨us, u, hu, hd⟩ := ih h
      exact ⟨t :: us, u, by rw [hu]; rfl, hd⟩
    | @list _ r ts cs _ _ _ _ hr => exact ⟨t :: (ts ++ cs), r, by simp, by rw [hr]; rfl⟩
    | @dotted _ d r ts cs cs₁ us cs₂ _ _ _ _ _ _ _ _ _ _ hr =>
      exact ⟨t :: (ts ++ (cs ++ d :: (cs₁ ++ (us ++ cs₂)))), r, by simp, by rw [hr]; rfl⟩

theorem Items.last_ne_dot {p : List Token} {d : Token} : ∀ {first : Bool} {ts : List Token}
    {vs : List Value}, Items first ts vs → ts = p ++ [d] → d.kind ≠ .dot
  | _, _, _, .nil _ => by simp
  | _, _, _, @Items.cons _ cs ts us t v vs _ _ hv hi => by
    intro hp
    rcases List.eq_nil_or_concat us with rfl | ⟨us', u, rfl⟩
    · obtain ⟨ts', t', ht, hd⟩ := hv.exists_last
      rw [List.append_nil, ht, ← List.append_assoc] at hp
      obtain ⟨-, hd'⟩ := List.append_inj' hp rfl
      obtain rfl := List.cons.inj hd' |>.1
      intro hdot
      rw [hdot] at hd
      cases hd
    · rw [← List.append_assoc, List.concat_eq_append, ← List.append_assoc] at hp
      obtain ⟨-, hd'⟩ := List.append_inj' hp rfl
      exact (List.cons.inj hd').1 ▸ hi.last_ne_dot (List.concat_eq_append)

theorem Forms.last_ne_dot {first : Bool} {p : List Token} {d : Token} {vs : List Value}
    (h : Forms first (p ++ [d]) vs) : d.kind ≠ .dot := by
  obtain ⟨us, cs, hp, hi, hc⟩ := h
  rcases List.eq_nil_or_concat cs with rfl | ⟨cs', c, rfl⟩
  · rw [List.append_nil] at hp
    exact hi.last_ne_dot hp.symm
  · rw [List.concat_eq_append, ← List.append_assoc] at hp
    obtain ⟨-, hd⟩ := List.append_inj' hp rfl
    rw [(List.cons.inj hd).1, hc c (by simp)]
    exact nofun

end Grammar

end SmallScheme
