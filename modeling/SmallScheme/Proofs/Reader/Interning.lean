import Mathlib.Data.Finset.Card
import SmallScheme.Proofs.Reader.Places

/-!
# Interning

A symbol table that begins empty answers every name with that name, whatever it has been asked
before, and counts the distinct ones (`SymbolTable.answers_empty`). A reader hands one table on
through all that it reads. Reading a source interns the names of its atoms in the order of the text,
up to the place where it fails (`Reader.interns_readSource`), and keeps the table faithful there as
well as at its end; so nothing that is read depends on the table (`Reader.interning_invisible`).
-/

namespace SmallScheme

set_option autoImplicit false

namespace SymbolTable

/-- The number of names kept; a table that is absent keeps none. -/
def count (table : Option SymbolTable) : Nat := (table.map size).getD 0

/-- The table behind names that are interned one after another. -/
def internAll (table : Option SymbolTable) (names : List Text) : Option SymbolTable :=
  names.foldl (fun table name => (intern? table name).2) table

/-- The answers to names that are interned one after another, each with the number of names kept
behind it. -/
def answers : Option SymbolTable → List Text → List (Text × Nat)
  | _, [] => []
  | table, name :: names =>
    ((intern? table name).1, count (intern? table name).2) :: answers (intern? table name).2 names

variable {table : SymbolTable} {name : Text}

theorem keys_intern (table : SymbolTable) (name : Text) :
    (table.intern name).2.keys =
      if name ∈ table.keys then table.keys else name :: table.keys := by
  unfold intern
  cases hf : table.entries.lookup name with
  | some kept =>
    have hm : name ∈ table.keys := List.mem_map.mpr ⟨_, mem_of_lookup hf, rfl⟩
    rw [if_pos hm]
  | none =>
    rw [if_neg (not_mem_of_lookup hf)]
    rfl

theorem toFinset_intern (table : SymbolTable) (name : Text) :
    (table.intern name).2.keys.toFinset = insert name table.keys.toFinset := by
  rw [keys_intern]
  split
  · rename_i hm
    exact (Finset.insert_eq_of_mem (List.mem_toFinset.mpr hm)).symm
  · exact List.toFinset_cons

theorem internAll_append (table : Option SymbolTable) (names more : List Text) :
    internAll table (names ++ more) = internAll (internAll table names) more :=
  List.foldl_append

theorem isSome_internAll (table : Option SymbolTable) (names : List Text) :
    (internAll table names).isSome = table.isSome := by
  induction names generalizing table with
  | nil => rfl
  | cons name names ih => exact (ih _).trans (by cases table <;> rfl)

theorem count_internAll (h : table.Faithful) (names : List Text) :
    count (internAll (some table) names) = (table.keys.toFinset ∪ names.toFinset).card := by
  induction names generalizing table with
  | nil =>
    rw [List.toFinset_nil, Finset.union_empty, List.toFinset_card_of_nodup h.nodup, keys,
      List.length_map]
    rfl
  | cons name names ih =>
    have hi := ih (h.intern name)
    rw [toFinset_intern, Finset.insert_union] at hi
    rw [List.toFinset_cons, Finset.union_insert]
    exact hi

theorem count_internAll_empty (names : List Text) :
    count (internAll (some .empty) names) = names.toFinset.card := by
  have he : empty.keys.toFinset = ∅ := rfl
  rw [count_internAll faithful_empty, he, Finset.empty_union]

theorem answers_eq {symbols : Option SymbolTable} (h : Faithful? symbols) (names : List Text) :
    answers symbols names =
      names.mapIdx fun i name => (name, count (internAll symbols (names.take (i + 1)))) := by
  induction names generalizing symbols with
  | nil => rfl
  | cons name names ih =>
    rw [answers, ih (faithful_intern? h name), List.mapIdx_cons, fst_intern? h]
    rfl

/-- A table that begins empty counts the distinct names so far. -/
theorem answers_empty (names : List Text) :
    answers (some .empty) names =
      names.mapIdx fun i name => (name, (names.take (i + 1)).toFinset.card) := by
  rw [answers_eq faithful?_empty]
  simp only [count_internAll_empty]

theorem answers_none (names : List Text) :
    answers none names = names.map fun name => (name, 0) := by
  induction names with
  | nil => rfl
  | cons name names ih =>
    rw [List.map_cons, ← ih]
    rfl

end SymbolTable

/-- The name that a token is interned for. -/
def Token.atom? (t : Token) : Option Text :=
  if t.kind = .symbol ∧ t.text ≠ .ofString "#t" ∧ t.text ≠ .ofString "#f" then some t.text else none

namespace Reader

open SymbolTable (Faithful? faithful?_empty faithful?_none internAll internAll_append)

/-- The names of the atoms among tokens. -/
def atoms (ts : List Token) : List Text := ts.filterMap Token.atom?

/-- Names of the tokens ahead have been interned in order, and all those that have been passed if
reading has not failed. -/
def Interns {α : Type} (symbols : Option SymbolTable) (ts : List Token) (r : Reading α) : Prop :=
  ∃ names rest, atoms ts = names ++ rest ∧ r.2.symbols = internAll symbols names ∧
    ∀ v, r.1 = .ok v → rest = atoms r.2.pending

/-- What an action does to the table. -/
def Action.Interns (symbols : Option SymbolTable) (t : Token) : Action → Prop
  | .skip | .quote _ | .enter _ _ => t.atom? = none
  | .value _ symbols' _ => symbols' = internAll symbols t.atom?.toList
  | .refuse _ => True

section Actions

variable {symbols : Option SymbolTable} {t : Token}

theorem atom?_of_kind {k : TokenKind} (h : t.kind = k) (hk : k ≠ .symbol) : t.atom? = none :=
  if_neg fun hs => hk (h.symm.trans hs.1)

theorem interns_symbol (hk : t.kind = .symbol) :
    (symbolValue symbols t.text).2 = internAll symbols t.atom?.toList := by
  unfold symbolValue Token.atom?
  by_cases h₁ : t.text = .ofString "#t"
  · simp only [h₁, ne_eq, not_true_eq_false, false_and, and_false, if_false, if_true]
    rfl
  by_cases h₂ : t.text = .ofString "#f"
  · simp only [h₂, ne_eq, not_true_eq_false, and_false, if_false, if_true]
    rfl
  · simp only [hk, h₁, h₂, ne_eq, not_false_eq_true, and_self, if_false, if_true]
    rfl

theorem interns_literal {within : List Context} (h : t.atom? = none)
    (r : Except Complaint Value) : (literal symbols within r).Interns symbols t := by
  cases r with
  | ok v =>
    rw [literal, Action.Interns, h]
    rfl
  | error c => trivial

theorem interns_begin (within : List Context) :
    (begin symbols within t).Interns symbols t := by
  cases hk : t.kind with
  | int | char =>
    simp only [begin, hk]
    exact interns_literal (atom?_of_kind hk (by decide)) _
  | string =>
    have ha := atom?_of_kind hk (by decide)
    simp only [begin, hk, Action.Interns, ha]
    rfl
  | symbol =>
    simp only [begin, hk]
    exact interns_symbol hk
  | quote | openParen =>
    simp only [begin, hk]
    exact atom?_of_kind hk (by decide)
  | _ =>
    simp only [begin, hk]
    trivial

theorem interns_act (mode : Mode) : (act symbols mode t).Interns symbols t := by
  have closing (h : t.kind = .closeParen) (v : Value) :
      (Action.value v symbols []).Interns symbols t := by
    rw [Action.Interns, atom?_of_kind h (by decide)]
    rfl
  unfold act
  split
  · rename_i hk
    exact atom?_of_kind hk (by decide)
  cases mode with
  | expression => exact interns_begin []
  | element done =>
    dsimp only
    split
    · trivial
    split
    · rename_i hk
      exact closing hk _
    split
    · trivial
    split
    · rename_i hk
      exact atom?_of_kind hk (by decide)
    · exact interns_begin [.element done]
  | close list =>
    dsimp only
    split
    · rename_i hk
      exact closing hk list
    · trivial

end Actions

section Readings

variable {α : Type} {symbols symbols' : Option SymbolTable} {t : Token} {ts : List Token}

theorem interns_error {f : Fault} {c : Cursor} (h : c.symbols = symbols) (ts : List Token) :
    Interns symbols ts ((.error f, c) : Reading α) :=
  ⟨[], atoms ts, rfl, h, fun v hv => by cases hv⟩

theorem interns_ok {v : α} {c : Cursor} (h : c.symbols = symbols)
    (hp : atoms ts = atoms c.pending) : Interns symbols ts ((.ok v, c) : Reading α) :=
  ⟨[], atoms ts, rfl, h, fun _ _ => hp⟩

theorem Interns.behind {r : Reading α} (hs : symbols' = internAll symbols t.atom?.toList)
    (h : Interns symbols' ts r) : Interns symbols (t :: ts) r := by
  obtain ⟨names, rest, hn, ht, hr⟩ := h
  refine ⟨t.atom?.toList ++ names, rest, ?_, ?_, hr⟩
  · rw [List.append_assoc, ← hn]
    cases ha : t.atom? with
    | none => exact List.filterMap_cons_none ha
    | some name => exact List.filterMap_cons_some ha
  · rw [ht, hs, internAll_append]

theorem Interns.passed {r : Reading α} (ha : t.atom? = none) (h : Interns symbols ts r) :
    Interns symbols (t :: ts) r := by
  apply Interns.behind _ h
  rw [ha]
  rfl

theorem interns_walk (repeated : Token) (ts : List Token) (mode : Mode) (around : List Context)
    (symbols : Option SymbolTable) : Interns symbols ts (walk repeated ts mode around symbols) := by
  induction ts generalizing mode around symbols with
  | nil => exact interns_error rfl []
  | cons t ts ih =>
    have ha := @interns_act symbols t mode
    rw [walk_cons]
    cases hact : act symbols mode t with
    | refuse k => exact interns_error rfl (t :: ts)
    | skip =>
      rw [hact] at ha
      exact (ih mode around symbols).passed ha
    | enter mode within =>
      rw [hact] at ha
      exact (ih mode (within ++ around) symbols).passed ha
    | quote within =>
      rw [hact] at ha
      simp only [perform]
      split
      · exact (ih _ _ symbols).passed ha
      · exact interns_error rfl (t :: ts)
    | value v symbols' within =>
      rw [hact] at ha
      simp only [perform]
      cases settle (within ++ around) v with
      | inl w => exact Interns.behind ha (interns_ok rfl rfl)
      | inr next => exact (ih next.1 next.2 symbols').behind ha

theorem atoms_skipComments (c : Cursor) : atoms c.skipComments.pending = atoms c.pending := by
  have hd (ts : List Token) : atoms (ts.dropWhile (·.kind = .comment)) = atoms ts := by
    induction ts with
    | nil => rfl
    | cons t ts ih =>
      rw [List.dropWhile_cons]
      split
      · rename_i hk
        have ha := atom?_of_kind (of_decide_eq_true hk) (by decide)
        exact ih.trans (List.filterMap_cons_none ha).symm
      · rfl
  exact hd c.pending

theorem atoms_advance {c : Cursor} (h : c.peek.kind ≠ .symbol) :
    atoms c.advance.pending = atoms c.pending := by
  obtain ⟨latest, pending, repeated, table⟩ := c
  cases pending with
  | nil => rfl
  | cons t ts => exact (List.filterMap_cons_none (atom?_of_kind rfl h)).symm

theorem interns_programFrom (done : List Value) (c : Cursor) :
    Interns c.symbols c.pending (programFrom done c) := by
  fun_induction programFrom done c with
  | case1 done c here t hk =>
    apply interns_ok rfl
    rw [atoms_advance (by rw [hk]; decide), atoms_skipComments]
  | case2 done c => exact interns_error rfl c.pending
  | case3 done c here _ _ _ _ _ he =>
    have hw := interns_walk here.repeated here.pending .expression [] here.symbols
    rw [← expression, he] at hw
    obtain ⟨names, rest, hn, hs, -⟩ := hw
    exact ⟨names, rest, (atoms_skipComments c).symm.trans hn, hs, fun v hv => by cases hv⟩
  | case4 done c here _ _ _ v after he _ ih =>
    have hw := interns_walk here.repeated here.pending .expression [] here.symbols
    rw [← expression, he] at hw
    obtain ⟨names, rest, hn, hs, hr⟩ := hw
    obtain ⟨more, rest', hm, ht, hr'⟩ := ih
    refine ⟨names ++ more, rest', ?_, ?_, hr'⟩
    · rw [← atoms_skipComments c, List.append_assoc, ← hm, ← hr v rfl]
      exact hn
    · rw [ht, hs, internAll_append]
      rfl

end Readings

/-- Reading a source interns the names of its atoms, up to the place where reading fails. -/
theorem interns_readSource (symbols : Option SymbolTable) (s : Source) :
    ∃ names, names <+: atoms s.tokens.pending ∧
      (readSource symbols s).2 = internAll symbols names := by
  obtain ⟨names, rest, hn, hs, -⟩ := interns_programFrom [] (.ofStream s.tokens symbols)
  exact ⟨names, ⟨rest, hn.symm⟩, hs⟩

/-- A table that is there before reading is there behind it. -/
theorem isSome_readNamed (symbols : Option SymbolTable) (name contents : Text) :
    (readNamed symbols name contents).2.isSome = symbols.isSome := by
  obtain ⟨names, -, hs⟩ := interns_readSource symbols (.ofText name contents none)
  rw [readNamed, hs, SymbolTable.isSome_internAll]

/-- Reads sources one after another, each with the table behind the one before it. -/
def readEach : Option SymbolTable → List Source →
    List (Except Error (List Value)) × Option SymbolTable
  | symbols, [] => ([], symbols)
  | symbols, s :: ss =>
    ((readSource symbols s).1 :: (readEach (readSource symbols s).2 ss).1,
      (readEach (readSource symbols s).2 ss).2)

/-- However the sources are read, to their end or not, the table behind them is faithful. -/
theorem faithful_readEach {symbols : Option SymbolTable} (hs : Faithful? symbols)
    (ss : List Source) : Faithful? (readEach symbols ss).2 := by
  induction ss generalizing symbols with
  | nil => exact hs
  | cons s ss ih => exact ih (faithful_readSource hs s)

theorem fst_readEach {symbols symbols' : Option SymbolTable} (hs : Faithful? symbols)
    (hs' : Faithful? symbols') (ss : List Source) :
    (readEach symbols ss).1 = ss.map fun s => (readSource symbols' s).1 := by
  induction ss generalizing symbols with
  | nil => rfl
  | cons s ss ih =>
    rw [readEach, ih (faithful_readSource hs s), List.map_cons, readSource_of_table hs hs']

theorem interns_readEach (symbols : Option SymbolTable) (ss : List Source) :
    ∃ names, names.Sublist (ss.flatMap fun s => atoms s.tokens.pending) ∧
      (readEach symbols ss).2 = internAll symbols names := by
  induction ss generalizing symbols with
  | nil => exact ⟨[], .slnil, rfl⟩
  | cons s ss ih =>
    obtain ⟨names, hn, hs⟩ := interns_readSource symbols s
    obtain ⟨more, hm, ht⟩ := ih (readSource symbols s).2
    refine ⟨names ++ more, ?_, ?_⟩
    · rw [List.flatMap_cons]
      exact hn.sublist.append hm
    · rw [readEach, ht, hs, internAll_append]

/-- Interning is invisible. A table answers each name with itself, and its size is the number of
distinct names so far; a table that is absent answers the same and stays without names. The table of
a reader that has read any sources, at fault or not, is one that such requests make, with names of
atoms in these sources, and it keeps every name for itself. Each source has been read as a reader
with any other such table reads it, be that a new table or none. -/
theorem interning_invisible (names : List Text) (ss : List Source) :
    SymbolTable.answers (some .empty) names =
      names.mapIdx (fun i name => (name, (names.take (i + 1)).toFinset.card)) ∧
    SymbolTable.answers none names = names.map (fun name => (name, 0)) ∧
    (∃ used : List Text, used.Sublist (ss.flatMap fun s => atoms s.tokens.pending) ∧
      (readEach (some .empty) ss).2 = internAll (some .empty) used ∧
      SymbolTable.count (readEach (some .empty) ss).2 = used.toFinset.card) ∧
    Faithful? (readEach (some .empty) ss).2 ∧
    ∀ symbols : Option SymbolTable, Faithful? symbols →
      (readEach (some .empty) ss).1 = ss.map fun s => (readSource symbols s).1 := by
  obtain ⟨used, hu, ht⟩ := interns_readEach (some .empty) ss
  refine ⟨SymbolTable.answers_empty names, SymbolTable.answers_none names, ⟨used, hu, ht, ?_⟩,
    faithful_readEach faithful?_empty ss, fun symbols hs => fst_readEach faithful?_empty hs ss⟩
  rw [ht, SymbolTable.count_internAll_empty]

/-- Three texts, the first of which ends too early and the second of which has a parenthesis too
many; they hold two names. -/
theorem interning_invisible_faulty :
    let ss := ["(a b", "b a)", "(b . a)"].map fun t => Source.ofText [] (.ofString t) none
    (readEach (some .empty) ss).1 = ss.map (fun s => (readSource (some .empty) s).1) ∧
    (readEach (some .empty) ss).1 = ss.map (fun s => (readSource none s).1) ∧
    SymbolTable.count (readEach (some .empty) ss).2 = 2 := by
  intro ss
  obtain ⟨-, -, -, -, hs⟩ := interning_invisible [] ss
  refine ⟨hs _ faithful?_empty, hs _ faithful?_none, ?_⟩
  decide +kernel

end Reader

end SmallScheme
