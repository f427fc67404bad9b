import SmallScheme.Reader.Basic

/-!
# The symbol table of a reader

A reader hands one symbol table on through all that it reads. Every atom is a request to the table;
so a table that is faithful before a source is faithful behind it, be the source read to its end or
refused at any place after some of its names were interned (`Reader.faithful_readSource`).
-/

namespace SmallScheme.Reader

set_option autoImplicit false

open SymbolTable (Faithful? fst_intern? faithful_intern?)

/-- An action that leaves a faithful table behind. -/
def Action.Faithful : Action → Prop
  | .value _ symbols _ => Faithful? symbols
  | .skip | .quote _ | .enter .. | .refuse _ => True

variable {symbols : Option SymbolTable} (hs : Faithful? symbols)
include hs

theorem faithful_symbolValue (t : Text) : Faithful? (symbolValue symbols t).2 := by
  unfold symbolValue
  split
  · exact hs
  · split
    · exact hs
    · exact faithful_intern? hs t

theorem faithful_literal (within : List Context) (r : Except Complaint Value) :
    (literal symbols within r).Faithful := by
  cases r with
  | ok v => exact hs
  | error c => trivial

theorem faithful_begin (within : List Context) (t : Token) :
    (begin symbols within t).Faithful := by
  unfold begin
  cases t.kind with
  | int | char => exact faithful_literal hs within _
  | string => exact hs
  | symbol => exact faithful_symbolValue hs t.text
  | _ => trivial

theorem faithful_act (mode : Mode) (t : Token) : (act symbols mode t).Faithful := by
  unfold act
  split
  · trivial
  cases mode with
  | expression => exact faithful_begin hs [] t
  | element done =>
    dsimp only
    split
    · trivial
    split
    · exact hs
    split
    · trivial
    split
    · trivial
    · exact faithful_begin hs [.element done] t
  | close list =>
    dsimp only
    split
    · exact hs
    · trivial

/-- Wherever the walk stops, the table is faithful. -/
theorem faithful_walk (repeated : Token) (ts : List Token) (mode : Mode) (around : List Context) :
    Faithful? (walk repeated ts mode around symbols).2.symbols := by
  induction ts generalizing mode around symbols with
  | nil => exact hs
  | cons t ts ih =>
    have ha := faithful_act hs mode t
    rw [walk]
    cases hact : act symbols mode t with
    | skip => exact ih hs mode around
    | refuse c => exact hs
    | enter mode within => exact ih hs mode (within ++ around)
    | quote within =>
      dsimp only
      split
      · exact ih hs .expression _
      · exact hs
    | value v symbols' within =>
      rw [hact] at ha
      dsimp only
      cases settle (within ++ around) v with
      | inl w => exact ha
      | inr next => exact ih ha next.1 next.2

omit hs in
theorem faithful_programFrom (done : List Value) {c : Cursor} (hs : Faithful? c.symbols) :
    Faithful? (programFrom done c).2.symbols := by
  fun_induction programFrom done c with
  | case1 => exact hs
  | case2 => exact hs
  | case3 done c here _ _ _ f after he =>
    have hh : Faithful? here.symbols := hs
    have hw := faithful_walk hh here.repeated here.pending .expression []
    rw [← expression, he] at hw
    exact hw
  | case4 done c here _ _ _ v after he _ ih =>
    have hh : Faithful? here.symbols := hs
    have hw := faithful_walk hh here.repeated here.pending .expression []
    rw [← expression, he] at hw
    exact ih hw

/-- A source leaves the table faithful, whether it is read or refused. -/
theorem faithful_readSource (s : Source) : Faithful? (readSource symbols s).2 :=
  faithful_programFrom [] (c := .ofStream s.tokens symbols) hs

theorem faithful_readNamed (name contents : Text) :
    Faithful? (readNamed symbols name contents).2 :=
  faithful_readSource hs _

end SmallScheme.Reader
