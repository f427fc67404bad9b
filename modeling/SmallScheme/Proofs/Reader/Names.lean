import SmallScheme.Proofs.Reader.Blame

/-!
# Reading without the name of the source

The name of a source shows in places only, and a place is written behind the name. So a text is read
alike under every name, and where it is refused, the errors differ in how they begin
(`Reader.exists_readNamed`).
-/

namespace SmallScheme

set_option autoImplicit false

/-- The place in a source of another name. -/
def Location.renamed (name : Text) (l : Location) : Location := { l with file := name }

/-- The scanner over a source of another name. -/
def Scanner.renamed (name : Text) (s : Scanner) : Scanner := { s with file := name }

/-- The lexer of a source of another name. -/
def Lexer.renamed (name : Text) (lx : Lexer) : Lexer :=
  { lx with scanner := lx.scanner.renamed name }

variable (name : Text)

theorem Scanner.advance_renamed (s : Scanner) :
    (s.renamed name).advance = s.advance.renamed name := by
  obtain ⟨file, start, taken, position, rest, ending, latest⟩ := s
  cases rest <;> rfl

theorem Scanner.advanceBy_renamed (n : Nat) (s : Scanner) :
    (s.renamed name).advanceBy n = (s.advanceBy n).renamed name := by
  induction n generalizing s with
  | zero => rfl
  | succ n ih => rw [advanceBy, advance_renamed, ih, advanceBy]

namespace Lexer

theorem stopToken_renamed (s : Scanner) (spaced : Bool) (stop : Stop) :
    stopToken (s.renamed name) spaced stop =
      (stopToken s spaced stop).moved (Location.renamed name) := by
  cases stop <;> rfl

theorem cutToken_renamed (s : Scanner) (spaced : Bool) (stop : Stop) :
    cutToken (s.renamed name) spaced stop =
      (cutToken s spaced stop).moved (Location.renamed name) := by
  cases stop <;> rfl

theorem lexeme_renamed (s : Scanner) (spaced : Bool) :
    lexeme (s.renamed name) spaced =
      ((lexeme s spaced).1.moved (Location.renamed name), (lexeme s spaced).2.renamed name) := by
  have hr : (s.renamed name).rest = s.rest := rfl
  cases hc : s.rest with
  | nil =>
    simp only [lexeme, hr, hc, stopToken_renamed]
    rfl
  | cons c cs =>
    simp only [lexeme, hr, hc]
    cases Lexeme.ofHead c cs with
    | token kind size =>
      simp only [Scanner.advanceBy_renamed]
      rfl
    | fault message size =>
      simp only [Scanner.advanceBy_renamed]
      rfl
    | invalid d =>
      simp only [Scanner.advance_renamed]
      rfl
    | cut =>
      simp only [Scanner.advanceBy_renamed, cutToken_renamed]
      rfl

theorem next_renamed (lx : Lexer) :
    (lx.renamed name).next =
      (lx.next.1.moved (Location.renamed name), lx.next.2.renamed name) := by
  obtain ⟨s, spaced, stopped⟩ := lx
  cases stopped with
  | some stop => exact Prod.ext (stopToken_renamed name s spaced stop) rfl
  | none =>
    have hr : (s.renamed name).rest = s.rest := rfl
    have hi (u : Scanner) : (u.renamed name).ignore = u.ignore.renamed name := rfl
    simp only [next, renamed, hr, Scanner.advanceBy_renamed, hi, lexeme_renamed]

theorem tokens_renamed (lx : Lexer) :
    (lx.renamed name).tokens.pending =
        lx.tokens.pending.map (Token.moved (Location.renamed name)) ∧
      (lx.renamed name).tokens.repeated =
        lx.tokens.repeated.moved (Location.renamed name) := by
  induction hn : lx.scanner.rest.length using Nat.strongRecOn generalizing lx with
  | ind n ih =>
    have hnext := next_renamed name lx
    have ht : (lx.renamed name).next.1 = lx.next.1.moved (Location.renamed name) := by rw [hnext]
    have ha : (lx.renamed name).next.2 = lx.next.2.renamed name := by rw [hnext]
    cases hf : lx.next.1.kind.isFinal with
    | true =>
      have hf' : (lx.renamed name).next.1.kind.isFinal = true := by rw [ht]; exact hf
      rw [pending_tokens_final hf, pending_tokens_final hf', repeated_tokens_final hf,
        repeated_tokens_final hf', ht, ha, next_renamed]
      exact ⟨rfl, rfl⟩
    | false =>
      have hf' : (lx.renamed name).next.1.kind.isFinal = false := by rw [ht]; exact hf
      obtain ⟨hp, hr⟩ := ih _ (hn ▸ rest_next_lt lx hf) lx.next.2 rfl
      rw [pending_tokens_more hf, pending_tokens_more hf', repeated_tokens_more hf,
        repeated_tokens_more hf', ht, ha, hp, hr]
      exact ⟨rfl, rfl⟩

end Lexer

/-- What begins the places of a source: its name, if it has one. -/
def Text.label (name : Text) : Text := if name.isEmpty then [] else name ++ .ofString ":"

namespace Reader

theorem program_renamed (contents : Text) {symbols : Option SymbolTable}
    (hs : SymbolTable.Faithful? symbols) :
    (program (.ofStream (Source.ofText name contents none).tokens symbols)).1 =
      (program (.ofStream (Source.ofText [] contents none).tokens none)).1.mapError
        (Fault.moved (Location.renamed name)) := by
  obtain ⟨hp, hr⟩ := Lexer.tokens_renamed name (Lexer.ofSource (Source.ofText [] contents none))
  exact programFrom_moved (skipComments_moved ⟨hp, hr, SymbolTable.faithful?_none, hs⟩) []

/-- A text is read as the same values under every name and with every faithful table, or it is
refused with the same complaint about the same place. -/
theorem exists_readNamed (contents : Text) :
    (∃ vs, ∀ name symbols, SymbolTable.Faithful? symbols →
      (readNamed symbols name contents).1 = .ok vs) ∨
    ∃ place message, place ≠ [] ∧ ∀ name symbols, SymbolTable.Faithful? symbols →
      (readNamed symbols name contents).1 = .error (.parse (name.label ++ place) message) := by
  have hall (name : Text) {symbols : Option SymbolTable} (hs : SymbolTable.Faithful? symbols) :
      (readNamed symbols name contents).1 =
        ((program (.ofStream (Source.ofText [] contents none).tokens none)).1.mapError
          (Fault.moved (Location.renamed name))).mapError Fault.toError := by
    rw [← program_renamed name contents hs]
    rfl
  cases hp : (program (.ofStream (Source.ofText [] contents none).tokens none)).1 with
  | ok vs =>
    refine .inl ⟨vs, fun name symbols hs => ?_⟩
    rw [hall name hs, hp]
    rfl
  | error f =>
    obtain ⟨t, ht, hblame⟩ := blames_programFrom (c := .ofStream _ none)
      (Source.ofText [] contents none).sealed_tokens [] f hp
    obtain ⟨earlier, later, ht⟩ := List.append_of_mem ht
    -- the token of the fault begins at a line and a column, and only the name can differ
    obtain ⟨lx, read, hlx, rfl⟩ := Lexer.follows_of_pending ht
    have hsource := hlx.source_eq
    refine .inr ⟨Decimal.ofNat (Text.line (contents.take lx.next.1.start)) ++ Text.ofString ":" ++
      Decimal.ofNat (Text.column (contents.take lx.next.1.start)), f.complaint.message, ?_, ?_⟩
    · simp [Decimal.ofNat_ne_nil]
    · intro name symbols hs
      have hrender := Location.render_within name contents lx.next.1.start
      have hplace : (f.moved (Location.renamed name)).source =
          some (Location.within name contents lx.next.1.start) := by
        rw [Fault.moved, hblame, hsource]
        rfl
      rw [hall name hs, hp]
      simp only [Except.mapError, Fault.toError, hplace, Option.map_some, Option.getD_some,
        hrender, Text.label, List.append_assoc]
      rfl

end Reader

end SmallScheme
