import SmallScheme.Proofs.Text.Encoding
import SmallScheme.Token.Lexer

/-!
# How far a scanner has come

A scanner divides the bytes of its text into those before the current token, those of the token,
those of the characters ahead, and those behind the last character that can be read. The places that
it keeps count these bytes, so the text of a token is always a section of the source.
-/

namespace SmallScheme

set_option autoImplicit false

theorem Text.exists_ofChars_append (t : Text) : ∃ unread, t = ofChars t.chars ++ unread := by
  have hc (ps : List Piece) (h : ∀ p ∈ ps, p.char?.isSome = true) :
      ofChars (ps.filterMap Piece.char?) = ps.flatMap Piece.bytes := by
    induction ps with
    | nil => rfl
    | cons p ps ih =>
      have ih := ih fun q hq => h q (List.mem_cons_of_mem p hq)
      cases p with
      | char c =>
        have hc : (Piece.char c).char? = some c := rfl
        rw [List.filterMap_cons_some hc, ofChars_cons, List.flatMap_cons, ih]
        rfl
      | stray b => cases h (.stray b) List.mem_cons_self
  refine ⟨(t.pieces.dropWhile (·.char?.isSome)).flatMap Piece.bytes, ?_⟩
  rw [chars, hc _ fun p hp => List.all_eq_true.mp List.all_takeWhile p hp, ← List.flatMap_append,
    List.takeWhile_append_dropWhile, flatMap_bytes_pieces]

theorem Source.ending_ofText_eq_complete {name contents : Text} {readError : Option Text} :
    (ofText name contents readError).ending = .complete ↔
      contents.firstStray? = none ∧ readError = none := by
  unfold ofText
  cases contents.firstStray? with
  | some b => simp
  | none => cases readError <;> simp

theorem Position.offset_after (p : Position) (c : Char) :
    (p.after c).offset = p.offset + (Text.encode c).length := by
  unfold after
  dsimp only
  split <;> rfl

namespace Scanner

/-- A scanner over a text that ends with bytes which cannot be read. What stands before the current
token, the token and what is ahead make up the text, and the places count the bytes. -/
def Over (contents unread : Text) (s : Scanner) : Prop :=
  ∃ before, contents = before ++ (s.text ++ (Text.ofChars s.rest ++ unread)) ∧
    s.start.offset = before.length ∧ s.position.offset = before.length + s.text.length

variable {contents unread : Text} {s : Scanner}

theorem text_advance {c : Char} {cs : List Char} (h : s.rest = c :: cs) :
    s.advance.text = s.text ++ Text.encode c := by
  simp only [Scanner.advance, h, text, List.reverse_cons, Text.ofChars_append, Text.ofChars_cons,
    Text.ofChars_nil, List.append_nil]

theorem Over.advance (h : s.Over contents unread) : s.advance.Over contents unread := by
  obtain ⟨before, hc, hs, hp⟩ := h
  cases hr : s.rest with
  | nil =>
    have ha : s.advance = s := by simp only [Scanner.advance, hr]
    rw [ha]
    exact ⟨before, hc, hs, hp⟩
  | cons c cs =>
    have hstart : s.advance.start = s.start := by simp only [Scanner.advance, hr]
    have hposition : s.advance.position = s.position.after c := by simp only [Scanner.advance, hr]
    refine ⟨before, ?_, ?_, ?_⟩
    · rw [hc, text_advance hr, rest_advance, hr, Text.ofChars_cons, List.tail_cons]
      simp only [List.append_assoc]
    · rw [hstart]
      exact hs
    · rw [hposition, Position.offset_after, hp, text_advance hr, List.length_append]
      omega

theorem advanceBy_induction {P : Scanner → Prop} (ha : ∀ s, P s → P s.advance) (h : P s)
    (n : Nat) : P (advanceBy n s) := by
  induction n generalizing s with
  | zero => exact h
  | succ n ih => exact ih (ha s h)

theorem Over.ignore (h : s.Over contents unread) : s.ignore.Over contents unread := by
  obtain ⟨before, hc, -, hp⟩ := h
  refine ⟨before ++ s.text, ?_, ?_, ?_⟩
  · rw [hc, List.append_assoc]
    rfl
  · rw [List.length_append]
    exact hp
  · rw [List.length_append]
    exact hp

/-- The text of the current token is what stands in the source between the two places. -/
theorem Over.text_eq (h : s.Over contents unread) :
    s.start.offset ≤ s.position.offset ∧ s.position.offset ≤ contents.length ∧
      s.text = (contents.take s.position.offset).drop s.start.offset := by
  obtain ⟨before, hc, hs, hp⟩ := h
  refine ⟨by omega, ?_, ?_⟩
  · rw [hp, hc]
    simp only [List.length_append]
    omega
  · rw [hs, hp, hc, ← List.append_assoc, ← List.length_append, List.take_left, List.drop_left]

theorem Over.offset_eq (h : s.Over contents []) (hr : s.rest = []) :
    s.position.offset = contents.length := by
  obtain ⟨before, hc, -, hp⟩ := h
  rw [hp, hc, hr, Text.ofChars_nil, List.append_nil, List.append_nil, List.length_append]

end Scanner

namespace Lexer

variable {contents unread : Text} {lx : Lexer}

/-- What a scanner keeps when it takes a character and when it begins a token, a lexer keeps from
one token to the next. -/
theorem next_induction {P : Scanner → Prop} (ha : ∀ s, P s → P s.advance)
    (hi : ∀ s, P s → P s.ignore) (h : P lx.scanner) : P lx.next.2.scanner := by
  have hlexeme (s : Scanner) (spaced : Bool) (h : P s) : P (lexeme s spaced).2.scanner := by
    unfold lexeme
    split
    · exact h
    · split
      · exact hi _ (Scanner.advanceBy_induction ha h _)
      · exact hi _ (Scanner.advanceBy_induction ha h _)
      · exact hi _ (ha s h)
      · exact hi _ (Scanner.advanceBy_induction ha h _)
  unfold next
  split
  · exact h
  · exact hlexeme _ _ (hi _ (Scanner.advanceBy_induction ha h _))

theorem over_next (h : lx.scanner.Over contents unread) :
    lx.next.2.scanner.Over contents unread :=
  next_induction (fun _ => Scanner.Over.advance) (fun _ => Scanner.Over.ignore) h

end Lexer

end SmallScheme
