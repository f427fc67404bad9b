import SmallScheme.Proofs.Safety.Access
import SmallScheme.Proofs.Source.Extent
import SmallScheme.Proofs.Token.Stream

/-!
# Tokens cut from bytes

A lexer that keeps two places in a text of bytes: each character ahead is decoded from the bytes
behind the second place, and the text of a token is what stands between the two. `Guarded.tokens_eq`
says that no place ever lies outside the text and no cut is made backwards, and that the tokens are
those of the source.
-/

namespace SmallScheme

set_option autoImplicit false

namespace Guarded

/-- A scanner as two places in a text. -/
structure Scanner where
  file : Text
  contents : Text
  readError : Option Text
  start : Position
  position : Position

namespace Scanner

/-- The character ahead, decoded from the bytes ahead. -/
def peek (s : Scanner) : Guarded (Option Char) :=
  if s.contents.length ≤ s.position.offset then .ok none
  else do
    let bytes ← sliceFrom s.contents s.position.offset
    return (Text.pieces bytes).head?.bind Piece.char?

theorem offset_lt_of_peek {s : Scanner} {c : Char} (h : s.peek = .ok (some c)) :
    s.position.offset < s.contents.length := by
  unfold peek at h
  split at h
  · cases h
  · omega

def ahead (s : Scanner) : Guarded (List Char) :=
  match h : s.peek with
  | .error hazard => .error hazard
  | .ok none => .ok []
  | .ok (some c) => do
    have : s.contents.length - (s.position.after c).offset <
        s.contents.length - s.position.offset := by
      have hlt := offset_lt_of_peek h
      have hpos := List.length_pos_iff.mpr (Text.encode_ne_nil c)
      rw [Position.offset_after]
      omega
    let cs ← ahead { s with position := s.position.after c }
    return c :: cs
termination_by s.contents.length - s.position.offset

/-- Why no character is ahead. A byte that begins none is quoted. -/
def stop (s : Scanner) : Guarded Stop :=
  if s.contents.length ≤ s.position.offset then
    .ok (s.readError.elim .atEnd .fault)
  else do
    let b ← index s.contents s.position.offset
    return (Ending.stray b).stop

def text (s : Scanner) : Guarded Text := slice s.contents s.start.offset s.position.offset

def take (s : Scanner) (cs : List Char) : Scanner :=
  { s with position := s.position.afterAll cs }

def ignore (s : Scanner) : Scanner := { s with start := s.position }

def startLocation (s : Scanner) : Location := .ofPosition s.file s.start

end Scanner

structure Lexer where
  scanner : Scanner
  spaced : Bool
  stopped : Option Stop

namespace Lexer

/-- The token that reports a stop; inside a token the end of the input is a fault. -/
def stopToken (place : Location) (spaced inside : Bool) : Stop → Token
  | .atEnd =>
    if inside then ⟨.error, .ofString "unexpected EOF", place, spaced⟩
    else ⟨.eof, [], place, spaced⟩
  | .fault message => ⟨.error, message, place, spaced⟩

def lexeme (s : Scanner) (spaced : Bool) : Guarded (Token × Lexer) := do
  match ← s.ahead with
  | [] =>
    let stop ← s.stop
    return (stopToken s.startLocation spaced false stop, ⟨s, false, some stop⟩)
  | c :: cs =>
    match Lexeme.ofHead c cs with
    | .token kind size =>
      let s := s.take ((c :: cs).take size)
      let text ← s.text
      return (⟨kind, text, s.startLocation, spaced⟩, ⟨s.ignore, kind = .comment, none⟩)
    | .fault message size =>
      -- the message may quote the text up to here
      let s := s.take ((c :: cs).take size)
      let _ ← s.text
      return (⟨.error, message, s.startLocation, spaced⟩,
        ⟨s.ignore, false, some (.fault message)⟩)
    | .invalid d =>
      let s := s.take [c]
      return (⟨.invalid, SmallScheme.Lexer.unexpected d, s.startLocation, spaced⟩,
        ⟨s.ignore, false, some (.fault (SmallScheme.Lexer.unexpected d))⟩)
    | .cut =>
      let s := s.take (c :: cs)
      let stop ← s.stop
      return (stopToken s.startLocation spaced true stop, ⟨s.ignore, false, some stop⟩)

def next (lx : Lexer) : Guarded (Token × Lexer) :=
  match lx.stopped with
  | some stop =>
    .ok (stopToken lx.scanner.startLocation lx.spaced false stop, { lx with spaced := false })
  | none => do
    let blanks := (← lx.scanner.ahead).takeWhile isBlank
    lexeme (lx.scanner.take blanks).ignore (lx.spaced || blanks.length != 0)

/-- All tokens that a lexer hands out, if they are not too many. -/
def tokens : (bound : Nat) → Lexer → Guarded TokenStream
  | 0, _ => .error .endless
  | bound + 1, lx => do
    let (t, after) ← lx.next
    if t.kind.isFinal then
      let (repeated, _) ← after.next
      return ⟨[t], repeated⟩
    else
      let more ← tokens bound after
      return { more with pending := t :: more.pending }

end Lexer

/-- The tokens of a text. Every token but the last takes at least one byte. -/
def tokens (file contents : Text) (readError : Option Text) : Guarded TokenStream :=
  Lexer.tokens (contents.length + 1) ⟨⟨file, contents, readError, .first, .first⟩, false, none⟩

/-! ## The two lexers -/

section Agreement

variable {contents unread : Text} {readError : Option Text} {s : SmallScheme.Scanner}
  {lx : SmallScheme.Lexer}

/-- The places of a scanner, in the text that it scans. -/
def Scanner.view (contents : Text) (readError : Option Text) (s : SmallScheme.Scanner) : Scanner :=
  ⟨s.file, contents, readError, s.start, s.position⟩

def Lexer.view (contents : Text) (readError : Option Text) (lx : SmallScheme.Lexer) : Lexer :=
  ⟨.view contents readError lx.scanner, lx.spaced, lx.stopped⟩

/-- A scanner over a text: what it cannot read begins with no character, and its ending says so. -/
def Fits (contents : Text) (readError : Option Text) (s : SmallScheme.Scanner) : Prop :=
  ∃ unread, s.Over contents unread ∧ unread.chars = [] ∧
    s.ending = (Source.ofText [] unread readError).ending

theorem fits_ofText (file contents : Text) (readError : Option Text) :
    Fits contents readError (.ofSource (.ofText file contents readError)) := by
  obtain ⟨unread, hu⟩ := contents.exists_ofChars_append
  have hc : unread.chars = [] := by
    have h := congrArg Text.chars hu
    rw [Text.chars_ofChars_append] at h
    simpa using h.symm
  refine ⟨unread, ⟨[], hu, rfl, rfl⟩, hc, ?_⟩
  have hf : contents.firstStray? = unread.firstStray? := by
    have h := congrArg Text.firstStray? hu
    rwa [Text.firstStray?_ofChars_append] at h
  simp only [SmallScheme.Scanner.ofSource, Source.ofText, hf]

theorem Fits.advance (h : Fits contents readError s) : Fits contents readError s.advance := by
  obtain ⟨unread, ho, hc, he⟩ := h
  exact ⟨unread, ho.advance, hc, by rw [SmallScheme.Scanner.ending_advance, he]⟩

theorem Fits.advanceBy (h : Fits contents readError s) (n : Nat) :
    Fits contents readError (s.advanceBy n) :=
  SmallScheme.Scanner.advanceBy_induction (P := Fits contents readError) (fun _ => Fits.advance) h n

theorem Fits.ignore (h : Fits contents readError s) : Fits contents readError s.ignore := by
  obtain ⟨unread, ho, hc, he⟩ := h
  exact ⟨unread, ho.ignore, hc, he⟩

theorem Fits.text_eq (h : Fits contents readError s) :
    (Scanner.view contents readError s).text = .ok s.text := by
  obtain ⟨unread, ho, -, -⟩ := h
  obtain ⟨hle, hlt, ht⟩ := ho.text_eq
  rw [ht]
  exact slice_eq hle hlt

theorem drop_of_over (h : s.Over contents unread) :
    s.position.offset ≤ contents.length ∧
      contents.drop s.position.offset = Text.ofChars s.rest ++ unread := by
  obtain ⟨before, hc, -, hp⟩ := h
  rw [hp, hc, ← List.append_assoc, ← List.length_append]
  refine ⟨?_, List.drop_left⟩
  have hl : (before ++ s.text ++ (Text.ofChars s.rest ++ unread)).length =
      (before ++ s.text).length + (Text.ofChars s.rest ++ unread).length := List.length_append
  omega

theorem head?_pieces_of_chars {t : Text} (h : t.chars = []) :
    t.pieces.head?.bind Piece.char? = none := by
  unfold Text.chars at h
  cases hp : t.pieces with
  | nil => rfl
  | cons p ps =>
    cases p with
    | stray b => rfl
    | char c =>
      rw [hp] at h
      cases h

theorem firstStray?_of_chars {t : Text} (h : t.chars = []) : t.firstStray? = t.head? := by
  have hb := Text.flatMap_bytes_pieces t
  have hn := head?_pieces_of_chars h
  unfold Text.firstStray?
  cases hp : t.pieces with
  | nil =>
    rw [hp] at hb
    rw [← hb]
    rfl
  | cons p ps =>
    rw [hp] at hb hn
    cases p with
    | char c => cases hn
    | stray b =>
      rw [← hb]
      rfl

theorem Fits.peek_eq (h : Fits contents readError s) :
    (Scanner.view contents readError s).peek = .ok s.rest.head? := by
  obtain ⟨unread, ho, hc, -⟩ := h
  obtain ⟨hle, hd⟩ := drop_of_over ho
  have hp : (Text.pieces (contents.drop s.position.offset)).head?.bind Piece.char? =
      s.rest.head? := by
    rw [hd, Text.pieces_ofChars_append]
    cases s.rest with
    | nil => exact head?_pieces_of_chars hc
    | cons c cs => rfl
  unfold Scanner.peek
  split
  · rename_i hlt
    have hlt : contents.length ≤ s.position.offset := hlt
    rw [List.drop_eq_nil_of_le hlt] at hp
    rw [← hp]
    rfl
  · change (sliceFrom contents s.position.offset >>= _) = _
    rw [sliceFrom_eq hle, ok_bind, hp]
    rfl

theorem view_advance {c : Char} {cs : List Char} (hr : s.rest = c :: cs) :
    Scanner.view contents readError s.advance = (Scanner.view contents readError s).take [c] := by
  simp only [Scanner.view, SmallScheme.Scanner.advance, hr, Scanner.take, Position.afterAll,
    List.foldl_cons, List.foldl_nil]

theorem view_advanceBy (n : Nat) :
    Scanner.view contents readError (s.advanceBy n) =
      (Scanner.view contents readError s).take (s.rest.take n) := by
  induction n generalizing s with
  | zero => rfl
  | succ n ih =>
    rw [SmallScheme.Scanner.advanceBy, ih, SmallScheme.Scanner.rest_advance]
    cases hr : s.rest with
    | nil => simp only [SmallScheme.Scanner.advance, hr, List.tail_nil, List.take_nil]
    | cons c cs =>
      rw [view_advance hr, List.tail_cons, List.take_succ_cons]
      rfl

theorem Fits.ahead_eq (h : Fits contents readError s) :
    (Scanner.view contents readError s).ahead = .ok s.rest := by
  have hp := h.peek_eq
  induction hr : s.rest generalizing s with
  | nil =>
    rw [hr] at hp
    unfold Scanner.ahead
    split <;> simp_all
  | cons c cs ih =>
    rw [hr] at hp
    have ha : s.advance.rest = cs := by rw [SmallScheme.Scanner.rest_advance, hr, List.tail_cons]
    have hi := ih h.advance h.advance.peek_eq ha
    rw [view_advance hr] at hi
    unfold Scanner.ahead
    split
    · simp_all
    · simp_all
    · rename_i d hd
      rw [hp] at hd
      cases hd
      change (((Scanner.view contents readError s).take [c]).ahead >>= _) = _
      rw [hi]
      rfl

theorem Fits.stop_eq (h : Fits contents readError s) (hr : s.rest = []) :
    (Scanner.view contents readError s).stop = .ok s.ending.stop := by
  obtain ⟨unread, ho, hc, he⟩ := h
  obtain ⟨hle, hd⟩ := drop_of_over ho
  rw [hr, Text.ofChars_nil, List.nil_append] at hd
  have hf := firstStray?_of_chars hc
  have hi : contents[s.position.offset]? = unread.head? := by rw [← hd, List.head?_drop]
  rw [he]
  unfold Scanner.stop Source.ofText
  dsimp only
  rw [hf, ← hi]
  split
  · rename_i hlt
    have hlt : contents.length ≤ s.position.offset := hlt
    rw [List.getElem?_eq_none hlt]
    cases readError <;> rfl
  · rename_i hlt
    have hlt : s.position.offset < contents.length := Nat.lt_of_not_le hlt
    change (index contents s.position.offset >>= _) = _
    rw [List.getElem?_eq_getElem hlt, index_eq (List.getElem?_eq_getElem hlt)]
    rfl

theorem Fits.lexeme_eq (h : Fits contents readError s) (spaced : Bool) :
    Lexer.lexeme (.view contents readError s) spaced =
      .ok ((SmallScheme.Lexer.lexeme s spaced).1,
        .view contents readError (SmallScheme.Lexer.lexeme s spaced).2) := by
  unfold Lexer.lexeme SmallScheme.Lexer.lexeme
  rw [h.ahead_eq, ok_bind]
  cases hr : s.rest with
  | nil =>
    dsimp only
    rw [h.stop_eq hr, ok_bind]
    cases s.ending.stop <;> rfl
  | cons c cs =>
    dsimp only
    cases Lexeme.ofHead c cs with
    | token kind size =>
      dsimp only
      rw [← hr, ← view_advanceBy, (h.advanceBy size).text_eq]
      rfl
    | fault message size =>
      dsimp only
      rw [← hr, ← view_advanceBy, (h.advanceBy size).text_eq]
      rfl
    | invalid d =>
      dsimp only
      rw [← view_advance hr]
      rfl
    | cut =>
      have hc : Scanner.view contents readError (s.advanceBy s.rest.length) =
          (Scanner.view contents readError s).take (c :: cs) := by
        rw [view_advanceBy, List.take_length, hr]
      have hs : (s.advanceBy s.rest.length).rest = [] := by simp
      dsimp only
      rw [← hc, (h.advanceBy _).stop_eq hs, ← hr, ok_bind]
      cases (s.advanceBy s.rest.length).ending.stop <;> rfl

theorem next_eq (h : Fits contents readError lx.scanner) :
    Lexer.next (.view contents readError lx) =
      .ok (lx.next.1, .view contents readError lx.next.2) := by
  obtain ⟨s, spaced, stopped⟩ := lx
  cases stopped with
  | some stop => cases stop <;> rfl
  | none =>
    have h : Fits contents readError s := h
    have hv : (Scanner.view contents readError s).take (s.rest.takeWhile isBlank) =
        .view contents readError (s.advanceBy (s.rest.takeWhile isBlank).length) := by
      rw [view_advanceBy, ← List.prefix_iff_eq_take.mp (List.takeWhile_prefix isBlank)]
    change ((Scanner.view contents readError s).ahead >>= _) = _
    rw [h.ahead_eq, ok_bind]
    change Lexer.lexeme ((Scanner.view contents readError s).take _).ignore _ = _
    rw [hv]
    exact (h.advanceBy _).ignore.lexeme_eq _

/-- A lexer over bytes hands out the tokens of the source. -/
theorem Lexer.tokens_eq (lx : SmallScheme.Lexer) {bound : Nat}
    (h : Fits contents readError lx.scanner) (hb : lx.scanner.rest.length < bound) :
    Lexer.tokens bound (.view contents readError lx) = .ok lx.tokens := by
  induction bound generalizing lx with
  | zero => omega
  | succ bound ih =>
    have hn : Fits contents readError lx.next.2.scanner :=
      SmallScheme.Lexer.next_induction (fun _ => Fits.advance) (fun _ => Fits.ignore) h
    have ht : lx.tokens = ⟨lx.tokens.pending, lx.tokens.repeated⟩ := rfl
    rw [Lexer.tokens, next_eq h, ok_bind]
    dsimp only
    cases hf : lx.next.1.kind.isFinal with
    | true =>
      rw [if_pos rfl, next_eq hn, ok_bind, ht, SmallScheme.Lexer.pending_tokens_final hf,
        SmallScheme.Lexer.repeated_tokens_final hf]
      rfl
    | false =>
      have hlt := lx.rest_next_lt hf
      rw [if_neg Bool.false_ne_true, ih lx.next.2 hn (by omega), ok_bind, ht,
        SmallScheme.Lexer.pending_tokens_more hf, SmallScheme.Lexer.repeated_tokens_more hf]
      rfl

theorem length_chars_le (t : Text) : t.chars.length ≤ t.length := by
  obtain ⟨unread, hu⟩ := t.exists_ofChars_append
  have hle (cs : List Char) : cs.length ≤ (Text.ofChars cs).length := by
    induction cs with
    | nil => exact Nat.le_refl 0
    | cons c cs ih =>
      have hc := List.length_pos_iff.mpr (Text.encode_ne_nil c)
      rw [Text.ofChars_cons, List.length_append, List.length_cons]
      omega
  have hl := congrArg List.length hu
  have hc := hle t.chars
  rw [List.length_append] at hl
  omega

end Agreement

/-- The tokens of a text can be cut from its bytes, whatever the bytes are. -/
theorem tokens_eq (file contents : Text) (readError : Option Text) :
    tokens file contents readError = .ok (Source.ofText file contents readError).tokens := by
  have hb := Nat.lt_succ_of_le (length_chars_le contents)
  exact Lexer.tokens_eq (.ofSource (.ofText file contents readError)) (fits_ofText _ _ _) hb

end Guarded

end SmallScheme
