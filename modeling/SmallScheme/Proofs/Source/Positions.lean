import Mathlib.Data.List.Induction
import SmallScheme.Proofs.Source.Extent
import SmallScheme.Source.Scanner

/-!
# Lines and columns

The line and the column of a place are counted anew from the bytes before it: one more than the line
feeds among them, and one more than the characters behind the last of these. A scanner that is asked
for any operations in any order keeps its two places right (`Scanner.places_of_carryOutAll`), and
what it has handed out and dropped is what it has gone over.
-/

namespace SmallScheme

set_option autoImplicit false

namespace Text

/-- The line on which a text ends. -/
def line (t : Text) : Nat := 1 + t.count 10

/-- What stands behind the last line feed of a text. -/
def lastLine (t : Text) : Text := (t.reverse.takeWhile (· ≠ 10)).reverse

/-- The column at which a text ends. Stray bytes count as characters. -/
def column (t : Text) : Nat := 1 + t.lastLine.pieces.length

theorem lastLine_lineFeed (t : Text) : (t ++ [10]).lastLine = [] := by
  simp [lastLine]

theorem lastLine_append {t u : Text} (h : 10 ∉ u) : (t ++ u).lastLine = t.lastLine ++ u := by
  have hu : ∀ b ∈ u.reverse, decide (b ≠ 10) = true := by
    intro b hb
    apply decide_eq_true
    rintro rfl
    exact h (List.mem_reverse.mp hb)
  rw [lastLine, List.reverse_append, List.takeWhile_append_of_pos hu, List.reverse_append,
    List.reverse_reverse]
  rfl

theorem encode_lineFeed : encode '\n' = [10] := rfl

theorem lineFeed_not_mem_encode {c : Char} (h : c ≠ '\n') : 10 ∉ encode c := by
  intro hm
  have hn : c.toNat = 10 := (mem_encode_iff (by decide)).mp hm
  apply h
  rw [← Char.ofNat_toNat c, hn]

theorem lastLine_ofChars (cs : List Char) : ∃ ds, (ofChars cs).lastLine = ofChars ds := by
  induction cs using List.reverseRecOn with
  | nil => exact ⟨[], rfl⟩
  | append_singleton cs c ih =>
    obtain ⟨ds, hds⟩ := ih
    rw [ofChars_append, ofChars_cons, ofChars_nil, List.append_nil]
    by_cases hc : c = '\n'
    · subst hc
      exact ⟨[], lastLine_lineFeed _⟩
    · refine ⟨ds ++ [c], ?_⟩
      rw [lastLine_append (lineFeed_not_mem_encode hc), hds, ofChars_append, ofChars_cons,
        ofChars_nil, List.append_nil]

theorem column_append_encode {c : Char} (hc : c ≠ '\n') (cs : List Char) :
    (ofChars cs ++ encode c).column = (ofChars cs).column + 1 := by
  obtain ⟨ds, hds⟩ := lastLine_ofChars cs
  have hp : (ofChars ds ++ encode c).pieces = ds.map .char ++ [.char c] := by
    have he := pieces_encode_append c []
    rw [List.append_nil] at he
    rw [pieces_ofChars_append, he]
    rfl
  rw [column, column, lastLine_append (lineFeed_not_mem_encode hc), hds, hp, pieces_ofChars,
    List.length_append, List.length_singleton]
  omega

end Text

/-- The place in a text that a number of its bytes stand before. -/
def Location.within (file contents : Text) (offset : Nat) : Location :=
  ⟨file, offset, Text.line (contents.take offset), Text.column (contents.take offset)⟩

namespace Position

/-- Walking over characters counts their bytes, lines and columns. -/
theorem afterAll_first (cs : List Char) : first.afterAll cs =
    ⟨(Text.ofChars cs).length, (Text.ofChars cs).line, (Text.ofChars cs).column⟩ := by
  induction cs using List.reverseRecOn with
  | nil => rfl
  | append_singleton cs c ih =>
    have ha : first.afterAll (cs ++ [c]) = (first.afterAll cs).after c := by
      simp only [afterAll, List.foldl_append, List.foldl_cons, List.foldl_nil]
    rw [ha, ih, Text.ofChars_append, Text.ofChars_cons, Text.ofChars_nil, List.append_nil, after]
    by_cases hc : c = '\n'
    · subst hc
      simp [Text.encode_lineFeed, Text.line, Text.column, Text.lastLine_lineFeed, Text.pieces,
        Nat.add_assoc]
    · have hn := Text.lineFeed_not_mem_encode hc
      simp [hc, Text.line, Text.column_append_encode hc, List.count_eq_zero_of_not_mem hn]

end Position

namespace Scanner

/-- A scanner over a source. The characters `before` stand before the current token, and the two
places are those behind `before` and behind the token. -/
structure Behind (src : Source) (before : List Char) (s : Scanner) : Prop where
  file_eq : s.file = src.file
  ending_eq : s.ending = src.ending
  chars_eq : src.chars = before ++ (s.taken.reverse ++ s.rest)
  start_eq : s.start = Position.first.afterAll before
  position_eq : s.position = Position.first.afterAll (before ++ s.taken.reverse)

theorem behind_ofSource (src : Source) : Behind src [] (ofSource src) :=
  ⟨rfl, rfl, rfl, rfl, rfl⟩

variable {src : Source} {before : List Char} {s : Scanner}

theorem Behind.advance (h : Behind src before s) : Behind src before s.advance := by
  cases hr : s.rest with
  | nil =>
    have ha : s.advance = s := by simp only [Scanner.advance, hr]
    rwa [ha]
  | cons c cs =>
    have ha : s.advance =
        { s with
          taken := c :: s.taken
          position := s.position.after c
          rest := cs
          latest := some c } := by
      simp only [Scanner.advance, hr]
    rw [ha]
    refine ⟨h.file_eq, h.ending_eq, ?_, h.start_eq, ?_⟩
    · rw [h.chars_eq, hr]
      simp
    · simp [h.position_eq, Position.afterAll]

theorem Behind.advanceBy (h : Behind src before s) (n : Nat) : Behind src before (s.advanceBy n) :=
  advanceBy_induction (P := Behind src before) (fun _ => Behind.advance) h n

theorem Behind.ignore (h : Behind src before s) :
    Behind src (before ++ s.taken.reverse) s.ignore := by
  refine ⟨h.file_eq, h.ending_eq, ?_, h.position_eq, ?_⟩
  · rw [h.chars_eq, List.append_assoc]
    rfl
  · exact h.position_eq.trans (by simp [Scanner.ignore])

section Contents

variable {contents name : Text} {readError : Option Text}

theorem take_ofText {cs ds : List Char} (h : contents.chars = cs ++ ds) :
    contents.take (Text.ofChars cs).length = Text.ofChars cs := by
  obtain ⟨unread, hu⟩ := contents.exists_ofChars_append
  rw [hu, h, Text.ofChars_append, List.append_assoc, List.take_left]

theorem location_eq_within {cs ds : List Char} (h : contents.chars = cs ++ ds) :
    Location.ofPosition name (Position.first.afterAll cs) =
      Location.within name contents (Text.ofChars cs).length := by
  rw [Location.within, take_ofText h, Position.afterAll_first]
  rfl

theorem chars_drop_ofText {cs ds : List Char} (h : contents.chars = cs ++ ds) :
    Text.chars (contents.drop (Text.ofChars cs).length) = ds := by
  obtain ⟨unread, hu⟩ := contents.exists_ofChars_append
  have hn : unread.chars = [] := by
    have hc := congrArg Text.chars hu
    rw [Text.chars_ofChars_append] at hc
    exact List.self_eq_append_right.mp hc
  have hd : contents.drop (Text.ofChars cs).length = Text.ofChars ds ++ unread := by
    nth_rewrite 1 [hu]
    rw [h, Text.ofChars_append, List.append_assoc, List.drop_left]
  rw [hd, Text.chars_ofChars_append, hn, List.append_nil]

theorem length_ofChars_le {cs ds : List Char} (h : contents.chars = cs ++ ds) :
    (Text.ofChars cs).length ≤ contents.length := by
  have ht := congrArg List.length (take_ofText h)
  rw [List.length_take] at ht
  omega

end Contents

/-- What can be asked of a scanner. -/
inductive Operation where
  | peek
  | scan
  | ignore
  | emit (kind : TokenKind)

/-- Carries out an operation: the scanner behind it, and the text that it hands out or drops. -/
def carryOut (s : Scanner) : Operation → Scanner × List Text
  | .peek => (s, [])
  | .scan =>
    match s.scan with
    | .ok after => (after, [])
    | .error _ => (s, [])
  | .ignore => (s.ignore, [s.text])
  | .emit kind => ((s.emit kind).2, [(s.emit kind).1.text])

/-- Carries out operations one after another. -/
def carryOutAll (s : Scanner) : List Operation → Scanner × List Text
  | [] => (s, [])
  | op :: ops =>
    let (after, part) := s.carryOut op
    let (last, parts) := after.carryOutAll ops
    (last, part ++ parts)

theorem behind_carryOut (h : Behind src before s) (op : Operation) :
    ∃ before', Behind src before' (s.carryOut op).1 ∧
      Text.ofChars before' = Text.ofChars before ++ (s.carryOut op).2.flatten := by
  have cut : Text.ofChars (before ++ s.taken.reverse) = Text.ofChars before ++ [s.text].flatten := by
    simp [text]
  cases op with
  | peek => exact ⟨before, h, by simp [carryOut]⟩
  | scan =>
    cases hr : s.rest with
    | nil => exact ⟨before, by simpa [carryOut, scan, hr] using h, by simp [carryOut, scan, hr]⟩
    | cons c cs =>
      refine ⟨before, ?_, by simp [carryOut, scan, hr]⟩
      simpa [carryOut, scan, hr] using h.advance
  | ignore => exact ⟨_, h.ignore, cut⟩
  | emit kind => exact ⟨_, h.ignore, cut⟩

theorem behind_carryOutAll (h : Behind src before s) (ops : List Operation) :
    ∃ before', Behind src before' (s.carryOutAll ops).1 ∧
      Text.ofChars before' = Text.ofChars before ++ (s.carryOutAll ops).2.flatten := by
  induction ops generalizing s before with
  | nil => exact ⟨before, h, by simp [carryOutAll]⟩
  | cons op ops ih =>
    obtain ⟨mid, hm, hmid⟩ := behind_carryOut h op
    obtain ⟨last, hl, hlast⟩ := ih hm
    refine ⟨last, hl, ?_⟩
    simp only [carryOutAll, List.flatten_append]
    rw [hlast, hmid, List.append_assoc]

/-- After any operations the two places of a scanner are in the text, with their right lines and
columns, and the texts handed out and dropped make up what stands before the second. -/
theorem places_of_carryOutAll (name contents : Text) (readError : Option Text)
    (ops : List Operation) {s : Scanner} {parts : List Text}
    (h : (ofSource (.ofText name contents readError)).carryOutAll ops = (s, parts)) :
    s.start.offset ≤ s.position.offset ∧ s.position.offset ≤ contents.length ∧
      s.startLocation = .within name contents s.start.offset ∧
      s.location = .within name contents s.position.offset ∧
      parts.flatten ++ s.text = contents.take s.position.offset := by
  obtain ⟨before, hb, hparts⟩ := behind_carryOutAll (behind_ofSource (.ofText name contents
    readError)) ops
  rw [h] at hb hparts
  have hstart : contents.chars = before ++ (s.taken.reverse ++ s.rest) := hb.chars_eq
  have hposition : contents.chars = (before ++ s.taken.reverse) ++ s.rest := by
    rw [hstart, List.append_assoc]
  have hso : s.start.offset = (Text.ofChars before).length := by
    rw [hb.start_eq, Position.afterAll_first]
  have hpo : s.position.offset = (Text.ofChars (before ++ s.taken.reverse)).length := by
    rw [hb.position_eq, Position.afterAll_first]
  refine ⟨?_, ?_, ?_, ?_, ?_⟩
  · rw [hso, hpo, Text.ofChars_append, List.length_append]
    omega
  · rw [hpo]
    exact length_ofChars_le hposition
  · rw [hso, ← location_eq_within hstart, startLocation, hb.start_eq, hb.file_eq]
    rfl
  · rw [hpo, ← location_eq_within hposition, location, hb.position_eq, hb.file_eq]
    rfl
  · rw [hpo, take_ofText hposition, Text.ofChars_append, hparts]
    rfl

end Scanner

end SmallScheme
