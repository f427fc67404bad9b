import SmallScheme.Text.Utf8.Lemmas

/-!
# Bytes of characters

An ASCII character is one byte, and the bytes of every other character are above ASCII. So an ASCII
byte in a well-formed text is always a character of its own.
-/

namespace SmallScheme.Text

set_option autoImplicit false

variable {c : Char} {b : UInt8}

theorem length_encode_le (c : Char) : (encode c).length ≤ 4 := by
  unfold encode
  dsimp only
  split
  · simp
  · split
    · simp
    · split <;> simp

theorem encode_ne_nil (c : Char) : encode c ≠ [] := by
  unfold encode
  dsimp only
  split
  · simp
  · split
    · simp
    · split <;> simp

theorem encode_ascii (hc : c.toNat < 0x80) : ∃ b : UInt8, encode c = [b] ∧ b.toNat = c.toNat := by
  refine ⟨c.toNat.toUInt8, ?_, toNat_toUInt8 (by omega)⟩
  rw [encode, if_pos hc]

theorem le_toNat_of_mem_encode (hc : ¬ c.toNat < 0x80) : ∀ b ∈ encode c, 0x80 ≤ b.toNat := by
  have hlt := toNat_lt c
  intro b hb
  simp only [encode, hc, if_false] at hb
  split at hb
  · simp only [List.mem_cons, List.not_mem_nil, or_false] at hb
    rcases hb with rfl | rfl <;> rw [toNat_toUInt8 (by omega)] <;> omega
  · split at hb
    · simp only [List.mem_cons, List.not_mem_nil, or_false] at hb
      rcases hb with rfl | rfl | rfl <;> rw [toNat_toUInt8 (by omega)] <;> omega
    · simp only [List.mem_cons, List.not_mem_nil, or_false] at hb
      rcases hb with rfl | rfl | rfl | rfl <;> rw [toNat_toUInt8 (by omega)] <;> omega

/-- An ASCII byte stands in the bytes of no other character. -/
theorem mem_encode_iff (hb : b.toNat < 0x80) : b ∈ encode c ↔ c.toNat = b.toNat := by
  by_cases hc : c.toNat < 0x80
  · obtain ⟨d, hd, hn⟩ := encode_ascii hc
    rw [hd, List.mem_singleton, ← hn]
    exact ⟨fun h => by rw [h], fun h => UInt8.toNat_inj.mp h.symm⟩
  · constructor
    · intro hm
      have := le_toNat_of_mem_encode hc b hm
      omega
    · intro he
      omega

/-- Bytes of ASCII are the characters with their numbers. -/
theorem ofChars_map_ofNat {t : Text} (h : ∀ b ∈ t, b.toNat < 0x80) :
    ofChars (t.map fun b => Char.ofNat b.toNat) = t := by
  induction t with
  | nil => rfl
  | cons b t ih =>
    have hb : b < 0x80 := h b List.mem_cons_self
    rw [List.map_cons, ofChars_cons, encode_ofNat_toNat hb,
      ih fun d hd => h d (List.mem_cons_of_mem b hd)]
    rfl

/-- Characters in front of a text are read back. -/
theorem pieces_ofChars_append (cs : List Char) (t : Text) :
    pieces (ofChars cs ++ t) = cs.map .char ++ pieces t := by
  induction cs with
  | nil => rfl
  | cons c cs ih =>
    rw [ofChars_cons, List.append_assoc, pieces_encode_append, ih, List.map_cons, List.cons_append]

theorem chars_ofChars_append (cs : List Char) (t : Text) :
    (ofChars cs ++ t).chars = cs ++ t.chars := by
  rw [chars, pieces_ofChars_append, List.takeWhile_append_of_pos, List.filterMap_append,
    List.filterMap_map]
  · exact congrArg (· ++ t.chars) List.filterMap_some
  · intro p hp
    obtain ⟨c, -, rfl⟩ := List.mem_map.mp hp
    rfl

theorem firstStray?_ofChars_append (cs : List Char) (t : Text) :
    (ofChars cs ++ t).firstStray? = t.firstStray? := by
  induction cs with
  | nil => rfl
  | cons c cs ih =>
    rw [ofChars_cons, List.append_assoc, firstStray?, pieces_encode_append, List.findSome?_cons]
    exact ih

/-- A well-formed text is read as its characters. -/
theorem chars_ofChars (cs : List Char) : (ofChars cs).chars = cs := by
  have h := chars_ofChars_append cs []
  rwa [List.append_nil, show chars [] = [] from rfl, List.append_nil] at h

theorem firstStray?_ofChars (cs : List Char) : (ofChars cs).firstStray? = none := by
  have h := firstStray?_ofChars_append cs []
  rwa [List.append_nil] at h

/-- A text without stray bytes is well formed. -/
theorem ofChars_chars {t : Text} (h : t.firstStray? = none) : ofChars t.chars = t := by
  have hs : ∀ p ∈ t.pieces, ∃ c, p = .char c := by
    intro p hp
    have hn := List.findSome?_eq_none_iff.mp h p hp
    cases p with
    | char c => exact ⟨c, rfl⟩
    | stray b => cases hn
  have hp : t.pieces = t.chars.map .char := by
    have ht : t.pieces.takeWhile (·.char?.isSome) = t.pieces := by
      rw [← List.append_nil t.pieces, List.takeWhile_append_of_pos, List.takeWhile_nil]
      intro p hp
      obtain ⟨c, rfl⟩ := hs p hp
      rfl
    rw [chars, ht]
    revert hs
    induction t.pieces with
    | nil => exact fun _ => rfl
    | cons p ps ih =>
      intro hs
      obtain ⟨c, rfl⟩ := hs p List.mem_cons_self
      rw [List.filterMap_cons_some (by rfl), List.map_cons,
        ← ih fun q hq => hs q (List.mem_cons_of_mem _ hq)]
  calc ofChars t.chars
    _ = (t.chars.map Piece.char).flatMap Piece.bytes := by
      rw [List.flatMap_map]
      rfl
    _ = t := by rw [← hp, flatMap_bytes_pieces]

/-- An ASCII byte cuts the characters of a text. -/
theorem wellFormed_of_append {t u : Text} (hb : b.toNat < 0x80) (h : (t ++ b :: u).WellFormed) :
    t.WellFormed := by
  obtain ⟨cs, hcs⟩ := h
  induction cs generalizing t with
  | nil => simp at hcs
  | cons c cs ih =>
    rw [ofChars_cons] at hcs
    rcases List.append_eq_append_iff.mp hcs with ⟨as, hc, has⟩ | ⟨as, rfl, has⟩
    · cases as with
      | nil => exact ⟨[c], by rw [ofChars_cons, ofChars_nil, hc, List.append_nil, List.append_nil]⟩
      | cons a as =>
        obtain ⟨rfl, -⟩ := List.cons.inj has
        have hm : b ∈ encode c := by
          rw [hc]
          exact List.mem_append_right t List.mem_cons_self
        obtain ⟨d, hd, -⟩ := encode_ascii ((mem_encode_iff hb).mp hm ▸ hb)
        rw [hd] at hc
        cases t with
        | nil => exact ⟨[], rfl⟩
        | cons x t => simp at hc
    · obtain ⟨ds, rfl⟩ := ih has.symm
      exact ⟨c :: ds, rfl⟩

end SmallScheme.Text
