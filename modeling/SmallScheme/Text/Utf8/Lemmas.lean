import SmallScheme.Text.Utf8

/-!
# Laws of UTF-8 decoding

Decoding loses nothing: the pieces of any text put it together again (`flatMap_bytes_pieces`). It
also undoes encoding: the pieces of encoded characters are those characters (`pieces_ofChars`).
-/

namespace SmallScheme.Text

set_option autoImplicit false

theorem tail?_eq_some {b : UInt8} {x : Nat} (h : tail? b = some x) :
    b.toNat = 0x80 + x ∧ x < 0x40 := by
  simp only [tail?, UInt8.le_iff_toNat_le, UInt8.lt_iff_toNat_lt] at h
  split at h
  · rename_i hb
    simp only [Option.some.injEq, UInt8.reduceToNat] at h hb
    omega
  · simp at h

theorem toNat_ofNat {n : Nat} (h : n.isValidChar) : (Char.ofNat n).toNat = n := by
  rw [Char.ofNat, dif_pos h]
  rfl

theorem charFrom?_eq_some {least n : Nat} {c : Char} (h : charFrom? least n = some c) :
    c.toNat = n ∧ least ≤ n := by
  simp only [charFrom?] at h
  split at h
  · rename_i hn
    simp only [Option.some.injEq] at h
    subst h
    exact ⟨toNat_ofNat hn.2, hn.1⟩
  · simp at h

theorem charFrom?_toNat {least n : Nat} {c : Char} (hn : c.toNat = n) (h : least ≤ n) :
    charFrom? least n = some c := by
  subst hn
  have hv : c.toNat.isValidChar := c.valid
  simp only [charFrom?]
  rw [if_pos ⟨h, hv⟩, Char.ofNat_toNat]

theorem eq_toUInt8 {b : UInt8} {n : Nat} (h : b.toNat = n) : b = n.toUInt8 := by
  subst h; simp

theorem encode_of_decode₂? {a b : UInt8} {c : Char} (h : decode₂? a b = some c) :
    encode c = [a, b] := by
  simp only [decode₂?, UInt8.le_iff_toNat_le, UInt8.lt_iff_toNat_lt, UInt8.reduceToNat] at h
  split at h
  · rename_i ha
    obtain ⟨x, hx, hc⟩ := Option.bind_eq_some_iff.1 h
    have hb := tail?_eq_some hx
    have hn := charFrom?_eq_some hc
    have h1 : ¬ c.toNat < 0x80 := by omega
    have h2 : c.toNat < 0x800 := by omega
    simp only [encode, h1, h2, if_true, if_false]
    rw [← eq_toUInt8 (b := a) (by omega), ← eq_toUInt8 (b := b) (by omega)]
  · simp at h

theorem encode_of_decode₃? {a b c : UInt8} {d : Char} (h : decode₃? a b c = some d) :
    encode d = [a, b, c] := by
  simp only [decode₃?, UInt8.le_iff_toNat_le, UInt8.lt_iff_toNat_lt, UInt8.reduceToNat] at h
  split at h
  · rename_i ha
    obtain ⟨x, hx, h⟩ := Option.bind_eq_some_iff.1 h
    obtain ⟨y, hy, hd⟩ := Option.bind_eq_some_iff.1 h
    have hb := tail?_eq_some hx
    have hc := tail?_eq_some hy
    have hn := charFrom?_eq_some hd
    have h1 : ¬ d.toNat < 0x80 := by omega
    have h2 : ¬ d.toNat < 0x800 := by omega
    have h3 : d.toNat < 0x10000 := by omega
    simp only [encode, h1, h2, h3, if_true, if_false]
    rw [← eq_toUInt8 (b := a) (by omega), ← eq_toUInt8 (b := b) (by omega),
      ← eq_toUInt8 (b := c) (by omega)]
  · simp at h

theorem encode_of_decode₄? {a b c d : UInt8} {e : Char} (h : decode₄? a b c d = some e) :
    encode e = [a, b, c, d] := by
  simp only [decode₄?, UInt8.le_iff_toNat_le, UInt8.lt_iff_toNat_lt, UInt8.reduceToNat] at h
  split at h
  · rename_i ha
    obtain ⟨x, hx, h⟩ := Option.bind_eq_some_iff.1 h
    obtain ⟨y, hy, h⟩ := Option.bind_eq_some_iff.1 h
    obtain ⟨z, hz, he⟩ := Option.bind_eq_some_iff.1 h
    have hb := tail?_eq_some hx
    have hc := tail?_eq_some hy
    have hd := tail?_eq_some hz
    have hn := charFrom?_eq_some he
    have h1 : ¬ e.toNat < 0x80 := by omega
    have h2 : ¬ e.toNat < 0x800 := by omega
    have h3 : ¬ e.toNat < 0x10000 := by omega
    simp only [encode, h1, h2, h3, if_false]
    rw [← eq_toUInt8 (b := a) (by omega), ← eq_toUInt8 (b := b) (by omega),
      ← eq_toUInt8 (b := c) (by omega), ← eq_toUInt8 (b := d) (by omega)]
  · simp at h

theorem encode_ofNat_toNat {a : UInt8} (h : a < 0x80) : encode (Char.ofNat a.toNat) = [a] := by
  simp only [UInt8.lt_iff_toNat_lt, UInt8.reduceToNat] at h
  have hv : (Char.ofNat a.toNat).toNat = a.toNat := toNat_ofNat (Or.inl (by omega))
  simp [encode, hv, h]

/-- The pieces of a text put the text together again. -/
theorem flatMap_bytes_pieces (t : Text) : t.pieces.flatMap Piece.bytes = t := by
  fun_induction pieces t with
  | case1 => rfl
  | case2 a t h ih => simp [Piece.bytes, encode_ofNat_toNat h, ih]
  | case3 => simp [Piece.bytes]
  | case4 a h b t c hc ih => simp [Piece.bytes, encode_of_decode₂? hc, ih]
  | case5 => simp_all [Piece.bytes]
  | case6 a h b h₂ c t d hd ih => simp [Piece.bytes, encode_of_decode₃? hd, ih]
  | case7 => simp_all [Piece.bytes]
  | case8 a h b h₂ c h₃ d t e he ih => simp [Piece.bytes, encode_of_decode₄? he, ih]
  | case9 => simp_all [Piece.bytes]

theorem toNat_toUInt8 {n : Nat} (h : n < 0x100) : n.toUInt8.toNat = n := by
  simp only [UInt8.toNat_ofNat']
  omega

theorem tail?_toUInt8 {x : Nat} (h : x < 0x40) : tail? (0x80 + x).toUInt8 = some x := by
  simp only [tail?, UInt8.le_iff_toNat_le, UInt8.lt_iff_toNat_lt, UInt8.reduceToNat,
    toNat_toUInt8 (show 0x80 + x < 0x100 by omega)]
  rw [if_pos (by omega), Nat.add_sub_cancel_left]

theorem toNat_lt (c : Char) : c.toNat < 0x110000 := by
  have hv : c.toNat.isValidChar := c.valid
  simp only [Nat.isValidChar] at hv
  omega

section

variable {c : Char}

theorem decode₂?_encode (h₁ : 0x80 ≤ c.toNat) (h₂ : c.toNat < 0x800) :
    decode₂? (0xC0 + c.toNat / 0x40).toUInt8 (0x80 + c.toNat % 0x40).toUInt8 = some c := by
  simp only [decode₂?, UInt8.le_iff_toNat_le, UInt8.lt_iff_toNat_lt, UInt8.reduceToNat,
    toNat_toUInt8 (show 0xC0 + c.toNat / 0x40 < 0x100 by omega)]
  rw [if_pos (by omega), tail?_toUInt8 (by omega)]
  exact charFrom?_toNat (by omega) (by omega)

theorem decode₃?_encode (h₁ : 0x800 ≤ c.toNat) (h₂ : c.toNat < 0x10000) :
    decode₃? (0xE0 + c.toNat / 0x1000).toUInt8 (0x80 + c.toNat / 0x40 % 0x40).toUInt8
      (0x80 + c.toNat % 0x40).toUInt8 = some c := by
  simp only [decode₃?, UInt8.le_iff_toNat_le, UInt8.lt_iff_toNat_lt, UInt8.reduceToNat,
    toNat_toUInt8 (show 0xE0 + c.toNat / 0x1000 < 0x100 by omega)]
  rw [if_pos (by omega), tail?_toUInt8 (by omega), tail?_toUInt8 (by omega)]
  exact charFrom?_toNat (by omega) (by omega)

theorem decode₄?_encode (h : 0x10000 ≤ c.toNat) :
    decode₄? (0xF0 + c.toNat / 0x40000).toUInt8 (0x80 + c.toNat / 0x1000 % 0x40).toUInt8
      (0x80 + c.toNat / 0x40 % 0x40).toUInt8 (0x80 + c.toNat % 0x40).toUInt8 = some c := by
  have hc := toNat_lt c
  simp only [decode₄?, UInt8.le_iff_toNat_le, UInt8.lt_iff_toNat_lt, UInt8.reduceToNat,
    toNat_toUInt8 (show 0xF0 + c.toNat / 0x40000 < 0x100 by omega)]
  rw [if_pos (by omega), tail?_toUInt8 (by omega), tail?_toUInt8 (by omega),
    tail?_toUInt8 (by omega)]
  simp only [Option.bind_eq_bind, Option.bind_some]
  exact charFrom?_toNat (by omega) (by omega)

end

theorem decode₂?_eq_none {a b : UInt8} (h : 0xE0 ≤ a.toNat) : decode₂? a b = none := by
  simp only [decode₂?, UInt8.le_iff_toNat_le, UInt8.lt_iff_toNat_lt, UInt8.reduceToNat]
  rw [if_neg (by omega)]

theorem decode₃?_eq_none {a b c : UInt8} (h : 0xF0 ≤ a.toNat) : decode₃? a b c = none := by
  simp only [decode₃?, UInt8.le_iff_toNat_le, UInt8.lt_iff_toNat_lt, UInt8.reduceToNat]
  rw [if_neg (by omega)]

theorem pieces_one {a : UInt8} (h : a < 0x80) (t : Text) :
    pieces (a :: t) = .char (Char.ofNat a.toNat) :: pieces t := by
  rw [pieces.eq_def]
  simp only [h, if_true]

theorem pieces_two {a b : UInt8} {c : Char} (h : ¬ a < 0x80) (hc : decode₂? a b = some c)
    (t : Text) : pieces (a :: b :: t) = .char c :: pieces t := by
  rw [pieces.eq_def]
  simp only [h, if_false, hc]

theorem pieces_three {a b c : UInt8} {d : Char} (h : ¬ a < 0x80) (h₂ : decode₂? a b = none)
    (hd : decode₃? a b c = some d) (t : Text) :
    pieces (a :: b :: c :: t) = .char d :: pieces t := by
  rw [pieces.eq_def]
  simp only [h, if_false, h₂, hd]

theorem pieces_four {a b c d : UInt8} {e : Char} (h : ¬ a < 0x80) (h₂ : decode₂? a b = none)
    (h₃ : decode₃? a b c = none) (he : decode₄? a b c d = some e) (t : Text) :
    pieces (a :: b :: c :: d :: t) = .char e :: pieces t := by
  rw [pieces.eq_def]
  simp only [h, if_false, h₂, h₃, he]

theorem not_lt_of_lead {n : Nat} (h : 0x80 ≤ n) (h' : n < 0x100) : ¬ n.toUInt8 < 0x80 := by
  simp only [UInt8.lt_iff_toNat_lt, UInt8.reduceToNat, toNat_toUInt8 h']
  omega

/-- A character at the front of a text is read back. -/
theorem pieces_encode_append (c : Char) (t : Text) :
    pieces (encode c ++ t) = .char c :: pieces t := by
  have hc := toNat_lt c
  by_cases h₁ : c.toNat < 0x80
  · have hn := toNat_toUInt8 (show c.toNat < 0x100 by omega)
    have ha : c.toNat.toUInt8 < 0x80 := by
      simp only [UInt8.lt_iff_toNat_lt, UInt8.reduceToNat, hn, h₁]
    simp only [encode, h₁, if_true]
    exact (pieces_one ha t).trans (by rw [hn, Char.ofNat_toNat])
  by_cases h₂ : c.toNat < 0x800
  · simp only [encode, h₁, h₂, if_true, if_false]
    exact pieces_two (not_lt_of_lead (by omega) (by omega)) (decode₂?_encode (by omega) h₂) t
  by_cases h₃ : c.toNat < 0x10000
  · have hn := toNat_toUInt8 (show 0xE0 + c.toNat / 0x1000 < 0x100 by omega)
    simp only [encode, h₁, h₂, h₃, if_true, if_false]
    exact pieces_three (not_lt_of_lead (by omega) (by omega)) (decode₂?_eq_none (by omega))
      (decode₃?_encode (by omega) h₃) t
  · have hn := toNat_toUInt8 (show 0xF0 + c.toNat / 0x40000 < 0x100 by omega)
    simp only [encode, h₁, h₂, h₃, if_false]
    exact pieces_four (not_lt_of_lead (by omega) (by omega)) (decode₂?_eq_none (by omega))
      (decode₃?_eq_none (by omega)) (decode₄?_encode (by omega)) t

/-- The characters of a well-formed text are read back. -/
theorem pieces_ofChars (cs : List Char) : pieces (ofChars cs) = cs.map .char := by
  induction cs with
  | nil => rfl
  | cons c cs ih => rw [ofChars_cons, pieces_encode_append, ih, List.map_cons]

end SmallScheme.Text
