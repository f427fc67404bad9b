import SmallScheme.Proofs.Text.Encoding
import SmallScheme.Proofs.Token.Classes
import SmallScheme.Reader.Literal

/-!
# Texts of strings

Escapes are resolved byte by byte: the text is cut into parts (`Text.parts`), and each part stands
for bytes of its own. Still a backslash never meets a part of a character: the text of a string
stays well formed, and a text without backslashes is left as it is.
-/

namespace SmallScheme

set_option autoImplicit false

/-- A part of the text of a string: a backslash and what it takes with it, or anything else. -/
inductive StringPart (α : Type) where
  | plain (a : α)
  | pair (a : α)
  deriving DecidableEq, Repr

namespace StringPart

/-- How a part is spelled, given the backslash. -/
def spelled {α : Type} (backslash : α) : StringPart α → List α
  | .plain a => [a]
  | .pair a => [backslash, a]

/-- The bytes that a part stands for: four pairs stand for a byte each, anything else for itself. -/
def resolve : StringPart UInt8 → Text
  | .plain b => [b]
  | .pair d =>
    if d = 110 then [10]
    else if d = 114 then [13]
    else if d = 92 then [92]
    else if d = 34 then [34]
    else [92, d]

end StringPart

/-- The parts of a text, cut in one pass over its bytes. -/
def Text.parts : Text → List (StringPart UInt8)
  | [] => []
  | [b] => [.plain b]
  | b :: d :: t => if b = 92 then .pair d :: parts t else .plain b :: parts (d :: t)

namespace Text

theorem flatMap_spelled_parts (t : Text) : t.parts.flatMap (StringPart.spelled 92) = t := by
  fun_induction parts t with
  | case1 => rfl
  | case2 => rfl
  | case3 d t ih => rw [List.flatMap_cons, ih]; rfl
  | case4 b d t _ ih => rw [List.flatMap_cons, ih]; rfl

theorem unescape_eq_flatMap (t : Text) : unescape t = t.parts.flatMap StringPart.resolve := by
  fun_induction parts t with
  | case1 => rfl
  | case2 => rfl
  | case3 d t ih =>
    rw [List.flatMap_cons, ← ih, unescape, if_pos rfl, StringPart.resolve, escaped?]
    grind
  | case4 b d t hb ih => rw [List.flatMap_cons, ← ih, unescape, if_neg hb]; rfl

theorem parts_append {t : Text} (h : 92 ∉ t) (u : Text) :
    (t ++ u).parts = t.map .plain ++ u.parts := by
  induction t with
  | nil => rfl
  | cons b t ih =>
    have hb : b ≠ 92 := fun he => h (he ▸ List.mem_cons_self)
    have ht := ih fun hm => h (List.mem_cons_of_mem b hm)
    rw [List.cons_append, List.map_cons, List.cons_append, ← ht]
    cases hu : t ++ u with
    | nil => simp only [parts]
    | cons d w => simp only [parts, hb, if_false]

end Text

theorem unescape_append {t : Text} (h : 92 ∉ t) (u : Text) :
    unescape (t ++ u) = t ++ unescape u := by
  have hp : (t.map StringPart.plain).flatMap StringPart.resolve = t := by
    simp only [List.flatMap_map, StringPart.resolve, List.flatMap_singleton']
  rw [Text.unescape_eq_flatMap, Text.parts_append h, List.flatMap_append, hp,
    ← Text.unescape_eq_flatMap]

theorem unescape_eq_self {t : Text} (h : 92 ∉ t) : unescape t = t := by
  have hu := unescape_append h []
  simpa [unescape] using hu

theorem escaped?_eq_none {b : UInt8} (h : 0x80 ≤ b.toNat) : escaped? b = none := by
  have ne {d : UInt8} (hd : d.toNat < 0x80) : b ≠ d := fun he => by subst he; omega
  simp only [escaped?, ne (show (110 : UInt8).toNat < 0x80 by decide),
    ne (show (114 : UInt8).toNat < 0x80 by decide), ne (show (92 : UInt8).toNat < 0x80 by decide),
    ne (show (34 : UInt8).toNat < 0x80 by decide), if_false]

/-- An escape that is resolved makes a character. -/
theorem encode_of_escaped? {b e : UInt8} (h : escaped? b = some e) :
    ∃ d, Text.encode d = [e] := by
  unfold escaped? at h
  split at h
  · exact ⟨'\n', by cases h; rfl⟩
  split at h
  · exact ⟨'\r', by cases h; rfl⟩
  split at h
  · exact ⟨'\\', by cases h; rfl⟩
  split at h
  · exact ⟨'"', by cases h; rfl⟩
  · cases h

theorem backslash_not_mem_encode {c : Char} (h : c ≠ '\\') : 92 ∉ Text.encode c := fun hm =>
  h (Char.toNat_inj.mp ((Text.mem_encode_iff (by decide)).mp hm))

/-- A backslash and the character behind it make characters, and the rest is left alone. -/
theorem unescape_escape (c : Char) (u : Text) :
    ∃ cs, unescape (92 :: (Text.encode c ++ u)) = Text.ofChars cs ++ unescape u := by
  by_cases hc : c.toNat < 0x80
  · obtain ⟨b, hb, hn⟩ := Text.encode_ascii hc
    simp only [hb, List.singleton_append, unescape, if_true]
    cases he : escaped? b with
    | none =>
      refine ⟨['\\', c], ?_⟩
      rw [Text.ofChars_cons, Text.ofChars_cons, Text.ofChars_nil, hb]
      rfl
    | some e =>
      obtain ⟨d, hd⟩ := encode_of_escaped? he
      refine ⟨[d], ?_⟩
      rw [Text.ofChars_cons, Text.ofChars_nil, hd]
      rfl
  · have h92 : 92 ∉ Text.encode c := backslash_not_mem_encode fun h => hc (h ▸ by decide)
    have hm := Text.le_toNat_of_mem_encode hc
    obtain ⟨b, bs, hx⟩ := List.exists_cons_of_ne_nil (Text.encode_ne_nil c)
    refine ⟨['\\', c], ?_⟩
    rw [Text.ofChars_cons, Text.ofChars_cons, Text.ofChars_nil, List.append_nil]
    rw [hx] at h92 hm ⊢
    simp only [List.cons_append, unescape, if_true, escaped?_eq_none (hm b List.mem_cons_self)]
    rw [unescape_append fun h => h92 (List.mem_cons_of_mem b h)]
    rfl

/-- The text of a string literal is well formed. -/
theorem wellFormed_unescape (cs : List Char) : (unescape (Text.ofChars cs)).WellFormed := by
  -- A backslash takes one character with it, so the induction is on the length.
  induction hn : cs.length using Nat.strongRecOn generalizing cs with
  | ind n ih =>
    cases cs with
    | nil => exact ⟨[], rfl⟩
    | cons c cs =>
      by_cases hc : c = '\\'
      · subst hc
        cases cs with
        | nil => exact ⟨['\\'], rfl⟩
        | cons d cs =>
          obtain ⟨ds, hd⟩ := unescape_escape d (Text.ofChars cs)
          obtain ⟨es, he⟩ := ih cs.length (by simp only [← hn, List.length_cons]; omega) cs rfl
          refine ⟨ds ++ es, ?_⟩
          rw [Text.ofChars_append, ← he, ← hd, Text.ofChars_cons, Text.ofChars_cons]
          rfl
      · obtain ⟨es, he⟩ := ih cs.length (by simp [← hn]) cs rfl
        refine ⟨c :: es, ?_⟩
        rw [Text.ofChars_cons, unescape_append (backslash_not_mem_encode hc), he,
          Text.ofChars_cons]

/-- A text without quotation marks and backslashes may stand in a string as it is. -/
theorem stringBody_of_plain {cs : List Char} (hq : 34 ∉ Text.ofChars cs)
    (hb : 92 ∉ Text.ofChars cs) : StringBody cs := by
  induction cs with
  | nil => exact .nil
  | cons c cs ih =>
    rw [Text.ofChars_cons, List.mem_append, not_or] at hq hb
    refine .plain ?_ ?_ (ih hq.2 hb.2)
    · rintro rfl
      exact hq.1 (by decide)
    · rintro rfl
      exact hb.1 (by decide)

end SmallScheme
