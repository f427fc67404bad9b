import SmallScheme.Proofs.Reader.RoundTrip

/-!
# Escapes in strings

Two passes look for backslashes in a string. The lexer goes from character to character to find the
closing quotation mark; the reader goes from byte to byte to resolve the escapes. Both cut what they
pass into parts (`StringPart.scan` and `Text.parts`): a backslash takes what stands behind it with
it, and anything else stands alone. The parts of the bytes are those of the characters, spread over
the bytes of each (`StringPart.parts_ofChars`), since no byte of a longer character is a backslash.
-/

namespace SmallScheme

set_option autoImplicit false

namespace StringPart

/-- The parts of a string up to the mark that closes it, as the lexer passes them, and what stands
behind the mark. -/
def scan : List Char → Option (List (StringPart Char) × List Char)
  | [] => none
  | [c] => if c = '"' then some ([], []) else none
  | c :: d :: cs =>
    if c = '"' then some ([], d :: cs)
    else if c = '\\' then (scan cs).map fun x => (.pair d :: x.1, x.2)
    else (scan (d :: cs)).map fun x => (.plain c :: x.1, x.2)

/-- A part over the bytes of its character: a backslash takes the first of them with it. -/
def spread : StringPart Char → List (StringPart UInt8)
  | .plain c => (Text.encode c).map .plain
  | .pair c => .pair ((Text.encode c).headD 0) :: (Text.encode c).tail.map .plain

/-- Parts that the lexer passes on its way to the closing mark. -/
def Inside (ps : List (StringPart Char)) : Prop := ∀ c, .plain c ∈ ps → c ≠ '"' ∧ c ≠ '\\'

end StringPart

namespace Text

/-- Behind its first byte no character has a backslash. -/
theorem backslash_not_mem_tail (c : Char) : 92 ∉ (encode c).tail := by
  by_cases hc : c.toNat < 0x80
  · obtain ⟨b, hb, -⟩ := encode_ascii hc
    rw [hb]
    exact List.not_mem_nil
  · intro hm
    have := le_toNat_of_mem_encode hc _ (List.mem_of_mem_tail hm)
    exact absurd this (by decide)

/-- A backslash and the character behind it. -/
theorem parts_pair (c : Char) (u : Text) :
    parts (92 :: (encode c ++ u)) = (StringPart.pair c).spread ++ u.parts := by
  obtain ⟨b, bs, he⟩ := List.exists_cons_of_ne_nil (encode_ne_nil c)
  have hbs : 92 ∉ bs := by
    have := backslash_not_mem_tail c
    rwa [he] at this
  rw [StringPart.spread, he, List.cons_append, parts, if_pos rfl, parts_append hbs]
  rfl

end Text

namespace StringPart

variable {ps : List (StringPart Char)}

theorem Inside.tail {p : StringPart Char} (h : Inside (p :: ps)) : Inside ps :=
  fun c hc => h c (List.mem_cons_of_mem p hc)

/-- The bytes of a string are cut where its characters are. -/
theorem parts_ofChars (h : Inside ps) :
    (Text.ofChars (ps.flatMap (spelled '\\'))).parts = ps.flatMap spread := by
  -- Part by part: a plain one has no byte that is a backslash, and a pair ends with its character.
  induction ps with
  | nil => rfl
  | cons p ps ih =>
    rw [List.flatMap_cons, List.flatMap_cons, Text.ofChars_append, ← ih h.tail]
    cases p with
    | plain c =>
      have hc := backslash_not_mem_encode (h c List.mem_cons_self).2
      have hx : Text.ofChars (spelled '\\' (.plain c)) = Text.encode c := List.append_nil _
      rw [hx, Text.parts_append hc]
      rfl
    | pair c =>
      have hx : Text.ofChars (spelled '\\' (.pair c)) = 92 :: (Text.encode c ++ []) := rfl
      rw [hx, List.append_nil, List.cons_append, Text.parts_pair]

theorem backslash_not_mem_spread (h : Inside ps) : .plain 92 ∉ ps.flatMap spread := by
  intro hm
  obtain ⟨p, hp, hm⟩ := List.mem_flatMap.mp hm
  cases p with
  | plain c =>
    obtain ⟨b, hb, he⟩ := List.mem_map.mp hm
    cases he
    exact backslash_not_mem_encode (h c hp).2 hb
  | pair c =>
    rcases List.mem_cons.mp hm with he | hm
    · cases he
    · obtain ⟨b, hb, he⟩ := List.mem_map.mp hm
      cases he
      exact Text.backslash_not_mem_tail c hb

theorem scan_append (h : Inside ps) (rest : List Char) :
    scan (ps.flatMap (spelled '\\') ++ '"' :: rest) = some (ps, rest) := by
  induction ps with
  | nil => cases rest <;> rfl
  | cons p ps ih =>
    have ih := ih h.tail
    rw [List.flatMap_cons, List.append_assoc]
    cases p with
    | plain c =>
      obtain ⟨hq, hb⟩ := h c List.mem_cons_self
      obtain ⟨d, ds, hd⟩ := List.exists_cons_of_ne_nil
        (show ps.flatMap (spelled '\\') ++ '"' :: rest ≠ [] by simp)
      rw [hd] at ih ⊢
      rw [spelled, List.cons_append, List.nil_append, scan, if_neg hq, if_neg hb, ih]
      rfl
    | pair c =>
      rw [spelled, List.cons_append, List.cons_append, List.nil_append, scan,
        if_neg (by decide), if_pos rfl, ih]
      rfl

/-- The lexer finds the closing mark behind the parts that it passes. -/
theorem closingMark_eq (cs : List Char) :
    Lexeme.closingMark cs =
      (scan cs).map fun x => (x.1.flatMap (spelled '\\')).length + 1 := by
  fun_induction scan cs with
  | case1 => rfl
  | case2 => rfl
  | case3 c hc => rw [Lexeme.closingMark, if_neg hc]; rfl
  | case4 d cs => rfl
  | case5 d cs _ ih =>
    rw [Lexeme.closingMark, if_neg (by decide), if_pos rfl, ih, Option.map_map, Option.map_map]
    rfl
  | case6 c d cs hq hb ih =>
    rw [Lexeme.closingMark, if_neg hq, if_neg hb, ih, Option.map_map, Option.map_map]
    rfl

theorem exists_inside {body : List Char} (h : StringBody body) :
    ∃ ps, Inside ps ∧ body = ps.flatMap (spelled '\\') := by
  induction h with
  | nil => exact ⟨[], (fun c hc => by cases hc), rfl⟩
  | @plain c cs hq hb _ ih =>
    obtain ⟨ps, hp, rfl⟩ := ih
    refine ⟨.plain c :: ps, fun d hd => ?_, rfl⟩
    rcases List.mem_cons.mp hd with he | hd
    · cases he
      exact ⟨hq, hb⟩
    · exact hp d hd
  | @escape c cs _ ih =>
    obtain ⟨ps, hp, rfl⟩ := ih
    refine ⟨.pair c :: ps, fun d hd => hp d ?_, rfl⟩
    rcases List.mem_cons.mp hd with he | hd
    · cases he
    · exact hd

end StringPart

/-- The text of a string token, cut by the lexer into parts: the reader cuts the bytes between the
marks in the same way, leaves no backslash without a partner, and resolves each part by itself. -/
structure Token.Resolves (t : Token) (ps : List (StringPart Char)) : Prop where
  text_eq : t.text = Text.ofChars ('"' :: ps.flatMap (StringPart.spelled '\\') ++ ['"'])
  scan_eq : ∀ rest,
    StringPart.scan (ps.flatMap (StringPart.spelled '\\') ++ '"' :: rest) = some (ps, rest)
  spelled_eq : (innerText t.text).parts.flatMap (StringPart.spelled 92) = innerText t.text
  parts_eq : (innerText t.text).parts = ps.flatMap StringPart.spread
  partnered : .plain 92 ∉ (innerText t.text).parts
  unescape_eq : unescape (innerText t.text) = (innerText t.text).parts.flatMap StringPart.resolve
  wellFormed : (unescape (innerText t.text)).WellFormed

theorem Token.Classed.resolves {t : Token} (h : t.Classed) (hk : t.kind = .string) :
    ∃ ps, t.Resolves ps := by
  obtain ⟨cs, hx, ha⟩ := h (by rw [hk]; rfl)
  rw [hk] at ha
  obtain ⟨body, hbody, rfl⟩ := ha
  obtain ⟨ps, hp, rfl⟩ := StringPart.exists_inside hbody
  have hi : innerText t.text = Text.ofChars (ps.flatMap (StringPart.spelled '\\')) := by
    rw [hx, List.cons_append, Text.ofChars_cons, Text.ofChars_append]
    exact Grammar.innerText_quoted _
  have hparts : (innerText t.text).parts = ps.flatMap StringPart.spread := by
    rw [hi, StringPart.parts_ofChars hp]
  refine ⟨ps, {
    text_eq := hx
    scan_eq := StringPart.scan_append hp
    spelled_eq := Text.flatMap_spelled_parts _
    parts_eq := hparts
    partnered := ?_
    unescape_eq := Text.unescape_eq_flatMap _
    wellFormed := hi ▸ wellFormed_unescape _ }⟩
  rw [hparts]
  exact StringPart.backslash_not_mem_spread hp

/-- Characters and what may be written for them in a string: backslashes and quotation marks behind
a backslash, and line feeds and carriage returns as they are or by their letters. -/
inductive Escaped : List Char → List Char → Prop where
  | nil : Escaped [] []
  | backslash {cs ds : List Char} (h : Escaped cs ds) : Escaped ('\\' :: cs) ('\\' :: '\\' :: ds)
  | quote {cs ds : List Char} (h : Escaped cs ds) : Escaped ('"' :: cs) ('\\' :: '"' :: ds)
  | lineFeed {cs ds : List Char} (h : Escaped cs ds) : Escaped ('\n' :: cs) ('\\' :: 'n' :: ds)
  | carriageReturn {cs ds : List Char} (h : Escaped cs ds) :
    Escaped ('\r' :: cs) ('\\' :: 'r' :: ds)
  | plain {c : Char} {cs ds : List Char} (hq : c ≠ '"') (hb : c ≠ '\\') (h : Escaped cs ds) :
    Escaped (c :: cs) (c :: ds)

namespace Escaped

variable {cs ds : List Char}

theorem exists_escaped (cs : List Char) : ∃ ds, Escaped cs ds := by
  induction cs with
  | nil => exact ⟨[], .nil⟩
  | cons c cs ih =>
    obtain ⟨ds, hd⟩ := ih
    by_cases hb : c = '\\'
    · subst hb
      exact ⟨_, .backslash hd⟩
    by_cases hq : c = '"'
    · subst hq
      exact ⟨_, .quote hd⟩
    · exact ⟨_, .plain hq hb hd⟩

theorem stringBody (h : Escaped cs ds) : StringBody ds := by
  induction h with
  | nil => exact .nil
  | backslash _ ih | quote _ ih | lineFeed _ ih | carriageReturn _ ih => exact .escape ih
  | plain hq hb _ ih => exact .plain hq hb ih

theorem unescape_eq (h : Escaped cs ds) : unescape (Text.ofChars ds) = Text.ofChars cs := by
  induction h with
  | nil => rfl
  | backslash _ ih | quote _ ih | lineFeed _ ih | carriageReturn _ ih =>
    rw [Text.ofChars_cons _ (_ : List Char), Text.ofChars_cons, Text.ofChars_cons, ← ih]
    rfl
  | plain _ hb _ ih =>
    rw [Text.ofChars_cons, unescape_append (backslash_not_mem_encode hb), ih, Text.ofChars_cons]

end Escaped

namespace Reader

/-- A string literal can spell every text: in whatever way its characters are escaped, the literal is
read for the text. In any string token the reader pairs the backslashes as the lexer did when it
looked for the end, and puts one byte for each of the four known pairs. -/
theorem string_literals :
    (∀ cs, (∃ ds, Escaped cs ds) ∧ ∀ ds, Escaped cs ds →
      (∀ symbols name, SymbolTable.Faithful? symbols →
        (readNamed symbols name (34 :: Text.ofChars ds ++ [34])).1 =
          .ok [.string (Text.ofChars cs)]) ∧
      read (34 :: Text.ofChars ds ++ [34]) = .ok (.string (Text.ofChars cs))) ∧
    (∀ cs, Lexeme.closingMark cs =
      (StringPart.scan cs).map fun x => (x.1.flatMap (StringPart.spelled '\\')).length + 1) ∧
    ∀ (s : Source) (t : Token), t ∈ s.tokens.pending → t.kind = .string → ∃ ps, t.Resolves ps := by
  refine ⟨fun cs => ⟨Escaped.exists_escaped cs, fun ds h => ?_⟩, StringPart.closingMark_eq,
    fun s t ht hk => (s.classed_of_mem_tokens t ht).resolves hk⟩
  have hw : 34 :: Text.ofChars ds ++ [34] = Text.ofChars ('"' :: (ds ++ ['"'])) := by
    rw [Text.ofChars_cons, Text.ofChars_append]
    rfl
  have hnamed (symbols : Option SymbolTable) (name : Text) (hf : SymbolTable.Faithful? symbols) :
      (readNamed symbols name (34 :: Text.ofChars ds ++ [34])).1 =
        .ok [.string (Text.ofChars cs)] := by
    have hs := (scanned_body h.stringBody).single
    rw [h.unescape_eq] at hs
    rw [hw]
    exact readNamed_of_scannedItems hf name hs
  refine ⟨hnamed, ?_⟩
  rw [read, readAll, hnamed _ _ SymbolTable.faithful?_empty]

/-- A backslash before an accented letter keeps its place before the two bytes of the letter. -/
theorem string_literals_accented :
    ∃ ds t ps, Escaped "é\"\\\n".toList ds ∧
      read (34 :: Text.ofChars ds ++ [34]) = .ok (.string (.ofString "é\"\\\n")) ∧
      t ∈ (Source.ofText [] (.ofString "\"\\é\\n\"") none).tokens.pending ∧ t.kind = .string ∧
      t.Resolves ps ∧ unescape (innerText t.text) = .ofString "\\é\n" := by
  let t : Token := ⟨.string, .ofString "\"\\é\\n\"", ⟨[], 0, 1, 1⟩, false⟩
  have hesc : Escaped "é\"\\\n".toList ['é', '\\', '"', '\\', '\\', '\\', 'n'] :=
    .plain (by decide) (by decide) (.quote (.backslash (.lineFeed .nil)))
  have ht : t ∈ (Source.ofText [] (.ofString "\"\\é\\n\"") none).tokens.pending := by
    decide +kernel
  obtain ⟨hread, -, htokens⟩ := string_literals
  obtain ⟨ps, hp⟩ := htokens _ t ht rfl
  exact ⟨_, t, ps, hesc, ((hread _).2 _ hesc).2, ht, rfl, hp, by decide⟩

end Reader

end SmallScheme
