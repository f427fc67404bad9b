/-!
# Texts as byte sequences

Names, string contents, messages and source files are sequences of bytes. Nothing here assumes
that the bytes are well-formed UTF-8; the decoding side is `SmallScheme.Text.Utf8`.
-/

namespace SmallScheme

set_option autoImplicit false

/-- A text is a sequence of bytes, ordered byte by byte. -/
abbrev Text := List UInt8

namespace Text

/-- The UTF-8 bytes of one character, between one and four of them. -/
def encode (c : Char) : Text :=
  let n := c.toNat
  if n < 0x80 then
    [n.toUInt8]
  else if n < 0x800 then
    [(0xC0 + n / 0x40).toUInt8, (0x80 + n % 0x40).toUInt8]
  else if n < 0x10000 then
    [(0xE0 + n / 0x1000).toUInt8, (0x80 + n / 0x40 % 0x40).toUInt8, (0x80 + n % 0x40).toUInt8]
  else
    [(0xF0 + n / 0x40000).toUInt8, (0x80 + n / 0x1000 % 0x40).toUInt8,
      (0x80 + n / 0x40 % 0x40).toUInt8, (0x80 + n % 0x40).toUInt8]

/-- The UTF-8 bytes of a sequence of characters. -/
def ofChars (cs : List Char) : Text := cs.flatMap encode

/-- The UTF-8 bytes of a string. -/
def ofString (s : String) : Text := ofChars s.toList

@[simp] theorem ofChars_nil : ofChars [] = [] := rfl

@[simp] theorem ofChars_cons (c : Char) (cs : List Char) :
    ofChars (c :: cs) = encode c ++ ofChars cs := rfl

@[simp] theorem ofChars_append (cs ds : List Char) :
    ofChars (cs ++ ds) = ofChars cs ++ ofChars ds := List.flatMap_append

/-- Puts one text between each two neighbours of a list. -/
def join (separator : Text) : List Text → Text
  | [] => []
  | [t] => t
  | t :: u :: ts => t ++ separator ++ join separator (u :: ts)

end Text

end SmallScheme
