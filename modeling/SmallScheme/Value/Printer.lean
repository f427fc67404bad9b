import SmallScheme.Value.Basic

/-!
# Written form of values

A value is written in front of a text, so that nested lists are written in one pass. Strings are
written between double quotation marks with no escapes, a closure by its formals alone, and a
primitive procedure by a fixed mark.
-/

namespace SmallScheme

set_option autoImplicit false

/-- The formals of a closure as they stand in a lambda expression. -/
def Formals.render (f : Formals) : Text :=
  match f.params, f.rest with
  | [], some r => r
  | ps, rest =>
    .ofString "(" ++ Text.join (.ofString " ") ps
      ++ (match rest with
          | some r => .ofString " . " ++ r
          | none => [])
      ++ .ofString ")"

namespace Value

/-- The literal of a character. -/
def charLiteral (c : Char) : Text :=
  if c = ' ' then .ofString "#\\space"
  else if c = '\n' then .ofString "#\\newline"
  else .ofString "#\\" ++ Text.encode c

mutual

/-- Writes a value in front of a text. -/
def write : Value → Text → Text
  | .atom name, rest => name ++ rest
  | .number n, rest => Decimal.ofInt n.toInt ++ rest
  | .string text, rest => 34 :: text ++ 34 :: rest
  | .char p, rest => charLiteral p.shown ++ rest
  | .bool true, rest => 35 :: 116 :: rest
  | .bool false, rest => 35 :: 102 :: rest
  | .list items, rest => 40 :: writeItems items (41 :: rest)
  | .dotted [] last, rest => 40 :: 46 :: 32 :: write last (41 :: rest)
  | .dotted (v :: vs) last, rest =>
    40 :: write v (writeMore vs (32 :: 46 :: 32 :: write last (41 :: rest)))
  | .closure _ formals _ _, rest =>
    Text.ofString "(lambda " ++ (formals.render ++ (Text.ofString " ...)" ++ rest))
  | .primitive _ _, rest => Text.ofString "<primitive>" ++ rest

/-- Writes values, separated by spaces, in front of a text. -/
def writeItems : List Value → Text → Text
  | [], rest => rest
  | v :: vs, rest => write v (writeMore vs rest)

/-- Writes values, with a space before each, in front of a text. -/
def writeMore : List Value → Text → Text
  | [], rest => rest
  | v :: vs, rest => 32 :: write v (writeMore vs rest)

end

/-- The written form of a value. -/
def render (v : Value) : Text := v.write []

/-- The written forms of values, separated by spaces. -/
def renderAll (vs : List Value) : Text := writeItems vs []

mutual

/-- What is written does not depend on the text behind it. -/
theorem write_append : (v : Value) → (s t : Text) → v.write (s ++ t) = v.write s ++ t
  | .atom _, _, _ | .number _, _, _ | .string _, _, _ | .char _, _, _ | .bool true, _, _
  | .bool false, _, _ | .closure .., _, _ | .primitive .., _, _ => by simp [write]
  | .list vs, s, t => by
    have h := writeItems_append vs (41 :: s) t
    simp only [List.cons_append] at h
    simp only [write, h, List.cons_append]
  | .dotted [] v, s, t => by
    have h := write_append v (41 :: s) t
    simp only [List.cons_append] at h
    simp only [write, h, List.cons_append]
  | .dotted (u :: us) v, s, t => by
    have h₁ := write_append v (41 :: s) t
    have h₂ := writeMore_append us (32 :: 46 :: 32 :: v.write (41 :: s)) t
    have h₃ := write_append u (writeMore us (32 :: 46 :: 32 :: v.write (41 :: s))) t
    simp only [List.cons_append] at h₁ h₂
    simp only [write, h₁, h₂, h₃, List.cons_append]

theorem writeItems_append : (vs : List Value) → (s t : Text) →
    writeItems vs (s ++ t) = writeItems vs s ++ t
  | [], _, _ => rfl
  | v :: vs, s, t => by
    simp only [writeItems, writeMore_append vs s t, write_append v (writeMore vs s) t]

theorem writeMore_append : (vs : List Value) → (s t : Text) →
    writeMore vs (s ++ t) = writeMore vs s ++ t
  | [], _, _ => rfl
  | v :: vs, s, t => by
    simp only [writeMore, writeMore_append vs s t, write_append v (writeMore vs s) t,
      List.cons_append]

end

/-- A value is written in front of a text as it is written alone. -/
theorem write_eq (v : Value) (t : Text) : v.write t = v.render ++ t :=
  write_append v [] t

end Value

end SmallScheme
