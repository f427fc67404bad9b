import SmallScheme.Session.Basic
import SmallScheme.Session.Completion

/-!
# The input of a session

A line ends at a carriage return or a line feed, or with the input. A NUL is an end of the input
too: it ends a line that has begun, and the session where none has. A tab is not part of a line; it
completes the word before it as far as the completions agree. A stray byte of the input arrives as
the replacement character.
-/

namespace SmallScheme.Session

set_option autoImplicit false

/-- The line that an input goes on with, and what follows it. The characters of the line that were
taken already stand latest first. -/
def lineFrom (extension : List Char → List Char) :
    (taken input : List Char) → Option (List Char × List Char)
  | taken, [] => if taken.isEmpty then none else some (taken.reverse, [])
  | taken, c :: cs =>
    if c = '\n' ∨ c = '\r' then some (taken.reverse, cs)
    else if c = '\x00' then if taken.isEmpty then none else some (taken.reverse, cs)
    else if c = '\t' then lineFrom extension ((extension taken.reverse).reverse ++ taken) cs
    else lineFrom extension (c :: taken) cs

/-- A line leaves no more of the input than there was, and less if none of it was taken before. -/
theorem length_lineFrom {extension : List Char → List Char} {taken input line rest : List Char}
    (h : lineFrom extension taken input = some (line, rest)) :
    rest.length ≤ input.length ∧ (taken = [] → rest.length < input.length) := by
  fun_induction lineFrom extension taken input <;> simp_all <;> omega

/-- The next line of an input, and what follows it. -/
def nextLine? (s : Session) (input : List Char) : Option (List Char × List Char) :=
  lineFrom (Completion.extension s.world.store s.frame) [] input

theorem length_nextLine? {s : Session} {input line rest : List Char}
    (h : s.nextLine? input = some (line, rest)) : rest.length < input.length :=
  (length_lineFrom h).2 rfl

/-- What an input makes a session print, up to the line that quits: its output and its errors. -/
def converse (files : Files) (fuel : Nat) (s : Session) (input : List Char) :
    Option (Text × Text) :=
  match h : s.nextLine? input with
  | none => some ([], [])
  | some (line, rest) =>
    have := length_nextLine? h
    match s.feed files fuel (Text.ofChars line) with
    | none => none
    | some (reply, s) =>
      if reply.quit then some (reply.out, reply.err)
      else
        (converse files fuel s rest).map fun (out, err) => (reply.out ++ out, reply.err ++ err)
termination_by input.length

end SmallScheme.Session
