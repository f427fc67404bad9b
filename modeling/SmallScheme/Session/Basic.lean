import SmallScheme.Machine.Run
import SmallScheme.Reader.Pending

/-!
# Interactive sessions

A session takes lines of input. It holds them back while they await more, and otherwise evaluates
the forms that they contain and prints the values. A line that says `quit` where a form could begin
ends the session.
-/

namespace SmallScheme

set_option autoImplicit false

/-- An interactive session. -/
structure Session where
  world : World
  /-- The frame in which forms are evaluated. -/
  frame : Nat
  /-- Whether a failure prints its trace. -/
  debug : Bool
  /-- The lines held back. -/
  held : List Text

/-- What a session answers to a line. -/
structure Reply where
  more : Bool
  quit : Bool
  out : Text
  err : Text
  deriving DecidableEq, Repr

namespace Session

/-- A session at its beginning, in a given frame. -/
def opened (world : World) (frame : Nat) (debug : Bool) : Session := ⟨world, frame, debug, []⟩

/-- A session at its beginning, in the root frame. -/
def new (world : World) (debug : Bool) : Session := opened world World.root debug

/-- Forgets the lines held back. -/
def reset (s : Session) : Session := { s with held := [] }

/-- The line that ends a session. -/
def quitCommand : Text := .ofString "quit"

/-- Whether a line ends a session. -/
def quits (s : Session) (line : Text) : Bool := s.held.isEmpty && line.trim == quitCommand

/-- What a session makes of a line before anything is evaluated. -/
inductive Intake where
  | quit
  /-- More lines are awaited. -/
  | hold (s : Session)
  /-- The lines cannot be read. -/
  | refuse (e : Error) (s : Session)
  /-- The forms to be evaluated. -/
  | forms (forms : List Value) (s : Session)

/-- Takes in a line. -/
def intake (s : Session) (line : Text) : Intake :=
  if s.quits line then .quit
  else
    let held := s.held ++ [line]
    let text := Text.join (.ofString "\n") held
    if text.awaitsMore then .hold { s with held := held }
    else
      match Reader.readAll text with
      | .error e => .refuse e s.reset
      | .ok forms => .forms forms s.reset

/-- Answers a line of input. -/
def feed (files : Files) (fuel : Nat) (s : Session) (line : Text) : Option (Reply × Session) :=
  match s.intake line with
  | .quit => some (⟨false, true, [], []⟩, s)
  | .hold s => some (⟨true, false, [], []⟩, s)
  | .refuse e s => some (⟨false, false, [], e.message ++ .ofString "\n"⟩, s)
  | .forms forms s => do
    let batch ← World.evalEach files fuel s.frame s.world forms
    return (⟨false, false, batch.output, batch.errors s.debug⟩, { s with world := batch.world })

end Session

end SmallScheme
