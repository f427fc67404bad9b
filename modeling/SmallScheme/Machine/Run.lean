import SmallScheme.Machine.Step

/-!
# Running programs

The entry points of evaluation: a form, a call, a text and a file. Each takes the number of steps
that the machine may make and gives nothing if that does not suffice; a larger number never changes
a result.
-/

namespace SmallScheme

set_option autoImplicit false

/-- A finished evaluation: a value or an error, and the world behind it. -/
abbrev Outcome := Except Error Value × World

namespace World

variable (files : Files) (fuel : Nat) (w : World)

/-- Evaluates a form in a frame. -/
def eval (frame : Nat) (form : Value) : Option Outcome :=
  State.run files fuel ⟨.eval frame form, [], w⟩

/-- Applies a procedure to arguments, called from a frame. -/
def apply (caller : Nat) (procedure : Value) (args : List Value) : Option Outcome :=
  State.run files fuel ⟨.call caller [] procedure args, [], w⟩

/-- Reads a text under a name and evaluates its forms in a frame, for the value of the last. -/
def load (frame : Nat) (name contents : Text) : Option Outcome :=
  match w.reader with
  | none => some (.error (.noReader name), w)
  | some _ => State.run files fuel (State.withExpressions name contents (State.sequence frame) [] w)

/-- Loads a file in a frame. -/
def loadFile (frame : Nat) (file : Text) : Option Outcome :=
  State.run files fuel ⟨.fetch frame file .load, [], w⟩

/-- What a sequence of top-level forms leaves behind: the values of those that succeeded, the error
of the first that did not, and the world. -/
structure Batch where
  values : List Value
  failure : Option Error
  world : World

/-- Evaluates top-level forms in a frame one after another, up to the first that fails. Each begins
without a trace. -/
def evalEach (frame : Nat) (w : World) : List Value → Option Batch
  | [] => some ⟨[], none, w⟩
  | form :: forms => do
    match ← eval files fuel { w with trace := none } frame form with
    | (.error e, w) => return ⟨[], some e, w⟩
    | (.ok v, w) =>
      let rest ← evalEach frame w forms
      return { rest with values := v :: rest.values }

end World

namespace World.Batch

/-- The values, each on a line. -/
def output (b : Batch) : Text := b.values.flatMap fun v => v.render ++ Text.ofString "\n"

/-- The error on a line, and behind it the trace if it is wanted. -/
def report (debug : Bool) (e : Error) (w : World) : Text :=
  e.message ++ .ofString "\n" ++ (if debug then w.renderTrace.getD [] else [])

/-- What a batch reports on the error stream. -/
def errors (b : Batch) (debug : Bool) : Text :=
  match b.failure with
  | some e => report debug e b.world
  | none => []

end World.Batch

end SmallScheme
