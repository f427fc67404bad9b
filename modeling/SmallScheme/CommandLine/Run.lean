import SmallScheme.CommandLine.Directory
import SmallScheme.CommandLine.Help
import SmallScheme.CommandLine.Invocation
import SmallScheme.Session.Input

/-!
# Running the program

What an invocation prints and how it ends, given the files that it can reach and its input. A
session and the evaluation of a file end well whatever happens in them; the command that runs code
stops at the first error.
-/

namespace SmallScheme

set_option autoImplicit false

/-- What an invocation leaves behind. -/
structure Execution where
  out : Text
  err : Text
  status : Nat
  deriving DecidableEq, Repr

namespace CommandLine

/-- The line break behind each message. -/
def newline : Text := .ofString "\n"

/-- The name under which an expression of the command line is read. -/
def expressionName : Text := .ofString "<expression>"

/-- The world that an invocation starts with. -/
def world (o : Options) : World := .new { limit := o.maxStack.toInt }

/-- The forms of one source of the run command, and the world behind reading them. -/
def readArgument (files : Files) (o : Options) (w : World) (source : Text) :
    Except Error (List Value) × World :=
  if o.expression then w.read expressionName source
  else
    match files source with
    | .ok contents => w.read source contents
    | .error fault => (.error (.file fault), w)

/-- Runs the sources of the run command one after another, up to the first error. -/
def runEach (files : Files) (fuel : Nat) (o : Options) (w : World) : List Text → Option Execution
  | [] => some ⟨[], [], 0⟩
  | source :: sources =>
    match readArgument files o w source with
    | (.error e, _) => some ⟨[], e.message ++ newline, 1⟩
    | (.ok forms, w) => do
      let batch ← World.evalEach files fuel World.root w forms
      let out := if o.print then batch.output else []
      if batch.failure.isSome then return ⟨out, batch.errors o.debug, 1⟩
      else
        let rest ← runEach files fuel o batch.world sources
        return { rest with out := out ++ rest.out }

/-- Evaluates a file and shows its value or its error, both on the error stream. -/
def runFile (files : Files) (fuel : Nat) (o : Options) (file : Text) : Option Execution := do
  match ← (world o).loadFile files fuel World.root file with
  | (.ok v, _) => return ⟨[], v.render ++ newline, 0⟩
  | (.error e, w) => return ⟨[], World.Batch.report o.debug e w, 0⟩

/-- A session on an input. -/
def runSession (files : Files) (fuel : Nat) (o : Options) (input : Text) : Option Execution := do
  let session := Session.new (world o) o.debug
  let (out, err) ← session.converse files fuel input.shown
  return ⟨out, err, 0⟩

/-- What an invocation with the given arguments and input does. -/
def execute (files : Files) (fuel : Nat) (input : Text) (args : List Text) : Option Execution :=
  match request args with
  | .error e => some ⟨[], .ofString "Error: " ++ e.message ++ newline, 1⟩
  | .ok (.help command) => some ⟨command.help, [], 0⟩
  | .ok (.session o) => runSession files fuel o input
  | .ok (.file o file) => runFile files fuel o file
  | .ok (.run o sources) => runEach files fuel o (world o) sources

end CommandLine

end SmallScheme
