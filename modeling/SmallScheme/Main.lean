import SmallScheme.CommandLine.Run

/-!
# The command-line program

The outer layer: arguments, files and streams. What is to be done is decided by
`CommandLine.request` and `Session.intake`; here the machine is stepped, and files are read when it
asks for them.
-/

namespace SmallScheme.Program

/-- The bytes of a text. -/
def bytes (t : Text) : ByteArray := ⟨t.toArray⟩

/-- Writes a text to the standard output. -/
def putOut (t : Text) : IO Unit := do
  let stream ← IO.getStdout
  stream.write (bytes t)
  stream.flush

/-- Writes a text to the error stream. -/
def putErr (t : Text) : IO Unit := do
  let stream ← IO.getStderr
  stream.write (bytes t)
  stream.flush

/-- Why reading a path failed. -/
def faultOf (path : Text) : IO.Error → FileFault
  | .noFileOrDirectory .. => PathFault.missing.toFileFault path
  | .inappropriateType _ code _ =>
    (if code = 21 then PathFault.isDirectory else PathFault.notDirectory).toFileFault path
  | e => ⟨.ofString "open " ++ path ++ .ofString ": " ++ .ofString e.toString, false⟩

/-- Reads a file. -/
def readFile (path : Text) : IO (Except FileFault Text) := do
  if path.contains 0 then return .error (PathFault.malformed.toFileFault path)
  match path.toString? with
  | none => return .error (PathFault.missing.toFileFault path)
  | some name =>
    try
      let contents ← IO.FS.readBinFile name
      return .ok contents.toList
    catch e => return .error (faultOf path e)

/-- Steps the machine to a result. -/
partial def drive (s : State) : IO Outcome := do
  match s with
  | ⟨.result r, [], w⟩ => return (r, w)
  | ⟨.fetch frame file use, tasks, w⟩ =>
    let contents ← readFile file
    drive (State.step (fun _ => contents) ⟨.fetch frame file use, tasks, w⟩)
  | s => drive (s.step fun path => .error (PathFault.missing.toFileFault path))

/-- Evaluates top-level forms, up to the first that fails; gives whether all succeeded. -/
def evalEach (print debug : Bool) (frame : Nat) : World → List Value → IO (Bool × World)
  | w, [] => return (true, w)
  | w, form :: forms => do
    match ← drive ⟨.eval frame form, [], { w with trace := none }⟩ with
    | (.ok v, w) =>
      if print then putOut (v.render ++ CommandLine.newline)
      evalEach print debug frame w forms
    | (.error e, w) =>
      putErr (World.Batch.report debug e w)
      return (false, w)

/-- An interactive session on an input, of which `pending` was read already. -/
partial def interact (input : IO.FS.Stream) (s : Session) (pending : List Char) : IO Unit := do
  if pending.isEmpty then
    let more ← input.getLine
    unless more.isEmpty do interact input s more.toList
  else
    match s.nextLine? pending with
    | none => return
    | some (line, rest) =>
      match s.intake (Text.ofChars line) with
      | .quit => return
      | .hold s => interact input s rest
      | .refuse e s =>
        putErr (e.message ++ CommandLine.newline)
        interact input s rest
      | .forms forms s =>
        let (_, w) ← evalEach true s.debug s.frame s.world forms
        interact input { s with world := w } rest

/-- The run command. -/
def run (o : Options) : World → List Text → IO UInt32
  | _, [] => return 0
  | w, source :: sources => do
    let contents ← if o.expression then pure (.ok []) else readFile source
    match CommandLine.readArgument (fun _ => contents) o w source with
    | (.error e, _) =>
      putErr (e.message ++ CommandLine.newline)
      return 1
    | (.ok forms, w) =>
      match ← evalEach o.print o.debug World.root w forms with
      | (true, w) => run o w sources
      | (false, _) => return 1

end SmallScheme.Program

section

open SmallScheme

/-- The program. -/
def main (args : List String) : IO UInt32 := do
  match CommandLine.request (args.map Text.ofString) with
  | .error e =>
    Program.putErr (.ofString "Error: " ++ e.message ++ CommandLine.newline)
    return 1
  | .ok (.help command) =>
    Program.putOut command.help
    return 0
  | .ok (.session o) =>
    Program.interact (← IO.getStdin) (.new (CommandLine.world o) o.debug) []
    return 0
  | .ok (.file o file) =>
    match ← Program.drive ⟨.fetch World.root file .load, [], CommandLine.world o⟩ with
    | (.ok v, _) => Program.putErr (v.render ++ CommandLine.newline)
    | (.error e, w) => Program.putErr (World.Batch.report o.debug e w)
    return 0
  | .ok (.run o sources) => Program.run o (CommandLine.world o) sources

end
