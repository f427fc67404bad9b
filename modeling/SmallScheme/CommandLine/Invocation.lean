import SmallScheme.CommandLine.Flag

/-!
# From arguments to an invocation

Flags and other arguments may be mixed; two dashes end the flags. The first word that belongs to no
flag chooses the command. At that point only the global flags are known, and any other flag without
a value of its own is taken to use the argument behind it.
-/

namespace SmallScheme

set_option autoImplicit false

namespace CommandLine

/-- The argument that ends the flags. -/
def endOfFlags : Text := [45, 45]

/-- The sign between a flag and its value. -/
def equals : UInt8 := 61

/-- The value that a switch has when none is given. -/
def on : Text := .ofString "true"

/-- Whether an argument is taken to use the argument behind it, before a command is chosen. -/
def usesNext (arg : Text) : Bool :=
  let isSwitch (f : Option Flag) : Bool := f.any Flag.isSwitch
  match arg with
  | 45 :: 45 :: name =>
    !arg.contains equals && (!isSwitch (Flag.ofName? Flag.global name))
  | [45, b] => b != equals && !isSwitch (Flag.ofShorthand? Flag.global b)
  | _ => false

/-- Whether an argument begins with a dash. -/
def isDashed (arg : Text) : Bool := arg.head? == some 45

/-- The first word that belongs to no flag. -/
def firstWord? : List Text → Option Text
  | [] => none
  | arg :: args =>
    if arg = endOfFlags then none
    else if usesNext arg then
      match args with
      | _ :: next :: args => firstWord? (next :: args)
      | _ => none
    else if arg.isEmpty || isDashed arg then firstWord? args
    else some arg

/-- The arguments without the first that is a given word and belongs to no flag. -/
def without (word : Text) : List Text → List Text
  | [] => []
  | arg :: args =>
    if arg = endOfFlags then arg :: args
    else if usesNext arg then
      match args with
      | [] => [arg]
      | value :: args => arg :: value :: without word args
    else if arg = word then args
    else arg :: without word args

/-- The name of the command that runs code. -/
def runWord : Text := .ofString "run"

/-- The command that arguments choose, and the arguments left for it. -/
def choose (args : List Text) : Command × List Text :=
  if firstWord? args = some runWord then (.run, without runWord args) else (.root, args)

/-- The letters that begin a message to a test runner. -/
def testMark : Text := .ofString "test."

/-- Sets the switches of a cluster of letters, up to a message to a test runner. -/
def cluster (flags : List Flag) (o : Options) : Text → Except UsageError Options
  | [] => .ok o
  | b :: rest =>
    if testMark.isPrefixOf (b :: rest) then .ok o
    else
      match Flag.ofShorthand? flags b with
      | none => .error (.unknownShorthand b (b :: rest))
      | some flag =>
        match rest with
        | 61 :: c :: value => o.set flag (c :: value)
        | rest => do cluster flags (← o.set flag on) rest

/-- Sets flags, and collects the arguments that are none. -/
def flags (known : List Flag) (o : Options) : List Text → Except UsageError (Options × List Text)
  | [] => .ok (o, [])
  | arg :: args =>
    match arg with
    | [45, 45] => .ok (o, args)
    | 45 :: 45 :: name =>
      if name.head? = some 45 || name.head? = some equals then .error (.badSyntax arg)
      else
        match Flag.ofName? known (name.takeWhile (· != equals)) with
        | none => .error (.unknownFlag (name.takeWhile (· != equals)))
        | some flag =>
          if name.contains equals then do
            flags known (← o.set flag ((name.dropWhile (· != equals)).drop 1)) args
          else if flag.isSwitch then do
            flags known (← o.set flag on) args
          else
            match args with
            | [] => .error (.missingValue arg)
            | value :: args => do flags known (← o.set flag value) args
    | 45 :: b :: rest => do
      flags known (← cluster known o (b :: rest)) args
    | _ => do
      let (o, words) ← flags known o args
      return (o, arg :: words)

/-- What an invocation asks for. -/
inductive Request where
  | help (command : Command)
  /-- An interactive session. -/
  | session (o : Options)
  /-- The value of a file. -/
  | file (o : Options) (name : Text)
  /-- Code in files or in the arguments themselves. -/
  | run (o : Options) (sources : List Text)
  deriving DecidableEq, Repr

/-- What the arguments of an invocation ask for. -/
def request (args : List Text) : Except UsageError Request := do
  let (command, args) := choose args
  let (o, words) ← flags command.flags {} args
  if o.help then return .help command
  match command, words with
  | .run, words => return .run o words
  | .root, [] => return .session o
  | .root, [file] => return .file o file
  | .root, _ => throw .tooManyArguments

end CommandLine

end SmallScheme
