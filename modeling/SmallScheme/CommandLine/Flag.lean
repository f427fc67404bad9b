import SmallScheme.CommandLine.Numeral
import SmallScheme.Text.Quoted

/-!
# Flags

The flags of the command line, the options that they set, and what can be wrong with them. A switch
may stand without a value; the other flags take one. Only switches have a shorthand.
-/

namespace SmallScheme

set_option autoImplicit false

/-- The commands of the program. -/
inductive Command where
  | root
  | run
  deriving DecidableEq, Repr

/-- The flags of all commands. -/
inductive Flag where
  | maxStack | debug | help | expression | print
  deriving DecidableEq, Repr

namespace Flag

/-- The name of a flag. -/
def name : Flag → Text
  | .maxStack => .ofString "max-stack"
  | .debug => .ofString "debug"
  | .help => .ofString "help"
  | .expression => .ofString "expression"
  | .print => .ofString "print"

/-- The letter that stands for a flag. -/
def shorthand? : Flag → Option UInt8
  | .help => some 104
  | .expression => some 101
  | .print => some 112
  | .maxStack | .debug => none

/-- Whether a flag may stand without a value. -/
def isSwitch : Flag → Bool
  | .maxStack => false
  | _ => true

/-- A flag as messages show it. -/
def shown (f : Flag) : Text :=
  match f.shorthand? with
  | some b => .ofString "-" ++ [b] ++ .ofString ", --" ++ f.name
  | none => .ofString "--" ++ f.name

/-- The flags that are known before a command is chosen. -/
def global : List Flag := [.maxStack, .debug]

/-- The flag with a given name. -/
def ofName? (flags : List Flag) (name : Text) : Option Flag := flags.find? (·.name == name)

/-- The flag with a given letter. -/
def ofShorthand? (flags : List Flag) (b : UInt8) : Option Flag :=
  flags.find? (·.shorthand? == some b)

end Flag

/-- The flags that a command takes. -/
def Command.flags : Command → List Flag
  | .root => Flag.global ++ [.help]
  | .run => Flag.global ++ [.help, .expression, .print]

/-- What the flags of an invocation say. -/
structure Options where
  maxStack : Int64 := 10000
  debug : Bool := false
  help : Bool := false
  expression : Bool := false
  print : Bool := false
  deriving DecidableEq, Repr

/-- What can be wrong with the arguments of an invocation. -/
inductive UsageError where
  | badSyntax (arg : Text)
  | unknownFlag (name : Text)
  | unknownShorthand (b : UInt8) (cluster : Text)
  | missingValue (arg : Text)
  | badInteger (flag : Flag) (value : Text) (fault : NumeralFault)
  | badTruth (flag : Flag) (value : Text)
  | tooManyArguments
  deriving DecidableEq, Repr

namespace UsageError

/-- The wording of a value that a flag does not take. -/
def badValue (flag : Flag) (value : Text) (reader : String) (reason : Text) : Text :=
  .ofString "invalid argument " ++ Quoted.text value ++ .ofString " for "
    ++ Quoted.text flag.shown ++ .ofString " flag: strconv." ++ .ofString reader
    ++ .ofString ": parsing " ++ Quoted.text value ++ .ofString ": " ++ reason

/-- The wording of a usage error. -/
def message : UsageError → Text
  | .badSyntax arg => .ofString "bad flag syntax: " ++ arg
  | .unknownFlag name => .ofString "unknown flag: --" ++ name
  | .unknownShorthand b cluster =>
    .ofString "unknown shorthand flag: " ++ Quoted.byte b ++ .ofString " in -" ++ cluster
  | .missingValue arg => .ofString "flag needs an argument: " ++ arg
  | .badInteger flag value fault => badValue flag value "ParseInt" fault.message
  | .badTruth flag value =>
    badValue flag value "ParseBool" NumeralFault.malformed.message
  | .tooManyArguments => .ofString "Program takes only 0 or 1 arguments"

end UsageError

/-- The truth value that a text spells. -/
def truth? (t : Text) : Option Bool :=
  if ["1", "t", "T", "TRUE", "true", "True"].any (Text.ofString · == t) then some true
  else if ["0", "f", "F", "FALSE", "false", "False"].any (Text.ofString · == t) then some false
  else none

namespace Options

/-- Sets a switch. -/
def switch (o : Options) (flag : Flag) (on : Bool) : Options :=
  match flag with
  | .debug => { o with debug := on }
  | .help => { o with help := on }
  | .expression => { o with expression := on }
  | .print => { o with print := on }
  | .maxStack => o

/-- Sets a flag to the value that a text spells. -/
def set (o : Options) (flag : Flag) (value : Text) : Except UsageError Options :=
  if flag.isSwitch then
    match truth? value with
    | some on => .ok (o.switch flag on)
    | none => .error (.badTruth flag value)
  else
    match Numeral.int64 value with
    | .ok n => .ok { o with maxStack := n }
    | .error fault => .error (.badInteger flag value fault)

end Options

end SmallScheme
