import SmallScheme.CommandLine.Flag

/-!
# Help texts

What the program prints when it is asked for help.
-/

namespace SmallScheme

set_option autoImplicit false

/-- The line of a help text on the limit for the call stack. -/
def limitHelp : List String :=
  [ "      --max-stack int   Maximum nesting of procedure calls "
      ++ "(less than one for no limit) (default 10000)" ]

/-- The lines of a command's help text. -/
def Command.helpLines : Command → List String
  | .root =>
    [ "Schemer evaluates a small dialect of scheme.",
      "",
      "Without arguments schemer starts an interactive session.  Given a file, schemer",
      "loads it and prints the value of its last expression.",
      "",
      "Usage:",
      "  schemer [FILE] [flags]",
      "  schemer [command]",
      "",
      "Available Commands:",
      "  completion  Generate the autocompletion script for the specified shell",
      "  help        Help about any command",
      "  run         Run lisp code",
      "",
      "Flags:",
      "      --debug           Print the call stack of failed evaluations to stderr",
      "  -h, --help            help for schemer" ]
    ++ limitHelp ++
    [ "",
      "Use \"schemer [command] --help\" for more information about a command." ]
  | .run =>
    [ "Run lisp code provided supplied via the command line or a file.",
      "",
      "Usage:",
      "  schemer run [flags]",
      "",
      "Flags:",
      "  -e, --expression   Interpret arguments as lisp expressions",
      "  -h, --help         help for run",
      "  -p, --print        Print expression values to stdout",
      "",
      "Global Flags:",
      "      --debug           Print the call stack of failed evaluations to stderr" ]
    ++ limitHelp

/-- The help text of a command. -/
def Command.help (c : Command) : Text :=
  c.helpLines.flatMap fun line => Text.ofString line ++ Text.ofString "\n"

end SmallScheme
