import SmallScheme.Environment.CallStack
import SmallScheme.Environment.Store
import SmallScheme.Reader.Faithful

/-!
# The state of a run

A world holds what evaluation can change: the frames, the calls in progress, the trace of the last
failure and the symbol table of the reader. Where no reader is configured there is no table. A table
is faithful, which every reading keeps it.
-/

namespace SmallScheme

set_option autoImplicit false

/-- What evaluation can change. -/
structure World where
  store : Store
  stack : CallStack
  /-- The calls in progress where the latest failure was raised. -/
  trace : Option CallStack
  /-- The symbol table of the reader, if a reader is configured. -/
  reader : Option SymbolTable
  faithful : SymbolTable.Faithful? reader

/-- A supply of source files. -/
abbrev Files := Text → Except FileFault Text

/-- The parts of a world that are supplied from outside. -/
inductive Supply where
  | reader
  | loader
  deriving DecidableEq, Repr

/-- The reason for which no world can be set up: a part was asked for and not supplied. -/
structure SetupError where
  missing : Supply
  deriving DecidableEq, Repr

/-- The wording of a setup error. -/
def SetupError.message (e : SetupError) : Text :=
  match e.missing with
  | .reader => .ofString "nil reader"
  | .loader => .ofString "nil source loader"

/-- What a new world starts with. -/
structure Setup where
  /-- Whether the root frame binds the primitive procedures. -/
  primitives : Bool := true
  /-- The limit on the height of the call stack. -/
  limit : Int := 0
  /-- Whether source text can be read. -/
  reader : Bool := true
  /-- A part that is asked for and not supplied. -/
  missing : Option Supply := none

namespace World

/-- The number of the root frame. -/
def root : Nat := 0

/-- A world with a root frame and nothing else. -/
def new (setup : Setup) : World :=
  let (i, store) := Store.empty.allocate (.empty none)
  { store := if setup.primitives then (store.addPrimitives i Primitive.all).1 else store
    stack := .empty setup.limit
    trace := none
    reader := if setup.reader then some .empty else none
    faithful := by
      split
      · exact SymbolTable.faithful?_empty
      · exact SymbolTable.faithful?_none }

/-- A new world, if every part asked for is supplied. -/
def new? (setup : Setup) : Except SetupError World :=
  match setup.missing with
  | some part => .error ⟨part⟩
  | none => .ok (new setup)

/-- Forgets the trace of an earlier failure where no call is in progress. -/
def forget (w : World) : World := if w.stack.height = 0 then { w with trace := none } else w

/-- Puts a call on the stack. -/
def pushCall (w : World) (name : Text) (procedure : Value) : World :=
  { w with stack := w.stack.add name procedure }

/-- Takes the latest call from the stack. -/
def popCall (w : World) : World := { w with stack := w.stack.pop }

/-- Notes the calls in progress as the trace of a failure that has none yet. -/
def note (w : World) : World :=
  match w.trace with
  | none => { w with trace := some w.stack }
  | some _ => w

/-- Reads a named text with the reader of a world, for the expressions and the world behind it. -/
def read (w : World) (name contents : Text) : Except Error (List Value) × World :=
  ((Reader.readNamed w.reader name contents).1,
    { w with
      reader := (Reader.readNamed w.reader name contents).2
      faithful := Reader.faithful_readNamed w.faithful name contents })

/-- The trace as it is printed. -/
def renderTrace (w : World) : Option Text := w.trace.map CallStack.render

end World

end SmallScheme
