import SmallScheme.Error

/-!
# The stack of procedure calls

A stack of the calls in progress, the entry point first, with a limit on its height. A limit below
one is no limit.
-/

namespace SmallScheme

set_option autoImplicit false

/-- A call in progress: the name it was made by, empty if none, and the procedure. -/
structure CallFrame where
  name : Text
  procedure : Value

/-- The calls in progress. -/
structure CallStack where
  frames : Array CallFrame
  limit : Int

namespace CallStack

/-- The stack without calls. -/
def empty (limit : Int) : CallStack := ⟨#[], limit⟩

/-- The number of calls in progress. -/
def height (s : CallStack) : Nat := s.frames.size

/-- Whether the limit admits no further call. -/
def full (s : CallStack) : Bool := 0 < s.limit && s.limit ≤ s.height

/-- Adds a call, whatever the limit. -/
def add (s : CallStack) (name : Text) (procedure : Value) : CallStack :=
  { s with frames := s.frames.push ⟨name, procedure⟩ }

/-- The error of a call that the limit does not admit. -/
def overflow (s : CallStack) : Error := .stackOverflow s.limit

/-- Adds a call, unless the stack is at its limit. -/
def push (s : CallStack) (name : Text) (procedure : Value) : Except Error CallStack :=
  if s.full then .error s.overflow else .ok (s.add name procedure)

/-- The latest call. -/
def top? (s : CallStack) : Option CallFrame := s.frames.back?

/-- The stack without its latest call. -/
def pop (s : CallStack) : CallStack := { s with frames := s.frames.pop }

/-- Takes the latest call from the stack. -/
def pop? (s : CallStack) : Except Misuse (CallFrame × CallStack) :=
  match s.top? with
  | some f => .ok (f, s.pop)
  | none => .error .emptyStack

/-- A stack, if it is there. -/
def present (s : Option CallStack) : Except Misuse CallStack :=
  match s with
  | some s => .ok s
  | none => .error .absentStack

/-- The number of calls in progress, none on a stack that is not there. -/
def heightOf (s : Option CallStack) : Nat := (s.map height).getD 0

/-- The latest call, if there is a stack and a call on it. -/
def topOf? (s : Option CallStack) : Option CallFrame := s.bind top?

/-- One line of a stack trace. -/
def renderFrame (i : Nat) (f : CallFrame) : Text :=
  .ofString "  height " ++ Decimal.ofNat i ++ .ofString ": "
    ++ (if f.name.isEmpty then f.procedure.render else f.name) ++ .ofString "\n"

/-- The stack trace, the latest call first. -/
def render (s : CallStack) : Text :=
  .ofString "Stack Trace [" ++ Decimal.ofNat s.height ++ .ofString " frames -- entrypoint last]:\n"
    ++ (s.frames.toList.zipIdx.reverse.map fun x => renderFrame x.2 x.1).flatten

end CallStack

end SmallScheme
