import SmallScheme.Value.Basic

/-!
# Frames of bindings

A frame binds names to values and extends at most one other frame. Beside its bindings it lists the
names that it binds, in the order in which they were first defined. The two are kept apart: a lookup
reads the bindings and a listing reads the list; a definition of a new name adds to both, and an
assignment changes the bindings alone.
-/

namespace SmallScheme

set_option autoImplicit false

/-- One frame of variable bindings. -/
structure Frame where
  /-- The number of the frame that this one extends. -/
  parent : Option Nat
  /-- The bindings. -/
  scope : List (Text × Value)
  /-- The names listed, in the order of first definition. -/
  names : List Text

namespace Frame

/-- Binds a name in a list of bindings. -/
def bindIn (name : Text) (v : Value) : List (Text × Value) → List (Text × Value)
  | [] => [(name, v)]
  | (n, w) :: more => if n = name then (n, v) :: more else (n, w) :: bindIn name v more

/-- The frame without bindings. -/
def empty (parent : Option Nat) : Frame := ⟨parent, [], []⟩

/-- The value that a frame itself binds to a name. -/
def find? (f : Frame) (name : Text) : Option Value := f.scope.lookup name

/-- Whether a frame itself binds a name. -/
def binds (f : Frame) (name : Text) : Bool := (f.find? name).isSome

/-- Binds a name to a value, whatever names are listed. -/
def assign (f : Frame) (name : Text) (v : Value) : Frame :=
  { f with scope := bindIn name v f.scope }

/-- Lists a name behind the others. -/
def list (f : Frame) (name : Text) : Frame := { f with names := f.names ++ [name] }

/-- Binds a name to a value, and lists the name if it was not bound. -/
def define (f : Frame) (name : Text) (v : Value) : Frame :=
  (if f.binds name then f else f.list name).assign name v

/-- The frame of a procedure call: each parameter bound to its argument, and the rest parameter to
the list of the arguments that remain. -/
def ofArguments (parent : Nat) (formals : Formals) (args : List Value) : Frame :=
  let fixed := (formals.params.zip args).foldl (fun f b => f.define b.1 b.2) (empty (some parent))
  match formals.rest with
  | none => fixed
  | some rest => fixed.define rest (.list (args.drop formals.params.length))

end Frame

end SmallScheme
