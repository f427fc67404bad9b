import SmallScheme.Environment.Frame
import SmallScheme.Error

/-!
# The store of frames

All frames of a run live in one store and are known by their numbers. A name is looked up along the
path from a frame outward; the nearest frame that binds it decides. Frames extend frames that were
made before them, so every path ends.
-/

namespace SmallScheme

set_option autoImplicit false

/-- The frames made so far, and the next identity for a procedure. -/
structure Store where
  frames : Array Frame
  nextId : Nat

namespace Store

/-- The store without frames. -/
def empty : Store := ⟨#[], 0⟩

/-- The numbers of the frames from a given frame outward. A frame that claims to extend a later
frame ends the path. -/
def path (s : Store) (i : Nat) : List Nat :=
  match s.frames[i]? with
  | none => []
  | some f =>
    match f.parent with
    | none => [i]
    | some p => if p < i then i :: s.path p else [i]
termination_by i

/-- Whether a frame itself binds a name. -/
def binds (s : Store) (i : Nat) (name : Text) : Bool := s.frames[i]?.any (·.binds name)

/-- The nearest frame outward that binds a name. -/
def owner? (s : Store) (i : Nat) (name : Text) : Option Nat := (s.path i).find? (s.binds · name)

/-- The value of a name as seen from a frame. -/
def find? (s : Store) (i : Nat) (name : Text) : Option Value :=
  (s.owner? i name).bind fun j => s.frames[j]?.bind (·.find? name)

/-- The value of a variable as seen from a frame. -/
def get (s : Store) (i : Nat) (name : Text) : Except Error Value :=
  match s.find? i name with
  | some v => .ok v
  | none => .error (.unbound Error.getting name)

/-- Binds a name in a frame. -/
def define (s : Store) (i : Nat) (name : Text) (v : Value) : Store :=
  { s with frames := s.frames.modify i (·.define name v) }

/-- Replaces the value of a name in a frame that binds it. -/
def assign (s : Store) (i : Nat) (name : Text) (v : Value) : Store :=
  { s with frames := s.frames.modify i (·.assign name v) }

/-- Changes the value of a variable where it is bound; it never makes a binding. -/
def set (s : Store) (i : Nat) (name : Text) (v : Value) : Except Error Store :=
  match s.owner? i name with
  | some j => .ok (s.assign j name v)
  | none => .error (.unbound Error.setting name)

/-- Adds a frame and gives its number. -/
def allocate (s : Store) (f : Frame) : Nat × Store :=
  (s.frames.size, { s with frames := s.frames.push f })

/-- A closure with an identity of its own. -/
def makeClosure (s : Store) (formals : Formals) (body : Value) (frame : Nat) : Value × Store :=
  (.closure s.nextId formals body frame, { s with nextId := s.nextId + 1 })

/-- A primitive procedure with an identity of its own. -/
def makePrimitive (s : Store) (op : Primitive) : Value × Store :=
  (.primitive s.nextId op, { s with nextId := s.nextId + 1 })

/-- Binds primitive procedures to their names in a frame. It stops at a name that the frame binds
already; what was bound before stays bound. -/
def addPrimitives (s : Store) (i : Nat) : List Primitive → Store × Option Misuse
  | [] => (s, none)
  | op :: ops =>
    if s.binds i op.name then (s, some (.alreadyBound op.name))
    else
      let (v, s) := s.makePrimitive op
      (s.define i op.name v).addPrimitives i ops

/-- The names that a frame itself lists. -/
def names (s : Store) (i : Nat) : List Text := (s.frames[i]?.map Frame.names).getD []

/-- The names listed on the path from a frame outward, inner frames first, each name once. -/
def visibleNames (s : Store) (i : Nat) : List Text := ((s.path i).flatMap s.names).eraseDups

end Store

end SmallScheme
