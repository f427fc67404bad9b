import SmallScheme.Machine.World

/-!
# Directories of files

A directory is a list of files by their paths. A path is followed part by part; a dot stays where
it is and two dots go back, if need be to the directories around this one. Each way to fail has its
wording.
-/

namespace SmallScheme

set_option autoImplicit false

/-- Why a file cannot be read. -/
inductive PathFault where
  | missing
  | isDirectory
  | notDirectory
  | tooLong
  | malformed
  deriving DecidableEq, Repr

namespace PathFault

/-- A fault as it shows when a path is read. -/
def toFileFault (path : Text) : PathFault → FileFault
  | .missing => ⟨.ofString "open " ++ path ++ .ofString ": no such file or directory", true⟩
  | .isDirectory => ⟨.ofString "read " ++ path ++ .ofString ": is a directory", false⟩
  | .notDirectory => ⟨.ofString "open " ++ path ++ .ofString ": not a directory", false⟩
  | .tooLong => ⟨.ofString "open " ++ path ++ .ofString ": file name too long", false⟩
  | .malformed => ⟨.ofString "open " ++ path ++ .ofString ": invalid argument", false⟩

end PathFault

/-- The files of a directory and of the directories in it, by their paths. -/
structure Directory where
  files : List (List Text × Text)

namespace Directory

/-- The number of bytes that a path must stay below. -/
def pathLimit : Nat := 4096

/-- The greatest number of bytes in one part of a path. -/
def partLimit : Nat := 255

/-- Where a path leads. -/
inductive Place where
  /-- A place in the directory. -/
  | inside (parts : List Text)
  /-- A directory around it, of which nothing else is known. -/
  | around
  deriving DecidableEq, Repr

/-- The parts of a path. -/
def parts (path : Text) : List Text := path.splitOn 47

/-- Whether a part of a path stays where it is. -/
def stays (part : Text) : Bool := part.isEmpty || part = .ofString "."

/-- Whether a part of a path goes back. -/
def goesBack (part : Text) : Bool := part = .ofString ".."

/-- The directory with the files of given names. -/
def ofNames (files : List (Text × Text)) : Directory :=
  ⟨files.map fun f => ((parts f.1).filter (!stays ·), f.2)⟩

/-- Whether a place is a directory: some file lies below it, or it is the whole. -/
def isDirectory (d : Directory) (place : List Text) : Bool :=
  place.isEmpty || d.files.any fun f => place.isPrefixOf f.1 && place.length < f.1.length

/-- The file at a place. -/
def file? (d : Directory) (place : List Text) : Option Text := d.files.lookup place

/-- The place behind one. -/
def back : List Text → Place
  | [] => .around
  | part :: parts => .inside (part :: parts).dropLast

/-- One part of a path, from a place. -/
def enter (d : Directory) (part : Text) : Place → Except PathFault Place
  | .around =>
    if stays part || goesBack part then .ok .around
    else if partLimit < part.length then .error .tooLong
    else .error .missing
  | .inside place =>
    if d.isDirectory place then
      if stays part then .ok (.inside place)
      else if goesBack part then .ok (back place)
      else if partLimit < part.length then .error .tooLong
      else .ok (.inside (place ++ [part]))
    else if (d.file? place).isSome then .error .notDirectory
    else .error .missing

/-- What is read at a place. -/
def contents (d : Directory) : Place → Except PathFault Text
  | .around => .error .isDirectory
  | .inside place =>
    if d.isDirectory place then .error .isDirectory
    else
      match d.file? place with
      | some contents => .ok contents
      | none => .error .missing

/-- The contents of the file at a path. A path that starts with a slash starts around this
directory. -/
def read (d : Directory) (path : Text) : Except PathFault Text :=
  if path.contains 0 then .error .malformed
  else if path.isEmpty then .error .missing
  else if pathLimit ≤ path.length then .error .tooLong
  else do
    let start : Place := if path.head? = some 47 then .around else .inside []
    d.contents (← (parts path).foldlM (fun place part => d.enter part place) start)

/-- The files of a directory as a supply of source files. -/
def supply (d : Directory) : Files :=
  fun path => (d.read path).mapError (PathFault.toFileFault path)

end Directory

end SmallScheme
