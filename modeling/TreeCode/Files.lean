/-
# Files

A tree of directories and files with a working directory in it. A path is followed
part by part, from the root if it starts with a slash and else from the working
directory. Every part but the last has to lead to a directory, and so has the last
one if a slash follows it.

What may go wrong is told by its cause, together with the action that was tried and
the path as it was given.
-/

namespace TreeCode

/-- Why a path leads nowhere. -/
inductive PathFault where
  | missing
  | notDirectory
  | isDirectory
  | alreadyThere
  | nameTooLong
  /-- The path holds a character that no path may hold. -/
  | illegal
  /-- A cause that only the system knows. -/
  | other (reason : String)
deriving DecidableEq, Repr

/-- The wording of a cause. -/
def PathFault.reason : PathFault → String
  | missing => "no such file or directory"
  | notDirectory => "not a directory"
  | isDirectory => "is a directory"
  | alreadyThere => "file exists"
  | nameTooLong => "file name too long"
  | illegal => "invalid argument"
  | other reason => reason

/-- What is tried on a file. -/
inductive FileAction where
  | access
  | read
  | makeDirectory
deriving DecidableEq, Repr

/-- The name of an action. -/
def FileAction.name : FileAction → String
  | access => "open"
  | read => "read"
  | makeDirectory => "mkdir"

/-- An action that failed. -/
structure FileError where
  action : FileAction
  path : String
  fault : PathFault
deriving DecidableEq, Repr

/-- The wording of a failure. -/
def FileError.message (e : FileError) : String :=
  s!"{e.action.name} {e.path}: {e.fault.reason}"

/-- What stands at a place of a tree. -/
inductive FileEntry where
  | directory
  | file (contents : List UInt8)
deriving DecidableEq, Repr

/-- A tree of files. A place is given by the names on the way from the root. -/
structure FileTree where
  /-- The place of the working directory. -/
  home : List String
  entries : List (List String × FileEntry)

namespace FileTree

/-- The size in bytes that a name may have. -/
def longestName : Nat :=
  255

/-- The size in bytes that a path may have. -/
def longestPath : Nat :=
  4095

/-- What stands at a place. The root is always there. -/
def get? (t : FileTree) (place : List String) : Option FileEntry :=
  if place.isEmpty then some .directory else t.entries.lookup place

/-- Take away what stands at a place. -/
def erase (t : FileTree) (place : List String) : FileTree :=
  { t with entries := t.entries.filter fun (p, _) => p != place }

/-- Put something at a place, instead of what stands there. -/
def put (t : FileTree) (place : List String) (e : FileEntry) : FileTree :=
  { t with entries := (t.erase place).entries ++ [(place, e)] }

/-- The files of a directory with their names. -/
def filesIn (t : FileTree) (place : List String) : List (String × List UInt8) :=
  t.entries.filterMap fun (p, e) =>
    match e, p.getLast? with
    | .file contents, some name => if p.dropLast == place then some (name, contents) else none
    | _, _ => none

/-- Go from a place, which has to be a directory, to a part of it. -/
def step (t : FileTree) (place : List String) (part : String) :
    Except PathFault (List String) :=
  match t.get? place with
  | none => .error .missing
  | some (.file _) => .error .notDirectory
  | some .directory =>
    if part == "" || part == "." then .ok place
    else if part == ".." then .ok place.dropLast
    else if longestName < part.utf8ByteSize then .error .nameTooLong
    else .ok (place ++ [part])

/-- Refuse a path that cannot be one. -/
def checkPath (path : String) : Except PathFault Unit :=
  if path.toList.contains '\x00' then .error .illegal
  else if path.isEmpty then .error .missing
  else if longestPath < path.utf8ByteSize then .error .nameTooLong
  else .ok ()

/-- Follow the first parts of a path. -/
def walk (t : FileTree) (path : String) (parts : List String) :
    Except PathFault (List String) :=
  parts.foldlM t.step (if path.toList.head? == some '/' then [] else t.home)

/-- What a path leads to. -/
def find (t : FileTree) (path : String) : Except PathFault FileEntry := do
  checkPath path
  match t.get? (← t.walk path (path.splitOn "/")) with
  | some e => return e
  | none => throw .missing

/-- Whether a path leads to a directory. -/
def isDirectory (t : FileTree) (path : String) : Bool :=
  match t.find path with
  | .ok .directory => true
  | _ => false

/-- The directory that a path leads into, and the name at its end. There is none if
the path ends at a directory of its own way. -/
def approach (t : FileTree) (path : String) :
    Except PathFault (List String × Option String) := do
  checkPath path
  let parts := (path.splitOn "/").filter (· != "")
  let place ← t.walk path parts.dropLast
  let place ← t.step place "."
  match parts.getLast? with
  | none => return (place, none)
  | some name =>
    if name == "." || name == ".." then return (place, none)
    else return (place, some name)

/-- The contents of a file. -/
def read (t : FileTree) (path : String) : Except FileError (List UInt8) :=
  match t.find path with
  | .error fault => .error ⟨.access, path, fault⟩
  | .ok .directory => .error ⟨.read, path, .isDirectory⟩
  | .ok (.file contents) => .ok contents

/-- Where a file of a path is to be written. -/
def writePlace (t : FileTree) (path : String) : Except PathFault (List String) := do
  match ← t.approach path with
  | (_, none) => throw .isDirectory
  | (place, some name) =>
    if path.toList.getLast? == some '/' then throw .isDirectory
    else
      let place ← t.step place name
      match t.get? place with
      | some .directory => throw .isDirectory
      | _ => return place

/-- Write a file. -/
def write (t : FileTree) (path : String) (contents : List UInt8) : Except FileError FileTree :=
  match t.writePlace path with
  | .error fault => .error ⟨.access, path, fault⟩
  | .ok place => .ok (t.put place (.file contents))

/-- Make a directory in one that is there. -/
def makeDirectory (t : FileTree) (path : String) : Except PathFault FileTree := do
  match ← t.approach path with
  | (_, none) => throw .alreadyThere
  | (place, some name) =>
    let place ← t.step place name
    match t.get? place with
    | some _ => throw .alreadyThere
    | none => return t.put place .directory

/-- A path up to the slash before its last part. -/
def above (path : List Char) : List Char :=
  ((path.reverse.dropWhile (· == '/')).dropWhile (· != '/')).reverse

/-- Make a directory and all that are missing on the way to it. There are no more of
them than `fuel`. -/
def makeWay : Nat → FileTree → List Char → Except FileError FileTree
  | 0, t, _ => .ok t
  | fuel + 1, t, cs => do
    let path := String.ofList cs
    match t.find path with
    | .ok .directory => return t
    | .ok (.file _) => throw ⟨.makeDirectory, path, .notDirectory⟩
    | .error _ =>
      let t ← if (above cs).isEmpty then pure t else makeWay fuel t (above cs)
      match t.makeDirectory path with
      | .ok t => return t
      | .error fault =>
        if t.isDirectory path then return t
        else throw ⟨.makeDirectory, path, fault⟩

/-- Make a directory and all that are missing on the way to it. -/
def makeDirectories (t : FileTree) (path : String) : Except FileError FileTree :=
  makeWay (path.toList.length + 1) t path.toList

end FileTree

end TreeCode
