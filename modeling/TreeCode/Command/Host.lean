/-
# The host of a command

A command reads and writes files and looks at the clock. It does so through its host,
which may be the system that it runs on or a tree of files in memory.
-/

import TreeCode.Files

namespace TreeCode

/-- Where a command finds files and a clock. -/
class Host (m : Type → Type) where
  /-- The contents of a file. -/
  read : String → m (Except FileError (List UInt8))
  /-- Write a file. -/
  write : String → List UInt8 → m (Except FileError Unit)
  /-- Make a directory and all that are missing on the way to it. -/
  makeDirectories : String → m (Except FileError Unit)
  /-- The time in nanoseconds since some moment. -/
  now : m Nat

/-- Go on with a changed tree, or keep the tree and tell why it is not changed. -/
def FileTree.attempt (change : FileTree → Except FileError FileTree) :
    StateM FileTree (Except FileError Unit) := fun t =>
  match change t with
  | .ok t => (.ok (), t)
  | .error e => (.error e, t)

/-- A tree of files in memory, where time stands still. -/
instance : Host (StateM FileTree) where
  read path := fun t => (t.read path, t)
  write path contents := FileTree.attempt fun t => t.write path contents
  makeDirectories path := FileTree.attempt fun t => t.makeDirectories path
  now := pure 0

end TreeCode
