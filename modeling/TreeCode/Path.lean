/-
# Paths

A path names a file by the directories on the way to it. The shortest form of a path
has no empty parts, no part for the directory itself, and goes up only at its start.
-/

namespace TreeCode.Path

/-- The parts of a path after some parts in reverse, in shortest form. -/
def shorten (rooted : Bool) (above : List String) : List String → List String
  | [] => above.reverse
  | part :: rest =>
    if part == "" || part == "." then shorten rooted above rest
    else if part == ".." then
      match above with
      | [] => if rooted then shorten rooted [] rest else shorten rooted [".."] rest
      | last :: more =>
        if last == ".." then shorten rooted (".." :: above) rest
        else shorten rooted more rest
    else shorten rooted (part :: above) rest

/-- The shortest form of a path. -/
def clean (path : String) : String :=
  let rooted := path.toList.head? == some '/'
  let short := "/".intercalate (shorten rooted [] (path.splitOn "/"))
  if rooted then "/" ++ short
  else if short.isEmpty then "." else short

/-- The path of a file in a directory. -/
def join (directory file : String) : String :=
  if directory.isEmpty then clean file else clean (directory ++ "/" ++ file)

end TreeCode.Path
