/-
# Listing of a program

A listing shows the place and size of every data chunk and the numbered
instructions of every function, in the order of the chunks. Labels stand out by a
smaller indentation.
-/

import TreeCode.IR.Text
import TreeCode.Program
import TreeCode.Text.Pad

namespace TreeCode.Program

open IR (Stmt Chunk)
open Text (padLeft padRight)

/-- The line of an instruction at a position. -/
def instructionLine (s : Stmt) (index : Nat) : String :=
  let gap := match s with
    | .label _ => " "
    | _ => "     "
  padLeft 4 (toString index) ++ gap ++ TextError.embed s.text

/-- The lines of a chunk. -/
def chunkLines (p : Program) : Chunk → List String
  | .data label size _ =>
    let offset := (p.address? label).getD 0
    [padRight 12 label.name ++ " @" ++ padRight 6 offset.text ++ s!" [{size.text}]"]
  | .code frame body =>
    s!"{frame.label.name}: (level={frame.level} size={frame.size.text})" ::
      body.flatten.mapIdx fun i s => instructionLine s i

/-- The listing of a program. -/
def listing (p : Program) : String :=
  String.join ((p.chunks.flatMap p.chunkLines).map (· ++ "\n"))

end TreeCode.Program
