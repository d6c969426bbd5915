/-
# Golden results

The golden file of a sample records the result of an earlier run: what it returned
or how it failed, what it printed, the digest of its memory, and the hash of the code
that was run. A sample is tested by running its tree code and its linear code. Both
must agree with each other and with the golden result; a change of the code alone is
remarked on but no failure. A sample without a golden file gets one.
-/

import TreeCode.Compilation
import TreeCode.Files
import TreeCode.Json
import TreeCode.Machine.Run
import TreeCode.Program.Listing
import TreeCode.Sample

namespace TreeCode

/-- What can be seen of a run. -/
structure Execution where
  value : Word
  /-- The fault that ended the run, or nothing. -/
  fault : String
  output : String
  /-- The digest of the memory, or nothing if there was none. -/
  digest : String
deriving DecidableEq, Repr

/-- A golden result. -/
structure Golden where
  sample : String
  code : String
  execution : Execution
deriving DecidableEq, Repr

/-- A number of 64 bits as lower-case hexadecimal digits. -/
def hashText (h : UInt64) : String :=
  String.ofList (Nat.toDigits 16 h.toNat)

namespace Execution

/-- No run at all. -/
def empty : Execution :=
  ⟨0, "", "", ""⟩

/-- The fault of a run. -/
def faultText : RunError → String
  | .stopped (.fault f) => f.kind.name
  | .stopped (.defect d) => d.message?.getD ""
  | .stopped .outOfFuel => ""
  | .alreadyRun => RunError.alreadyRunMessage

/-- Run a program. -/
def ofRun (fuel : Nat) (options : Options) (p : Program) (arg : Word) : Execution :=
  match Machine.new p options with
  | .error e => { empty with fault := e.message?.getD "" }
  | .ok machine =>
    let (value, machine) := machine.run fuel entryName arg
    let output := String.ofList (Text.decode machine.state.output.toList)
    let digest := hashText machine.digest
    match value with
    | .ok w => ⟨w, "", output, digest⟩
    | .error e => ⟨0, faultText e, output, digest⟩

/-- An execution as it is recorded. Nothing is recorded of what did not happen. -/
def toJson (e : Execution) : Json.Value :=
  .object ([("return", .number e.value.text)] ++
    (if e.fault.isEmpty then [] else [("fault", .text e.fault)]) ++
    (if e.output.isEmpty then [] else [("output", .text e.output)]) ++
    [("digest", .text e.digest)])

end Execution

namespace Golden

/-- A character with its case left out of account. -/
def foldChar (c : Char) : Char :=
  if c.toNat == 0x17F then 'S'
  else if c.toNat == 0x212A then 'K'
  else c.toUpper

/-- Whether a name is that of a member, whatever its case. -/
def isMember (member name : String) : Bool :=
  name.toList.map foldChar == member.toList.map foldChar

/-- The text that a member is set to. Null leaves it as it is. -/
def textFrom? (old : String) : Json.Value → Option String
  | .text s => some s
  | .null => some old
  | _ => none

/-- The word that a member is set to. Null leaves it as it is. -/
def wordFrom? (old : Word) : Json.Value → Option Word
  | .number numeral => (Text.readDecimal numeral).toOption
  | .null => some old
  | _ => none

/-- Follow the members of a recorded execution. Later ones go before earlier ones,
and unknown ones are left alone. -/
def executionFrom? (e : Execution) : List (String × Json.Value) → Option Execution
  | [] => some e
  | (name, v) :: rest => do
    let e ←
      if isMember "return" name then
        (wordFrom? e.value v).map fun w => { e with value := w }
      else if isMember "fault" name then
        (textFrom? e.fault v).map fun s => { e with fault := s }
      else if isMember "output" name then
        (textFrom? e.output v).map fun s => { e with output := s }
      else if isMember "digest" name then
        (textFrom? e.digest v).map fun s => { e with digest := s }
      else some e
    executionFrom? e rest

/-- Follow the members of a golden file. -/
def membersFrom? (g : Golden) : List (String × Json.Value) → Option Golden
  | [] => some g
  | (name, v) :: rest => do
    let g ←
      if isMember "sample" name then
        (textFrom? g.sample v).map fun s => { g with sample := s }
      else if isMember "code_hash" name then
        (textFrom? g.code v).map fun s => { g with code := s }
      else if isMember "result" name then
        match v with
        | .object members =>
          (executionFrom? g.execution members).map fun e => { g with execution := e }
        | .null => some g
        | _ => none
      else some g
    membersFrom? g rest

/-- The golden result of a file. -/
def read? (bytes : List UInt8) : Option Golden := do
  match ← Json.read? bytes with
  | .object members => membersFrom? ⟨"", "", .empty⟩ members
  | .null => some ⟨"", "", .empty⟩
  | _ => none

/-- The text of a golden file. -/
def render (g : Golden) : String :=
  (Json.Value.object [("sample", .text g.sample), ("code_hash", .text g.code),
    ("result", g.execution.toJson)]).render ++ "\n"

end Golden

/-- How a test ended. -/
inductive TestStatus where
  | pass
  | fail
  | new
  | error
deriving DecidableEq, Repr

namespace TestStatus

/-- The name of a status. -/
def name : TestStatus → String
  | pass => "PASS"
  | fail => "FAIL"
  | new => "NEW"
  | error => "ERROR"

/-- Whether a test with this status counts against the command. -/
def isBad (s : TestStatus) : Bool :=
  s == fail || s == error

end TestStatus

/-- What is remarked on a test. -/
inductive TestRemark where
  | nothing
  /-- The two forms of the code do not agree. -/
  | formsDiffer
  /-- The run does not agree with the golden result. -/
  | goldenDiffers (golden : Execution)
  | codeChanged
  | corruptFile (path : String)
  | uncompilable (error : CompileError)
  /-- The golden file cannot be read or written. -/
  | inaccessible (error : FileError)

/-- The wording of a remark. -/
def TestRemark.message : TestRemark → String
  | nothing => ""
  | formsDiffer => "tree and linear execution differ"
  | goldenDiffers _ => "result differs from golden file"
  | codeChanged => "generated code changed, results unchanged"
  | corruptFile path => s!"corrupt golden file {path}: not a golden result"
  | uncompilable e => e.message
  | inaccessible e => e.message

/-- The result of a test. -/
structure TestResult where
  sample : String
  status : TestStatus
  remark : TestRemark
  code : String
  linear : Execution
  tree : Execution

namespace TestResult

/-- The two executions that differ, if there are any. -/
def difference? (r : TestResult) : Option (Execution × Execution) :=
  match r.remark with
  | .formsDiffer => some (r.tree, r.linear)
  | .goldenDiffers golden => some (golden, r.linear)
  | _ => none

/-- A difference member by member: what was there with a minus, what is there with a
plus. -/
def differenceText (want got : Execution) : String :=
  let member (name : String) (x y : String) : String :=
    if x == y then s!"  {name}: {x}\n" else s!"- {name}: {x}\n+ {name}: {y}\n"
  member "Return" want.value.text got.value.text ++
    member "Fault" (Text.quoted want.fault) (Text.quoted got.fault) ++
    member "Output" (Text.quoted want.output) (Text.quoted got.output) ++
    member "Digest" (Text.quoted want.digest) (Text.quoted got.digest)

/-- A result as it is recorded, with the time that the test took in nanoseconds. -/
def toJson (r : TestResult) (nanoseconds : Nat) : Json.Value :=
  .object ([("sample", .text r.sample), ("status", .text r.status.name)] ++
    (if r.remark.message.isEmpty then [] else [("message", .text r.remark.message)]) ++
    (match r.difference? with
      | some (want, got) => [("diff", .text (differenceText want got))]
      | none => []) ++
    [("code_hash", .text r.code), ("linear", r.linear.toJson), ("tree", r.tree.toJson),
      ("duration", .number (toString nanoseconds))])

end TestResult

/-- A test, and the golden file that is to be written after it. -/
structure Tested where
  result : TestResult
  golden : Option Golden

/-- The result of a test, given how the writing of its golden file went. -/
def Tested.resultAfter (t : Tested) (written : Except FileError Unit) : TestResult :=
  match written with
  | .ok _ => t.result
  | .error e => { t.result with status := .error, remark := .inaccessible e }

/-- Test a sample against its golden file, if there is one. The file is written anew
on demand. -/
def Sample.test (fuel : Nat) (options : Options) (renew : Bool) (path : String) (s : Sample)
    (file : Except FileError (List UInt8)) : Tested :=
  match s.program.compile with
  | .error e => ⟨⟨s.name, .error, .uncompilable e, "", .empty, .empty⟩, none⟩
  | .ok c =>
    let code := hashText (Digest.ofBytes (Text.encode c.linear.listing).toArray)
    let tree := Execution.ofRun fuel options c.tree s.arg
    let linear := Execution.ofRun fuel options c.linear s.arg
    let ended (status : TestStatus) (remark : TestRemark) (golden : Option Golden) : Tested :=
      ⟨⟨s.name, status, remark, code, linear, tree⟩, golden⟩
    let current : Golden := ⟨s.name, code, linear⟩
    if tree ≠ linear then ended .fail .formsDiffer none
    else if renew then ended .pass .nothing (some current)
    else
      match file with
      | .error e =>
        if e.fault = .missing then ended .new .nothing (some current)
        else ended .error (.inaccessible e) none
      | .ok bytes =>
        match Golden.read? bytes with
        | none => ended .error (.corruptFile path) none
        | some golden =>
          if golden.execution ≠ linear then
            ended .fail (.goldenDiffers golden.execution) none
          else if golden.code ≠ code then ended .pass .codeChanged none
          else ended .pass .nothing none

end TreeCode
