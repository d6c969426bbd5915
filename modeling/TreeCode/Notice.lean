/-
# Notices

What a command says beside its results: errors, warnings and information, each a
line under the name of the command, and the announcement of a stage.
-/

import TreeCode.Text.Markup

namespace TreeCode.Notice

/-- The name under which notices are given. -/
def command : String :=
  "gprev"

/-- A notice of some kind. -/
def line (kind text : String) : String :=
  s!"{command}: {kind}: {text}\n"

/-- Something that ends the command. -/
def error (text : String) : String :=
  line "error" text

/-- Something that may be amiss. -/
def warning (text : String) : String :=
  line "warning" text

/-- Something worth knowing. -/
def info (text : String) : String :=
  line "info" text

/-- The announcement of a stage. -/
def stage (text : String) : String :=
  Text.plain text ++ "\n"

end TreeCode.Notice
