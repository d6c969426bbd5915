/-
# Plain text

Text for a terminal may hold tags such as `<red>` and colour codes, an escape with
numbers behind it. On a plain output both are taken out. Tags are taken out of a
text in which one is closed, and codes out of a text in which one is reset; any
other text is left as it is, for it may mean its angle brackets.
-/

namespace TreeCode.Text

/-- Whether a text occurs in another. -/
def occursIn (pattern : List Char) : List Char → Bool
  | [] => pattern.isEmpty
  | c :: cs => pattern.isPrefixOf (c :: cs) || occursIn pattern cs

/-- Leave out every piece that starts where `size` is not zero and is as long as
`size` says, the first `skip` characters as well. -/
def leaveOut (size : List Char → Nat) : Nat → List Char → List Char
  | _, [] => []
  | skip + 1, _ :: cs => leaveOut size skip cs
  | 0, c :: cs =>
    match size (c :: cs) with
    | 0 => c :: leaveOut size 0 cs
    | more + 1 => leaveOut size more cs

/-- Whether a character may stand in a tag. -/
def isTagChar (c : Char) : Bool :=
  c.isAlphanum || c == '_' || c == '=' || c == ',' || c == ';'

/-- The size of a tag at the start of a text, or zero. -/
def tagSize : List Char → Nat
  | '<' :: cs =>
    let (opening, cs) := match cs with
      | '/' :: cs => (2, cs)
      | cs => (1, cs)
    match cs.dropWhile isTagChar with
    | '>' :: _ => opening + (cs.takeWhile isTagChar).length + 1
    | _ => 0
  | _ => 0

/-- Whether a character may stand in a colour code. -/
def isCodeChar (c : Char) : Bool :=
  c.isDigit || c == ';' || c == '?'

/-- The size of a colour code at the start of a text, or zero. -/
def codeSize : List Char → Nat
  | '\x1b' :: '[' :: c :: cs =>
    if isCodeChar c then
      match cs.dropWhile isCodeChar with
      | 'm' :: _ => 3 + (cs.takeWhile isCodeChar).length + 1
      | _ => 0
    else 0
  | _ => 0

/-- A text without its tags. -/
def withoutTags (cs : List Char) : List Char :=
  if occursIn "</>".toList cs then leaveOut tagSize 0 cs else cs

/-- A text without its colour codes. -/
def withoutCodes (cs : List Char) : List Char :=
  if occursIn "[0m".toList cs then leaveOut codeSize 0 cs else cs

/-- A text as a plain output shows it. What is left of a line may hold a code again
once codes and tags are gone, so codes are taken out of every line once more. -/
def plain (s : String) : String :=
  let lines := (String.ofList (withoutTags (withoutCodes s.toList))).splitOn "\n"
  "\n".intercalate (lines.map fun line => String.ofList (withoutCodes line.toList))

end TreeCode.Text
