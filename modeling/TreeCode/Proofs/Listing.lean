/-
# Printed code identifies code

Code that prints alike differs in the keys of labels only. So a listing determines the
functions with their instructions and the places of data, and a trace determines the
instructions that were executed. What is computed from such a text, as the digest of a listing
is, depends on nothing else.

Listings and traces are compared line by line. The columns of a line are words with blanks
between them. In a listing, what follows the first word tells what the line is: a colon heads a
function, an at sign stands before the address of data, and everything else is an instruction
behind its number.
-/

import TreeCode.Machine.Run
import TreeCode.Program.Listing
import TreeCode.Proofs.IR.Unambiguity

namespace TreeCode

/-- An expression or a statement. -/
inductive IR.Code where
  | expr (e : Expr)
  | stmt (s : Stmt)

namespace IR.Code

/-- The printed form of a piece of code. -/
def text : Code → Except TextError String
  | expr e => e.text
  | stmt s => s.text

/-- A piece of code with labels that are known by their names alone. -/
def unkeyed : Code → Code
  | expr e => expr e.unkeyed
  | stmt s => stmt s.unkeyed

/-- A piece of code that prints. -/
def Printable : Code → Prop
  | expr e => e.Printable
  | stmt s => s.Printable

theorem exists_text_eq {c : Code} (h : c.Printable) : ∃ s, c.text = .ok s := by
  cases c with
  | expr e => exact ⟨_, Expr.text_eq h⟩
  | stmt s => exact ⟨_, Stmt.text_eq h⟩

/-- Code that prints alike differs in the keys of labels only. -/
theorem unkeyed_eq_of_text_eq {c d : Code} (hc : c.Printable) (hd : d.Printable)
    (h : c.text = d.text) : c.unkeyed = d.unkeyed := by
  have hkind : ∀ {e : Expr} {s : Stmt}, s.Printable → e.printed ≠ s.printed := by
    intro e s hs
    refine (e.opens.cut (Stmt.opens hs) fun hk => ?_).of_eq
    cases e <;> cases s <;> cases hk
  cases c with
  | expr e =>
    cases d with
    | expr e' =>
      rw [text, text, Expr.text_eq hc, Expr.text_eq hd] at h
      exact congrArg expr ((Expr.cut hc hd).of_eq (Except.ok.inj h))
    | stmt s' =>
      rw [text, text, Expr.text_eq hc, Stmt.text_eq hd] at h
      exact absurd (Except.ok.inj h) (hkind hd)
  | stmt s =>
    cases d with
    | expr e' =>
      rw [text, text, Stmt.text_eq hc, Expr.text_eq hd] at h
      exact absurd (Except.ok.inj h).symm (hkind hc)
    | stmt s' =>
      rw [text, text, Stmt.text_eq hc, Stmt.text_eq hd] at h
      exact congrArg stmt ((Stmt.cut hc hd).of_eq (Except.ok.inj h))

theorem text_unkeyed (c : Code) : c.unkeyed.text = c.text := by
  cases c with
  | expr e => exact e.text_unkeyed
  | stmt s => exact s.text_unkeyed

/-- Code that prints prints alike exactly if it differs in the keys of labels only. -/
theorem text_eq_iff {c d : Code} (hc : c.Printable) (hd : d.Printable) :
    c.text = d.text ↔ c.unkeyed = d.unkeyed := by
  refine ⟨unkeyed_eq_of_text_eq hc hd, fun h => ?_⟩
  rw [← c.text_unkeyed, h, d.text_unkeyed]

end IR.Code

namespace Printed

open IR (Stmt)
open Text (padLeft padRight)

/-- A text that begins with something else than a blank. -/
abbrev Firm : String → Prop :=
  Begins (· != ' ')

variable {s t v w : String} {P Q : Prop}

theorem Named.firm (h : Named w) (s : String) : Firm (w ++ s) := by
  refine Begins.append ?_ s
  obtain ⟨hw, hne⟩ := h
  unfold Solid at hw
  unfold Begins
  cases hcs : w.toList with
  | nil => exact absurd (String.toList_eq_nil_iff.1 hcs) hne
  | cons c cs =>
    rw [hcs, List.all_cons, Bool.and_eq_true] at hw
    refine bne_iff_ne.2 fun hc => ?_
    rw [hc] at hw
    cases hw.1

theorem Opens.firm {k : Kind} (h : Opens k s) : Firm s := by
  obtain ⟨w, m, t, rfl, hw, hm, hk⟩ := h
  by_cases hne : w = ""
  · subst hne
    rw [String.empty_append]
    refine (begins_singleton (p := (· != ' ')) (bne_iff_ne.2 ?_)).append t
    rintro rfl
    cases hk
  · exact Named.firm ⟨hw, hne⟩ _

/-- The given number of blanks. -/
def gap (k : Nat) : String :=
  String.ofList (List.replicate k ' ')

theorem gap_append_blank (k : Nat) : gap k ++ " " = gap (k + 1) := by
  rw [gap, gap, List.replicate_succ', String.ofList_append]

theorem marked_gap (k : Nat) (s : String) : Marked (gap (k + 1) ++ s) := by
  refine Begins.append ?_ s
  rw [Begins, gap, String.toList_ofList]
  rfl

/-- What follows blanks is the same where texts agree. -/
theorem eq_of_gap {j k : Nat} (hs : Firm s) (ht : Firm t) (h : gap j ++ s = gap k ++ t) :
    s = t := by
  have hdrop : ∀ (k : Nat) {s : String}, Firm s →
      (gap k ++ s).toList.dropWhile (· == ' ') = s.toList := by
    intro k s hs
    have hall : ∀ c ∈ List.replicate k ' ', (c == ' ') = true := by
      intro c hc
      rw [List.eq_of_mem_replicate hc]
      rfl
    rw [gap, String.toList_append, String.toList_ofList, List.dropWhile_append_of_pos hall]
    unfold Firm Begins at hs
    cases hcs : s.toList with
    | nil => rfl
    | cons c cs =>
      rw [hcs] at hs
      exact List.dropWhile_cons_of_neg (by simpa using hs)
  apply String.toList_injective
  rw [← hdrop j hs, h, hdrop k ht]

/-- A word, blanks, and the next word. -/
theorem Cut.column {j k : Nat} (hv : Cut v w Q) (hs : Firm s) (ht : Firm t)
    (hj : Marked (gap j ++ s)) (hk : Marked (gap k ++ t)) (h : Cut s t P) :
    Cut (v ++ (gap j ++ s)) (w ++ (gap k ++ t)) (Q ∧ P) := by
  intro r r' hr hr' heq
  rw [String.append_assoc, @String.append_assoc w] at heq
  obtain ⟨hq, heq⟩ := hv (hj.delimited r) (hk.delimited r') heq
  rw [String.append_assoc, String.append_assoc] at heq
  obtain ⟨hp, heq⟩ := h hr hr' (eq_of_gap (hs.append r) (ht.append r') heq)
  exact ⟨⟨hq, hp⟩, heq⟩

/-- A word that fills a column. -/
theorem Cut.padded (width : Nat) (hv : Cut v w Q) (hs : Firm s) (ht : Firm t) (h : Cut s t P) :
    Cut (padRight width v ++ (" " ++ s)) (padRight width w ++ (" " ++ t)) (Q ∧ P) := by
  have hpad : ∀ v s : String,
      padRight width v ++ (" " ++ s) = v ++ (gap (width - v.length + 1) ++ s) := by
    intro v s
    rw [← gap_append_blank, String.append_assoc]
    exact String.append_assoc
  rw [hpad, hpad]
  exact hv.column hs ht (marked_gap _ _) (marked_gap _ _) h

/-- Texts that are made of lines determine what the lines tell. -/
theorem told_eq_of_join_eq {α β : Type} {Ok : α → Prop} {line text : α → String} {told : α → β}
    (hline : ∀ {a}, Ok a → line a = text a ++ "\n")
    (hcut : ∀ {a b}, Ok a → Ok b → Cut (text a) (text b) (told a = told b)) {as bs : List α}
    (ha : ∀ a ∈ as, Ok a) (hb : ∀ b ∈ bs, Ok b)
    (h : String.join (as.map line) = String.join (bs.map line)) : as.map told = bs.map told := by
  have hne : ∀ {a r}, Ok a → line a ++ r ≠ "" := by
    intro a r hok heq
    rw [hline hok] at heq
    have hlast := (String.append_eq_empty_iff.1 (String.append_eq_empty_iff.1 heq).1).2
    exact absurd hlast (by decide)
  induction as generalizing bs with
  | nil =>
    cases bs with
    | nil => rfl
    | cons b bs =>
      rw [List.map_cons, String.join_cons] at h
      exact absurd h.symm (hne (hb b List.mem_cons_self))
  | cons a as ih =>
    have hok := ha a List.mem_cons_self
    cases bs with
    | nil =>
      rw [List.map_cons, String.join_cons] at h
      exact absurd h (hne hok)
    | cons b bs =>
      have hok' := hb b List.mem_cons_self
      rw [List.map_cons, List.map_cons, String.join_cons, String.join_cons, hline hok,
        hline hok'] at h
      obtain ⟨htold, hrest⟩ := (hcut hok hok').ended (by decide) h
      rw [List.map_cons, List.map_cons, htold,
        ih (fun a h => ha a (.tail _ h)) (fun b h => hb b (.tail _ h)) hrest]

/-- A line of a listing. -/
inductive Line where
  | header (frame : Frame)
  | data (label : Label) (offset size : Word)
  | instruction (index : Nat) (s : Stmt)

namespace Line

/-- What a line tells: an instruction has labels that are known by their names alone. -/
inductive Told where
  | header (name : String) (level : Int) (size : Word)
  | data (name : String) (offset size : Word)
  | instruction (s : Stmt)

def told : Line → Told
  | header f => .header f.label.name f.level f.size
  | data l offset size => .data l.name offset size
  | instruction _ s => .instruction s.unkeyed

/-- A line that can be read. -/
def Printable : Line → Prop
  | header f => Named f.label.name
  | data l _ _ => Named l.name
  | instruction _ s => s.Printable

def text : Line → String
  | header f => s!"{f.label.name}: (level={f.level} size={f.size.text})"
  | data l offset size => padRight 12 l.name ++ " @" ++ padRight 6 offset.text ++ s!" [{size.text}]"
  | instruction index s => Program.instructionLine s index

/-- The first word of a line. -/
def word : Line → String
  | header f => f.label.name
  | data l _ _ => l.name
  | instruction index _ => toString index

/-- What follows the first word of a line, and blanks. -/
def rest : Line → String
  | header f => ":" ++ (" (level=" ++ (toString f.level ++ (" size=" ++ (f.size.text ++ ")"))))
  | data _ offset size =>
    "@" ++ (padRight 6 offset.text ++ (" " ++ ("[" ++ (size.text ++ "]"))))
  | instruction _ s => s.printed

def kind : Line → Kind
  | header _ => .header
  | data _ _ _ => .data
  | instruction _ s => s.kind

variable {l m : Line}

variable (h : l.Printable)
include h

theorem exists_text_eq :
    ∃ j k, l.text = gap j ++ (l.word ++ (gap k ++ l.rest)) ∧ Marked (gap k ++ l.rest) := by
  cases l with
  | header f =>
    refine ⟨0, 0, ?_, show Marked ("" ++ (":" ++ _)) from ?_⟩
    · change f.label.name ++ (":" ++ " (level=") ++ toString f.level ++ " size=" ++ f.size.text ++
        ")" = "" ++ (f.label.name ++ ("" ++ _))
      rw [String.empty_append, String.empty_append, rest]
      repeat rw [String.append_assoc]
    · rw [String.empty_append]
      exact Begins.append (by decide) _
  | data l offset size =>
    refine ⟨0, 12 - l.name.length + 1, ?_, marked_gap _ _⟩
    rw [rest, ← gap_append_blank]
    change l.name ++ gap (12 - l.name.length) ++ (" " ++ "@") ++ padRight 6 offset.text ++
      (" " ++ "[" ++ size.text ++ "]") = "" ++ (l.name ++ _)
    rw [String.empty_append]
    repeat rw [String.append_assoc]
  | instruction index s =>
    -- labels and other instructions differ in the number of blanks in front
    have hline : ∃ k, Program.instructionLine s index =
        padLeft 4 (toString index) ++ gap (k + 1) ++ TextError.embed s.text := by
      cases s with
      | label l => exact ⟨0, rfl⟩
      | _ => exact ⟨4, rfl⟩
    obtain ⟨k, hk⟩ := hline
    refine ⟨4 - (toString index).length, k + 1, ?_, marked_gap _ _⟩
    rw [text, hk, Stmt.text_eq h, padLeft]
    repeat rw [String.append_assoc]
    rfl

theorem named_word : Named l.word := by
  cases l with
  | instruction index s => exact ⟨solid_toString_nat index, by simp [word]⟩
  | _ => exact h

theorem opens_rest : Opens l.kind l.rest := by
  cases l with
  | header f => exact .intro (k := .header) "" ':' (by decide +kernel) _
  | data l offset size => exact .intro (k := .data) "" '@' (by decide +kernel) _
  | instruction index s => exact Stmt.opens h

/-- Behind the first word, lines that agree tell the same. -/
theorem cut_rest (h' : m.Printable) : Cut l.rest m.rest (l.word = m.word → l.told = m.told) := by
  refine (opens_rest h).cut (opens_rest h') fun hk => ?_
  cases l with
  | header f =>
    cases m with
    | header g =>
      have hsize := (Cut.number f.size g.size).closed (m := ")") (by decide)
      have hlevel := (Cut.int f.level g.level).before (m := " size=") (by decide) hsize
      refine ((hlevel.behind " (level=").behind ":").map fun h hname => ?_
      rw [told, told, show f.label.name = g.label.name from hname, h.1, h.2]
    | data _ _ _ => cases hk
    | instruction _ s => cases s <;> cases hk
  | data l offset size =>
    cases m with
    | data l' offset' size' =>
      have hsize := ((Cut.number size size').closed (m := "]") (by decide)).behind "["
      have hoffset := (Cut.number offset offset').padded 6 (Begins.append (by decide) _)
        (Begins.append (by decide) _) hsize
      refine (hoffset.behind "@").map fun h hname => ?_
      rw [told, told, show l.name = l'.name from hname, h.1, h.2]
    | header _ => cases hk
    | instruction _ s => cases s <;> cases hk
  | instruction index s =>
    cases m with
    | instruction _ i => exact (Stmt.cut h h').map fun h _ => congrArg Told.instruction h
    | _ => cases s <;> cases hk

theorem cut (h' : m.Printable) : Cut l.text m.text (l.told = m.told) := by
  obtain ⟨i, j, hl, hj⟩ := exists_text_eq h
  obtain ⟨i', k, hm, hk⟩ := exists_text_eq h'
  have hcolumns := (Cut.word (named_word h).1 (named_word h').1).column (opens_rest h).firm
    (opens_rest h').firm hj hk (cut_rest h h')
  intro r r' hr hr' heq
  rw [hl, hm, String.append_assoc, @String.append_assoc (gap i')] at heq
  obtain ⟨htold, hrest⟩ := hcolumns hr hr' (eq_of_gap (((named_word h).firm _).append r)
    (((named_word h').firm _).append r') heq)
  exact ⟨htold.2 htold.1, hrest⟩

end Line

end Printed

namespace Program

open IR (Chunk)
open Printed (Line)

/-- The lines of a chunk. -/
def linesOf (p : Program) : Chunk → List Line
  | .data label size _ => [.data label ((p.address? label).getD 0) size]
  | .code frame body => .header frame :: body.flatten.mapIdx .instruction

/-- The lines of the listing of a program. -/
def lines (p : Program) : List Line :=
  p.chunks.flatMap p.linesOf

theorem listing_eq (p : Program) : p.listing = String.join (p.lines.map (·.text ++ "\n")) := by
  have hchunk : p.chunkLines = fun c => (p.linesOf c).map Line.text := by
    funext c
    cases c with
    | data label size init => rfl
    | code frame body =>
      refine congrArg (List.cons _) (List.ext_getElem? fun i => ?_)
      rw [List.getElem?_map, List.getElem?_mapIdx, List.getElem?_mapIdx, Option.map_map]
      rfl
  rw [listing, hchunk, lines, ← List.map_flatMap, List.map_map]
  rfl

end Program

namespace Exec

open IR (Stmt)
open Printed
open Text (padRight)

/-- What a line of a trace tells: where the machine was, and what it executed. -/
def traced (x : State × Stmt) : String × Word × Word × Stmt :=
  (x.1.location.text, x.1.fp, x.1.sp, x.2.unkeyed)

/-- A state and an instruction of which the trace has a line that can be read. -/
def Traceable (x : State × Stmt) : Prop :=
  Solid x.1.location.function ∧ x.2.Printable

/-- The columns of a line of a trace. -/
def columns (x : State × Stmt) : String :=
  padRight 24 x.1.location.text ++ (" " ++ ("fp=" ++ (padRight 8 x.1.fp.text ++ (" " ++
    ("sp=" ++ (padRight 8 x.1.sp.text ++ (" " ++ x.2.printed)))))))

theorem traceLine_eq {x : State × Stmt} (h : Traceable x) :
    traceLine x.1 x.2 = columns x ++ "\n" := by
  rw [traceLine, Stmt.text_eq h.2]
  change padRight 24 x.1.location.text ++ (" " ++ "fp=") ++ padRight 8 x.1.fp.text ++
    (" " ++ "sp=") ++ padRight 8 x.1.sp.text ++ " " ++ x.2.printed ++ "\n" = _
  rw [columns]
  repeat rw [String.append_assoc]

/-- Lines of a trace that agree tell the same. -/
theorem cut_columns {x y : State × Stmt} (hx : Traceable x) (hy : Traceable y) :
    Cut (columns x) (columns y) (traced x = traced y) := by
  have hplace : ∀ {x}, Traceable x → Solid x.1.location.text := fun h =>
    (h.1.append (t := "+") (by decide)).append (solid_toString_nat _)
  have hsp := (Cut.number x.1.sp y.1.sp).padded 8 (Stmt.opens hx.2).firm (Stmt.opens hy.2).firm
    (Stmt.cut hx.2 hy.2)
  have hfp := (Cut.number x.1.fp y.1.fp).padded 8 (Begins.append (by decide) _)
    (Begins.append (by decide) _) (hsp.behind "sp=")
  refine ((Cut.word (hplace hx) (hplace hy)).padded 24 (Begins.append (by decide) _)
    (Begins.append (by decide) _) (hfp.behind "fp=")).map fun h => ?_
  rw [traced, h.1, h.2.1, h.2.2.1, h.2.2.2, traced]

end Exec

/-- Code that prints prints alike exactly if it differs in the keys of labels only; so listings
and traces determine the code that they show. -/
theorem printed_code_identifies :
    (∀ c d : IR.Code, c.Printable → d.Printable →
      (∃ s, c.text = .ok s) ∧ (c.text = d.text ↔ c.unkeyed = d.unkeyed)) ∧
    (∀ p q : Program, (∀ l ∈ p.lines, l.Printable) → (∀ l ∈ q.lines, l.Printable) →
      p.listing = q.listing → p.lines.map (·.told) = q.lines.map (·.told)) ∧
    ∀ xs ys : List (State × IR.Stmt), (∀ x ∈ xs, Exec.Traceable x) → (∀ y ∈ ys, Exec.Traceable y) →
      String.join (xs.map fun x => Exec.traceLine x.1 x.2) =
        String.join (ys.map fun y => Exec.traceLine y.1 y.2) →
      xs.map Exec.traced = ys.map Exec.traced := by
  refine ⟨fun c d hc hd => ⟨IR.Code.exists_text_eq hc, IR.Code.text_eq_iff hc hd⟩,
    fun p q hp hq h => ?_, fun xs ys hx hy h => ?_⟩
  · rw [p.listing_eq, q.listing_eq] at h
    exact Printed.told_eq_of_join_eq (fun _ => rfl) Printed.Line.cut hp hq h
  · exact Printed.told_eq_of_join_eq Exec.traceLine_eq Exec.cut_columns hx hy h

/-- An operator without a symbol before a label that is called like a keyword. -/
def keywordLabel (key : String) : IR.Stmt :=
  .exp (.binop (.other 40) (.unop .neg (.const (-1)))
    (.eseq (.seq [.label ⟨key, "MOVE"⟩, .jump ⟨key, "MOVE"⟩]) (.call ⟨key, "CALL"⟩ [])))

theorem keywordLabel_printable (key : String) : (keywordLabel key).Printable :=
  ⟨show (0 : Int) ≤ 40 by decide, ⟨trivial, trivial⟩,
    ⟨show Printed.Named "MOVE" by decide, show Printed.Named "MOVE" by decide, trivial⟩,
    show Printed.Named "CALL" by decide, trivial⟩

/-- A program with such an instruction and a block of data. -/
def keywordProgram (key : String) : Program where
  chunks := [.data ⟨key, "MEM"⟩ 8 [], .code ⟨⟨key, "main"⟩, 1, [], 16, 8⟩ (keywordLabel key)]
  functions := []
  data := []
  dataSize := 8

theorem keywordProgram_printable (key : String) :
    ∀ l ∈ (keywordProgram key).lines, l.Printable := by
  change ∀ l ∈ [Printed.Line.data _ _ _, .header _, .instruction 0 (keywordLabel key)], _
  simp only [List.forall_mem_cons]
  exact ⟨show Printed.Named "MEM" by decide, show Printed.Named "main" by decide,
    keywordLabel_printable key, nofun⟩

theorem printed_code_identifies_keywordLabel :
    (IR.Code.stmt (keywordLabel "a")).unkeyed = (IR.Code.stmt (keywordLabel "b")).unkeyed ∧
    (keywordProgram "a").lines.map (·.told) = (keywordProgram "b").lines.map (·.told) ∧
    [Exec.traced (Machine.initialState 64 ⟨#[]⟩, keywordLabel "a")] =
      [Exec.traced (Machine.initialState 64 ⟨#[]⟩, keywordLabel "b")] := by
  have htrace : ∀ key, ∀ x ∈ [(Machine.initialState 64 ⟨#[]⟩, keywordLabel key)],
      Exec.Traceable x := by
    intro key x hx
    obtain rfl := List.mem_singleton.1 hx
    exact ⟨show Printed.Solid "" by decide, keywordLabel_printable key⟩
  obtain ⟨hcode, hlisting, htraces⟩ := printed_code_identifies
  refine ⟨?_, ?_, htraces _ _ (htrace "a") (htrace "b") rfl⟩
  · exact (hcode (.stmt (keywordLabel "a")) (.stmt (keywordLabel "b")) (keywordLabel_printable "a")
      (keywordLabel_printable "b")).2.1 rfl
  · exact hlisting _ _ (keywordProgram_printable "a") (keywordProgram_printable "b") rfl

end TreeCode
