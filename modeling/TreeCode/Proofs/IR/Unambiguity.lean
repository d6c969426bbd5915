/-
# The printed form of code is unambiguous

A printed text is made of words and marks. A word is a longest stretch without marks, and the
first word of an expression or a statement, together with the mark behind it, tells its kind.
A label may thus be called like a keyword: a colon follows it. In two texts of one kind that
agree every part ends where its counterpart does, so nothing but the keys of labels can differ.

Names must not contain marks. Letters, digits and the characters `_`, `.` and `#` are none.
-/

import TreeCode.IR.Text
import TreeCode.Proofs.Supply

namespace TreeCode

namespace Printed

/-- The characters that end a word. -/
def marks : List Char :=
  [' ', '\n', '(', ')', '[', ']', ',', ';', ':', '@']

/-- Whether a character ends a word. -/
def isMark (c : Char) : Bool :=
  marks.contains c

/-- A text of which the first character has a property. -/
def Begins (p : Char → Bool) (s : String) : Prop :=
  s.toList.head?.any p = true

/-- A text that begins with a mark. -/
abbrev Marked : String → Prop :=
  Begins isMark

/-- A text that goes on with a mark, or ends. -/
def Delimited (rest : String) : Prop :=
  rest.toList.head?.all isMark = true

/-- A text without marks. -/
def Solid (s : String) : Prop :=
  (s.toList.all fun c => !isMark c) = true

/-- A name that can be printed. -/
def Named (s : String) : Prop :=
  Solid s ∧ s ≠ ""

instance (p : Char → Bool) (s : String) : Decidable (Begins p s) :=
  inferInstanceAs (Decidable (_ = true))

instance (s : String) : Decidable (Solid s) :=
  inferInstanceAs (Decidable (_ = true))

instance (s : String) : Decidable (Named s) :=
  inferInstanceAs (Decidable (_ ∧ _))

theorem Begins.append {p : Char → Bool} {s : String} (h : Begins p s) (t : String) :
    Begins p (s ++ t) := by
  unfold Begins at h ⊢
  rw [String.toList_append]
  cases hs : s.toList with
  | nil => rw [hs] at h; cases h
  | cons c cs => rwa [hs] at h

theorem begins_singleton {p : Char → Bool} {c : Char} (h : p c = true) :
    Begins p (.singleton c) := by
  rwa [Begins, String.toList_singleton]

theorem Begins.delimited {m : String} (h : Marked m) (rest : String) : Delimited (m ++ rest) := by
  have hmark := h.append rest
  unfold Begins at hmark
  unfold Delimited
  cases hc : (m ++ rest).toList.head? with
  | none => rfl
  | some c => rwa [hc] at hmark

/-- Where two texts agree, a fact holds, and what stands behind them is the same. -/
def Cut (s t : String) (P : Prop) : Prop :=
  ∀ ⦃r r' : String⦄, Delimited r → Delimited r' → s ++ r = t ++ r' → P ∧ r = r'

namespace Cut

variable {s t u v m : String} {P Q : Prop}

theorem map (h : Cut s t P) (f : P → Q) : Cut s t Q :=
  fun _ _ hr hr' heq => (h hr hr' heq).imp_left f

theorem of_eq (h : Cut s t P) (heq : s = t) : P :=
  (h (show Delimited "" from rfl) (show Delimited "" from rfl) (by rw [heq])).1

theorem behind (m : String) (h : Cut s t P) : Cut (m ++ s) (m ++ t) P := by
  intro r r' hr hr' heq
  rw [String.append_assoc, String.append_assoc] at heq
  exact h hr hr' ((String.append_right_inj m).1 heq)

theorem before (h : Cut s t P) (hm : Marked m) (h' : Cut u v Q) :
    Cut (s ++ (m ++ u)) (t ++ (m ++ v)) (P ∧ Q) := by
  intro r r' hr hr' heq
  simp only [String.append_assoc] at heq
  obtain ⟨hp, heq⟩ := h (hm.delimited _) (hm.delimited _) heq
  obtain ⟨hq, heq⟩ := h' hr hr' ((String.append_right_inj m).1 heq)
  exact ⟨⟨hp, hq⟩, heq⟩

theorem ended (h : Cut s t P) (hm : Marked m) {r r' : String}
    (heq : s ++ m ++ r = t ++ m ++ r') : P ∧ r = r' := by
  rw [String.append_assoc, String.append_assoc] at heq
  obtain ⟨hp, heq⟩ := h (hm.delimited r) (hm.delimited r') heq
  exact ⟨hp, (String.append_right_inj m).1 heq⟩

theorem closed (h : Cut s t P) (hm : Marked m) : Cut (s ++ m) (t ++ m) P :=
  fun _ _ _ _ => h.ended hm

theorem word (hs : Solid s) (ht : Solid t) : Cut s t (s = t) := by
  have htake : ∀ {w r : String}, Solid w → Delimited r →
      (w ++ r).toList.takeWhile (fun c => !isMark c) = w.toList := by
    intro w r hw hr
    rw [String.toList_append, List.takeWhile_append_of_pos (List.all_eq_true.1 hw)]
    unfold Delimited at hr
    cases hcs : r.toList with
    | nil => exact List.append_nil _
    | cons c cs =>
      have hc : isMark c = true := by rwa [hcs] at hr
      rw [List.takeWhile_cons_of_neg (by simp [hc]), List.append_nil]
  intro r r' hr hr' heq
  obtain rfl : s = t := by
    apply String.toList_injective
    rw [← htake hs hr, heq, htake ht hr']
  exact ⟨rfl, (String.append_right_inj s).1 heq⟩

end Cut

/-- Whether a character may stand in a name: letters, digits, `_`, `.` and `#` may. -/
def inName (c : Char) : Bool :=
  c.isAlphanum || ['_', '.', '#'].contains c

/-- Names have no marks. -/
theorem solid_of_inName {s : String} (h : ∀ c ∈ s.toList, inName c = true) : Solid s := by
  have hmarks : (marks.all fun c => !inName c) = true := by decide
  refine List.all_eq_true.2 fun c hc => ?_
  cases hmark : isMark c with
  | false => rfl
  | true =>
    have hnone := List.all_eq_true.1 hmarks c (List.contains_iff_mem.1 hmark)
    rw [h c hc] at hnone
    cases hnone

theorem Solid.append {s t : String} (hs : Solid s) (ht : Solid t) : Solid (s ++ t) := by
  rw [Solid, String.toList_append, List.all_append, hs, ht]
  rfl

theorem solid_toString_nat (n : Nat) : Solid (toString n) := by
  refine solid_of_inName fun c hc => ?_
  have hmem : c ∈ Nat.toDigits 10 n := by simpa using hc
  have hdigit : c.isDigit = true :=
    Nat.isDigit_of_mem_toDigits (by decide) (Nat.le_refl 10) hmem
  rw [inName, Char.isAlphanum, hdigit, Bool.or_true, Bool.true_or]

theorem solid_toString_int : ∀ i : Int, Solid (toString i)
  | .ofNat n => solid_toString_nat n
  | .negSucc n => Solid.append (s := "-") (by decide) (solid_toString_nat (n + 1))

/-- A number that is not negative has no sign. -/
theorem toString_nat_ne (m : Nat) (s : String) : toString m ≠ "-" ++ s := by
  intro h
  have hmem : '-' ∈ Nat.toDigits 10 m := by
    rw [← Nat.toList_repr, ← Nat.toString_eq_repr, h, String.toList_append]
    exact List.mem_append_left _ (by decide)
  exact absurd (Nat.isDigit_of_mem_toDigits (by decide) (Nat.le_refl 10) hmem) (by decide)

theorem toString_int_inj : ∀ {i j : Int}, toString i = toString j → i = j
  | .ofNat _, .ofNat _, h => congrArg Int.ofNat (toString_nat_inj h)
  | .ofNat m, .negSucc _, h => absurd h (toString_nat_ne m _)
  | .negSucc _, .ofNat n, h => absurd h.symm (toString_nat_ne n _)
  | .negSucc _, .negSucc _, h =>
    congrArg Int.negSucc (Nat.succ.inj (toString_nat_inj ((String.append_right_inj "-").1 h)))

theorem Cut.int (i j : Int) : Cut (toString i) (toString j) (i = j) :=
  (Cut.word (solid_toString_int i) (solid_toString_int j)).map toString_int_inj

theorem Cut.number (v w : Word) : Cut v.text w.text (v = w) :=
  (Cut.int v.toInt w.toInt).map Int64.toInt_inj.1

theorem tempName_cases (t : Temp) :
    t = .fp ∧ t.name = "FP" ∨ t = .rv ∧ t.name = "RV" ∨ t.name = "T" ++ toString t.index := by
  by_cases hfp : t = .fp
  · exact .inl ⟨hfp, by rw [hfp]; rfl⟩
  by_cases hrv : t = .rv
  · exact .inr (.inl ⟨hrv, by rw [hrv]; rfl⟩)
  · exact .inr (.inr (by rw [Temp.name, if_neg hfp, if_neg hrv]))

theorem solid_tempName (t : Temp) : Solid t.name := by
  rcases tempName_cases t with ⟨-, h⟩ | ⟨-, h⟩ | h <;> rw [h]
  · decide
  · decide
  · exact Solid.append (s := "T") (by decide) (solid_toString_int t.index)

/-- Temps are known by their names. -/
theorem Cut.temp (t u : Temp) : Cut t.name u.name (t = u) := by
  refine (Cut.word (solid_tempName t) (solid_tempName u)).map fun h => ?_
  rcases tempName_cases t with ⟨ht, hn⟩ | ⟨ht, hn⟩ | hn <;>
    rcases tempName_cases u with ⟨hu, hm⟩ | ⟨hu, hm⟩ | hm <;> rw [hn, hm] at h
  case inr.inr.inr.inr =>
    exact congrArg Temp.mk (toString_int_inj ((String.append_right_inj "T").1 h))
  all_goals first | exact ht.trans hu.symm | simp [String.ext_iff] at h

/-- What is left of a list behind an item: separated items and a closing bracket. -/
def tail (separator : String) : List String → String
  | [] => ")"
  | t :: ts => separator ++ (t ++ tail separator ts)

/-- The items of a list, and a closing bracket. -/
def items (separator : String) : List String → String
  | [] => ")"
  | t :: ts => t ++ tail separator ts

theorem items_eq (separator : String) (ts : List String) :
    items separator ts = separator.intercalate ts ++ ")" := by
  cases ts with
  | nil => rfl
  | cons t ts =>
    rw [items]
    induction ts generalizing t with
    | nil => rw [tail, String.intercalate_singleton]
    | cons u us ih =>
      rw [tail, ih u, String.intercalate_cons_cons]
      repeat rw [String.append_assoc]

/-- The kinds of code, and of the lines of a listing that are not code. -/
inductive Kind where
  | const | name | temp | mem | binop | unop | call | eseq
  | exp | move | seq | cjump | jump | label
  | header | data
deriving DecidableEq

/-- The words that tell kinds of code, and the marks behind them. -/
def Kind.table : List ((String × Char) × Kind) :=
  [(("CONST", ' '), const), (("NAME", ' '), name), (("TEMP", ' '), temp), (("MEM", '('), mem),
    (("", '('), binop), (("CALL", ' '), call), (("ESEQ", '('), eseq), (("EXP", ' '), exp),
    (("MOVE", ' '), move), (("SEQ", '('), seq), (("CJUMP", ' '), cjump), (("JUMP", ' '), jump),
    (("", ':'), header), (("", '@'), data)]

/-- The kind that a word and the mark behind it tell. -/
def Kind.of? (w : String) (m : Char) : Option Kind :=
  (table.lookup (w, m)).or
    (if m = ':' then some label else if m = '(' then some unop else none)

/-- A text that begins like code of a kind. -/
def Opens (k : Kind) (s : String) : Prop :=
  ∃ w m t, s = w ++ (.singleton m ++ t) ∧ Solid w ∧ isMark m = true ∧ Kind.of? w m = some k

theorem Opens.intro {k : Kind} {s : String} (w : String) (m : Char)
    (h : s = w ++ .singleton m ∧ Solid w ∧ isMark m = true ∧ Kind.of? w m = some k) (t : String) :
    Opens k (s ++ t) := by
  refine ⟨w, m, t, ?_, h.2⟩
  rw [h.1, String.append_assoc]

/-- The first word and the mark behind it are the same in texts that agree. -/
theorem Cut.first {v w : String} (hv : Solid v) (hw : Solid w) {m n : Char} (hm : isMark m = true)
    (hn : isMark n = true) {r r' : String}
    (h : v ++ (.singleton m ++ r) = w ++ (.singleton n ++ r')) : v = w ∧ m = n := by
  obtain ⟨rfl, hrest⟩ := Cut.word hv hw ((begins_singleton hm).delimited r)
    ((begins_singleton hn).delimited r') h
  have hcons := congrArg String.toList hrest
  rw [String.toList_append, String.toList_append, String.toList_singleton,
    String.toList_singleton] at hcons
  exact ⟨rfl, (List.cons.inj hcons).1⟩

theorem Opens.cut {k l : Kind} {s t : String} {P : Prop} (hs : Opens k s) (ht : Opens l t)
    (h : k = l → Cut s t P) : Cut s t P := by
  intro r r' hr hr' heq
  obtain ⟨v, m, u, rfl, hv, hm, hk⟩ := hs
  obtain ⟨w, n, u', rfl, hw, hn, hl⟩ := ht
  have hfirst := heq
  simp only [String.append_assoc] at hfirst
  obtain ⟨rfl, rfl⟩ := Cut.first hv hw hm hn hfirst
  exact h (Option.some.inj (hk.symm.trans hl)) hr hr' heq

/-- Code does not begin with a mark that tells no kind. -/
theorem Opens.ne {k : Kind} {s : String} (h : Opens k s) {m : Char} (hm : isMark m = true)
    (hnone : Kind.of? "" m = none) (r r' : String) : s ++ r ≠ .singleton m ++ r' := by
  obtain ⟨w, n, t, rfl, hw, hn, hk⟩ := h
  intro heq
  simp only [String.append_assoc] at heq
  obtain ⟨rfl, rfl⟩ := Cut.first (w := "") hw (by decide) hn hm (by rwa [String.empty_append])
  rw [hnone] at hk
  cases hk

theorem delimited_tail {separator : String} (h : Marked separator) (ts : List String) (r : String) :
    Delimited (tail separator ts ++ r) := by
  cases ts with
  | nil => exact Begins.delimited (m := ")") (by decide) r
  | cons t ts =>
    rw [tail, String.append_assoc]
    exact h.delimited _

namespace Cut

variable {separator s t : String} {ss ts : List String} {P Q : Prop}

theorem symm (h : Cut s t P) : Cut t s P :=
  fun _ _ hr hr' heq => (h hr' hr heq.symm).imp_right Eq.symm

theorem refl (s : String) (h : P) : Cut s s P :=
  fun _ _ _ _ heq => ⟨h, (String.append_right_inj s).1 heq⟩

theorem tail_cons (hm : Marked separator) (h : Cut s t P)
    (hs : Cut (tail separator ss) (tail separator ts) Q) :
    Cut (tail separator (s :: ss)) (tail separator (t :: ts)) (P ∧ Q) := by
  refine behind separator fun r r' hr hr' heq => ?_
  rw [String.append_assoc, String.append_assoc] at heq
  obtain ⟨hp, heq⟩ := h (delimited_tail hm _ _) (delimited_tail hm _ _) heq
  obtain ⟨hq, heq⟩ := hs hr hr' heq
  exact ⟨⟨hp, hq⟩, heq⟩

/-- A list that is at its end does not go on. -/
theorem tail_nil {m : Char} (hm : separator.toList.head? = some m) (hne : ')' ≠ m) :
    Cut (tail separator []) (tail separator (t :: ts)) P := by
  intro r r' _ _ heq
  have hhead : ')' = m := by
    have h := congrArg (fun s => s.toList.head?) heq
    simpa [tail, hm] using h
  exact absurd hhead hne

/-- The items of two lists agree if they do behind another item. -/
theorem items (h : Cut (tail separator ss) (tail separator ts) P)
    (hs : ∀ s ∈ ss.head?, ∃ k, Opens k s) (ht : ∀ t ∈ ts.head?, ∃ k, Opens k t) :
    Cut (Printed.items separator ss) (Printed.items separator ts) P := by
  intro r r' hr hr' heq
  cases ss with
  | nil =>
    cases ts with
    | nil => exact h hr hr' heq
    | cons t ts =>
      obtain ⟨k, hk⟩ := ht t rfl
      rw [Printed.items, Printed.items, String.append_assoc] at heq
      exact absurd heq.symm (hk.ne (m := ')') rfl (by decide) _ _)
  | cons s ss =>
    cases ts with
    | nil =>
      obtain ⟨k, hk⟩ := hs s rfl
      rw [Printed.items, Printed.items, String.append_assoc] at heq
      exact absurd heq (hk.ne (m := ')') rfl (by decide) _ _)
    | cons t ts =>
      refine h hr hr' ?_
      simp only [Printed.items, tail, String.append_assoc] at heq ⊢
      rw [heq]

end Cut

open IR (Op)

theorem symbol_other (code : Int) :
    (Op.other code).symbol = "Op" ++ ("(" ++ (toString code ++ ")")) := by
  rw [← String.append_assoc, ← String.append_assoc]
  rfl

/-- An operator is shown by its number, or by a word that is no keyword. -/
theorem symbol_cases (op : Op) : (∃ code, op = .other code) ∨ Solid op.symbol ∧
    op.symbol ≠ "Op" ∧ Op.ofSymbol? op.symbol = some op ∧
      Kind.of? op.symbol '(' = some .unop := by
  cases op with
  | other code => exact .inl ⟨code, rfl⟩
  | _ => exact .inr (by decide +kernel)

/-- Operators are known by their symbols. -/
theorem Cut.op (op op' : Op) : Cut op.symbol op'.symbol (op = op') := by
  have hother : ∀ (code : Int) {w : String}, Solid w → w ≠ "Op" →
      ∀ {r r' : String}, Delimited r' → (Op.other code).symbol ++ r ≠ w ++ r' := by
    intro code w hw hne r r' hr' heq
    rw [symbol_other, String.append_assoc, String.append_assoc] at heq
    have hword := Cut.word (by decide) hw (Begins.delimited (m := "(") (by decide) _) hr' heq
    exact hne hword.1.symm
  rcases symbol_cases op with ⟨code, rfl⟩ | ⟨hsolid, hne, hof, -⟩ <;>
    rcases symbol_cases op' with ⟨code', rfl⟩ | ⟨hsolid', hne', hof', -⟩
  · rw [symbol_other, symbol_other]
    exact ((((Cut.int code code').closed (by decide)).behind "(").behind "Op").map
      (congrArg Op.other)
  · exact fun r r' hr hr' heq => absurd heq (hother code hsolid' hne' hr')
  · exact fun r r' hr hr' heq => absurd heq.symm (hother code' hsolid hne hr)
  · refine (Cut.word hsolid hsolid').map fun h => ?_
    rw [h, hof'] at hof
    exact (Option.some.inj hof).symm

theorem opens_unop (op : Op) (t : String) : Opens .unop (op.symbol ++ ("(" ++ t)) := by
  rcases symbol_cases op with ⟨code, rfl⟩ | ⟨hsolid, -, -, hkind⟩
  · rw [symbol_other, String.append_assoc, String.append_assoc]
    rw [← String.append_assoc]
    exact .intro "Op" '(' (by decide +kernel) _
  · rw [← String.append_assoc]
    exact .intro op.symbol '(' ⟨rfl, hsolid, rfl, hkind⟩ t

end Printed

/-- The label that a printed name stands for. -/
def Label.unkeyed (l : Label) : Label :=
  .ofName l.name

namespace IR

open Printed
open TextError (embed)

mutual

/-- An expression with labels that are known by their names alone. -/
def Expr.unkeyed : Expr → Expr
  | .const n => .const n
  | .name l => .name l.unkeyed
  | .temp t => .temp t
  | .mem a => .mem a.unkeyed
  | .binop op x y => .binop op x.unkeyed y.unkeyed
  | .unop op x => .unop op x.unkeyed
  | .call f args => .call f.unkeyed (Expr.unkeyedAll args)
  | .eseq s e => .eseq s.unkeyed e.unkeyed
termination_by structural e => e

/-- A list of such expressions. -/
def Expr.unkeyedAll : List Expr → List Expr
  | [] => []
  | e :: es => e.unkeyed :: Expr.unkeyedAll es
termination_by structural es => es

/-- A statement with labels that are known by their names alone. -/
def Stmt.unkeyed : Stmt → Stmt
  | .absent => .absent
  | .exp e => .exp e.unkeyed
  | .move d e => .move d.unkeyed e.unkeyed
  | .seq ss => .seq (Stmt.unkeyedAll ss)
  | .cjump c t f => .cjump c.unkeyed t.unkeyed f.unkeyed
  | .jump l => .jump l.unkeyed
  | .label l => .label l.unkeyed
termination_by structural s => s

/-- A list of such statements. -/
def Stmt.unkeyedAll : List Stmt → List Stmt
  | [] => []
  | s :: ss => s.unkeyed :: Stmt.unkeyedAll ss
termination_by structural ss => ss

end

theorem Stmt.isAbsent_unkeyed (s : Stmt) : s.unkeyed.isAbsent = s.isAbsent := by
  cases s <;> rfl

mutual

/-- The keys of labels are not printed. -/
theorem Expr.text_unkeyed : ∀ e : Expr, e.unkeyed.text = e.text
  | .const _ | .name _ | .temp _ => rfl
  | .mem a | .unop _ a => by rw [Expr.unkeyed, Expr.text, a.text_unkeyed, Expr.text]
  | .binop _ x y => by simp only [Expr.unkeyed, Expr.text, x.text_unkeyed, y.text_unkeyed]
  | .call f args => by
    rw [Expr.unkeyed, Expr.text, Expr.texts_unkeyed args, Expr.text]
    rfl
  | .eseq s e => by
    simp only [Expr.unkeyed, Expr.text, s.isAbsent_unkeyed, s.text_unkeyed, e.text_unkeyed]
termination_by structural e => e

theorem Expr.texts_unkeyed : ∀ es : List Expr, Expr.texts (Expr.unkeyedAll es) = Expr.texts es
  | [] => rfl
  | e :: es => by
    rw [Expr.unkeyedAll, Expr.texts, e.text_unkeyed, Expr.texts_unkeyed es, Expr.texts]
termination_by structural es => es

theorem Stmt.text_unkeyed : ∀ s : Stmt, s.unkeyed.text = s.text
  | .absent | .jump _ | .label _ => rfl
  | .exp e => by rw [Stmt.unkeyed, Stmt.text, e.text_unkeyed, Stmt.text]
  | .move d e => by rw [Stmt.unkeyed, Stmt.text, d.text_unkeyed, e.text_unkeyed, Stmt.text]
  | .seq ss => by rw [Stmt.unkeyed, Stmt.text, Stmt.texts_unkeyed ss, Stmt.text]
  | .cjump c _ _ => by
    rw [Stmt.unkeyed, Stmt.text, c.text_unkeyed, Stmt.text]
    rfl
termination_by structural s => s

theorem Stmt.texts_unkeyed : ∀ ss : List Stmt, Stmt.texts (Stmt.unkeyedAll ss) = Stmt.texts ss
  | [] => rfl
  | s :: ss => by
    rw [Stmt.unkeyedAll, Stmt.texts, s.text_unkeyed, Stmt.texts_unkeyed ss, Stmt.texts]
termination_by structural ss => ss

end

/-- An operator with a number that is not negative. -/
def Op.Numbered : Op → Prop
  | .other code => 0 ≤ code
  | _ => True

mutual

/-- An expression that prints: its operators have numbers that are not negative, no statement
in it is absent, and its names have no marks. -/
def Expr.Printable : Expr → Prop
  | .const _ => True
  | .name l => Named l.name
  | .temp _ => True
  | .mem a => a.Printable
  | .binop op x y => op.Numbered ∧ x.Printable ∧ y.Printable
  | .unop op x => op.Numbered ∧ x.Printable
  | .call f args => Named f.name ∧ Expr.PrintableAll args
  | .eseq s e => s.Printable ∧ e.Printable
termination_by structural e => e

/-- A list of such expressions. -/
def Expr.PrintableAll : List Expr → Prop
  | [] => True
  | e :: es => e.Printable ∧ Expr.PrintableAll es
termination_by structural es => es

/-- A statement that prints. -/
def Stmt.Printable : Stmt → Prop
  | .absent => False
  | .exp e => e.Printable
  | .move d e => d.Printable ∧ e.Printable
  | .seq ss => Stmt.PrintableAll ss
  | .cjump c t f => c.Printable ∧ Named t.name ∧ Named f.name
  | .jump l => Named l.name
  | .label l => Named l.name
termination_by structural s => s

/-- A list of such statements. -/
def Stmt.PrintableAll : List Stmt → Prop
  | [] => True
  | s :: ss => s.Printable ∧ Stmt.PrintableAll ss
termination_by structural ss => ss

end

mutual

/-- The text of an expression that prints. -/
def Expr.printed : Expr → String
  | .const n => "CONST " ++ n.text
  | .name l => "NAME " ++ l.name
  | .temp t => "TEMP " ++ t.name
  | .mem a => "MEM(" ++ (a.printed ++ ")")
  | .binop op x y => "(" ++ (x.printed ++ (" " ++ (op.symbol ++ (" " ++ (y.printed ++ ")")))))
  | .unop op x => op.symbol ++ ("(" ++ (x.printed ++ ")"))
  | .call f args => "CALL " ++ (f.name ++ ("(" ++ items ", " (Expr.printedAll args)))
  | .eseq s e => "ESEQ(" ++ (s.printed ++ ("; " ++ (e.printed ++ ")")))
termination_by structural e => e

def Expr.printedAll : List Expr → List String
  | [] => []
  | e :: es => e.printed :: Expr.printedAll es
termination_by structural es => es

/-- The text of a statement that prints. -/
def Stmt.printed : Stmt → String
  | .absent => ""
  | .exp e => "EXP " ++ e.printed
  | .move d e => "MOVE " ++ (d.printed ++ (" <- " ++ e.printed))
  | .seq ss => "SEQ(" ++ items "; " (Stmt.printedAll ss)
  | .cjump c t f => "CJUMP " ++ (c.printed ++ (" ? " ++ (t.name ++ (" : " ++ f.name))))
  | .jump l => "JUMP " ++ l.name
  | .label l => l.name ++ ":"
termination_by structural s => s

def Stmt.printedAll : List Stmt → List String
  | [] => []
  | s :: ss => s.printed :: Stmt.printedAll ss
termination_by structural ss => ss

end

theorem Op.text_eq {op : Op} (h : op.Numbered) : op.text = .ok op.symbol := by
  cases op with
  | other code => exact if_neg (Int.not_lt.2 h)
  | _ => rfl

theorem Stmt.isAbsent_of_printable {s : Stmt} (h : s.Printable) : s.isAbsent = false := by
  cases s with
  | absent => exact h.elim
  | _ => rfl

mutual

theorem Expr.text_eq : ∀ {e : Expr}, e.Printable → e.text = .ok e.printed
  | .const _, _ | .name _, _ | .temp _, _ => rfl
  | .mem a, h => by
    simp only [Expr.text, Expr.text_eq (e := a) h, String.append_assoc]
    rfl
  | .binop _ _ _, h => by
    simp only [Expr.text, Op.text_eq h.1, Expr.text_eq h.2.1, Expr.text_eq h.2.2,
      String.append_assoc]
    rfl
  | .unop _ _, h => by
    simp only [Expr.text, Op.text_eq h.1, Expr.text_eq h.2, String.append_assoc]
    rfl
  | .call _ _, h => by
    simp only [Expr.text, Expr.printed, Expr.texts_eq h.2, items_eq, String.append_assoc]
    rfl
  | .eseq _ _, h => by
    simp only [Expr.text, Stmt.text_eq h.1, Stmt.isAbsent_of_printable h.1, Expr.text_eq h.2,
      String.append_assoc]
    rfl
termination_by structural e => e

theorem Expr.texts_eq : ∀ {es : List Expr}, Expr.PrintableAll es →
    Expr.texts es = .ok (Expr.printedAll es)
  | [], _ => rfl
  | _ :: _, h => by
    rw [Expr.texts, Expr.text_eq h.1, Expr.texts_eq h.2]
    rfl
termination_by structural es => es

theorem Stmt.text_eq : ∀ {s : Stmt}, s.Printable → s.text = .ok s.printed
  | .exp e, h => by
    rw [Stmt.text, Expr.text_eq (e := e) h]
    rfl
  | .move _ _, h => by
    simp only [Stmt.text, Expr.text_eq h.1, Expr.text_eq h.2, String.append_assoc]
    rfl
  | .seq ss, h => by
    simp only [Stmt.text, Stmt.printed, @Stmt.texts_eq ss h, items_eq, String.append_assoc]
    rfl
  | .cjump _ _ _, h => by
    simp only [Stmt.text, Expr.text_eq h.1, String.append_assoc]
    rfl
  | .jump _, _ | .label _, _ => rfl
termination_by structural s => s

theorem Stmt.texts_eq : ∀ {ss : List Stmt}, Stmt.PrintableAll ss →
    Stmt.texts ss = .ok (Stmt.printedAll ss)
  | [], _ => rfl
  | _ :: _, h => by
    rw [Stmt.texts, Stmt.text_eq h.1, Stmt.texts_eq h.2]
    rfl
termination_by structural ss => ss

end

/-- The kind of an expression. -/
def Expr.kind : Expr → Kind
  | .const _ => .const
  | .name _ => .name
  | .temp _ => .temp
  | .mem _ => .mem
  | .binop _ _ _ => .binop
  | .unop _ _ => .unop
  | .call _ _ => .call
  | .eseq _ _ => .eseq

/-- The kind of a statement that is not absent. -/
def Stmt.kind : Stmt → Kind
  | .exp _ => .exp
  | .move _ _ => .move
  | .absent | .seq _ => .seq
  | .cjump _ _ _ => .cjump
  | .jump _ => .jump
  | .label _ => .label

theorem kind_label {w : String} (h : w ≠ "") : Kind.of? w ':' = some .label := by
  have hnone : Kind.table.lookup (w, ':') = none :=
    List.lookup_eq_none_iff.2 (by simp [Kind.table, h])
  rw [Kind.of?, hnone]
  rfl

theorem Expr.opens : ∀ e : Expr, Opens e.kind e.printed
  | .const _ => .intro (k := .const) "CONST" ' ' (by decide +kernel) _
  | .name _ => .intro (k := .name) "NAME" ' ' (by decide +kernel) _
  | .temp _ => .intro (k := .temp) "TEMP" ' ' (by decide +kernel) _
  | .mem _ => .intro (k := .mem) "MEM" '(' (by decide +kernel) _
  | .binop _ _ _ => .intro (k := .binop) "" '(' (by decide +kernel) _
  | .unop op _ => opens_unop op _
  | .call _ _ => .intro (k := .call) "CALL" ' ' (by decide +kernel) _
  | .eseq _ _ => .intro (k := .eseq) "ESEQ" '(' (by decide +kernel) _

theorem Stmt.opens : ∀ {s : Stmt}, s.Printable → Opens s.kind s.printed
  | .exp _, _ => .intro (k := .exp) "EXP" ' ' (by decide +kernel) _
  | .move _ _, _ => .intro (k := .move) "MOVE" ' ' (by decide +kernel) _
  | .seq _, _ => .intro (k := .seq) "SEQ" '(' (by decide +kernel) _
  | .cjump _ _ _, _ => .intro (k := .cjump) "CJUMP" ' ' (by decide +kernel) _
  | .jump _, _ => .intro (k := .jump) "JUMP" ' ' (by decide +kernel) _
  | .label l, h => ⟨l.name, ':', "", rfl, h.1, rfl, kind_label h.2⟩

theorem Expr.opens_head (es : List Expr) : ∀ s ∈ (Expr.printedAll es).head?, ∃ k, Opens k s := by
  cases es with
  | nil => nofun
  | cons e es =>
    rintro s ⟨⟩
    exact ⟨_, e.opens⟩

theorem Stmt.opens_head {ss : List Stmt} (h : Stmt.PrintableAll ss) :
    ∀ s ∈ (Stmt.printedAll ss).head?, ∃ k, Opens k s := by
  cases ss with
  | nil => nofun
  | cons s ss =>
    rintro s ⟨⟩
    exact ⟨_, Stmt.opens h.1⟩

mutual

/-- In texts that agree, an expression ends where the other one ends, and is the same. -/
theorem Expr.cut : ∀ {e d : Expr}, e.Printable → d.Printable →
    Cut e.printed d.printed (e.unkeyed = d.unkeyed)
  | .const n, d, _, _ => (Expr.opens _).cut (Expr.opens d) fun hk => by
    cases d with
    | const n' => exact ((Cut.number n n').behind "CONST ").map (congrArg Expr.const)
    | _ => cases hk
  | .name l, d, h, h' => (Expr.opens _).cut (Expr.opens d) fun hk => by
    cases d with
    | name l' =>
      exact ((Cut.word h.1 h'.1).behind "NAME ").map (congrArg fun n => Expr.name (.ofName n))
    | _ => cases hk
  | .temp t, d, _, _ => (Expr.opens _).cut (Expr.opens d) fun hk => by
    cases d with
    | temp t' => exact ((Cut.temp t t').behind "TEMP ").map (congrArg Expr.temp)
    | _ => cases hk
  | .mem a, d, h, h' => (Expr.opens _).cut (Expr.opens d) fun hk => by
    cases d with
    | mem a' =>
      have ha := (Expr.cut (e := a) (d := a') h h').closed (m := ")") (by decide)
      exact (ha.behind "MEM(").map (congrArg Expr.mem)
    | _ => cases hk
  | .binop op x y, d, h, h' => (Expr.opens _).cut (Expr.opens d) fun hk => by
    cases d with
    | binop op' x' y' =>
      have hy := (Expr.cut h.2.2 h'.2.2).closed (m := ")") (by decide)
      have hop := (Cut.op op op').before (m := " ") (by decide) hy
      refine (((Expr.cut h.2.1 h'.2.1).before (by decide) hop).behind "(").map fun h => ?_
      rw [Expr.unkeyed, h.1, h.2.1, h.2.2, Expr.unkeyed]
    | _ => cases hk
  | .unop op x, d, h, h' => (Expr.opens _).cut (Expr.opens d) fun hk => by
    cases d with
    | unop op' x' =>
      have hx := (Expr.cut h.2 h'.2).closed (m := ")") (by decide)
      refine ((Cut.op op op').before (by decide) hx).map fun h => ?_
      rw [Expr.unkeyed, h.1, h.2, Expr.unkeyed]
    | _ => cases hk
  | .call f args, d, h, h' => (Expr.opens _).cut (Expr.opens d) fun hk => by
    cases d with
    | call f' args' =>
      have hargs := (Expr.cutTail h.2 h'.2).items (Expr.opens_head _) (Expr.opens_head _)
      refine (((Cut.word h.1.1 h'.1.1).before (m := "(") (by decide) hargs).behind "CALL ").map
        fun h => ?_
      rw [Expr.unkeyed, Expr.unkeyed, Label.unkeyed, Label.unkeyed, h.1, h.2]
    | _ => cases hk
  | .eseq s e, d, h, h' => (Expr.opens _).cut (Expr.opens d) fun hk => by
    cases d with
    | eseq s' e' =>
      have he := (Expr.cut h.2 h'.2).closed (m := ")") (by decide)
      refine (((Stmt.cut h.1 h'.1).before (by decide) he).behind "ESEQ(").map fun h => ?_
      rw [Expr.unkeyed, h.1, h.2, Expr.unkeyed]
    | _ => cases hk
termination_by structural e => e

theorem Expr.cutTail : ∀ {es ds : List Expr}, Expr.PrintableAll es → Expr.PrintableAll ds →
    Cut (tail ", " (Expr.printedAll es)) (tail ", " (Expr.printedAll ds))
      (Expr.unkeyedAll es = Expr.unkeyedAll ds)
  | [], [], _, _ => .refl _ rfl
  | [], _ :: _, _, _ => .tail_nil rfl (by decide)
  | _ :: _, [], _, _ => .symm (.tail_nil rfl (by decide))
  | _ :: _, _ :: _, h, h' => by
    refine (Cut.tail_cons (by decide) (Expr.cut h.1 h'.1) (Expr.cutTail h.2 h'.2)).map fun h => ?_
    rw [Expr.unkeyedAll, h.1, h.2, Expr.unkeyedAll]
termination_by structural es => es

/-- In texts that agree, a statement ends where the other one ends, and is the same. -/
theorem Stmt.cut : ∀ {s i : Stmt}, s.Printable → i.Printable →
    Cut s.printed i.printed (s.unkeyed = i.unkeyed)
  | .exp e, i, h, h' => (Stmt.opens h).cut (Stmt.opens h') fun hk => by
    cases i with
    | exp e' => exact ((Expr.cut (e := e) (d := e') h h').behind "EXP ").map (congrArg Stmt.exp)
    | absent => exact h'.elim
    | _ => cases hk
  | .move d e, i, h, h' => (Stmt.opens h).cut (Stmt.opens h') fun hk => by
    cases i with
    | move d' e' =>
      have he := Expr.cut h.2 h'.2
      refine (((Expr.cut h.1 h'.1).before (by decide) he).behind "MOVE ").map fun h => ?_
      rw [Stmt.unkeyed, h.1, h.2, Stmt.unkeyed]
    | _ => cases hk
  | .seq ss, i, h, h' => (Stmt.opens h).cut (Stmt.opens h') fun hk => by
    cases i with
    | seq ss' =>
      have hss := (@Stmt.cutTail ss ss' h h').items (Stmt.opens_head h)
        (Stmt.opens_head h')
      exact (hss.behind "SEQ(").map (congrArg Stmt.seq)
    | absent => exact h'.elim
    | _ => cases hk
  | .cjump c l m, i, h, h' => (Stmt.opens h).cut (Stmt.opens h') fun hk => by
    cases i with
    | cjump c' l' m' =>
      have hlabels := (Cut.word h.2.1.1 h'.2.1.1).before (m := " : ") (by decide)
        (Cut.word h.2.2.1 h'.2.2.1)
      refine (((Expr.cut h.1 h'.1).before (by decide) hlabels).behind "CJUMP ").map fun h => ?_
      rw [Stmt.unkeyed, Stmt.unkeyed, Label.unkeyed, Label.unkeyed, h.1, h.2.1, h.2.2]
      rfl
    | _ => cases hk
  | .jump l, i, h, h' => (Stmt.opens h).cut (Stmt.opens h') fun hk => by
    cases i with
    | jump l' =>
      exact ((Cut.word h.1 h'.1).behind "JUMP ").map (congrArg fun n => Stmt.jump (.ofName n))
    | _ => cases hk
  | .label l, i, h, h' => (Stmt.opens h).cut (Stmt.opens h') fun hk => by
    cases i with
    | label l' =>
      exact ((Cut.word h.1 h'.1).closed (m := ":") (by decide)).map
        (congrArg fun n => Stmt.label (.ofName n))
    | _ => cases hk
termination_by structural s => s

theorem Stmt.cutTail : ∀ {ss is : List Stmt}, Stmt.PrintableAll ss → Stmt.PrintableAll is →
    Cut (tail "; " (Stmt.printedAll ss)) (tail "; " (Stmt.printedAll is))
      (Stmt.unkeyedAll ss = Stmt.unkeyedAll is)
  | [], [], _, _ => .refl _ rfl
  | [], _ :: _, _, _ => .tail_nil rfl (by decide)
  | _ :: _, [], _, _ => .symm (.tail_nil rfl (by decide))
  | _ :: _, _ :: _, h, h' => by
    refine (Cut.tail_cons (by decide) (Stmt.cut h.1 h'.1) (Stmt.cutTail h.2 h'.2)).map fun h => ?_
    rw [Stmt.unkeyedAll, h.1, h.2, Stmt.unkeyedAll]
termination_by structural ss => ss

end

end IR

end TreeCode
