/-
# What lowered code refers to by name

Code refers to data by name: to string literals and to static variables. The names in the code
of a function are those of the literals and static variables that its body mentions, one for
one and in the same order. Every mention of a literal has a data chunk of its own, which holds
the bytes and a zero behind them and is as long as the words that they take.

`Lowers.speaks` says so for every derivation. The pairs of mentions and names are collected in
the order of the code; the chunks of the literals come in the order of lowering, which differs,
so they are the same only up to order.
-/

import TreeCode.Proofs.Lowering.Traversal

namespace TreeCode

open IR (Chunk Expr Stmt)
open Source (Node Symbol)

/-- A number of bytes, rounded up to whole words. -/
def Word.roundUp (n : Nat) : Nat :=
  (n + Word.byteSize - 1) / Word.byteSize * Word.byteSize

/-- What code refers to by name: a string literal or a static variable. -/
inductive Mention where
  | literal (bytes : List UInt8)
  | static (x : Symbol)

namespace Mention

/-- The data chunk of a literal that is known by a label. -/
def chunk? : Mention × Label → Option Chunk
  | (literal bytes, l) =>
    some (.data l (Int64.ofNat (Word.roundUp (bytes ++ [0]).length)) (bytes ++ [0]))
  | (static _, _) => none

end Mention

namespace Source

namespace Node

variable (layout : Layout)

mutual

/-- The literals and static variables that a node mentions, in the order of its code. Those of
the functions that are defined in it are not among them. -/
@[simp]
def mentions : Node → List Mention
  | .string bytes => [.literal bytes]
  | .ident x =>
    match layout.access? x with
    | some (.global _ _) => [.static x]
    | _ => []
  | .binary _ left right => left.mentions ++ right.mentions
  | .unary _ operand => operand.mentions
  | .member operand _ => operand.mentions
  | .call _ args => mentionsAll args
  | .sequence items => mentionsAll items
  | .within body _ => body.mentions
  | .branch _ condition thenArm none => condition.mentions ++ thenArm.mentions
  | .branch _ condition thenArm (some elseArm) =>
    condition.mentions ++ (thenArm.mentions ++ elseArm.mentions)
  | .whileLoop condition body => condition.mentions ++ body.mentions
  | .forLoop counter lo hi step body =>
    counter.mentions ++ (lo.mentions ++ (counter.mentions ++ (hi.mentions ++ (body.mentions ++
      (counter.mentions ++ (counter.mentions ++ step.mentions))))))
  | _ => []

/-- The literals and static variables that the nodes of a list mention. -/
@[simp]
def mentionsAll : List Node → List Mention
  | [] => []
  | n :: rest => n.mentions ++ mentionsAll rest

end

@[simp]
theorem mentionsAll_append (a b : List Node) :
    mentionsAll layout (a ++ b) = mentionsAll layout a ++ mentionsAll layout b := by
  induction a with
  | nil => rfl
  | cons n a ih => simp [ih]

end Node

/-- The literals and static variables that the functions of a program mention. -/
def Program.mentions (p : Source.Program) (layout : Layout) : List Mention :=
  p.functions.flatMap fun f => f.body.mentions layout

end Source

namespace IR

mutual

/-- The names of data in an expression, from left to right. -/
@[simp]
def Expr.names : Expr → List Label
  | .name l => [l]
  | .mem a => a.names
  | .binop _ x y => x.names ++ y.names
  | .unop _ x => x.names
  | .call _ args => Expr.namesAll args
  | .eseq s e => s.names ++ e.names
  | _ => []

/-- The names of data in a list of expressions. -/
@[simp]
def Expr.namesAll : List Expr → List Label
  | [] => []
  | e :: es => e.names ++ Expr.namesAll es

/-- The names of data in a statement. -/
@[simp]
def Stmt.names : Stmt → List Label
  | .exp e => e.names
  | .move target source => target.names ++ source.names
  | .seq ss => Stmt.namesAll ss
  | .cjump c _ _ => c.names
  | _ => []

/-- The names of data in a list of statements. -/
@[simp]
def Stmt.namesAll : List Stmt → List Label
  | [] => []
  | s :: ss => s.names ++ Stmt.namesAll ss

end

theorem Stmt.namesAll_filter (ss : List Stmt) :
    Stmt.namesAll (ss.filter fun s => !s.isAbsent) = Stmt.namesAll ss := by
  induction ss with
  | nil => rfl
  | cons s ss ih =>
    cases s with
    | absent => exact ih
    | _ => exact congrArg (_ ++ ·) ih

/-- Joining statements leaves their names alone. -/
@[simp]
theorem Stmt.names_join (ss : List Stmt) : (Stmt.join ss).names = Stmt.namesAll ss := by
  rw [← namesAll_filter, Stmt.join]
  split
  next heq => simp [heq]
  next => rfl

/-- The names in the code of some chunks. -/
def Chunk.names (chunks : List Chunk) : List Label :=
  chunks.flatMap fun
    | .code _ body => body.names
    | .data .. => []

@[simp]
theorem Chunk.names_append (a b : List Chunk) : names (a ++ b) = names a ++ names b :=
  List.flatMap_append

/-- Whether a chunk is that of a literal. -/
def Chunk.isLiteral : Chunk → Bool
  | .data _ _ init => !init.isEmpty
  | .code _ _ => false

end IR

@[simp]
theorem names_atOffset (e : Expr) (offset : Word) : (atOffset e offset).names = e.names := by
  unfold atOffset
  split <;> simp

theorem names_linkChain (n : Nat) : ∀ e : Expr, (linkChain n e).names = e.names := by
  induction n with
  | zero => exact fun _ => rfl
  | succ n ih => exact fun e => ih (.mem e)

/-- Slots in frames are found without names. -/
@[simp]
theorem names_slotAddress (layout : Layout) (f : FrameRecord) (frame : Nat) (offset : Word) :
    (slotAddress layout f frame offset).names = [] := by
  rw [slotAddress, names_atOffset, names_linkChain]
  rfl

/-- What is mentioned in what is lowered. -/
@[simp]
def Reading.mentions (layout : Layout) : Reading → List Mention
  | .value _ n => n.mentions layout
  | .effect _ n => n.mentions layout
  | .address _ n => n.mentions layout
  | .arguments _ ns => Node.mentionsAll layout ns
  | .effects _ ns => Node.mentionsAll layout ns
  | .definitions _ => []

/-- The names in what lowering yields. -/
@[simp]
def Lowered.names : Lowered → List Label
  | .expr e => e.names
  | .stmt s => s.names
  | .exprs es => Expr.namesAll es
  | .stmts ss => Stmt.namesAll ss
  | .nothing => []

/-- What is mentioned between two states of lowering, by which names: in the code that is made
there, and in the functions that are defined there. -/
structure Mentioned (layout : Layout) (s s' : LowerState) (own others : List (Mention × Label)) :
    Prop where
  names : Chunk.names s'.chunks = Chunk.names s.chunks ++ others.map Prod.snd
  /-- Every mention of a literal has its chunk, and there are no other chunks of literals. -/
  literals : (s'.chunks.filter Chunk.isLiteral).Perm
    (s.chunks.filter Chunk.isLiteral ++ (own ++ others).filterMap Mention.chunk?)
  statics : ∀ x l, (.static x, l) ∈ own ++ others → ∃ size, layout.access? x = some (.global l size)
  /-- Data without initial bytes belong to static variables. -/
  globals : ∀ l size, .data l size [] ∈ s'.chunks → .data l size [] ∈ s.chunks ∨
    ∃ x, layout.access? x = some (.global l size)

namespace Mentioned

variable {layout : Layout} {s s₁ s' : LowerState} {own own' others others' : List (Mention × Label)}

theorem refl : Mentioned layout s s [] [] where
  names := (List.append_nil _).symm
  literals := .of_eq (List.append_nil _).symm
  statics _ _ h := by cases h
  globals _ _ h := .inl h

theorem append (h : Mentioned layout s s₁ own others) (h' : Mentioned layout s₁ s' own' others') :
    Mentioned layout s s' (own ++ own') (others ++ others') where
  names := by rw [h'.names, h.names, List.map_append, List.append_assoc]
  literals := by
    refine (h'.literals.trans (h.literals.append_right _)).trans ?_
    simp only [List.filterMap_append, List.append_assoc]
    refine List.Perm.append_left _ (List.Perm.append_left _ ?_)
    rw [← List.append_assoc, ← List.append_assoc]
    exact List.perm_append_comm.append_right _
  statics x l hmem := by
    simp only [List.mem_append] at hmem
    rcases hmem with (hmem | hmem) | hmem | hmem
    · exact h.statics x l (List.mem_append_left _ hmem)
    · exact h'.statics x l (List.mem_append_left _ hmem)
    · exact h.statics x l (List.mem_append_right _ hmem)
    · exact h'.statics x l (List.mem_append_right _ hmem)
  globals l size hmem := by
    rcases h'.globals l size hmem with hmem | hx
    · exact h.globals l size hmem
    · exact .inr hx

/-- The order of what is mentioned is up to the code. -/
theorem perm (h : Mentioned layout s s' own others) (hperm : own.Perm own') :
    Mentioned layout s s' own' others where
  names := h.names
  literals := h.literals.trans
    (((hperm.append_right others).filterMap Mention.chunk?).append_left _)
  statics x l hmem := h.statics x l ((hperm.append_right others).mem_iff.2 hmem)
  globals := h.globals

/-- Nothing is mentioned while names are drawn. -/
theorem skip (hchunks : s₁.chunks = s.chunks) (h : Mentioned layout s₁ s' own others) :
    Mentioned layout s s' own others where
  names := hchunks ▸ h.names
  literals := hchunks ▸ h.literals
  statics := h.statics
  globals := hchunks ▸ h.globals

theorem string {bytes : List UInt8} {e : Expr} (h : Lower.string bytes s = .ok (e, s')) :
    ∃ l, e = .name l ∧ Mentioned layout s s' [(.literal bytes, l)] [] := by
  cases h
  refine ⟨_, rfl, ?_, ?_, fun x l hmem => ?_, fun l size hmem => ?_⟩
  · rw [Chunk.names_append]
    rfl
  · rw [List.filter_append]
    refine .append_left _ (.of_eq ?_)
    have hne : (bytes ++ [0]).isEmpty = false := by simp
    simp only [List.filter_cons, Chunk.isLiteral, hne, Bool.not_false, if_true, List.filter_nil]
    rfl
  · cases List.mem_singleton.1 hmem
  · rcases List.mem_append.1 hmem with hmem | hmem
    · exact .inl hmem
    · simp at hmem

/-- The data of a static variable are no literal. -/
theorem static {x : Symbol} {l : Label} {size : Word}
    (hx : layout.access? x = some (.global l size))
    (h : Mentioned layout ⟨s.supply, s.chunks ++ [.data l size []]⟩ s' own others) :
    Mentioned layout s s' own others where
  names := by
    rw [h.names, Chunk.names_append]
    simp [Chunk.names]
  literals := by
    have hliterals := h.literals
    rw [List.filter_append] at hliterals
    simpa [Chunk.isLiteral] using hliterals
  statics := h.statics
  globals l' size' hmem := by
    rcases h.globals l' size' hmem with hmem | hx'
    · rcases List.mem_append.1 hmem with hmem | hmem
      · exact .inl hmem
      · cases List.mem_singleton.1 hmem
        exact .inr ⟨x, hx⟩
    · exact .inr hx'

/-- What the body of a function mentions belongs to its chunk. -/
theorem function {supply : Supply} {inner : List Chunk} {frame : Frame} {code : Stmt}
    {mine : List (Mention × Label)} (hcode : mine.map Prod.snd = code.names)
    (hbody : Mentioned layout ⟨s.supply, []⟩ ⟨supply, inner⟩ mine others)
    (hrest : Mentioned layout ⟨supply, s.chunks ++ .code frame code :: inner⟩ s' [] others') :
    Mentioned layout s s' [] (mine ++ (others ++ others')) where
  names := by
    have hinner : Chunk.names inner = others.map Prod.snd := hbody.names
    rw [hrest.names, Chunk.names_append]
    simp only [Chunk.names, List.flatMap_cons] at hinner ⊢
    simp only [hinner, hcode, List.map_append, List.append_assoc]
  literals := by
    have hinner : (inner.filter Chunk.isLiteral).Perm
        ((mine ++ others).filterMap Mention.chunk?) := hbody.literals
    refine hrest.literals.trans ?_
    simp only [List.filter_append, List.filter_cons, Chunk.isLiteral, Bool.false_eq_true, if_false,
      List.nil_append, List.append_assoc, List.filterMap_append] at hinner ⊢
    rw [← List.append_assoc (List.filterMap Mention.chunk? mine)]
    exact (hinner.append_right _).append_left _
  statics x l hmem := by
    simp only [List.nil_append, List.mem_append] at hmem
    rcases hmem with hmem | hmem | hmem
    · exact hbody.statics x l (List.mem_append_left _ hmem)
    · exact hbody.statics x l (List.mem_append_right _ hmem)
    · exact hrest.statics x l hmem
  globals l size hmem := by
    rcases hrest.globals l size hmem with hmem | hx
    · simp only [List.mem_append, List.mem_cons] at hmem
      rcases hmem with hmem | hmem | hmem
      · exact .inl hmem
      · cases hmem
      · exact (hbody.globals l size hmem).imp_left fun h => by cases h
    · exact .inr hx

end Mentioned

/-- The names in code that is made between two states of lowering, and those in the functions
that are defined there, are those of what the source mentions. -/
def Speaks (layout : Layout) (s s' : LowerState) (mentions : List Mention) (names : List Label)
    (fns : Nat → List Source.Function) : Prop :=
  ∃ own others, Mentioned layout s s' own others ∧ own.map Prod.fst = mentions ∧
    own.map Prod.snd = names ∧
    ∀ i, others.map Prod.fst = (fns i).flatMap fun f => f.body.mentions layout

namespace Speaks

variable {layout : Layout} {s s₁ s' : LowerState} {ms ms' : List Mention} {ls ls' : List Label}
  {fns fns' : Nat → List Source.Function}

theorem refl : Speaks layout s s [] [] (fun _ => []) :=
  ⟨[], [], .refl, rfl, rfl, fun _ => rfl⟩

section

variable (h : Speaks layout s s₁ ms ls fns) (h' : Speaks layout s₁ s' ms' ls' fns')
include h h'

theorem append (n : Nat) :
    Speaks layout s s' (ms ++ ms') (ls ++ ls') (fun i => fns i ++ fns' (i + n)) := by
  obtain ⟨own, others, hm, rfl, rfl, hfns⟩ := h
  obtain ⟨own', others', hm', rfl, rfl, hfns'⟩ := h'
  refine ⟨_, _, hm.append hm', List.map_append, List.map_append, fun i => ?_⟩
  rw [List.map_append, List.flatMap_append, hfns i, hfns' (i + n)]

/-- An index is lowered before the array that it goes into, but its code stands behind it. -/
theorem swap (n : Nat) :
    Speaks layout s s' (ms' ++ ms) (ls' ++ ls) (fun i => fns i ++ fns' (i + n)) := by
  obtain ⟨own, others, hm, rfl, rfl, hfns⟩ := h
  obtain ⟨own', others', hm', rfl, rfl, hfns'⟩ := h'
  refine ⟨_, _, (hm.append hm').perm List.perm_append_comm, List.map_append, List.map_append,
    fun i => ?_⟩
  rw [List.map_append, List.flatMap_append, hfns i, hfns' (i + n)]

end

theorem cast (h : Speaks layout s s' ms ls fns) (hms : ms = ms') (hls : ls = ls')
    (hfns : ∀ i, fns i = fns' i) : Speaks layout s s' ms' ls' fns' := by
  have heq : fns = fns' := funext hfns
  subst hms hls heq
  exact h

theorem skip (hchunks : s₁.chunks = s.chunks) (h : Speaks layout s₁ s' ms ls fns) :
    Speaks layout s s' ms ls fns := by
  obtain ⟨own, others, hm, hrest⟩ := h
  exact ⟨own, others, hm.skip hchunks, hrest⟩

variable {x : Symbol} {l : Label} {size : Word}

theorem label (h : Lower.label s = .ok (l, s₁)) (h' : Speaks layout s₁ s' ms ls fns)
    : Speaks layout s s' ms ls fns :=
  h'.skip (by cases h; rfl)

theorem temp {t : Temp} (h : Lower.temp s = .ok (t, s₁))
    (h' : Speaks layout s₁ s' ms ls fns) : Speaks layout s s' ms ls fns :=
  h'.skip (by cases h; rfl)

theorem string {bytes : List UInt8} {e : Expr} (h : Lower.string bytes s = .ok (e, s')) :
    Speaks layout s s' [.literal bytes] e.names (fun _ => []) := by
  obtain ⟨l, rfl, hm⟩ := Mentioned.string h
  exact ⟨_, _, hm, rfl, rfl, fun _ => rfl⟩

theorem static (hx : layout.access? x = some (.global l size))
    (h : Speaks layout ⟨s.supply, s.chunks ++ [.data l size []]⟩ s' ms ls fns) :
    Speaks layout s s' ms ls fns := by
  obtain ⟨own, others, hm, hrest⟩ := h
  exact ⟨own, others, hm.static hx, hrest⟩

/-- A static variable is known by its label. -/
theorem global (hx : layout.access? x = some (.global l size)) :
    Speaks layout s s [.static x] [l] (fun _ => []) := by
  refine ⟨[(.static x, l)], [], ⟨?_, ?_, fun y m hmem => ?_, fun _ _ h => .inl h⟩, rfl, rfl,
    fun _ => rfl⟩
  · exact (List.append_nil _).symm
  · exact .of_eq (List.append_nil _).symm
  · cases List.mem_singleton.1 hmem
    exact ⟨size, hx⟩

theorem function {body : Node} {supply : Supply} {inner : List Chunk} {frame : Frame} {code : Stmt}
    (hbody : Speaks layout ⟨s.supply, []⟩ ⟨supply, inner⟩ (body.mentions layout) code.names fns)
    (hrest : Speaks layout ⟨supply, s.chunks ++ .code frame code :: inner⟩ s' [] [] fns') (n : Nat)
    : Speaks layout s s' [] [] (fun i => ⟨x, body, i⟩ :: (fns i ++ fns' (i + n))) := by
  obtain ⟨mine, others, hm, hms, hls, hfns⟩ := hbody
  obtain ⟨own', others', hm', hown, -, hfns'⟩ := hrest
  obtain rfl : own' = [] := List.map_eq_nil_iff.1 hown
  refine ⟨[], _, .function hls hm hm', rfl, rfl, fun i => ?_⟩
  rw [List.map_append, List.map_append, List.flatMap_cons, List.flatMap_append, hms, hfns i,
    hfns' (i + n)]

end Speaks

variable {types : TypeTable} {layout : Layout} {r : Reading} {o : Lowered} {s s' : LowerState}

/-- Whatever is lowered, the names in it are those of what the source mentions. -/
theorem Lowers.speaks (h : Lowers types layout r s o s') :
    Speaks layout s s' (r.mentions layout) o.names r.functions := by
  induction h with
  | number | logical | nothing | noArgument | noEffect | noDefinition => exact .refl
  | string hstring => exact .string hstring
  | aggregate _ _ _ ih | load _ _ _ ih | plus _ ih | neg _ ih | not _ ih | addr _ ih
  | call _ _ ih | dropped _ _ ih | sequence _ ih | deref _ ih | stacked _ _ _ ih => exact ih
  | @operation _ _ l _ _ _ _ _ _ hindex _ _ _ ihl ihr =>
    refine (ihl.append ihr l.literals).cast rfl rfl fun i => ?_
    simp only [Reading.functions, Node.functions]
  | assigned _ haddr ht _ _ iha ihv =>
    exact .temp haddr (.temp ht ((iha.append ihv _).cast rfl (by simp) fun _ => rfl))
  | @last _ before _ _ _ _ _ _ _ _ _ ihb ihe =>
    refine (ihb.append ihe (Node.literalsAll before)).cast ?_ ?_ fun i => ?_
    · simp
    · simp
    · simp [Reading.functions, Node.functions, Node.functionsAll]
  | zero _ _ ih | member _ ih => exact ih.cast rfl (by simp) fun _ => rfl
  | chosen _ ht hthen helse hend _ _ _ ihc iha ihb =>
    exact .temp ht (.label hthen (.label helse (.label hend
      ((ihc.append (iha.append ihb _) _).cast rfl (by simp) fun _ => rfl))))
  | withinValue _ _ ihd ihb | assign _ _ _ ihd ihb | withinEffect _ _ ihd ihb
  | withinAddress _ _ ihd ihb | byAddress _ _ _ ihd ihb | byValue _ _ _ ihd ihb
  | effects _ _ ihd ihb => exact ihd.append ihb _
  | ifThen hthen helse _ _ ihc iht =>
    exact .label hthen (.label helse ((ihc.append iht _).cast rfl (by simp) fun _ => rfl))
  | ifElse hthen helse _ hend _ _ ihc iht ihe =>
    exact .label hthen (.label helse
      ((ihc.append (.label hend (iht.append ihe _)) _).cast rfl (by simp) fun _ => rfl))
  | whileLoop hstart hbody hend _ _ ihc ihb =>
    exact .label hstart (.label hbody (.label hend
      ((ihc.append ihb _).cast rfl (by simp) fun _ => rfl)))
  | forLoop hstart hbody hend _ _ _ _ _ _ _ _ ihfirst ihl iht ihh ihb ihw ihr ihx =>
    exact .label hstart (.label hbody (.label hend ((ihfirst.append (ihl.append (iht.append
      (ihh.append (ihb.append (ihw.append (ihr.append ihx _) _) _) _) _) _) _).cast rfl (by simp)
        fun _ => rfl)))
  | global hx => exact (Speaks.global hx).cast (by simp [hx]) rfl fun _ => rfl
  | localSlot hx _ | paramSlot hx _ | reference hx _ =>
    exact Speaks.refl.cast (by simp [hx]) (by simp) fun _ => rfl
  | index _ _ ihi iha => exact (ihi.swap iha _).cast rfl (by simp) fun _ => rfl
  | static hx _ ih => exact .static hx ih
  | procedure _ _ _ _ ihb ih => exact .function ihb ih _
  | function _ _ _ _ ihb ih => exact .function (ihb.cast rfl (by simp) fun _ => rfl) ih _
  | skipped hskip _ ih =>
    refine ih.cast rfl rfl fun i => ?_
    simp only [Reading.functions, Node.functionsIn_skipped hskip]

/-- The names in the code of a program are those of what its functions mention. -/
theorem Source.Program.exists_mentioned {p : Source.Program} {supply supply' : Supply}
    {chunks : List Chunk} (h : p.lower layout supply = .ok (chunks, supply')) :
    ∃ named : List (Mention × Label),
      Mentioned layout ⟨supply, []⟩ ⟨supply', chunks⟩ [] named ∧
        named.map Prod.fst = p.mentions layout ∧ named.map Prod.snd = Chunk.names chunks := by
  obtain ⟨own, named, hm, hown, -, hfns⟩ := (Lowers.of_program h).speaks
  obtain rfl : own = [] := List.map_eq_nil_iff.1 hown
  exact ⟨named, hm, hfns 0, hm.names.symm⟩

end TreeCode
