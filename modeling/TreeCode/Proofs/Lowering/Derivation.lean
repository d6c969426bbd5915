/-
# Derivations of lowering

Lowering is a function of the source tree that may fail. `Lowers` is its graph, given
by rules: one rule for every shape of code that lowering makes, with the names drawn
and the chunks made along the way. `Lowers.of_value` and its companions say that
whatever lowering yields is derived by these rules, so that properties of lowered code
are proved by induction on the derivation and never open the functions again.
-/

import TreeCode.Lowering
import TreeCode.Proofs.Outcome
import TreeCode.Proofs.Shape

namespace TreeCode

open IR (Chunk Expr Stmt)
open Outcome (of_bindState)
open Source (Node Symbol)

theorem Lower.pure_eq_ok {α : Type} {a b : α} {s s' : LowerState}
    (h : (pure a : Lower α) s = .ok (b, s')) : b = a ∧ s' = s := by
  cases h
  exact ⟨rfl, rfl⟩

theorem Lower.of_map {α β : Type} {x : Lower α} {g : α → β} {b : β} {s s' : LowerState}
    (h : (x >>= fun a => pure (g a)) s = .ok (b, s')) : ∃ a, x s = .ok (a, s') ∧ b = g a := by
  obtain ⟨a, s₁, ha, hpure⟩ := of_bindState h
  obtain ⟨rfl, rfl⟩ := Lower.pure_eq_ok hpure
  exact ⟨a, ha, rfl⟩

open Lower (of_map pure_eq_ok)

/-- The chunks of a body follow the chunk of its function. -/
theorem Lower.function_eq_ok {frame : Frame} {body : Lower Stmt} {s s' : LowerState} {u : Unit}
    (h : Lower.function frame body s = .ok (u, s')) :
    ∃ code supply chunks, body ⟨s.supply, []⟩ = .ok (code, ⟨supply, chunks⟩) ∧
      s' = ⟨supply, s.chunks ++ .code frame code :: chunks⟩ := by
  obtain ⟨_, _, hget, h⟩ := of_bindState h
  cases hget
  obtain ⟨_, _, hset, h⟩ := of_bindState h
  cases hset
  obtain ⟨code, t, hcode, h⟩ := of_bindState h
  cases h
  exact ⟨code, t.supply, t.chunks, hcode, rfl⟩

namespace Source.Node

/-- Whether a node denotes a place in memory, apart from definitions around it. -/
def isPlace : Node → Bool
  | ident _ => true
  | member _ _ => true
  | binary .index _ _ => true
  | unary .deref _ => true
  | _ => false

/-- Whether the effect of a node is to compute its value and drop it. -/
def isDropped : Node → Bool
  | number _ => true
  | logical _ => true
  | string _ => true
  | ident _ => true
  | member _ _ => true
  | binary .assign _ _ => false
  | binary _ _ _ => true
  | unary _ _ => true
  | call _ _ => true
  | _ => false

/-- Whether a node has only an effect, so that its value is zero. -/
def isEffect (types : TypeTable) : Node → Bool
  | whileLoop _ _ => true
  | forLoop _ _ _ _ _ => true
  | branch valued _ thenArm _ => !valued || (thenArm.ty types).isVoid
  | sequence items =>
    match items.getLast? with
    | none => false
    | some last => (last.ty types).isVoid
  | _ => false

/-- Whether a node in a list of definitions may have chunks of its own. -/
def isDefinition : Node → Bool
  | varDecl _ => true
  | funDecl _ _ (some _) => true
  | _ => false

/-- The offset of a field in a node of record type. -/
def fieldOffset (types : TypeTable) (operand : Node) (field : String) : Word :=
  (((operand.ty types).field? field).getD (0, .absent)).1

end Source.Node

/-- What is lowered, and for which of its readings. -/
inductive Reading where
  | value (current : FrameRecord) (n : Node)
  | effect (current : FrameRecord) (n : Node)
  | address (current : FrameRecord) (n : Node)
  | arguments (current : FrameRecord) (ns : List Node)
  | effects (current : FrameRecord) (ns : List Node)
  | definitions (ns : List Node)

/-- What lowering yields besides names and chunks. -/
inductive Lowered where
  | expr (e : Expr)
  | stmt (s : Stmt)
  | exprs (es : List Expr)
  | stmts (ss : List Stmt)
  | nothing

/-- The address of a slot in a frame, as code of the current function. -/
def slotAddress (layout : Layout) (current : FrameRecord) (frame : Nat) (offset : Word) : Expr :=
  atOffset (linkChain (current.level - layout.frameLevel frame) (.temp Temp.fp)) offset

/-- The number of static links from the current function to the frame around a callee. -/
def hopCount (current callee : FrameRecord) : Int :=
  current.level - (callee.level - 1)

section

variable (types : TypeTable) (layout : Layout)

/-- The rules of lowering. -/
inductive Lowers : Reading → LowerState → Lowered → LowerState → Prop
  -- values
  | number {f n s} : Lowers (.value f (.number n)) s (.expr (.const n)) s
  | logical {f b s} : Lowers (.value f (.logical b)) s (.expr (.const (.ofBool b))) s
  | string {f bytes s e s'} : Lower.string bytes s = .ok (e, s') →
      Lowers (.value f (.string bytes)) s (.expr e) s'
  | aggregate {f n s a s'} : n.isPlace = true → (n.ty types).isAggregate = true →
      Lowers (.address f n) s (.expr a) s' → Lowers (.value f n) s (.expr a) s'
  | load {f n s a s'} : n.isPlace = true → (n.ty types).isAggregate = false →
      Lowers (.address f n) s (.expr a) s' → Lowers (.value f n) s (.expr (.mem a)) s'
  | operation {f op l r s x s₁ y s'} : op ≠ .index → op ≠ .assign →
      Lowers (.value f l) s (.expr x) s₁ → Lowers (.value f r) s₁ (.expr y) s' →
      Lowers (.value f (.binary op l r)) s (.expr (.binop (binaryOp op) x y)) s'
  | assigned {f target source s addr s₁ t s₂ a s₃ v s'} :
      (target.ty types).isAggregate = false →
      Lower.temp s = .ok (addr, s₁) → Lower.temp s₁ = .ok (t, s₂) →
      Lowers (.address f target) s₂ (.expr a) s₃ → Lowers (.value f source) s₃ (.expr v) s' →
      Lowers (.value f (.binary .assign target source)) s
        (.expr (.eseq (.seq [.move (.temp addr) a, .move (.temp t) v,
          .move (.mem (.temp addr)) (.temp t)]) (.temp t))) s'
  | plus {f n s x s'} : Lowers (.value f n) s (.expr x) s' →
      Lowers (.value f (.unary .plus n)) s (.expr x) s'
  | neg {f n s x s'} : Lowers (.value f n) s (.expr x) s' →
      Lowers (.value f (.unary .neg n)) s (.expr (.unop .neg x)) s'
  | not {f n s x s'} : Lowers (.value f n) s (.expr x) s' →
      Lowers (.value f (.unary .not n)) s (.expr (.unop .not x)) s'
  | addr {f n s a s'} : Lowers (.address f n) s (.expr a) s' →
      Lowers (.value f (.unary .addr n)) s (.expr a) s'
  | call {f callee args g s es s'} : layout.frameOf? callee = some g →
      Lowers (.arguments f args) s (.exprs es) s' → Lowers (.value f (.call callee args)) s
        (.expr (.call g.label (.const (Int64.ofInt (hopCount f g)) :: es))) s'
  | nothing {f s} : Lowers (.value f (.sequence [])) s (.expr (.const 0)) s
  | last {f before last s ss s₁ e s'} : (last.ty types).isVoid = false →
      Lowers (.effects f before) s (.stmts ss) s₁ → Lowers (.value f last) s₁ (.expr e) s' →
      Lowers (.value f (.sequence (before ++ [last]))) s (.expr (.eseq (.join ss) e)) s'
  | zero {f n s st s'} : n.isEffect types = true → Lowers (.effect f n) s (.stmt st) s' →
      Lowers (.value f n) s (.expr (.eseq st (.const 0))) s'
  | chosen {f valued c thenArm elseArm s t s₁ thenLabel s₂ elseLabel s₃ endLabel s₄ x s₅ a s₆
        b s'} :
      (Node.branch valued c thenArm (some elseArm)).isEffect types = false →
      Lower.temp s = .ok (t, s₁) → Lower.label s₁ = .ok (thenLabel, s₂) →
      Lower.label s₂ = .ok (elseLabel, s₃) → Lower.label s₃ = .ok (endLabel, s₄) →
      Lowers (.value f c) s₄ (.expr x) s₅ → Lowers (.value f thenArm) s₅ (.expr a) s₆ →
      Lowers (.value f elseArm) s₆ (.expr b) s' →
      Lowers (.value f (.branch valued c thenArm (some elseArm))) s
        (.expr (.eseq (.seq [.cjump x thenLabel elseLabel, .label thenLabel,
          .move (.temp t) a, .jump endLabel, .label elseLabel, .move (.temp t) b,
          .label endLabel]) (.temp t))) s'
  | withinValue {f body defs s s₁ e s'} : Lowers (.definitions defs) s .nothing s₁ →
      Lowers (.value f body) s₁ (.expr e) s' → Lowers (.value f (.within body defs)) s (.expr e) s'
  -- effects
  | dropped {f n s e s'} : n.isDropped = true → Lowers (.value f n) s (.expr e) s' →
      Lowers (.effect f n) s (.stmt (.exp e)) s'
  | assign {f target source s a s₁ v s'} : (target.ty types).isAggregate = false →
      Lowers (.address f target) s (.expr a) s₁ → Lowers (.value f source) s₁ (.expr v) s' →
      Lowers (.effect f (.binary .assign target source)) s (.stmt (.move (.mem a) v)) s'
  | ifThen {f valued c thenArm s thenLabel s₁ elseLabel s₂ x s₃ st s'} :
      Lower.label s = .ok (thenLabel, s₁) → Lower.label s₁ = .ok (elseLabel, s₂) →
      Lowers (.value f c) s₂ (.expr x) s₃ → Lowers (.effect f thenArm) s₃ (.stmt st) s' →
      Lowers (.effect f (.branch valued c thenArm none)) s
        (.stmt (.seq [.cjump x thenLabel elseLabel, .label thenLabel, st,
          .label elseLabel])) s'
  | ifElse {f valued c thenArm elseArm s thenLabel s₁ elseLabel s₂ x s₃ endLabel s₄ st s₅ st'
        s'} :
      Lower.label s = .ok (thenLabel, s₁) → Lower.label s₁ = .ok (elseLabel, s₂) →
      Lowers (.value f c) s₂ (.expr x) s₃ → Lower.label s₃ = .ok (endLabel, s₄) →
      Lowers (.effect f thenArm) s₄ (.stmt st) s₅ → Lowers (.effect f elseArm) s₅ (.stmt st') s' →
      Lowers (.effect f (.branch valued c thenArm (some elseArm))) s
        (.stmt (.seq [.cjump x thenLabel elseLabel, .label thenLabel, st, .jump endLabel,
          .label elseLabel, st', .label endLabel])) s'
  | whileLoop {f c body s startLabel s₁ bodyLabel s₂ endLabel s₃ x s₄ st s'} :
      Lower.label s = .ok (startLabel, s₁) → Lower.label s₁ = .ok (bodyLabel, s₂) →
      Lower.label s₂ = .ok (endLabel, s₃) → Lowers (.value f c) s₃ (.expr x) s₄ →
      Lowers (.effect f body) s₄ (.stmt st) s' → Lowers (.effect f (.whileLoop c body)) s
        (.stmt (.seq [.label startLabel, .cjump x bodyLabel endLabel, .label bodyLabel, st,
          .jump startLabel, .label endLabel])) s'
  | forLoop {f counter lo hi step body s startLabel s₁ bodyLabel s₂ endLabel s₃ first s₄ l s₅
        tested s₆ h s₇ st s₈ written s₉ read s₁₀ x s'} :
      Lower.label s = .ok (startLabel, s₁) → Lower.label s₁ = .ok (bodyLabel, s₂) →
      Lower.label s₂ = .ok (endLabel, s₃) → Lowers (.address f counter) s₃ (.expr first) s₄ →
      Lowers (.value f lo) s₄ (.expr l) s₅ → Lowers (.address f counter) s₅ (.expr tested) s₆ →
      Lowers (.value f hi) s₆ (.expr h) s₇ → Lowers (.effect f body) s₇ (.stmt st) s₈ →
      Lowers (.address f counter) s₈ (.expr written) s₉ →
      Lowers (.address f counter) s₉ (.expr read) s₁₀ → Lowers (.value f step) s₁₀ (.expr x) s' →
      Lowers (.effect f (.forLoop counter lo hi step body)) s
        (.stmt (.seq [.move (.mem first) l, .label startLabel,
          .cjump (.binop .lt (.mem tested) h) bodyLabel endLabel, .label bodyLabel, st,
          .move (.mem written) (.binop .add (.mem read) x), .jump startLabel,
          .label endLabel])) s'
  | sequence {f items s ss s'} : Lowers (.effects f items) s (.stmts ss) s' →
      Lowers (.effect f (.sequence items)) s (.stmt (.seq ss)) s'
  | withinEffect {f body defs s s₁ st s'} : Lowers (.definitions defs) s .nothing s₁ →
      Lowers (.effect f body) s₁ (.stmt st) s' →
      Lowers (.effect f (.within body defs)) s (.stmt st) s'
  -- addresses
  | global {f x l size s} : layout.access? x = some (.global l size) →
      Lowers (.address f (.ident x)) s (.expr (.name l)) s
  | localSlot {f x frame offset size s} :
      layout.access? x = some (.localSlot frame offset size) → layout.frameLevel frame ≤ f.level →
      Lowers (.address f (.ident x)) s (.expr (slotAddress layout f frame offset)) s
  | paramSlot {f x frame offset s} :
      layout.access? x = some (.paramSlot frame offset false) → layout.frameLevel frame ≤ f.level →
      Lowers (.address f (.ident x)) s (.expr (slotAddress layout f frame offset)) s
  | reference {f x frame offset s} :
      layout.access? x = some (.paramSlot frame offset true) → layout.frameLevel frame ≤ f.level →
      Lowers (.address f (.ident x)) s (.expr (.mem (slotAddress layout f frame offset))) s
  | member {f operand field s a s'} : Lowers (.address f operand) s (.expr a) s' →
      Lowers (.address f (.member operand field)) s
        (.expr (atOffset a (operand.fieldOffset types field))) s'
  | index {f array index s i s₁ base s'} : Lowers (.value f index) s (.expr i) s₁ →
      Lowers (.address f array) s₁ (.expr base) s' →
      Lowers (.address f (.binary .index array index)) s
        (.expr (.binop .add base (.binop .mul i (.const (types.base (array.ty types)).size)))) s'
  | deref {f n s x s'} : Lowers (.value f n) s (.expr x) s' →
      Lowers (.address f (.unary .deref n)) s (.expr x) s'
  | withinAddress {f body defs s s₁ a s'} : Lowers (.definitions defs) s .nothing s₁ →
      Lowers (.address f body) s₁ (.expr a) s' →
      Lowers (.address f (.within body defs)) s (.expr a) s'
  -- lists
  | noArgument {f s} : Lowers (.arguments f []) s (.exprs []) s
  | byAddress {f n ns s e s₁ es s'} : (n.ty types).isAggregate = true →
      Lowers (.address f n) s (.expr e) s₁ → Lowers (.arguments f ns) s₁ (.exprs es) s' →
      Lowers (.arguments f (n :: ns)) s (.exprs (e :: es)) s'
  | byValue {f n ns s e s₁ es s'} : (n.ty types).isAggregate = false →
      Lowers (.value f n) s (.expr e) s₁ → Lowers (.arguments f ns) s₁ (.exprs es) s' →
      Lowers (.arguments f (n :: ns)) s (.exprs (e :: es)) s'
  | noEffect {f s} : Lowers (.effects f []) s (.stmts []) s
  | effects {f n ns s st s₁ ss s'} : Lowers (.effect f n) s (.stmt st) s₁ →
      Lowers (.effects f ns) s₁ (.stmts ss) s' →
      Lowers (.effects f (n :: ns)) s (.stmts (st :: ss)) s'
  -- definitions
  | noDefinition {s} : Lowers (.definitions []) s .nothing s
  | static {x l size ns s s'} : layout.access? x = some (.global l size) →
      Lowers (.definitions ns) ⟨s.supply, s.chunks ++ [.data l size []]⟩ .nothing s' →
      Lowers (.definitions (.varDecl x :: ns)) s .nothing s'
  | stacked {x a ns s s'} : layout.access? x = some a → (∀ l size, a ≠ .global l size) →
      Lowers (.definitions ns) s .nothing s' →
      Lowers (.definitions (.varDecl x :: ns)) s .nothing s'
  | procedure {x params body ns g s code supply chunks s'} : layout.frameOf? x = some g →
      x.ty.isVoid = true → Lowers (.effect g body) ⟨s.supply, []⟩ (.stmt code) ⟨supply, chunks⟩ →
      Lowers (.definitions ns)
        ⟨supply, s.chunks ++ .code g.frame code :: chunks⟩ .nothing s' →
      Lowers (.definitions (.funDecl x params (some body) :: ns)) s .nothing s'
  | function {x params body ns g s e supply chunks s'} : layout.frameOf? x = some g →
      x.ty.isVoid = false → Lowers (.value g body) ⟨s.supply, []⟩ (.expr e) ⟨supply, chunks⟩ →
      Lowers (.definitions ns)
        ⟨supply, s.chunks ++ .code g.frame (.move (.temp Temp.rv) e) :: chunks⟩ .nothing s' →
      Lowers (.definitions (.funDecl x params (some body) :: ns)) s .nothing s'
  | skipped {n ns s s'} : n.isDefinition = false → Lowers (.definitions ns) s .nothing s' →
      Lowers (.definitions (n :: ns)) s .nothing s'

mutual

/-- The type of a node can be read off the node. -/
theorem lower_ty (f : FrameRecord) : ∀ n : Node, (n.lower types layout f).ty = n.ty types
  | .number _ | .logical _ | .string _ | .ident _ => rfl
  | .member operand field => by
    simp only [Node.lower, Node.ty, Lowering.ofAddress, lower_ty f operand]
    cases (operand.ty types).field? field <;> rfl
  | .binary op n _ | .unary op n => by
    simp only [Node.lower, Node.ty, lower_ty f n]
    cases op <;> rfl
  | .call _ _ => rfl
  | .sequence items => lowerAll_ty f items .void
  | .within body _ => lower_ty f body
  | .branch valued _ thenArm none | .branch valued _ thenArm (some _) => by
    simp only [Node.lower, Node.ty, Lowering.branch, Lowering.ofEffect, lower_ty f thenArm]
  | .whileLoop _ _ | .forLoop _ _ _ _ _ | .funDecl _ _ _ | .varDecl _ | .parDecl _ | .typeDecl _ =>
    rfl

theorem lowerAll_ty (f : FrameRecord) : ∀ (ns : List Node) (default : Ty),
    ((Node.lowerAll types layout f ns).getLast?.map (·.ty)).getD default =
      Node.lastTy types default ns
  | [], _ => rfl
  | [n], _ => lower_ty f n
  | n :: m :: rest, default => by
    have h := lowerAll_ty f (m :: rest) (n.ty types)
    rw [Node.lastTy, ← h]
    simp only [Node.lowerAll, List.getLast?_cons, Option.map_some, Option.getD_some]

end

variable {types layout}

/-- Everything that lowering yields for a node is derived by the rules. -/
structure Derived (types : TypeTable) (layout : Layout) (f : FrameRecord) (n : Node) :
    Prop where
  value : ∀ {s e s'}, (n.lower types layout f).value s = .ok (e, s') →
    Lowers types layout (.value f n) s (.expr e) s'
  effect : ∀ {s st s'}, (n.lower types layout f).effect s = .ok (st, s') →
    Lowers types layout (.effect f n) s (.stmt st) s'
  address : ∀ {s a s'}, (n.lower types layout f).address s = .ok (a, s') →
    Lowers types layout (.address f n) s (.expr a) s'

namespace Derived

variable {f : FrameRecord} {n : Node} {kind : Source.Kind} {ty : Ty}

theorem ofValue {value : Lower Expr} (hn : n.lower types layout f = .ofValue kind ty value)
    (hdropped : n.isDropped = true)
    (h : ∀ {s e s'}, value s = .ok (e, s') → Lowers types layout (.value f n) s (.expr e) s') :
    Derived types layout f n where
  value heq := h (by rwa [hn] at heq)
  effect heq := by
    rw [hn] at heq
    obtain ⟨e, he, rfl⟩ := of_map heq
    exact .dropped hdropped (h he)
  address heq := by
    rw [hn] at heq
    cases heq

theorem ofAddress {address : Lower Expr} (hn : n.lower types layout f = .ofAddress ty address)
    (hplace : n.isPlace = true) (hdropped : n.isDropped = true)
    (h : ∀ {s a s'}, address s = .ok (a, s') → Lowers types layout (.address f n) s (.expr a) s') :
    Derived types layout f n := by
  have hty : ty = n.ty types := by rw [← lower_ty types layout f n, hn]; rfl
  have hload : ∀ {s e s'}, Lowering.load ty address s = .ok (e, s') →
      Lowers types layout (.value f n) s (.expr e) s' := by
    intro s e s' heq
    obtain ⟨a, ha, rfl⟩ := of_map heq
    by_cases hagg : ty.isAggregate = true
    · rw [if_pos hagg]
      exact .aggregate hplace (hty ▸ hagg) (h ha)
    · rw [if_neg hagg]
      exact .load hplace (by rw [← hty]; exact Bool.not_eq_true _ ▸ hagg) (h ha)
  constructor
  · intro s e s' heq
    exact hload (by rwa [hn] at heq)
  · intro s st s' heq
    rw [hn] at heq
    obtain ⟨e, he, rfl⟩ := of_map heq
    exact .dropped hdropped (hload he)
  · intro s a s' heq
    exact h (by rwa [hn] at heq)

theorem ofEffect {effect : Lower Stmt} (hn : n.lower types layout f = .ofEffect kind ty effect)
    (heffect : n.isEffect types = true)
    (h : ∀ {s st s'}, effect s = .ok (st, s') → Lowers types layout (.effect f n) s (.stmt st) s') :
    Derived types layout f n where
  value heq := by
    rw [hn] at heq
    obtain ⟨st, hst, rfl⟩ := of_map heq
    exact .zero heffect (h hst)
  effect heq := h (by rwa [hn] at heq)
  address heq := by
    rw [hn] at heq
    cases heq

/-- Declarations have no reading. -/
theorem ofDecl (hn : n.lower types layout f = .ofDecl kind ty) : Derived types layout f n where
  value heq := by
    rw [hn] at heq
    cases heq
  effect heq := by
    rw [hn] at heq
    obtain ⟨e, s₁, he, -⟩ := of_bindState heq
    cases he
  address heq := by
    rw [hn] at heq
    cases heq

variable {valued : Bool} (op : Source.Op) {ns : List Node} {c body thenArm : Node}

theorem within {defs : List Node} (hbody : Derived types layout f body)
    (hdefs : ∀ {s u s'}, Node.lowerDefs types layout defs s = .ok (u, s') →
      Lowers types layout (.definitions defs) s .nothing s') :
    Derived types layout f (.within body defs) where
  value heq := by
    obtain ⟨u, s₁, hu, hvalue⟩ := of_bindState heq
    exact .withinValue (hdefs hu) (hbody.value hvalue)
  effect heq := by
    obtain ⟨u, s₁, hu, heffect⟩ := of_bindState heq
    exact .withinEffect (hdefs hu) (hbody.effect heffect)
  address heq := by
    obtain ⟨u, s₁, hu, haddress⟩ := of_bindState heq
    exact .withinAddress (hdefs hu) (hbody.address haddress)

theorem ident (x : Symbol) : Derived types layout f (.ident x) := by
  refine ofAddress rfl rfl rfl fun {s a s'} heq => ?_
  unfold symbolAddress at heq
  have hframe : ∀ {frame : Nat} {e : Expr} {s₁ : LowerState},
      frameAddress f (layout.frameLevel frame) s = .ok (e, s₁) →
      layout.frameLevel frame ≤ f.level ∧
        e = linkChain (f.level - layout.frameLevel frame) (.temp Temp.fp) ∧ s₁ = s := by
    intro frame e s₁ h
    unfold frameAddress at h
    split at h
    · cases h
    next hle =>
      obtain ⟨rfl, rfl⟩ := pure_eq_ok h
      exact ⟨by omega, rfl, rfl⟩
  cases hx : layout.access? x with
  | none =>
    simp only [hx] at heq
    cases heq
  | some access =>
    cases access with
    | global l size =>
      simp only [hx] at heq
      obtain ⟨rfl, rfl⟩ := pure_eq_ok heq
      exact .global hx
    | localSlot frame offset size =>
      simp only [hx] at heq
      obtain ⟨e, he, rfl⟩ := of_map heq
      obtain ⟨hle, rfl, rfl⟩ := hframe he
      exact .localSlot hx hle
    | paramSlot frame offset byRef =>
      simp only [hx] at heq
      obtain ⟨e, he, rfl⟩ := of_map heq
      obtain ⟨hle, rfl, rfl⟩ := hframe he
      cases byRef with
      | false => exact .paramSlot hx hle
      | true => exact .reference hx hle

theorem member {operand : Node} (h : Derived types layout f operand) (field : String) :
    Derived types layout f (.member operand field) := by
  refine ofAddress rfl rfl rfl fun {s a s'} heq => ?_
  obtain ⟨e, he, rfl⟩ := of_map heq
  rw [lower_ty]
  exact .member (h.address he)

theorem checkAssignable {target : Node} {s s' : LowerState} {u : Unit}
    (h : Lowering.checkAssignable types (target.lower types layout f) s = .ok (u, s')) :
    (target.ty types).isAggregate = false ∧ s' = s := by
  unfold Lowering.checkAssignable at h
  rw [lower_ty] at h
  split at h
  · cases h
  next hagg =>
    obtain ⟨-, rfl⟩ := pure_eq_ok h
    exact ⟨Bool.not_eq_true _ ▸ hagg, rfl⟩

theorem binary {l r : Node} (hl : Derived types layout f l) (hr : Derived types layout f r)
    : Derived types layout f (.binary op l r) := by
  by_cases hindex : op = .index
  · subst hindex
    refine ofAddress rfl rfl rfl fun {s a s'} heq => ?_
    obtain ⟨i, s₁, hi, heq⟩ := of_bindState heq
    obtain ⟨base, hbase, rfl⟩ := of_map heq
    simp only [Node.binaryTy, lower_ty]
    exact .index (hr.value hi) (hl.address hbase)
  by_cases hassign : op = .assign
  · subst hassign
    refine ⟨fun {s e s'} heq => ?_, fun {s st s'} heq => ?_, fun {s a s'} heq => by cases heq⟩
    · obtain ⟨_, _, hcheck, hrest⟩ := of_bindState heq
      obtain ⟨hagg, rfl⟩ := checkAssignable hcheck
      obtain ⟨addr, s₁, haddr, heq⟩ := of_bindState hrest
      obtain ⟨t, s₂, ht, heq⟩ := of_bindState heq
      obtain ⟨a, s₃, ha, heq⟩ := of_bindState heq
      obtain ⟨v, hv, rfl⟩ := of_map heq
      exact .assigned hagg haddr ht (hl.address ha) (hr.value hv)
    · obtain ⟨_, _, hcheck, hrest⟩ := of_bindState heq
      obtain ⟨hagg, rfl⟩ := checkAssignable hcheck
      obtain ⟨a, s₁, ha, heq⟩ := of_bindState hrest
      obtain ⟨v, hv, rfl⟩ := of_map heq
      exact .assign hagg (hl.address ha) (hr.value hv)
  have hlower : (Node.binary op l r).lower types layout f =
      .ofValue .binaryOp (Node.binaryTy types op (l.lower types layout f).ty) (do
        let x ← (l.lower types layout f).value
        return .binop (binaryOp op) x (← (r.lower types layout f).value)) := by
    cases op <;> first | rfl | exact absurd rfl hindex | exact absurd rfl hassign
  have hdropped : (Node.binary op l r).isDropped = true := by
    cases op <;> first | rfl | exact absurd rfl hassign
  refine ofValue hlower hdropped fun {s e s'} heq => ?_
  obtain ⟨x, s₁, hx, heq⟩ := of_bindState heq
  obtain ⟨y, hy, rfl⟩ := of_map heq
  exact .operation hindex hassign (hl.value hx) (hr.value hy)

theorem unary {n : Node} (h : Derived types layout f n) : Derived types layout f (.unary op n) := by
  cases op with
  | plus => exact ofValue rfl rfl fun heq => .plus (h.value heq)
  | neg =>
    refine ofValue rfl rfl fun {s e s'} heq => ?_
    obtain ⟨x, hx, rfl⟩ := of_map heq
    exact .neg (h.value hx)
  | not =>
    refine ofValue rfl rfl fun {s e s'} heq => ?_
    obtain ⟨x, hx, rfl⟩ := of_map heq
    exact .not (h.value hx)
  | addr => exact ofValue rfl rfl fun heq => .addr (h.address heq)
  | deref => exact ofAddress rfl rfl rfl fun heq => .deref (h.value heq)
  | _ => exact ofValue rfl rfl fun heq => by cases heq

theorem lowerAll_eq_map (ns : List Node) :
    Node.lowerAll types layout f ns = ns.map (·.lower types layout f) := by
  induction ns with
  | nil => rfl
  | cons n ns ih => rw [Node.lowerAll, ih, List.map_cons]

theorem arguments (h : ∀ n ∈ ns, Derived types layout f n) :
    ∀ {s es s'}, (Node.lowerAll types layout f ns).mapM Lowering.argument s = .ok (es, s') →
      Lowers types layout (.arguments f ns) s (.exprs es) s' := by
  induction ns with
  | nil =>
    intro s es s' heq
    obtain ⟨rfl, rfl⟩ := pure_eq_ok heq
    exact .noArgument
  | cons n ns ih =>
    intro s es s' heq
    rw [Node.lowerAll, List.mapM_cons] at heq
    obtain ⟨e, s₁, he, heq⟩ := of_bindState heq
    obtain ⟨es, hes, rfl⟩ := of_map heq
    have hrest := ih (fun m hm => h m (.tail _ hm)) hes
    unfold Lowering.argument at he
    rw [lower_ty] at he
    by_cases hagg : (n.ty types).isAggregate = true
    · rw [if_pos hagg] at he
      exact .byAddress hagg ((h n (.head _)).address he) hrest
    · rw [if_neg hagg] at he
      exact .byValue (Bool.not_eq_true _ ▸ hagg) ((h n (.head _)).value he) hrest

theorem effects (h : ∀ n ∈ ns, Derived types layout f n) :
    ∀ {s ss s'}, Lowering.effects (ns.map (·.lower types layout f)) s = .ok (ss, s') →
      Lowers types layout (.effects f ns) s (.stmts ss) s' := by
  induction ns with
  | nil =>
    intro s ss s' heq
    obtain ⟨rfl, rfl⟩ := pure_eq_ok heq
    exact .noEffect
  | cons n ns ih =>
    intro s ss s' heq
    rw [Lowering.effects, List.map_cons, List.mapM_cons] at heq
    obtain ⟨st, s₁, hst, heq⟩ := of_bindState heq
    obtain ⟨ss, hss, rfl⟩ := of_map heq
    exact .effects ((h n (.head _)).effect hst) (ih (fun m hm => h m (.tail _ hm)) hss)

theorem call {callee : Symbol} {args : List Node} (h : ∀ n ∈ args, Derived types layout f n) :
    Derived types layout f (.call callee args) := by
  refine ofValue rfl rfl fun {s e s'} heq => ?_
  unfold Lowering.call at heq
  cases hg : layout.frameOf? callee with
  | none =>
    simp only [hg] at heq
    cases heq
  | some g =>
    simp only [hg] at heq
    obtain ⟨es, hes, rfl⟩ := of_map heq
    exact .call hg (arguments h hes)

theorem sequence {items : List Node} (h : ∀ n ∈ items, Derived types layout f n) :
    Derived types layout f (.sequence items) := by
  have heffect : ∀ {s st s'},
      ((Node.sequence items).lower types layout f).effect s = .ok (st, s') →
      Lowers types layout (.effect f (.sequence items)) s (.stmt st) s' := by
    intro s st s' heq
    obtain ⟨ss, hss, rfl⟩ := of_map heq
    rw [lowerAll_eq_map] at hss
    exact .sequence (effects h hss)
  refine ⟨fun {s e s'} heq => ?_, heffect, fun {s a s'} heq => by cases heq⟩
  rcases List.eq_nil_or_concat items with rfl | ⟨before, last, rfl⟩
  · obtain ⟨rfl, rfl⟩ := pure_eq_ok heq
    exact .nothing
  rw [List.concat_eq_append] at *
  have hlast : (Node.lowerAll types layout f (before ++ [last])).getLast? =
      some (last.lower types layout f) := by
    rw [lowerAll_eq_map, List.map_append, List.map_singleton, List.getLast?_concat]
  simp only [Node.lower, Lowering.sequence, hlast] at heq
  rw [lower_ty] at heq
  by_cases hvoid : (last.ty types).isVoid = true
  · rw [if_pos hvoid] at heq
    obtain ⟨st, hst, rfl⟩ := of_map heq
    refine .zero ?_ (heffect hst)
    rw [Node.isEffect, List.getLast?_concat]
    exact hvoid
  · rw [if_neg hvoid] at heq
    obtain ⟨ss, s₁, hss, heq⟩ := of_bindState heq
    obtain ⟨e, he, rfl⟩ := of_map heq
    rw [lowerAll_eq_map, List.map_append, List.map_singleton, List.dropLast_concat] at hss
    refine .last (Bool.not_eq_true _ ▸ hvoid)
      (effects (fun n hn => h n (List.mem_append_left _ hn)) hss)
      ((h last (List.mem_append_right _ (.head _))).value he)

theorem isVoid_branchTy {t : Node} {e : Option Node} :
    (if valued then t.ty types else .void).isVoid =
      (Node.branch valued c t e).isEffect types := by
  cases valued <;> rfl

theorem ifThen (hc : Derived types layout f c) (ht : Derived types layout f thenArm) :
    Derived types layout f (.branch valued c thenArm none) := by
  have heffect : ∀ {s st s'},
      ((Node.branch valued c thenArm none).lower types layout f).effect s = .ok (st, s') →
      Lowers types layout (.effect f (.branch valued c thenArm none)) s (.stmt st) s' := by
    intro s st s' heq
    obtain ⟨thenLabel, s₁, h₁, heq⟩ := of_bindState heq
    obtain ⟨elseLabel, s₂, h₂, heq⟩ := of_bindState heq
    obtain ⟨x, s₃, hx, heq⟩ := of_bindState heq
    obtain ⟨st, hst, rfl⟩ := of_map heq
    exact .ifThen h₁ h₂ (hc.value hx) (ht.effect hst)
  refine ⟨fun {s e s'} heq => ?_, heffect, fun {s a s'} heq => by cases heq⟩
  simp only [Node.lower, Lowering.branch, lower_ty] at heq
  rw [isVoid_branchTy (c := c) (e := none)] at heq
  by_cases hvoid : (Node.branch valued c thenArm none).isEffect types = true
  · rw [if_pos hvoid] at heq
    obtain ⟨st, hst, rfl⟩ := of_map heq
    exact .zero hvoid (heffect hst)
  · rw [if_neg hvoid] at heq
    cases heq

theorem ifElse {elseArm : Node} (hc : Derived types layout f c)
    (ht : Derived types layout f thenArm) (he : Derived types layout f elseArm) :
    Derived types layout f (.branch valued c thenArm (some elseArm)) := by
  have heffect : ∀ {s st s'},
      ((Node.branch valued c thenArm (some elseArm)).lower types layout f).effect s =
        .ok (st, s') →
      Lowers types layout (.effect f (.branch valued c thenArm (some elseArm))) s
        (.stmt st) s' := by
    intro s st s' heq
    obtain ⟨thenLabel, s₁, h₁, heq⟩ := of_bindState heq
    obtain ⟨elseLabel, s₂, h₂, heq⟩ := of_bindState heq
    obtain ⟨x, s₃, hx, heq⟩ := of_bindState heq
    obtain ⟨endLabel, s₄, h₃, heq⟩ := of_bindState heq
    obtain ⟨st, s₅, hst, heq⟩ := of_bindState heq
    obtain ⟨st', hst', rfl⟩ := of_map heq
    exact .ifElse h₁ h₂ (hc.value hx) h₃ (ht.effect hst) (he.effect hst')
  refine ⟨fun {s e s'} heq => ?_, heffect, fun {s a s'} heq => by cases heq⟩
  simp only [Node.lower, Lowering.branch, lower_ty] at heq
  rw [isVoid_branchTy (c := c) (e := some elseArm)] at heq
  by_cases hvoid : (Node.branch valued c thenArm (some elseArm)).isEffect types = true
  · rw [if_pos hvoid] at heq
    obtain ⟨st, hst, rfl⟩ := of_map heq
    exact .zero hvoid (heffect hst)
  · rw [if_neg hvoid] at heq
    obtain ⟨t, s₁, h₁, heq⟩ := of_bindState heq
    obtain ⟨thenLabel, s₂, h₂, heq⟩ := of_bindState heq
    obtain ⟨elseLabel, s₃, h₃, heq⟩ := of_bindState heq
    obtain ⟨endLabel, s₄, h₄, heq⟩ := of_bindState heq
    obtain ⟨x, s₅, hx, heq⟩ := of_bindState heq
    obtain ⟨a, s₆, ha, heq⟩ := of_bindState heq
    obtain ⟨b, hb, rfl⟩ := of_map heq
    exact .chosen (Bool.not_eq_true _ ▸ hvoid) h₁ h₂ h₃ h₄ (hc.value hx) (ht.value ha)
      (he.value hb)

theorem whileLoop (hc : Derived types layout f c) (hbody : Derived types layout f body)
    : Derived types layout f (.whileLoop c body) := by
  refine ofEffect rfl rfl fun {s st s'} heq => ?_
  obtain ⟨startLabel, s₁, h₁, heq⟩ := of_bindState heq
  obtain ⟨bodyLabel, s₂, h₂, heq⟩ := of_bindState heq
  obtain ⟨endLabel, s₃, h₃, heq⟩ := of_bindState heq
  obtain ⟨x, s₄, hx, heq⟩ := of_bindState heq
  obtain ⟨st, hst, rfl⟩ := of_map heq
  exact .whileLoop h₁ h₂ h₃ (hc.value hx) (hbody.effect hst)

theorem forLoop {counter lo hi step : Node} (hcounter : Derived types layout f counter)
    (hlo : Derived types layout f lo) (hhi : Derived types layout f hi)
    (hstep : Derived types layout f step) (hbody : Derived types layout f body) :
    Derived types layout f (.forLoop counter lo hi step body) := by
  refine ofEffect rfl rfl fun {s st s'} heq => ?_
  obtain ⟨startLabel, s₁, h₁, heq⟩ := of_bindState heq
  obtain ⟨bodyLabel, s₂, h₂, heq⟩ := of_bindState heq
  obtain ⟨endLabel, s₃, h₃, heq⟩ := of_bindState heq
  obtain ⟨first, s₄, h₄, heq⟩ := of_bindState heq
  obtain ⟨l, s₅, h₅, heq⟩ := of_bindState heq
  obtain ⟨tested, s₆, h₆, heq⟩ := of_bindState heq
  obtain ⟨h, s₇, h₇, heq⟩ := of_bindState heq
  obtain ⟨st, s₈, h₈, heq⟩ := of_bindState heq
  obtain ⟨written, s₉, h₉, heq⟩ := of_bindState heq
  obtain ⟨read, s₁₀, h₁₀, heq⟩ := of_bindState heq
  obtain ⟨x, h₁₁, rfl⟩ := of_map heq
  exact .forLoop h₁ h₂ h₃ (hcounter.address h₄) (hlo.value h₅) (hcounter.address h₆)
    (hhi.value h₇) (hbody.effect h₈) (hcounter.address h₉) (hcounter.address h₁₀)
    (hstep.value h₁₁)

end Derived

variable {x : Symbol} {ns : List Node} {s s' : LowerState} {u : Unit}

theorem Lowers.of_function {params : List Symbol} {body : Node}
    (hbody : ∀ g, Derived types layout g body)
    (hns : ∀ {s u s'}, Node.lowerDefs types layout ns s = .ok (u, s') →
      Lowers types layout (.definitions ns) s .nothing s')
    (h : Node.lowerDefs types layout (.funDecl x params (some body) :: ns) s = .ok (u, s')) :
    Lowers types layout (.definitions (.funDecl x params (some body) :: ns)) s .nothing s' := by
  rw [Node.lowerDefs] at h
  cases hg : layout.frameOf? x with
  | none =>
    simp only [hg] at h
    cases h
  | some g =>
    simp only [hg] at h
    obtain ⟨_, s₁, hfun, hrest⟩ := of_bindState h
    obtain ⟨code, supply, chunks, hcode, rfl⟩ := Lower.function_eq_ok hfun
    by_cases hvoid : x.ty.isVoid = true
    · rw [if_pos hvoid] at hcode
      exact .procedure hg hvoid ((hbody g).effect hcode) (hns hrest)
    · rw [if_neg hvoid] at hcode
      obtain ⟨e, he, rfl⟩ := of_map hcode
      exact .function hg (Bool.not_eq_true _ ▸ hvoid) ((hbody g).value he) (hns hrest)

theorem Lowers.of_variable (hns : ∀ {s u s'}, Node.lowerDefs types layout ns s = .ok (u, s') →
      Lowers types layout (.definitions ns) s .nothing s')
    (h : Node.lowerDefs types layout (.varDecl x :: ns) s = .ok (u, s')) :
    Lowers types layout (.definitions (.varDecl x :: ns)) s .nothing s' := by
  rw [Node.lowerDefs] at h
  cases hx : layout.access? x with
  | none =>
    simp only [hx] at h
    cases h
  | some a =>
    cases a with
    | global l size =>
      simp only [hx] at h
      obtain ⟨_, s₁, hemit, hrest⟩ := of_bindState h
      cases hemit
      exact .static hx (hns hrest)
    | localSlot _ _ _ | paramSlot _ _ _ =>
      simp only [hx] at h
      exact .stacked hx (fun _ _ h => by cases h) (hns h)

/-- Definitions other than variables and functions with a body make no chunks. -/
theorem lowerDefs_of_not_definition {n : Node} (h : n.isDefinition = false) (ns : List Node) :
    Node.lowerDefs types layout (n :: ns) = Node.lowerDefs types layout ns := by
  cases n with
  | varDecl _ => cases h
  | funDecl _ _ body =>
    cases body with
    | none => rfl
    | some _ => cases h
  | _ => rfl

theorem Lowers.of_definitions
    (h : ∀ x params body, .funDecl x params (some body) ∈ ns → ∀ g, Derived types layout g body) :
    ∀ {s u s'}, Node.lowerDefs types layout ns s = .ok (u, s') →
      Lowers types layout (.definitions ns) s .nothing s' := by
  induction ns with
  | nil =>
    intro s u s' heq
    obtain ⟨-, rfl⟩ := pure_eq_ok heq
    exact .noDefinition
  | cons n ns ih =>
    intro s u s' heq
    have hns : ∀ {s u s'}, Node.lowerDefs types layout ns s = .ok (u, s') →
        Lowers types layout (.definitions ns) s .nothing s' :=
      ih fun x params body hmem => h x params body (.tail _ hmem)
    cases hn : n.isDefinition with
    | false => exact .skipped hn (hns (lowerDefs_of_not_definition hn ns ▸ heq))
    | true =>
      cases n with
      | varDecl x => exact .of_variable hns heq
      | funDecl x params body =>
        cases body with
        | none => cases hn
        | some body => exact .of_function (h x params body (.head _)) hns heq
      | _ => cases hn

theorem hereditary_derived : Node.Hereditary fun n => ∀ f, Derived types layout f n := by
  intro n hchildren hbodies f
  have h := fun m hm => hchildren m hm f
  cases n with
  | number _ =>
    refine .ofValue rfl rfl fun heq => ?_
    obtain ⟨rfl, rfl⟩ := pure_eq_ok heq
    exact .number
  | logical _ =>
    refine .ofValue rfl rfl fun heq => ?_
    obtain ⟨rfl, rfl⟩ := pure_eq_ok heq
    exact .logical
  | string _ => exact .ofValue rfl rfl fun heq => .string heq
  | ident x => exact .ident x
  | member _ field => exact .member (h _ (by simp)) field
  | binary op _ _ => exact .binary op (h _ (by simp)) (h _ (by simp))
  | unary op _ => exact .unary op (h _ (by simp))
  | call _ _ => exact .call h
  | sequence _ => exact .sequence h
  | within _ _ => exact .within (h _ (by simp)) (.of_definitions hbodies)
  | branch _ _ _ elseArm =>
    cases elseArm with
    | none => exact .ifThen (h _ (by simp)) (h _ (by simp))
    | some _ => exact .ifElse (h _ (by simp)) (h _ (by simp)) (h _ (by simp))
  | whileLoop _ _ => exact .whileLoop (h _ (by simp)) (h _ (by simp))
  | forLoop _ _ _ _ _ =>
    exact .forLoop (h _ (by simp)) (h _ (by simp)) (h _ (by simp)) (h _ (by simp)) (h _ (by simp))
  | funDecl _ _ _ | varDecl _ | parDecl _ | typeDecl _ => exact .ofDecl rfl

/-- Everything that lowering yields is derived by the rules. -/
theorem derived (f : FrameRecord) (n : Node) : Derived types layout f n :=
  Node.inductOn hereditary_derived n f

/-- The chunks of a program have a derivation. -/
theorem Lowers.of_program {p : Source.Program} {layout : Layout} {supply supply' : Supply}
    {chunks : List Chunk} (h : p.lower layout supply = .ok (chunks, supply')) :
    Lowers p.types layout (.definitions p.defs) ⟨supply, []⟩ .nothing ⟨supply', chunks⟩ := by
  unfold Source.Program.lower at h
  cases hdefs : Node.lowerDefs p.types layout p.defs ⟨supply, []⟩ with
  | error e =>
    rw [hdefs] at h
    cases h
  | ok r =>
    rw [hdefs] at h
    cases h
    exact .of_definitions (fun _ _ body _ g => derived g body) hdefs

end

end TreeCode
