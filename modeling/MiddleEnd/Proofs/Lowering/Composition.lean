import MiddleEnd.Lowering.Unit
import MiddleEnd.Proofs.IR.Listing
import MiddleEnd.Proofs.Lowering.Expr
import MiddleEnd.Proofs.Syntax.Built

/-!
# What lowering is put together from

Lowering is written with a few primitive actions. A property that all of these have, and that actions one after
the other keep, is a property of lowering. This module has the induction, once for all such properties.

A property may hold of everything that is lowered, also where the unit refers to something that it does not
have, or only of what exists in a well-formed unit. Which it is says the domain of the property.

## Main definitions

* `SourceUnit.Domain`: the expressions, statements and names that a property is asked about.
* `LowerM.Sequential`: the property holds of looking things up and of registers, and actions one after the other
  keep it.
* `LowerM.Branching`: it also holds of making blocks and of going from one to another.
* `LowerM.ExprCompositional`: it also holds of instructions that go straight on, and logical operators keep it.
* `LowerM.StmtCompositional`: it is both. Blocks may have to satisfy something to be gone on in.
* `LowerM.Compositional`: it holds of all primitive actions, phis among them, and of all blocks.

## Main statements

* `LowerM.ExprCompositional.holds_lowerExpr`: the property holds of lowering an expression.
* `LowerM.StmtCompositional.holds_lowerAssertion` and the lemmas next to it: of the forms of statements.
* `LowerM.Compositional.stmt`: what holds of all primitive actions is kept by logical operators.
* `LowerM.Compositional.holds_lowerStmtWithin`, `LowerM.Compositional.holds_lowerBody`: so it holds of lowering
  any statement, and a body.
-/

namespace MiddleEnd

open LowerM

-- ════════════════════════════════════════════════════════════════════════
-- Domains
-- ════════════════════════════════════════════════════════════════════════

/-- The expressions, statements and names that a property of lowering is asked about. An expression or a
statement is asked about together with a bound on how deep it is nested. -/
structure SourceUnit.Domain (unit : SourceUnit) where
  expr : Nat → ExprId → Prop
  stmt : Nat → StmtId → Prop
  name : Name → Prop
  /-- Whether something that is looked up may be missing. -/
  gaps : Prop
  expr_zero {id : ExprId} : expr 0 id → gaps
  expr_le {depth depth' : Nat} {id : ExprId} : expr depth id → depth ≤ depth' → expr depth' id
  expr_error {depth : Nat} {id : ExprId} {fault : Fault} : expr depth id → unit.expr id = .error fault → gaps
  expr_parts {depth : Nat} {id : ExprId} {node : Expr} : expr depth id → unit.expr id = .ok node →
    ∀ part ∈ node.kind.parts, expr (depth - 1) part
  expr_names {depth : Nat} {id : ExprId} {node : Expr} : expr depth id → unit.expr id = .ok node →
    ∀ n ∈ node.kind.name?, name n
  stmt_zero {id : StmtId} : stmt 0 id → gaps
  stmt_le {depth depth' : Nat} {id : StmtId} : stmt depth id → depth ≤ depth' → stmt depth' id
  stmt_error {depth : Nat} {id : StmtId} {fault : Fault} : stmt depth id → unit.stmt id = .error fault → gaps
  stmt_parts {depth : Nat} {id : StmtId} {node : Stmt} : stmt depth id → unit.stmt id = .ok node →
    ∀ part ∈ node.kind.parts, stmt (depth - 1) part
  stmt_exprs {depth : Nat} {id : StmtId} {node : Stmt} : stmt depth id → unit.stmt id = .ok node →
    ∀ part ∈ node.kind.exprs, expr (unit.exprs.size + 1) part
  stmt_names {depth : Nat} {id : StmtId} {node : Stmt} : stmt depth id → unit.stmt id = .ok node →
    ∀ n ∈ node.kind.name?, name n
  name_error {n : Name} {fault : Fault} : name n → unit.names.name n = .error fault → gaps

namespace SourceUnit

/-- Everything, whether it exists or not. -/
def Domain.all (unit : SourceUnit) : unit.Domain where
  expr _ _ := True
  stmt _ _ := True
  name _ := True
  gaps := True
  expr_zero _ := trivial
  expr_le _ _ := trivial
  expr_error _ _ := trivial
  expr_parts _ _ _ _ := trivial
  expr_names _ _ _ _ := trivial
  stmt_zero _ := trivial
  stmt_le _ _ := trivial
  stmt_error _ _ := trivial
  stmt_parts _ _ _ _ := trivial
  stmt_exprs _ _ _ _ := trivial
  stmt_names _ _ _ _ := trivial
  name_error _ _ := trivial

/-- What exists in a well-formed unit, where parts come before what they are parts of. -/
def WellFormed.domain {unit : SourceUnit} (h : unit.WellFormed) : unit.Domain where
  expr depth id := id < depth ∧ id < unit.exprs.size
  stmt depth id := id < depth ∧ id < unit.stmts.size
  name n := n < unit.names.size
  gaps := False
  expr_zero hid := Nat.not_lt_zero _ hid.1
  expr_le hid hle := ⟨Nat.lt_of_lt_of_le hid.1 hle, hid.2⟩
  expr_error hid herror := by
    rw [SourceUnit.expr, Array.getElem?_eq_getElem hid.2, require_some] at herror
    cases herror
  expr_parts hid hnode part hpart := by
    have hlt := (h.exprs _ _ (require_eq_ok_iff.mp hnode)).1 part hpart
    exact ⟨Nat.lt_of_lt_of_le hlt (Nat.le_sub_one_of_lt hid.1), Nat.lt_trans hlt hid.2⟩
  expr_names _ hnode := (h.exprs _ _ (require_eq_ok_iff.mp hnode)).2.2
  stmt_zero hid := Nat.not_lt_zero _ hid.1
  stmt_le hid hle := ⟨Nat.lt_of_lt_of_le hid.1 hle, hid.2⟩
  stmt_error hid herror := by
    rw [SourceUnit.stmt, Array.getElem?_eq_getElem hid.2, require_some] at herror
    cases herror
  stmt_parts hid hnode part hpart := by
    have hlt := (h.stmts _ _ (require_eq_ok_iff.mp hnode)).1 part hpart
    exact ⟨Nat.lt_of_lt_of_le hlt (Nat.le_sub_one_of_lt hid.1), Nat.lt_trans hlt hid.2⟩
  stmt_exprs _ hnode part hpart := by
    have hlt := (h.stmts _ _ (require_eq_ok_iff.mp hnode)).2.1 part hpart
    exact ⟨Nat.lt_succ_of_lt hlt, hlt⟩
  stmt_names _ hnode := (h.stmts _ _ (require_eq_ok_iff.mp hnode)).2.2
  name_error hn herror := by
    obtain ⟨text, htext⟩ := Interner.succeeds_name hn
    cases htext.symm.trans herror

end SourceUnit

-- ════════════════════════════════════════════════════════════════════════
-- Properties
-- ════════════════════════════════════════════════════════════════════════

/-- The property `P` of actions and their answers holds of looking things up and of registers, and actions one
after the other keep it. All operands that are emitted, and all that are answered, satisfy `V`. -/
structure LowerM.Sequential (unit : SourceUnit) (D : unit.Domain) (V : Operand → Prop)
    (P : ∀ {α : Type}, LowerM α → (α → Prop) → Prop) : Prop where
  pure {α : Type} {a : α} {R : α → Prop} (h : R a) : P (pure a) R
  bind {α β : Type} {act : LowerM α} {next : α → LowerM β} {R : α → Prop} {S : β → Prop} (h : P act R)
    (hnext : ∀ a, R a → P (next a) S) : P (act >>= next) S
  /-- Looking something up. -/
  lift {α : Type} {x : Except Fault α} {R : α → Prop} (hok : ∀ a, x = .ok a → R a)
    (herror : ∀ fault, x = .error fault → D.gaps ∧ fault.IsDangling) : P (liftM x) R
  holds_withLine {α : Type} {act : LowerM α} {R : α → Prop} (line : Nat) (h : P act R) : P (withLine line act) R
  holds_newTemp (ty : Option TypeId) : P (newTemp ty) V
  holds_varOperand {name : Name} (hname : D.name name) (ty : Option TypeId) : P (varOperand name ty) V
  /-- Setting a register to a string literal, which is entered first. -/
  holds_text (text : String) (ty : Option TypeId) :
    P (internText text >>= fun id => emitUnary .const ty (.literal id)) V
  valid_none : V .none
  valid_int (n : Int) : V (.int n)
  valid_float (x : Binary64) : V (.float x)
  valid_field {name : Name} (hname : D.name name) : V (.field name)
  valid_func {name : Name} (hname : D.name name) : V (.func name)

/-- The property also holds of instructions that go straight on, and is kept by logical operators. -/
structure LowerM.ExprCompositional (unit : SourceUnit) (D : unit.Domain) (V : Operand → Prop)
    (P : ∀ {α : Type}, LowerM α → (α → Prop) → Prop) : Prop extends Sequential unit D V P where
  holds_emitStraight {instr : Nat → Instr} (hop : ∀ line, (instr line).opcode.IsStraight)
    (h : ∀ line, ∀ operand ∈ (instr line).operands, V operand) : P (emit instr) fun _ => True
  holds_lowerLogical {depth : Nat} {op : BinaryOp} {lhs rhs : ExprId}
    (hsource : ∃ id node, unit.expr id = .ok node ∧ node.kind = .binary op lhs rhs)
    (hskips : op.isShortCircuit = true)
    (hlower : ∀ id, D.expr depth id → P (unit.lowerExprWithin depth id) V) (hlhs : D.expr depth lhs)
    (hrhs : D.expr depth rhs) (ty : Option TypeId) :
    P (lowerLogical (unit.lowerExprWithin depth) (op == .logicalAnd) lhs rhs ty) V

/-- The property also holds of making blocks and of going from one to another. All blocks that are made satisfy
`B`, and so must those that lowering goes on in. -/
structure LowerM.Branching (unit : SourceUnit) (D : unit.Domain) (B : BlockId → Prop) (V : Operand → Prop)
    (P : ∀ {α : Type}, LowerM α → (α → Prop) → Prop) : Prop extends Sequential unit D V P where
  /-- Reading the state apart from the function and the string literals. -/
  get_bind {α : Type} {next : Lowering → LowerM α} {R : α → Prop}
    (hnext : ∀ s fn texts, next { s with fn, texts } = next s) (h : ∀ s, P (next s) R) : P (get >>= next) R
  holds_withBreak {α : Type} {act : LowerM α} {R : α → Prop} (exit : BlockId) (h : P act R) :
    P (withBreak exit act) R
  holds_withContinue {α : Type} {act : LowerM α} {R : α → Prop} (next : BlockId) (h : P act R) :
    P (withContinue next act) R
  holds_newBlock (label : String) : P (newBlock label) B
  holds_switchTo {b : BlockId} (hb : B b) : P (switchTo b) fun _ => True
  holds_isTerminated : P isTerminated fun _ => True
  /-- Leaving a block. -/
  holds_emitLast {instr : Nat → Instr} (hlast : ∀ line, (instr line).isTerminator = true)
    (h : ∀ line, ∀ operand ∈ (instr line).operands, V operand) : P (emit instr) fun _ => True
  valid_label (b : BlockId) : V (.label b)

/-- The property is kept by all forms of expressions and statements, except that a label may go on in a block
that was not made on the way. -/
structure LowerM.StmtCompositional (unit : SourceUnit) (D : unit.Domain) (B : BlockId → Prop)
    (V : Operand → Prop) (P : ∀ {α : Type}, LowerM α → (α → Prop) → Prop) : Prop
    extends ExprCompositional unit D V P, Branching unit D B V P

/-- The property holds of all primitive actions. -/
structure LowerM.Compositional (unit : SourceUnit) (D : unit.Domain) (V : Operand → Prop)
    (P : ∀ {α : Type}, LowerM α → (α → Prop) → Prop) : Prop extends Branching unit D (fun _ => True) V P where
  holds_emit {instr : Nat → Instr} (h : ∀ line, ∀ operand ∈ (instr line).operands, V operand) :
    P (emit instr) fun _ => True
  holds_emitLast _ := holds_emit

namespace LowerM

variable {unit : SourceUnit} {D : unit.Domain} {B : BlockId → Prop} {V : Operand → Prop}
  {P : ∀ {α : Type}, LowerM α → (α → Prop) → Prop}

-- ════════════════════════════════════════════════════════════════════════
-- Actions one after the other
-- ════════════════════════════════════════════════════════════════════════

namespace Sequential

variable (c : Sequential unit D V P)
include c

theorem holds_forM {α : Type} {act : α → LowerM PUnit} {xs : List α} (h : ∀ a ∈ xs, P (act a) fun _ => True) :
    P (xs.forM act) fun _ => True := by
  induction xs with
  | nil => exact c.pure trivial
  | cons a xs ih =>
    apply c.bind (h a List.mem_cons_self)
    intro _ _
    exact ih fun b hb => h b (List.mem_cons_of_mem _ hb)

theorem holds_mapM {α β : Type} {act : α → LowerM β} {R : β → Prop} {xs : List α}
    (h : ∀ a ∈ xs, P (act a) R) : P (xs.mapM act) fun bs => ∀ b ∈ bs, R b := by
  induction xs with
  | nil => exact c.pure (List.forall_mem_nil R)
  | cons a xs ih =>
    rw [List.mapM_cons]
    apply c.bind (h a List.mem_cons_self)
    intro b hb
    apply c.bind (ih fun a' ha' => h a' (List.mem_cons_of_mem _ ha'))
    intro bs hbs
    exact c.pure (List.forall_mem_cons.mpr ⟨hb, hbs⟩)

theorem holds_optional {α : Type} {act : α → LowerM Unit} (part : Option α)
    (h : ∀ a ∈ part, P (act a) fun _ => True) : P (part.forM act) fun _ => True := by
  cases part with
  | none => exact c.pure trivial
  | some a => exact h a rfl

theorem holds_discard {α : Type} {act : LowerM α} {R : α → Prop} (h : P act R) :
    P (discard act) fun _ => True :=
  c.bind h fun _ _ => c.pure trivial

theorem holds_expr {depth : Nat} {id : ExprId} (h : D.expr depth id) :
    P (liftM (unit.expr id)) fun node : Expr => unit.expr id = .ok node :=
  c.lift (fun _ hnode => hnode) fun _ herror => ⟨D.expr_error h herror, isDangling_of_require herror trivial⟩

theorem holds_stmt {depth : Nat} {id : StmtId} (h : D.stmt depth id) :
    P (liftM (unit.stmt id)) fun node : Stmt => unit.stmt id = .ok node :=
  c.lift (fun _ hnode => hnode) fun _ herror => ⟨D.stmt_error h herror, isDangling_of_require herror trivial⟩

/-- Nesting that comes to no end stops lowering. -/
theorem holds_endless {α : Type} (h : D.gaps) (R : α → Prop) : P (throw .endlessNesting : LowerM α) R :=
  c.lift (x := .error .endlessNesting) nofun fun _ herror => by
    cases herror
    exact ⟨h, trivial⟩

end Sequential

-- ════════════════════════════════════════════════════════════════════════
-- Expressions
-- ════════════════════════════════════════════════════════════════════════

/-- The operands of an instruction that is no phi. -/
theorem valid_operands {i : Instr} (h : V i.dst ∧ V i.src1 ∧ V i.src2 ∧ i.phiArgs = []) :
    ∀ operand ∈ i.operands, V operand := by
  intro operand hop
  obtain ⟨hdst, hsrc1, hsrc2, hargs⟩ := h
  obtain rfl | rfl | rfl | ⟨arg, harg, _⟩ := Instr.mem_operands.mp hop
  · exact hdst
  · exact hsrc1
  · exact hsrc2
  · rw [hargs] at harg
    cases harg

namespace ExprCompositional

variable (c : ExprCompositional unit D V P)
include c

theorem holds_emitStore {addr value : Operand} (haddr : V addr) (hvalue : V value) :
    P (emit (.store addr value)) fun _ => True :=
  c.holds_emitStraight (fun _ => (by decide : Opcode.store.IsStraight)) fun _ =>
    valid_operands ⟨c.valid_none, haddr, hvalue, rfl⟩

theorem holds_emitCopy {var value : Operand} (hvar : V var) (hvalue : V value) :
    P (emit (.unary .copy var value)) fun _ => True :=
  c.holds_emitStraight (fun _ => (by decide : Opcode.copy.IsStraight)) fun _ =>
    valid_operands ⟨hvar, hvalue, c.valid_none, rfl⟩

theorem holds_emitParam {value : Operand} (hvalue : V value) : P (emit (.param value)) fun _ => True :=
  c.holds_emitStraight (fun _ => (by decide : Opcode.param.IsStraight)) fun _ =>
    valid_operands ⟨c.valid_none, hvalue, c.valid_none, rfl⟩

theorem holds_emitNop : P (emit .nop) fun _ => True :=
  c.holds_emitStraight (fun _ => (by decide : Opcode.nop.IsStraight)) fun _ =>
    valid_operands ⟨c.valid_none, c.valid_none, c.valid_none, rfl⟩

theorem holds_emitUnary {opcode : Opcode} (hop : opcode.IsStraight) (ty : Option TypeId) {src : Operand}
    (hsrc : V src) : P (emitUnary opcode ty src) V := by
  apply c.bind (c.holds_newTemp ty)
  intro dst hdst
  apply c.bind (c.holds_emitStraight (fun _ => hop) fun _ => valid_operands ⟨hdst, hsrc, c.valid_none, rfl⟩)
  intro _ _
  exact c.pure hdst

theorem holds_emitBinary {opcode : Opcode} (hop : opcode.IsStraight) (ty : Option TypeId) {lhs rhs : Operand}
    (hlhs : V lhs) (hrhs : V rhs) : P (emitBinary opcode ty lhs rhs) V := by
  apply c.bind (c.holds_newTemp ty)
  intro dst hdst
  apply c.bind (c.holds_emitStraight (fun _ => hop) fun _ => valid_operands ⟨hdst, hlhs, hrhs, rfl⟩)
  intro _ _
  exact c.pure hdst

theorem holds_writeVar {name : Name} (hname : D.name name) (ty : Option TypeId) {value : Operand}
    (hvalue : V value) : P (writeVar name ty value) fun _ => True := by
  apply c.bind (c.holds_varOperand hname ty)
  intro var hvar
  exact c.holds_emitCopy hvar hvalue

section Expr

variable {depth : Nat} (hlower : ∀ id, D.expr depth id → P (unit.lowerExprWithin depth id) V)
include hlower

theorem holds_lowerBinary {op : BinaryOp} {lhs rhs : ExprId}
    (hsource : ∃ id node, unit.expr id = .ok node ∧ node.kind = .binary op lhs rhs) (hlhs : D.expr depth lhs)
    (hrhs : D.expr depth rhs) (ty : Option TypeId) :
    P (lowerBinary (unit.lowerExprWithin depth) op lhs rhs ty) V := by
  unfold lowerBinary
  split
  · rename_i hskips
    exact c.holds_lowerLogical hsource hskips hlower hlhs hrhs ty
  · apply c.bind (hlower lhs hlhs)
    intro left hleft
    apply c.bind (hlower rhs hrhs)
    intro right hright
    exact c.holds_emitBinary op.isStraight_opcode ty hleft hright

omit hlower in
theorem holds_writeBack {operand : ExprId} (hoperand : D.expr depth operand) {value : Operand}
    (hvalue : V value) (ty : Option TypeId) : P (writeBack unit operand value ty) fun _ => True := by
  apply c.bind (c.holds_expr hoperand)
  intro node hnode
  have hname := D.expr_names hoperand hnode
  split
  · rename_i name hident
    apply c.holds_writeVar (hname name ?_) ty hvalue
    cases hkind : node.kind with
    | ident other =>
      rw [hkind] at hident
      exact hident
    | _ =>
      rw [hkind] at hident
      cases hident
  · exact c.pure trivial

theorem holds_lowerUnary (op : UnaryOp) {operand : ExprId} (hoperand : D.expr depth operand)
    (ty : Option TypeId) : P (lowerUnary unit (unit.lowerExprWithin depth) op operand ty) V := by
  have hsimple : ∀ {opcode : Opcode}, opcode.IsStraight →
      P (unit.lowerExprWithin depth operand >>= fun value => emitUnary opcode ty value) V := by
    intro opcode hop
    apply c.bind (hlower operand hoperand)
    intro value hvalue
    exact c.holds_emitUnary hop ty hvalue
  have hpre : ∀ {opcode : Opcode}, opcode.IsStraight →
      P (lowerPreUpdate unit (unit.lowerExprWithin depth) opcode operand ty) V := by
    intro opcode hop
    apply c.bind (hlower operand hoperand)
    intro value hvalue
    apply c.bind (c.holds_emitBinary hop ty hvalue (c.valid_int 1))
    intro updated hupdated
    apply c.bind (c.holds_writeBack hoperand hupdated ty)
    intro _ _
    exact c.pure hupdated
  have hpost : ∀ {opcode : Opcode}, opcode.IsStraight →
      P (lowerPostUpdate unit (unit.lowerExprWithin depth) opcode operand ty) V := by
    intro opcode hop
    apply c.bind (hlower operand hoperand)
    intro value hvalue
    apply c.bind (c.holds_emitUnary (by decide) ty hvalue)
    intro old hold
    apply c.bind (c.holds_emitBinary hop ty hvalue (c.valid_int 1))
    intro updated hupdated
    apply c.bind (c.holds_writeBack hoperand hupdated ty)
    intro _ _
    exact c.pure hold
  cases op with
  | neg | not | bitNot | deref | addrOf => exact hsimple (by decide)
  | preInc | preDec => exact hpre (by decide)
  | postInc | postDec => exact hpost (by decide)

theorem holds_lowerCall {callee : Name} (hcallee : D.name callee) {args : List ExprId}
    (hargs : ∀ arg ∈ args, D.expr depth arg) (ty : Option TypeId) :
    P (lowerCall (unit.lowerExprWithin depth) callee args ty) V := by
  have hparams : P (args.forM fun arg => do
      let value ← unit.lowerExprWithin depth arg
      emit (.param value)) fun _ => True := by
    apply c.holds_forM
    intro arg harg
    apply c.bind (hlower arg (hargs arg harg))
    intro value hvalue
    exact c.holds_emitParam hvalue
  apply c.bind hparams
  intro _ _
  exact c.holds_emitBinary (by decide) ty (c.valid_func hcallee) (c.valid_int _)

theorem holds_lowerTarget {target : ExprId} (htarget : D.expr depth target) {value : Operand}
    (hvalue : V value) :
    P (lowerTarget unit (unit.lowerExprWithin depth) target value) fun _ => True := by
  apply c.bind (c.holds_expr htarget)
  intro node hnode
  have hname := D.expr_names htarget hnode
  have hpart : ∀ part ∈ node.kind.parts, P (unit.lowerExprWithin depth part) V := fun part hmem =>
    hlower part (D.expr_le (D.expr_parts htarget hnode part hmem) (Nat.sub_le depth 1))
  split
  · rename_i name hkind
    exact c.holds_writeVar (hname name (by rw [hkind]; rfl)) node.ty hvalue
  · rename_i operand hkind
    apply c.bind (hpart operand (by simp [hkind, ExprKind.parts]))
    intro addr haddr
    exact c.holds_emitStore haddr hvalue
  · rename_i array position hkind
    apply c.bind (hpart array (by simp [hkind, ExprKind.parts]))
    intro base hbase
    apply c.bind (hpart position (by simp [hkind, ExprKind.parts]))
    intro offset hoffset
    apply c.bind (c.holds_emitBinary (by decide) none hbase hoffset)
    intro addr haddr
    exact c.holds_emitStore haddr hvalue
  · rename_i base field arrow hkind
    apply c.bind (hpart base (by simp [hkind, ExprKind.parts]))
    intro object hobject
    have hfield : V (.field field) := c.valid_field (hname field (by rw [hkind]; rfl))
    apply c.bind (c.holds_emitBinary (by decide) none hobject hfield)
    intro addr haddr
    exact c.holds_emitStore haddr hvalue
  · apply c.bind (hlower target htarget)
    intro addr haddr
    exact c.holds_emitStore haddr hvalue

theorem holds_lowerExprKind {id : ExprId} {node : Expr} (hnode : unit.expr id = .ok node)
    (hparts : ∀ part ∈ node.kind.parts, D.expr depth part) (hname : ∀ n ∈ node.kind.name?, D.name n) :
    P (lowerExprKind unit (unit.lowerExprWithin depth) node.ty node.kind) V := by
  generalize hty : node.ty = ty
  cases hkind : node.kind with
  | int value => exact c.holds_emitUnary (by decide) ty (c.valid_int value)
  | float value => exact c.holds_emitUnary (by decide) ty (c.valid_float value)
  | text value => exact c.holds_text value ty
  | ident name =>
    apply c.bind (c.holds_varOperand (hname name (by rw [hkind]; rfl)) ty)
    intro var hvar
    exact c.holds_emitUnary (by decide) ty hvar
  | binary op lhs rhs =>
    exact c.holds_lowerBinary hlower ⟨id, node, hnode, hkind⟩ (hparts lhs (by simp [hkind, ExprKind.parts]))
      (hparts rhs (by simp [hkind, ExprKind.parts])) ty
  | unary op operand =>
    exact c.holds_lowerUnary hlower op (hparts operand (by simp [hkind, ExprKind.parts])) ty
  | cast target operand =>
    apply c.bind (hlower operand (hparts operand (by simp [hkind, ExprKind.parts])))
    intro value hvalue
    exact c.holds_emitUnary (by decide) (some target) hvalue
  | index array position =>
    apply c.bind (hlower array (hparts array (by simp [hkind, ExprKind.parts])))
    intro base hbase
    apply c.bind (hlower position (hparts position (by simp [hkind, ExprKind.parts])))
    intro offset hoffset
    exact c.holds_emitBinary (by decide) ty hbase hoffset
  | member base field arrow =>
    apply c.bind (hlower base (hparts base (by simp [hkind, ExprKind.parts])))
    intro object hobject
    exact c.holds_emitBinary (by decide) ty hobject (c.valid_field (hname field (by rw [hkind]; rfl)))
  | call callee args =>
    exact c.holds_lowerCall hlower (hname callee (by rw [hkind]; rfl))
      (fun arg harg => hparts arg (by rw [hkind]; exact harg)) ty
  | assign target value =>
    apply c.bind (hlower value (hparts value (by simp [hkind, ExprKind.parts])))
    intro result hresult
    apply c.bind (c.holds_lowerTarget hlower (hparts target (by simp [hkind, ExprKind.parts])) hresult)
    intro _ _
    exact c.pure hresult
  | initList elements =>
    cases elements with
    | nil => exact c.pure c.valid_none
    | cons first rest => exact hlower first (hparts first (by simp [hkind, ExprKind.parts]))
  | error => exact c.pure c.valid_none

end Expr

theorem holds_lowerExprWithin (depth : Nat) {id : ExprId} (h : D.expr depth id) :
    P (unit.lowerExprWithin depth id) V := by
  induction depth generalizing id with
  | zero => exact c.holds_endless (D.expr_zero h) V
  | succ depth ih =>
    apply c.bind (c.holds_expr h)
    intro node hnode
    apply c.holds_withLine
    exact c.holds_lowerExprKind (fun _ => ih) hnode (D.expr_parts h hnode) (D.expr_names h hnode)

theorem holds_lowerExpr {id : ExprId} (h : D.expr (unit.exprs.size + 1) id) : P (unit.lowerExpr id) V :=
  c.holds_lowerExprWithin _ h

end ExprCompositional

-- ════════════════════════════════════════════════════════════════════════
-- Blocks
-- ════════════════════════════════════════════════════════════════════════

namespace Branching

variable (c : Branching unit D B V P)
include c

theorem holds_current : P current fun _ => True := by
  apply c.get_bind fun _ _ _ => rfl
  intro s
  exact c.pure trivial

theorem holds_emitJump (t : BlockId) : P (emit (.jump t)) fun _ => True :=
  c.holds_emitLast (fun _ => rfl) fun _ => valid_operands ⟨c.valid_none, c.valid_label t, c.valid_none, rfl⟩

theorem holds_emitBranch {value : Operand} (hvalue : V value) (t u : BlockId) :
    P (emit (.branch value t u)) fun _ => True :=
  c.holds_emitLast (fun _ => rfl) fun _ => valid_operands ⟨c.valid_none, hvalue, c.valid_label t, rfl⟩

theorem holds_emitRet {value : Operand} (hvalue : V value) : P (emit (.ret value)) fun _ => True :=
  c.holds_emitLast (fun _ => rfl) fun _ => valid_operands ⟨c.valid_none, hvalue, c.valid_none, rfl⟩

theorem holds_ensureJump (target : BlockId) : P (ensureJump target) fun _ => True := by
  apply c.bind c.holds_isTerminated
  intro terminated _
  cases terminated with
  | true => exact c.pure trivial
  | false => exact c.holds_emitJump target

theorem holds_jumpToInnermost (targets : List BlockId) : P (jumpToInnermost targets) fun _ => True := by
  cases targets with
  | nil => exact c.pure trivial
  | cons target rest => exact c.holds_emitJump target

theorem holds_withLoop {α : Type} {act : LowerM α} {R : α → Prop} (exit next : BlockId) (h : P act R) :
    P (withLoop exit next act) R :=
  c.holds_withBreak exit (c.holds_withContinue next h)

end Branching

-- ════════════════════════════════════════════════════════════════════════
-- Statements
-- ════════════════════════════════════════════════════════════════════════

namespace StmtCompositional

variable (c : StmtCompositional unit D B V P) {lower : StmtId → LowerM Unit} {depth : Nat}
include c

theorem holds_openDeadBlock {id : StmtId} (hid : D.stmt depth id) :
    P (openDeadBlock unit id) fun _ => True := by
  apply c.bind c.holds_isTerminated
  intro terminated _
  cases terminated with
  | false => exact c.pure trivial
  | true =>
    apply c.bind (c.holds_stmt hid)
    intro node _
    split
    · exact c.pure trivial
    · apply c.bind (c.holds_newBlock "dead")
      intro block hblock
      exact c.holds_switchTo hblock

theorem holds_fillBlock (hlower : ∀ id, D.stmt depth id → P (lower id) fun _ => True) {block : BlockId}
    (hblock : B block) (next : BlockId) {body : StmtId} (hbody : D.stmt depth body) :
    P (fillBlock lower block body next) fun _ => True := by
  apply c.bind (c.holds_switchTo hblock)
  intro _ _
  apply c.bind (hlower body hbody)
  intro _ _
  exact c.holds_ensureJump next

theorem holds_lowerDeclare {name : Name} (hname : D.name name) (ty : Option TypeId)
    {init : Option ExprId} (hinit : ∀ id ∈ init, D.expr (unit.exprs.size + 1) id) :
    P (lowerDeclare unit name ty init) fun _ => True := by
  apply c.bind (c.holds_varOperand hname ty)
  intro var hvar
  cases init with
  | none => exact c.pure trivial
  | some value =>
    apply c.bind (c.holds_lowerExpr (hinit value rfl))
    intro result hresult
    exact c.holds_emitCopy hvar hresult

theorem holds_lowerReturn {value : Option ExprId} (hvalue : ∀ id ∈ value, D.expr (unit.exprs.size + 1) id) :
    P (lowerReturn unit value) fun _ => True := by
  cases value with
  | none => exact c.holds_emitRet c.valid_none
  | some value =>
    apply c.bind (c.holds_lowerExpr (hvalue value rfl))
    intro result hresult
    exact c.holds_emitRet hresult

theorem holds_lowerAssertion {cond : ExprId} (hcond : D.expr (unit.exprs.size + 1) cond) :
    P (lowerAssertion unit cond) fun _ => True := by
  apply c.bind (c.holds_newBlock _)
  intro failBlock hfailBlock
  apply c.bind (c.holds_newBlock _)
  intro okBlock hokBlock
  apply c.bind (c.holds_lowerExpr hcond)
  intro value hvalue
  apply c.bind (c.holds_emitBranch hvalue okBlock failBlock)
  intro _ _
  apply c.bind (c.holds_switchTo hfailBlock)
  intro _ _
  apply c.bind c.holds_emitNop
  intro _ _
  apply c.bind (c.holds_emitRet c.valid_none)
  intro _ _
  exact c.holds_switchTo hokBlock

theorem holds_lowerConditional (hlower : ∀ id, D.stmt depth id → P (lower id) fun _ => True) {cond : ExprId}
    (hcond : D.expr (unit.exprs.size + 1) cond) {thenBody : StmtId} (hthen : D.stmt depth thenBody)
    {elseBody : Option StmtId} (helse : ∀ id ∈ elseBody, D.stmt depth id) :
    P (lowerConditional unit lower cond thenBody elseBody) fun _ => True := by
  apply c.bind (c.holds_newBlock _)
  intro thenBlock hthenBlock
  cases elseBody with
  | none =>
    apply c.bind (c.holds_newBlock _)
    intro mergeBlock hmergeBlock
    apply c.bind (c.holds_lowerExpr hcond)
    intro value hvalue
    apply c.bind (c.holds_emitBranch hvalue thenBlock mergeBlock)
    intro _ _
    apply c.bind (c.holds_fillBlock hlower hthenBlock mergeBlock hthen)
    intro _ _
    exact c.holds_switchTo hmergeBlock
  | some elseBody =>
    apply c.bind (c.holds_newBlock _)
    intro elseBlock helseBlock
    apply c.bind (c.holds_newBlock _)
    intro mergeBlock hmergeBlock
    apply c.bind (c.holds_lowerExpr hcond)
    intro value hvalue
    apply c.bind (c.holds_emitBranch hvalue thenBlock elseBlock)
    intro _ _
    apply c.bind (c.holds_fillBlock hlower hthenBlock mergeBlock hthen)
    intro _ _
    apply c.bind (c.holds_fillBlock hlower helseBlock mergeBlock (helse elseBody rfl))
    intro _ _
    exact c.holds_switchTo hmergeBlock

theorem holds_lowerWhile (hlower : ∀ id, D.stmt depth id → P (lower id) fun _ => True) {cond : ExprId}
    (hcond : D.expr (unit.exprs.size + 1) cond) {body : StmtId} (hbody : D.stmt depth body) :
    P (lowerWhile unit lower cond body) fun _ => True := by
  apply c.bind (c.holds_newBlock _)
  intro condBlock hcondBlock
  apply c.bind (c.holds_newBlock _)
  intro bodyBlock hbodyBlock
  apply c.bind (c.holds_newBlock _)
  intro exitBlock hexitBlock
  refine c.bind (R := fun _ => True) (c.holds_withLoop exitBlock condBlock ?_)
    fun _ _ => c.holds_switchTo hexitBlock
  apply c.bind (c.holds_ensureJump condBlock)
  intro _ _
  apply c.bind (c.holds_switchTo hcondBlock)
  intro _ _
  apply c.bind (c.holds_lowerExpr hcond)
  intro value hvalue
  apply c.bind (c.holds_emitBranch hvalue bodyBlock exitBlock)
  intro _ _
  exact c.holds_fillBlock hlower hbodyBlock condBlock hbody

theorem holds_lowerDo (hlower : ∀ id, D.stmt depth id → P (lower id) fun _ => True) {cond : ExprId}
    (hcond : D.expr (unit.exprs.size + 1) cond) {body : StmtId} (hbody : D.stmt depth body) :
    P (lowerDo unit lower body cond) fun _ => True := by
  apply c.bind (c.holds_newBlock _)
  intro bodyBlock hbodyBlock
  apply c.bind (c.holds_newBlock _)
  intro condBlock hcondBlock
  apply c.bind (c.holds_newBlock _)
  intro exitBlock hexitBlock
  refine c.bind (R := fun _ => True) (c.holds_withLoop exitBlock condBlock ?_)
    fun _ _ => c.holds_switchTo hexitBlock
  apply c.bind (c.holds_ensureJump bodyBlock)
  intro _ _
  apply c.bind (c.holds_fillBlock hlower hbodyBlock condBlock hbody)
  intro _ _
  apply c.bind (c.holds_switchTo hcondBlock)
  intro _ _
  apply c.bind (c.holds_lowerExpr hcond)
  intro value hvalue
  exact c.holds_emitBranch hvalue bodyBlock exitBlock

theorem holds_lowerTest {cond : Option ExprId} (hcond : ∀ id ∈ cond, D.expr (unit.exprs.size + 1) id)
    (t u : BlockId) : P (lowerTest unit cond t u) fun _ => True := by
  cases cond with
  | none => exact c.holds_emitJump t
  | some cond =>
    apply c.bind (c.holds_lowerExpr (hcond cond rfl))
    intro value hvalue
    exact c.holds_emitBranch hvalue t u

theorem holds_lowerFor (hlower : ∀ id, D.stmt depth id → P (lower id) fun _ => True) {init : Option StmtId}
    (hinit : ∀ id ∈ init, D.stmt depth id) {cond incr : Option ExprId}
    (hcond : ∀ id ∈ cond, D.expr (unit.exprs.size + 1) id) (hincr : ∀ id ∈ incr, D.expr (unit.exprs.size + 1) id)
    {body : Option StmtId} (hbody : ∀ id ∈ body, D.stmt depth id) :
    P (lowerFor unit lower init cond incr body) fun _ => True := by
  rw [lowerFor_eq]
  apply c.bind (c.holds_newBlock _)
  intro condBlock hcondBlock
  apply c.bind (c.holds_newBlock _)
  intro bodyBlock hbodyBlock
  apply c.bind (c.holds_newBlock _)
  intro incrBlock hincrBlock
  apply c.bind (c.holds_newBlock _)
  intro exitBlock hexitBlock
  refine c.bind (R := fun _ => True) (c.holds_withLoop exitBlock incrBlock ?_)
    fun _ _ => c.holds_switchTo hexitBlock
  apply c.bind (c.holds_optional init fun id hid => hlower id (hinit id hid))
  intro _ _
  apply c.bind (c.holds_ensureJump condBlock)
  intro _ _
  apply c.bind (c.holds_switchTo hcondBlock)
  intro _ _
  apply c.bind (c.holds_lowerTest hcond bodyBlock exitBlock)
  intro _ _
  apply c.bind (c.holds_switchTo hbodyBlock)
  intro _ _
  apply c.bind (c.holds_optional body fun id hid => hlower id (hbody id hid))
  intro _ _
  apply c.bind (c.holds_ensureJump incrBlock)
  intro _ _
  apply c.bind (c.holds_switchTo hincrBlock)
  intro _ _
  apply c.bind (c.holds_optional incr fun id hid => c.holds_discard (c.holds_lowerExpr (hincr id hid)))
  intro _ _
  exact c.holds_ensureJump condBlock

theorem holds_createEntry {id : StmtId} (hid : D.stmt depth id) :
    P (createEntry unit id) fun entry => ∀ e ∈ entry, B e.block := by
  apply c.bind (c.holds_stmt hid)
  intro node _
  split
  · apply c.bind (c.holds_newBlock _)
    intro block hblock
    exact c.pure fun e he => Option.mem_some.mp he ▸ hblock
  · apply c.bind (c.holds_newBlock _)
    intro block hblock
    exact c.pure fun e he => Option.mem_some.mp he ▸ hblock
  · exact c.pure nofun

theorem holds_lowerSwitchPart (hlower : ∀ id, D.stmt depth id → P (lower id) fun _ => True)
    {id : StmtId} (hid : D.stmt depth id) {entry : Option SwitchEntry} (hentry : ∀ e ∈ entry, B e.block) :
    P (lowerSwitchPart unit lower id entry) fun _ => True := by
  cases entry with
  | some entry =>
    apply c.bind (c.holds_ensureJump entry.block)
    intro _ _
    exact c.holds_switchTo (hentry entry rfl)
  | none =>
    apply c.bind (c.holds_openDeadBlock hid)
    intro _ _
    exact hlower id hid

theorem holds_switchBody {body : StmtId} (hbody : D.stmt depth body) :
    P (liftM (switchBody unit body)) fun stmts : List StmtId => ∀ id ∈ stmts, D.stmt depth id := by
  cases hget : unit.stmt body with
  | error fault =>
    have hfail : switchBody unit body = .error fault := by
      rw [switchBody, hget]
      rfl
    apply c.lift
    · intro stmts hstmts
      cases hfail.symm.trans hstmts
    · intro fault' hfault'
      cases hfail.symm.trans hfault'
      exact ⟨D.stmt_error hbody hget, isDangling_of_require hget trivial⟩
  | ok node =>
    obtain ⟨stmts, hstmts, hdomain⟩ :
        ∃ stmts, switchBody unit body = .ok stmts ∧ ∀ id ∈ stmts, D.stmt depth id := by
      rw [switchBody, hget, ok_bind]
      split
      · rename_i stmts hkind
        refine ⟨stmts, rfl, fun id hid => D.stmt_le (D.stmt_parts hbody hget id ?_) (Nat.sub_le depth 1)⟩
        rw [hkind]
        exact hid
      · refine ⟨[body], rfl, fun id hid => ?_⟩
        rw [List.mem_singleton.mp hid]
        exact hbody
    apply c.lift
    · intro other hother
      cases hstmts.symm.trans hother
      exact hdomain
    · intro fault hfault
      cases hstmts.symm.trans hfault

theorem holds_lowerSwitch (hlower : ∀ id, D.stmt depth id → P (lower id) fun _ => True)
    {cond : ExprId} (hcond : D.expr (unit.exprs.size + 1) cond) {body : StmtId} (hbody : D.stmt depth body) :
    P (lowerSwitch unit lower cond body) fun _ => True := by
  apply c.bind (c.holds_newBlock _)
  intro exitBlock hexitBlock
  refine c.bind (R := fun _ => True) (c.holds_withBreak exitBlock ?_) fun _ _ => c.holds_switchTo hexitBlock
  apply c.bind (c.holds_lowerExpr hcond)
  intro value hvalue
  apply c.bind (c.holds_switchBody hbody)
  intro stmts hstmts
  apply c.bind (c.holds_mapM fun id hid => c.holds_createEntry (hstmts id hid))
  intro entries hentries
  apply c.bind (c.holds_emitLast (fun _ => rfl) fun _ => valid_operands ⟨c.valid_none, hvalue, c.valid_none, rfl⟩)
  intro _ _
  have hpart : P ((stmts.zip entries).forM fun part => lowerSwitchPart unit lower part.1 part.2)
      fun _ => True := by
    apply c.holds_forM
    intro part hpart
    obtain ⟨hstmt, hentry⟩ := List.of_mem_zip hpart
    exact c.holds_lowerSwitchPart hlower (hstmts part.1 hstmt) (hentries part.2 hentry)
  apply c.bind hpart
  intro _ _
  exact c.holds_ensureJump exitBlock

theorem holds_lowerList (hlower : ∀ id, D.stmt depth id → P (lower id) fun _ => True) {body : List StmtId}
    (hbody : ∀ id ∈ body, D.stmt depth id) : P (lowerList unit lower body) fun _ => True := by
  apply c.holds_forM
  intro id hid
  apply c.bind (c.holds_openDeadBlock (hbody id hid))
  intro _ _
  exact hlower id (hbody id hid)

theorem holds_lowerGoto (name : Name) : P (lowerGoto name) fun _ => True := by
  apply c.get_bind fun _ _ _ => rfl
  intro s
  split
  · exact c.holds_emitJump _
  · exact c.holds_emitNop

end StmtCompositional

namespace Compositional

variable (c : Compositional unit D V P)
include c

/-- A logical operator is put together from primitive actions, too. -/
theorem stmt : StmtCompositional unit D (fun _ => True) V P where
  toBranching := c.toBranching
  holds_emitStraight _ := c.holds_emit
  holds_lowerLogical := by
    intro depth op lhs rhs _ _ hlower hlhs hrhs ty
    rw [lowerLogical_eq]
    apply c.bind (c.holds_newTemp ty)
    intro result hresult
    apply c.bind (c.holds_newBlock _)
    intro rhsBlock _
    apply c.bind (c.holds_newBlock _)
    intro mergeBlock _
    apply c.bind (hlower lhs hlhs)
    intro left hleft
    have hbranch : P (emit (sideBranch (op == .logicalAnd) left rhsBlock mergeBlock)) fun _ => True := by
      cases op == .logicalAnd with
      | true => exact c.holds_emitBranch hleft rhsBlock mergeBlock
      | false => exact c.holds_emitBranch hleft mergeBlock rhsBlock
    apply c.bind hbranch
    intro _ _
    apply c.bind c.holds_current
    intro lhsEnd _
    apply c.bind (c.holds_switchTo trivial)
    intro _ _
    apply c.bind (hlower rhs hrhs)
    intro right hright
    have htest : P (emitBinary .cmpNe none right (.int 0)) V := by
      apply c.bind (c.holds_newTemp none)
      intro dst hdst
      apply c.bind (c.holds_emit fun _ => valid_operands ⟨hdst, hright, c.valid_int 0, rfl⟩)
      intro _ _
      exact c.pure hdst
    apply c.bind htest
    intro truth htruth
    apply c.bind (c.holds_ensureJump mergeBlock)
    intro _ _
    apply c.bind c.holds_current
    intro rhsEnd _
    apply c.bind (c.holds_switchTo trivial)
    intro _ _
    have hphi : P (emit (.phi result none [⟨.int (shortCircuitValue (op == .logicalAnd)), lhsEnd⟩,
        ⟨truth, rhsEnd⟩])) fun _ => True := by
      apply c.holds_emit
      intro line operand hop
      obtain rfl | rfl | rfl | ⟨arg, harg, rfl⟩ := Instr.mem_operands.mp hop
      · exact hresult
      · exact c.valid_none
      · exact c.valid_none
      · obtain rfl | harg := List.mem_cons.mp harg
        · exact c.valid_int _
        · rw [List.mem_singleton.mp harg]
          exact htruth
    apply c.bind hphi
    intro _ _
    exact c.pure hresult

/-- A label may go on in any block. -/
theorem holds_lowerLabel (id : StmtId) : P (lowerLabel id) fun _ => True := by
  apply c.get_bind fun _ _ _ => rfl
  intro s
  split
  · rename_i block _
    apply c.bind (c.holds_ensureJump block)
    intro _ _
    exact c.holds_switchTo trivial
  · exact c.pure trivial

theorem holds_lowerStmtKind {lower : StmtId → LowerM Unit} {depth : Nat}
    (hlower : ∀ id, D.stmt depth id → P (lower id) fun _ => True) {kind : StmtKind Name} (hparts : ∀ part ∈ kind.parts, D.stmt depth part)
    (hexprs : ∀ part ∈ kind.exprs, D.expr (unit.exprs.size + 1) part) (hname : ∀ name ∈ kind.name?, D.name name)
    (id : StmtId) (ty : Option TypeId) :
    P (lowerStmtKind unit lower id ty kind) fun _ => True := by
  cases kind with
  | block body => exact c.stmt.holds_lowerList hlower hparts
  | declare name init =>
    exact c.stmt.holds_lowerDeclare (hname name rfl) ty fun id hid => hexprs id (Option.mem_toList.mpr hid)
  | expr value => exact c.holds_discard (c.stmt.holds_lowerExpr (hexprs value (by simp [StmtKind.exprs])))
  | ret value => exact c.stmt.holds_lowerReturn fun id hid => hexprs id (Option.mem_toList.mpr hid)
  | conditional cond thenBody elseBody =>
    exact c.stmt.holds_lowerConditional hlower (hexprs cond (by simp [StmtKind.exprs]))
      (hparts thenBody (by simp [StmtKind.parts])) fun id hid => hparts id (by simp_all [StmtKind.parts])
  | whileLoop cond body =>
    exact c.stmt.holds_lowerWhile hlower (hexprs cond (by simp [StmtKind.exprs]))
      (hparts body (by simp [StmtKind.parts]))
  | doLoop body cond =>
    exact c.stmt.holds_lowerDo hlower (hexprs cond (by simp [StmtKind.exprs]))
      (hparts body (by simp [StmtKind.parts]))
  | forLoop init cond incr body =>
    exact c.stmt.holds_lowerFor hlower (fun id hid => hparts id (by simp_all [StmtKind.parts]))
      (fun id hid => hexprs id (by simp_all [StmtKind.exprs]))
      (fun id hid => hexprs id (by simp_all [StmtKind.exprs]))
      fun id hid => hparts id (by simp_all [StmtKind.parts])
  | switch cond body =>
    exact c.stmt.holds_lowerSwitch hlower (hexprs cond (by simp [StmtKind.exprs]))
      (hparts body (by simp [StmtKind.parts]))
  | breakJump =>
    apply c.get_bind fun _ _ _ => rfl
    intro s
    exact c.holds_jumpToInnermost s.breakTargets
  | continueJump =>
    apply c.get_bind fun _ _ _ => rfl
    intro s
    exact c.holds_jumpToInnermost s.continueTargets
  | goto name => exact c.stmt.holds_lowerGoto name
  | label name => exact c.holds_lowerLabel id
  | assertion cond =>
    cases cond with
    | none => exact c.pure trivial
    | some cond => exact c.stmt.holds_lowerAssertion (hexprs cond (by simp [StmtKind.exprs]))
  | error => exact c.stmt.holds_emitNop
  | caseLabel | defaultLabel | empty => exact c.pure trivial

theorem holds_lowerStmtWithin (depth : Nat) {id : StmtId} (h : D.stmt depth id) :
    P (unit.lowerStmtWithin depth id) fun _ => True := by
  induction depth generalizing id with
  | zero => exact c.holds_endless (D.stmt_zero h) _
  | succ depth ih =>
    apply c.bind (c.holds_stmt h)
    intro node hnode
    apply c.holds_withLine
    exact c.holds_lowerStmtKind (fun _ => ih) (D.stmt_parts h hnode) (D.stmt_exprs h hnode)
      (D.stmt_names h hnode) id node.ty

section Labels

variable (hlabel : ∀ id name block, P (modify fun s => { s with
  labelBlocks := (id, block) :: s.labelBlocks
  gotoTargets := s.gotoTargets ++ [(name, block)] }) fun _ => True)
include hlabel

/-- Making the block of each label, given that the property holds of entering a label. -/
theorem holds_createLabelsWithin (depth : Nat) {id : StmtId} (h : D.stmt depth id) :
    P (unit.createLabelsWithin depth id) fun _ => True := by
  induction depth generalizing id with
  | zero => exact c.holds_endless (D.stmt_zero h) _
  | succ depth ih =>
    apply c.bind (c.holds_stmt h)
    intro node hnode
    split
    · rename_i name hkind
      have hname := D.stmt_names h hnode name (by rw [hkind]; rfl)
      have htext : P (liftM (unit.names.name name)) fun _ : String => True :=
        c.lift (fun _ _ => trivial) fun _ herror =>
          ⟨D.name_error hname herror, isDangling_of_require herror trivial⟩
      apply c.bind htext
      intro label _
      apply c.bind (c.holds_newBlock label)
      intro block _
      exact hlabel id name block
    · apply c.holds_forM
      intro part hpart
      exact ih (D.stmt_parts h hnode part hpart)

/-- Lowering a body, given that the property holds of entering a label. -/
theorem holds_lowerBody {body : StmtId} (h : D.stmt (unit.stmts.size + 1) body) :
    P (unit.lowerBody body) fun _ => True := by
  apply c.bind (c.holds_createLabelsWithin hlabel _ h)
  intro _ _
  exact c.holds_lowerStmtWithin _ h

end Labels

end LowerM.Compositional

end MiddleEnd
