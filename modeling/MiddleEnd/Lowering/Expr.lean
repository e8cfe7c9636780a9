import MiddleEnd.Lowering.State

/-!
# Lowering expressions

An expression is lowered to instructions that compute its value, and to the operand that holds it.
Operands are evaluated from left to right. Reading a variable copies it into a new register, so a
later assignment does not change a value that was read before.

## Main definitions

* `SourceUnit.lowerExpr`: lowers an expression of a unit.
* `lowerLogical`: `&&` and `||`, which may skip their right operand.
* `lowerAssign`: assignments.
* `lowerUnary`: the operators with one operand, increments among them.

## Design notes

Each form is a function of its own, which is told how to lower the parts. The recursion is tied in
`SourceUnit.lowerExprWithin`, on a bound for the depth: parts come before the nodes they belong to,
so no expression is nested deeper than its unit has expressions.
-/

namespace MiddleEnd

open LowerM

/-- Reads a variable into a new register. -/
def lowerIdent (name : Name) (ty : Option TypeId) : LowerM Operand := do
  let var ← varOperand name ty
  emitUnary .copy ty var

/-- The value of a logical operator when its left operand decides: `0` for `&&`, `1` for `||`. -/
def shortCircuitValue (isAnd : Bool) : Int := if isAnd then 0 else 1

/-- `&&` and `||`. The right operand has a block of its own, which the left operand may skip. The
block behind both joins the value that was decided by the left operand with the right operand, made
into `0` or `1`. -/
def lowerLogical (lower : ExprId → LowerM Operand) (isAnd : Bool) (lhs rhs : ExprId)
    (ty : Option TypeId) : LowerM Operand := do
  let result ← newTemp ty
  let rhsBlock ← newBlock (if isAnd then "and_rhs" else "or_rhs")
  let mergeBlock ← newBlock "logic_merge"
  let left ← lower lhs
  if isAnd then emit (.branch left rhsBlock mergeBlock)
  else emit (.branch left mergeBlock rhsBlock)
  let lhsEnd ← current
  switchTo rhsBlock
  let right ← lower rhs
  let rightBool ← emitBinary .cmpNe none right (.int 0)
  ensureJump mergeBlock
  let rhsEnd ← current
  switchTo mergeBlock
  emit (.phi result none [⟨.int (shortCircuitValue isAnd), lhsEnd⟩, ⟨rightBool, rhsEnd⟩])
  return result

/-- The operators with two operands. -/
def lowerBinary (lower : ExprId → LowerM Operand) (op : BinaryOp) (lhs rhs : ExprId)
    (ty : Option TypeId) : LowerM Operand := do
  if op.isShortCircuit then
    lowerLogical lower (op == .logicalAnd) lhs rhs ty
  else
    let left ← lower lhs
    let right ← lower rhs
    emitBinary op.opcode ty left right

/-- Writes a value back to the operand of an increment. Only a variable can be written. -/
def writeBack (unit : SourceUnit) (operand : ExprId) (value : Operand) (ty : Option TypeId) :
    LowerM Unit := do
  match (← unit.expr operand).kind.ident? with
  | some name => writeVar name ty value
  | none => return ()

/-- `++x` and `--x`, which yield the new value. -/
def lowerPreUpdate (unit : SourceUnit) (lower : ExprId → LowerM Operand) (opcode : Opcode)
    (operand : ExprId) (ty : Option TypeId) : LowerM Operand := do
  let value ← lower operand
  let updated ← emitBinary opcode ty value (.int 1)
  writeBack unit operand updated ty
  return updated

/-- `x++` and `x--`, which yield the old value. -/
def lowerPostUpdate (unit : SourceUnit) (lower : ExprId → LowerM Operand) (opcode : Opcode)
    (operand : ExprId) (ty : Option TypeId) : LowerM Operand := do
  let value ← lower operand
  let old ← emitUnary .copy ty value
  let updated ← emitBinary opcode ty value (.int 1)
  writeBack unit operand updated ty
  return old

/-- The operators with one operand. -/
def lowerUnary (unit : SourceUnit) (lower : ExprId → LowerM Operand) (op : UnaryOp)
    (operand : ExprId) (ty : Option TypeId) : LowerM Operand :=
  let simple (opcode : Opcode) : LowerM Operand := do emitUnary opcode ty (← lower operand)
  match op with
  | .neg => simple .neg
  | .not => simple .not
  | .bitNot => simple .bitNot
  | .deref => simple .load
  | .addrOf => simple .addrOf
  | .preInc => lowerPreUpdate unit lower .add operand ty
  | .preDec => lowerPreUpdate unit lower .sub operand ty
  | .postInc => lowerPostUpdate unit lower .add operand ty
  | .postDec => lowerPostUpdate unit lower .sub operand ty

/-- Hands over the arguments one by one, each as soon as it is computed, and then calls. -/
def lowerCall (lower : ExprId → LowerM Operand) (callee : Name) (args : List ExprId)
    (ty : Option TypeId) : LowerM Operand := do
  args.forM fun arg => do
    let value ← lower arg
    emit (.param value)
  emitBinary .call ty (.func callee) (.int args.length)

/-- Writes a value to the target of an assignment: to the variable it names, or through the address
of what it denotes. The value of any other target is taken for an address. -/
def lowerTarget (unit : SourceUnit) (lower : ExprId → LowerM Operand) (target : ExprId)
    (value : Operand) : LowerM Unit := do
  let node ← unit.expr target
  match node.kind with
  | .ident name => writeVar name node.ty value
  | .unary .deref operand =>
    let addr ← lower operand
    emit (.store addr value)
  | .index array position =>
    let base ← lower array
    let offset ← lower position
    let addr ← emitBinary .indexAddr none base offset
    emit (.store addr value)
  | .member base field _ =>
    let object ← lower base
    let addr ← emitBinary .member none object (.field field)
    emit (.store addr value)
  | _ =>
    let addr ← lower target
    emit (.store addr value)

/-- An assignment. The value is computed before the target, and is what the assignment yields. -/
def lowerAssign (unit : SourceUnit) (lower : ExprId → LowerM Operand) (target value : ExprId) :
    LowerM Operand := do
  let result ← lower value
  lowerTarget unit lower target result
  return result

/-- One expression, told how to lower its parts. -/
def lowerExprKind (unit : SourceUnit) (lower : ExprId → LowerM Operand) (ty : Option TypeId) :
    ExprKind Name → LowerM Operand
  | .int value => emitUnary .const ty (.int value)
  | .float value => emitUnary .const ty (.float value)
  | .text value => do emitUnary .const ty (.literal (← internText value))
  | .ident name => lowerIdent name ty
  | .binary op lhs rhs => lowerBinary lower op lhs rhs ty
  | .unary op operand => lowerUnary unit lower op operand ty
  | .cast target operand => do emitUnary .cast (some target) (← lower operand)
  | .index array position => do
    let base ← lower array
    let offset ← lower position
    emitBinary .index ty base offset
  | .member base field _ => do emitBinary .member ty (← lower base) (.field field)
  | .call callee args => lowerCall lower callee args ty
  | .assign target value => lowerAssign unit lower target value
  | .initList [] => return .none
  | .initList (first :: _) => lower first
  | .error => return .none

namespace SourceUnit

/-- Lowers an expression that is nested less than `depth` deep. -/
def lowerExprWithin (unit : SourceUnit) : Nat → ExprId → LowerM Operand
  | 0, _ => throw .endlessNesting
  | depth + 1, id => do
    let node ← unit.expr id
    withLine node.line (lowerExprKind unit (unit.lowerExprWithin depth) node.ty node.kind)

/-- Lowers an expression and answers the operand that holds its value. An expression without a
value yields the empty operand. -/
def lowerExpr (unit : SourceUnit) (id : ExprId) : LowerM Operand :=
  unit.lowerExprWithin (unit.exprs.size + 1) id

end SourceUnit

end MiddleEnd
