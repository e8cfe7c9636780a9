import MiddleEnd.Lowering.Expr

/-!
# Lowering statements

A statement is lowered to instructions that start in the current block and end in the block that is
current afterwards. That block may already be closed by a terminator; whatever follows then goes
into a new block that control does not reach, unless it is a label.

## Main definitions

* `SourceUnit.createLabels`: makes a block for every label before anything is lowered.
* `SourceUnit.lowerStmt`: lowers a statement of a unit.
* `lowerConditional`, `lowerWhile`, `lowerDo`, `lowerFor`, `lowerSwitch`: the control statements.

## Design notes

Each control statement is a function of its own, which is told how to lower the parts. The blocks of
a control statement are made before its parts are lowered.
-/

namespace MiddleEnd

open LowerM

-- ════════════════════════════════════════════════════════════════════════
-- Labels
-- ════════════════════════════════════════════════════════════════════════

/-- Makes the block of a label. The first label of a name is where `goto` leads. -/
def createLabel (unit : SourceUnit) (id : StmtId) (name : Name) : LowerM Unit := do
  let block ← newBlock (← unit.names.name name)
  modify fun s => { s with
    labelBlocks := (id, block) :: s.labelBlocks
    gotoTargets := s.gotoTargets ++ [(name, block)] }

/-- The statements inside a statement, in source order. -/
def StmtKind.parts {ν : Type} : StmtKind ν → List StmtId
  | .block body => body
  | .conditional _ thenBody elseBody => thenBody :: elseBody.toList
  | .whileLoop _ body => [body]
  | .doLoop body _ => [body]
  | .forLoop init _ _ body => init.toList ++ body.toList
  | .switch _ body => [body]
  | _ => []

/-- Makes the blocks of all labels in a statement that is nested less than `depth` deep. -/
def SourceUnit.createLabelsWithin (unit : SourceUnit) : Nat → StmtId → LowerM Unit
  | 0, _ => throw .endlessNesting
  | depth + 1, id => do
    match (← unit.stmt id).kind with
    | .label name => createLabel unit id name
    | kind => kind.parts.forM (unit.createLabelsWithin depth)

/-- Makes the blocks of all labels in a statement, in source order. -/
def SourceUnit.createLabels (unit : SourceUnit) (id : StmtId) : LowerM Unit :=
  unit.createLabelsWithin (unit.stmts.size + 1) id

/-- Goes to a label, or does nothing when there is no such label. -/
def lowerGoto (name : Name) : LowerM Unit := do
  match (← get).gotoTargets.lookup name with
  | some target => emit (.jump target)
  | none => emit .nop

/-- Goes on in the block of a label. -/
def lowerLabel (id : StmtId) : LowerM Unit := do
  match (← get).labelBlocks.lookup id with
  | some block =>
    ensureJump block
    switchTo block
  | none => return ()

-- ════════════════════════════════════════════════════════════════════════
-- Straight code
-- ════════════════════════════════════════════════════════════════════════

/-- Whether a statement opens a block of its own. -/
def StmtKind.opensBlock {ν : Type} : StmtKind ν → Bool
  | .label _ | .caseLabel _ | .defaultLabel => true
  | _ => false

/-- Opens a new block if the current one is closed and the next statement does not open one. -/
def openDeadBlock (unit : SourceUnit) (next : StmtId) : LowerM Unit := do
  if ← isTerminated then
    unless (← unit.stmt next).kind.opensBlock do
      switchTo (← newBlock "dead")

/-- Statements one after the other. -/
def lowerList (unit : SourceUnit) (lower : StmtId → LowerM Unit) (body : List StmtId) :
    LowerM Unit :=
  body.forM fun id => do
    openDeadBlock unit id
    lower id

/-- A declaration. The variable is entered before its initial value is computed. -/
def lowerDeclare (unit : SourceUnit) (name : Name) (ty : Option TypeId) (init : Option ExprId) :
    LowerM Unit := do
  let var ← varOperand name ty
  match init with
  | some value => do
    let result ← unit.lowerExpr value
    emit (.unary .copy var result)
  | none => return ()

/-- Leaves the function. -/
def lowerReturn (unit : SourceUnit) (value : Option ExprId) : LowerM Unit := do
  let result ← match value with
    | some value => unit.lowerExpr value
    | none => pure .none
  emit (.ret result)

/-- Goes to the innermost of the given targets, or does nothing when there is none. -/
def jumpToInnermost (targets : List BlockId) : LowerM Unit :=
  match targets with
  | target :: _ => emit (.jump target)
  | [] => return ()

/-- An assertion leaves the function when its condition does not hold. -/
def lowerAssertion (unit : SourceUnit) (cond : ExprId) : LowerM Unit := do
  let failBlock ← newBlock "assert_fail"
  let okBlock ← newBlock "assert_ok"
  let value ← unit.lowerExpr cond
  emit (.branch value okBlock failBlock)
  switchTo failBlock
  emit .nop
  emit (.ret .none)
  switchTo okBlock

-- ════════════════════════════════════════════════════════════════════════
-- Conditionals and loops
-- ════════════════════════════════════════════════════════════════════════

/-- Fills a block with a statement and goes on to `next`. -/
def fillBlock (lower : StmtId → LowerM Unit) (block : BlockId) (body : StmtId) (next : BlockId) :
    LowerM Unit := do
  switchTo block
  lower body
  ensureJump next

/-- A conditional. -/
def lowerConditional (unit : SourceUnit) (lower : StmtId → LowerM Unit) (cond : ExprId)
    (thenBody : StmtId) (elseBody : Option StmtId) : LowerM Unit := do
  let thenBlock ← newBlock "if_then"
  match elseBody with
  | some elseBody =>
    let elseBlock ← newBlock "if_else"
    let mergeBlock ← newBlock "if_merge"
    let value ← unit.lowerExpr cond
    emit (.branch value thenBlock elseBlock)
    fillBlock lower thenBlock thenBody mergeBlock
    fillBlock lower elseBlock elseBody mergeBlock
    switchTo mergeBlock
  | none =>
    let mergeBlock ← newBlock "if_merge"
    let value ← unit.lowerExpr cond
    emit (.branch value thenBlock mergeBlock)
    fillBlock lower thenBlock thenBody mergeBlock
    switchTo mergeBlock

/-- A loop that tests its condition first. -/
def lowerWhile (unit : SourceUnit) (lower : StmtId → LowerM Unit) (cond : ExprId)
    (body : StmtId) : LowerM Unit := do
  let condBlock ← newBlock "while_cond"
  let bodyBlock ← newBlock "while_body"
  let exitBlock ← newBlock "while_exit"
  withLoop exitBlock condBlock do
    ensureJump condBlock
    switchTo condBlock
    let value ← unit.lowerExpr cond
    emit (.branch value bodyBlock exitBlock)
    fillBlock lower bodyBlock body condBlock
  switchTo exitBlock

/-- A loop that tests its condition last. -/
def lowerDo (unit : SourceUnit) (lower : StmtId → LowerM Unit) (body : StmtId)
    (cond : ExprId) : LowerM Unit := do
  let bodyBlock ← newBlock "do_body"
  let condBlock ← newBlock "do_cond"
  let exitBlock ← newBlock "do_exit"
  withLoop exitBlock condBlock do
    ensureJump bodyBlock
    fillBlock lower bodyBlock body condBlock
    switchTo condBlock
    let value ← unit.lowerExpr cond
    emit (.branch value bodyBlock exitBlock)
  switchTo exitBlock

/-- A loop with a start, a condition and a step, each of which may be missing. Without a condition
it goes on forever. -/
def lowerFor (unit : SourceUnit) (lower : StmtId → LowerM Unit) (init : Option StmtId)
    (cond incr : Option ExprId) (body : Option StmtId) : LowerM Unit := do
  let condBlock ← newBlock "for_cond"
  let bodyBlock ← newBlock "for_body"
  let incrBlock ← newBlock "for_incr"
  let exitBlock ← newBlock "for_exit"
  withLoop exitBlock incrBlock do
    init.forM lower
    ensureJump condBlock
    switchTo condBlock
    match cond with
    | some cond => do
      let value ← unit.lowerExpr cond
      emit (.branch value bodyBlock exitBlock)
    | none => emit (.jump bodyBlock)
    switchTo bodyBlock
    body.forM lower
    ensureJump incrBlock
    switchTo incrBlock
    incr.forM fun step => discard (unit.lowerExpr step)
    ensureJump condBlock
  switchTo exitBlock

-- ════════════════════════════════════════════════════════════════════════
-- Switches
-- ════════════════════════════════════════════════════════════════════════

/-- An entry of a switch: its block, and the value that selects it, if it is not the default. -/
structure SwitchEntry where
  value : Option Int
  block : BlockId
  deriving DecidableEq, Repr

/-- Makes the block of a statement that marks an entry of a switch. -/
def createEntry (unit : SourceUnit) (id : StmtId) : LowerM (Option SwitchEntry) := do
  match (← unit.stmt id).kind with
  | .caseLabel value => return some ⟨some value, ← newBlock ("case_" ++ toString value)⟩
  | .defaultLabel => return some ⟨none, ← newBlock "default"⟩
  | _ => return none

/-- The cases among the entries of a switch. -/
def switchCases (entries : List (Option SwitchEntry)) : List SwitchCase :=
  (entries.filterMap id).filterMap fun entry =>
    entry.value.map fun value => { value, target := entry.block }

/-- The block of the last default among the entries of a switch. -/
def switchDefault? (entries : List (Option SwitchEntry)) : Option BlockId :=
  (((entries.filterMap id).filter (·.value.isNone)).map (·.block)).getLast?

/-- A statement of a switch: an entry goes on in its block, anything else is lowered there. -/
def lowerSwitchPart (unit : SourceUnit) (lower : StmtId → LowerM Unit) (id : StmtId)
    (entry : Option SwitchEntry) : LowerM Unit := do
  match entry with
  | some entry =>
    ensureJump entry.block
    switchTo entry.block
  | none =>
    openDeadBlock unit id
    lower id

/-- The statements of the body of a switch. -/
def switchBody (unit : SourceUnit) (body : StmtId) : Except Fault (List StmtId) := do
  match (← unit.stmt body).kind with
  | .block stmts => return stmts
  | _ => return [body]

/-- A switch. An entry without a jump before it is also entered from the statements above it. -/
def lowerSwitch (unit : SourceUnit) (lower : StmtId → LowerM Unit) (cond : ExprId)
    (body : StmtId) : LowerM Unit := do
  let exitBlock ← newBlock "switch_exit"
  withBreak exitBlock do
    let value ← unit.lowerExpr cond
    let stmts ← switchBody unit body
    let entries ← stmts.mapM (createEntry unit)
    emit (.switch value (switchCases entries) ((switchDefault? entries).getD exitBlock))
    (stmts.zip entries).forM fun (id, entry) => lowerSwitchPart unit lower id entry
    ensureJump exitBlock
  switchTo exitBlock

-- ════════════════════════════════════════════════════════════════════════
-- Statements
-- ════════════════════════════════════════════════════════════════════════

/-- One statement, told how to lower its parts. Entries of a switch mean something only directly in
its body. -/
def lowerStmtKind (unit : SourceUnit) (lower : StmtId → LowerM Unit) (id : StmtId)
    (ty : Option TypeId) : StmtKind Name → LowerM Unit
  | .block body => lowerList unit lower body
  | .declare name init => lowerDeclare unit name ty init
  | .expr value => discard (unit.lowerExpr value)
  | .ret value => lowerReturn unit value
  | .conditional cond thenBody elseBody => lowerConditional unit lower cond thenBody elseBody
  | .whileLoop cond body => lowerWhile unit lower cond body
  | .doLoop body cond => lowerDo unit lower body cond
  | .forLoop init cond incr body => lowerFor unit lower init cond incr body
  | .switch cond body => lowerSwitch unit lower cond body
  | .breakJump => do jumpToInnermost (← get).breakTargets
  | .continueJump => do jumpToInnermost (← get).continueTargets
  | .goto name => lowerGoto name
  | .label _ => lowerLabel id
  | .assertion (some cond) => lowerAssertion unit cond
  | .error => emit .nop
  | .assertion none | .caseLabel _ | .defaultLabel | .empty => return ()

namespace SourceUnit

/-- Lowers a statement that is nested less than `depth` deep. -/
def lowerStmtWithin (unit : SourceUnit) : Nat → StmtId → LowerM Unit
  | 0, _ => throw .endlessNesting
  | depth + 1, id => do
    let node ← unit.stmt id
    withLine node.line (lowerStmtKind unit (unit.lowerStmtWithin depth) id node.ty node.kind)

/-- Lowers a statement. Parts come before the statements they belong to, so no statement is nested
deeper than its unit has statements. -/
def lowerStmt (unit : SourceUnit) (id : StmtId) : LowerM Unit :=
  unit.lowerStmtWithin (unit.stmts.size + 1) id

end SourceUnit

end MiddleEnd
