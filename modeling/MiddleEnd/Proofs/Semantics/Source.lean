import MiddleEnd.Lowering.Unit
import MiddleEnd.Proofs.Semantics.Machine

/-!
# Running source code

An interpreter for expressions and statements, which says what they mean without any blocks or
registers. Variables are known by name throughout a function. What operators do is left open: each does
what the operation of the machine does that it stands for.

## Main definitions

* `Memory`, `EvalM`: what evaluation reads and changes.
* `SourceUnit.eval`: the value of an expression.
* `Completion`: how a statement ends.
* `SourceUnit.exec`: what a statement does.
* `SourceUnit.callWithin`: what a call of a function returns.
* `SourceUnit.Structured`: statements that leave other statements only through `break`, `continue` and
  `return`.

## Design notes

Loops may go on forever, so the interpreter is given a number of rounds that no loop exceeds. A loop that
would exceed it ends there, and with it all statements around it, as unfinished.
-/

namespace MiddleEnd

-- ════════════════════════════════════════════════════════════════════════
-- Memory
-- ════════════════════════════════════════════════════════════════════════

/-- What a call of a function reads and changes: its variables, and the world outside. -/
structure Memory (V S : Type) where
  vars : Name → V
  ext : S

/-- Evaluation. It fails where the unit does not have what it refers to. -/
abbrev EvalM (V S : Type) := StateT (Memory V S) Option

/-- The operations that only move values do so, and the one that does nothing does nothing. -/
structure Semantics.Moves {V S : Type} (sem : Semantics V S) : Prop where
  copy : ∀ ty a b ext, sem.apply .copy ty a b ext = (a, ext)
  const : ∀ ty a b ext, sem.apply .const ty a b ext = (a, ext)
  nop : ∀ ty a b ext, (sem.apply .nop ty a b ext).2 = ext

namespace EvalM

variable {V S : Type}

/-- The value of a variable. -/
def readVar (name : Name) : EvalM V S V := do return (← get).vars name

/-- Changes the value of a variable. -/
def writeVar (name : Name) (value : V) : EvalM V S Unit :=
  modify fun mem => { mem with vars := fun other => if other = name then value else mem.vars other }

/-- The value of an operation, which may change the world outside. -/
def apply (sem : Semantics V S) (op : Opcode) (ty : Option TypeId) (a b : V) : EvalM V S V :=
  fun mem => some ((sem.apply op ty a b mem.ext).1, { mem with ext := (sem.apply op ty a b mem.ext).2 })

/-- The effect of an operation without a value. -/
def perform (sem : Semantics V S) (op : Opcode) (a b : V) : EvalM V S Unit :=
  discard (apply sem op none a b)

end EvalM

open EvalM

-- ════════════════════════════════════════════════════════════════════════
-- Expressions
-- ════════════════════════════════════════════════════════════════════════

section Expressions

variable {V S : Type} (sem : Semantics V S) (unit : SourceUnit)
  (eval : ExprId → EvalM V S V) (ty : Option TypeId)

/-- The value of what has no value. -/
def Semantics.nothing : V := sem.constant .none

/-- `&&` and `||`, which leave the right operand alone if the left one decides. -/
def evalLogical (isAnd : Bool) (lhs rhs : ExprId) : EvalM V S V := do
  let left ← eval lhs
  if sem.holds left = isAnd then
    let right ← eval rhs
    apply sem .cmpNe none right (sem.constant (.int 0))
  else
    return sem.constant (.int (if isAnd then 0 else 1))

/-- The operators with two operands, which are evaluated from left to right. -/
def evalBinary (op : BinaryOp) (lhs rhs : ExprId) : EvalM V S V :=
  match op with
  | .logicalAnd => evalLogical sem eval true lhs rhs
  | .logicalOr => evalLogical sem eval false lhs rhs
  | _ => do
    let left ← eval lhs
    let right ← eval rhs
    apply sem op.opcode ty left right

/-- Writes a value back to an operand. Only a variable can be written. -/
def evalWriteBack (operand : ExprId) (value : V) : EvalM V S Unit := do
  match (← unit.exprs[operand]?).kind.ident? with
  | some name => writeVar name value
  | none => return ()

/-- Increments and decrements, which write the new value back. The result is the old value and the new
one. -/
def evalUpdate (op : Opcode) (operand : ExprId) : EvalM V S (V × V) := do
  let old ← eval operand
  let new ← apply sem op ty old (sem.constant (.int 1))
  evalWriteBack unit operand new
  return (old, new)

/-- The operators with one operand. -/
def evalUnary (op : UnaryOp) (operand : ExprId) : EvalM V S V := do
  let simple (op : Opcode) : EvalM V S V := do apply sem op ty (← eval operand) sem.nothing
  match op with
  | .neg => simple .neg
  | .not => simple .not
  | .bitNot => simple .bitNot
  | .deref => simple .load
  | .addrOf => simple .addrOf
  | .preInc => return (← evalUpdate sem unit eval ty .add operand).2
  | .preDec => return (← evalUpdate sem unit eval ty .sub operand).2
  | .postInc => return (← evalUpdate sem unit eval ty .add operand).1
  | .postDec => return (← evalUpdate sem unit eval ty .sub operand).1

/-- A call. Each argument is handed over as soon as it is known. -/
def evalCall (callee : Name) (args : List ExprId) : EvalM V S V := do
  args.forM fun arg => do perform sem .param (← eval arg) sem.nothing
  apply sem .call ty (sem.constant (.func callee)) (sem.constant (.int args.length))

/-- Assigns a value: to the variable that the target names, or through the address of what it denotes.
The value of any other target is taken for an address. -/
def evalTarget (target : ExprId) (value : V) : EvalM V S Unit := do
  match (← unit.exprs[target]?).kind with
  | .ident name => writeVar name value
  | .unary .deref operand =>
    let addr ← eval operand
    perform sem .store addr value
  | .index array position =>
    let base ← eval array
    let offset ← eval position
    let addr ← apply sem .indexAddr none base offset
    perform sem .store addr value
  | .member base field _ =>
    let object ← eval base
    let addr ← apply sem .member none object (sem.constant (.field field))
    perform sem .store addr value
  | _ =>
    let addr ← eval target
    perform sem .store addr value

/-- One expression, told how to evaluate its parts. A string literal has the value of its number in the
table of literals. -/
def evalKind (texts : Interner) : ExprKind Name → EvalM V S V
  | .int value => return sem.constant (.int value)
  | .float value => return sem.constant (.float value)
  | .text value => do return sem.constant (.literal (← texts.lookup value))
  | .ident name => readVar name
  | .binary op lhs rhs => evalBinary sem eval ty op lhs rhs
  | .unary op operand => evalUnary sem unit eval ty op operand
  | .cast target operand => do apply sem .cast (some target) (← eval operand) sem.nothing
  | .index array position => do
    let base ← eval array
    let offset ← eval position
    apply sem .index ty base offset
  | .member base field _ => do apply sem .member ty (← eval base) (sem.constant (.field field))
  | .call callee args => evalCall sem eval ty callee args
  | .assign target value => do
    let result ← eval value
    evalTarget sem unit eval target result
    return result
  | .initList [] => return sem.nothing
  | .initList (first :: _) => eval first
  | .error => return sem.nothing

end Expressions

/-- The value of an expression that is nested less than `depth` deep. -/
def SourceUnit.evalWithin {V S : Type} (unit : SourceUnit) (sem : Semantics V S) (texts : Interner) :
    Nat → ExprId → EvalM V S V
  | 0, _ => failure
  | depth + 1, id => do
    let node ← unit.exprs[id]?
    evalKind sem unit (unit.evalWithin sem texts depth) node.ty texts node.kind

/-- The value of an expression. Parts come before the nodes they belong to, so no expression is nested
deeper than its unit has expressions. -/
def SourceUnit.eval {V S : Type} (unit : SourceUnit) (sem : Semantics V S) (texts : Interner)
    (id : ExprId) : EvalM V S V :=
  unit.evalWithin sem texts (unit.exprs.size + 1) id

-- ════════════════════════════════════════════════════════════════════════
-- Statements
-- ════════════════════════════════════════════════════════════════════════

/-- How a statement ends. -/
inductive Completion (V : Type) where
  /-- The next statement follows. -/
  | normal
  /-- The innermost loop or switch is left. -/
  | breaks
  /-- The innermost loop goes on to its next round. -/
  | continues
  /-- The function is left with a value. -/
  | returns (value : V)
  /-- A loop has used up its rounds. -/
  | unfinished

/-- What is around a statement: whether `break` and `continue` have something to leave or to go on
with. Without that they do nothing. -/
structure Surroundings where
  canBreak : Bool := false
  canContinue : Bool := false

/-- The surroundings of the body of a loop. -/
def Surroundings.loop : Surroundings := { canBreak := true, canContinue := true }

section Statements

variable {V S : Type}

/-- Statements one after the other, up to the first that does not end normally. -/
def execList (exec : StmtId → EvalM V S (Completion V)) : List StmtId → EvalM V S (Completion V)
  | [] => return .normal
  | id :: rest => do
    match ← exec id with
    | .normal => execList exec rest
    | done => return done

/-- Rounds of a loop, as long as `again` says so. -/
def execRounds (body : EvalM V S (Completion V)) (again : EvalM V S Bool) :
    Nat → EvalM V S (Completion V)
  | 0 => return .unfinished
  | rounds + 1 => do
    match ← body with
    | .normal | .continues => if ← again then execRounds body again rounds else return .normal
    | .breaks => return .normal
    | .returns value => return .returns value
    | .unfinished => return .unfinished

/-- How a switch ends when its statements end so. -/
def Completion.leaveSwitch : Completion V → Completion V
  | .breaks => .normal
  | done => done

namespace SourceUnit

/-- The form of a statement. -/
def kind? (unit : SourceUnit) (id : StmtId) : Option (StmtKind Name) := unit.stmts[id]?.map Stmt.kind

/-- The statements of a switch after the first case that the value selects. -/
def afterCase? (unit : SourceUnit) (sem : Semantics V S) (value : V) :
    List StmtId → Option (List StmtId)
  | [] => none
  | id :: rest =>
    match unit.kind? id with
    | some (.caseLabel n) => if sem.selects value n then some rest else unit.afterCase? sem value rest
    | _ => unit.afterCase? sem value rest

/-- The statements of a switch after its last default. -/
def afterDefault? (unit : SourceUnit) : List StmtId → Option (List StmtId)
  | [] => none
  | id :: rest =>
    (unit.afterDefault? rest).or (if unit.kind? id = some .defaultLabel then some rest else none)

/-- The statement marks an entry of a switch. -/
def isEntry (unit : SourceUnit) (id : StmtId) : Bool :=
  match unit.kind? id with
  | some (.caseLabel _) | some .defaultLabel => true
  | _ => false

/-- The statements of a switch that a value selects: those after the first case for it, or else those
after the last default, or else none. Further entries on the way are passed over. -/
def selected (unit : SourceUnit) (sem : Semantics V S) (value : V) (parts : List StmtId) :
    List StmtId :=
  (((unit.afterCase? sem value parts).or (unit.afterDefault? parts)).getD []).filter (!unit.isEntry ·)

/-- The statements directly in the body of a switch. -/
def switchParts (unit : SourceUnit) (body : StmtId) : List StmtId :=
  match unit.kind? body with
  | some (.block parts) => parts
  | _ => [body]

end SourceUnit

/-- Whether a condition holds. A missing one does. -/
def evalTest (sem : Semantics V S) (unit : SourceUnit) (texts : Interner) :
    Option ExprId → EvalM V S Bool
  | some cond => do return sem.holds (← unit.eval sem texts cond)
  | none => return true

variable (sem : Semantics V S) (unit : SourceUnit) (texts : Interner) (rounds : Nat)
  (run : Surroundings → StmtId → EvalM V S (Completion V)) (around : Surroundings)

/-- One statement, told how to execute its parts. Entries of a switch mean something only directly in its
body. -/
def execKind : StmtKind Name → EvalM V S (Completion V)
  | .block body => execList (run around) body
  | .declare name init => do
    match init with
    | some value => writeVar name (← unit.eval sem texts value)
    | none => pure ()
    return .normal
  | .expr value => do
    discard (unit.eval sem texts value)
    return .normal
  | .ret (some value) => do return .returns (← unit.eval sem texts value)
  | .ret none => return .returns sem.nothing
  | .conditional cond thenBody elseBody => do
    if ← evalTest sem unit texts (some cond) then run around thenBody
    else
      match elseBody with
      | some elseBody => run around elseBody
      | none => return .normal
  | .whileLoop cond body => do
    let test := evalTest sem unit texts (some cond)
    if ← test then execRounds (run .loop body) test rounds else return .normal
  | .doLoop body cond =>
    execRounds (run .loop body) (evalTest sem unit texts (some cond)) rounds
  | .forLoop init cond incr body => do
    let test := evalTest sem unit texts cond
    let again : EvalM V S Bool := do
      incr.forM fun step => discard (unit.eval sem texts step)
      test
    init.forM fun start => discard (run .loop start)
    if ← test then
      execRounds (body.elim (return .normal) (run .loop)) again rounds
    else return .normal
  | .switch cond body => do
    let value ← unit.eval sem texts cond
    let done ← execList (run { around with canBreak := true })
      (unit.selected sem value (unit.switchParts body))
    return done.leaveSwitch
  | .breakJump => return if around.canBreak then .breaks else .normal
  | .continueJump => return if around.canContinue then .continues else .normal
  | .assertion (some cond) => do
    if ← evalTest sem unit texts (some cond) then return .normal else return .returns sem.nothing
  | .assertion none | .caseLabel _ | .defaultLabel | .empty | .error => return .normal
  | .goto _ | .label _ => failure

end Statements

namespace SourceUnit

variable {V S : Type}

/-- What a statement does that is nested less than `depth` deep. -/
def execWithin (unit : SourceUnit) (sem : Semantics V S) (texts : Interner) (rounds : Nat) :
    Nat → Surroundings → StmtId → EvalM V S (Completion V)
  | 0, _, _ => failure
  | depth + 1, around, id => do
    let node ← unit.stmts[id]?
    execKind sem unit texts rounds (unit.execWithin sem texts rounds depth) around node.kind

/-- What a statement does. -/
def exec (unit : SourceUnit) (sem : Semantics V S) (texts : Interner) (rounds : Nat)
    (around : Surroundings) (id : StmtId) : EvalM V S (Completion V) :=
  unit.execWithin sem texts rounds (unit.stmts.size + 1) around id

-- ════════════════════════════════════════════════════════════════════════
-- Calls
-- ════════════════════════════════════════════════════════════════════════

/-- Whether a parameter has the given name and holds something. -/
def isParam (unit : SourceUnit) (name : Name) (param : ParamDecl) : Bool :=
  param.name == some name && (unit.types.get param.ty).toOption.any fun ty => !ty.isVoid

/-- What a call of a function returns when no loop takes more than the given number of rounds, and in
which state it leaves the world outside. The value is missing if a loop needs more. Parameters hold their
arguments at the start, and all other variables zero. A function that does not return a value returns
nothing. -/
def callWithin (unit : SourceUnit) (sem : Semantics V S) (texts : Interner) (rounds : Nat)
    (decl : FunctionDecl) (args : Name → V) (ext : S) : Option (Option V × S) := do
  let body ← decl.body
  let vars := fun name => if decl.params.any (unit.isParam name) then args name else sem.zero
  let (done, mem) ← (unit.exec sem texts rounds {} body).run { vars, ext }
  match done with
  | .returns value => return (some value, mem.ext)
  | .unfinished => return (none, mem.ext)
  | .normal | .breaks | .continues => return (some sem.nothing, mem.ext)

end SourceUnit

-- ════════════════════════════════════════════════════════════════════════
-- Structured code
-- ════════════════════════════════════════════════════════════════════════

namespace StmtKind

/-- The statement is a label or leads to one. -/
def IsLabelled {ν : Type} : StmtKind ν → Prop
  | .goto _ | .label _ => True
  | _ => False

/-- The statement is a declaration or an expression. -/
def IsSimple {ν : Type} : StmtKind ν → Prop
  | .declare _ _ | .expr _ => True
  | _ => False

/-- The statement with which a loop starts. -/
def start? {ν : Type} : StmtKind ν → Option StmtId
  | .forLoop init _ _ _ => init
  | _ => none

end StmtKind

/-- A statement of structured code: there are no labels in it and no jumps to labels, and its loops start
with declarations and expressions. -/
inductive SourceUnit.Structured (unit : SourceUnit) : StmtId → Prop
  | mk {id : StmtId} {node : Stmt} (hnode : unit.stmts[id]? = some node)
    (hkind : ¬ node.kind.IsLabelled)
    (hstart : ∀ start ∈ node.kind.start?, ∃ node, unit.stmts[start]? = some node ∧ node.kind.IsSimple)
    (hparts : ∀ part ∈ node.kind.parts, unit.Structured part) : Structured unit id

end MiddleEnd
