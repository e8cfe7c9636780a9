import MiddleEnd.Syntax.Node

/-!
# Units

A unit is what one source text declares, together with the tables that its numbers point into:
names, types, expressions and statements.

## Main definitions

* `SourceUnit`: the unit.
* `SourceUnit.expr`, `SourceUnit.stmt`: the node with a number.
* `SourceUnit.allocExpr`, `SourceUnit.allocStmt`: enter a node.
* `SourceUnit.addExpr`, `SourceUnit.addStmt`: enter a node whose names are texts.
* `SourceUnit.addFunction`, `SourceUnit.addGlobal`: append a declaration.
* `SourceUnit.functions`, `SourceUnit.globals`, `SourceUnit.findFunction?`: what was declared.

## Design notes

Nodes are only ever entered at the end, and their parts are named by numbers handed out before. So
the parts of a node come before it, and following them ends.
-/

namespace MiddleEnd

/-- What a source text declares, with the tables of its nodes. -/
structure SourceUnit where
  names : Interner := {}
  types : TypeTable := {}
  exprs : Array Expr := #[]
  stmts : Array Stmt := #[]
  items : List Item := []
  deriving DecidableEq, Repr

namespace SourceUnit

instance : Inhabited SourceUnit := ⟨{}⟩

-- ════════════════════════════════════════════════════════════════════════
-- Reading
-- ════════════════════════════════════════════════════════════════════════

/-- The expression with the number `id`. -/
def expr (unit : SourceUnit) (id : ExprId) : Except Fault Expr :=
  require (.missingExpr id) unit.exprs[id]?

/-- The statement with the number `id`. -/
def stmt (unit : SourceUnit) (id : StmtId) : Except Fault Stmt :=
  require (.missingStmt id) unit.stmts[id]?

/-- A type as it is written in listings. -/
def typeText (unit : SourceUnit) (id : TypeId) : Except Fault String :=
  unit.types.text unit.names id

/-- The declared functions in order. -/
def functions (unit : SourceUnit) : List FunctionDecl :=
  unit.items.filterMap fun
    | .function decl => some decl
    | .global _ => none

/-- The declared global variables in order. -/
def globals (unit : SourceUnit) : List GlobalDecl :=
  unit.items.filterMap fun
    | .global decl => some decl
    | .function _ => none

/-- The first declared function with the name `text`. -/
def findFunction? (unit : SourceUnit) (text : String) : Option FunctionDecl := do
  let name ← unit.names.lookup text
  unit.functions.find? (·.name == name)

-- ════════════════════════════════════════════════════════════════════════
-- Entering
-- ════════════════════════════════════════════════════════════════════════

/-- The number of a name, entering it if it is new. -/
def intern (unit : SourceUnit) (text : String) : Name × SourceUnit :=
  let (name, names) := unit.names.intern text
  (name, { unit with names })

/-- Enters a type. -/
def addType (unit : SourceUnit) (ty : Ty) : TypeId × SourceUnit :=
  let (id, types) := unit.types.add ty
  (id, { unit with types })

/-- Enters an expression. -/
def allocExpr (unit : SourceUnit) (node : Expr) : ExprId × SourceUnit :=
  (unit.exprs.size, { unit with exprs := unit.exprs.push node })

/-- Enters a statement. -/
def allocStmt (unit : SourceUnit) (node : Stmt) : StmtId × SourceUnit :=
  (unit.stmts.size, { unit with stmts := unit.stmts.push node })

/-- The form with its name replaced by a number. -/
def internExpr (unit : SourceUnit) : ExprKind String → ExprKind Name × SourceUnit
  | .int value => (.int value, unit)
  | .float value => (.float value, unit)
  | .text value => (.text value, unit)
  | .ident text =>
    let (name, unit) := unit.intern text
    (.ident name, unit)
  | .binary op lhs rhs => (.binary op lhs rhs, unit)
  | .unary op operand => (.unary op operand, unit)
  | .cast target operand => (.cast target operand, unit)
  | .index array position => (.index array position, unit)
  | .member base text arrow =>
    let (field, unit) := unit.intern text
    (.member base field arrow, unit)
  | .call text args =>
    let (callee, unit) := unit.intern text
    (.call callee args, unit)
  | .assign target value => (.assign target value, unit)
  | .initList elements => (.initList elements, unit)
  | .error => (.error, unit)

/-- The form with its name replaced by a number. -/
def internStmt (unit : SourceUnit) : StmtKind String → StmtKind Name × SourceUnit
  | .block body => (.block body, unit)
  | .declare text init =>
    let (name, unit) := unit.intern text
    (.declare name init, unit)
  | .expr value => (.expr value, unit)
  | .ret value => (.ret value, unit)
  | .conditional cond thenBody elseBody => (.conditional cond thenBody elseBody, unit)
  | .whileLoop cond body => (.whileLoop cond body, unit)
  | .doLoop body cond => (.doLoop body cond, unit)
  | .forLoop init cond incr body => (.forLoop init cond incr body, unit)
  | .switch cond body => (.switch cond body, unit)
  | .caseLabel value => (.caseLabel value, unit)
  | .defaultLabel => (.defaultLabel, unit)
  | .breakJump => (.breakJump, unit)
  | .continueJump => (.continueJump, unit)
  | .goto text =>
    let (target, unit) := unit.intern text
    (.goto target, unit)
  | .label text =>
    let (name, unit) := unit.intern text
    (.label name, unit)
  | .assertion cond => (.assertion cond, unit)
  | .empty => (.empty, unit)
  | .error => (.error, unit)

/-- Enters an expression with the given type and line. -/
def addExpr (unit : SourceUnit) (form : ExprKind String) (ty : Option TypeId) (line : Nat) :
    ExprId × SourceUnit :=
  let (kind, unit) := unit.internExpr form
  (unit.exprs.size, { unit with exprs := unit.exprs.push { kind, ty, line } })

/-- Enters a statement with the given type and line. -/
def addStmt (unit : SourceUnit) (form : StmtKind String) (ty : Option TypeId) (line : Nat) :
    StmtId × SourceUnit :=
  let (kind, unit) := unit.internStmt form
  (unit.stmts.size, { unit with stmts := unit.stmts.push { kind, ty, line } })

/-- The parameters with their names replaced by numbers. -/
def internParams (unit : SourceUnit) :
    List (Option String × TypeId) → List ParamDecl × SourceUnit
  | [] => ([], unit)
  | (none, ty) :: rest =>
    let (params, unit) := unit.internParams rest
    ({ name := none, ty } :: params, unit)
  | (some text, ty) :: rest =>
    let (name, unit) := unit.intern text
    let (params, unit) := unit.internParams rest
    ({ name := some name, ty } :: params, unit)

/-- Appends a function. Its name is entered before those of its parameters. -/
def addFunction (unit : SourceUnit) (text : String) (returnType : TypeId)
    (params : List (Option String × TypeId)) (body : Option StmtId) (line : Nat) : SourceUnit :=
  let (name, unit) := unit.intern text
  let (params, unit) := unit.internParams params
  { unit with items := unit.items ++ [.function { name, returnType, params, body, line }] }

/-- Appends a global variable. -/
def addGlobal (unit : SourceUnit) (text : String) (ty : TypeId) (init : Option ExprId)
    (line : Nat) : SourceUnit :=
  let (name, unit) := unit.intern text
  { unit with items := unit.items ++ [.global { name, ty, init, line }] }

end SourceUnit

end MiddleEnd
