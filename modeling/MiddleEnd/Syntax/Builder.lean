import MiddleEnd.Syntax.SourceUnit

/-!
# Building a unit

A builder enters nodes one by one. Each node records the current line, and each expression gets the
type that its form suggests unless a type is given.

## Main definitions

* `Builder`: a unit under construction and the current line.
* `Builder.addExpr`, `Builder.addStmt`: enter a node of the suggested type.
* `Builder.addIdent`, `Builder.addDeclaration`: enter a node of a given type.
* `Builder.addFunction`, `Builder.addGlobal`: append a declaration.
-/

namespace MiddleEnd

/-- A unit under construction. -/
structure Builder where
  unit : SourceUnit := {}
  /-- The line that new nodes record. -/
  line : Nat := 1
  deriving DecidableEq, Repr

namespace Builder

instance : Inhabited Builder := ⟨{}⟩

/-- Applies a function that answers a value and a new unit. -/
def onUnit {α : Type} (b : Builder) (act : SourceUnit → α × SourceUnit) : α × Builder :=
  let (result, unit) := act b.unit
  (result, { b with unit })

/-- The type that a form suggests: `double` for a floating literal, a new pointer to `char` for a
text, the target of a cast, the type of an assignment's target, nothing for an initializer list and
an unreadable expression, and `int` for everything else. -/
def suggestType (b : Builder) : ExprKind String → Except Fault (Option TypeId × Builder)
  | .float _ => .ok (some TypeTable.double, b)
  | .text _ =>
    let (ty, b) := b.onUnit (·.addType (.pointer TypeTable.char))
    .ok (some ty, b)
  | .cast target _ => .ok (some target, b)
  | .assign target _ => do return ((← b.unit.expr target).ty, b)
  | .initList _ | .error => .ok (none, b)
  | .int _ | .ident _ | .binary .. | .unary .. | .index .. | .member .. | .call .. =>
    .ok (some TypeTable.int, b)

/-- Enters an expression of the type that its form suggests. -/
def addExpr (b : Builder) (form : ExprKind String) : Except Fault (ExprId × Builder) := do
  let (ty, b) ← b.suggestType form
  return b.onUnit (·.addExpr form ty b.line)

/-- Enters an identifier of a given type. -/
def addIdent (b : Builder) (name : String) (ty : TypeId) : ExprId × Builder :=
  b.onUnit (·.addExpr (.ident name) (some ty) b.line)

/-- Enters a statement. A declaration declares an `int`; other statements have no type. -/
def addStmt (b : Builder) (form : StmtKind String) : StmtId × Builder :=
  match form with
  | .declare .. => b.onUnit (·.addStmt form (some TypeTable.int) b.line)
  | _ => b.onUnit (·.addStmt form none b.line)

/-- Enters the declaration of a variable of a given type. -/
def addDeclaration (b : Builder) (name : String) (ty : TypeId) (init : Option ExprId) :
    StmtId × Builder :=
  b.onUnit (·.addStmt (.declare name init) (some ty) b.line)

/-- Appends a function. -/
def addFunction (b : Builder) (name : String) (returnType : TypeId)
    (params : List (Option String × TypeId)) (body : Option StmtId) : Builder :=
  { b with unit := b.unit.addFunction name returnType params body b.line }

/-- Appends a function that takes and returns `int`. -/
def addIntFunction (b : Builder) (name : String) (params : List String) (body : StmtId) :
    Builder :=
  b.addFunction name TypeTable.int (params.map fun param => (some param, TypeTable.int)) (some body)

/-- Appends a global variable. -/
def addGlobal (b : Builder) (name : String) (ty : TypeId) (init : Option ExprId) : Builder :=
  { b with unit := b.unit.addGlobal name ty init b.line }

end Builder

end MiddleEnd
