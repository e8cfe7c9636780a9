import MiddleEnd.Decimal.Binary64
import MiddleEnd.Syntax.Operator
import MiddleEnd.Syntax.Ty

/-!
# Expressions, statements and declarations

The nodes of a unit. Expressions and statements refer to their parts by number, so one node may be
a part of several others.

## Main definitions

* `ExprKind`, `StmtKind`: the forms of expressions and statements.
* `Expr`, `Stmt`: a form with its type and source line.
* `FunctionDecl`, `GlobalDecl`, `Item`: what a unit declares.

## Design notes

The forms are parametrised by the type of names. A form whose names are texts is a request for a
node; a form whose names are numbers is a node of a unit.
-/

namespace MiddleEnd

/-- The number of an expression. -/
abbrev ExprId := Nat

/-- The number of a statement. -/
abbrev StmtId := Nat

/-- The forms of expressions, with names of type `ν`. -/
inductive ExprKind (ν : Type) where
  | int (value : Int)
  | float (value : Binary64)
  | text (value : String)
  | ident (name : ν)
  | binary (op : BinaryOp) (lhs rhs : ExprId)
  | unary (op : UnaryOp) (operand : ExprId)
  | cast (target : TypeId) (operand : ExprId)
  | index (array position : ExprId)
  | member (base : ExprId) (field : ν) (arrow : Bool)
  | call (callee : ν) (args : List ExprId)
  | assign (target value : ExprId)
  | initList (elements : List ExprId)
  /-- What is left of an expression that could not be read. -/
  | error
  deriving DecidableEq, Repr

namespace ExprKind

/-- The name of an identifier. -/
def ident? {ν : Type} : ExprKind ν → Option ν
  | ident name => some name
  | _ => none

/-- Whether the expression is an integer literal. -/
def isInt {ν : Type} : ExprKind ν → Bool
  | int _ => true
  | _ => false

end ExprKind

/-- An expression of a unit. -/
structure Expr where
  kind : ExprKind Name
  ty : Option TypeId
  line : Nat
  deriving DecidableEq, Repr

/-- The forms of statements, with names of type `ν`. -/
inductive StmtKind (ν : Type) where
  | block (body : List StmtId)
  | declare (name : ν) (init : Option ExprId)
  | expr (value : ExprId)
  | ret (value : Option ExprId)
  | conditional (cond : ExprId) (thenBody : StmtId) (elseBody : Option StmtId)
  | whileLoop (cond : ExprId) (body : StmtId)
  | doLoop (body : StmtId) (cond : ExprId)
  | forLoop (init : Option StmtId) (cond incr : Option ExprId) (body : Option StmtId)
  | switch (cond : ExprId) (body : StmtId)
  | caseLabel (value : Int)
  | defaultLabel
  | breakJump
  | continueJump
  | goto (target : ν)
  | label (name : ν)
  | assertion (cond : Option ExprId)
  | empty
  /-- What is left of a statement that could not be read. -/
  | error
  deriving DecidableEq, Repr

namespace StmtKind

/-- Whether the statement marks an entry of a switch. -/
def isSwitchLabel {ν : Type} : StmtKind ν → Bool
  | caseLabel _ | defaultLabel => true
  | _ => false

end StmtKind

/-- A statement of a unit. -/
structure Stmt where
  kind : StmtKind Name
  ty : Option TypeId
  line : Nat
  deriving DecidableEq, Repr

/-- A parameter of a function, which need not have a name. -/
structure ParamDecl where
  name : Option Name
  ty : TypeId
  deriving DecidableEq, Repr

/-- A function, defined if it has a body. -/
structure FunctionDecl where
  name : Name
  returnType : TypeId
  params : List ParamDecl
  body : Option StmtId
  line : Nat
  deriving DecidableEq, Repr

/-- A variable outside all functions. -/
structure GlobalDecl where
  name : Name
  ty : TypeId
  init : Option ExprId
  line : Nat
  deriving DecidableEq, Repr

/-- What a unit declares. -/
inductive Item where
  | function (decl : FunctionDecl)
  | global (decl : GlobalDecl)
  deriving DecidableEq, Repr

end MiddleEnd
