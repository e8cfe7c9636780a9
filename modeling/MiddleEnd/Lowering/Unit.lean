import MiddleEnd.IR.Edges
import MiddleEnd.IR.Program
import MiddleEnd.Lowering.Stmt

/-!
# Lowering a unit

A unit is lowered item by item. Functions without a body leave nothing behind; all functions share
one table of string literals.

## Main definitions

* `SourceUnit.lowerFunction`: lowers a function.
* `SourceUnit.lowerGlobal`: lowers a global variable.
* `SourceUnit.lower`: lowers a unit.
-/

namespace MiddleEnd

/-- Ends each open block with a return without a value, which records the line of the function. -/
def Function.closeBlocks (f : Function) : Function :=
  f.mapBlocks fun b =>
    if b.isTerminated then b else { b with instrs := b.instrs ++ [.ret .none f.line] }

namespace SourceUnit

/-- Declares a parameter. One without a name, or of type `void`, holds nothing. -/
def declareParam (unit : SourceUnit) (f : Function) (param : ParamDecl) :
    Except Fault Function :=
  match param.name with
  | none => .ok f
  | some name => do
    if (← unit.types.get param.ty).isVoid then return f
    else return (f.declareParam name param.ty).2

/-- The function before its body is lowered: its parameters and an empty entry block. -/
def enterFunction (unit : SourceUnit) (decl : FunctionDecl) : Except Fault Function := do
  let f : Function := { name := decl.name, line := decl.line, returnType := some decl.returnType }
  let f ← decl.params.foldlM unit.declareParam f
  let (entry, f) := f.newBlock (some "entry")
  return { f with entry }

/-- Makes the blocks of all labels in a body, then lowers the body. -/
def lowerBody (unit : SourceUnit) (body : StmtId) : LowerM Unit := do
  unit.createLabels body
  unit.lowerStmt body

/-- Lowers a function, given the string literals so far. A function without a body lowers to
nothing. -/
def lowerFunction (unit : SourceUnit) (texts : Interner) (decl : FunctionDecl) :
    Except Fault (Option Function × Interner) :=
  match decl.body with
  | none => .ok (none, texts)
  | some body => do
    let fn ← unit.enterFunction decl
    let start : Lowering := { fn, texts, current := fn.entry, line := decl.line }
    let (_, final) ← (unit.lowerBody body).run start
    return (some final.fn.closeBlocks.buildEdges, final.texts)

/-- Lowers a global variable. Only an integer literal is kept as its initial value. -/
def lowerGlobal (unit : SourceUnit) (decl : GlobalDecl) : Except Fault Global := do
  let init ← match decl.init with
    | some init => do
      match (← unit.expr init).kind with
      | .int value => pure (some value)
      | _ => pure none
    | none => pure none
  return { name := decl.name, ty := decl.ty, init }

/-- Lowers an item and adds it to a program. -/
def lowerItem (unit : SourceUnit) (program : Program) : Item → Except Fault Program
  | .function decl => do
    let (f, texts) ← unit.lowerFunction program.texts decl
    return { program with functions := program.functions ++ f.toList, texts }
  | .global decl => do
    return { program with globals := program.globals ++ [← unit.lowerGlobal decl] }

/-- Lowers a unit. -/
def lower (unit : SourceUnit) : Except Fault Program :=
  unit.items.foldlM unit.lowerItem {}

end SourceUnit

end MiddleEnd
