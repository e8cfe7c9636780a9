import MiddleEnd.Decimal.Binary64
import MiddleEnd.Syntax.Ty

/-!
# Operands

An instruction reads and writes operands. Only a register can be written; the rest are constants of
one kind or another.

## Main definitions

* `Operand`: what an instruction reads or writes.
* `Operand.reg?`, `Operand.label?`, `Operand.int?`, `Operand.ty?`: the parts of an operand.
* `Operand.rename`: the same operand with another register.
* `Operand.agrees`: equality of operands in which floating constants are compared as numbers.
-/

namespace MiddleEnd

/-- The number of a virtual register. -/
abbrev Reg := Nat

/-- The number of a block, which is its position in the function. -/
abbrev BlockId := Nat

/-- The number of a variable, which is its position in the function. -/
abbrev VarId := Nat

/-- What an instruction reads or writes. -/
inductive Operand where
  /-- The slot is not used, or holds no value. -/
  | none
  /-- A register and the type of what it holds, if known. -/
  | reg (r : Reg) (ty : Option TypeId)
  /-- A field of a structure. -/
  | field (name : Name)
  | int (value : Int)
  | float (value : Binary64)
  | label (block : BlockId)
  | func (name : Name)
  | literal (id : TextId)
  deriving DecidableEq, Repr

namespace Operand

instance : Inhabited Operand := ⟨none⟩

/-- Whether the slot is empty. -/
def isNone : Operand → Bool
  | none => true
  | _ => false

/-- The register of a register operand. -/
def reg? : Operand → Option Reg
  | reg r _ => some r
  | _ => Option.none

/-- The block of a label. -/
def label? : Operand → Option BlockId
  | label block => some block
  | _ => Option.none

/-- The value of an integer constant. -/
def int? : Operand → Option Int
  | int value => some value
  | _ => Option.none

/-- The type of a register operand, if it has one. -/
def ty? : Operand → Option TypeId
  | reg _ ty => ty
  | _ => Option.none

/-- The operand with another register and the same type. Only a register can be renamed. -/
def rename (operand : Operand) (r : Reg) : Except Fault Operand :=
  match operand with
  | reg _ ty => .ok (reg r ty)
  | _ => .error .renamedNonRegister

/-- Whether two operands are equal, with floating constants compared as numbers. -/
def agrees : Operand → Operand → Bool
  | float x, float y => x.agrees y
  | a, b => a == b

end Operand

/-- A register as it is written in listings. -/
def regText (r : Reg) : String := "t" ++ toString r

/-- A block as it is written in listings. -/
def blockText (b : BlockId) : String := "bb" ++ toString b

end MiddleEnd
