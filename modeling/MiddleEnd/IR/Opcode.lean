import MiddleEnd.Syntax.Operator

/-!
# Operation codes

What an instruction does.

## Main definitions

* `Opcode`: the operations.
* `Opcode.name`: an operation as it is written in listings.
* `Opcode.isTerminator`: whether control leaves the block.
* `BinaryOp.opcode`: the operation that computes a binary operator.
-/

namespace MiddleEnd

/-- The operations of the intermediate code. -/
inductive Opcode where
  | const
  | copy
  | alloca
  | add
  | sub
  | mul
  | div
  | mod
  | and
  | or
  | xor
  | shl
  | shr
  | cmpEq
  | cmpNe
  | cmpLt
  | cmpLe
  | cmpGt
  | cmpGe
  | logicalAnd
  | logicalOr
  | neg
  | not
  | bitNot
  | load
  | store
  | addrOf
  | member
  | cast
  | index
  | indexAddr
  | param
  | call
  | jump
  | branch
  | ret
  | switch
  | nop
  | phi
  deriving DecidableEq, Repr

namespace Opcode

/-- An operation as it is written in listings. -/
def name : Opcode → String
  | const => "const"
  | copy => "copy"
  | alloca => "alloca"
  | add => "add"
  | sub => "sub"
  | mul => "mul"
  | div => "div"
  | mod => "mod"
  | and => "and"
  | or => "or"
  | xor => "xor"
  | shl => "shl"
  | shr => "shr"
  | cmpEq => "cmp_eq"
  | cmpNe => "cmp_ne"
  | cmpLt => "cmp_lt"
  | cmpLe => "cmp_le"
  | cmpGt => "cmp_gt"
  | cmpGe => "cmp_ge"
  | logicalAnd => "logical_and"
  | logicalOr => "logical_or"
  | neg => "neg"
  | not => "not"
  | bitNot => "bitnot"
  | load => "load"
  | store => "store"
  | addrOf => "addr_of"
  | member => "member"
  | cast => "cast"
  | index => "index"
  | indexAddr => "index_addr"
  | param => "param"
  | call => "call"
  | jump => "jump"
  | branch => "branch"
  | ret => "ret"
  | switch => "switch"
  | nop => "nop"
  | phi => "phi"

/-- Whether control leaves the block at this operation. -/
def isTerminator : Opcode → Bool
  | jump | branch | ret | switch => true
  | _ => false

/-- Whether the operation compares its operands. -/
def isComparison : Opcode → Bool
  | cmpEq | cmpNe | cmpLt | cmpLe | cmpGt | cmpGe => true
  | _ => false

end Opcode

/-- The operation that computes a binary operator from the values of both operands. -/
def BinaryOp.opcode : BinaryOp → Opcode
  | .add => .add
  | .sub => .sub
  | .mul => .mul
  | .div => .div
  | .mod => .mod
  | .bitAnd => .and
  | .bitOr => .or
  | .bitXor => .xor
  | .shl => .shl
  | .shr => .shr
  | .eq => .cmpEq
  | .ne => .cmpNe
  | .lt => .cmpLt
  | .le => .cmpLe
  | .gt => .cmpGt
  | .ge => .cmpGe
  | .logicalAnd => .logicalAnd
  | .logicalOr => .logicalOr

end MiddleEnd
