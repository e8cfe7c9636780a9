/-!
# Operators

The operators of expressions. The two logical operators evaluate their right operand only when the
left one leaves the result open.

## Main definitions

* `BinaryOp`, `UnaryOp`: the operators.
* `BinaryOp.symbol`: an operator as it is written in source text.
* `BinaryOp.isShortCircuit`, `BinaryOp.isComparison`: the two special classes.
-/

namespace MiddleEnd

/-- The operators with two operands. -/
inductive BinaryOp where
  | add
  | sub
  | mul
  | div
  | mod
  | bitAnd
  | bitOr
  | bitXor
  | shl
  | shr
  | eq
  | ne
  | lt
  | le
  | gt
  | ge
  | logicalAnd
  | logicalOr
  deriving DecidableEq, Repr

namespace BinaryOp

/-- An operator as it is written in source text. -/
def symbol : BinaryOp → String
  | add => "+"
  | sub => "-"
  | mul => "*"
  | div => "/"
  | mod => "%"
  | bitAnd => "&"
  | bitOr => "|"
  | bitXor => "^"
  | shl => "<<"
  | shr => ">>"
  | eq => "=="
  | ne => "!="
  | lt => "<"
  | le => "<="
  | gt => ">"
  | ge => ">="
  | logicalAnd => "&&"
  | logicalOr => "||"

/-- Whether the right operand may stay unevaluated. -/
def isShortCircuit : BinaryOp → Bool
  | logicalAnd | logicalOr => true
  | _ => false

/-- Whether the operator compares its operands. -/
def isComparison : BinaryOp → Bool
  | eq | ne | lt | le | gt | ge => true
  | _ => false

end BinaryOp

/-- The operators with one operand. -/
inductive UnaryOp where
  | neg
  | not
  | bitNot
  /-- The value at an address. -/
  | deref
  /-- The address of a value. -/
  | addrOf
  | preInc
  | preDec
  | postInc
  | postDec
  deriving DecidableEq, Repr

end MiddleEnd
