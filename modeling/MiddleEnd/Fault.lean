/-!
# Faults

Every table of the middle end (names, string literals, types, syntax nodes, blocks, registers,
variables) is indexed by plain numbers, and a number may name no entry. An operation that is asked
to do something meaningless stops with a `Fault` that says what was missing.

## Main definitions

* `Fault`: why an operation stopped.
* `Fault.message?`: the text of the two faults that have one.
* `require`: the value of an option, or a fault.
-/

namespace MiddleEnd

/-- Why an operation stopped. -/
inductive Fault where
  /-- No name has this number. -/
  | missingName (name : Nat)
  /-- No string literal has this number. -/
  | missingText (id : Nat)
  /-- No type has this number. -/
  | missingType (ty : Nat)
  /-- No expression has this number. -/
  | missingExpr (id : Nat)
  /-- No statement has this number. -/
  | missingStmt (id : Nat)
  /-- The function has no block with this number. -/
  | missingBlock (block : Nat)
  /-- The block has no instruction at this position. -/
  | missingInstr (block position : Nat)
  /-- The instruction has no join argument at this position. -/
  | missingArgument (position : Nat)
  /-- The function has no variable with this number. -/
  | missingVariable (var : Nat)
  /-- The function has not handed out this register. -/
  | missingRegister (reg : Nat)
  /-- Nodes refer to each other without end. -/
  | endlessNesting
  /-- An instruction was appended to a block that already ends in a terminator. -/
  | afterTerminator
  /-- A new register was given to an operand that is not a register. -/
  | renamedNonRegister
  deriving DecidableEq, Repr

namespace Fault

/-- The text of a fault. Only misuse of a block or of an operand has one; a number that names
nothing is reported without text. -/
def message? : Fault → Option String
  | afterTerminator => some "instruction after terminator"
  | renamedNonRegister => some "rename of non-register operand"
  | _ => none

end Fault

/-- The value of an option, or `fault` when it has none. -/
def require {α : Type} (fault : Fault) : Option α → Except Fault α
  | some a => .ok a
  | none => .error fault

@[simp]
theorem require_some {α : Type} (fault : Fault) (a : α) : require fault (some a) = .ok a :=
  rfl

@[simp]
theorem require_none {α : Type} (fault : Fault) :
    require fault (none : Option α) = .error fault :=
  rfl

/-- A required value is there exactly when the option holds it. -/
theorem require_eq_ok_iff {α : Type} {fault : Fault} {o : Option α} {a : α} :
    require fault o = .ok a ↔ o = some a := by
  cases o <;> simp

end MiddleEnd
