import MiddleEnd.IR.Function

/-!
# Programs

What a unit is lowered to: its functions, its global variables, and the string literals that the
functions use.

## Main definitions

* `Global`: a global variable.
* `Program`: the program.
* `Program.findFunction?`: the first function with a name.
-/

namespace MiddleEnd

/-- A global variable and its initial value, if that is known. -/
structure Global where
  name : Name
  ty : TypeId
  init : Option Int
  deriving DecidableEq, Repr

/-- A program in intermediate code. -/
structure Program where
  functions : List Function := []
  globals : List Global := []
  texts : Interner := {}
  deriving DecidableEq, Repr

/-- The first function called `name`. -/
def Program.findFunction? (p : Program) (name : Name) : Option Function :=
  p.functions.find? (·.name == name)

end MiddleEnd
