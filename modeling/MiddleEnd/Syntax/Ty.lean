import MiddleEnd.Interner

/-!
# Types

The types of a unit are the entries of a table. The six scalar types come first and are shared;
pointers, arrays and structures are entered anew each time they are asked for, so two entries may
describe the same type and still be different types.

## Main definitions

* `Ty`: one type, whose parts are numbers of earlier entries.
* `TypeTable`: the types of a unit.
* `TypeTable.add`: enters a type.
* `TypeTable.text`: a type as it is written in listings.
-/

namespace MiddleEnd

/-- The number of a type. -/
abbrev TypeId := Nat

/-- A type. Its parts are given by their numbers. -/
inductive Ty where
  | void
  | char
  | int
  | long
  | float
  | double
  /-- A pointer to values of the type `target`. -/
  | pointer (target : TypeId)
  /-- An array of `length` values of the type `element`. -/
  | array (element : TypeId) (length : Nat)
  /-- The structure type called `name`. -/
  | struct (name : Name)
  deriving DecidableEq, Repr

namespace Ty

/-- Whether the type has no values. -/
def isVoid : Ty → Bool
  | void => true
  | _ => false

/-- Whether the values are integers. -/
def isInteger : Ty → Bool
  | char | int | long => true
  | _ => false

/-- Whether the values are floating point numbers. -/
def isFloat : Ty → Bool
  | float | double => true
  | _ => false

/-- Whether the values are addresses. -/
def isPointer : Ty → Bool
  | pointer _ => true
  | _ => false

end Ty

/-- The types of a unit in the order of their numbers. -/
structure TypeTable where
  /-- The entries; the six scalar types come first. -/
  entries : Array Ty := #[.void, .char, .int, .long, .float, .double]
  deriving DecidableEq, Repr

namespace TypeTable

instance : Inhabited TypeTable := ⟨{}⟩

/-- The shared `void` type. -/
def void : TypeId := 0

/-- The shared `char` type. -/
def char : TypeId := 1

/-- The shared `int` type. -/
def int : TypeId := 2

/-- The shared `long` type. -/
def long : TypeId := 3

/-- The shared `float` type. -/
def float : TypeId := 4

/-- The shared `double` type. -/
def double : TypeId := 5

/-- How many types there are. -/
def size (table : TypeTable) : Nat := table.entries.size

/-- The type with the number `id`. -/
def get (table : TypeTable) (id : TypeId) : Except Fault Ty :=
  require (.missingType id) table.entries[id]?

/-- Enters a type at the end of the table and answers its number. -/
def add (table : TypeTable) (ty : Ty) : TypeId × TypeTable :=
  (table.size, { entries := table.entries.push ty })

/-- The text of a type that is nested less than `depth` deep. -/
def textWithin (table : TypeTable) (names : Interner) : Nat → TypeId → Except Fault String
  | 0, _ => .error .endlessNesting
  | depth + 1, id => do
    match ← table.get id with
    | .void => return "void"
    | .char => return "char"
    | .int => return "int"
    | .long => return "long"
    | .float => return "float"
    | .double => return "double"
    | .pointer target => return (← table.textWithin names depth target) ++ "*"
    | .array element length =>
      return (← table.textWithin names depth element) ++ "[" ++ toString length ++ "]"
    | .struct name => return "struct " ++ (← names.name name)

/-- A type as it is written in listings. The parts of a type are entered before it, so no type is
nested deeper than the table is long. -/
def text (table : TypeTable) (names : Interner) (id : TypeId) : Except Fault String :=
  table.textWithin names (table.size + 1) id

end TypeTable

end MiddleEnd
