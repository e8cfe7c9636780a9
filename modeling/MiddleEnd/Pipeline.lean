import MiddleEnd.Dataflow.Liveness
import MiddleEnd.Dataflow.Reaching
import MiddleEnd.IR.Listing
import MiddleEnd.Lowering.Unit
import MiddleEnd.SSA.Construction
import MiddleEnd.SSA.Violation

/-!
# The pipeline

A unit is lowered, brought into single assignment form, checked and analysed. Options say which of
the later stages run and which functions are listed on the way.

## Main definitions

* `Options`: what to do.
* `CompileError`: why a unit was refused.
* `Compilation`: the program and its analyses.
* `SourceUnit.compile`: runs the pipeline.
* `SourceUnit.emit`: the listings of the functions that a filter selects.
-/

namespace MiddleEnd

/-- Which stages run, and which functions are listed. -/
structure Options where
  /-- Whether to bring functions into single assignment form. -/
  ssa : Bool := true
  /-- Whether to check that form. -/
  validate : Bool := true
  /-- Whether to analyse the functions. -/
  analyses : Bool := false
  /-- Which functions to list after lowering. -/
  emitIr : Option String := none
  /-- Which functions to list in single assignment form. -/
  emitSsa : Option String := none
  deriving DecidableEq, Repr

/-- Why a unit was refused. -/
inductive CompileError where
  /-- A function is not in single assignment form after all. -/
  | invalidSsa (function : String) (violations : List Violation)
  deriving DecidableEq, Repr

namespace CompileError

/-- The error in words. -/
def message : CompileError → String
  | invalidSsa function violations =>
    "function " ++ function ++ " is not in valid SSA form:" ++
      String.join (violations.map fun v => "\n  " ++ v.message)

/-- The error as separate reports, each with the function it is about. -/
def reports : CompileError → List (String × String)
  | invalidSsa function violations => violations.map fun v => (function, v.message)

end CompileError

/-- The analyses of one function. -/
structure Analyses where
  liveness : Liveness
  reaching : ReachingDefs
  deriving DecidableEq, Repr

/-- The result of the pipeline. -/
structure Compilation where
  program : Program
  /-- The analyses of each function, if they were asked for. -/
  analyses : List Analyses
  deriving DecidableEq, Repr

/-- What the pipeline listed, and its result. -/
structure Outcome where
  emitted : String
  result : Except CompileError Compilation

-- ════════════════════════════════════════════════════════════════════════
-- Listings
-- ════════════════════════════════════════════════════════════════════════

/-- Whether a filter selects a function: it is `all` or `*`, or one of its parts between commas ends
the name. -/
def selects (filter name : String) : Bool :=
  filter == "all" || filter == "*" ||
    (filter.splitOn ",").any fun part => part.toList.isSuffixOf name.toList

namespace SourceUnit

/-- The listing of a function, or nothing when the filter does not select it. -/
def emitFunction (unit : SourceUnit) (texts : Interner) (filter : String) (f : Function) :
    Except Fault String := do
  if selects filter (← unit.names.name f.name) then
    f.listing { names := unit.names, texts }
  else return ""

/-- The listings of the functions that a filter selects. -/
def emit (unit : SourceUnit) (program : Program) (filter : String) : Except Fault String :=
  joinMap (unit.emitFunction program.texts filter) program.functions

/-- The listings that an option asks for. -/
def emitIf (unit : SourceUnit) (program : Program) : Option String → Except Fault String
  | some filter => unit.emit program filter
  | none => .ok ""

-- ════════════════════════════════════════════════════════════════════════
-- Stages
-- ════════════════════════════════════════════════════════════════════════

/-- Brings a function into single assignment form, and checks it if asked to. -/
def constructFunction (unit : SourceUnit) (validate : Bool) (f : Function) :
    ExceptT CompileError (Except Fault) Function := do
  let f ← f.constructSsa
  if validate then
    let name ← unit.names.name f.name
    unless f.violations.isEmpty do
      throw (.invalidSsa name f.violations)
  return f

/-- Brings a program into single assignment form, up to the first function that is refused. -/
def constructProgram (unit : SourceUnit) (validate : Bool) (program : Program) :
    ExceptT CompileError (Except Fault) Program := do
  return { program with functions := ← program.functions.mapM (unit.constructFunction validate) }

end SourceUnit

/-- The analyses of a function. -/
def Function.analyse (f : Function) : Except Fault Analyses := do
  return { liveness := ← f.liveness, reaching := ← f.reachingDefs }

/-- The analyses of all functions of a program, if they are asked for. -/
def Program.analyse (program : Program) (wanted : Bool) : Except Fault (List Analyses) :=
  if wanted then program.functions.mapM (·.analyse) else .ok []

/-- Runs the pipeline. -/
def SourceUnit.compile (unit : SourceUnit) (options : Options) : Except Fault Outcome := do
  let lowered ← unit.lower
  let listed ← unit.emitIf lowered options.emitIr
  if options.ssa then
    match ← (unit.constructProgram options.validate lowered).run with
    | .error refusal => return { emitted := listed, result := .error refusal }
    | .ok program =>
      let relisted ← unit.emitIf program options.emitSsa
      let analyses ← program.analyse options.analyses
      return { emitted := listed ++ relisted, result := .ok { program, analyses } }
  else
    let analyses ← lowered.analyse options.analyses
    return { emitted := listed, result := .ok { program := lowered, analyses } }

end MiddleEnd
