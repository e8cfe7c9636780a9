import MiddleEnd.Dominance.Frontier
import MiddleEnd.Dominance.Immediate
import MiddleEnd.IR.Program
import MiddleEnd.SSA.Placement
import MiddleEnd.SSA.Renaming

/-!
# Single assignment form

A function whose edges are known is brought into single assignment form in four steps: dominators,
dominance frontiers, phis, and renaming.

## Main definitions

* `Function.constructSsa`: brings a function into single assignment form.
* `Program.constructSsa`: brings all functions of a program into it.
-/

namespace MiddleEnd

/-- Brings a function into single assignment form. -/
def Function.constructSsa (f : Function) : Except Fault Function :=
  if f.blocks.isEmpty then .ok { f with isSsa := true }
  else do
    let f ← f.withDominators
    let f ← f.withFrontiers
    let (_, f) ← f.insertPhis
    let f ← f.renameVariables (← DomTree.ofFunction f)
    return { f with isSsa := true }

/-- Brings all functions of a program into single assignment form. -/
def Program.constructSsa (p : Program) : Except Fault Program := do
  return { p with functions := ← p.functions.mapM (·.constructSsa) }

end MiddleEnd
