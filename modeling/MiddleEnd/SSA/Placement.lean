import MiddleEnd.IR.Function
import MiddleEnd.IndexSet

/-!
# Placing phis

Where versions of a variable meet, a phi joins them. The versions meet in the iterated dominance
frontier of the blocks that write the variable: the frontiers of those blocks, the frontiers of the
blocks in them, and so on. The blocks whose frontiers are still to be looked at wait on a worklist.

## Main definitions

* `Function.defBlocks`: the blocks that write each variable.
* `Placing`: how far the work for one variable has come.
* `Placing.placeAt`, `Placing.visit`, `Placing.drain`: the work for one join, for one block of the
  worklist, and until the worklist is empty.
* `Function.insertPhis`: the function with all phis in place.

## Design notes

A phi is placed with empty arguments, one for each predecessor, and writes the register of its
variable. Renaming then gives it a version and fills in the arguments.

No block is put on the worklist twice, so the blocks on the worklist and those that were never on it
become fewer with each block that is taken off. `Placing.work` counts them.
-/

namespace MiddleEnd

-- ════════════════════════════════════════════════════════════════════════
-- Where the variables are written
-- ════════════════════════════════════════════════════════════════════════

namespace Function

/-- Lists the block `b` for the variable that the instruction writes, if it is not listed yet. -/
def noteWrite (owners : Array (Option VarId)) (b : BlockId) (table : Array (List BlockId))
    (i : Instr) : Array (List BlockId) :=
  match i.dst.owner? owners with
  | some v => table.modify v fun defs => if b ∈ defs then defs else defs ++ [b]
  | none => table

/-- For each variable the blocks that write its register, in the order of the blocks. -/
def defBlocks (f : Function) : Except Fault (Array (List BlockId)) := do
  let owners ← f.varOfReg
  return f.blocks.toList.foldl
    (fun table block => block.instrs.foldl (noteWrite owners block.id) table)
    (Array.replicate f.vars.length [])

end Function

-- ════════════════════════════════════════════════════════════════════════
-- The worklist
-- ════════════════════════════════════════════════════════════════════════

/-- A phi for a variable, with an empty argument for each predecessor. -/
def emptyPhi (v : VarId) (var : Variable) (preds : List BlockId) : Instr :=
  .phi (.reg var.reg var.ty) (some v) (preds.map fun pred => { value := .none, pred }) 0

/-- How far the placing of the phis for one variable has come. -/
structure Placing where
  /-- The function with the phis so far. -/
  fn : Function
  /-- How many phis were placed, those for the variables before included. -/
  inserted : Nat
  /-- The blocks whose frontiers are still to be looked at, the next one first. -/
  worklist : List BlockId
  /-- The blocks that were ever on the worklist. -/
  listed : IndexSet
  /-- The blocks that have a phi for the variable. -/
  hasPhi : IndexSet := ∅

namespace Placing

/-- Puts a phi for the variable `v` at the head of a block that does not have one yet. The block
writes the variable from then on, so it goes onto the worklist unless it was there before. -/
def placeAt (v : VarId) (s : Placing) (join : BlockId) : Except Fault Placing := do
  let block ← s.fn.block join
  if join ∈ s.hasPhi then return s
  else
    let var ← s.fn.var v
    let s := { s with
      fn := s.fn.setBlock join (block.prepend (emptyPhi v var block.preds))
      inserted := s.inserted + 1
      hasPhi := s.hasPhi.insert join }
    if join ∈ s.listed then return s
    else return { s with listed := s.listed.insert join, worklist := join :: s.worklist }

/-- Puts a phi for the variable `v` into each block in the frontier of the block `b`. -/
def visit (v : VarId) (s : Placing) (b : BlockId) : Except Fault Placing := do
  let block ← s.fn.block b
  block.frontier.foldlM (placeAt v) s

/-- How many blocks are on the worklist or were never there. -/
def work (s : Placing) : Nat := s.worklist.length + (s.listed.absent s.fn.blockCount).length

/-- A block that comes onto the worklist was not there before. -/
theorem work_placeAt {v : VarId} {s t : Placing} {join : BlockId} (h : placeAt v s join = .ok t) :
    t.work ≤ s.work := by
  unfold placeAt Function.block require at h
  cases hblock : s.fn.blocks[join]? with
  | none => rw [hblock] at h; cases h
  | some block =>
    obtain ⟨hlt, _⟩ := Array.getElem?_eq_some_iff.mp hblock
    cases hvar : s.fn.var v with
    | error e =>
      simp only [hblock, hvar, bind, Except.bind] at h
      split at h <;> cases h
      exact Nat.le_refl _
    | ok var =>
      simp only [hblock, hvar, bind, Except.bind] at h
      split at h
      · cases h
        exact Nat.le_refl _
      · split at h
        · cases h
          simp [work, Function.setBlock, Function.modifyBlock, Function.blockCount]
        · rename_i hlisted
          have hfewer := IndexSet.length_absent_insert_lt hlt hlisted
          cases h
          simp only [work, Function.setBlock, Function.modifyBlock, Function.blockCount,
            Array.size_modify, List.length_cons]
          omega

theorem work_foldlM {v : VarId} {joins : List BlockId} {s t : Placing}
    (h : joins.foldlM (placeAt v) s = .ok t) : t.work ≤ s.work := by
  induction joins generalizing s with
  | nil =>
    cases h
    exact Nat.le_refl _
  | cons join joins ih =>
    rw [List.foldlM_cons] at h
    cases hplace : placeAt v s join with
    | error e => rw [hplace] at h; cases h
    | ok u =>
      rw [hplace] at h
      exact Nat.le_trans (ih h) (work_placeAt hplace)

theorem work_visit {v : VarId} {s t : Placing} {b : BlockId} (h : visit v s b = .ok t) :
    t.work ≤ s.work := by
  unfold visit at h
  cases hblock : s.fn.block b with
  | error e => rw [hblock] at h; cases h
  | ok block =>
    rw [hblock] at h
    exact work_foldlM h

/-- Takes one block after the other off the worklist and looks at its frontier, until none is
left. -/
def drain (v : VarId) (s : Placing) : Except Fault Placing :=
  match _ : s.worklist with
  | [] => .ok s
  | b :: rest =>
    match _ : visit v { s with worklist := rest } b with
    | .error e => .error e
    | .ok t => drain v t
termination_by s.work
decreasing_by
  rename_i hlist hvisit
  have hle := work_visit hvisit
  simp only [work, hlist, List.length_cons] at hle ⊢
  omega

theorem drain_of_nil {v : VarId} {s : Placing} (h : s.worklist = []) : drain v s = .ok s := by
  rw [drain]
  split
  · rfl
  · rename_i hlist
    rw [h] at hlist
    cases hlist

theorem drain_of_cons {v : VarId} {s : Placing} {b : BlockId} {rest : List BlockId}
    (h : s.worklist = b :: rest) :
    drain v s = visit v { s with worklist := rest } b >>= drain v := by
  rw [drain]
  split
  · rename_i hlist
    rw [h] at hlist
    cases hlist
  · rename_i hlist
    obtain ⟨rfl, rfl⟩ := List.cons.inj (h.symm.trans hlist)
    split
    · rename_i hvisit
      rw [hvisit]
      rfl
    · rename_i hvisit
      rw [hvisit]
      rfl

end Placing

-- ════════════════════════════════════════════════════════════════════════
-- All variables
-- ════════════════════════════════════════════════════════════════════════

namespace Function

/-- Places the phis for the variable `v`, which the blocks `defs` write. At first these are on the
worklist, the last one on top. -/
def placePhis (f : Function) (count : Nat) (v : VarId) (defs : List BlockId) :
    Except Fault (Nat × Function) := do
  f.checkBlocks defs
  let s ← Placing.drain v
    { fn := f, inserted := count, worklist := defs.reverse, listed := .ofList defs }
  return (s.inserted, s.fn)

/-- Places the phis of all variables and answers how many there are. -/
def insertPhis (f : Function) : Except Fault (Nat × Function) :=
  if f.vars.isEmpty || f.blocks.isEmpty then .ok (0, f)
  else do
    let table ← f.defBlocks
    table.toList.zipIdx.foldlM (fun (count, f) (defs, v) => f.placePhis count v defs) (0, f)

end Function

end MiddleEnd
