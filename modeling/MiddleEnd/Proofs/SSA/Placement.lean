import MiddleEnd.Proofs.Dominance.Frontier
import MiddleEnd.SSA.Placement

/-!
# Where phis are placed

The joins of a variable are the iterated frontier of the blocks that write it: their frontiers, the
frontiers of the blocks in these, and so on. So at an edge into a block without a phi for the variable,
nothing between the source of the edge and the parent of the block writes the variable or joins it.

## Main definitions

* `Function.InIteratedFrontier`: the iterated frontier, as an inductive predicate.
* `Function.joinsOf`: the blocks in the iterated frontier of a variable, as a set.
* `Function.withPhis`: the function with given phis at the heads of its blocks.
* `Function.joinPhis`: the phis that a block gets.

## Main statements

* `Function.joinsOf_closed`: the joins are closed under frontiers.
* `Function.Forest.quiet_edge`: what an edge into a block without a phi says about the way up.
-/

namespace MiddleEnd

-- ════════════════════════════════════════════════════════════════════════
-- The iterated frontier
-- ════════════════════════════════════════════════════════════════════════

namespace Function

/-- A block of the function writes the register. -/
def Writes (f : Function) (b : BlockId) (r : Reg) : Prop :=
  ∃ block, f.blocks[b]? = some block ∧ r ∈ block.defs

/-- The iterated frontier of the blocks that write a register: their frontiers, the frontiers of the
blocks in these, and so on. -/
inductive InIteratedFrontier (f : Function) (r : Reg) : BlockId → Prop
  | of_writes {d j : BlockId} (hwrites : f.Writes d r) (hj : j ∈ f.frontier d) :
      InIteratedFrontier f r j
  | of_mem {b j : BlockId} (hb : InIteratedFrontier f r b) (hj : j ∈ f.frontier b) :
      InIteratedFrontier f r j

theorem Writes.lt_blockCount {f : Function} {b : BlockId} {r : Reg} (h : f.Writes b r) :
    b < f.blockCount := by
  obtain ⟨block, hb, _⟩ := h
  exact (Array.getElem?_eq_some_iff.mp hb).1

/-- A block in the iterated frontier is in the frontier of some block. -/
theorem InIteratedFrontier.exists_frontier {f : Function} {r : Reg} {j : BlockId}
    (h : f.InIteratedFrontier r j) : ∃ b, j ∈ f.frontier b := by
  cases h with
  | of_writes _ hj => exact ⟨_, hj⟩
  | of_mem _ hj => exact ⟨_, hj⟩

open Classical in
/-- The blocks of the iterated frontier of a variable. -/
noncomputable def joinsOf (f : Function) (var : Variable) : IndexSet :=
  IndexSet.below f.blockCount fun b => decide (f.InIteratedFrontier var.reg b)

theorem mem_joinsOf {f : Function} {var : Variable} {b : BlockId} :
    b ∈ f.joinsOf var ↔ b < f.blockCount ∧ f.InIteratedFrontier var.reg b := by
  simp [joinsOf, IndexSet.below]

/-- What a block that writes a variable has in its frontier is a join of the variable, and so is what a
join has in its frontier. -/
theorem joinsOf_closed (f : Function) (var : Variable) {b j : BlockId}
    (hb : f.Writes b var.reg ∨ b ∈ f.joinsOf var) (hj : j ∈ f.frontier b)
    (hlt : j < f.blockCount) : j ∈ f.joinsOf var := by
  rcases hb with hb | hb
  · exact mem_joinsOf.mpr ⟨hlt, .of_writes hb hj⟩
  · exact mem_joinsOf.mpr ⟨hlt, .of_mem (mem_joinsOf.mp hb).2 hj⟩

-- ════════════════════════════════════════════════════════════════════════
-- Phis in place
-- ════════════════════════════════════════════════════════════════════════

/-- The function with the given phis at the heads of its blocks. -/
def withPhis (f : Function) (phis : BlockId → List Instr) : Function :=
  { f with blocks := f.blocks.mapIdx fun b block =>
      { block with instrs := phis b ++ block.instrs } }

section WithPhis

variable (f : Function) (phis : BlockId → List Instr) (b : BlockId)

theorem getElem?_withPhis : (f.withPhis phis).blocks[b]? =
    f.blocks[b]?.map fun block => { block with instrs := phis b ++ block.instrs } := by
  simp [withPhis]

@[simp]
theorem succs_withPhis : (f.withPhis phis).succs b = f.succs b := by
  simp only [succs, getElem?_withPhis, Option.map_map]
  rfl

@[simp]
theorem preds_withPhis : (f.withPhis phis).preds b = f.preds b := by
  simp only [preds, getElem?_withPhis, Option.map_map]
  rfl

@[simp]
theorem id?_withPhis : (f.withPhis phis).id? b = f.id? b := by
  simp only [id?, getElem?_withPhis, Option.map_map]
  rfl

@[simp]
theorem idom?_withPhis : (f.withPhis phis).idom? b = f.idom? b := by
  simp only [idom?, getElem?_withPhis, Option.bind_map]
  rfl

@[simp]
theorem blockCount_withPhis : (f.withPhis phis).blockCount = f.blockCount := by
  simp [withPhis, blockCount]

/-- Placing no phis changes nothing. -/
theorem withPhis_of_nil (h : ∀ b, phis b = []) : f.withPhis phis = f := by
  have hblocks : (f.withPhis phis).blocks = f.blocks := by
    refine Array.ext_getElem? fun b => ?_
    rw [getElem?_withPhis, h b]
    cases f.blocks[b]? <;> rfl
  simp only [withPhis] at hblocks ⊢
  rw [hblocks]

end WithPhis

/-- The phis that a block gets for the given variables, the last variable first. -/
noncomputable def phisFor (f : Function) (vars : List (Variable × VarId)) (b : BlockId) : List Instr :=
  ((vars.filter fun entry => b ∈ f.joinsOf entry.1).map fun entry =>
    emptyPhi entry.2 entry.1 (f.preds b)).reverse

/-- The phis that a block gets. -/
noncomputable def joinPhis (f : Function) (b : BlockId) : List Instr := f.phisFor f.vars.zipIdx b

-- ════════════════════════════════════════════════════════════════════════
-- Edges without a phi
-- ════════════════════════════════════════════════════════════════════════

/-- At an edge from `p` into a block that is no join of a variable, no block on the way up from `p` to
the parent of the block writes the variable or is one of its joins: such a block would have the target
of the edge in its frontier. -/
theorem Forest.quiet_edge {f : Function} {order : List BlockId} {table : BlockId → List BlockId}
    (h : f.Forest order) (hlinked : f.Linked) (hentry : f.entry < f.blockCount)
    (htable : ∀ j x, j ∈ table x ↔ j < f.blockCount ∧ f.Joins j x) {var : Variable}
    {p b d x : BlockId} (hp : f.Reachable p) (hedge : b ∈ f.succs p) (hd : f.idom? b = some d)
    (hb : b ∉ (f.recordFrontiers table).joinsOf var) (hx : Above f.idom? x p)
    (hxd : ¬ Above f.idom? x d) :
    ¬ f.Writes x var.reg ∧ x ∉ (f.recordFrontiers table).joinsOf var := by
  have hpmem : p ∈ f.preds b := (hlinked.mem_preds p b).mpr hedge
  have hplt : p < f.blockCount := lt_of_mem_succs hedge
  have hblt : b < f.blockCount := hlinked.succs_lt p b hedge
  -- A block with one predecessor has it for its parent, and then nothing lies between.
  have hmany : 2 ≤ (f.preds b).length := by
    by_contra hfew
    have honly : ∀ q, b ∈ f.succs q → q = p := by
      intro q hq
      have hqmem : q ∈ f.preds b := (hlinked.mem_preds q b).mpr hq
      match hpreds : f.preds b with
      | [] => simp [hpreds] at hpmem
      | [r] => simp [hpreds] at hpmem hqmem; rw [hpmem, hqmem]
      | _ :: _ :: _ => simp [hpreds] at hfew
    exact hxd (h.idom_eq_of_single hp hedge honly hd ▸ hx)
  have hidx : order.idxOf p < f.blockCount + 1 :=
    Nat.lt_succ_of_lt (h.ordered.idxOf_lt_blockCount hlinked hentry hp)
  have hpass : f.Joins b x := by
    refine ⟨hmany, p, hpmem, ?_⟩
    rw [hd]
    exact h.passes_of_above hidx hx (by rintro _ ⟨⟩; exact hxd)
  have hxlt : x < f.blockCount :=
    (h.reachable_of_above hx hp).lt_blockCount hlinked hentry
  have hfront : b ∈ (f.recordFrontiers table).frontier x := by
    rw [frontier_recordFrontiers f table x hxlt, htable]
    exact ⟨hblt, hpass⟩
  have hjoin := fun hx => hb (joinsOf_closed (f.recordFrontiers table) var (b := x) hx hfront
    (by simpa using hblt))
  refine ⟨fun hwrites => hjoin (.inl ?_), fun hmem => hjoin (.inr hmem)⟩
  obtain ⟨block, hblock, hr⟩ := hwrites
  exact ⟨{ block with frontier := table x }, by rw [getElem?_recordFrontiers, hblock]; rfl, hr⟩

end Function

end MiddleEnd
