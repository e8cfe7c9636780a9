import MiddleEnd.Proofs.SSA.Worklist
import Mathlib.Algebra.BigOperators.Group.List.Basic
import Mathlib.Data.List.Sigma

/-!
# Phis and iterated frontiers

The blocks in which versions of a variable meet form the least set that holds the frontiers of the
blocks that write the variable and, with each block, its frontier. Exactly these blocks get a phi for
the variable, and each gets one, in whatever order the blocks are worked off and however the frontiers
lead back to each other.

## Main statements

* `Function.countP_joinPhis`: how many phis of a variable a block gets.
* `Function.sum_card_joinsOf`: counted by variables or by blocks, there are as many phis.
* `Function.insertPhis_exact`: what placing the phis does.
-/

namespace MiddleEnd

/-- The members of a set below a bound, counted one by one. -/
theorem IndexSet.card_eq_countP {s : IndexSet} {bound : Nat} (h : ∀ i ∈ s, i < bound) :
    s.card = (List.range bound).countP (· ∈ s) := by
  have hperm : s.toList.Perm ((List.range bound).filter (· ∈ s)) := by
    refine (List.perm_ext_iff_of_nodup s.nodup_toList (List.nodup_range.filter _)).mpr fun i => ?_
    rw [mem_toList, List.mem_filter, List.mem_range, decide_eq_true_eq]
    exact ⟨fun hi => ⟨h i hi, hi⟩, fun hi => hi.2⟩
  rw [card, hperm.length_eq, List.countP_eq_length_filter]

namespace Function

variable {f : Function}

/-- A block gets one phi for each variable that it joins, and none for any other. -/
theorem countP_joinPhis {b : BlockId} {v : VarId} {var : Variable} (hvar : f.vars[v]? = some var) :
    (f.joinPhis b).countP (·.phiVar? = some v) = if b ∈ f.joinsOf var then 1 else 0 := by
  -- The variable is listed once, and no other entry has its number.
  have hentry : ∀ entry ∈ f.vars.zipIdx, entry.2 = v ↔ entry = (var, v) := by
    rintro ⟨var', v'⟩ hmem
    have hvar' : f.vars[v']? = some var' := List.mem_zipIdx_iff_getElem?.mp hmem
    simp only [Prod.mk.injEq]
    refine ⟨?_, fun h => h.2⟩
    rintro rfl
    exact ⟨Option.some.inj (hvar'.symm.trans hvar), rfl⟩
  have honce : f.vars.zipIdx.count (var, v) = 1 :=
    List.count_eq_one_of_mem (List.Nodup.of_map Prod.snd (List.nodup_zipIdx_map_snd f.vars))
      (List.mem_zipIdx_iff_getElem?.mpr hvar)
  have hcount : (f.joinPhis b).countP (·.phiVar? = some v) =
      f.vars.zipIdx.countP fun entry => entry = (var, v) ∧ b ∈ f.joinsOf var := by
    rw [joinPhis, phisFor, List.countP_reverse, List.countP_map, List.countP_filter]
    refine List.countP_congr fun entry hmem => ?_
    have hphi : (emptyPhi entry.2 entry.1 (f.preds b)).phiVar? = some entry.2 := rfl
    simp only [Function.comp_apply, hphi, Option.some.injEq, Bool.and_eq_true, decide_eq_true_eq,
      hentry entry hmem]
    refine and_congr_right ?_
    rintro rfl
    rfl
  rw [hcount]
  split
  · rename_i hb
    simpa [hb, List.count, beq_eq_decide] using honce
  · rename_i hb
    simp [hb]

/-- Every phi that a block gets is the empty phi of some variable. -/
theorem eq_emptyPhi_of_mem_joinPhis {b : BlockId} {i : Instr} (hi : i ∈ f.joinPhis b) :
    ∃ v var, f.vars[v]? = some var ∧ i = emptyPhi v var (f.preds b) := by
  simp only [joinPhis, phisFor, List.mem_reverse, List.mem_map, List.mem_filter] at hi
  obtain ⟨⟨var, v⟩, ⟨hmem, _⟩, rfl⟩ := hi
  exact ⟨v, var, List.mem_zipIdx_iff_getElem?.mp hmem, rfl⟩

theorem length_phisFor_cons (vars : List (Variable × VarId)) (entry : Variable × VarId) (b : BlockId) :
    (f.phisFor (entry :: vars) b).length =
      (if b ∈ f.joinsOf entry.1 then 1 else 0) + (f.phisFor vars b).length := by
  by_cases hb : b ∈ f.joinsOf entry.1 <;> simp [phisFor, hb, Nat.add_comm]

variable (f) in
/-- The joins of all variables are as many as the phis of all blocks. -/
theorem sum_card_joinsOf :
    (f.vars.zipIdx.map fun entry => (f.joinsOf entry.1).card).sum =
      (f.blockIds.map fun b => (f.joinPhis b).length).sum := by
  unfold joinPhis
  induction f.vars.zipIdx with
  | nil => simp [phisFor]
  | cons entry vars ih =>
    have hcard : (f.joinsOf entry.1).card =
        (f.blockIds.map fun b => if b ∈ f.joinsOf entry.1 then 1 else 0).sum := by
      rw [IndexSet.card_eq_countP fun j hj => (mem_joinsOf.mp hj).1, blockIds, blockCount]
      induction List.range f.blocks.size with
      | nil => rfl
      | cons b rest ih => by_cases hb : b ∈ f.joinsOf entry.1 <;> simp [hb, ih, Nat.add_comm]
    simp only [List.map_cons, List.sum_cons, ih, hcard, length_phisFor_cons, List.sum_map_add]

/-- Placing the phis gives each block of the iterated frontier of a variable one phi for the variable,
and no block any other. A phi writes the register of its variable with the type of the variable and has
an empty argument for each predecessor, in their order. The phis stand before what the block held, all
else stays, and the answer is how many there are. -/
theorem insertPhis_exact (f : Function) (hnumbered : f.Numbered) (hvars : f.VarsApart)
    (hfrontier : ∀ b, ∀ j ∈ f.frontier b, j < f.blockCount) :
    ∃ (n : Nat) (phis : BlockId → List Instr), f.insertPhis = .ok (n, f.withPhis phis) ∧
      (∀ b v var, f.vars[v]? = some var →
        (f.InIteratedFrontier var.reg b → (phis b).countP (·.phiVar? = some v) = 1) ∧
        (¬ f.InIteratedFrontier var.reg b → (phis b).countP (·.phiVar? = some v) = 0)) ∧
      (∀ b, ∀ i ∈ phis b, ∃ v var, f.vars[v]? = some var ∧
        i = .phi (.reg var.reg var.ty) (some v)
          ((f.preds b).map fun pred => { value := .none, pred }) 0) ∧
      n = (f.blockIds.map fun b => (phis b).length).sum := by
  refine ⟨_, f.joinPhis, insertPhis_eq hnumbered hvars hfrontier, fun b v var hvar => ?_,
    fun b i hi => eq_emptyPhi_of_mem_joinPhis hi, sum_card_joinsOf f⟩
  rw [countP_joinPhis hvar]
  refine ⟨fun hb => if_pos (mem_joinsOf.mpr ⟨?_, hb⟩), fun hb => if_neg fun hj => hb (mem_joinsOf.mp hj).2⟩
  obtain ⟨d, hd⟩ := hb.exists_frontier
  exact hfrontier d b hd

end Function

/-- A loop around a conditional. The first variable is written in one arm of the conditional, the second
where the arms meet. -/
def conditionalLoop : Function where
  name := 0
  line := 1
  vars := [{ name := 1, reg := 0, ty := none }, { name := 2, reg := 1, ty := none }]
  regCount := 2
  blocks := #[
    { id := 0, label := "entry", succs := [1] },
    { id := 1, label := "header", preds := [0, 3], succs := [2, 4], frontier := [1] },
    { id := 2, label := "arm", preds := [1], succs := [3], frontier := [3],
      instrs := [.unary .copy (.reg 0 none) (.int 1) 1] },
    { id := 3, label := "meet", preds := [1, 2], succs := [1], frontier := [1],
      instrs := [.unary .copy (.reg 1 none) (.reg 0 none) 1] },
    { id := 4, label := "exit", preds := [1] }]

/-- The head of the loop gets a phi for the variable that only the arm writes, because the block where
the arms meet gets one; the arm gets none. -/
theorem conditionalLoop_phis :
    conditionalLoop.Numbered ∧ conditionalLoop.VarsApart ∧
    (∀ b, ∀ j ∈ conditionalLoop.frontier b, j < conditionalLoop.blockCount) ∧
    ∃ n phis, conditionalLoop.insertPhis = .ok (n, conditionalLoop.withPhis phis) ∧
      (phis 3).countP (·.phiVar? = some 0) = 1 ∧ (phis 1).countP (·.phiVar? = some 0) = 1 ∧
      (phis 2).countP (·.phiVar? = some 0) = 0 := by
  have hinside : ∀ b < 5, ∀ j ∈ conditionalLoop.frontier b, j = 1 ∨ j = 3 := by decide +kernel
  have hfrontier : ∀ b, ∀ j ∈ conditionalLoop.frontier b, j = 1 ∨ j = 3 := by
    intro b j hj
    by_cases hb : b < 5
    · exact hinside b hb j hj
    · have hnil : conditionalLoop.frontier b = [] :=
        Function.frontier_of_le (f := conditionalLoop) (Nat.not_lt.mp hb)
      simp [hnil] at hj
  have hlt : ∀ b, ∀ j ∈ conditionalLoop.frontier b, j < conditionalLoop.blockCount := by
    intro b j hj
    rcases hfrontier b j hj with rfl | rfl <;> decide
  have hnumbered : conditionalLoop.Numbered := by decide
  have hvars : conditionalLoop.VarsApart := ⟨by decide, by decide⟩
  obtain ⟨n, phis, heq, hphis, _, _⟩ := Function.insertPhis_exact conditionalLoop hnumbered hvars hlt
  have harm : conditionalLoop.Writes 2 0 := ⟨conditionalLoop.blocks[2], rfl, by decide⟩
  have hmeet : conditionalLoop.InIteratedFrontier 0 3 := .of_writes harm (by decide)
  have hhead : conditionalLoop.InIteratedFrontier 0 1 := .of_mem hmeet (by decide)
  have hnone : ¬ conditionalLoop.InIteratedFrontier 0 2 := by
    rintro (⟨_, hj⟩ | ⟨_, hj⟩) <;> exact absurd (hfrontier _ _ hj) (by decide)
  have hx : conditionalLoop.vars[0]? = some { name := 1, reg := 0, ty := none } := rfl
  exact ⟨hnumbered, hvars, hlt, n, phis, heq, (hphis 3 0 _ hx).1 hmeet, (hphis 1 0 _ hx).1 hhead,
    (hphis 2 0 _ hx).2 hnone⟩

end MiddleEnd
