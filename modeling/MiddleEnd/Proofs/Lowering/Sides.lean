import MiddleEnd.Proofs.Lowering.Walk

/-!
# Where the sides of an operator meet

In a lowered function the phis are those of the logical operators. A phi stands first in a block that only
two edges lead to: the branch at the end of the left side, and the jump at the end of the right side.

## Main definitions

* `Junction.Meets`: only the two sides lead to a block.

## Main statements

* `SourceUnit.phis_join_sides`: every phi of a lowered function.
-/

namespace MiddleEnd

namespace Junction

/-- The ends of the two sides are the only blocks that lead to block `b`. The left side ends in the branch,
the right one in the jump. -/
structure Meets (j : Junction) (f : Function) (b : BlockId) : Prop where
  distinct : j.leftEnd ≠ j.rightEnd
  preds : (f.preds b).Perm [j.leftEnd, j.rightEnd]
  leftLast : (f.code j.leftEnd).getLast? = some (j.branch b)
  rightLast : (f.code j.rightEnd).getLast? = some (j.jump b)
  others : ∀ c, ∀ i ∈ f.code c, b ∈ i.targets →
    c = j.leftEnd ∧ i = j.branch b ∨ c = j.rightEnd ∧ i = j.jump b

variable {j : Junction} {unit : SourceUnit} {f : Function} {b : BlockId} {phi : Instr}

theorem Stands.branch_mem (h : j.Stands unit f b phi) : j.branch b ∈ f.code j.leftEnd := by
  obtain ⟨_, _, t, _, _, hcurrent, hbranch⟩ := h.leftSide
  exact hcurrent ▸ List.mem_of_getElem? hbranch

theorem Stands.jump_mem (h : j.Stands unit f b phi) : j.jump b ∈ f.code j.rightEnd := by
  obtain ⟨_, _, t, _, _, hcurrent, _, hjump⟩ := h.rightSide
  exact hcurrent ▸ List.mem_of_getElem? hjump

/-- If nothing but the ends of the sides leads to a block, they meet there. -/
theorem Stands.meets {avail : Lowering.Avail} (h : j.Stands unit f b phi) (hf : f.Lowered avail)
    (hpreds : phi.phiArgs.map (·.pred) = f.preds b)
    (honly : ∀ c, f.LeadsTo c b → c = j.leftEnd ∨ c = j.rightEnd) : j.Meets f b := by
  have hleft := hf.getLast?_of_isTerminator h.branch_mem (j.isTerminator_branch b)
  have hright := hf.getLast?_of_isTerminator h.jump_mem rfl
  have hperm : (f.preds b).Perm [j.leftEnd, j.rightEnd] := hpreds ▸ h.args.map (·.pred)
  refine ⟨?_, hperm, hleft, hright, fun c i hi ht => ?_⟩
  · have hnodup := hperm.nodup_iff.mp (hf.linked.preds_nodup b)
    exact fun heq => (List.nodup_cons.mp hnodup).1 (List.mem_singleton.mpr heq)
  · have hlast := hf.getLast?_of_mem_targets hi ht
    refine (honly c ⟨i, hi, ht⟩).imp ?_ ?_
    · rintro rfl
      exact ⟨rfl, Option.some.inj (hlast.symm.trans hleft)⟩
    · rintro rfl
      exact ⟨rfl, Option.some.inj (hlast.symm.trans hright)⟩

end Junction

/-- The sides of an operator still meet once the arguments of the phi are in the order of the
predecessors. -/
theorem Lowering.Final.stands_finished {unit : SourceUnit} {last : Lowering} (h : last.Final) {j : Junction}
    {b : BlockId} {phi : Instr} (hj : j.Stands unit last.fn b phi) :
    j.Stands unit last.finished b (last.aligned b phi) := by
  refine { hj.mono h.partOf_finished with var := ?_, args := ?_ }
  · rw [phiVar?_aligned]
    exact hj.var
  · exact (last.perm_phiArgs_aligned b phi).trans hj.args

/-- Every phi of a lowered function stands first in its block and joins the sides of a logical operator,
with an argument for each predecessor in their order. Only the two sides lead to its block. -/
theorem SourceUnit.phis_join_sides {unit : SourceUnit} {texts texts' : Interner} {decl : FunctionDecl}
    {f : Function} (h : unit.lowerFunction texts decl = .ok (some f, texts')) {b : BlockId} {k : Nat}
    {phi : Instr} (hphi : (f.code b)[k]? = some phi) (hisPhi : phi.isPhi = true) :
    k = 0 ∧ phi.phiArgs.map (·.pred) = f.preds b ∧ ∃ j : Junction, j.Stands unit f b phi ∧ j.Meets f b := by
  obtain ⟨body, nodes, entered, start, visits, last, _, hwalk, hfinal, rfl⟩ := exists_bodyWalk h
  obtain ⟨avail, hsound⟩ := hfinal.sound
  have hlowered := hsound.lowered
  -- Only the first instruction of a block is a phi.
  obtain rfl : k = 0 := by
    cases k with
    | zero => rfl
    | succ k =>
      have hmem : phi ∈ (last.finished.code b).tail := List.mem_of_getElem? (by rw [List.getElem?_tail, hphi])
      rw [hlowered.phiTail b phi hmem] at hisPhi
      cases hisPhi
  rw [← List.head?_eq_getElem?] at hphi
  have hpreds := hlowered.phiPreds b phi hphi hisPhi
  refine ⟨rfl, hpreds, ?_⟩
  -- The phi was added for an operator, since there were no instructions at the beginning.
  obtain ⟨i, hi, rfl⟩ := hsound.mem_code_finished (List.mem_of_mem_head? hphi)
  rw [Lowering.isPhi_aligned] at hisPhi
  obtain hi | rfl := hi
  · obtain hstart | ⟨j, hj⟩ := hwalk.walked.course.adds.phis b i hi hisPhi
    · rw [hwalk.code_start] at hstart
      cases hstart
    · have hstands := hfinal.stands_finished hj
      refine ⟨j, hstands, hstands.meets hlowered hpreds fun c hc => ?_⟩
      rw [← hlowered.succs, ← hlowered.linked.mem_preds, ← hpreds, (hstands.args.map (·.pred)).mem_iff] at hc
      simpa [Junction.args] using hc
  · cases hisPhi

/-- A unit with the function `int nested(int a, int b, int c) { return (a || b) && c; }`. -/
def nestedUnit : SourceUnit where
  names := { texts := #["nested", "a", "b", "c"] }
  exprs := #[
    { kind := .ident 1, ty := some TypeTable.int, line := 1 },
    { kind := .ident 2, ty := some TypeTable.int, line := 1 },
    { kind := .binary .logicalOr 0 1, ty := some TypeTable.int, line := 1 },
    { kind := .ident 3, ty := some TypeTable.int, line := 1 },
    { kind := .binary .logicalAnd 2 3, ty := some TypeTable.int, line := 1 }]
  stmts := #[
    { kind := .ret (some 4), ty := none, line := 1 },
    { kind := .block [0], ty := none, line := 1 }]

/-- The declaration of that function. -/
def nestedDecl : FunctionDecl where
  name := 0
  returnType := TypeTable.int
  params := [⟨some 1, TypeTable.int⟩, ⟨some 2, TypeTable.int⟩, ⟨some 3, TypeTable.int⟩]
  body := some 1
  line := 1

/-- The left side of the outer operator ends in block 4, where the sides of the inner one meet. The right
side has block 1, so its argument comes first. -/
theorem nested_sides : ∃ f texts phi, nestedUnit.lowerFunction {} nestedDecl = .ok (some f, texts) ∧
    (f.code 2)[0]? = some phi ∧ phi.isPhi = true ∧ f.preds 2 = [1, 4] ∧
    phi.phiArgs.map (·.pred) = f.preds 2 ∧ ∃ j : Junction, j.Stands nestedUnit f 2 phi ∧ j.Meets f 2 := by
  have hcode : ((nestedUnit.lowerFunction {} nestedDecl).toOption.bind (·.1)).map
      (fun f => (((f.code 2)[0]?).map (·.isPhi), f.preds 2)) = some (some true, [1, 4]) := by
    decide +kernel
  obtain ⟨f, hf, hcode⟩ := Option.map_eq_some_iff.mp hcode
  obtain ⟨texts, hlower⟩ := exists_of_toOption_bind hf
  obtain ⟨hphi, hpreds⟩ := Prod.mk.inj hcode
  obtain ⟨phi, hget, hisPhi⟩ := Option.map_eq_some_iff.mp hphi
  obtain ⟨_, hargs, hjoins⟩ := SourceUnit.phis_join_sides hlower hget hisPhi
  exact ⟨f, texts, phi, hlower, hget, hisPhi, hpreds, hargs, hjoins⟩

end MiddleEnd
