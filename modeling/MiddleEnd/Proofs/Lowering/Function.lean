import MiddleEnd.Proofs.IR.Edges
import MiddleEnd.Proofs.Lowering.Stmt
import MiddleEnd.Proofs.SSA.Simulation
import Mathlib.Data.List.Permutation

/-!
# Lowered functions

A lowered function is in order: each block ends in its only terminator, the edges are those of the
terminators, every register that is read was computed on every way there, and each phi has one argument
for each predecessor of its block.

## Main definitions

* `Function.Lowered`: what holds of a function that was lowered.

## Main statements

* `Function.code_closeBlocks`, `Function.code_buildEdges`: the instructions of the finished function.
* `SourceUnit.ensured_lowerFunction`: lowering a function stops only because of what the unit refers to.
* `SourceUnit.exists_lowerBody`: what the lowering of a function consists of.
* `SourceUnit.lowered_lowerFunction`: every lowered function is in order.
* `Function.Lowered.runnable`: a lowered function can be run.
-/

namespace MiddleEnd

open Lowering

-- ════════════════════════════════════════════════════════════════════════
-- Closing the blocks
-- ════════════════════════════════════════════════════════════════════════

namespace Function

/-- What closing a block appends to its instructions. -/
def closing (f : Function) (b : BlockId) : List Instr :=
  match f.blocks[b]? with
  | some block => if block.isTerminated then [] else [.ret .none f.line]
  | none => []

theorem code_closeBlocks (f : Function) (b : BlockId) :
    f.closeBlocks.code b = f.code b ++ f.closing b := by
  simp only [code, closing, closeBlocks, mapBlocks, Array.getElem?_map]
  cases f.blocks[b]? with
  | none => rfl
  | some block => cases h : block.isTerminated <;> simp [h]

theorem mem_closing {f : Function} {b : BlockId} {i : Instr} (h : i ∈ f.closing b) :
    i = .ret .none f.line := by
  unfold closing at h
  split at h
  · split at h
    · cases h
    · exact List.mem_singleton.mp h
  · cases h

theorem defsOf_closing (f : Function) (b : BlockId) : defsOf (f.closing b) = [] := by
  refine List.eq_nil_iff_forall_not_mem.mpr fun r hr => ?_
  obtain ⟨i, hi, hdef⟩ := mem_defsOf.mp hr
  rw [mem_closing hi] at hdef
  cases hdef

theorem blockCount_closeBlocks (f : Function) : f.closeBlocks.blockCount = f.blockCount := by
  simp [closeBlocks, mapBlocks, blockCount]

/-- A closed block ends in a terminator. -/
theorem closed_closeBlocks {f : Function} {b : BlockId} (hb : b < f.blockCount) :
    f.closeBlocks.Closed b := by
  obtain ⟨block, hget⟩ := exists_getElem?_blocks hb
  rw [Closed, code_closeBlocks, closing, hget]
  by_cases hterm : block.isTerminated = true
  · simp only [hterm, if_true, List.append_nil]
    exact (isTerminated_iff hget).mp hterm
  · simp [hterm, Instr.ret, Instr.isTerminator, Opcode.isTerminator]

-- ════════════════════════════════════════════════════════════════════════
-- Deriving the edges
-- ════════════════════════════════════════════════════════════════════════

/-- Deriving the edges puts the arguments of the phis at the head of a block in order. -/
theorem code_buildEdges (f : Function) (b : BlockId) :
    f.buildEdges.code b =
      ((f.code b).takeWhile (·.isPhi)).map (·.mapPhiArgs (alignArgs (f.buildEdges.preds b))) ++
        (f.code b).dropWhile (·.isPhi) := by
  obtain ⟨t, _, heq⟩ := f.buildEdges_eq
  simp only [code, preds, getElem?_buildEdges heq b]
  cases f.blocks[b]? with
  | none => rfl
  | some block => rfl

/-- How many instructions write a register depends on the instructions alone. -/
theorem defCount_eq_code (f : Function) (r : Reg) :
    f.defCount r = ((List.range f.blockCount).flatMap fun b => defsOf (f.code b)).count r := by
  have hblocks : f.blocks.toList = (List.range f.blockCount).map fun b => f.blocks[b]?.getD default := by
    refine List.ext_getElem? fun b => ?_
    by_cases hb : b < f.blockCount
    · have hget : f.blocks[b]? = some f.blocks[b] := Array.getElem?_eq_getElem hb
      simp [hb, hget]
    · simp [Array.getElem?_eq_none (Nat.not_lt.mp hb), hb]
  rw [defCount, hblocks, List.flatMap_map]
  congr 1
  refine List.flatMap_congr fun b hb => ?_
  have hlt : b < f.blocks.size := List.mem_range.mp hb
  simp [code, hlt, Block.defs, defsOf]

theorem defCount_congr {f g : Function} (hcount : f.blockCount = g.blockCount)
    (hdefs : ∀ b, defsOf (f.code b) = defsOf (g.code b)) (r : Reg) : f.defCount r = g.defCount r := by
  rw [defCount_eq_code, defCount_eq_code, hcount]
  simp only [hdefs]

/-- What holds of a function that was lowered. The registers that are available at the start of a block
were computed on every way to it. -/
structure Lowered (avail : Avail) (f : Function) : Prop where
  numbered : f.Numbered
  linked : f.Linked
  entry : f.entry = 0
  unversioned : f.paramVersions = []
  nonempty : 0 < f.blockCount
  vars : f.VarsApart
  names : (f.vars.map (·.name)).Nodup
  below : ∀ b, ∀ i ∈ f.code b, i.Below f.regCount
  formed : ∀ b, ∀ i ∈ f.code b, i.Formed
  ends : ∀ b < f.blockCount, ∃ front last, f.code b = front ++ [last] ∧ last.isTerminator = true ∧
    ∀ i ∈ front, i.isTerminator = false
  succs : ∀ b t, t ∈ f.succs b ↔ f.LeadsTo b t
  uses : ∀ b pre i post, f.code b = pre ++ i :: post → ∀ r ∈ i.sources,
    f.IsVarReg r ∨ avail b r ∨ r ∈ defsOf pre
  edges : ∀ b, ∀ t ∈ f.succs b, 0 < t ∧ ∀ r, avail t r → avail b r ∨ r ∈ defsOf (f.code b)
  defined : ∀ b r, avail b r → 0 < b ∧ b < f.blockCount ∧ f.Defines r ∧ ¬ f.IsVarReg r
  phiPreds : ∀ b, ∀ phi ∈ (f.code b).head?, phi.isPhi = true → phi.phiArgs.map (·.pred) = f.preds b
  phiDst : ∀ b, ∀ phi ∈ (f.code b).head?, phi.isPhi = true →
    ∃ r ty, phi.dst = .reg r ty ∧ ¬ f.IsVarReg r
  phiArgs : ∀ b, ∀ phi ∈ (f.code b).head?, phi.isPhi = true → ∀ arg ∈ phi.phiArgs,
    (∃ n, arg.value = .int n) ∨
      ∃ q ty, arg.value = .reg q ty ∧ ¬ f.IsVarReg q ∧ q ∈ defsOf (f.code arg.pred)
  phiTail : ∀ b, ∀ i ∈ (f.code b).tail, i.isPhi = false
  single : ∀ r, ¬ f.IsVarReg r → f.defCount r ≤ 1

/-- Aligning two arguments with the predecessors puts them in the order of the predecessors. -/
theorem map_pred_alignArgs {preds : List BlockId} (a a' : PhiArg) (hnodup : preds.Nodup)
    (hne : a.pred ≠ a'.pred) (hmem : ∀ p, p ∈ preds ↔ p = a.pred ∨ p = a'.pred) :
    (alignArgs preds [a, a']).map (·.pred) = preds ∧
      ∀ arg, arg ∈ alignArgs preds [a, a'] ↔ arg = a ∨ arg = a' := by
  have hperm : (alignArgs preds [a, a']).Perm [a, a'] := List.mergeSort_perm _ _
  refine ⟨?_, fun arg => by rw [hperm.mem_iff]; simp⟩
  have hsorted : (alignArgs preds [a, a']).Pairwise fun x y =>
      preds.idxOf x.pred ≤ preds.idxOf y.pred := by
    have hsort := @List.pairwise_mergeSort _ (fun x y : PhiArg =>
      decide (preds.idxOf x.pred ≤ preds.idxOf y.pred))
      (fun x y z hxy hyz => by simp only [decide_eq_true_eq] at *; omega)
      (fun x y => by simp only [Bool.or_eq_true, decide_eq_true_eq]; omega) [a, a']
    exact hsort.imp fun h => of_decide_eq_true h
  have hpreds : preds = [a.pred, a'.pred] ∨ preds = [a'.pred, a.pred] := by
    refine List.perm_pair.mp ((List.perm_ext_iff_of_nodup hnodup (by simpa using hne)).mpr fun p => ?_)
    rw [hmem]
    simp
  rcases List.perm_pair.mp hperm with hargs | hargs <;> rcases hpreds with hpreds | hpreds
  · rw [hargs, hpreds]
    rfl
  · rw [hargs, hpreds] at hsorted
    simp [hne.symm] at hsorted
  · rw [hargs, hpreds] at hsorted
    simp [hne] at hsorted
  · rw [hargs, hpreds]
    rfl

end Function

namespace Instr

variable (g : List PhiArg → List PhiArg) (i : Instr)

/-- Changing the arguments of a phi changes nothing else. -/
theorem mapPhiArgs_eq : ∃ detail, i.mapPhiArgs g = { i with detail } ∧
    (i.mapPhiArgs g).phiVar? = i.phiVar? ∧ (i.mapPhiArgs g).targets = i.targets := by
  unfold mapPhiArgs
  cases hdetail : i.detail with
  | phi var args =>
    refine ⟨_, rfl, by simp [phiVar?, hdetail], ?_⟩
    simp [targets, falseTarget?, cases, fallback?, hdetail]
  | none | branch | switch => exact ⟨i.detail, by simp, rfl, rfl⟩

@[simp]
theorem mapPhiArgs_opcode : (i.mapPhiArgs g).opcode = i.opcode := by
  obtain ⟨_, heq, _⟩ := i.mapPhiArgs_eq g
  rw [heq]

@[simp]
theorem mapPhiArgs_dst : (i.mapPhiArgs g).dst = i.dst := by
  obtain ⟨_, heq, _⟩ := i.mapPhiArgs_eq g
  rw [heq]

@[simp]
theorem mapPhiArgs_src1 : (i.mapPhiArgs g).src1 = i.src1 := by
  obtain ⟨_, heq, _⟩ := i.mapPhiArgs_eq g
  rw [heq]

@[simp]
theorem mapPhiArgs_src2 : (i.mapPhiArgs g).src2 = i.src2 := by
  obtain ⟨_, heq, _⟩ := i.mapPhiArgs_eq g
  rw [heq]

@[simp]
theorem mapPhiArgs_phiVar? : (i.mapPhiArgs g).phiVar? = i.phiVar? :=
  (i.mapPhiArgs_eq g).choose_spec.2.1

@[simp]
theorem mapPhiArgs_targets : (i.mapPhiArgs g).targets = i.targets :=
  (i.mapPhiArgs_eq g).choose_spec.2.2

theorem phiArgs_mapPhiArgs (hg : g [] = []) : (i.mapPhiArgs g).phiArgs = g i.phiArgs := by
  unfold mapPhiArgs phiArgs
  cases hdetail : i.detail <;> simp [hg, hdetail]

theorem mapPhiArgs_of_phiArgs (hg : g [] = []) (h : i.phiArgs = []) : i.mapPhiArgs g = i := by
  unfold mapPhiArgs
  unfold phiArgs at h
  cases hdetail : i.detail with
  | phi var args =>
    rw [hdetail] at h
    obtain rfl : args = [] := h
    simp only [hg, ← hdetail]
  | none | branch | switch => rfl

end Instr

theorem alignArgs_nil (preds : List BlockId) : alignArgs preds [] = [] := by
  simp [alignArgs]

namespace Lowering

variable {avail : Avail} {s : Lowering}

/-- Nothing follows a terminator in a closed block either. -/
theorem Sound.last_closeBlocks (h : s.Sound avail) (b : BlockId) :
    ∀ i ∈ (s.fn.closeBlocks.code b).dropLast, i.isTerminator = false := by
  intro i hi
  rw [Function.code_closeBlocks, Function.closing] at hi
  cases hget : s.fn.blocks[b]? with
  | none =>
    simp only [hget, List.append_nil] at hi
    exact h.last b i hi
  | some block =>
    by_cases hterm : block.isTerminated = true
    · simp only [hget, hterm, if_true, List.append_nil] at hi
      exact h.last b i hi
    · simp only [hget, hterm, if_false, Bool.false_eq_true, List.dropLast_concat] at hi
      have hopen : ¬ s.fn.Closed b := fun hclosed => hterm ((Function.isTerminated_iff hget).mpr hclosed)
      exact Function.isTerminator_of_not_closed hopen (h.last b) i hi

theorem mem_code_closeBlocks {f : Function} {b : BlockId} {i : Instr}
    (h : i ∈ f.closeBlocks.code b) : i ∈ f.code b ∨ i = .ret .none f.line := by
  rw [Function.code_closeBlocks, List.mem_append] at h
  exact h.imp id Function.mem_closing

theorem defsOf_closeBlocks (f : Function) (b : BlockId) :
    defsOf (f.closeBlocks.code b) = defsOf (f.code b) := by
  rw [Function.code_closeBlocks, defsOf_append, Function.defsOf_closing, List.append_nil]

theorem leadsTo_closeBlocks {f : Function} {b t : BlockId} :
    f.closeBlocks.LeadsTo b t ↔ f.LeadsTo b t := by
  constructor
  · rintro ⟨i, hi, ht⟩
    rcases mem_code_closeBlocks hi with hi | rfl
    · exact ⟨i, hi, ht⟩
    · simp [Instr.ret, Instr.targets] at ht
  · rintro ⟨i, hi, ht⟩
    refine ⟨i, ?_, ht⟩
    rw [Function.code_closeBlocks]
    exact List.mem_append_left _ hi

-- ════════════════════════════════════════════════════════════════════════
-- The finished function
-- ════════════════════════════════════════════════════════════════════════

/-- The finished function. -/
def finished (s : Lowering) : Function := s.fn.closeBlocks.buildEdges

/-- The instruction with its arguments in the order of the predecessors. -/
def aligned (s : Lowering) (b : BlockId) (i : Instr) : Instr :=
  i.mapPhiArgs (alignArgs (s.finished.preds b))

section Aligned

variable (s : Lowering) (b : BlockId) (i : Instr)

@[simp]
theorem opcode_aligned : (s.aligned b i).opcode = i.opcode :=
  i.mapPhiArgs_opcode _

@[simp]
theorem dst_aligned : (s.aligned b i).dst = i.dst :=
  i.mapPhiArgs_dst _

@[simp]
theorem src1_aligned : (s.aligned b i).src1 = i.src1 :=
  i.mapPhiArgs_src1 _

@[simp]
theorem src2_aligned : (s.aligned b i).src2 = i.src2 :=
  i.mapPhiArgs_src2 _

@[simp]
theorem phiVar?_aligned : (s.aligned b i).phiVar? = i.phiVar? :=
  i.mapPhiArgs_phiVar? _

@[simp]
theorem targets_aligned : (s.aligned b i).targets = i.targets :=
  i.mapPhiArgs_targets _

@[simp]
theorem isPhi_aligned : (s.aligned b i).isPhi = i.isPhi := by
  simp [Instr.isPhi]

@[simp]
theorem isTerminator_aligned : (s.aligned b i).isTerminator = i.isTerminator := by
  simp [Instr.isTerminator]

@[simp]
theorem sources_aligned : (s.aligned b i).sources = i.sources := by
  simp [Instr.sources]

@[simp]
theorem def?_aligned : (s.aligned b i).def? = i.def? := by
  simp [Instr.def?]

theorem phiArgs_aligned : (s.aligned b i).phiArgs = alignArgs (s.finished.preds b) i.phiArgs :=
  i.phiArgs_mapPhiArgs _ (alignArgs_nil _)

theorem perm_phiArgs_aligned : (s.aligned b i).phiArgs.Perm i.phiArgs := by
  rw [phiArgs_aligned]
  exact List.mergeSort_perm _ _

theorem defsOf_map_aligned (code : List Instr) : defsOf (code.map (s.aligned b)) = defsOf code := by
  simp only [defsOf, List.filterMap_map]
  exact List.filterMap_congr fun i _ => s.def?_aligned b i

end Aligned

/-- Finishing a function changes its blocks only. -/
theorem finished_eq (s : Lowering) : ∃ blocks, s.finished = { s.fn with blocks } := by
  obtain ⟨t, _, heq⟩ := s.fn.closeBlocks.buildEdges_eq
  exact ⟨_, heq⟩

theorem vars_finished (s : Lowering) : s.finished.vars = s.fn.vars := by
  obtain ⟨_, heq⟩ := s.finished_eq
  rw [heq]

theorem regCount_finished (s : Lowering) : s.finished.regCount = s.fn.regCount := by
  obtain ⟨_, heq⟩ := s.finished_eq
  rw [heq]

theorem entry_finished (s : Lowering) : s.finished.entry = s.fn.entry := by
  obtain ⟨_, heq⟩ := s.finished_eq
  rw [heq]

theorem isVarReg_finished (s : Lowering) : s.finished.IsVarReg = s.fn.IsVarReg := by
  funext r
  rw [Function.IsVarReg, vars_finished]
  rfl

theorem blockCount_finished (s : Lowering) : s.finished.blockCount = s.fn.blockCount := by
  rw [finished, s.fn.closeBlocks.linked_buildEdges.2.1, Function.blockCount_closeBlocks]

namespace Sound

/-- Only the first instruction of a block is a phi. -/
theorem phiTail_closeBlocks (h : s.Sound avail) (b : BlockId) :
    ∀ i ∈ (s.fn.closeBlocks.code b).tail, i.isPhi = false := by
  intro i hi
  rw [Function.code_closeBlocks] at hi
  cases hcode : s.fn.code b with
  | nil =>
    rw [hcode, List.nil_append] at hi
    rw [Function.mem_closing (List.mem_of_mem_tail hi)]
    rfl
  | cons j rest =>
    rw [hcode, List.cons_append, List.tail_cons, List.mem_append] at hi
    rcases hi with hi | hi
    · exact h.phiTail b i (by rw [hcode]; exact hi)
    · rw [Function.mem_closing hi]
      rfl

/-- The instructions of the finished function. -/
theorem code_finished (h : s.Sound avail) (b : BlockId) :
    s.finished.code b = (s.fn.closeBlocks.code b).map (s.aligned b) := by
  have hbody : ∀ i ∈ (s.fn.closeBlocks.code b).dropWhile (·.isPhi), i.isPhi = false := by
    have htail := h.phiTail_closeBlocks b
    intro i hi
    cases hcode : s.fn.closeBlocks.code b with
    | nil => rw [hcode] at hi; cases hi
    | cons j rest =>
      rw [hcode, List.tail_cons] at htail
      rw [hcode] at hi
      cases hj : j.isPhi with
      | true =>
        rw [List.dropWhile_cons_of_pos hj] at hi
        exact htail i ((List.dropWhile_sublist _).subset hi)
      | false =>
        rw [List.dropWhile_cons_of_neg (by simp [hj])] at hi
        rcases List.mem_cons.mp hi with rfl | hi
        · exact hj
        · exact htail i hi
  have hkeep : ((s.fn.closeBlocks.code b).dropWhile (·.isPhi)).map (s.aligned b) =
      (s.fn.closeBlocks.code b).dropWhile (·.isPhi) := by
    rw [List.map_congr_left (g := id), List.map_id]
    intro i hi
    refine i.mapPhiArgs_of_phiArgs _ (alignArgs_nil _) ?_
    rcases mem_code_closeBlocks ((List.dropWhile_sublist _).subset hi) with hi' | rfl
    · exact (h.formed b i hi').args (hbody i hi)
    · rfl
  rw [finished, Function.code_buildEdges]
  conv_rhs => rw [← List.takeWhile_append_dropWhile (p := (·.isPhi))
    (l := s.fn.closeBlocks.code b), List.map_append, hkeep]
  rfl

theorem defsOf_finished (h : s.Sound avail) (b : BlockId) :
    defsOf (s.finished.code b) = defsOf (s.fn.code b) := by
  rw [h.code_finished, defsOf_map_aligned, defsOf_closeBlocks]

theorem defines_finished (h : s.Sound avail) {r : Reg} : s.finished.Defines r ↔ s.fn.Defines r := by
  simp only [Function.Defines, h.defsOf_finished]

theorem leadsTo_finished (h : s.Sound avail) {b t : BlockId} :
    s.finished.LeadsTo b t ↔ s.fn.LeadsTo b t := by
  refine Iff.trans ?_ leadsTo_closeBlocks
  simp only [Function.LeadsTo, h.code_finished, List.mem_map]
  constructor
  · rintro ⟨_, ⟨i, hi, rfl⟩, ht⟩
    exact ⟨i, hi, by simpa using ht⟩
  · rintro ⟨i, hi, ht⟩
    exact ⟨_, ⟨i, hi, rfl⟩, by simpa using ht⟩

/-- An instruction of the finished function comes from one before. -/
theorem mem_code_finished (h : s.Sound avail) {b : BlockId} {j : Instr}
    (hj : j ∈ s.finished.code b) :
    ∃ i, (i ∈ s.fn.code b ∨ i = .ret .none s.fn.line) ∧ j = s.aligned b i := by
  rw [h.code_finished] at hj
  obtain ⟨i, hi, rfl⟩ := List.mem_map.mp hj
  exact ⟨i, mem_code_closeBlocks hi, rfl⟩

/-- A block of the finished function ends in its only terminator. -/
theorem ends_finished (h : s.Sound avail) {b : BlockId} (hb : b < s.fn.blockCount) :
    ∃ front last, s.fn.closeBlocks.code b = front ++ [last] ∧ last.isTerminator = true ∧
      ∀ i ∈ front, i.isTerminator = false := by
  obtain ⟨last, hlast, hterm⟩ := Function.closed_closeBlocks hb
  refine ⟨(s.fn.closeBlocks.code b).dropLast, last, ?_, hterm, h.last_closeBlocks b⟩
  rw [List.dropLast_append_getLast? last hlast]

/-- The edges of the finished function are those of its instructions. -/
theorem succs_finished (h : s.Sound avail) (b t : BlockId) :
    t ∈ s.finished.succs b ↔ s.finished.LeadsTo b t := by
  rw [finished, s.fn.closeBlocks.linked_buildEdges.2.2, Function.blockCount_closeBlocks, ← finished,
    h.leadsTo_finished]
  have hlt : s.fn.LeadsTo b t → b < s.fn.blockCount ∧ t < s.fn.blockCount := by
    rintro ⟨i, hi, ht⟩
    exact ⟨Function.lt_of_mem_code hi, (h.edges b i hi t ht).2.1⟩
  have htargets : b < s.fn.blockCount → (t ∈ s.fn.closeBlocks.targets b ↔ s.fn.LeadsTo b t) := by
    intro hb
    obtain ⟨front, last, hcode, hterm, hfront⟩ := h.ends_finished hb
    obtain ⟨block, hblock⟩ := Function.exists_getElem?_blocks (s.fn.blockCount_closeBlocks.symm ▸ hb)
    have hinstrs : block.instrs = front ++ [last] := by
      rw [← hcode, Function.code_of_getElem? hblock]
    have htarget : s.fn.closeBlocks.targets b = last.targets := by
      have hlast : Option.filter (·.isTerminator) (some last) = some last := by
        simp [Option.filter, hterm]
      simp [Function.targets, hblock, Block.terminator?, Block.last?, hinstrs, hlast]
    rw [htarget, ← leadsTo_closeBlocks, Function.LeadsTo, hcode]
    constructor
    · exact fun ht => ⟨last, List.mem_append_right _ List.mem_cons_self, ht⟩
    · rintro ⟨i, hi, ht⟩
      rcases List.mem_append.mp hi with hi | hi
      · rw [targets_of_not_isTerminator (hfront i hi)] at ht
        cases ht
      · rw [List.mem_singleton.mp hi] at ht
        exact ht
  constructor
  · rintro ⟨hb, ht, _⟩
    exact (htargets hb).mp ht
  · intro ht
    exact ⟨(hlt ht).1, (htargets (hlt ht).1).mpr ht, (hlt ht).2⟩

/-- A phi of the finished function has an argument for each predecessor, in their order. -/
theorem phi_finished (h : s.Sound avail) {b : BlockId} {phi : Instr}
    (hphi : phi ∈ (s.finished.code b).head?) (hisPhi : phi.isPhi = true) :
    phi.phiArgs.map (·.pred) = s.finished.preds b ∧
      (∃ r ty, phi.dst = .reg r ty ∧ ¬ s.fn.IsVarReg r) ∧ ∀ arg ∈ phi.phiArgs,
        (∃ n, arg.value = .int n) ∨
          ∃ q ty, arg.value = .reg q ty ∧ ¬ s.fn.IsVarReg q ∧ q ∈ defsOf (s.fn.code arg.pred) := by
  rw [h.code_finished, List.head?_map, Option.mem_def, Option.map_eq_some_iff] at hphi
  obtain ⟨i, hi, rfl⟩ := hphi
  have hi' : i ∈ (s.fn.code b).head? := by
    rw [Function.code_closeBlocks, List.head?_append] at hi
    cases hcode : (s.fn.code b).head? with
    | some j => rwa [hcode, Option.some_or] at hi
    | none =>
      rw [hcode, Option.none_or] at hi
      rw [Function.mem_closing (List.mem_of_mem_head? hi)] at hisPhi
      simp [Instr.isPhi, Instr.ret] at hisPhi
  obtain ⟨n, p, q, ty, p', hargs, hne, hq, hdef, hdst, hp, hp', honly⟩ :=
    h.phiHead b i hi' (by simpa using hisPhi)
  have hlinked := s.fn.closeBlocks.linked_buildEdges.1
  have hmem : ∀ x, x ∈ s.finished.preds b ↔ x = p ∨ x = p' := by
    intro x
    rw [finished, hlinked.mem_preds, ← finished, h.succs_finished, h.leadsTo_finished]
    refine ⟨honly x, ?_⟩
    rintro (rfl | rfl)
    · exact hp
    · exact hp'
  obtain ⟨hpreds, hsame⟩ := Function.map_pred_alignArgs ⟨.int n, p⟩ ⟨.reg q ty, p'⟩
    (hlinked.preds_nodup b) hne hmem
  rw [phiArgs_aligned, hargs]
  refine ⟨hpreds, by simpa using hdst, fun arg harg => ?_⟩
  rcases (hsame arg).mp harg with rfl | rfl
  · exact .inl ⟨n, rfl⟩
  · exact .inr ⟨q, ty, rfl, hq, hdef⟩

theorem below_finished (h : s.Sound avail) {b : BlockId} {j : Instr} (hj : j ∈ s.finished.code b) :
    j.Below s.fn.regCount := by
  obtain ⟨i, hi, rfl⟩ := h.mem_code_finished hj
  rcases hi with hi | rfl
  · obtain ⟨hdst, hsrc1, hsrc2, hargs⟩ := h.below b i hi
    exact ⟨by simpa using hdst, by simpa using hsrc1, by simpa using hsrc2,
      fun arg harg => hargs arg ((s.perm_phiArgs_aligned b i).mem_iff.mp harg)⟩
  · constructor <;> simp [aligned, Instr.mapPhiArgs, Instr.ret, Operand.Below, Operand.reg?,
      Instr.phiArgs]

theorem formed_finished (h : s.Sound avail) {b : BlockId} {j : Instr} (hj : j ∈ s.finished.code b) :
    j.Formed := by
  obtain ⟨i, hi, rfl⟩ := h.mem_code_finished hj
  rcases hi with hi | rfl
  · have hformed := h.formed b i hi
    exact {
      var := by simpa using hformed.var
      terminator := by simpa using hformed.terminator
      args hphi := by rw [phiArgs_aligned, hformed.args (by simpa using hphi), alignArgs_nil]
      sources := by simpa using hformed.sources }
  · exact ⟨rfl, fun _ => rfl, fun _ => rfl, fun _ => rfl⟩

/-- What an instruction of the finished function reads is read by an instruction before, behind the same
instructions: the return that closes a block reads nothing. -/
theorem exists_of_mem_sources (h : s.Sound avail) {b : BlockId} {pre post : List Instr} {j : Instr}
    (hsplit : s.finished.code b = pre ++ j :: post) {r : Reg} (hr : r ∈ j.sources) :
    ∃ pre' i post', s.fn.code b = pre' ++ i :: post' ∧ r ∈ i.sources ∧ defsOf pre = defsOf pre' := by
  rw [h.code_finished, Function.code_closeBlocks] at hsplit
  obtain ⟨pre', rest, hcode, rfl, hrest⟩ := List.map_eq_append_iff.mp hsplit
  obtain ⟨i, post', rfl, rfl, rfl⟩ := List.map_eq_cons_iff.mp hrest
  rw [sources_aligned] at hr
  have hret : i ∉ s.fn.closing b := by
    intro hmem
    rw [Function.mem_closing hmem] at hr
    cases hr
  rcases List.append_eq_append_iff.mp hcode with ⟨more, rfl, hclosing⟩ | ⟨more, hpre, hclosing⟩
  · exact absurd (by rw [hclosing]; simp) hret
  · cases more with
    | nil => exact absurd (by rw [show s.fn.closing b = i :: post' from hclosing.symm]; simp) hret
    | cons k more =>
      obtain ⟨rfl, _⟩ := List.cons_eq_cons.mp hclosing
      exact ⟨pre', i, more, hpre, hr, s.defsOf_map_aligned b pre'⟩

/-- Lowering a body leaves a function that is in order once it is finished. -/
theorem lowered (h : s.Sound avail) : s.finished.Lowered avail where
  numbered := (h.numbered.mapBlocks fun block => by split <;> rfl).buildEdges
  linked := s.fn.closeBlocks.linked_buildEdges.1
  entry := s.entry_finished.trans h.entry
  unversioned := by
    obtain ⟨_, heq⟩ := s.finished_eq
    rw [heq]
    exact h.unversioned
  nonempty := by
    rw [blockCount_finished]
    exact Nat.lt_of_le_of_lt (Nat.zero_le _) h.current
  vars := ⟨by rw [vars_finished, regCount_finished]; exact h.vars.lt,
    by rw [vars_finished]; exact h.vars.nodup⟩
  names := by rw [vars_finished]; exact h.names
  below b j hj := by
    rw [regCount_finished]
    exact h.below_finished hj
  formed b j hj := h.formed_finished hj
  ends b hb := by
    rw [blockCount_finished] at hb
    obtain ⟨front, last, hcode, hterm, hfront⟩ := h.ends_finished hb
    refine ⟨front.map (s.aligned b), s.aligned b last, ?_, ?_, fun j hj => ?_⟩
    · rw [h.code_finished, hcode, List.map_append]
      rfl
    · simpa using hterm
    · obtain ⟨i, hi, rfl⟩ := List.mem_map.mp hj
      simpa using hfront i hi
  succs := h.succs_finished
  uses b pre j post hsplit r hr := by
    obtain ⟨pre', i, post', hcode, hr', hdefs⟩ := h.exists_of_mem_sources hsplit hr
    rw [isVarReg_finished, hdefs]
    exact h.uses b pre' i post' hcode r hr'
  edges b t ht := by
    obtain ⟨i, hi, hit⟩ := h.leadsTo_finished.mp ((h.succs_finished b t).mp ht)
    obtain ⟨hpos, _, hav⟩ := h.edges b i hi t hit
    rw [h.defsOf_finished]
    exact ⟨hpos, hav⟩
  defined b r hr := by
    rw [blockCount_finished, h.defines_finished, isVarReg_finished]
    exact h.defined b r hr
  phiPreds b phi hphi hisPhi := (h.phi_finished hphi hisPhi).1
  phiDst b phi hphi hisPhi := by
    rw [isVarReg_finished]
    exact (h.phi_finished hphi hisPhi).2.1
  phiArgs b phi hphi hisPhi := by
    simp only [isVarReg_finished, h.defsOf_finished]
    exact (h.phi_finished hphi hisPhi).2.2
  phiTail b j hj := by
    rw [h.code_finished, ← List.map_tail] at hj
    obtain ⟨i, hi, rfl⟩ := List.mem_map.mp hj
    simpa using h.phiTail_closeBlocks b i hi
  single r hr := by
    rw [isVarReg_finished] at hr
    rw [Function.defCount_congr s.blockCount_finished h.defsOf_finished]
    exact h.single r hr

end Sound

end Lowering

-- ════════════════════════════════════════════════════════════════════════
-- The whole function
-- ════════════════════════════════════════════════════════════════════════

/-- The computation answers a result with a property, or stops because of what the unit refers to. -/
def Ensured {α : Type} (x : Except Fault α) (Q : α → Prop) : Prop :=
  match x with
  | .ok a => Q a
  | .error fault => fault.IsDangling

namespace Ensured

variable {α β σ : Type}

theorem bind {x : Except Fault α} {next : α → Except Fault β} {P : α → Prop} {Q : β → Prop}
    (h : Ensured x P) (hnext : ∀ a, P a → Ensured (next a) Q) : Ensured (x >>= next) Q := by
  cases x with
  | ok a => exact hnext a h
  | error fault => exact h

theorem foldlM {step : σ → α → Except Fault σ} {xs : List α} {s : σ} {P : σ → Prop}
    (hstep : ∀ s a, P s → Ensured (step s a) P) (hs : P s) : Ensured (xs.foldlM step s) P := by
  induction xs generalizing s with
  | nil => exact hs
  | cons a xs ih =>
    rw [List.foldlM_cons]
    exact (hstep s a hs).bind fun s' hs' => ih hs'

end Ensured

/-- A function without instructions, whose variables are in order. -/
structure Function.Blank (f : Function) : Prop where
  blocks : f.blocks = #[]
  unversioned : f.paramVersions = []
  vars : f.VarsApart
  names : (f.vars.map (·.name)).Nodup

theorem Function.Blank.declareParam {f : Function} (h : f.Blank) (name : Name) (ty : TypeId) :
    (f.declareParam name ty).2.Blank := by
  obtain ⟨⟨hlt, hnodup⟩, hnames⟩ := varsApart_varLookup h.vars h.names name (some ty)
  have hblank : (f.varLookup name (some ty)).2.blocks = #[] ∧
      (f.varLookup name (some ty)).2.paramVersions = [] := by
    rcases varLookup_cases f name (some ty) with ⟨_, _, _, heq⟩ | ⟨_, heq⟩ <;> rw [heq] <;>
      exact ⟨h.blocks, h.unversioned⟩
  have hmark : ∀ var : Variable,
      (if var.name = name then { var with isParam := true } else var).reg = var.reg ∧
        (if var.name = name then { var with isParam := true } else var).name = var.name := by
    intro var
    split <;> exact ⟨rfl, rfl⟩
  refine ⟨hblank.1, hblank.2, ⟨?_, ?_⟩, ?_⟩
  · intro var hvar
    obtain ⟨old, hold, rfl⟩ := List.mem_map.mp hvar
    rw [(hmark old).1]
    exact hlt old hold
  · simpa only [Function.declareParam, List.map_map, Function.comp_def, hmark] using hnodup
  · simpa only [Function.declareParam, List.map_map, Function.comp_def, hmark] using hnames

namespace SourceUnit

variable (unit : SourceUnit)

theorem ensured_declareParam {f : Function} (h : f.Blank) (param : ParamDecl) :
    Ensured (unit.declareParam f param) Function.Blank := by
  unfold declareParam
  split
  · exact h
  · rename_i name _
    have hty : Ensured (unit.types.get param.ty) fun _ => True := by
      unfold TypeTable.get
      cases unit.types.entries[param.ty]? <;> trivial
    refine hty.bind fun ty _ => ?_
    split
    · exact h
    · exact h.declareParam name param.ty

/-- Before its body is lowered, a function consists of an empty entry block. -/
theorem ensured_enterFunction (decl : FunctionDecl) (texts : Interner) (line : Nat) :
    Ensured (unit.enterFunction decl) fun fn =>
      Sound (fun _ _ => False) { fn, texts, current := fn.entry, line } ∧ ∀ b, fn.code b = [] := by
  have hstart : Function.Blank
      { name := decl.name, line := decl.line, returnType := some decl.returnType } :=
    ⟨rfl, rfl, ⟨by simp, by simp⟩, by simp⟩
  refine (Ensured.foldlM (fun f param hf => unit.ensured_declareParam hf param) hstart).bind
    fun f hf => ?_
  have hcode : ∀ b, ({ (f.newBlock (some "entry")).2 with entry := f.blocks.size }).code b = [] := by
    intro b
    rw [Function.code, Function.newBlock]
    simp only [hf.blocks]
    cases b <;> rfl
  change Sound _ (⟨{ (f.newBlock (some "entry")).2 with entry := f.blocks.size }, texts,
    f.blocks.size, line, [], [], [], []⟩ : Lowering) ∧ _
  generalize hfn : { (f.newBlock (some "entry")).2 with entry := f.blocks.size } = fn at hcode
  have hentry : fn.entry = 0 := by rw [← hfn, hf.blocks]; rfl
  have hcount : 0 < fn.blockCount := by rw [← hfn]; simp [Function.newBlock, Function.blockCount]
  have hzero : f.blocks.size = 0 := by rw [hf.blocks]; rfl
  have hdefs : ∀ r, ¬ fn.Defines r := by
    rintro r ⟨b, hb⟩
    rw [hcode] at hb
    cases hb
  have hblank : f.Numbered := by
    intro b block hblock
    rw [hf.blocks] at hblock
    cases hblock
  have hversions : fn.paramVersions = [] := by rw [← hfn]; exact hf.unversioned
  refine ⟨⟨?_, hentry, hversions, hzero ▸ hcount, ?_, ?_, ?_, ?_, ?_, ?_, ?_, ?_, ?_, ?_, ?_, ?_⟩, ?_⟩
  · rw [← hfn]; exact hblank.newBlock (some "entry")
  · rw [← hfn]; exact ⟨hf.vars.lt, hf.vars.nodup⟩
  · rw [← hfn]; exact hf.names
  · simp [hcode]
  · simp [hcode]
  · simp [hcode]
  · simp [hcode]
  · simp [hcode]
  · simp
  · simp [hcode]
  · simp [hcode]
  · intro r _
    rw [Function.defCount_eq_zero (hdefs r)]
    exact Nat.zero_le _
  · simp [Lowering.scopes]
  · exact hfn ▸ hcode

/-- The state in which lowering the body of a function ends. -/
def finalState (texts : Interner) (decl : FunctionDecl) (body : StmtId) : Except Fault Lowering := do
  let fn ← unit.enterFunction decl
  let (_, final) ← (unit.lowerBody body).run { fn, texts, current := fn.entry, line := decl.line }
  return final

/-- A function is lowered by lowering its body and finishing what results. -/
theorem lowerFunction_of_body (texts : Interner) {decl : FunctionDecl} {body : StmtId}
    (hbody : decl.body = some body) : unit.lowerFunction texts decl =
      unit.finalState texts decl body >>= fun s => .ok (some s.finished, s.texts) := by
  simp only [lowerFunction, hbody, finalState, bind_assoc]
  rfl

/-- Lowering the body of a function keeps the invariant. It stops only because of what the unit refers
to. -/
theorem ensured_finalState (texts : Interner) (decl : FunctionDecl) (body : StmtId) :
    Ensured (unit.finalState texts decl body) fun s => ∃ avail, s.Sound avail := by
  refine (unit.ensured_enterFunction decl texts decl.line).bind fun fn ⟨hsound, hcode⟩ => ?_
  have hbody := unit.ensures_lowerBody hsound (isOpen_of_code (hcode _)) body
  refine Ensured.bind (P := fun result : Unit × Lowering => ∃ avail, result.2.Sound avail) ?_
    fun result hresult => hresult
  unfold LowerM.Ensures at hbody
  unfold Ensured StateT.run
  split
  · rename_i heq
    rw [heq] at hbody
    exact hbody
  · rename_i heq
    rw [heq] at hbody
    exact hbody

/-- A lowered function is in order. Lowering a function stops only because of what the unit refers to. -/
theorem ensured_lowerFunction (texts : Interner) (decl : FunctionDecl) :
    Ensured (unit.lowerFunction texts decl) fun result =>
      ∀ f, result.1 = some f → ∃ avail, f.Lowered avail := by
  cases hbody : decl.body with
  | none =>
    rw [lowerFunction, hbody]
    exact fun f hf => nomatch hf
  | some body =>
    rw [unit.lowerFunction_of_body texts hbody]
    refine (unit.ensured_finalState texts decl body).bind ?_
    rintro s ⟨avail, hsound⟩ f ⟨⟩
    exact ⟨avail, hsound.lowered⟩

/-- A function that was lowered was entered without instructions, its body was lowered, which kept the
invariant, and what resulted was finished. -/
theorem exists_lowerBody {texts texts' : Interner} {decl : FunctionDecl} {f : Function}
    (h : unit.lowerFunction texts decl = .ok (some f, texts')) : ∃ body fn last avail,
      decl.body = some body ∧ unit.enterFunction decl = .ok fn ∧
      Sound (fun _ _ => False) { fn, texts, current := fn.entry, line := decl.line } ∧
      (∀ b, fn.code b = []) ∧
      unit.lowerBody body { fn, texts, current := fn.entry, line := decl.line } = .ok ((), last) ∧
      last.Sound avail ∧ last.finished = f ∧ last.texts = texts' := by
  cases hbody : decl.body with
  | none =>
    rw [lowerFunction, hbody] at h
    cases h
  | some body =>
    rw [unit.lowerFunction_of_body texts hbody] at h
    obtain ⟨last, hfinal, hresult⟩ := bind_eq_ok.mp h
    cases hresult
    have hensured := unit.ensured_finalState texts decl body
    rw [hfinal] at hensured
    obtain ⟨avail, hsound⟩ := hensured
    obtain ⟨fn, henter, hrun⟩ := bind_eq_ok.mp hfinal
    obtain ⟨⟨_, final⟩, hlower, hend⟩ := bind_eq_ok.mp hrun
    cases hend
    have hentered := unit.ensured_enterFunction decl texts decl.line
    rw [henter] at hentered
    exact ⟨body, fn, last, avail, rfl, henter, hentered.1, hentered.2, hlower, hsound, rfl, rfl⟩

theorem lowered_lowerFunction {texts texts' : Interner} {decl : FunctionDecl} {f : Function}
    (h : unit.lowerFunction texts decl = .ok (some f, texts')) : ∃ avail, f.Lowered avail := by
  obtain ⟨_, _, last, avail, _, _, _, _, _, hsound, rfl, _⟩ := unit.exists_lowerBody h
  exact ⟨avail, hsound.lowered⟩

end SourceUnit

namespace Function.Lowered

variable {avail : Avail} {f : Function}

/-- A terminator ends its block. -/
theorem getLast?_of_isTerminator (h : f.Lowered avail) {b : BlockId} {i : Instr} (hi : i ∈ f.code b)
    (hterm : i.isTerminator = true) : (f.code b).getLast? = some i := by
  obtain ⟨front, last, hcode, _, hfront⟩ := h.ends b (lt_of_mem_code hi)
  rw [hcode] at hi ⊢
  rw [List.getLast?_concat]
  obtain hi | hi := List.mem_append.mp hi
  · rw [hfront i hi] at hterm
    cases hterm
  · rw [List.mem_singleton.mp hi]

/-- An instruction that leads somewhere ends its block. -/
theorem getLast?_of_mem_targets (h : f.Lowered avail) {b t : BlockId} {i : Instr} (hi : i ∈ f.code b)
    (ht : t ∈ i.targets) : (f.code b).getLast? = some i := by
  refine h.getLast?_of_isTerminator hi ?_
  by_contra hterm
  rw [Lowering.targets_of_not_isTerminator (Bool.eq_false_iff.mpr hterm)] at ht
  cases ht

/-- Only the first instruction of a block can be a phi. -/
theorem head?_of_mem_phis (h : f.Lowered avail) {b : BlockId} {block : Block}
    (hblock : f.blocks[b]? = some block) {phi : Instr} (hphi : phi ∈ block.phis) :
    phi ∈ (f.code b).head? := by
  have hcode := code_of_getElem? hblock
  have htail := h.phiTail b
  have hisPhi : phi.isPhi = true := Block.isPhi_of_mem_phis hphi
  have hmem : phi ∈ block.instrs := (List.takeWhile_sublist _).subset hphi
  rw [hcode] at htail ⊢
  cases hinstrs : block.instrs with
  | nil => rw [hinstrs] at hmem; cases hmem
  | cons i rest =>
    rw [hinstrs] at hmem htail
    rcases List.mem_cons.mp hmem with rfl | hmem
    · rfl
    · rw [htail phi hmem] at hisPhi
      cases hisPhi

/-- A lowered function can be run. -/
theorem runnable (h : f.Lowered avail) : f.Runnable := by
  refine ⟨⟨h.numbered, h.linked, ?_, h.vars, ?_⟩, ?_, ?_, ?_, ?_⟩
  · rw [h.entry]
    exact h.nonempty
  · intro b block hblock i hi
    exact (h.formed b i (by rw [code_of_getElem? hblock]; exact hi)).var
  · refine List.eq_nil_iff_forall_not_mem.mpr fun p hp => ?_
    rw [h.entry, h.linked.mem_preds] at hp
    exact Nat.lt_irrefl 0 (h.edges p 0 hp).1
  · intro b block hblock i hi
    exact h.below b i (by rw [code_of_getElem? hblock]; exact hi)
  · intro b block hblock phi hphi
    have hhead := h.head?_of_mem_phis hblock hphi
    have hisPhi := Block.isPhi_of_mem_phis hphi
    refine ⟨?_, fun arg harg => ?_⟩
    · obtain ⟨r, ty, hdst, hr⟩ := h.phiDst b phi hhead hisPhi
      rw [hdst]
      exact (owner?_reg_eq_none_iff h.vars).mpr hr
    · rcases h.phiArgs b phi hhead hisPhi arg harg with ⟨n, hvalue⟩ | ⟨q, ty, hvalue, hq, _⟩
      · rw [hvalue]
        rfl
      · rw [hvalue]
        exact (owner?_reg_eq_none_iff h.vars).mpr hq
  · intro b block hblock
    have hcode := code_of_getElem? hblock
    obtain ⟨front, last, hsplit, hterm, hfront⟩ := h.ends b (Array.getElem?_eq_some_iff.mp hblock).1
    have hlast : last ∈ f.code b := by rw [hsplit]; exact List.mem_append_right _ List.mem_cons_self
    refine ⟨front, last, hcode ▸ hsplit, hterm, (h.formed b last hlast).terminator hterm, hfront,
      fun t ht => ?_⟩
    exact (h.succs b t).mpr ⟨last, hlast, ht⟩

end Function.Lowered

end MiddleEnd
