import MiddleEnd.Proofs.SSA.Definitions
import MiddleEnd.Proofs.SSA.Meaning

/-!
# Strict single assignment form

After the conversion every register has one origin, and every use comes after it: a register that is
read is the entry version of a parameter, or was written earlier in the block, or is written in a block
that control has passed.

## Main definitions

* `Function.StrictSsa`: strict single assignment form.

## Main statements

* `Conversion.Valid.origin_fin`: where the versions in force at the end of a block come from.
* `Function.Lowered.computed_above`: a register that is available comes from a strict dominator.
* `Conversion.Valid.strictSsa`: the conversion of a lowered function is strict.
-/

namespace MiddleEnd

open Lowering

/-- The registers that hold the arguments of the parameters on entry. -/
def Function.entryRegs (f : Function) : List Reg := f.paramVersions.filterMap id

/-- A function in strict single assignment form. -/
structure Function.StrictSsa (g : Function) : Prop where
  /-- Every register is the destination of at most one instruction. -/
  single : ∀ r, g.defCount r ≤ 1
  /-- The entry versions of the parameters differ, and nothing writes them. -/
  entryNodup : g.entryRegs.Nodup
  entryUnwritten : ∀ r ∈ g.entryRegs, g.defCount r = 0
  /-- The registers of variables are gone. -/
  canonical : ∀ b, ∀ i ∈ g.code b, ∀ operand ∈ i.operands, ∀ var ∈ g.vars,
    operand.reg? ≠ some var.reg
  /-- All arguments of phis are filled in. -/
  filled : ∀ b, ∀ i ∈ g.code b, ∀ arg ∈ i.phiArgs, arg.value ≠ .none
  /-- What an instruction reads was written before it on every way there. -/
  uses : ∀ b, g.Reachable b → ∀ pre i post, g.code b = pre ++ i :: post → i.isPhi = false →
    ∀ r ∈ i.uses, r ∈ g.entryRegs ∨ r ∈ defsOf pre ∨
      ∃ d, g.StrictlyDominates d b ∧ r ∈ defsOf (g.code d)
  /-- What a phi takes from a predecessor was written before its end on every way there. -/
  phiUses : ∀ b, g.Reachable b → ∀ phi ∈ g.code b, phi.isPhi = true → ∀ arg ∈ phi.phiArgs,
    ∀ r, arg.value.reg? = some r → r ∈ g.entryRegs ∨ r ∈ defsOf (g.code arg.pred) ∨
      ∃ d, g.Dominates d arg.pred ∧ r ∈ defsOf (g.code d)

/-- The form does not depend on whether a function is marked as being in it. -/
theorem Function.StrictSsa.mark {g : Function} (h : g.StrictSsa) :
    Function.StrictSsa { g with isSsa := true } := by
  have hentry : g.entry = Function.entry { g with isSsa := true } := rfl
  have hsuccs : ∀ b, g.succs b = Function.succs { g with isSsa := true } b := fun _ => rfl
  refine ⟨h.single, h.entryNodup, h.entryUnwritten, h.canonical, h.filled, ?_, ?_⟩
  · intro b hb pre i post hsplit hphi r hr
    have hreach : g.Reachable b := hb.congr hentry.symm fun x => (hsuccs x).symm
    rcases h.uses b hreach pre i post hsplit hphi r hr with hr | hpre | ⟨d, hdom, hd⟩
    · exact .inl hr
    · exact .inr (.inl hpre)
    · exact .inr (.inr ⟨d, ⟨hdom.1, hdom.2.congr hentry hsuccs⟩, hd⟩)
  · intro b hb phi hphi hisPhi arg harg r hr
    have hreach : g.Reachable b := hb.congr hentry.symm fun x => (hsuccs x).symm
    rcases h.phiUses b hreach phi hphi hisPhi arg harg r hr with hr | hpred | ⟨d, hdom, hd⟩
    · exact .inl hr
    · exact .inr (.inl hpred)
    · exact .inr (.inr ⟨d, hdom.congr hentry hsuccs, hd⟩)

-- ════════════════════════════════════════════════════════════════════════
-- Registers of no variable
-- ════════════════════════════════════════════════════════════════════════

theorem Function.VarsApart.not_isVarReg_of_le {f : Function} (h : f.VarsApart) {r : Reg}
    (hr : f.regCount ≤ r) : ¬ f.IsVarReg r := by
  rintro ⟨var, hvar, rfl⟩
  exact Nat.not_lt.mpr hr (h.lt var hvar)

theorem Function.VarsApart.not_isVarReg_of_owner? {f : Function} (h : f.VarsApart)
    {operand : Operand} (howner : operand.owner? f.owners = none) {r : Reg}
    (hr : operand.reg? = some r) : ¬ f.IsVarReg r := by
  cases operand with
  | reg q ty =>
    obtain rfl := Option.some.inj hr
    exact (Function.owner?_reg_eq_none_iff h).mp howner
  | _ => cases hr

namespace Function.Lowered

variable {avail : Avail} {f : Function}

/-- On every path to a block, what is available there was computed before. -/
theorem defined_before (h : f.Lowered avail) {b : BlockId} {l : List BlockId}
    (hpath : f.Path f.entry b l) {r : Reg} (hr : avail b r) :
    ∃ d ∈ l.tail, r ∈ defsOf (f.code d) := by
  induction hpath with
  | nil =>
    have hpos := (h.defined _ r hr).1
    rw [h.entry] at hpos
    exact absurd hpos (Nat.lt_irrefl 0)
  | @snoc p b l hpath hedge ih =>
    rcases (h.edges p b hedge).2 r hr with hr | hr
    · obtain ⟨d, hd, hdef⟩ := ih hr
      exact ⟨d, List.mem_of_mem_tail hd, hdef⟩
    · exact ⟨p, hpath.last_mem, hr⟩

/-- Two blocks that write the same register of no variable are the same. -/
theorem eq_of_mem_defs (h : f.Lowered avail) {a b : BlockId} {r : Reg} (hr : ¬ f.IsVarReg r)
    (ha : r ∈ defsOf (f.code a)) (hb : r ∈ defsOf (f.code b)) : a = b :=
  eq_of_defCount (h.single r hr) ha hb

/-- A register that is available at the start of a block is computed in some block, which dominates it
strictly if control can reach it. -/
theorem computed_above (h : f.Lowered avail) {b : BlockId} {r : Reg} (hr : avail b r) :
    ¬ f.IsVarReg r ∧ ∃ d, r ∈ defsOf (f.code d) ∧ (f.Reachable b → f.StrictlyDominates d b) := by
  obtain ⟨_, _, ⟨d, hd⟩, hvar⟩ := h.defined b r hr
  refine ⟨hvar, d, hd, fun hb => strictlyDominates_of_before hb fun l hl => ?_⟩
  obtain ⟨d', hd', hdef⟩ := h.defined_before hl hr
  rw [h.eq_of_mem_defs hvar hd hdef]
  exact hd'

/-- No phi stands behind the head of a block. -/
theorem isPhi_of_mem_body (h : f.Lowered avail) {b : BlockId} {block : Block}
    (hb : f.blocks[b]? = some block) {i : Instr} (hi : i ∈ block.body) : i.isPhi = false := by
  cases hinstrs : block.instrs with
  | nil =>
    rw [Block.body, hinstrs] at hi
    cases hi
  | cons first rest =>
    have htail := h.phiTail b
    rw [code_of_getElem? hb, hinstrs, List.tail_cons] at htail
    rw [Block.body, hinstrs] at hi
    cases hfirst : first.isPhi with
    | true =>
      rw [List.dropWhile_cons_of_pos hfirst] at hi
      exact htail i (List.dropWhile_subset _ hi)
    | false =>
      rw [List.dropWhile_cons_of_neg (by simp [hfirst])] at hi
      rcases List.mem_cons.mp hi with rfl | hi
      · exact hfirst
      · exact htail i hi

theorem phiArgs_of_mem_body (h : f.Lowered avail) {b : BlockId} {block : Block}
    (hb : f.blocks[b]? = some block) {i : Instr} (hi : i ∈ block.body) : i.phiArgs = [] := by
  refine (h.formed b i ?_).args (h.isPhi_of_mem_body hb hi)
  rw [code_of_getElem? hb]
  exact List.dropWhile_subset _ hi

end Function.Lowered

-- ════════════════════════════════════════════════════════════════════════
-- Versions
-- ════════════════════════════════════════════════════════════════════════

theorem Versions.reg?_reading (s : Versions) (v : VarId) (ty : Option TypeId) :
    (s.reading v ty).reg? = (s.stack v).head? := by
  unfold reading
  cases (s.stack v).head? <;> rfl

theorem filterMap_entryVersions (vars : List Variable) (next : Reg) :
    (entryVersions vars next).1.filterMap id = List.range' next (vars.countP (·.isParam)) := by
  induction vars generalizing next with
  | nil => rfl
  | cons var vars ih =>
    by_cases hparam : var.isParam
    · simpa [entryVersions, hparam, List.range'_succ] using ih (next + 1)
    · simpa [entryVersions, hparam] using ih next

namespace Conversion

/-- The block `a` hands out the register `r` as a version of the variable `v`. -/
def MadeIn {f : Function} (c : Conversion f) (a : BlockId) (r : Reg) (v : VarId) : Prop :=
  ∃ k, (c.placed.versionedIn a)[k]? = some v ∧ r = (c.start a).nextReg + k

variable {f : Function} {c : Conversion f} {a : BlockId} {r : Reg} {v : VarId}

theorem MadeIn.bounds (h : c.MadeIn a r v) : (c.start a).nextReg ≤ r ∧ r < (c.fin a).nextReg := by
  obtain ⟨k, hk, rfl⟩ := h
  have hlt := (List.getElem?_eq_some_iff.mp hk).1
  rw [fin, Function.after, Versions.nextReg_pushAll]
  lia

/-- A block that does not exist makes no versions. -/
theorem MadeIn.lt_blockCount (h : c.MadeIn a r v) : a < f.blockCount := by
  by_contra hge
  obtain ⟨k, hk, _⟩ := h
  have hnone : c.placed.blocks[a]? = none := Array.getElem?_eq_none (by
    rw [← Function.blockCount, c.blockCount_placed]
    exact Nat.not_lt.mp hge)
  rw [Function.versionedIn, hnone] at hk
  cases hk

end Conversion

namespace Conversion.Valid

variable {f g : Function} {c : Conversion f}

/-- The entry versions are the first new registers. -/
theorem entryRegs_eq (h : c.Valid g) :
    g.entryRegs = List.range' f.regCount (f.vars.countP (·.isParam)) := by
  rw [Function.entryRegs, h.paramVersions_eq]
  exact filterMap_entryVersions f.vars f.regCount

theorem mem_entryRegs (h : c.Valid g) {r : Reg} :
    r ∈ g.entryRegs ↔ ∃ v, f.withEntryVersions.paramVersion? v = some r := by
  rw [Function.entryRegs, h.paramVersions_eq, List.mem_filterMap]
  simp only [Function.paramVersion?, Option.join_eq_some_iff, id]
  constructor
  · rintro ⟨entry, hmem, rfl⟩
    exact List.mem_iff_getElem?.mp hmem
  · rintro ⟨v, hv⟩
    exact ⟨_, List.mem_iff_getElem?.mpr ⟨v, hv⟩, rfl⟩

/-- A version in force at the start of a block is the entry version of a parameter, or was handed out in
a block on the way up from its parent. -/
theorem origin_start (h : c.Valid g) (hplain : f.Plain) {b : BlockId} (hb : b < f.blockCount)
    {v : VarId} {r : Reg} (hr : r ∈ (c.start b).stack v) :
    f.withEntryVersions.paramVersion? v = some r ∨
      ∃ d a, c.tree.idom? b = some d ∧ Above c.tree.idom? a d ∧ c.MadeIn a r v := by
  induction hn : c.order.idxOf b using Nat.strongRecOn generalizing b with
  | ind n ih =>
    cases hd : c.tree.idom? b with
    | none =>
      have hidom : c.placed.idom? b = none := by rw [c.sameTree.idom]; exact hd
      have hroot := h.renamed.root b (c.lt_placed hb) hidom
      rw [Versions.stack, hroot, c.placed.getD_entryStacks, Option.mem_toList] at hr
      exact .inl hr
    | some d =>
      obtain ⟨_, _, hreach, hlt⟩ := h.forest.of_idom hd
      have hdlt : d < f.blockCount := by
        have hlt := hreach.lt_blockCount (c.linked_tree hplain.linked)
          (by rw [tree, Function.blockCount_recordIdoms]; exact hplain.entry_lt)
        rwa [tree, Function.blockCount_recordIdoms] at hlt
      rw [h.stack_start_of_idom hd] at hr
      obtain hr | hmade := Versions.exists_of_mem_stack_pushAll _ hr
      · obtain hentry | ⟨e, a, he, ha, hmade⟩ := ih (c.order.idxOf d) (hn ▸ hlt) hdlt hr rfl
        · exact .inl hentry
        · exact .inr ⟨d, a, rfl, .step he ha, hmade⟩
      · exact .inr ⟨d, d, rfl, .refl, hmade⟩

/-- A version in force at the end of a block is the entry version of a parameter, or was handed out in
the block or above it. -/
theorem origin_fin (h : c.Valid g) (hplain : f.Plain) {b : BlockId} (hb : b < f.blockCount)
    {v : VarId} {r : Reg} (hr : r ∈ (c.fin b).stack v) :
    f.withEntryVersions.paramVersion? v = some r ∨ ∃ a, Above c.tree.idom? a b ∧ c.MadeIn a r v := by
  obtain hr | hmade := Versions.exists_of_mem_stack_pushAll _ hr
  · obtain hentry | ⟨d, a, hd, ha, hmade⟩ := h.origin_start hplain hb hr
    · exact .inl hentry
    · exact .inr ⟨a, .step hd ha, hmade⟩
  · exact .inr ⟨b, .refl, hmade⟩

theorem reachable_of (h : c.Valid g) (hplain : f.Plain) {b : BlockId} (hb : g.Reachable b) :
    f.Reachable b :=
  hb.congr h.entry_eq (h.succs_eq hplain)

/-- The conversion keeps dominance. -/
theorem dominates_of (h : c.Valid g) (hplain : f.Plain) {a b : BlockId} (hab : f.Dominates a b) :
    g.Dominates a b :=
  hab.congr h.entry_eq.symm fun x => (h.succs_eq hplain x).symm

theorem strictlyDominates_of (h : c.Valid g) (hplain : f.Plain) {a b : BlockId}
    (hab : f.StrictlyDominates a b) : g.StrictlyDominates a b :=
  ⟨hab.1, h.dominates_of hplain hab.2⟩

/-- A block above another in the tree dominates it in the converted function. -/
theorem dominates_of_above (h : c.Valid g) (hplain : f.Plain) {a b : BlockId}
    (habove : Above c.tree.idom? a b) : g.Dominates a b := by
  cases habove with
  | refl => exact .refl g a
  | @step _ d hd ha =>
    have hdom := h.forest.dominates_of_above (h.forest.of_idom hd).1 (.step hd ha)
    refine h.dominates_of hplain (hdom.congr (f := c.tree) rfl fun x => ?_)
    exact Function.succs_recordIdoms f c.guesses x

/-- The registers that a block makes for variables are written in it. -/
theorem mem_defs_of_made (h : c.Valid g) (hrun : f.Runnable) {a : BlockId} {r : Reg} {v : VarId}
    (hmade : c.MadeIn a r v) : r ∈ defsOf (g.code a) :=
  (h.mem_defs hrun hmade.lt_blockCount).mpr (.inr hmade.bounds)

/-- A version in force at the start of a block is an entry version or comes from a strict dominator. -/
theorem strict_start (h : c.Valid g) (hrun : f.Runnable) {b : BlockId} (hb : b < f.blockCount)
    {v : VarId} {r : Reg} (hr : r ∈ (c.start b).stack v) :
    r ∈ g.entryRegs ∨ ∃ d, g.StrictlyDominates d b ∧ r ∈ defsOf (g.code d) := by
  obtain hentry | ⟨d, a, hd, ha, hmade⟩ := h.origin_start hrun.toPlain hb hr
  · exact .inl (h.mem_entryRegs.mpr ⟨v, hentry⟩)
  · refine .inr ⟨a, ⟨?_, h.dominates_of_above hrun.toPlain (.step hd ha)⟩,
      h.mem_defs_of_made hrun hmade⟩
    rintro rfl
    exact h.forest.not_above_parent hd ha

/-- A version in force at the end of a block is an entry version or comes from a dominator. -/
theorem strict_fin (h : c.Valid g) (hrun : f.Runnable) {b : BlockId} (hb : b < f.blockCount)
    {v : VarId} {r : Reg} (hr : r ∈ (c.fin b).stack v) :
    r ∈ g.entryRegs ∨ ∃ d, g.Dominates d b ∧ r ∈ defsOf (g.code d) := by
  obtain hentry | ⟨a, ha, hmade⟩ := h.origin_fin hrun.toPlain hb hr
  · exact .inl (h.mem_entryRegs.mpr ⟨v, hentry⟩)
  · exact .inr ⟨a, h.dominates_of_above hrun.toPlain ha, h.mem_defs_of_made hrun hmade⟩

/-- Versions are new registers. -/
theorem regCount_le_of_mem_stack (h : c.Valid g) {b : BlockId} (hb : b < f.blockCount) {v : VarId}
    {vs : List VarId} {r : Reg} (hr : r ∈ ((c.start b).pushAll vs).stack v) : f.regCount ≤ r := by
  have hlow := h.regCount_le_start hb
  rcases Versions.mem_stack_pushAll _ hr with hr | hr
  · exact (h.renamed.bounded b (c.lt_placed hb) v r hr).1
  · exact Nat.le_trans (Nat.le_trans hlow.1 hlow.2) hr.1

/-- The versions in force after the phis and some instructions of a block. -/
theorem threaded_mid (c : Conversion f) (b : BlockId) (pre : List Instr) :
    (threaded (renamedInstr f.owners) pre (c.mid b)).2 = (c.start b).pushAll
      ((c.joinVars b).map (·.2) ++ pre.filterMap (·.dst.owner? f.owners)) := by
  rw [threaded_renamedInstr_snd, Versions.pushAll_append]
  rfl

-- ════════════════════════════════════════════════════════════════════════
-- Instructions
-- ════════════════════════════════════════════════════════════════════════

/-- What stands before an instruction that is no phi, behind a list of phis. -/
theorem eq_append_of_isPhi {phis body pre post : List Instr} {i : Instr}
    (hphis : ∀ phi ∈ phis, phi.isPhi = true) (hi : i.isPhi = false)
    (h : phis ++ body = pre ++ i :: post) : ∃ pre', pre = phis ++ pre' ∧ body = pre' ++ i :: post := by
  rcases List.append_eq_append_iff.mp h with ⟨pre', hpre, hbody⟩ | ⟨rest, hphis', hrest⟩
  · exact ⟨pre', hpre, hbody⟩
  · cases rest with
    | nil => exact ⟨[], by simpa using hphis'.symm, by simpa using hrest.symm⟩
    | cons phi rest =>
      obtain ⟨rfl, _⟩ := List.cons_eq_cons.mp hrest
      rw [hphis i (by rw [hphis']; simp)] at hi
      cases hi

theorem isPhi_of_mem_joinCode {b : BlockId} {entries : List (Variable × VarId)} {r : Reg} {i : Instr}
    (hi : i ∈ c.joinCode b entries r) : ∃ entry ∈ entries, ∃ q, r ≤ q ∧ i = c.joinPhi b entry q := by
  induction entries generalizing r with
  | nil => cases hi
  | cons entry entries ih =>
    rcases List.mem_cons.mp hi with rfl | hi
    · exact ⟨entry, List.mem_cons_self, r, Nat.le_refl r, rfl⟩
    · obtain ⟨entry', hentry', q, hq, heq⟩ := ih hi
      exact ⟨entry', List.mem_cons_of_mem _ hentry', q, Nat.le_of_succ_le hq, heq⟩

/-- The instructions of a block after the conversion: phis for variables, the phis from before, and
renamed instructions. -/
theorem mem_code (h : c.Valid g) (hplain : f.Plain) {b : BlockId} {i : Instr} (hi : i ∈ g.code b) :
    ∃ block, f.blocks[b]? = some block ∧
      ((∃ entry ∈ c.joinVars b, ∃ q, (c.start b).nextReg ≤ q ∧ i = c.joinPhi b entry q) ∨
        i ∈ block.phis ∨
        ∃ pre a post, block.body = pre ++ a :: post ∧ i =
          (renamedInstr f.owners a (threaded (renamedInstr f.owners) pre (c.mid b)).2).1) := by
  have hb : b < f.blockCount := by
    rw [← h.blockCount_eq]
    exact Function.lt_of_mem_code hi
  refine ⟨_, Array.getElem?_eq_getElem hb, ?_⟩
  rw [h.code_eq hplain (Array.getElem?_eq_getElem hb), List.mem_append, List.mem_append] at hi
  rcases hi with (hi | hi) | hi
  · exact .inl (isPhi_of_mem_joinCode hi)
  · exact .inr (.inl hi)
  · obtain ⟨pre, post, hsplit⟩ := List.append_of_mem hi
    obtain ⟨pre', a, post', hbody, _, heq⟩ := threaded_eq_append hsplit
    exact .inr (.inr ⟨pre', a, post', hbody, heq⟩)

/-- What is written in the converted block before a point: the registers of no variable that were
written there before, and the versions made up to it. -/
theorem mem_defs_before (hvars : f.VarsApart) {b : BlockId} {pre : List Instr} {r : Reg}
    {phis : List Instr}
    (hr : (r ∈ defsOf (phis ++ pre) ∧ ¬ f.IsVarReg r) ∨ (c.start b).nextReg ≤ r ∧
      r < (threaded (renamedInstr f.owners) pre (c.mid b)).2.nextReg) :
    r ∈ defsOf (c.joinCode b (c.joinVars b) (c.start b).nextReg ++ phis ++
      (threaded (renamedInstr f.owners) pre (c.mid b)).1) := by
  have hmid : (c.mid b).nextReg = (c.start b).nextReg + (c.joinVars b).length := by
    rw [mid, Versions.nextReg_pushAll, List.length_map]
  have hperm := perm_defsOf_renamed f.owners pre (c.mid b)
  rw [defsOf_append, defsOf_append, defsOf_joinCode, List.mem_append, List.mem_append,
    hperm.mem_iff, List.mem_append, mem_plainDefs hvars, List.mem_range'_1, List.mem_range'_1]
  rcases hr with ⟨hr, hvar⟩ | ⟨hge, hlt⟩
  · rw [defsOf_append, List.mem_append] at hr
    rcases hr with hr | hr
    · exact .inl (.inr hr)
    · exact .inr (.inl ⟨hr, hvar⟩)
  · rw [threaded_renamedInstr_snd, Versions.nextReg_pushAll] at hlt
    by_cases hjoin : r < (c.mid b).nextReg
    · exact .inl (.inl ⟨hge, hmid ▸ hjoin⟩)
    · exact .inr (.inr ⟨Nat.not_lt.mp hjoin, hlt⟩)

/-- Where a register comes from that a renamed instruction reads. -/
theorem origin_renamed (h : c.Valid g) {avail : Avail} (hlow : f.Lowered avail) {b : BlockId}
    {block : Block} (hb : f.blocks[b]? = some block) {pre post : List Instr} {a : Instr}
    (hbody : block.body = pre ++ a :: post) {operand : Operand} (hop : operand = a.src1 ∨ operand = a.src2)
    {r : Reg} (hr : (operand.renamed f.owners
      (threaded (renamedInstr f.owners) pre (c.mid b)).2).reg? = some r) :
    r ∈ g.entryRegs ∨
      r ∈ defsOf (c.joinCode b (c.joinVars b) (c.start b).nextReg ++ block.phis ++
        (threaded (renamedInstr f.owners) pre (c.mid b)).1) ∨
      ∃ d, r ∈ defsOf (g.code d) ∧ (g.Reachable b → g.StrictlyDominates d b) := by
  have hrun := hlow.runnable
  have hlt : b < f.blockCount := (Array.getElem?_eq_some_iff.mp hb).1
  rw [Operand.renamed] at hr
  cases howner : operand.owner? f.owners with
  | none =>
    -- A register of no variable was computed where it was computed before.
    rw [howner] at hr
    have hreg : ∃ ty, operand = .reg r ty := by
      cases operand with
      | reg q ty => exact ⟨ty, by rw [Option.some.inj hr]⟩
      | _ => cases hr
    obtain ⟨ty, hreg⟩ := hreg
    have hvar : ¬ f.IsVarReg r := (Function.owner?_reg_eq_none_iff hrun.vars).mp (hreg ▸ howner)
    have hsource : r ∈ a.sources := by
      rcases hop with rfl | rfl <;> simp [Instr.sources, hreg, Operand.reg?]
    have hsplit : f.code b = (block.phis ++ pre) ++ a :: post := by
      rw [Function.code_eq_append hb, hbody, List.append_assoc]
    rcases hlow.uses b _ a post hsplit r hsource with hr | hr | hr
    · exact absurd hr hvar
    · obtain ⟨_, d, hd, hdom⟩ := hlow.computed_above hr
      have hdef := (h.mem_defs hrun (Function.lt_of_mem_defsOf hd)).mpr (.inl ⟨hd, hvar⟩)
      refine .inr (.inr ⟨d, hdef, fun hreach => ?_⟩)
      exact h.strictlyDominates_of hrun.toPlain (hdom (h.reachable_of hrun.toPlain hreach))
    · exact .inr (.inl (mem_defs_before hrun.vars (.inl ⟨hr, hvar⟩)))
  | some v =>
    rw [howner] at hr
    have hmem : r ∈ (threaded (renamedInstr f.owners) pre (c.mid b)).2.stack v := by
      refine List.mem_of_mem_head? ?_
      rw [← Versions.reg?_reading _ v operand.ty?]
      exact hr
    have hstate := threaded_mid c b pre
    rw [hstate] at hmem
    rcases Versions.mem_stack_pushAll _ hmem with hmem | hmade
    · rcases h.strict_start hrun hlt hmem with hentry | ⟨d, hdom, hd⟩
      · exact .inl hentry
      · exact .inr (.inr ⟨d, hd, fun _ => hdom⟩)
    · exact .inr (.inl (mem_defs_before hrun.vars (.inr (hstate ▸ hmade))))

/-- Where a register comes from that a phi takes. -/
theorem origin_arg (h : c.Valid g) {avail : Avail} (hlow : f.Lowered avail) {b : BlockId} {phi : Instr}
    (hphi : phi ∈ g.code b) (hisPhi : phi.isPhi = true) {arg : PhiArg} (harg : arg ∈ phi.phiArgs) {r : Reg}
    (hr : arg.value.reg? = some r) :
    r ∈ g.entryRegs ∨ ∃ d, g.Dominates d arg.pred ∧ r ∈ defsOf (g.code d) := by
  have hrun := hlow.runnable
  obtain ⟨block, hb, ⟨entry, _, q, _, rfl⟩ | hold | ⟨pre, a, post, hbody, rfl⟩⟩ :=
    h.mem_code hrun.toPlain hphi
  · -- A phi for a variable takes the version in force at the end of the predecessor.
    obtain ⟨p, hp, rfl⟩ := List.mem_map.mp harg
    rw [Versions.reg?_reading] at hr
    refine h.strict_fin hrun ?_ (List.mem_of_mem_head? hr)
    exact Function.lt_of_mem_succs ((hlow.linked.mem_preds p b).mp hp)
  · rcases hlow.phiArgs b phi (hlow.head?_of_mem_phis hb hold) hisPhi arg harg with
      ⟨n, hvalue⟩ | ⟨q, ty, hvalue, hvar, hdef⟩
    · rw [hvalue] at hr
      cases hr
    · rw [hvalue] at hr
      obtain rfl := Option.some.inj hr
      exact .inr ⟨arg.pred, .refl g arg.pred,
        (h.mem_defs hrun (Function.lt_of_mem_defsOf hdef)).mpr (.inl ⟨hdef, hvar⟩)⟩
  · have hphi : a.isPhi = false := hlow.isPhi_of_mem_body hb (by rw [hbody]; simp)
    rw [show Instr.isPhi (renamedInstr f.owners a _).1 = a.isPhi from rfl, hphi] at hisPhi
    cases hisPhi

/-- What is read after renaming belongs to no variable. -/
theorem canonical_renamed (h : c.Valid g) (hvars : f.VarsApart) {b : BlockId} (hb : b < f.blockCount)
    {vs : List VarId} {operand : Operand} {r : Reg}
    (hr : (operand.renamed f.owners ((c.start b).pushAll vs)).reg? = some r) : ¬ f.IsVarReg r := by
  rw [Operand.renamed] at hr
  cases howner : operand.owner? f.owners with
  | none =>
    rw [howner] at hr
    exact hvars.not_isVarReg_of_owner? howner hr
  | some v =>
    rw [howner] at hr
    have hmem := (Versions.reg?_reading _ v operand.ty?).symm.trans hr
    exact hvars.not_isVarReg_of_le (h.regCount_le_of_mem_stack hb (List.mem_of_mem_head? hmem))

/-- What is written after renaming belongs to no variable. -/
theorem canonical_redirected (h : c.Valid g) (hvars : f.VarsApart) {b : BlockId}
    (hb : b < f.blockCount) {vs : List VarId} {operand : Operand} {r : Reg}
    (hr : (operand.redirected ((c.start b).pushAll vs) (operand.owner? f.owners)).reg? = some r) :
    ¬ f.IsVarReg r := by
  cases howner : operand.owner? f.owners with
  | none =>
    rw [howner] at hr
    exact hvars.not_isVarReg_of_owner? howner hr
  | some v =>
    rw [howner] at hr
    obtain rfl := Option.some.inj hr
    have hlow := h.regCount_le_start hb
    refine hvars.not_isVarReg_of_le (Nat.le_trans (Nat.le_trans hlow.1 hlow.2) ?_)
    rw [Versions.nextReg_pushAll]
    exact Nat.le_add_right _ _

/-- No operand of a converted instruction is the register of a variable. -/
theorem canonical_operand (h : c.Valid g) {avail : Avail} (hlow : f.Lowered avail) {b : BlockId}
    {i : Instr} (hi : i ∈ g.code b) {operand : Operand} (hop : operand ∈ i.operands) {r : Reg}
    (hr : operand.reg? = some r) : ¬ f.IsVarReg r := by
  have hrun := hlow.runnable
  have hvars := hrun.vars
  obtain ⟨block, hb, hcase⟩ := h.mem_code hrun.toPlain hi
  have hlt : b < f.blockCount := (Array.getElem?_eq_some_iff.mp hb).1
  rcases hcase with ⟨entry, _, q, hq, rfl⟩ | hold | ⟨pre, a, post, hbody, rfl⟩
  · rcases Instr.mem_operands.mp hop with rfl | rfl | rfl | ⟨arg, harg, rfl⟩
    · obtain rfl := Option.some.inj hr
      have hstart := h.regCount_le_start hlt
      exact hvars.not_isVarReg_of_le (Nat.le_trans (Nat.le_trans hstart.1 hstart.2) hq)
    · cases hr
    · cases hr
    · obtain ⟨p, hp, rfl⟩ := List.mem_map.mp harg
      rw [Versions.reg?_reading] at hr
      refine hvars.not_isVarReg_of_le (h.regCount_le_of_mem_stack ?_ (List.mem_of_mem_head? hr))
      exact Function.lt_of_mem_succs ((hlow.linked.mem_preds p b).mp hp)
  · obtain ⟨hdst, hargs⟩ := hrun.phi b block hb i hold
    have hmem : i ∈ f.code b := by
      rw [Function.code_of_getElem? hb]
      exact List.takeWhile_subset _ hold
    have hsources := (hlow.formed b i hmem).sources (Block.isPhi_of_mem_phis hold)
    rcases Instr.mem_operands.mp hop with rfl | rfl | rfl | ⟨arg, harg, rfl⟩
    · exact hvars.not_isVarReg_of_owner? hdst hr
    · simp [Instr.sources, hr] at hsources
    · simp [Instr.sources, hr] at hsources
    · exact hvars.not_isVarReg_of_owner? (hargs arg harg) hr
  · have hargs := hlow.phiArgs_of_mem_body hb (i := a) (by rw [hbody]; simp)
    rw [threaded_mid] at hop
    rcases Instr.mem_operands.mp hop with rfl | rfl | rfl | ⟨arg, harg, rfl⟩
    · exact h.canonical_redirected hvars hlt hr
    · exact h.canonical_renamed hvars hlt hr
    · exact h.canonical_renamed hvars hlt hr
    · rw [show Instr.phiArgs (renamedInstr f.owners a _).1 = a.phiArgs from rfl, hargs] at harg
      cases harg

/-- The arguments of phis are filled in. -/
theorem filled_arg (h : c.Valid g) {avail : Avail} (hlow : f.Lowered avail) {b : BlockId} {i : Instr}
    (hi : i ∈ g.code b) {arg : PhiArg} (harg : arg ∈ i.phiArgs) : arg.value ≠ .none := by
  obtain ⟨block, hb, ⟨entry, _, q, _, rfl⟩ | hold | ⟨pre, a, post, hbody, rfl⟩⟩ :=
    h.mem_code hlow.runnable.toPlain hi
  · obtain ⟨p, _, rfl⟩ := List.mem_map.mp harg
    simp only [Versions.reading]
    split <;> simp
  · have hhead := hlow.head?_of_mem_phis hb hold
    rcases hlow.phiArgs b i hhead (Block.isPhi_of_mem_phis hold) arg harg with
      ⟨n, hvalue⟩ | ⟨q, ty, hvalue, _⟩ <;> simp [hvalue]
  · rw [show Instr.phiArgs (renamedInstr f.owners a _).1 = a.phiArgs from rfl,
      hlow.phiArgs_of_mem_body hb (by rw [hbody]; simp)] at harg
    cases harg

/-- Where a register comes from that an instruction reads that is no phi. -/
theorem origin_use (h : c.Valid g) {avail : Avail} (hlow : f.Lowered avail) {b : BlockId}
    {pre post : List Instr} {i : Instr} (hsplit : g.code b = pre ++ i :: post)
    (hphi : i.isPhi = false) {r : Reg} (hr : r ∈ i.uses) :
    r ∈ g.entryRegs ∨ r ∈ defsOf pre ∨
      ∃ d, r ∈ defsOf (g.code d) ∧ (g.Reachable b → g.StrictlyDominates d b) := by
  have hplain := hlow.runnable.toPlain
  have hb : b < f.blockCount := by
    rw [← h.blockCount_eq]
    exact Function.lt_of_mem_code (i := i) (by rw [hsplit]; simp)
  obtain ⟨block, hblock⟩ := Function.exists_getElem?_blocks hb
  rw [h.code_eq hplain hblock] at hsplit
  have hphis : ∀ phi ∈ c.joinCode b (c.joinVars b) (c.start b).nextReg ++ block.phis,
      phi.isPhi = true := by
    intro phi hphi
    rcases List.mem_append.mp hphi with hphi | hphi
    · obtain ⟨_, _, _, _, rfl⟩ := isPhi_of_mem_joinCode hphi
      rfl
    · exact Block.isPhi_of_mem_phis hphi
  obtain ⟨pre', rfl, hbody⟩ := eq_append_of_isPhi hphis hphi hsplit
  obtain ⟨pre, a, post, hblockBody, rfl, rfl⟩ := threaded_eq_append hbody
  have hargs : (renamedInstr f.owners a (threaded (renamedInstr f.owners) pre (c.mid b)).2).1.phiArgs =
      [] := hlow.phiArgs_of_mem_body hblock (i := a) (by rw [hblockBody]; simp)
  rw [Instr.uses, hargs, List.filterMap_nil, List.append_nil, List.mem_append, Option.mem_toList,
    Option.mem_toList] at hr
  rcases hr with hr | hr
  · exact h.origin_renamed hlow hblock hblockBody (.inl rfl) hr
  · exact h.origin_renamed hlow hblock hblockBody (.inr rfl) hr

/-- Nothing writes the entry versions of the parameters. -/
theorem defCount_of_mem_entryRegs (h : c.Valid g) {avail : Avail} (hlow : f.Lowered avail) {r : Reg}
    (hr : r ∈ g.entryRegs) : g.defCount r = 0 := by
  rw [Function.defCount_eq_code]
  refine List.count_eq_zero.mpr fun hmem => ?_
  obtain ⟨b, hb, hdef⟩ := List.mem_flatMap.mp hmem
  rw [List.mem_range, h.blockCount_eq] at hb
  have hbounds : f.regCount ≤ r ∧ r < f.withEntryVersions.regCount := by
    obtain ⟨v, hv⟩ := h.mem_entryRegs.mp hr
    exact f.paramVersion?_bounds hv
  rcases (h.mem_defs hlow.runnable hb).mp hdef with ⟨hold, _⟩ | ⟨hge, _⟩
  · obtain ⟨i, hi, hdef⟩ := mem_defsOf.mp hold
    exact Nat.not_lt.mpr hbounds.1 ((hlow.below b i hi).dst r hdef)
  · exact Nat.not_lt.mpr (Nat.le_trans (h.regCount_le_start hb).2 hge) hbounds.2

/-- The conversion of a lowered function is in strict single assignment form. -/
theorem strictSsa (h : c.Valid g) {avail : Avail} (hlow : f.Lowered avail) : g.StrictSsa where
  single := h.defCount_le_one hlow.runnable hlow.below hlow.single
  entryNodup := by
    rw [h.entryRegs_eq]
    exact List.nodup_range'
  entryUnwritten r hr := h.defCount_of_mem_entryRegs hlow hr
  canonical b i hi operand hop var hvar hreg := by
    exact h.canonical_operand hlow hi hop hreg ⟨var, h.vars_eq ▸ hvar, rfl⟩
  filled b i hi arg harg := h.filled_arg hlow hi harg
  uses b hb pre i post hsplit hphi r hr := by
    rcases h.origin_use hlow hsplit hphi hr with hentry | hpre | ⟨d, hd, hdom⟩
    · exact .inl hentry
    · exact .inr (.inl hpre)
    · exact .inr (.inr ⟨d, hdom hb, hd⟩)
  phiUses b _ phi hphi hisPhi arg harg r hr := by
    rcases h.origin_arg hlow hphi hisPhi harg hr with hentry | ⟨d, hdom, hd⟩
    · exact .inl hentry
    · exact .inr (.inr ⟨d, hdom, hd⟩)

end Conversion.Valid

end MiddleEnd
