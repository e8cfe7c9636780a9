import MiddleEnd.Proofs.Dataflow.Liveness
import MiddleEnd.Proofs.IR.Listing
import MiddleEnd.SSA.Violation

/-!
# The conversion has no violations

What the conversion makes of a lowered function passes the check for single assignment form, can be
listed if the function could be, and mentions only registers and blocks that exist.

## Main statements

* `Function.violations_eq_nil`: what a function without violations has to satisfy.
* `Conversion.Valid.violations_eq_nil`: the conversion of a lowered function satisfies it.
* `Conversion.Valid.listable`: the conversion keeps the texts of a function in the tables.
* `Conversion.Valid.regsBelow`: the conversion mentions only registers that were handed out.
-/

namespace MiddleEnd

open Lowering

-- ════════════════════════════════════════════════════════════════════════
-- The check
-- ════════════════════════════════════════════════════════════════════════

/-- A phi whose arguments belong to the predecessors in order matches them. -/
theorem Block.phiViolations_eq_nil {block : Block} {phi : Instr}
    (h : phi.phiArgs.map (·.pred) = block.preds) : block.phiViolations phi = [] := by
  have hlength : phi.phiArgs.length = block.preds.length := by rw [← h, List.length_map]
  have hpreds : ∀ arg ∈ phi.phiArgs, ¬ arg.pred ∉ block.preds := by
    intro arg harg
    rw [← h, not_not]
    exact List.mem_map_of_mem harg
  rw [phiViolations, if_pos hlength, List.nil_append, List.map_eq_nil_iff, List.filter_eq_nil_iff]
  simpa using hpreds

namespace Function

variable {f : Function}

/-- Some instruction writes the register, or it holds an argument on entry. -/
def Gives (f : Function) (r : Reg) : Prop := r ∈ f.entryRegs ∨ f.Defines r

theorem undefinedReg?_eq_none {operand : Operand}
    (h : ∀ r, operand.reg? = some r → f.Gives r) : f.undefinedReg? f.definedRegs operand = none := by
  rw [undefinedReg?, Option.filter_eq_none_iff]
  intro r hr
  simp only [decide_eq_true_eq, not_and, not_not]
  intro hlt
  rw [definedRegs, IndexSet.mem_ofList, List.mem_filter, List.mem_append]
  refine ⟨?_, decide_eq_true hlt⟩
  rcases h r hr with hentry | ⟨b, hdef⟩
  · exact .inr hentry
  · obtain ⟨i, hi, hdef⟩ := mem_defsOf.mp hdef
    obtain ⟨block, hblock, hi⟩ := exists_of_mem_code hi
    refine .inl (List.mem_flatMap.mpr ⟨block, ?_, List.mem_filterMap.mpr ⟨i, hi, hdef⟩⟩)
    exact Array.mem_toList_iff.mpr (Array.mem_of_getElem? hblock)

/-- A function has no violations if no register is written twice, each register that is read has a value,
and the arguments of each phi belong to the predecessors of its block in order. -/
theorem violations_eq_nil (hssa : f.isSsa = true) (hsingle : ∀ r, f.defCount r ≤ 1)
    (huses : ∀ b, ∀ i ∈ f.code b, ∀ r ∈ i.uses, f.Gives r)
    (hphis : ∀ (b : BlockId) block, f.blocks[b]? = some block → ∀ phi ∈ block.phis,
      phi.phiArgs.map (·.pred) = block.preds) : f.violations = [] := by
  have hblock : ∀ {block : Block}, block ∈ f.blocks.toList → ∃ b : BlockId, f.blocks[b]? = some block :=
    fun hmem => Array.mem_iff_getElem?.mp (Array.mem_toList_iff.mp hmem)
  have hdefinitions : f.definitionViolations = [] := by
    refine List.filterMap_eq_nil_iff.mpr fun r _ => ?_
    rw [if_neg (Nat.not_lt.mpr (hsingle r))]
  have huse : f.useViolations = [] := by
    refine List.flatMap_eq_nil_iff.mpr fun block hmem => List.flatMap_eq_nil_iff.mpr fun i hi => ?_
    obtain ⟨b, hb⟩ := hblock hmem
    rw [← code_of_getElem? hb] at hi
    have hread := huses b i hi
    simp only [Instr.uses, List.mem_append, Option.mem_toList, List.mem_filterMap] at hread
    rw [instrViolations, List.append_eq_nil_iff, List.filterMap_eq_nil_iff, List.filterMap_eq_nil_iff]
    refine ⟨fun operand hop => ?_, fun arg harg => ?_⟩
    · rw [Option.map_eq_none_iff]
      refine undefinedReg?_eq_none fun r hr => hread r (.inl ?_)
      rcases List.mem_cons.mp hop with rfl | hop
      · exact .inl hr
      · rw [List.mem_singleton.mp hop] at hr
        exact .inr hr
    · rw [Option.map_eq_none_iff]
      exact undefinedReg?_eq_none fun r hr => hread r (.inr ⟨arg, harg, hr⟩)
  have hjoin : f.joinViolations = [] := by
    refine List.flatMap_eq_nil_iff.mpr fun block hmem => List.flatMap_eq_nil_iff.mpr fun phi hphi => ?_
    obtain ⟨b, hb⟩ := hblock hmem
    exact Block.phiViolations_eq_nil (hphis b block hb phi hphi)
  rw [violations, if_pos hssa, hdefinitions, huse, hjoin]
  rfl

end Function

-- ════════════════════════════════════════════════════════════════════════
-- The conversion
-- ════════════════════════════════════════════════════════════════════════

namespace Conversion.Valid

variable {f g : Function} {c : Conversion f} {avail : Avail}

/-- What the conversion reads has a value. -/
theorem gives_of_mem_uses (h : c.Valid g) (hlow : f.Lowered avail) {b : BlockId} {i : Instr}
    (hi : i ∈ g.code b) {r : Reg} (hr : r ∈ i.uses) : g.Gives r := by
  cases hphi : i.isPhi with
  | false =>
    obtain ⟨pre, post, hsplit⟩ := List.append_of_mem hi
    rcases h.origin_use hlow hsplit hphi hr with hentry | hpre | ⟨d, hd, _⟩
    · exact .inl hentry
    · refine .inr ⟨b, ?_⟩
      rw [hsplit, defsOf_append]
      exact List.mem_append_left _ hpre
    · exact .inr ⟨d, hd⟩
  | true =>
    -- A phi reads its arguments alone.
    have hsources : i.sources = [] := by
      obtain ⟨block, hb, ⟨entry, _, q, _, rfl⟩ | hold | ⟨pre, a, post, hbody, rfl⟩⟩ :=
        h.mem_code hlow.runnable.toPlain hi
      · rfl
      · refine (hlow.formed b i ?_).sources hphi
        rw [Function.code_of_getElem? hb]
        exact List.takeWhile_subset _ hold
      · have hbodyPhi : a.isPhi = false := hlow.isPhi_of_mem_body hb (by rw [hbody]; simp)
        rw [show Instr.isPhi (renamedInstr f.owners a _).1 = a.isPhi from rfl, hbodyPhi] at hphi
        cases hphi
    have harg : r ∈ i.phiArgs.filterMap (·.value.reg?) := by
      rw [Instr.uses, show i.src1.reg?.toList ++ i.src2.reg?.toList = [] from hsources] at hr
      exact hr
    obtain ⟨arg, harg, hr⟩ := List.mem_filterMap.mp harg
    rcases h.origin_arg hlow hi hphi harg hr with hentry | ⟨d, _, hd⟩
    · exact .inl hentry
    · exact .inr ⟨d, hd⟩

/-- The arguments of the phis after the conversion belong to the predecessors in order. -/
theorem map_pred_phiArgs (h : c.Valid g) (hlow : f.Lowered avail) {b : BlockId} {block' : Block}
    (hb' : g.blocks[b]? = some block') {phi : Instr} (hphi : phi ∈ block'.phis) :
    phi.phiArgs.map (·.pred) = block'.preds := by
  have hb : b < f.blockCount := by
    rw [← h.blockCount_eq]
    exact (Array.getElem?_eq_some_iff.mp hb').1
  obtain ⟨block, hblock⟩ := Function.exists_getElem?_blocks hb
  obtain ⟨block'', hblock'', hphis, _, _, hpreds, _⟩ := h.getElem?_eq c hlow.runnable.toPlain hblock
  obtain rfl := Option.some.inj (hb'.symm.trans hblock'')
  rw [hpreds, ← Function.preds_of_getElem? hblock]
  rw [hphis, List.mem_append] at hphi
  rcases hphi with hphi | hphi
  · obtain ⟨entry, _, q, _, rfl⟩ := isPhi_of_mem_joinCode hphi
    simp [joinPhi, Instr.phi, Instr.phiArgs, List.map_map, Function.comp_def]
  · exact hlow.phiPreds b phi (hlow.head?_of_mem_phis hblock hphi) (Block.isPhi_of_mem_phis hphi)

/-- The conversion of a lowered function has no violations. -/
theorem violations_eq_nil (h : c.Valid g) (hlow : f.Lowered avail) :
    Function.violations { g with isSsa := true } = [] :=
  Function.violations_eq_nil rfl (h.strictSsa hlow).single
    (fun _ _ hi _ hr => h.gives_of_mem_uses hlow hi hr)
    fun _ _ hblock _ hphi => h.map_pred_phiArgs hlow hblock hphi

/-- The conversion writes only registers that were handed out. -/
theorem lt_of_mem_defs (h : c.Valid g) (hlow : f.Lowered avail) {b : BlockId} {r : Reg}
    (hr : r ∈ defsOf (g.code b)) : r < g.regCount := by
  have hb : b < f.blockCount := h.blockCount_eq ▸ Function.lt_of_mem_defsOf hr
  rcases (h.mem_defs hlow.runnable hb).mp hr with ⟨hold, _⟩ | ⟨_, hnew⟩
  · obtain ⟨i, hi, hdef⟩ := mem_defsOf.mp hold
    exact Nat.lt_of_lt_of_le ((hlow.below b i hi).dst r hdef)
      (Nat.le_trans (h.regCount_le_start hb).1 h.renamed.low_count)
  · exact Nat.lt_of_lt_of_le hnew (h.renamed.high b (c.lt_placed hb))

/-- All registers that the conversion of a lowered function mentions were handed out. -/
theorem regsBelow (h : c.Valid g) (hlow : f.Lowered avail) : g.RegsBelow := by
  have hentry : ∀ r ∈ g.entryRegs, r < g.regCount := by
    intro r hr
    obtain ⟨v, hv⟩ := h.mem_entryRegs.mp hr
    exact Nat.lt_of_lt_of_le (f.paramVersion?_bounds hv).2 h.renamed.low_count
  have hgives : ∀ b, ∀ i ∈ g.code b, ∀ r ∈ i.uses, r < g.regCount := by
    intro b i hi r hr
    rcases h.gives_of_mem_uses hlow hi hr with hr | ⟨d, hd⟩
    · exact hentry r hr
    · exact h.lt_of_mem_defs hlow hd
  refine ⟨fun b i hi => ⟨fun r hr => ?_, fun r hr => ?_, fun r hr => ?_, fun arg harg r hr => ?_⟩, hentry⟩
  · exact h.lt_of_mem_defs hlow (mem_defsOf.mpr ⟨i, hi, hr⟩)
  · exact hgives b i hi r (by simp [Instr.uses, Option.mem_def.mp hr])
  · exact hgives b i hi r (by simp [Instr.uses, Option.mem_def.mp hr])
  · exact hgives b i hi r (List.mem_append_right _ (List.mem_filterMap.mpr ⟨arg, harg, hr⟩))

/-- The edges after the conversion are those before it. -/
theorem linked (h : c.Valid g) (hplain : f.Plain) : g.Linked := by
  have hsuccs := h.succs_eq hplain
  have hpreds := h.preds_eq hplain
  refine ⟨fun b t ht => ?_, fun p b => ?_, fun b => ?_, fun b => ?_⟩
  · rw [hsuccs] at ht
    rw [h.blockCount_eq]
    exact hplain.linked.succs_lt b t ht
  · rw [hsuccs, hpreds]
    exact hplain.linked.mem_preds p b
  · rw [hpreds]
    exact hplain.linked.preds_nodup b
  · rw [hsuccs]
    exact hplain.linked.succs_nodup b

end Conversion.Valid

-- ════════════════════════════════════════════════════════════════════════
-- Listings
-- ════════════════════════════════════════════════════════════════════════

theorem Versions.listed_reading {tables : Tables} (s : Versions) (v : VarId) (ty : Option TypeId) :
    (s.reading v ty).Listed tables := by
  unfold reading
  split <;> trivial

/-- Renaming an instruction brings in no texts. -/
theorem Instr.Listed.renamedInstr {tables : Tables} {i : Instr} (h : i.Listed tables)
    (owners : Array (Option VarId)) (s : Versions) : (renamedInstr owners i s).1.Listed tables := by
  have hrenamed : ∀ operand ∈ i.operands, (operand.renamed owners s).Listed tables := by
    intro operand hop
    unfold Operand.renamed
    split
    · exact h operand hop
    · exact s.listed_reading _ _
  intro operand hop
  rcases mem_operands.mp hop with rfl | rfl | rfl | ⟨arg, harg, rfl⟩
  · change (i.dst.redirected s _).Listed tables
    unfold Operand.redirected
    split
    · exact h i.dst (mem_operands.mpr (.inl rfl))
    · trivial
  · exact hrenamed i.src1 (mem_operands.mpr (.inr (.inl rfl)))
  · exact hrenamed i.src2 (mem_operands.mpr (.inr (.inr (.inl rfl))))
  · exact h arg.value (mem_operands.mpr (.inr (.inr (.inr ⟨arg, harg, rfl⟩))))

/-- The conversion keeps the texts of a function in the tables. -/
theorem Conversion.Valid.listable {f g : Function} {c : Conversion f} (h : c.Valid g) (hplain : f.Plain)
    {tables : Tables} (hlist : f.Listable tables) : g.Listable tables := by
  refine ⟨?_, ?_, ?_, fun b i hi => ?_⟩
  · rw [h.name_eq]
    exact hlist.name
  · rw [h.params_eq]
    exact hlist.params
  · rw [h.vars_eq]
    exact hlist.vars
  · obtain ⟨block, hb, hcase⟩ := h.mem_code hplain hi
    have hcode : ∀ j ∈ block.instrs, j.Listed tables := by
      intro j hj
      apply hlist.code b j
      rw [Function.code_of_getElem? hb]
      exact hj
    rcases hcase with ⟨entry, _, q, _, rfl⟩ | hold | ⟨pre, a, post, hbody, rfl⟩
    · intro operand hop
      rcases Instr.mem_operands.mp hop with rfl | rfl | rfl | ⟨arg, harg, rfl⟩
      · trivial
      · trivial
      · trivial
      · obtain ⟨p, _, rfl⟩ := List.mem_map.mp harg
        generalize c.fin p = versions
        exact versions.listed_reading entry.2 entry.1.ty
    · exact hcode i (List.takeWhile_subset _ hold)
    · have ha : a ∈ block.body := by
        rw [hbody]
        simp
      exact (hcode a (List.dropWhile_subset _ ha)).renamedInstr _ _

end MiddleEnd
