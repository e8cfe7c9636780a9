import MiddleEnd.Proofs.SSA.Validity
import Mathlib

/-!
# Undoing the conversion

Every register that the conversion hands out is a version of one variable. Without the phis for
variables, and with each version read as its variable, the converted function is the function that was
converted.

## Main definitions

* `Conversion.Version`: the register is a version of the variable.
* `Instr.Versioned`: an instruction before and after the conversion.
* `Function.Versioned`: a function before and after it.

## Main statements

* `Conversion.Valid.exists_origin`: the variable of each version.
* `Conversion.Valid.forall₂_code`: the instructions of a block without its phis for variables.
* `Conversion.Valid.regCount_eq`: how many registers are handed out.
* `SourceUnit.constructSsa_versioned`: all this for every lowered function.
* `SourceUnit.constructSsa_strict`: what comes of it is in strict single assignment form.
-/

namespace MiddleEnd

-- ════════════════════════════════════════════════════════════════════════
-- Before and after
-- ════════════════════════════════════════════════════════════════════════

section Versioned

variable (vars : List Variable) (origin : Reg → Option VarId)

/-- An operand before and after the conversion: the register of a variable has become a version of it,
with the same type, and everything else is the same. -/
inductive Operand.Versioned : Operand → Operand → Prop
  | same {operand : Operand} (h : ∀ var ∈ vars, operand.reg? ≠ some var.reg) :
    Versioned operand operand
  | version {v : VarId} {var : Variable} {r : Reg} (ty : Option TypeId) (hvar : vars[v]? = some var)
    (hr : origin r = some v) : Versioned (.reg var.reg ty) (.reg r ty)

/-- So is an operand that is read, except that a variable without a version reads as zero. -/
inductive Operand.ReadAs : Operand → Operand → Prop
  | versioned {old new : Operand} (h : old.Versioned vars origin new) : ReadAs old new
  | zero {var : Variable} (ty : Option TypeId) (hvar : var ∈ vars) : ReadAs (.reg var.reg ty) (.int 0)

/-- An instruction before and after the conversion. What it carries besides its operands, where it leads
and the arguments of a phi among it, is the same. -/
structure Instr.Versioned (old new : Instr) : Prop where
  opcode : new.opcode = old.opcode
  line : new.line = old.line
  detail : new.detail = old.detail
  targets : new.targets = old.targets
  dst : old.dst.Versioned vars origin new.dst
  src1 : old.src1.ReadAs vars origin new.src1
  src2 : old.src2.ReadAs vars origin new.src2

end Versioned

/-- The instruction writes the register of a variable. -/
def Instr.writesVar (vars : List Variable) (i : Instr) : Bool :=
  vars.any fun var => i.def? == some var.reg

/-- The instruction is a phi for a variable. -/
def Instr.joinsVar (i : Instr) : Bool := i.phiVar?.isSome

namespace Function

/-- All instructions of a function. -/
def allCode (f : Function) : List Instr := f.blockIds.flatMap f.code

/-- A function before and after the conversion, where `origin` tells the variable of each new
register. -/
structure Versioned (origin : Reg → Option VarId) (f g : Function) : Prop where
  /-- The new registers are versions of variables. -/
  versions : ∀ r, f.regCount ≤ r → r < g.regCount → ∃ v < f.vars.length, origin r = some v
  new : ∀ r v, origin r = some v → f.regCount ≤ r ∧ r < g.regCount
  /-- Without the phis for variables the instructions are those from before. -/
  code : ∀ b, List.Forall₂ (Instr.Versioned f.vars origin) (f.code b)
    ((g.code b).filter fun i => !i.joinsVar)
  blockCount : g.blockCount = f.blockCount
  label : ∀ b, g.label? b = f.label? b
  preds : ∀ b, g.preds b = f.preds b
  succs : ∀ b, g.succs b = f.succs b
  vars : g.vars = f.vars
  params : g.params = f.params
  entry : g.entry = f.entry
  /-- Each parameter, each write of a variable and each phi for one has got a register. -/
  regCount : g.regCount = f.regCount + f.vars.countP (·.isParam) +
    f.allCode.countP (·.writesVar f.vars) + g.allCode.countP (·.joinsVar)

/-- That the function is marked as converted makes no difference. -/
theorem Versioned.mark {origin : Reg → Option VarId} {f g : Function} (h : f.Versioned origin g) :
    f.Versioned origin { g with isSsa := true } :=
  { h with }

end Function

-- ════════════════════════════════════════════════════════════════════════
-- Versions
-- ════════════════════════════════════════════════════════════════════════

namespace Conversion

variable {f g : Function} {c : Conversion f}

/-- The register is a version of the variable: the one that a parameter has on entry, or one that a block
hands out. -/
def Version (c : Conversion f) (r : Reg) (v : VarId) : Prop :=
  f.withEntryVersions.paramVersion? v = some r ∨ ∃ a, c.MadeIn a r v

theorem MadeIn.inj {a : BlockId} {r : Reg} {u v : VarId} (hu : c.MadeIn a r u) (hv : c.MadeIn a r v) :
    u = v := by
  obtain ⟨k, hk, rfl⟩ := hu
  obtain ⟨l, hl, heq⟩ := hv
  obtain rfl : k = l := Nat.add_left_cancel heq
  exact Option.some.inj (hk.symm.trans hl)

namespace Valid

/-- No register is made in two blocks. -/
theorem eq_of_madeIn (h : c.Valid g) {a b : BlockId} {r : Reg} {u v : VarId} (ha : c.MadeIn a r u)
    (hb : c.MadeIn b r v) : a = b :=
  h.eq_of_handed ha.lt_blockCount hb.lt_blockCount ha.bounds hb.bounds

/-- A register is a version of one variable only. -/
theorem version_unique (h : c.Valid g) {r : Reg} {u v : VarId} (hu : c.Version r u)
    (hv : c.Version r v) : u = v := by
  -- The entry versions come before all that blocks hand out.
  have hclash : ∀ {u v a}, f.withEntryVersions.paramVersion? u = some r → ¬ c.MadeIn a r v := by
    intro u v a hparam hmade
    have hlt := (f.paramVersion?_bounds hparam).2
    have hlow := (h.regCount_le_start hmade.lt_blockCount).2
    exact Nat.lt_irrefl r (Nat.lt_of_lt_of_le hlt (Nat.le_trans hlow hmade.bounds.1))
  obtain hu | ⟨a, hu⟩ := hu
  · obtain hv | ⟨b, hv⟩ := hv
    · exact f.paramVersion?_inj hu hv
    · exact absurd hv (hclash hu)
  · obtain hv | ⟨b, hv⟩ := hv
    · exact absurd hu (hclash hv)
    · obtain rfl := h.eq_of_madeIn hu hv
      exact hu.inj hv

theorem version_bounds (h : c.Valid g) {r : Reg} {v : VarId} (hv : c.Version r v) :
    f.regCount ≤ r ∧ r < g.regCount := by
  obtain hparam | ⟨a, hmade⟩ := hv
  · obtain ⟨hge, hlt⟩ := f.paramVersion?_bounds hparam
    exact ⟨hge, Nat.lt_of_lt_of_le hlt h.renamed.low_count⟩
  · obtain ⟨hge, hlt⟩ := hmade.bounds
    obtain ⟨hlow, hlow'⟩ := h.regCount_le_start hmade.lt_blockCount
    have hhigh := h.renamed.high a (c.lt_placed hmade.lt_blockCount)
    exact ⟨Nat.le_trans hlow (Nat.le_trans hlow' hge), Nat.lt_of_lt_of_le hlt hhigh⟩

/-- Every register that the conversion hands out is a version of a variable. -/
theorem exists_version (h : c.Valid g) (hplain : f.Plain) {r : Reg} (hge : f.regCount ≤ r)
    (hlt : r < g.regCount) : ∃ v < f.vars.length, c.Version r v := by
  by_cases hentry : r < f.withEntryVersions.regCount
  · have hmem : r ∈ g.entryRegs := by
      rw [h.entryRegs_eq, List.mem_range'_1]
      exact ⟨hge, by rwa [← entryVersions_snd]⟩
    obtain ⟨v, hv⟩ := h.mem_entryRegs.mp hmem
    obtain ⟨var, hvar, _⟩ := f.paramVersion?_eq_some_iff.mp hv
    exact ⟨v, (List.getElem?_eq_some_iff.mp hvar).1, .inl hv⟩
  · obtain ⟨a, _, hle, hlt'⟩ := h.renamed.covered r (Nat.not_lt.mp hentry) hlt
    rw [Function.after, Versions.nextReg_pushAll] at hlt'
    have hk : r - (c.start a).nextReg < (c.placed.versionedIn a).length := Nat.sub_lt_left_of_lt_add hle hlt'
    have hget := List.getElem?_eq_getElem hk
    obtain ⟨var, hvar, _⟩ := mem_versionedIn hplain (List.mem_of_getElem? hget)
    exact ⟨_, (List.getElem?_eq_some_iff.mp hvar).1,
      .inr ⟨a, _, hget, (Nat.add_sub_cancel' hle).symm⟩⟩

/-- There is a map from the new registers to their variables. -/
theorem exists_origin (h : c.Valid g) :
    ∃ origin : Reg → Option VarId, ∀ r v, origin r = some v ↔ c.Version r v := by
  classical
  refine ⟨fun r => if hr : ∃ v, c.Version r v then some hr.choose else none, fun r v => ?_⟩
  by_cases hr : ∃ v, c.Version r v
  · simp only [dif_pos hr, Option.some.injEq]
    exact ⟨fun heq => heq ▸ hr.choose_spec, fun hv => h.version_unique hr.choose_spec hv⟩
  · simp only [dif_neg hr]
    exact ⟨nofun, fun hv => absurd ⟨v, hv⟩ hr⟩

/-- What is in force inside a block are versions. -/
theorem version_of_mem_stack (h : c.Valid g) (hplain : f.Plain) {b : BlockId} (hb : b < f.blockCount)
    {vs : List VarId} (hvs : vs <+: c.placed.versionedIn b) {v : VarId} {r : Reg}
    (hr : r ∈ ((c.start b).pushAll vs).stack v) : c.Version r v := by
  obtain hr | ⟨k, hk, rfl⟩ := Versions.exists_of_mem_stack_pushAll _ hr
  · obtain hentry | ⟨_, a, _, _, hmade⟩ := h.origin_start hplain hb hr
    · exact .inl hentry
    · exact .inr ⟨a, hmade⟩
  · obtain ⟨rest, hrest⟩ := hvs
    have hlt : k < vs.length := (List.getElem?_eq_some_iff.mp hk).1
    exact .inr ⟨b, k, by rw [← hrest, List.getElem?_append_left hlt, hk], rfl⟩

end Valid

end Conversion

-- ════════════════════════════════════════════════════════════════════════
-- Instructions
-- ════════════════════════════════════════════════════════════════════════

/-- An operand that belongs to no variable stays as it is. -/
theorem Operand.Versioned.of_owner? {f : Function} (hvars : f.VarsApart) {operand : Operand}
    (hnone : operand.owner? f.owners = Option.none) (origin : Reg → Option VarId) :
    operand.Versioned f.vars origin operand :=
  .same fun var hvar hreg => hvars.not_isVarReg_of_owner? hnone hreg ⟨var, hvar, rfl⟩

/-- An instruction writes a variable when its destination belongs to one. -/
theorem Instr.writesVar_eq {f : Function} (hvars : f.VarsApart) (i : Instr) :
    i.writesVar f.vars = (i.dst.owner? f.owners).isSome := by
  rw [Bool.eq_iff_iff, Instr.writesVar, List.any_eq_true]
  constructor
  · rintro ⟨var, hvar, hdef⟩
    cases howner : i.dst.owner? f.owners with
    | some v => rfl
    | none =>
      have hreg : i.dst.reg? = some var.reg := by simpa [Instr.def?] using hdef
      exact absurd ⟨var, hvar, rfl⟩ (hvars.not_isVarReg_of_owner? howner hreg)
  · intro howner
    obtain ⟨v, hv⟩ := Option.isSome_iff_exists.mp howner
    obtain ⟨var, ty, hvar, hdst⟩ := (Function.owner?_eq_some_iff hvars).mp hv
    exact ⟨var, List.mem_of_getElem? hvar, by simp [Instr.def?, hdst, Operand.reg?]⟩

namespace Conversion

variable {f g : Function} {c : Conversion f} {origin : Reg → Option VarId}

theorem length_joinCode (c : Conversion f) (b : BlockId) (entries : List (Variable × VarId)) (r : Reg) :
    (c.joinCode b entries r).length = entries.length := by
  induction entries generalizing r with
  | nil => rfl
  | cons entry entries ih => rw [joinCode, List.length_cons, ih, List.length_cons]

namespace Valid

/-- What a renamed instruction reads. -/
theorem readAs_renamed (h : c.Valid g) (hplain : f.Plain)
    (horigin : ∀ r v, origin r = some v ↔ c.Version r v) {b : BlockId} (hb : b < f.blockCount)
    {vs : List VarId} (hvs : vs <+: c.placed.versionedIn b) (operand : Operand) :
    operand.ReadAs f.vars origin (operand.renamed f.owners ((c.start b).pushAll vs)) := by
  rw [Operand.renamed]
  cases howner : operand.owner? f.owners with
  | none => exact .versioned (.of_owner? hplain.vars howner origin)
  | some v =>
    obtain ⟨var, ty, hvar, rfl⟩ := (Function.owner?_eq_some_iff hplain.vars).mp howner
    simp only [Versions.reading]
    cases hhead : (((c.start b).pushAll vs).stack v).head? with
    | none => exact .zero ty (List.mem_of_getElem? hvar)
    | some r =>
      have hr := h.version_of_mem_stack hplain hb hvs (List.mem_of_head? hhead)
      exact .versioned (.version ty hvar ((horigin r v).mpr hr))

/-- What a renamed instruction writes: a variable gets the next version of the block. -/
theorem versioned_redirected (hplain : f.Plain)
    (horigin : ∀ r v, origin r = some v ↔ c.Version r v) {b : BlockId} {vs : List VarId}
    {dst : Operand} (hvs : vs ++ (dst.owner? f.owners).toList <+: c.placed.versionedIn b) :
    dst.Versioned f.vars origin
      (dst.redirected ((c.start b).pushAll vs) (dst.owner? f.owners)) := by
  cases howner : dst.owner? f.owners with
  | none => exact .of_owner? hplain.vars howner origin
  | some v =>
    obtain ⟨var, ty, hvar, rfl⟩ := (Function.owner?_eq_some_iff hplain.vars).mp howner
    rw [howner] at hvs
    obtain ⟨rest, hrest⟩ := hvs
    have hget : (c.placed.versionedIn b)[vs.length]? = some v := by simp [← hrest]
    refine .version ty hvar ((horigin _ v).mpr (.inr ⟨b, vs.length, hget, ?_⟩))
    rw [Versions.nextReg_pushAll]

/-- An instruction that is renamed after those that gave versions to the variables `vs`. -/
theorem versioned_renamedInstr (h : c.Valid g) (hplain : f.Plain)
    (horigin : ∀ r v, origin r = some v ↔ c.Version r v) {b : BlockId} (hb : b < f.blockCount)
    {vs : List VarId} {i : Instr}
    (hvs : vs ++ (i.dst.owner? f.owners).toList <+: c.placed.versionedIn b) :
    i.Versioned f.vars origin (renamedInstr f.owners i ((c.start b).pushAll vs)).1 where
  opcode := rfl
  line := rfl
  detail := rfl
  targets := by
    simp only [Instr.targets, renamedInstr, Operand.label?_renamed]
    rfl
  dst := versioned_redirected hplain horigin hvs
  src1 := h.readAs_renamed hplain horigin hb ((List.prefix_append _ _).trans hvs) i.src1
  src2 := h.readAs_renamed hplain horigin hb ((List.prefix_append _ _).trans hvs) i.src2

/-- The instructions of a block after its phis. -/
theorem forall₂_body (h : c.Valid g) (hplain : f.Plain)
    (horigin : ∀ r v, origin r = some v ↔ c.Version r v) {b : BlockId} (hb : b < f.blockCount)
    {vs : List VarId} {body : List Instr}
    (hvs : vs ++ body.filterMap (·.dst.owner? f.owners) <+: c.placed.versionedIn b) :
    List.Forall₂ (Instr.Versioned f.vars origin) body
      (threaded (renamedInstr f.owners) body ((c.start b).pushAll vs)).1 := by
  -- By induction on the instructions, where `vs` takes up what each of them writes.
  induction body generalizing vs with
  | nil => exact .nil
  | cons i rest ih =>
    have hsplit : vs ++ (i :: rest).filterMap (·.dst.owner? f.owners) =
        (vs ++ (i.dst.owner? f.owners).toList) ++ rest.filterMap (·.dst.owner? f.owners) := by
      rw [List.append_assoc, List.filterMap_cons]
      cases i.dst.owner? f.owners <;> rfl
    rw [hsplit] at hvs
    have hrest := ih hvs
    rw [Versions.pushAll_append] at hrest
    exact .cons (h.versioned_renamedInstr hplain horigin hb ((List.prefix_append _ _).trans hvs)) hrest

/-- A block after the conversion: phis for variables, then the instructions from before. -/
theorem exists_code_eq (h : c.Valid g) {avail : Lowering.Avail} (hlow : f.Lowered avail)
    (horigin : ∀ r v, origin r = some v ↔ c.Version r v) {b : BlockId} {block : Block}
    (hb : f.blocks[b]? = some block) : ∃ joins rest, g.code b = joins ++ rest ∧
      joins.length = (c.joinVars b).length ∧ (∀ i ∈ joins, i.joinsVar = true) ∧
      (∀ i ∈ rest, i.joinsVar = false) ∧
      List.Forall₂ (Instr.Versioned f.vars origin) (f.code b) rest := by
  have hplain := hlow.runnable.toPlain
  have hlt : b < f.blockCount := (Array.getElem?_eq_some_iff.mp hb).1
  have hcode := Function.code_eq_append hb
  have hphis : List.Forall₂ (Instr.Versioned f.vars origin) block.phis block.phis := by
    refine List.forall₂_same.mpr fun phi hphi => ?_
    have hmem : phi ∈ f.code b := by
      rw [hcode]
      exact List.mem_append_left _ hphi
    have hsources := (hlow.formed b phi hmem).sources (Block.isPhi_of_mem_phis hphi)
    simp only [Instr.sources, List.append_eq_nil_iff, Option.toList_eq_nil_iff] at hsources
    exact {
      opcode := rfl, line := rfl, detail := rfl, targets := rfl
      dst := .of_owner? hplain.vars (hlow.runnable.phi b block hb phi hphi).1 origin
      src1 := .versioned (.same fun var _ => by simp [hsources.1])
      src2 := .versioned (.same fun var _ => by simp [hsources.2]) }
  have hvs := c.versionedIn_placed hplain hb
  have hbody := h.forall₂_body hplain horigin hlt (by rw [hvs])
  refine ⟨_, _, (h.code_eq hplain hb).trans (List.append_assoc _ _ _), c.length_joinCode b _ _, ?_, ?_,
    by rw [hcode]; exact List.rel_append hphis hbody⟩
  · intro i hi
    obtain ⟨entry, _, q, _, rfl⟩ := isPhi_of_mem_joinCode hi
    rfl
  · intro i hi
    have hnone : ∀ i ∈ block.phis ++ block.body, i.joinsVar = false := by
      intro i hi
      rw [← hcode] at hi
      rw [Instr.joinsVar, (hlow.formed b i hi).var]
      rfl
    obtain hi | hi := List.mem_append.mp hi
    · exact hnone i (List.mem_append_left _ hi)
    · obtain ⟨old, hold, s, rfl⟩ := mem_threaded hi
      exact hnone old (List.mem_append_right _ hold)

theorem forall₂_code (h : c.Valid g) {avail : Lowering.Avail} (hlow : f.Lowered avail)
    (horigin : ∀ r v, origin r = some v ↔ c.Version r v) (b : BlockId) :
    List.Forall₂ (Instr.Versioned f.vars origin) (f.code b)
      ((g.code b).filter fun i => !i.joinsVar) := by
  cases hb : f.blocks[b]? with
  | none =>
    have hcode : ∀ {k : Function}, k.blockCount = f.blockCount → k.code b = [] := by
      intro k hk
      have hge : k.blockCount ≤ b := hk ▸ Array.getElem?_eq_none_iff.mp hb
      rw [Function.code, Array.getElem?_eq_none hge]
      rfl
    rw [hcode rfl, hcode h.blockCount_eq]
    exact .nil
  | some block =>
    obtain ⟨joins, rest, hcode, _, hjoins, hrest, hforall⟩ := h.exists_code_eq hlow horigin hb
    have hnone : joins.filter (fun i => !i.joinsVar) = [] :=
      List.filter_eq_nil_iff.mpr fun i hi => by simp [hjoins i hi]
    have hall : rest.filter (fun i => !i.joinsVar) = rest :=
      List.filter_eq_self.mpr fun i hi => by simp [hrest i hi]
    rw [hcode, List.filter_append, hnone, hall]
    exact hforall

-- ════════════════════════════════════════════════════════════════════════
-- Registers
-- ════════════════════════════════════════════════════════════════════════

/-- A block gets a register for each write of a variable and each phi for one. -/
theorem length_versionedIn (h : c.Valid g) {avail : Lowering.Avail} (hlow : f.Lowered avail)
    {b : BlockId} (hb : b < f.blockCount) : (c.placed.versionedIn b).length =
      (f.code b).countP (·.writesVar f.vars) + (g.code b).countP (·.joinsVar) := by
  have hrun := hlow.runnable
  have hblock := Array.getElem?_eq_getElem hb
  obtain ⟨origin, horigin⟩ := h.exists_origin
  obtain ⟨joins, rest, hcode, hlength, hjoins, hrest, _⟩ := h.exists_code_eq hlow horigin hblock
  have hwrites : (f.code b).countP (·.writesVar f.vars) =
      (f.blocks[b].body.filterMap (·.dst.owner? f.owners)).length := by
    have hphis : f.blocks[b].phis.countP (·.writesVar f.vars) = 0 :=
      List.countP_eq_zero.mpr fun phi hphi => by
        simp [Instr.writesVar_eq hrun.vars, (hrun.phi b _ hblock phi hphi).1]
    rw [Function.code_eq_append hblock, List.countP_append, hphis, Nat.zero_add, List.length_filterMap_eq_countP]
    simp only [Instr.writesVar_eq hrun.vars]
  have hphis : (g.code b).countP (·.joinsVar) = (c.joinVars b).length := by
    rw [hcode, List.countP_append, List.countP_eq_length.mpr hjoins,
      List.countP_eq_zero.mpr fun i hi => by simp [hrest i hi], hlength]
    rfl
  rw [c.versionedIn_placed hrun.toPlain hblock, List.length_append, List.length_map, hwrites, hphis,
    Nat.add_comm]

/-- The blocks share out the registers after the entry versions. -/
theorem regCount_eq_sum (h : c.Valid g) : g.regCount =
    f.withEntryVersions.regCount + ∑ b ∈ Finset.range f.blockCount, (c.placed.versionedIn b).length := by
  have hcount : ∀ b, b ∈ Finset.range f.blockCount → b < c.placed.blockCount := fun b hb =>
    c.lt_placed (Finset.mem_range.mp hb)
  have hnext : ∀ b, (c.placed.after b (c.start b)).nextReg =
      (c.start b).nextReg + (c.placed.versionedIn b).length := fun b => Versions.nextReg_pushAll _ _
  have hcover : Finset.Ico f.withEntryVersions.regCount g.regCount =
      (Finset.range f.blockCount).biUnion fun b =>
        Finset.Ico (c.start b).nextReg (c.placed.after b (c.start b)).nextReg := by
    ext r
    simp only [Finset.mem_biUnion, Finset.mem_Ico]
    constructor
    · rintro ⟨hge, hlt⟩
      obtain ⟨b, hb, hr⟩ := h.renamed.covered r hge hlt
      rw [c.blockCount_placed] at hb
      exact ⟨b, Finset.mem_range.mpr hb, hr⟩
    · rintro ⟨b, hb, hge, hlt⟩
      exact ⟨Nat.le_trans (h.renamed.low b (hcount b hb)) hge,
        Nat.lt_of_lt_of_le hlt (h.renamed.high b (hcount b hb))⟩
  have hcard := congrArg Finset.card hcover
  rw [Finset.card_biUnion, Nat.card_Ico] at hcard
  · have hle := h.renamed.low_count
    simp only [Nat.card_Ico, hnext, Nat.add_sub_cancel_left] at hcard
    rw [← hcard]
    exact (Nat.add_sub_cancel' hle).symm
  · intro a ha b hb hne
    refine Finset.disjoint_left.mpr fun r hra hrb => ?_
    rw [Finset.mem_Ico] at hra hrb
    exact hne (h.eq_of_handed (Finset.mem_range.mp ha) (Finset.mem_range.mp hb) hra hrb)

theorem regCount_eq (h : c.Valid g) {avail : Lowering.Avail} (hlow : f.Lowered avail) :
    g.regCount = f.regCount + f.vars.countP (·.isParam) +
      f.allCode.countP (·.writesVar f.vars) + g.allCode.countP (·.joinsVar) := by
  have hentry : f.withEntryVersions.regCount = f.regCount + f.vars.countP (·.isParam) :=
    entryVersions_snd f.vars f.regCount
  have hsum : ∀ (k : Function) (p : Instr → Bool), k.blockCount = f.blockCount →
      k.allCode.countP p = ∑ b ∈ Finset.range f.blockCount, (k.code b).countP p := by
    intro k p hk
    rw [Function.allCode, List.countP_flatMap, ← hk]
    rfl
  have hblocks : ∑ b ∈ Finset.range f.blockCount, (c.placed.versionedIn b).length =
      f.allCode.countP (·.writesVar f.vars) + g.allCode.countP (·.joinsVar) := by
    rw [hsum f _ rfl, hsum g _ h.blockCount_eq, ← Finset.sum_add_distrib]
    exact Finset.sum_congr rfl fun b hb => h.length_versionedIn hlow (Finset.mem_range.mp hb)
  rw [h.regCount_eq_sum, hentry, hblocks, Nat.add_assoc _ (f.allCode.countP _)]

theorem label?_eq (h : c.Valid g) (b : BlockId) : g.label? b = f.label? b := by
  rw [h.renamed.eq, Function.label?, Function.getElem?_assembled, c.getElem?_placed, Function.label?]
  cases f.blocks[b]? <;> rfl

/-- Some map from the new registers to variables undoes the conversion. -/
theorem exists_versioned (h : c.Valid g) {avail : Lowering.Avail} (hlow : f.Lowered avail) :
    ∃ origin, f.Versioned origin g := by
  have hplain := hlow.runnable.toPlain
  obtain ⟨origin, horigin⟩ := h.exists_origin
  refine ⟨origin, ?_, fun r v hr => h.version_bounds ((horigin r v).mp hr),
    h.forall₂_code hlow horigin, h.blockCount_eq, h.label?_eq, h.preds_eq hplain, h.succs_eq hplain,
    h.vars_eq, h.params_eq, h.entry_eq, h.regCount_eq hlow⟩
  intro r hge hlt
  obtain ⟨v, hv, hversion⟩ := h.exists_version hplain hge hlt
  exact ⟨v, hv, (horigin r v).mpr hversion⟩

end Valid

end Conversion

/-- A lowered function and its single assignment form differ only in the versions of variables. The map
`origin` tells the variable of each new register. Without the phis for variables, the instructions of
each block are those from before, with versions in place of the registers of their variables. The labels,
edges, variables, parameters and the entry are the same, and each parameter, each write of a variable and
each phi for one accounts for one new register. -/
theorem SourceUnit.constructSsa_versioned (unit : SourceUnit) (texts texts' : Interner)
    (decl : FunctionDecl) (f : Function)
    (hlower : unit.lowerFunction texts decl = .ok (some f, texts')) :
    ∃ g origin, f.constructSsa = .ok g ∧ f.Versioned origin g := by
  obtain ⟨avail, hlowered⟩ := unit.lowered_lowerFunction hlower
  obtain ⟨c, g, hconstruct, hvalid⟩ := f.constructSsa_eq hlowered.runnable.toPlain
  obtain ⟨origin, hversioned⟩ := hvalid.exists_versioned hlowered
  exact ⟨_, origin, hconstruct, hversioned.mark⟩

/-- The countdown and its single assignment form. -/
theorem countdown_versioned : ∃ f texts g origin,
    countdownUnit.lowerFunction {} countdownDecl = .ok (some f, texts) ∧ f.constructSsa = .ok g ∧
      f.Versioned origin g := by
  obtain ⟨f, texts, hlower⟩ := countdown_lowers
  obtain ⟨g, origin, hg, hversioned⟩ :=
    countdownUnit.constructSsa_versioned {} texts countdownDecl f hlower
  exact ⟨f, texts, g, origin, hlower, hg, hversioned⟩

/-- Every function that lowering produces has a conversion. It is in strict single assignment form, and it is the
function that was converted, with versions in place of variables. -/
theorem SourceUnit.constructSsa_strict (unit : SourceUnit) (texts texts' : Interner)
    (decl : FunctionDecl) (f : Function)
    (hlower : unit.lowerFunction texts decl = .ok (some f, texts')) :
    ∃ g origin, f.constructSsa = .ok g ∧ f.Versioned origin g ∧ g.StrictSsa := by
  obtain ⟨avail, hlowered⟩ := unit.lowered_lowerFunction hlower
  obtain ⟨c, g, hconstruct, hvalid⟩ := f.constructSsa_eq hlowered.runnable.toPlain
  obtain ⟨origin, hversioned⟩ := hvalid.exists_versioned hlowered
  exact ⟨_, origin, hconstruct, hversioned.mark, (hvalid.strictSsa hlowered).mark⟩

/-- The conversion of the function that counts down is strict. The head of its loop joins the argument and what
the body of the loop leaves, and tests a copy of that. -/
theorem countdown_strict : ∃ f texts g origin,
    countdownUnit.lowerFunction {} countdownDecl = .ok (some f, texts) ∧ f.constructSsa = .ok g ∧
      f.Versioned origin g ∧ g.StrictSsa ∧ g.entryRegs = [6] ∧
      g.code 1 = [
        .phi (.reg 7 TypeTable.int) (some 0) [⟨.reg 6 TypeTable.int, 0⟩, ⟨.reg 8 TypeTable.int, 2⟩] 0,
        .unary .copy (.reg 1 TypeTable.int) (.reg 7 TypeTable.int) 1,
        .branch (.reg 1 TypeTable.int) 2 3 1] := by
  obtain ⟨f, texts, hlower⟩ := countdown_lowers
  obtain ⟨g, origin, hg, hversioned, hstrict⟩ :=
    countdownUnit.constructSsa_strict {} texts countdownDecl f hlower
  have hfacts : (((countdownUnit.lowerFunction {} countdownDecl).toOption.bind (·.1)).bind
      (·.constructSsa.toOption)).map (fun g => (g.entryRegs, g.code 1)) = some ([6], [
        .phi (.reg 7 TypeTable.int) (some 0) [⟨.reg 6 TypeTable.int, 0⟩, ⟨.reg 8 TypeTable.int, 2⟩] 0,
        .unary .copy (.reg 1 TypeTable.int) (.reg 7 TypeTable.int) 1,
        .branch (.reg 1 TypeTable.int) 2 3 1]) := by cbv
  rw [hlower] at hfacts
  obtain ⟨hentry, hcode⟩ := Prod.mk.inj (Option.some.inj (by simpa [Except.toOption, hg] using hfacts))
  exact ⟨f, texts, g, origin, hlower, hg, hversioned, hstrict, hentry, hcode⟩

end MiddleEnd
