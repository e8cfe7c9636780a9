import MiddleEnd.Dataflow.Liveness
import MiddleEnd.Proofs.Dataflow.Flow
import MiddleEnd.Proofs.SSA.Strict

/-!
# Live registers are those that a path leads to

A register is live at the start of a block if control can go from there to a block that reads it, without
passing a block that writes it. The analysis finds exactly these registers.

## Main definitions

* `ReadsFirst`: a run of instructions reads a register before writing it.
* `Function.RegsBelow`: only registers occur that were handed out.
* `Function.Sets`, `Function.Needs`: a block gives a register a value, or reads the value that it had on
  entry.
* `Function.LiveAt`: a path leads to a block that reads the register.
* `Function.Tabulates`: a table has an entry for each block, with a property.
* `Function.Knows`: what the analysis knows about a single block.

## Main statements

* `BlockSets.exists_foldlM_scan`: what a run of instructions writes and reads first.
* `Function.Tabulates.exists_forBlocks`: changing the entries of a table block by block.
* `Function.exists_blockSets`: the analysis knows what each block writes and reads first.
* `Function.passes_livenessFlow`: the derivations of the flow equations are paths.
* `Function.liveness_exact`: the analysis succeeds and finds what is live.
-/

namespace MiddleEnd

/-- An instruction of the run, no phi, reads the register before an instruction of the run writes it. -/
def ReadsFirst (code : List Instr) (r : Reg) : Prop :=
  ∃ pre i post, code = pre ++ i :: post ∧ i.isPhi = false ∧ r ∈ i.sources ∧ r ∉ defsOf pre

namespace Function

/-- All registers that occur in a function were handed out. -/
structure RegsBelow (f : Function) : Prop where
  code : ∀ b, ∀ i ∈ f.code b, i.Below f.regCount
  entry : ∀ r ∈ f.entryRegs, r < f.regCount

/-- The block is the entry and the register holds an argument there. -/
def SetsOnEntry (f : Function) (b : BlockId) (r : Reg) : Prop := b = f.entry ∧ r ∈ f.entryRegs

/-- The block gives the register a value. -/
def Sets (f : Function) (b : BlockId) (r : Reg) : Prop :=
  f.SetsOnEntry b r ∨ r ∈ defsOf (f.code b)

/-- A phi at the head of a successor takes the register when control comes from the block. -/
def HandsOver (f : Function) (b : BlockId) (r : Reg) : Prop :=
  ∃ t ∈ f.succs b, ∃ phi ∈ (f.code t).takeWhile (·.isPhi), ∃ arg ∈ phi.phiArgs,
    arg.pred = b ∧ arg.value.reg? = some r

/-- The block reads the value that the register has on entry to it: one of its instructions reads it
first, or it passes the register untouched to a phi. -/
def Needs (f : Function) (b : BlockId) (r : Reg) : Prop :=
  ¬ f.SetsOnEntry b r ∧ ReadsFirst (f.code b) r ∨ ¬ f.Sets b r ∧ f.HandsOver b r

/-- A path leads from the block to one that needs the register, and no block before the last gives it a
value. -/
def LiveAt (f : Function) (b : BlockId) (r : Reg) : Prop :=
  ∃ last l, f.Path b last l ∧ (∀ x ∈ l.tail, ¬ f.Sets x r) ∧ f.Needs last r

/-- A path can be extended at its start. -/
theorem Path.cons {f : Function} {a b c : BlockId} {l : List BlockId} (h : f.Path a b l)
    (hedge : a ∈ f.succs c) : f.Path c b (l ++ [c]) := by
  induction h with
  | nil => exact .snoc .nil hedge
  | snoc _ hedge' ih => exact .snoc ih hedge'

end Function

-- ════════════════════════════════════════════════════════════════════════
-- Single blocks
-- ════════════════════════════════════════════════════════════════════════

theorem mem_collectUse {count : Nat} {defined used : IndexSet} {operand : Operand} {r : Reg} :
    r ∈ collectUse count defined used operand ↔
      r ∈ used ∨ operand.reg? = some r ∧ r < count ∧ r ∉ defined := by
  unfold collectUse
  split
  · rename_i q hq
    rw [hq]
    split
    · rename_i hnew
      rw [IndexSet.mem_insert]
      constructor
      · rintro (rfl | hr)
        · exact .inr ⟨rfl, hnew⟩
        · exact .inl hr
      · rintro (hr | ⟨heq, _⟩)
        · exact .inr hr
        · exact .inl (Option.some.inj heq).symm
    · rename_i hold
      refine ⟨.inl, fun hr => hr.resolve_right ?_⟩
      rintro ⟨heq, hnew⟩
      obtain rfl := Option.some.inj heq
      exact hold hnew
  · rename_i hnone
    simp [hnone]

/-- A fold over operands collects the uses of each of them. -/
theorem mem_foldl_collectUse {count : Nat} {defined used : IndexSet} {operands : List Operand}
    {r : Reg} : r ∈ operands.foldl (collectUse count defined) used ↔
      r ∈ used ∨ (∃ operand ∈ operands, operand.reg? = some r) ∧ r < count ∧ r ∉ defined := by
  induction operands generalizing used with
  | nil => simp
  | cons operand operands ih =>
    rw [List.foldl_cons, ih, mem_collectUse]
    simp only [List.mem_cons, exists_eq_or_imp]
    tauto

theorem readsFirst_nil {r : Reg} : ¬ ReadsFirst [] r := by
  rintro ⟨pre, i, post, hcode, _⟩
  simp at hcode

/-- The first instruction reads the register, or the others do and the first does not write it. -/
theorem readsFirst_cons {i : Instr} {code : List Instr} {r : Reg} : ReadsFirst (i :: code) r ↔
    (i.isPhi = false ∧ r ∈ i.sources) ∨ i.def? ≠ some r ∧ ReadsFirst code r := by
  constructor
  · rintro ⟨pre, j, post, hcode, hphi, hr, hpre⟩
    cases pre with
    | nil =>
      obtain ⟨rfl, rfl⟩ := List.cons_eq_cons.mp hcode
      exact .inl ⟨hphi, hr⟩
    | cons k pre =>
      obtain ⟨rfl, rfl⟩ := List.cons_eq_cons.mp hcode
      refine .inr ⟨fun hdef => hpre ?_, pre, j, post, rfl, hphi, hr, fun hmem => hpre ?_⟩
      · exact mem_defsOf.mpr ⟨i, List.mem_cons_self, hdef⟩
      · obtain ⟨k, hk, hdef⟩ := mem_defsOf.mp hmem
        exact mem_defsOf.mpr ⟨k, List.mem_cons_of_mem _ hk, hdef⟩
  · rintro (⟨hphi, hr⟩ | ⟨hdef, pre, j, post, rfl, hphi, hr, hpre⟩)
    · exact ⟨[], i, code, rfl, hphi, hr, by simp⟩
    · refine ⟨i :: pre, j, post, rfl, hphi, hr, fun hmem => ?_⟩
      obtain ⟨k, hk, hk'⟩ := mem_defsOf.mp hmem
      rcases List.mem_cons.mp hk with rfl | hk
      · exact hdef hk'
      · exact hpre (mem_defsOf.mpr ⟨k, hk, hk'⟩)

namespace BlockSets

variable {count : Nat}

/-- Registers that are written one after the other. -/
theorem exists_foldlM_write (sets : BlockSets) {regs : List Reg} (h : ∀ r ∈ regs, r < count) :
    ∃ sets', regs.foldlM (write count) sets = .ok sets' ∧ sets'.uses = sets.uses ∧
      ∀ r, r ∈ sets'.defs ↔ r ∈ sets.defs ∨ r ∈ regs := by
  induction regs generalizing sets with
  | nil => exact ⟨sets, rfl, rfl, by simp⟩
  | cons q regs ih =>
    obtain ⟨sets', hfold, huses, hdefs⟩ :=
      ih { sets with defs := sets.defs.insert q } fun r hr => h r (List.mem_cons_of_mem _ hr)
    refine ⟨sets', ?_, huses, fun r => ?_⟩
    · rw [List.foldlM_cons, write, if_pos (h q List.mem_cons_self), ok_bind, hfold]
    · rw [hdefs, IndexSet.mem_insert, List.mem_cons, or_assoc, or_left_comm]

/-- What scanning an instruction adds. -/
theorem exists_scan (sets : BlockSets) {i : Instr} (h : i.dst.Below count) : ∃ sets', sets.scan count i = .ok sets' ∧
    (∀ r, r ∈ sets'.defs ↔ r ∈ sets.defs ∨ i.def? = some r) ∧
    ∀ r, r ∈ sets'.uses ↔
      r ∈ sets.uses ∨ (i.isPhi = false ∧ r ∈ i.sources) ∧ r < count ∧ r ∉ sets.defs := by
  have huses : ∀ r, r ∈ (if i.isPhi then sets else sets.read count [i.src1, i.src2]).uses ↔
      r ∈ sets.uses ∨ (i.isPhi = false ∧ r ∈ i.sources) ∧ r < count ∧ r ∉ sets.defs := by
    intro r
    cases hphi : i.isPhi with
    | true => simp
    | false =>
      simp only [Bool.false_eq_true, if_false, read, mem_foldl_collectUse, List.mem_cons,
        List.not_mem_nil, or_false, exists_eq_or_imp, exists_eq_left, Instr.sources, List.mem_append,
        Option.mem_toList, true_and]
  have hdefs : (if i.isPhi then sets else sets.read count [i.src1, i.src2]).defs = sets.defs := by
    split <;> rfl
  unfold scan
  cases hdef : i.def? with
  | none => exact ⟨_, rfl, by simp [hdefs], huses⟩
  | some q =>
    refine ⟨_, if_pos (h q hdef), fun r => ?_, huses⟩
    simp only [IndexSet.mem_insert, hdefs, Option.some.injEq]
    rw [or_comm, eq_comm]

/-- What scanning a run of instructions adds: the registers that it writes, and those that it reads before
writing them. -/
theorem exists_foldlM_scan (sets : BlockSets) {code : List Instr} (h : ∀ i ∈ code, i.dst.Below count) :
    ∃ sets', code.foldlM (scan count) sets = .ok sets' ∧
      (∀ r, r ∈ sets'.defs ↔ r ∈ sets.defs ∨ r ∈ defsOf code) ∧
      ∀ r, r ∈ sets'.uses ↔ r ∈ sets.uses ∨ r < count ∧ r ∉ sets.defs ∧ ReadsFirst code r := by
  induction code generalizing sets with
  | nil => exact ⟨sets, rfl, by simp, by simp [readsFirst_nil]⟩
  | cons i code ih =>
    obtain ⟨next, hscan, hdefs, huses⟩ := exists_scan sets (h i List.mem_cons_self)
    obtain ⟨sets', hfold, hdefs', huses'⟩ :=
      ih next fun j hj => h j (List.mem_cons_of_mem _ hj)
    refine ⟨sets', by rw [List.foldlM_cons, hscan, ok_bind, hfold], fun r => ?_, fun r => ?_⟩
    · have hcons : r ∈ defsOf (i :: code) ↔ i.def? = some r ∨ r ∈ defsOf code := by
        simp [mem_defsOf]
      rw [hdefs', hdefs, hcons, or_assoc]
    · rw [huses', huses, hdefs, readsFirst_cons]
      tauto

end BlockSets

namespace Function

variable {f : Function} {b : BlockId} {r : Reg}

/-- What a block needs was handed out. -/
theorem RegsBelow.lt_of_needs (h : f.RegsBelow) (hr : f.Needs b r) : r < f.regCount := by
  rcases hr with ⟨_, pre, i, post, hcode, _, hr, _⟩ | ⟨_, t, _, phi, hphi, arg, harg, _, hr⟩
  · have hbelow := h.code b i (by rw [hcode]; simp)
    rw [Instr.sources, List.mem_append, Option.mem_toList, Option.mem_toList] at hr
    exact hr.elim (hbelow.src1 r) (hbelow.src2 r)
  · exact (h.code t phi (List.takeWhile_subset _ hphi)).args arg harg r hr

/-- The registers among the values that a block hands to phis are those that it hands over. -/
theorem exists_edgeValues (hnumbered : f.Numbered) (hedges : ∀ b, ∀ t ∈ f.succs b, t < f.blockCount)
    {block : Block} (hblock : f.blocks[b]? = some block) : ∃ values, f.edgeValues block = .ok values ∧
      ∀ r, (∃ operand ∈ values, operand.reg? = some r) ↔ f.HandsOver b r := by
  have hsuccs : f.succs b = block.succs := by rw [succs, hblock]; rfl
  have hphis : (block.succs.mapM fun succ => do return (← f.block succ).phis) =
      .ok (block.succs.map fun t => (f.code t).takeWhile (·.isPhi)) := by
    refine mapM_eq_ok fun t ht => ?_
    obtain ⟨target, htarget⟩ := exists_getElem?_blocks (hedges b t (hsuccs ▸ ht))
    rw [Function.block, htarget, require_some, ok_bind, code_of_getElem? htarget]
    rfl
  refine ⟨_, by rw [edgeValues, hphis, ok_bind]; rfl, fun r => ?_⟩
  simp only [List.mem_flatMap, List.mem_flatten, List.mem_map, List.mem_filter, beq_iff_eq, HandsOver,
    hsuccs, hnumbered b block hblock]
  constructor
  · rintro ⟨operand, ⟨phi, ⟨_, ⟨t, ht, rfl⟩, hphi⟩, arg, ⟨harg, hpred⟩, rfl⟩, hr⟩
    exact ⟨t, ht, phi, hphi, arg, harg, hpred, hr⟩
  · rintro ⟨t, ht, phi, hphi, arg, harg, hpred, hr⟩
    exact ⟨arg.value, ⟨phi, ⟨_, ⟨t, ht, rfl⟩, hphi⟩, arg, ⟨harg, hpred⟩, rfl⟩, hr⟩

-- ════════════════════════════════════════════════════════════════════════
-- All blocks
-- ════════════════════════════════════════════════════════════════════════

/-- A table has an entry for each block, and the entry has a property that depends on the block. -/
structure Tabulates {α : Type} (f : Function) (P : BlockId → α → Prop) (table : Array α) : Prop where
  size : table.size = f.blockCount
  entry : ∀ b a, table[b]? = some a → P b a

/-- Changing the entries block by block, where every block carries its position. -/
theorem Tabulates.exists_forBlocks {α : Type} {P Q : BlockId → α → Prop} {table : Array α}
    (h : f.Tabulates P table) (hnumbered : f.Numbered) (step : Block → α → Except Fault α)
    (hstep : ∀ b block a, f.blocks[b]? = some block → P b a → ∃ a', step block a = .ok a' ∧ Q b a') :
    ∃ table', f.forBlocks step table = .ok table' ∧ f.Tabulates Q table' := by
  -- The entries of the blocks that were visited are new, the others are as they were.
  obtain ⟨table', hfold, hsize, hentry⟩ := foldlM_induction
    (fun table block => do
      let entry ← require (.missingBlock block.id) table[block.id]?
      return table.setIfInBounds block.id (← step block entry))
    (fun pre t => t.size = f.blockCount ∧
      ∀ b a, t[b]? = some a → if b < pre.length then Q b a else P b a)
    f.blocks.toList table ⟨h.size, by simpa using h.entry⟩ (by
      rintro pre block post t hsplit ⟨hsize, hentry⟩
      have hblock : f.blocks[pre.length]? = some block := by
        rw [← Array.getElem?_toList, hsplit, List.getElem?_append_right (Nat.le_refl _), Nat.sub_self]
        rfl
      have hlt : pre.length < t.size := hsize ▸ (Array.getElem?_eq_some_iff.mp hblock).1
      have hold : t[pre.length]? = some t[pre.length] := Array.getElem?_eq_getElem hlt
      obtain ⟨a', ha', hQ⟩ := hstep pre.length block _ hblock (by simpa using hentry _ _ hold)
      refine ⟨t.setIfInBounds pre.length a', ?_, by simpa using hsize, fun b a hb => ?_⟩
      · rw [hnumbered _ _ hblock, hold, require_some, ok_bind, ha', ok_bind]
        rfl
      · rw [List.length_append, List.length_singleton]
        by_cases heq : b = pre.length
        · subst heq
          rw [Array.getElem?_setIfInBounds_self_of_lt hlt, Option.some.injEq] at hb
          rw [if_pos (Nat.lt_succ_self _), ← hb]
          exact hQ
        · rw [Array.getElem?_setIfInBounds_ne (Ne.symm heq)] at hb
          have hiff : b < pre.length + 1 ↔ b < pre.length := by omega
          simpa only [hiff] using hentry b a hb)
  refine ⟨table', hfold, hsize, fun b a hb => ?_⟩
  have hlt : b < f.blocks.toList.length := by
    rw [Array.length_toList, show f.blocks.size = table'.size from hsize.symm]
    exact (Array.getElem?_eq_some_iff.mp hb).1
  simpa only [hlt, if_true] using hentry b a hb

/-- What is known about a block: the registers that it gives a value to, and those that it needs. -/
structure Knows (f : Function) (b : BlockId) (sets : BlockSets) : Prop where
  mem_defs : ∀ r, r ∈ sets.defs ↔ f.Sets b r
  mem_uses : ∀ r, r ∈ sets.uses ↔ f.Needs b r

theorem exists_argumentSets (h : ∀ r ∈ f.entryRegs, r < f.regCount) :
    ∃ table, f.argumentSets = .ok table ∧ f.Tabulates (fun b sets =>
      (∀ r, r ∈ sets.defs ↔ f.SetsOnEntry b r) ∧ ∀ r, r ∉ sets.uses) table := by
  have hplain : ∀ (b : BlockId) (sets : BlockSets),
      (Array.replicate f.blockCount ({} : BlockSets))[b]? = some sets → sets = {} := by
    intro b sets hb
    rw [Array.getElem?_replicate] at hb
    split at hb
    · exact (Option.some.inj hb).symm
    · cases hb
  unfold argumentSets
  split
  · rename_i hentry
    obtain ⟨sets, hwrite, huses, hdefs⟩ := BlockSets.exists_foldlM_write {} h
    refine ⟨_, by rw [show f.paramVersions.filterMap id = f.entryRegs from rfl, hwrite, ok_bind]; rfl,
      by simp, fun b a hb => ?_⟩
    by_cases heq : b = f.entry
    · subst heq
      rw [Array.getElem?_setIfInBounds_self_of_lt (by simpa using hentry), Option.some.injEq] at hb
      subst hb
      refine ⟨fun r => ?_, fun r => by rw [huses]; exact IndexSet.not_mem_empty r⟩
      rw [hdefs, SetsOnEntry]
      simp
    · rw [Array.getElem?_setIfInBounds_ne (Ne.symm heq)] at hb
      rw [hplain b a hb]
      exact ⟨fun r => by simp [SetsOnEntry, heq], IndexSet.not_mem_empty⟩
  · rename_i hentry
    refine ⟨_, rfl, by simp, fun b a hb => ?_⟩
    have hne : b ≠ f.entry := by
      rintro rfl
      rw [Array.getElem?_replicate, if_neg hentry] at hb
      cases hb
    rw [hplain b a hb]
    exact ⟨fun r => by simp [SetsOnEntry, hne], IndexSet.not_mem_empty⟩

/-- The analysis knows what each block gives a value to and what it needs. -/
theorem exists_blockSets (hnumbered : f.Numbered) (hedges : ∀ b, ∀ t ∈ f.succs b, t < f.blockCount)
    (hregs : f.RegsBelow) : ∃ table, f.blockSets = .ok table ∧ f.Tabulates f.Knows table := by
  obtain ⟨table₀, harguments, htable₀⟩ := exists_argumentSets hregs.entry
  obtain ⟨table₁, hscan, htable₁⟩ := htable₀.exists_forBlocks hnumbered
    (fun block sets => block.instrs.foldlM (BlockSets.scan f.regCount) sets)
    (Q := fun b sets => (∀ r, r ∈ sets.defs ↔ f.Sets b r) ∧
      ∀ r, r ∈ sets.uses ↔ ¬ f.SetsOnEntry b r ∧ ReadsFirst (f.code b) r) (by
      rintro b block sets hblock ⟨hdefs, huses⟩
      have hcode : f.code b = block.instrs := code_of_getElem? hblock
      obtain ⟨sets', hfold, hdefs', huses'⟩ := BlockSets.exists_foldlM_scan sets
        fun i hi => (hregs.code b i (hcode ▸ hi)).dst
      refine ⟨sets', hfold, fun r => ?_, fun r => ?_⟩
      · rw [hdefs', hdefs, Sets, hcode]
      · rw [huses', hdefs, hcode, or_iff_right (huses r)]
        refine and_iff_right_of_imp fun ⟨hentry, hreads⟩ => ?_
        exact hregs.lt_of_needs (b := b) (.inl ⟨hentry, hcode ▸ hreads⟩))
  obtain ⟨table₂, hread, htable₂⟩ := htable₁.exists_forBlocks hnumbered
    (fun block sets => do return sets.read f.regCount (← f.edgeValues block)) (Q := f.Knows) (by
      rintro b block sets hblock ⟨hdefs, huses⟩
      obtain ⟨values, hvalues, hover⟩ := exists_edgeValues hnumbered hedges hblock
      refine ⟨sets.read f.regCount values, by rw [hvalues, ok_bind]; rfl, hdefs, fun r => ?_⟩
      rw [BlockSets.read, mem_foldl_collectUse, huses, hover, hdefs, Needs, and_comm (a := f.HandsOver b r)]
      refine or_congr_right ⟨fun h => ⟨h.1.2, h.2⟩, fun h => ⟨⟨?_, h.1⟩, h.2⟩⟩
      exact hregs.lt_of_needs (.inr h))
  refine ⟨table₂, ?_, htable₂⟩
  rw [blockSets, harguments, ok_bind, hscan, ok_bind, hread]

-- ════════════════════════════════════════════════════════════════════════
-- The equations
-- ════════════════════════════════════════════════════════════════════════

variable {table : Array BlockSets}

/-- What a block adds to the facts are the registers that it needs. -/
theorem mem_gen_livenessFlow (htable : f.Tabulates f.Knows table) :
    r ∈ factsAt (f.livenessFlow table).gen b ↔ b < f.blockCount ∧ f.Needs b r := by
  rw [livenessFlow, mem_factsAt_map]
  constructor
  · rintro ⟨sets, hsets, hr⟩
    exact ⟨htable.size ▸ (Array.getElem?_eq_some_iff.mp hsets).1, ((htable.entry b sets hsets).mem_uses r).mp hr⟩
  · rintro ⟨hb, hr⟩
    have hsets := Array.getElem?_eq_getElem (htable.size.symm ▸ hb : b < table.size)
    exact ⟨_, hsets, ((htable.entry b _ hsets).mem_uses r).mpr hr⟩

/-- What a block drops are the registers that it gives a value to. -/
theorem mem_kill_livenessFlow (htable : f.Tabulates f.Knows table) :
    r ∈ factsAt (f.livenessFlow table).kill b ↔ b < f.blockCount ∧ f.Sets b r := by
  rw [livenessFlow, mem_factsAt_map]
  constructor
  · rintro ⟨sets, hsets, hr⟩
    exact ⟨htable.size ▸ (Array.getElem?_eq_some_iff.mp hsets).1, ((htable.entry b sets hsets).mem_defs r).mp hr⟩
  · rintro ⟨hb, hr⟩
    have hsets := Array.getElem?_eq_getElem (htable.size.symm ▸ hb : b < table.size)
    exact ⟨_, hsets, ((htable.entry b _ hsets).mem_defs r).mpr hr⟩

theorem regular_livenessFlow (hedges : ∀ b, ∀ t ∈ f.succs b, t < f.blockCount) (h : f.RegsBelow)
    (htable : f.Tabulates f.Knows table) : (f.livenessFlow table).Regular where
  mem_order b := by simp [livenessFlow, blockIds, blockCount]
  sources_lt := hedges
  gen_lt b r hr := h.lt_of_needs ((mem_gen_livenessFlow htable).mp hr).2

/-- The derivations of the flow equations are the paths to a block that needs the register. -/
theorem passes_livenessFlow (hedges : ∀ b, ∀ t ∈ f.succs b, t < f.blockCount)
    (htable : f.Tabulates f.Knows table) (hb : b < f.blockCount) :
    (f.livenessFlow table).Passes r b ↔ f.LiveAt b r := by
  constructor
  · intro hpass
    induction hpass with
    | @gen b hgen => exact ⟨b, [b], .nil, by simp, ((mem_gen_livenessFlow htable).mp hgen).2⟩
    | @carry t b ht _ hkill ih =>
      obtain ⟨last, l, hpath, hfree, hneeds⟩ := ih (hedges b t ht)
      rw [mem_kill_livenessFlow htable, not_and] at hkill
      refine ⟨last, l ++ [b], hpath.cons ht, fun x hx => ?_, hneeds⟩
      obtain ⟨rest, rfl⟩ := hpath.eq_cons
      rcases List.mem_append.mp hx with hx | hx
      · exact hfree x hx
      · rw [List.mem_singleton.mp hx]
        exact hkill hb
  · rintro ⟨last, l, hpath, hfree, hneeds⟩
    -- Along the path, from its end to its start, each block passes the register on.
    have hback : (f.livenessFlow table).Passes r last → (f.livenessFlow table).Passes r b := by
      clear hneeds
      induction hpath with
      | nil => exact id
      | @snoc p q l hpath hedge ih =>
        intro hpass
        refine ih (fun x hx => hfree x (List.mem_of_mem_tail hx)) (.carry hedge hpass ?_)
        exact fun hkill => hfree p hpath.last_mem ((mem_kill_livenessFlow htable).mp hkill).2
    refine hback (.gen ?_)
    have hlast : last < f.blockCount := by
      cases hpath with
      | nil => exact hb
      | snoc _ hedge => exact hedges _ _ hedge
    exact (mem_gen_livenessFlow htable).mpr ⟨hlast, hneeds⟩

-- ════════════════════════════════════════════════════════════════════════
-- The analysis
-- ════════════════════════════════════════════════════════════════════════

end Function

/-- The answer about the start of a block that the analysis covers. -/
theorem Liveness.isLiveIn_of_lt {l : Liveness} {b : BlockId} (hb : b < l.liveIn.size) (r : Reg) :
    l.isLiveIn b r = .ok ((factsAt l.liveIn b).contains r) := by
  rw [isLiveIn, getElem?_eq_some_factsAt hb, require_some, ok_bind]
  rfl

/-- The answer about the end of a block that the analysis covers. -/
theorem Liveness.isLiveOut_of_lt {l : Liveness} {b : BlockId} (hb : b < l.liveOut.size) (r : Reg) :
    l.isLiveOut b r = .ok ((factsAt l.liveOut b).contains r) := by
  rw [isLiveOut, getElem?_eq_some_factsAt hb, require_some, ok_bind]
  rfl

namespace Function

variable {f : Function} {b : BlockId} {r : Reg}

/-- In a function whose blocks carry their positions, whose edges stay inside it and that mentions only
registers that were handed out, each block is found to write and to read first what it does. From this some
number of sweeps reaches sets that a further sweep does not change, and these are the answer. A register is
live at the start of a block exactly when a path leads from there to a block that needs it and no block
before that one gives it a value; it is live at the end of a block exactly when it is live at the start of a
successor. -/
theorem liveness_exact (f : Function) (hnumbered : f.Numbered)
    (hedges : ∀ b, ∀ t ∈ f.succs b, t < f.blockCount) (hregs : f.RegsBelow) :
    ∃ table live rounds, f.blockSets = .ok table ∧ f.Tabulates f.Knows table ∧ f.liveness = .ok live ∧
      (live.liveIn = ((f.livenessFlow table).sweep^[rounds] (f.livenessFlow table).start).result ∧
        live.liveOut = ((f.livenessFlow table).sweep^[rounds] (f.livenessFlow table).start).gathered ∧
        (f.livenessFlow table).sweep^[rounds + 1] (f.livenessFlow table).start =
          (f.livenessFlow table).sweep^[rounds] (f.livenessFlow table).start) ∧
      ∀ b < f.blockCount, ∀ r, Succeeds (live.isLiveIn b r) ∧ Succeeds (live.isLiveOut b r) ∧
        (live.isLiveIn b r = .ok true ↔ f.LiveAt b r) ∧
        (live.isLiveOut b r = .ok true ↔ ∃ t ∈ f.succs b, live.isLiveIn t r = .ok true) := by
  obtain ⟨table, hsets, htable⟩ := exists_blockSets hnumbered hedges hregs
  have hregular := regular_livenessFlow hedges hregs htable
  have hunderway := hregular.underway_solve
  obtain ⟨rounds, hrounds, hfixed⟩ := exists_iterate_fixed hregular.sweep_solve
  rw [← Flow.solve] at hrounds
  refine ⟨table, _, rounds, hsets, htable, by rw [liveness, hsets, ok_bind]; rfl,
    ⟨by rw [hrounds], by rw [hrounds], hfixed⟩, fun b hb r => ?_⟩
  have hin : ∀ b < f.blockCount, b < (f.livenessFlow table).solve.result.size := fun b hb =>
    hunderway.result_size ▸ hb
  have hout : b < (f.livenessFlow table).solve.gathered.size := hunderway.gathered_size ▸ hb
  have hlive : ∀ b < f.blockCount,
      (factsAt (f.livenessFlow table).solve.result b).contains r = true ↔ f.LiveAt b r := fun b hb =>
    (hregular.mem_result hb).trans (passes_livenessFlow hedges htable hb)
  refine ⟨⟨_, Liveness.isLiveIn_of_lt (hin b hb) r⟩, ⟨_, Liveness.isLiveOut_of_lt hout r⟩, ?_, ?_⟩
  · rw [Liveness.isLiveIn_of_lt (hin b hb), Except.ok.injEq, hlive b hb]
  · rw [Liveness.isLiveOut_of_lt hout, Except.ok.injEq]
    refine (hregular.mem_gathered hb).trans (exists_congr fun t => and_congr_right fun ht => ?_)
    have htlt := hedges b t ht
    rw [Liveness.isLiveIn_of_lt (hin t htlt), Except.ok.injEq, hlive t htlt]
    exact passes_livenessFlow hedges htable htlt

end Function

/-- A loop in single assignment form: `t0` is the step, `t1` the counter on entry to an iteration and `t2`
the counter after it. -/
def countingLoop : Function where
  name := 0
  line := 1
  blocks := #[
    { id := 0, label := "entry", succs := [1], instrs := [
        .unary .copy (.reg 0 none) (.int 3) 1, .jump 1 1] },
    { id := 1, label := "loop", preds := [0, 1], succs := [1, 2], instrs := [
        .phi (.reg 1 none) none [⟨.int 9, 0⟩, ⟨.reg 2 none, 1⟩] 1,
        .binary .sub (.reg 2 none) (.reg 1 none) (.reg 0 none) 1,
        .branch (.reg 2 none) 1 2 1] },
    { id := 2, label := "exit", preds := [1], instrs := [.ret (.reg 1 none) 1] }]
  isSsa := true
  regCount := 3

/-- The step of the loop is live around the loop. -/
theorem countingLoop_live : countingLoop.Numbered ∧
    (∀ b, ∀ t ∈ countingLoop.succs b, t < countingLoop.blockCount) ∧
    countingLoop.RegsBelow ∧ ∃ live, countingLoop.liveness = .ok live ∧
      live.isLiveIn 1 0 = .ok true ∧ live.isLiveOut 1 0 = .ok true := by
  have hedges : ∀ b, ∀ t ∈ countingLoop.succs b, t < countingLoop.blockCount := by
    rintro (_ | _ | _ | b)
    · decide
    · decide
    · decide
    · simp [countingLoop, Function.succs]
  have hcode : ∀ b, ∀ i ∈ countingLoop.code b, i.Below countingLoop.regCount := by
    rintro (_ | _ | _ | b)
    · decide
    · decide
    · decide
    · simp [countingLoop, Function.code]
  have hregs : countingLoop.RegsBelow := ⟨hcode, by decide⟩
  have hnumbered : countingLoop.Numbered := by decide
  obtain ⟨_, live, _, _, _, hlive, _, hexact⟩ := countingLoop.liveness_exact hnumbered hedges hregs
  have hstep : live.isLiveIn 1 0 = .ok true := by
    refine (hexact 1 (by decide) 0).2.2.1.mpr ⟨1, [1], .nil, by simp, .inl ⟨?_, ?_⟩⟩
    · exact fun hentry => absurd hentry.1 (by decide)
    · exact ⟨[_], _, [_], rfl, rfl, by decide, by decide⟩
  exact ⟨hnumbered, hedges, hregs, live, hlive, hstep, (hexact 1 (by decide) 0).2.2.2.mpr ⟨1, by decide, hstep⟩⟩

end MiddleEnd
