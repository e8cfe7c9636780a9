import MiddleEnd.Proofs.IR.Numbered
import MiddleEnd.Proofs.Lowering.Outcome
import MiddleEnd.Proofs.SSA.Versions
import MiddleEnd.Proofs.Success
import MiddleEnd.SSA.Violation

/-!
# What lowering keeps

While a function is lowered, its instructions are in order at all times: a terminator ends its block,
an instruction reads variables and registers that were computed on every way to it, a phi stands first
in its block and has an argument for each of the two edges that lead there.

A register that is computed in one block and read in another is *available* in the latter. Which
registers are available where cannot be read off the state, so it is carried along beside it.

## Main definitions

* `Function.code`, `Function.label?`: the instructions and the label of a block.
* `Lowering.Sound`: the invariant.
* `Lowering.Fits`: an instruction that may be appended to the current block.

## Main statements

* `Lowering.Sound.push`: when an instruction may be appended.
* `Lowering.Sound.grown`, `Lowering.Sound.withReg`, `Lowering.Sound.withVar`: the other ways in which a
  function grows.
* `Lowering.Sound.provide`: when registers may be made available in a block.
-/

namespace MiddleEnd

-- ════════════════════════════════════════════════════════════════════════
-- Views
-- ════════════════════════════════════════════════════════════════════════

/-- The registers that instructions write. -/
def defsOf (code : List Instr) : List Reg := code.filterMap (·.def?)

@[simp]
theorem defsOf_nil : defsOf [] = [] := rfl

@[simp]
theorem defsOf_append (xs ys : List Instr) : defsOf (xs ++ ys) = defsOf xs ++ defsOf ys := by
  simp [defsOf]

theorem mem_defsOf {code : List Instr} {r : Reg} : r ∈ defsOf code ↔ ∃ i ∈ code, i.def? = some r := by
  simp [defsOf]

@[simp]
theorem mem_defsOf_singleton {i : Instr} {r : Reg} : r ∈ defsOf [i] ↔ i.def? = some r := by
  simp [defsOf, eq_comm]

/-- The registers that an instruction reads as its sources. -/
def Instr.sources (i : Instr) : List Reg := i.src1.reg?.toList ++ i.src2.reg?.toList

/-- Everything that an instruction mentions. -/
def Instr.operands (i : Instr) : List Operand :=
  [i.dst, i.src1, i.src2] ++ i.phiArgs.map (·.value)

theorem Instr.mem_operands {i : Instr} {operand : Operand} : operand ∈ i.operands ↔
    operand = i.dst ∨ operand = i.src1 ∨ operand = i.src2 ∨ ∃ arg ∈ i.phiArgs, arg.value = operand := by
  simp [operands]

namespace Function

/-- The instructions of a block. A block that does not exist has none. -/
def code (f : Function) (b : BlockId) : List Instr := (f.blocks[b]?.map (·.instrs)).getD []

theorem code_of_getElem? {f : Function} {b : BlockId} {block : Block}
    (h : f.blocks[b]? = some block) : f.code b = block.instrs := by
  simp [code, h]

theorem code_eq_append {f : Function} {b : BlockId} {block : Block} (h : f.blocks[b]? = some block) :
    f.code b = block.phis ++ block.body := by
  rw [code_of_getElem? h]
  exact List.takeWhile_append_dropWhile.symm

theorem lt_of_mem_code {f : Function} {b : BlockId} {i : Instr} (h : i ∈ f.code b) :
    b < f.blockCount := by
  by_contra hge
  have hnone : f.blocks[b]? = none := Array.getElem?_eq_none (Nat.not_lt.mp hge)
  simp [code, hnone] at h

theorem lt_of_mem_defsOf {f : Function} {b : BlockId} {r : Reg} (h : r ∈ defsOf (f.code b)) :
    b < f.blockCount := by
  obtain ⟨_, hi, _⟩ := mem_defsOf.mp h
  exact lt_of_mem_code hi

/-- An instruction stands in the block that holds it. -/
theorem exists_of_mem_code {f : Function} {b : BlockId} {i : Instr} (h : i ∈ f.code b) :
    ∃ block, f.blocks[b]? = some block ∧ i ∈ block.instrs := by
  obtain ⟨block, hblock⟩ := exists_getElem?_blocks (lt_of_mem_code h)
  exact ⟨block, hblock, code_of_getElem? hblock ▸ h⟩

/-- The label of a block. -/
def label? (f : Function) (b : BlockId) : Option String := f.blocks[b]?.map (·.label)

/-- An instruction somewhere writes the register. -/
def Defines (f : Function) (r : Reg) : Prop := ∃ b, r ∈ defsOf (f.code b)

/-- Whether the last instruction of a block is a terminator. -/
def Closed (f : Function) (b : BlockId) : Prop := ∃ i ∈ (f.code b).getLast?, i.isTerminator = true

theorem isTerminated_iff {f : Function} {b : BlockId} {block : Block}
    (h : f.blocks[b]? = some block) : block.isTerminated = true ↔ f.Closed b := by
  rw [Closed, code_of_getElem? h, Block.isTerminated, Block.terminator?, Block.last?]
  cases block.instrs.getLast? with
  | none => simp
  | some i => cases hi : i.isTerminator <;> simp [hi]

/-- A terminator in an open block could only be its last instruction, which is none. -/
theorem isTerminator_of_not_closed {f : Function} {b : BlockId} (hopen : ¬ f.Closed b)
    (hlast : ∀ i ∈ (f.code b).dropLast, i.isTerminator = false) :
    ∀ i ∈ f.code b, i.isTerminator = false := by
  intro i hi
  have hnil : f.code b ≠ [] := List.ne_nil_of_mem hi
  rw [← List.dropLast_concat_getLast hnil, List.mem_append, List.mem_singleton] at hi
  rcases hi with hi | rfl
  · exact hlast i hi
  · exact Bool.eq_false_iff.mpr fun hterm => hopen ⟨_, List.getLast?_eq_some_getLast hnil, hterm⟩

-- ════════════════════════════════════════════════════════════════════════
-- Ways to grow
-- ════════════════════════════════════════════════════════════════════════

/-- The function with an instruction appended to a block. -/
def pushed (f : Function) (b : BlockId) (i : Instr) : Function :=
  f.modifyBlock b fun block => { block with instrs := block.instrs ++ [i] }

/-- The function with an empty block appended. -/
def grown (f : Function) (label : String) : Function := (f.newBlock (some label)).2

section Pushed

variable (f : Function) (b : BlockId) (i : Instr)

@[simp]
theorem blockCount_pushed : (f.pushed b i).blockCount = f.blockCount := by
  simp [pushed, modifyBlock, blockCount]

theorem code_pushed_self (hb : b < f.blockCount) :
    (f.pushed b i).code b = f.code b ++ [i] := by
  have hb' : f.blocks[b]? = some f.blocks[b] := Array.getElem?_eq_getElem hb
  simp [code, pushed, modifyBlock, Array.getElem?_modify, hb']

theorem code_pushed_ne {c : BlockId} (h : c ≠ b) : (f.pushed b i).code c = f.code c := by
  simp [code, pushed, modifyBlock, Array.getElem?_modify, Ne.symm h]

/-- Every instruction afterwards was there before or is the new one. -/
theorem mem_code_pushed {c : BlockId} {j : Instr} (h : j ∈ (f.pushed b i).code c) :
    j ∈ f.code c ∨ c = b ∧ j = i := by
  by_cases hc : c = b
  · subst hc
    have hlt := lt_of_mem_code h
    rw [blockCount_pushed] at hlt
    rw [code_pushed_self f c i hlt, List.mem_append, List.mem_singleton] at h
    exact h.imp id fun hj => ⟨rfl, hj⟩
  · rw [code_pushed_ne f b i hc] at h
    exact .inl h

theorem code_prefix_pushed (c : BlockId) : f.code c <+: (f.pushed b i).code c := by
  by_cases hc : c = b
  · subst hc
    by_cases hlt : c < f.blockCount
    · rw [code_pushed_self f c i hlt]
      exact List.prefix_append _ _
    · have hnone : f.code c = [] := by
        simp [code, Array.getElem?_eq_none (Nat.not_lt.mp hlt)]
      rw [hnone]
      exact List.nil_prefix
  · exact ⟨[], by rw [List.append_nil, code_pushed_ne f b i hc]⟩

theorem mem_defsOf_code_pushed {c : BlockId} {r : Reg} (h : r ∈ defsOf (f.code c)) :
    r ∈ defsOf ((f.pushed b i).code c) := by
  obtain ⟨j, hj, hdef⟩ := mem_defsOf.mp h
  exact mem_defsOf.mpr ⟨j, (f.code_prefix_pushed b i c).subset hj, hdef⟩

/-- An instruction that is not last afterwards was not last before, or is an old one of the block that
grew. -/
theorem mem_dropLast_code_pushed (hb : b < f.blockCount) {c : BlockId} {j : Instr}
    (h : j ∈ ((f.pushed b i).code c).dropLast) :
    j ∈ (f.code c).dropLast ∨ c = b ∧ j ∈ f.code b := by
  by_cases hc : c = b
  · subst hc
    rw [code_pushed_self f c i hb, List.dropLast_concat] at h
    exact .inr ⟨rfl, h⟩
  · rw [code_pushed_ne f b i hc] at h
    exact .inl h

/-- The new instruction comes first only in a block that was empty. -/
theorem mem_head_code_pushed (hb : b < f.blockCount) {c : BlockId} {j : Instr}
    (h : j ∈ ((f.pushed b i).code c).head?) :
    j ∈ (f.code c).head? ∨ c = b ∧ f.code b = [] ∧ j = i := by
  by_cases hc : c = b
  · subst hc
    rw [code_pushed_self f c i hb] at h
    cases hcode : f.code c with
    | nil => exact .inr ⟨rfl, rfl, by simpa [hcode, eq_comm] using h⟩
    | cons k rest => exact .inl (by simpa [hcode] using h)
  · rw [code_pushed_ne f b i hc] at h
    exact .inl h

/-- The new instruction comes behind others only in a block that had some. -/
theorem mem_tail_code_pushed (hb : b < f.blockCount) {c : BlockId} {j : Instr}
    (h : j ∈ ((f.pushed b i).code c).tail) :
    j ∈ (f.code c).tail ∨ f.code b ≠ [] ∧ j = i := by
  by_cases hc : c = b
  · subst hc
    rw [code_pushed_self f c i hb] at h
    cases hcode : f.code c with
    | nil => simp [hcode] at h
    | cons k rest =>
      rw [hcode, List.cons_append, List.tail_cons, List.mem_append, List.mem_singleton] at h
      exact h.imp id fun hj => ⟨List.cons_ne_nil _ _, hj⟩
  · rw [code_pushed_ne f b i hc] at h
    exact .inl h

/-- What comes before an instruction came before it already, or is all of the block that grew. -/
theorem code_pushed_eq_append_cons (hb : b < f.blockCount) {c : BlockId} {pre post : List Instr}
    {j : Instr} (h : (f.pushed b i).code c = pre ++ j :: post) :
    (∃ post', f.code c = pre ++ j :: post') ∨ c = b ∧ f.code b = pre ∧ j = i := by
  by_cases hc : c = b
  · subst hc
    rw [code_pushed_self f c i hb] at h
    rcases List.eq_nil_or_concat post with rfl | ⟨post', last, rfl⟩
    · obtain ⟨hpre, hlast⟩ := List.append_inj' h rfl
      exact .inr ⟨rfl, hpre, by simpa [eq_comm] using hlast⟩
    · rw [List.concat_eq_append, ← List.cons_append, ← List.append_assoc] at h
      exact .inl ⟨post', (List.append_inj' h rfl).1⟩
  · rw [code_pushed_ne f b i hc] at h
    exact .inl ⟨post, h⟩

theorem defCount_pushed (hb : b < f.blockCount) (r : Reg) :
    (f.pushed b i).defCount r = f.defCount r + (if i.def? = some r then 1 else 0) := by
  obtain ⟨front, block, back, hblocks, _, hmodify⟩ := List.exists_of_modify
    (fun block : Block => { block with instrs := block.instrs ++ [i] }) (l := f.blocks.toList)
    (i := b) (by simpa [blockCount] using hb)
  have hone : List.count r (Block.defs { block with instrs := block.instrs ++ [i] }) =
      block.defs.count r + (if i.def? = some r then 1 else 0) := by
    simp only [Block.defs, List.filterMap_append, List.count_append]
    cases hdef : i.def? with
    | none => simp [hdef]
    | some q => by_cases hq : q = r <;> simp [hdef, hq]
  simp only [defCount, pushed, modifyBlock, Array.toList_modify, hmodify]
  simp only [hblocks, List.flatMap_append, List.flatMap_cons, List.count_append, hone]
  omega

end Pushed

section Grown

variable (f : Function) (label : String)

@[simp]
theorem blockCount_grown : (f.grown label).blockCount = f.blockCount + 1 := by
  simp [grown, newBlock, blockCount]

@[simp]
theorem code_grown (b : BlockId) : (f.grown label).code b = f.code b := by
  by_cases hb : b = f.blocks.size
  · subst hb
    simp [code, grown, newBlock]
  · simp [code, grown, newBlock, Array.getElem?_push, hb]

@[simp]
theorem defCount_grown (r : Reg) : (f.grown label).defCount r = f.defCount r := by
  simp [defCount, grown, newBlock, Block.defs]

end Grown

/-- A register that nothing writes is written by no instruction. -/
theorem defCount_eq_zero {f : Function} {r : Reg} (h : ¬ f.Defines r) : f.defCount r = 0 := by
  refine List.count_eq_zero.mpr fun hmem => h ?_
  obtain ⟨block, hblock, hr⟩ := List.mem_flatMap.mp hmem
  obtain ⟨b, hb⟩ := Array.mem_iff_getElem?.mp (Array.mem_toList_iff.mp hblock)
  exact ⟨b, code_of_getElem? hb ▸ hr⟩

/-- A block that is replaced by itself with an instruction appended. -/
theorem setBlock_eq_pushed {f : Function} {b : BlockId} {block : Block}
    (hb : f.blocks[b]? = some block) (i : Instr) :
    f.setBlock b { block with instrs := block.instrs ++ [i] } = f.pushed b i := by
  rw [setBlock, pushed, modifyBlock, modifyBlock, Function.mk.injEq]
  simp only [true_and, and_true]
  refine Array.ext_getElem? fun c => ?_
  rw [Array.getElem?_modify, Array.getElem?_modify]
  by_cases hc : b = c
  · subst hc
    simp [hb]
  · simp [hc]

/-- Appending an instruction to an open block succeeds. -/
theorem emit_eq {f : Function} {b : BlockId} (hb : b < f.blockCount) (hopen : ¬ f.Closed b)
    (i : Instr) : f.emit b i = .ok (f.pushed b i) := by
  have hb' : f.blocks[b]? = some f.blocks[b] := Array.getElem?_eq_getElem hb
  have hterm : f.blocks[b].isTerminated = false := by
    refine Bool.eq_false_iff.mpr fun h => hopen ?_
    exact (isTerminated_iff hb').mp h
  have hpush : f.blocks[b].push i =
      .ok { f.blocks[b] with instrs := f.blocks[b].instrs ++ [i] } := by
    simp [Block.push, hterm]
  have hblock : f.block b = .ok f.blocks[b] := by rw [block, hb']; rfl
  rw [← setBlock_eq_pushed hb' i]
  exact bind_eq_ok.mpr ⟨_, hblock, bind_eq_ok.mpr ⟨_, hpush, rfl⟩⟩

/-- Appending an instruction does nothing else, and never stops because of the unit. -/
theorem emit_cases (f : Function) (b : BlockId) (i : Instr) : f.emit b i = .ok (f.pushed b i) ∨
    ∃ fault, f.emit b i = .error fault ∧ ¬ fault.IsDangling := by
  rw [emit, block]
  cases hblock : f.blocks[b]? with
  | none => exact .inr ⟨_, rfl, not_false⟩
  | some block =>
    rw [require_some, ok_bind, Block.push]
    cases block.isTerminated with
    | true => exact .inr ⟨_, rfl, not_false⟩
    | false => exact .inl (congrArg Except.ok (setBlock_eq_pushed hblock i))

/-- A block has an instruction that leads to another block. -/
def LeadsTo (f : Function) (x b : BlockId) : Prop := ∃ i ∈ f.code x, b ∈ i.targets

/-- A phi that joins the two sides of a short-circuit operator: a constant from the block that decided,
and a register from the block that computed the other operand. No other edge leads to it. -/
def JoinsSides (f : Function) (b : BlockId) (phi : Instr) : Prop :=
  ∃ n p q ty p', phi.phiArgs = [⟨.int n, p⟩, ⟨.reg q ty, p'⟩] ∧ p ≠ p' ∧ ¬ f.IsVarReg q ∧
    q ∈ defsOf (f.code p') ∧ (∃ r ty, phi.dst = .reg r ty ∧ ¬ f.IsVarReg r) ∧ f.LeadsTo p b ∧
    f.LeadsTo p' b ∧ ∀ x, f.LeadsTo x b → x = p ∨ x = p'

end Function

-- ════════════════════════════════════════════════════════════════════════
-- The invariant
-- ════════════════════════════════════════════════════════════════════════

namespace Instr

/-- An instruction as lowering makes it: it joins no variable, a terminator writes nothing, and a phi
has arguments in place of sources. -/
structure Formed (i : Instr) : Prop where
  var : i.phiVar? = none
  terminator : i.isTerminator = true → i.dst = .none
  args : i.isPhi = false → i.phiArgs = []
  sources : i.isPhi = true → i.sources = []

theorem targets_of_isPhi {i : Instr} (h : i.isPhi = true) : i.targets = [] := by
  have hop : i.opcode = .phi := by simpa [isPhi] using h
  simp [targets, hop]

end Instr

namespace Lowering

/-- The blocks to which a jump out of a statement may lead. -/
def scopes (s : Lowering) : List BlockId :=
  s.breakTargets ++ s.continueTargets ++ s.gotoTargets.map (·.2) ++ s.labelBlocks.map (·.2)

/-- Which registers are available at the start of each block. -/
abbrev Avail := BlockId → Reg → Prop

/-- A block that edges may lead to from anywhere: nothing is available there, and it has no phi. -/
structure Free (avail : Avail) (s : Lowering) (t : BlockId) : Prop where
  pos : 0 < t
  lt : t < s.fn.blockCount
  avail : ∀ r, ¬ avail t r
  phi : ∀ i ∈ s.fn.code t, i.isPhi = false

/-- The register belongs to no variable and is available at the end of the current block. -/
def Now (avail : Avail) (s : Lowering) (r : Reg) : Prop :=
  ¬ s.fn.IsVarReg r ∧ (avail s.current r ∨ r ∈ defsOf (s.fn.code s.current))

/-- What holds at all times while a function is lowered. -/
structure Sound (avail : Avail) (s : Lowering) : Prop where
  numbered : s.fn.Numbered
  entry : s.fn.entry = 0
  unversioned : s.fn.paramVersions = []
  current : s.current < s.fn.blockCount
  vars : s.fn.VarsApart
  names : (s.fn.vars.map (·.name)).Nodup
  below : ∀ b, ∀ i ∈ s.fn.code b, i.Below s.fn.regCount
  formed : ∀ b, ∀ i ∈ s.fn.code b, i.Formed
  /-- Nothing follows a terminator. -/
  last : ∀ b, ∀ i ∈ (s.fn.code b).dropLast, i.isTerminator = false
  uses : ∀ b pre i post, s.fn.code b = pre ++ i :: post → ∀ r ∈ i.sources,
    s.fn.IsVarReg r ∨ avail b r ∨ r ∈ defsOf pre
  /-- What is available at the end of an edge is available at its start. -/
  edges : ∀ b, ∀ i ∈ s.fn.code b, ∀ t ∈ i.targets, 0 < t ∧ t < s.fn.blockCount ∧
    ∀ r, avail t r → avail b r ∨ r ∈ defsOf (s.fn.code b)
  defined : ∀ b r, avail b r → 0 < b ∧ b < s.fn.blockCount ∧ s.fn.Defines r ∧ ¬ s.fn.IsVarReg r
  phiHead : ∀ b, ∀ i ∈ (s.fn.code b).head?, i.isPhi = true → s.fn.JoinsSides b i
  phiTail : ∀ b, ∀ i ∈ (s.fn.code b).tail, i.isPhi = false
  single : ∀ r, ¬ s.fn.IsVarReg r → s.fn.defCount r ≤ 1
  scopes : ∀ t ∈ s.scopes, s.Free avail t

/-- An instruction that may be appended to the current block. -/
structure Fits (avail : Avail) (s : Lowering) (i : Instr) : Prop where
  below : i.Below s.fn.regCount
  formed : i.Formed
  uses : ∀ r ∈ i.sources, s.fn.IsVarReg r ∨ s.Now avail r
  targets : ∀ t ∈ i.targets, 0 < t ∧ t < s.fn.blockCount ∧ (∀ r, avail t r → s.Now avail r) ∧
    ∀ j ∈ s.fn.code t, j.isPhi = false
  phi : i.isPhi = true → s.fn.code s.current = [] ∧ s.current ∉ s.scopes ∧
    s.fn.JoinsSides s.current i
  fresh : ∀ r, i.def? = some r → s.fn.IsVarReg r ∨ ¬ s.fn.Defines r

/-- The state after an instruction was appended to the current block. -/
def pushed (s : Lowering) (i : Instr) : Lowering := { s with fn := s.fn.pushed s.current i }

end Lowering

namespace Function

/-- What a block leads to stays when instructions are appended. -/
theorem LeadsTo.pushed {f : Function} {x b : BlockId} (h : f.LeadsTo x b) (c : BlockId) (i : Instr) :
    (f.pushed c i).LeadsTo x b := by
  obtain ⟨j, hj, hb⟩ := h
  exact ⟨j, (f.code_prefix_pushed c i x).subset hj, hb⟩

theorem Defines.pushed {f : Function} {r : Reg} (h : f.Defines r) (c : BlockId) (i : Instr) :
    (f.pushed c i).Defines r := by
  obtain ⟨b, hb⟩ := h
  exact ⟨b, f.mem_defsOf_code_pushed c i hb⟩

theorem Defines.of_pushed {f : Function} {r : Reg} {c : BlockId} {i : Instr}
    (h : (f.pushed c i).Defines r) : f.Defines r ∨ i.def? = some r := by
  obtain ⟨b, hb⟩ := h
  obtain ⟨j, hj, hr⟩ := mem_defsOf.mp hb
  rcases f.mem_code_pushed c i hj with hj | ⟨_, rfl⟩
  · exact .inl ⟨b, mem_defsOf.mpr ⟨j, hj, hr⟩⟩
  · exact .inr hr

/-- A phi keeps its two edges when nothing that leads to it is appended. -/
theorem JoinsSides.pushed {f : Function} {b c : BlockId} {phi i : Instr} (h : f.JoinsSides b phi)
    (hi : b ∉ i.targets) : (f.pushed c i).JoinsSides b phi := by
  obtain ⟨n, p, q, ty, p', hargs, hne, hq, hdef, hdst, hp, hp', honly⟩ := h
  refine ⟨n, p, q, ty, p', hargs, hne, hq, f.mem_defsOf_code_pushed c i hdef, hdst, hp.pushed c i,
    hp'.pushed c i, fun x hx => ?_⟩
  obtain ⟨j, hj, hb⟩ := hx
  rcases f.mem_code_pushed c i hj with hj | ⟨_, rfl⟩
  · exact honly x ⟨j, hj, hb⟩
  · exact absurd hb hi

/-- A phi joins the same sides in a function with the same instructions, as long as no register that is
written becomes a variable. -/
theorem JoinsSides.of_code {f g : Function} {b : BlockId} {phi : Instr} (h : f.JoinsSides b phi)
    (hphi : phi ∈ f.code b) (hcode : g.code = f.code)
    (hvar : ∀ r, f.Defines r → ¬ f.IsVarReg r → ¬ g.IsVarReg r) : g.JoinsSides b phi := by
  obtain ⟨n, p, q, ty, p', hargs, hne, hq, hdef, ⟨r, rty, hdst, hr⟩, hp, hp', honly⟩ := h
  have hleads : ∀ x, g.LeadsTo x b ↔ f.LeadsTo x b := fun x => by rw [LeadsTo, LeadsTo, hcode]
  have hresult : f.Defines r :=
    ⟨b, mem_defsOf.mpr ⟨phi, hphi, by rw [Instr.def?, hdst]; rfl⟩⟩
  exact ⟨n, p, q, ty, p', hargs, hne, hvar q ⟨p', hdef⟩ hq, hcode ▸ hdef,
    ⟨r, rty, hdst, hvar r hresult hr⟩, (hleads p).mpr hp, (hleads p').mpr hp',
    fun x hx => honly x ((hleads x).mp hx)⟩

end Function

namespace Lowering.Sound

variable {avail : Avail} {s : Lowering} {i : Instr}

/-- A fitting instruction may be appended to an open block. -/
theorem push (h : s.Sound avail) (hopen : ¬ s.fn.Closed s.current) (hi : s.Fits avail i) :
    (s.pushed i).Sound avail where
  numbered := h.numbered.modifyBlock s.current fun _ => rfl
  entry := h.entry
  unversioned := h.unversioned
  current := (s.fn.blockCount_pushed s.current i).symm ▸ h.current
  vars := ⟨h.vars.lt, h.vars.nodup⟩
  names := h.names
  below c j hj := by
    rcases s.fn.mem_code_pushed s.current i hj with hj | ⟨_, rfl⟩
    · exact h.below c j hj
    · exact hi.below
  formed c j hj := by
    rcases s.fn.mem_code_pushed s.current i hj with hj | ⟨_, rfl⟩
    · exact h.formed c j hj
    · exact hi.formed
  last c j hj := by
    rcases s.fn.mem_dropLast_code_pushed s.current i h.current hj with hinner | ⟨rfl, hold⟩
    · exact h.last c j hinner
    · exact Function.isTerminator_of_not_closed hopen (h.last s.current) j hold
  uses c pre j post hsplit r hr := by
    rcases s.fn.code_pushed_eq_append_cons s.current i h.current hsplit with ⟨post', hcode⟩ | ⟨rfl, rfl, rfl⟩
    · exact h.uses c pre j post' hcode r hr
    · exact (hi.uses r hr).imp id And.right
  edges c j hj t ht := by
    rw [show (s.pushed i).fn.blockCount = _ from s.fn.blockCount_pushed s.current i]
    rcases s.fn.mem_code_pushed s.current i hj with hj | ⟨rfl, rfl⟩
    · obtain ⟨hpos, hlt, hav⟩ := h.edges c j hj t ht
      exact ⟨hpos, hlt, fun r hr => (hav r hr).imp id (s.fn.mem_defsOf_code_pushed _ _)⟩
    · obtain ⟨hpos, hlt, hav, _⟩ := hi.targets t ht
      exact ⟨hpos, hlt, fun r hr => (hav r hr).2.imp id (s.fn.mem_defsOf_code_pushed _ _)⟩
  defined c r hr := by
    obtain ⟨hpos, hlt, hdef, hvar⟩ := h.defined c r hr
    exact ⟨hpos, (s.fn.blockCount_pushed s.current i).symm ▸ hlt, hdef.pushed _ _, hvar⟩
  phiHead c j hj hphi := by
    rcases s.fn.mem_head_code_pushed s.current i h.current hj with hj | ⟨rfl, _, rfl⟩
    · -- An old phi has no new edge.
      refine (h.phiHead c j hj hphi).pushed fun hc => ?_
      have hnone := (hi.targets c hc).2.2.2 j (List.mem_of_mem_head? hj)
      rw [hphi] at hnone
      cases hnone
    · refine (hi.phi hphi).2.2.pushed ?_
      rw [Instr.targets_of_isPhi hphi]
      exact List.not_mem_nil
  phiTail c j hj := by
    rcases s.fn.mem_tail_code_pushed s.current i h.current hj with hj | ⟨hne, rfl⟩
    · exact h.phiTail c j hj
    · exact Bool.eq_false_iff.mpr fun hphi => hne (hi.phi hphi).1
  single r hr := by
    rw [show (s.pushed i).fn.defCount r = _ from s.fn.defCount_pushed s.current i h.current r]
    by_cases hdef : i.def? = some r
    · have hzero := Function.defCount_eq_zero ((hi.fresh r hdef).resolve_left hr)
      simp [hdef, hzero]
    · simpa [hdef] using h.single r hr
  scopes t ht := by
    have hfree := h.scopes t ht
    refine ⟨hfree.pos, (s.fn.blockCount_pushed s.current i).symm ▸ hfree.lt, hfree.avail, fun j hj => ?_⟩
    rcases s.fn.mem_code_pushed s.current i hj with hj | ⟨rfl, rfl⟩
    · exact hfree.phi j hj
    · exact Bool.eq_false_iff.mpr fun hphi => (hi.phi hphi).2.1 ht

end Lowering.Sound

-- ════════════════════════════════════════════════════════════════════════
-- The other ways to grow
-- ════════════════════════════════════════════════════════════════════════

namespace Lowering

variable {avail : Avail} {s : Lowering}

/-- A register that an instruction writes was handed out. -/
theorem Sound.lt_of_defines (h : s.Sound avail) {r : Reg} (hr : s.fn.Defines r) : r < s.fn.regCount := by
  obtain ⟨b, hb⟩ := hr
  obtain ⟨i, hi, hdef⟩ := mem_defsOf.mp hb
  exact (h.below b i hi).dst r hdef

/-- What is available at the end of the current block was handed out. -/
theorem Sound.lt_of_now (h : s.Sound avail) {r : Reg} (hr : s.Now avail r) : r < s.fn.regCount :=
  h.lt_of_defines (hr.2.elim (fun hr => (h.defined _ r hr).2.2.1) fun hr => ⟨_, hr⟩)

/-- What depends on the instructions alone carries over to a state with the same instructions, more
blocks, more registers and more variables, as long as the new variables have new registers. -/
theorem Sound.extend {s' : Lowering} (h : s.Sound avail) (hnumbered : s'.fn.Numbered) (hentry : s'.fn.entry = s.fn.entry)
    (hversions : s'.fn.paramVersions = s.fn.paramVersions)
    (hcode : s'.fn.code = s.fn.code) (hdefs : s'.fn.defCount = s.fn.defCount)
    (hblocks : s.fn.blockCount ≤ s'.fn.blockCount) (hregs : s.fn.regCount ≤ s'.fn.regCount)
    (hvars : s'.fn.VarsApart) (hnames : (s'.fn.vars.map (·.name)).Nodup)
    (hisVar : ∀ r, s.fn.IsVarReg r → s'.fn.IsVarReg r)
    (hnotVar : ∀ r, s'.fn.IsVarReg r → s.fn.IsVarReg r ∨ s.fn.regCount ≤ r)
    (hcurrent : s'.current < s'.fn.blockCount) (hscopes : ∀ t ∈ s'.scopes, t ∈ s.scopes) :
    s'.Sound avail := by
  -- A register that is written does not become a variable.
  have hstays : ∀ r, s.fn.Defines r → ¬ s.fn.IsVarReg r → ¬ s'.fn.IsVarReg r := by
    intro r hdef hr hr'
    rcases hnotVar r hr' with hr' | hge
    · exact hr hr'
    · exact Nat.not_lt.mpr hge (h.lt_of_defines hdef)
  have hbelow : ∀ {operand : Operand}, operand.Below s.fn.regCount →
      operand.Below s'.fn.regCount := fun ho r hr => Nat.lt_of_lt_of_le (ho r hr) hregs
  have hdefines : ∀ r, s.fn.Defines r → s'.fn.Defines r := by
    simp only [Function.Defines, hcode]
    exact fun _ => id
  exact {
    numbered := hnumbered
    entry := hentry.trans h.entry
    unversioned := hversions.trans h.unversioned
    current := hcurrent
    vars := hvars
    names := hnames
    below := by
      rw [hcode]
      intro b i hi
      obtain ⟨hdst, hsrc1, hsrc2, hargs⟩ := h.below b i hi
      exact ⟨hbelow hdst, hbelow hsrc1, hbelow hsrc2, fun arg harg => hbelow (hargs arg harg)⟩
    formed := hcode ▸ h.formed
    last := hcode ▸ h.last
    uses := by
      rw [hcode]
      exact fun b pre i post hsplit r hr => (h.uses b pre i post hsplit r hr).imp (hisVar r) id
    edges := by
      rw [hcode]
      intro b i hi t ht
      obtain ⟨hpos, hlt, hav⟩ := h.edges b i hi t ht
      exact ⟨hpos, Nat.lt_of_lt_of_le hlt hblocks, hav⟩
    defined b r hr := by
      obtain ⟨hpos, hlt, hdef, hvar⟩ := h.defined b r hr
      exact ⟨hpos, Nat.lt_of_lt_of_le hlt hblocks, hdefines r hdef, hstays r hdef hvar⟩
    phiHead b i hi hphi := by
      rw [hcode] at hi
      exact (h.phiHead b i hi hphi).of_code (List.mem_of_mem_head? hi) hcode hstays
    phiTail := hcode ▸ h.phiTail
    single r hr := by
      rw [hdefs]
      exact h.single r fun hr' => hr (hisVar r hr')
    scopes t ht := by
      obtain ⟨hpos, hlt, hav, hphi⟩ := h.scopes t (hscopes t ht)
      exact ⟨hpos, Nat.lt_of_lt_of_le hlt hblocks, hav, by rw [hcode]; exact hphi⟩ }

/-- The state with a block appended. -/
def grown (s : Lowering) (label : String) : Lowering := { s with fn := s.fn.grown label }

theorem Sound.grown (h : s.Sound avail) (label : String) : (s.grown label).Sound avail := by
  have hcount : (s.grown label).fn.blockCount = s.fn.blockCount + 1 := s.fn.blockCount_grown label
  refine h.extend (h.numbered.newBlock _) rfl rfl (funext (s.fn.code_grown label)) (funext (s.fn.defCount_grown label)) ?_
    (Nat.le_refl _) ⟨h.vars.lt, h.vars.nodup⟩ h.names (fun _ => id) (fun _ => .inl) ?_
    (fun _ => id)
  · omega
  · rw [hcount]
    exact Nat.lt_succ_of_lt h.current

/-- The state after a register was handed out. -/
def withReg (s : Lowering) : Lowering := { s with fn := s.fn.newReg.2 }

theorem Sound.withReg (h : s.Sound avail) : s.withReg.Sound avail :=
  h.extend h.numbered rfl rfl rfl rfl (Nat.le_refl _) (Nat.le_succ _)
    ⟨fun var hvar => Nat.lt_succ_of_lt (h.vars.lt var hvar), h.vars.nodup⟩ h.names (fun _ => id)
    (fun _ => .inl) h.current (fun _ => id)

/-- The state after a variable was looked up. -/
def withVar (s : Lowering) (name : Name) (ty : Option TypeId) : Lowering :=
  { s with fn := (s.fn.varLookup name ty).2 }

/-- A variable that is looked up was there, or is new and gets a new register. -/
theorem varLookup_cases (f : Function) (name : Name) (ty : Option TypeId) :
    (∃ var ∈ f.vars, var.name = name ∧ f.varLookup name ty = (var.reg, f)) ∨
      (∀ var ∈ f.vars, var.name ≠ name) ∧ f.varLookup name ty = (f.regCount,
        { f with regCount := f.regCount + 1, vars := f.vars ++ [{ name, reg := f.regCount, ty }] }) := by
  cases hfind : f.vars.find? (·.name == name) with
  | some var =>
    have hname : var.name = name := by simpa using List.find?_some hfind
    exact .inl ⟨var, List.mem_of_find?_eq_some hfind, hname, by simp [Function.varLookup, hfind]⟩
  | none =>
    refine .inr ⟨fun var hvar heq => ?_, by simp [Function.varLookup, hfind, Function.newReg]⟩
    have hnone := List.find?_eq_none.mp hfind var hvar
    simp [heq] at hnone

theorem blocks_withVar (s : Lowering) (name : Name) (ty : Option TypeId) :
    (s.withVar name ty).fn.blocks = s.fn.blocks := by
  rcases varLookup_cases s.fn name ty with ⟨_, _, _, heq⟩ | ⟨_, heq⟩ <;> rw [withVar, heq]

theorem code_withVar (s : Lowering) (name : Name) (ty : Option TypeId) :
    (s.withVar name ty).fn.code = s.fn.code := by
  funext b
  rw [Function.code, Function.code, blocks_withVar]

/-- Looking up a variable keeps registers and names of variables apart. -/
theorem varsApart_varLookup {f : Function} (h : f.VarsApart) (hnames : (f.vars.map (·.name)).Nodup)
    (name : Name) (ty : Option TypeId) : (f.varLookup name ty).2.VarsApart ∧
      ((f.varLookup name ty).2.vars.map (·.name)).Nodup := by
  rcases varLookup_cases f name ty with ⟨_, _, _, heq⟩ | ⟨hnew, heq⟩
  · rw [heq]
    exact ⟨h, hnames⟩
  · rw [heq]
    refine ⟨⟨?_, ?_⟩, ?_⟩
    · intro var hvar
      rcases List.mem_append.mp hvar with hvar | hvar
      · exact Nat.lt_succ_of_lt (h.lt var hvar)
      · rw [List.mem_singleton.mp hvar]
        exact Nat.lt_succ_self _
    · rw [List.map_append, List.nodup_append]
      refine ⟨h.nodup, by simp, fun a ha b hb => ?_⟩
      obtain ⟨var, hvar, rfl⟩ := List.mem_map.mp ha
      obtain rfl : b = f.regCount := by simpa using hb
      exact Nat.ne_of_lt (h.lt var hvar)
    · rw [List.map_append, List.nodup_append]
      refine ⟨hnames, by simp, fun a ha b hb => ?_⟩
      obtain ⟨var, hvar, rfl⟩ := List.mem_map.mp ha
      obtain rfl : b = name := by simpa using hb
      exact hnew var hvar

theorem Sound.withVar (h : s.Sound avail) (name : Name) (ty : Option TypeId) :
    (s.withVar name ty).Sound avail := by
  obtain ⟨hvars, hnames⟩ := varsApart_varLookup h.vars h.names name ty
  rcases varLookup_cases s.fn name ty with ⟨var, _, _, heq⟩ | ⟨_, heq⟩
  · rw [Lowering.withVar, heq]
    exact h
  · rw [heq] at hvars hnames
    rw [Lowering.withVar, heq]
    refine h.extend h.numbered rfl rfl rfl rfl (Nat.le_refl _) (Nat.le_succ _) hvars hnames ?_ ?_ h.current
      (fun _ => id)
    · rintro r ⟨var, hvar, rfl⟩
      exact ⟨var, List.mem_append_left _ hvar, rfl⟩
    · rintro r ⟨var, hvar, rfl⟩
      rcases List.mem_append.mp hvar with hvar | hvar
      · exact .inl ⟨var, hvar, rfl⟩
      · rw [List.mem_singleton.mp hvar]
        exact .inr (Nat.le_refl _)

/-- A variable that was looked up is there. -/
theorem exists_mem_withVar (s : Lowering) (name : Name) (ty : Option TypeId) :
    ∃ var ∈ (s.withVar name ty).fn.vars, var.name = name ∧ var.reg = (s.fn.varLookup name ty).1 := by
  rcases varLookup_cases s.fn name ty with ⟨var, hvar, hname, heq⟩ | ⟨_, heq⟩
  · rw [Lowering.withVar, heq]
    exact ⟨var, hvar, hname, rfl⟩
  · rw [Lowering.withVar, heq]
    exact ⟨_, List.mem_append_right _ List.mem_cons_self, rfl, rfl⟩

/-- The register of a variable that was looked up belongs to a variable. -/
theorem isVarReg_withVar (s : Lowering) (name : Name) (ty : Option TypeId) :
    (s.withVar name ty).fn.IsVarReg (s.fn.varLookup name ty).1 := by
  obtain ⟨var, hvar, _, hreg⟩ := s.exists_mem_withVar name ty
  exact ⟨var, hvar, hreg⟩

/-- Another block may become the current one. -/
theorem Sound.switch (h : s.Sound avail) {b : BlockId} (hb : b < s.fn.blockCount) :
    Sound avail { s with current := b } :=
  h.extend h.numbered rfl rfl rfl rfl (Nat.le_refl _) (Nat.le_refl _) h.vars h.names (fun _ => id) (fun _ => .inl)
    hb (fun _ => id)

/-- Where a block is empty and no edge leads to it, registers may be made available. -/
theorem Sound.provide (h : s.Sound avail) {t : BlockId} {now : Reg → Prop} (hpos : 0 < t)
    (hlt : t < s.fn.blockCount) (hcode : s.fn.code t = []) (hedges : ∀ x, ¬ s.fn.LeadsTo x t)
    (hscopes : t ∉ s.scopes) (hnow : ∀ r, now r → s.fn.Defines r ∧ ¬ s.fn.IsVarReg r) :
    s.Sound fun b => if b = t then now else avail b := by
  refine ⟨h.numbered, h.entry, h.unversioned, h.current, h.vars, h.names, h.below, h.formed, h.last, ?_, ?_, ?_, h.phiHead,
    h.phiTail, h.single, ?_⟩
  · intro b pre i post hsplit r hr
    have hb : b ≠ t := by
      rintro rfl
      rw [hcode] at hsplit
      simp at hsplit
    rw [if_neg hb]
    exact h.uses b pre i post hsplit r hr
  · intro b i hi u hu
    have hb : b ≠ t := by
      rintro rfl
      rw [hcode] at hi
      cases hi
    have hne : u ≠ t := by
      rintro rfl
      exact hedges b ⟨i, hi, hu⟩
    rw [if_neg hb, if_neg hne]
    exact h.edges b i hi u hu
  · intro b r hr
    by_cases hb : b = t
    · rw [if_pos hb] at hr
      rw [hb]
      exact ⟨hpos, hlt, hnow r hr⟩
    · rw [if_neg hb] at hr
      exact h.defined b r hr
  · intro u hu
    have hne : u ≠ t := by
      rintro rfl
      exact hscopes hu
    obtain ⟨hpos', hlt', hav, hphi⟩ := h.scopes u hu
    exact ⟨hpos', hlt', by simpa [hne] using hav, hphi⟩

end Lowering

end MiddleEnd
