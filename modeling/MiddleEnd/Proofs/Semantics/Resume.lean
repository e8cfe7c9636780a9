import MiddleEnd.Proofs.Lowering.Invariant
import MiddleEnd.Proofs.Semantics.Machine

/-!
# In the middle of a block

The machine executes a block at once. To follow what single instructions do, this module has the machine
behind the first instructions of a block, and the steps from one such place to the next.

## Main definitions

* `Function.resume`: what is left of a block is executed.
* `Function.Leads`: the machine gets from one place to another.

## Main statements

* `Function.resume_straight`, `Function.resume_terminator`: executing one instruction.
* `Function.step_plain`, `Function.step_phi`: entering a block.
-/

namespace MiddleEnd

namespace Function

variable {V S : Type} (sem : Semantics V S) (f : Function)

/-- What the machine does behind the first `k` instructions of a block. -/
def resume (b : BlockId) (k : Nat) (regs : Reg → V) (ext : S) : Config V S :=
  .after b (execute sem ((f.code b).drop k) regs ext)

/-- The machine gets from one place to another. -/
def Leads (c c' : Config V S) : Prop := ∃ n, f.run sem n c = c'

-- ════════════════════════════════════════════════════════════════════════
-- Runs
-- ════════════════════════════════════════════════════════════════════════

theorem run_add (m n : Nat) (c : Config V S) : f.run sem (m + n) c = f.run sem n (f.run sem m c) := by
  induction m generalizing c with
  | zero => rw [Nat.zero_add, run]
  | succ m ih => rw [Nat.succ_add, run, ih, run]

theorem run_returned (n : Nat) (value : V) (ext : S) :
    f.run sem n (.returned value ext) = .returned value ext := by
  induction n with
  | zero => rfl
  | succ n ih => exact ih

variable {sem f}

theorem Leads.refl (c : Config V S) : f.Leads sem c c := ⟨0, rfl⟩

theorem Leads.trans {c₁ c₂ c₃ : Config V S} (h : f.Leads sem c₁ c₂) (h' : f.Leads sem c₂ c₃) :
    f.Leads sem c₁ c₃ := by
  obtain ⟨m, rfl⟩ := h
  obtain ⟨n, rfl⟩ := h'
  exact ⟨m + n, f.run_add sem m n c₁⟩

theorem Leads.of_step {c c' : Config V S} (h : f.step sem c = c') : f.Leads sem c c' := ⟨1, h⟩

-- ════════════════════════════════════════════════════════════════════════
-- Instructions
-- ════════════════════════════════════════════════════════════════════════

variable {b : BlockId} {k : Nat} {i : Instr} {regs : Reg → V} {ext : S}

theorem drop_code (hi : (f.code b)[k]? = some i) : (f.code b).drop k = i :: (f.code b).drop (k + 1) := by
  obtain ⟨hlt, rfl⟩ := List.getElem?_eq_some_iff.mp hi
  exact List.drop_eq_getElem_cons hlt

/-- Executing an instruction that is no terminator. -/
theorem resume_straight (hi : (f.code b)[k]? = some i) (hstraight : i.isTerminator = false) :
    f.resume sem b k regs ext = f.resume sem b (k + 1) (i.dst.write regs (i.result sem regs ext).1)
      (i.result sem regs ext).2 := by
  rw [resume, drop_code hi, execute, hstraight]
  rfl

/-- Leaving a block at a terminator. -/
theorem resume_terminator (hi : (f.code b)[k]? = some i) (hterm : i.isTerminator = true) :
    f.resume sem b k regs ext = .after b (regs, ext, i.exit sem regs) := by
  rw [resume, drop_code hi, execute, hterm, if_pos rfl]

-- ════════════════════════════════════════════════════════════════════════
-- Blocks
-- ════════════════════════════════════════════════════════════════════════

variable {source : Option BlockId}

theorem takeWhile_isPhi_eq_nil {code : List Instr} (h : ∀ i ∈ code, i.isPhi = false) :
    code.takeWhile (·.isPhi) = [] := by
  cases code with
  | nil => rfl
  | cons i code => rw [List.takeWhile_cons_of_neg (by simp [h i List.mem_cons_self])]

/-- Entering a block without phis. -/
theorem step_plain (hb : b < f.blockCount) (hphi : ∀ i ∈ f.code b, i.isPhi = false) :
    f.step sem (.running b source regs ext) = f.resume sem b 0 regs ext := by
  have hblock : f.blocks[b]? = some f.blocks[b] := Array.getElem?_eq_getElem hb
  rw [code_of_getElem? hblock] at hphi
  have hphis : f.blocks[b].phis = [] := takeWhile_isPhi_eq_nil hphi
  have hbody : f.blocks[b].body = f.code b := by
    rw [code_eq_append hblock, hphis, List.nil_append]
  simp only [step, hblock, hphis, hbody]
  rfl

/-- Entering a block whose first instruction is its only phi. -/
theorem step_phi {phi : Instr} {rest : List Instr} (hcode : f.code b = phi :: rest)
    (hphi : phi.isPhi = true) (hrest : ∀ i ∈ rest, i.isPhi = false) :
    f.step sem (.running b source regs ext) =
      f.resume sem b 1 (phi.dst.write regs (phi.incoming sem regs source)) ext := by
  have hb : b < f.blockCount := lt_of_mem_code (i := phi) (by rw [hcode]; exact List.mem_cons_self)
  have hblock : f.blocks[b]? = some f.blocks[b] := Array.getElem?_eq_getElem hb
  have hinstrs : f.blocks[b].instrs = phi :: rest := by rw [← code_of_getElem? hblock, hcode]
  have hphis : f.blocks[b].phis = [phi] := by
    rw [Block.phis, hinstrs, List.takeWhile_cons_of_pos hphi, takeWhile_isPhi_eq_nil hrest]
  have hbody : f.blocks[b].body = (f.code b).drop 1 := by
    rw [code_eq_append hblock, hphis]
    rfl
  simp only [step, hblock, hphis, hbody]
  rfl

end Function

end MiddleEnd
