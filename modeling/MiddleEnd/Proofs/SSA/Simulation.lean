import MiddleEnd.Proofs.SSA.Conversion
import MiddleEnd.Proofs.Semantics.Machine

/-!
# Single assignment form keeps the meaning

A function and its conversion run in step. While they do, every register that belongs to no variable
holds the same value on both sides, and the register of a variable holds on one side what its version in
force holds on the other.

## Main definitions

* `Function.Runnable`: what the machine needs to know about the function before the conversion.
* `Versions.Agree`: how the registers of both sides correspond.
* `Conversion.Matches`: how the configurations of both sides correspond.

## Main statements

* `Versions.Agree.execute`: the instructions of a block, renamed or not, do the same.
* `Conversion.Matches.step`: executing one block.
* `Conversion.Matches.run`: executing any number of blocks.
-/

namespace MiddleEnd

/-- A plain function that the machine can run: control does not come back to the entry, every block
ends in its only terminator, all registers were handed out, and the phis at the heads of blocks have
nothing to do with variables. -/
structure Function.Runnable (f : Function) : Prop extends f.Plain where
  preds_entry : f.preds f.entry = []
  below : ∀ (b : BlockId) block, f.blocks[b]? = some block → ∀ i ∈ block.instrs,
    i.Below f.regCount
  phi : ∀ (b : BlockId) block, f.blocks[b]? = some block → ∀ phi ∈ block.phis,
    phi.dst.owner? f.owners = none ∧ ∀ arg ∈ phi.phiArgs, arg.value.owner? f.owners = none
  ends : ∀ (b : BlockId) block, f.blocks[b]? = some block → ∃ front last,
    block.instrs = front ++ [last] ∧ last.isTerminator = true ∧ last.dst = .none ∧
      (∀ i ∈ front, i.isTerminator = false) ∧ ∀ t ∈ last.targets, t ∈ f.succs b

/-- What is behind the phis of a block ends in its only terminator. -/
theorem Function.Runnable.body_eq {f : Function} (h : f.Runnable) {b : BlockId} {block : Block}
    (hblock : f.blocks[b]? = some block) : ∃ front last, block.body = front ++ [last] ∧
      last.isTerminator = true ∧ last.dst = .none ∧ (∀ i ∈ front, i.isTerminator = false) ∧
      ∀ t ∈ last.targets, t ∈ f.succs b := by
  obtain ⟨front, last, hinstrs, hlast, hdst, hfront, htargets⟩ := h.ends b block hblock
  refine ⟨front.dropWhile (·.isPhi), last, ?_, hlast, hdst,
    fun i hi => hfront i (List.dropWhile_subset _ hi), htargets⟩
  have hnotPhi := last.isPhi_of_isTerminator hlast
  rw [Block.body, hinstrs, List.dropWhile_append]
  by_cases hall : (front.dropWhile (·.isPhi)).isEmpty
  · simp [hnotPhi, List.isEmpty_iff.mp hall]
  · simp [hall]

/-- At the start of a call the register of a parameter holds its argument, and that of any other variable
holds zero. -/
theorem Function.VarsApart.initialRegs_eq {V S : Type} {sem : Semantics V S} {f : Function} (h : f.VarsApart)
    {var : Variable} (hvar : var ∈ f.vars) (args : Name → V) :
    initialRegs sem ((f.vars.filter (·.isParam)).map fun var => (var.reg, var.name)) args var.reg =
      if var.isParam then args var.name else sem.zero := by
  have hreg : ∀ other ∈ f.vars, other.reg = var.reg → other = var := fun other hother heq =>
    List.inj_on_of_nodup_map h.nodup hother hvar heq
  split
  · next hparam =>
    refine initialRegs_of_mem sem args
      (List.mem_map.mpr ⟨var, List.mem_filter.mpr ⟨hvar, hparam⟩, rfl⟩) fun other hother => ?_
    obtain ⟨var', hvar', heq⟩ := List.mem_map.mp hother
    obtain ⟨hregs, rfl⟩ := Prod.mk.inj heq
    rw [hreg var' (List.mem_of_mem_filter hvar') hregs]
  · next hparam =>
    refine initialRegs_of_not_mem sem fun home hhome heq => hparam ?_
    obtain ⟨var', hvar', rfl⟩ := List.mem_map.mp hhome
    obtain ⟨hmem, hparam'⟩ := List.mem_filter.mp hvar'
    rwa [← hreg var' hmem heq]

-- ════════════════════════════════════════════════════════════════════════
-- Agreement
-- ════════════════════════════════════════════════════════════════════════

namespace Versions

variable {V S : Type}

/-- The versions of the variables were handed out after the registers of the function and before the
next one. -/
def Bounded (s : Versions) (f : Function) : Prop :=
  s.versionStacks.size = f.vars.length ∧ f.regCount ≤ s.nextReg ∧
    ∀ v, ∀ r ∈ s.stack v, f.regCount ≤ r ∧ r < s.nextReg

theorem Bounded.pushAll {s : Versions} {f : Function} (h : s.Bounded f) (vs : List VarId) :
    (s.pushAll vs).Bounded f := by
  obtain ⟨hsize, hlow, hstack⟩ := h
  refine ⟨by rw [size_pushAll, hsize], by rw [nextReg_pushAll]; exact Nat.le_add_right_of_le hlow,
    fun v r hr => ?_⟩
  rcases s.mem_stack_pushAll hr with hr | ⟨hge, hlt⟩
  · obtain ⟨hr₁, hr₂⟩ := hstack v r hr
    exact ⟨hr₁, by rw [nextReg_pushAll]; exact Nat.lt_add_right _ hr₂⟩
  · exact ⟨Nat.le_trans hlow hge, hlt⟩

/-- The registers `after` hold what the registers `before` hold: a register that belongs to no variable
holds the same, and the version in force of each of the variables in `known` holds what the register of
the variable holds. -/
structure Agree (s : Versions) (f : Function) (sem : Semantics V S) (known : VarId → Prop)
    (before after : Reg → V) : Prop where
  temp : ∀ r, r < f.regCount → ¬ f.IsVarReg r → after r = before r
  var : ∀ v var, f.vars[v]? = some var → known v →
    (s.reading v var.ty).value sem after = before var.reg

/-- What a use reads does not depend on the type it is used at. -/
theorem value_reading (s : Versions) (sem : Semantics V S) (regs : Reg → V) (v : VarId)
    (ty ty' : Option TypeId) : (s.reading v ty).value sem regs = (s.reading v ty').value sem regs := by
  unfold reading
  split <;> rfl

end Versions

/-- An operand that belongs to no variable is no register of one. -/
theorem not_isVarReg_of_owner? {f : Function} (h : f.VarsApart) {r : Reg} {ty : Option TypeId}
    (hr : (Operand.reg r ty).owner? f.owners = none) : ¬ f.IsVarReg r := by
  rintro ⟨var, hmem, rfl⟩
  obtain ⟨v, hv⟩ := List.mem_iff_getElem?.mp hmem
  have hsome : (Operand.reg var.reg ty).owner? f.owners = some v :=
    (Function.owner?_eq_some_iff h).mpr ⟨var, ty, hv, rfl⟩
  rw [hr] at hsome
  cases hsome

namespace Versions.Agree

variable {V S : Type} {f : Function} {sem : Semantics V S} {known : VarId → Prop} {s : Versions}
  {before after : Reg → V}

/-- An operand that belongs to no variable has the same value on both sides. -/
theorem value_of_owner? (h : s.Agree f sem known before after) (hvars : f.VarsApart)
    {operand : Operand} (hbelow : operand.Below f.regCount)
    (hnone : operand.owner? f.owners = none) :
    operand.value sem after = operand.value sem before := by
  cases operand with
  | reg r ty => exact h.temp r (hbelow r rfl) (not_isVarReg_of_owner? hvars hnone)
  | _ => rfl

/-- A renamed operand has the value of the operand. -/
theorem value_renamed (h : s.Agree f sem (fun _ => True) before after) (hvars : f.VarsApart)
    {operand : Operand} (hbelow : operand.Below f.regCount) :
    (operand.renamed f.owners s).value sem after = operand.value sem before := by
  rw [Operand.renamed]
  cases howner : operand.owner? f.owners with
  | none => exact h.value_of_owner? hvars hbelow howner
  | some v =>
    obtain ⟨var, ty, hvar, rfl⟩ := (Function.owner?_eq_some_iff hvars).mp howner
    rw [value_reading s sem after v _ var.ty]
    exact h.var v var hvar trivial

/-- Writing a register that is no version in force does not change what a use reads. -/
theorem value_reading_setReg {r : Reg} {x : V} {v : VarId} {ty : Option TypeId}
    (hr : ∀ q ∈ s.stack v, q ≠ r) :
    (s.reading v ty).value sem (setReg after r x) = (s.reading v ty).value sem after := by
  unfold reading
  cases hhead : (s.stack v).head? with
  | none => rfl
  | some q =>
    have hne := hr q (List.mem_of_head? hhead)
    simp [Operand.value, setReg, hne]

/-- Writing a register that belongs to no variable on both sides. -/
theorem write_temp (h : s.Agree f sem known before after) (hvars : f.VarsApart)
    (hbounded : s.Bounded f) {dst : Operand} (hbelow : dst.Below f.regCount)
    (hnone : dst.owner? f.owners = none) (x : V) :
    s.Agree f sem known (dst.write before x) (dst.write after x) := by
  cases dst with
  | reg r ty =>
    have hr := not_isVarReg_of_owner? hvars hnone
    have hlt := hbelow r rfl
    refine ⟨fun q hq hvar => ?_, fun v var hv hknown => ?_⟩
    · by_cases hqr : q = r
      · simp [Operand.write, setReg, hqr]
      · simp [Operand.write, setReg, hqr, h.temp q hq hvar]
    · have hfresh : ∀ q ∈ s.stack v, q ≠ r := by
        rintro q hq rfl
        exact absurd hlt (Nat.not_lt.mpr (hbounded.2.2 v q hq).1)
      have hne : var.reg ≠ r := by
        rintro rfl
        exact hr ⟨var, List.mem_of_getElem? hv, rfl⟩
      simp only [Operand.write, value_reading_setReg hfresh, h.var v var hv hknown, setReg,
        if_neg hne]
  | _ => exact h

/-- Writing a variable on one side and a new version of it on the other. -/
theorem write_version (h : s.Agree f sem known before after) (hvars : f.VarsApart)
    (hbounded : s.Bounded f) {v : VarId} {var : Variable} (hvar : f.vars[v]? = some var)
    (x : V) : (s.push v).Agree f sem (fun u => u = v ∨ known u) (setReg before var.reg x)
      (setReg after s.nextReg x) := by
  obtain ⟨hsize, hlow, hstack⟩ := hbounded
  have hv : v < s.versionStacks.size := by
    rw [hsize]
    exact (List.getElem?_eq_some_iff.mp hvar).1
  refine ⟨fun q hq hnot => ?_, fun u var' hu hknown => ?_⟩
  · have hne : q ≠ var.reg := by
      rintro rfl
      exact hnot ⟨var, List.mem_of_getElem? hvar, rfl⟩
    have hne' : q ≠ s.nextReg := Nat.ne_of_lt (Nat.lt_of_lt_of_le hq hlow)
    simp [setReg, hne, hne', h.temp q hq hnot]
  · by_cases huv : u = v
    · subst huv
      obtain rfl := Option.some.inj (hvar.symm.trans hu)
      simp [reading, s.stack_push_self u hv, Operand.value, setReg]
    · -- Another variable has another register, and its versions are older.
      have hne : var'.reg ≠ var.reg := fun heq => huv (hvars.inj hu hvar heq)
      have hfresh : ∀ q ∈ s.stack u, q ≠ s.nextReg := fun q hq => Nat.ne_of_lt (hstack u q hq).2
      have hsame : (s.push v).reading u var'.ty = s.reading u var'.ty := by
        rw [reading, reading, s.stack_push_ne v u (Ne.symm huv)]
      rw [hsame, value_reading_setReg hfresh, h.var u var' hu (hknown.resolve_left huv)]
      simp [setReg, hne]

/-- Writing the destination of an instruction, renamed or not. -/
theorem write_dst (h : s.Agree f sem (fun _ => True) before after) (hvars : f.VarsApart)
    (hbounded : s.Bounded f) {dst : Operand} (hbelow : dst.Below f.regCount) (x : V) :
    (s.pushAll (dst.owner? f.owners).toList).Agree f sem (fun _ => True) (dst.write before x)
      ((dst.redirected s (dst.owner? f.owners)).write after x) := by
  cases howner : dst.owner? f.owners with
  | none => exact h.write_temp hvars hbounded hbelow howner x
  | some v =>
    obtain ⟨var, ty, hvar, rfl⟩ := (Function.owner?_eq_some_iff hvars).mp howner
    have hwrite := h.write_version hvars hbounded hvar x
    exact ⟨hwrite.temp, fun u var' hu _ => hwrite.var u var' hu (.inr trivial)⟩

-- ════════════════════════════════════════════════════════════════════════
-- Instructions
-- ════════════════════════════════════════════════════════════════════════

/-- A renamed instruction leaves the block in the same way. -/
theorem exit_renamed (h : s.Agree f sem (fun _ => True) before after) (hvars : f.VarsApart)
    {i : Instr} (hbelow : i.src1.Below f.regCount) :
    (renamedInstr f.owners i s).1.exit sem after = i.exit sem before := by
  have hvalue := h.value_renamed hvars hbelow
  unfold Instr.exit
  simp only [renamedInstr, hvalue, Operand.label?_renamed]
  rfl

/-- A renamed instruction computes the same. -/
theorem result_renamed (h : s.Agree f sem (fun _ => True) before after) (hvars : f.VarsApart)
    {i : Instr} (hsrc1 : i.src1.Below f.regCount) (hsrc2 : i.src2.Below f.regCount) (ext : S) :
    (renamedInstr f.owners i s).1.result sem after ext = i.result sem before ext ∧
      (renamedInstr f.owners i s).1.event sem after = i.event sem before := by
  have hty : (renamedInstr f.owners i s).1.dst.ty? = i.dst.ty? := by
    simp only [renamedInstr, Operand.redirected]
    split <;> rfl
  constructor
  · rw [Instr.result, Instr.result, hty]
    simp only [renamedInstr, h.value_renamed hvars hsrc1, h.value_renamed hvars hsrc2]
  · rw [Instr.event, Instr.event, hty]
    simp only [renamedInstr, h.value_renamed hvars hsrc1, h.value_renamed hvars hsrc2]

/-- Instructions of which only the last is a terminator do the same when they are renamed. -/
theorem execute (h : s.Agree f sem (fun _ => True) before after) (body : List Instr)
    (hvars : f.VarsApart) (hbounded : s.Bounded f)
    (hbelow : ∀ i ∈ body, i.dst.Below f.regCount ∧ i.src1.Below f.regCount ∧
      i.src2.Below f.regCount)
    (hlast : ∀ i ∈ body.dropLast, i.isTerminator = false)
    (hdst : ∀ i ∈ body, i.isTerminator = true → i.dst = .none) (ext : S) :
    (execute sem (threaded (renamedInstr f.owners) body s).1 after ext).2 =
        (execute sem body before ext).2 ∧
      (threaded (renamedInstr f.owners) body s).2.Agree f sem (fun _ => True)
        (execute sem body before ext).1
        (execute sem (threaded (renamedInstr f.owners) body s).1 after ext).1 ∧
      executeEvents sem (threaded (renamedInstr f.owners) body s).1 after ext =
        executeEvents sem body before ext := by
  induction body generalizing s before after ext with
  | nil => exact ⟨rfl, h, rfl⟩
  | cons i rest ih =>
    obtain ⟨hbelow₀, hbelow₁, hbelow₂⟩ := hbelow i List.mem_cons_self
    obtain ⟨hresult, hevent⟩ := h.result_renamed hvars hbelow₁ hbelow₂ ext
    have hterm : (renamedInstr f.owners i s).1.isTerminator = i.isTerminator := rfl
    cases hi : i.isTerminator with
    | true =>
      -- Nothing follows a terminator, and it writes nothing.
      have hrest : rest = [] := by
        cases rest with
        | nil => rfl
        | cons j rest =>
          have hfalse := hlast i (by simp)
          rw [hi] at hfalse
          cases hfalse
      subst hrest
      have hnone := hdst i List.mem_cons_self hi
      have hstate : (renamedInstr f.owners i s).2 = s := by
        simp [renamedInstr, hnone, Operand.owner?, Operand.reg?]
      simp only [threaded, MiddleEnd.execute, executeEvents, hterm, hi, if_true,
        h.exit_renamed hvars hbelow₁, hevent, hstate, true_and, and_true]
      exact h
    | false =>
      have hwrite := h.write_dst hvars hbounded hbelow₀ (i.result sem before ext).1
      have hlast' : ∀ j ∈ rest.dropLast, j.isTerminator = false := by
        intro j hj
        cases rest with
        | nil => cases hj
        | cons k rest => exact hlast j (by simp [hj])
      obtain ⟨ih₁, ih₂, ih₃⟩ := ih hwrite (hbounded.pushAll _)
        (fun j hj => hbelow j (List.mem_cons_of_mem _ hj)) hlast'
        (fun j hj => hdst j (List.mem_cons_of_mem _ hj)) (i.result sem before ext).2
      simp only [threaded, MiddleEnd.execute, executeEvents, hterm, hi, hresult, hevent]
      exact ⟨ih₁, ih₂, congrArg _ ih₃⟩

end Versions.Agree

-- ════════════════════════════════════════════════════════════════════════
-- Phis
-- ════════════════════════════════════════════════════════════════════════

namespace Conversion

variable {V S : Type} {f g : Function} {c : Conversion f} {sem : Semantics V S}
  {before after : Reg → V} {b : BlockId}

theorem mem_joinCode {entries : List (Variable × VarId)} {r : Reg} {phi : Instr}
    (h : phi ∈ c.joinCode b entries r) : ∃ entry r, phi = c.joinPhi b entry r := by
  induction entries generalizing r with
  | nil => cases h
  | cons entry entries ih =>
    rcases List.mem_cons.mp h with rfl | h
    · exact ⟨entry, r, rfl⟩
    · exact ih h

/-- The phis for variables write versions that hold what the variables hold. -/
theorem agree_joinCode {entries : List (Variable × VarId)} {s : Versions} {regs acc : Reg → V}
    {source : Option BlockId} (hvars : f.VarsApart)
    (h : s.Agree f sem (fun v => v ∉ entries.map (·.2)) before acc) (hbounded : s.Bounded f)
    (hentries : ∀ entry ∈ entries, f.vars[entry.2]? = some entry.1)
    (hincoming : ∀ entry ∈ entries, ∀ r,
      (c.joinPhi b entry r).incoming sem regs source = before entry.1.reg) :
    (s.pushAll (entries.map (·.2))).Agree f sem (fun _ => True) before
      ((c.joinCode b entries s.nextReg).foldl
        (fun acc phi => phi.dst.write acc (phi.incoming sem regs source)) acc) := by
  induction entries generalizing s acc with
  | nil => exact ⟨h.temp, fun v var hv _ => h.var v var hv (by simp)⟩
  | cons entry entries ih =>
    have hwrite := h.write_version hvars hbounded (hentries entry List.mem_cons_self)
      (before entry.1.reg)
    have hself : setReg before entry.1.reg (before entry.1.reg) = before := by
      funext q
      by_cases hq : q = entry.1.reg <;> simp [setReg, hq]
    rw [hself] at hwrite
    have hnext : (s.push entry.2).Agree f sem (fun v => v ∉ entries.map (·.2)) before
        (setReg acc s.nextReg (before entry.1.reg)) := by
      refine ⟨hwrite.temp, fun v var hv hnot => hwrite.var v var hv ?_⟩
      by_cases heq : v = entry.2
      · exact .inl heq
      · exact .inr (by simp only [List.map_cons, List.mem_cons, not_or]; exact ⟨heq, hnot⟩)
    have hrest := ih hnext (hbounded.pushAll [entry.2])
      (fun e he => hentries e (List.mem_cons_of_mem _ he))
      (fun e he => hincoming e (List.mem_cons_of_mem _ he))
    rw [joinCode, List.foldl_cons, hincoming entry List.mem_cons_self]
    exact hrest

/-- Phis that join no variable write the same on both sides. -/
theorem agree_plainPhis {phis : List Instr} {s : Versions} {accBefore accAfter : Reg → V}
    {source : Option BlockId} (hvars : f.VarsApart)
    (h : s.Agree f sem (fun _ => True) accBefore accAfter) (hbounded : s.Bounded f)
    (hphis : ∀ phi ∈ phis, phi.dst.Below f.regCount ∧ phi.dst.owner? f.owners = none ∧
      phi.incoming sem after source = phi.incoming sem before source) :
    s.Agree f sem (fun _ => True)
      (phis.foldl (fun acc phi => phi.dst.write acc (phi.incoming sem before source)) accBefore)
      (phis.foldl (fun acc phi => phi.dst.write acc (phi.incoming sem after source)) accAfter) := by
  induction phis generalizing accBefore accAfter with
  | nil => exact h
  | cons phi phis ih =>
    obtain ⟨hbelow, hnone, hsame⟩ := hphis phi List.mem_cons_self
    have hwrite := h.write_temp hvars hbounded hbelow hnone (phi.incoming sem before source)
    rw [List.foldl_cons, List.foldl_cons, hsame]
    exact ih hwrite fun q hq => hphis q (List.mem_cons_of_mem _ hq)

/-- What a phi that joins no variable takes is the same on both sides. -/
theorem incoming_eq {s : Versions} {known : VarId → Prop}
    (h : s.Agree f sem known before after) (hvars : f.VarsApart) {phi : Instr}
    (hbelow : ∀ arg ∈ phi.phiArgs, arg.value.Below f.regCount)
    (hnone : ∀ arg ∈ phi.phiArgs, arg.value.owner? f.owners = none) (source : Option BlockId) :
    phi.incoming sem after source = phi.incoming sem before source := by
  unfold Instr.incoming
  split
  · rename_i arg harg
    obtain ⟨p, _, hfind⟩ := Option.bind_eq_some_iff.mp harg
    have hmem := List.mem_of_find?_eq_some hfind
    exact h.value_of_owner? hvars (hbelow arg hmem) (hnone arg hmem)
  · rfl

/-- What a phi for a variable takes is the version in force where control comes from. -/
theorem incoming_joinPhi {p : BlockId} (hp : p ∈ f.preds b) (entry : Variable × VarId) (r : Reg) :
    (c.joinPhi b entry r).incoming sem after (some p) =
      ((c.fin p).reading entry.2 entry.1.ty).value sem after := by
  have hfind : (c.joinPhi b entry r).phiArgs.find? (·.pred = p) =
      some { value := (c.fin p).reading entry.2 entry.1.ty, pred := p } := by
    simp only [joinPhi, Instr.phi, Instr.phiArgs, List.find?_map]
    have hsome : (f.preds b).find? (fun q => decide (q = p)) = some p := by
      obtain ⟨q, hq⟩ := Option.isSome_iff_exists.mp
        (List.find?_isSome (p := fun q => decide (q = p)) |>.mpr ⟨p, hp, by simp⟩)
      have hqp : q = p := by simpa using List.find?_some hq
      rw [hq, hqp]
    have hcomp : ((fun x : PhiArg => decide (x.pred = p)) ∘ fun p : BlockId =>
        ({ value := (c.fin p).reading entry.2 entry.1.ty, pred := p } : PhiArg)) =
        fun q => decide (q = p) := rfl
    rw [hcomp, hsome]
    rfl
  simp [Instr.incoming, hfind]

-- ════════════════════════════════════════════════════════════════════════
-- Runs
-- ════════════════════════════════════════════════════════════════════════

/-- Both sides are at the same place: at the start of a call, at the end of an edge that control went
along, or at the end of the run. -/
inductive Matches (c : Conversion f) (sem : Semantics V S) : Config V S → Config V S → Prop where
  | start {before after : Reg → V} (ext : S) :
    (c.start f.entry).Agree f sem (fun _ => True) before after →
    c.Matches sem (.running f.entry none before ext) (.running f.entry none after ext)
  | edge {p b : BlockId} {before after : Reg → V} (ext : S) :
    f.Reachable p → b ∈ f.succs p → (c.fin p).Agree f sem (fun _ => True) before after →
    c.Matches sem (.running b (some p) before ext) (.running b (some p) after ext)
  | returned (value : V) (ext : S) : c.Matches sem (.returned value ext) (.returned value ext)
  | stuck (ext : S) : c.Matches sem (.stuck ext) (.stuck ext)

variable {source : Option BlockId}

/-- What is known where control comes to a block: the variables without a phi agree with the versions
at the start of the block, and the phis take what the other variables hold. -/
structure Arrives (c : Conversion f) (sem : Semantics V S) (b : BlockId) (source : Option BlockId)
    (before after : Reg → V) : Prop where
  reachable : f.Reachable b
  agree : (c.start b).Agree f sem (fun v => v ∉ (c.joinVars b).map (·.2)) before after
  incoming : ∀ entry ∈ c.joinVars b, ∀ r,
    (c.joinPhi b entry r).incoming sem after source = before entry.1.reg

theorem arrives_start (h : c.Valid g) (hrun : f.Runnable)
    (hagree : (c.start f.entry).Agree f sem (fun _ => True) before after) :
    c.Arrives sem f.entry none before after where
  reachable := f.reachable_entry
  agree := ⟨hagree.temp, fun v var hv _ => hagree.var v var hv trivial⟩
  incoming := by simp [h.joinVars_entry hrun.preds_entry]

theorem arrives_edge (h : c.Valid g) (hrun : f.Runnable) {p : BlockId} (hp : f.Reachable p)
    (hedge : b ∈ f.succs p) (hagree : (c.fin p).Agree f sem (fun _ => True) before after) :
    c.Arrives sem b (some p) before after where
  reachable := hp.succ hedge
  agree := by
    have hpred : p ∈ f.preds b := (hrun.linked.mem_preds p b).mpr hedge
    have hne : b ≠ f.entry := by
      rintro rfl
      rw [hrun.preds_entry] at hpred
      cases hpred
    refine ⟨hagree.temp, fun v var hv hnot => ?_⟩
    have hjoin : b ∉ c.framed.joinsOf var := fun hjoin =>
      hnot (List.mem_map.mpr ⟨(var, v), mem_joinVars.mpr ⟨hv, hjoin⟩, rfl⟩)
    have hsame : (c.start b).reading v var.ty = (c.fin p).reading v var.ty := by
      rw [Versions.reading, Versions.reading,
        h.stack_start_of_edge hrun.toPlain hp hedge hne hv hjoin]
    rw [hsame]
    exact hagree.var v var hv trivial
  incoming entry hentry r := by
    rw [incoming_joinPhi ((hrun.linked.mem_preds p b).mpr hedge)]
    exact hagree.var entry.2 entry.1 (mem_joinVars.mp hentry).1 trivial

/-- The versions at the start of a block were handed out before it. -/
theorem Valid.bounded_start (h : c.Valid g) (hb : b < f.blockCount) :
    (c.start b).Bounded f := by
  rw [← c.blockCount_placed] at hb
  exact ⟨h.renamed.size b hb, Nat.le_trans f.regCount_le_withEntryVersions (h.renamed.low b hb),
    h.renamed.bounded b hb⟩

theorem Arrives.lt_blockCount (harrives : c.Arrives sem b source before after) (hrun : f.Runnable) :
    b < f.blockCount :=
  harrives.reachable.lt_blockCount hrun.linked hrun.entry_lt

section Block

variable {block : Block}

/-- The phis that were there before take the same on both sides. -/
theorem Arrives.plainPhis (harrives : c.Arrives sem b source before after) (hrun : f.Runnable)
    (hblock : f.blocks[b]? = some block) : ∀ phi ∈ block.phis, phi.dst.Below f.regCount ∧
      phi.dst.owner? f.owners = none ∧
      phi.incoming sem after source = phi.incoming sem before source := by
  intro phi hphi
  obtain ⟨hdst, _, _, hargs⟩ := hrun.below b _ hblock phi (List.takeWhile_subset _ hphi)
  obtain ⟨hnone, hargs'⟩ := hrun.phi b _ hblock phi hphi
  exact ⟨hdst, hnone, incoming_eq harrives.agree hrun.vars hargs hargs' source⟩

/-- Behind the phis all variables agree with the versions in force there. -/
theorem Arrives.agree_mid (harrives : c.Arrives sem b source before after) (h : c.Valid g)
    (hrun : f.Runnable) (hblock : f.blocks[b]? = some block) :
    (c.mid b).Agree f sem (fun _ => True) (takePhis sem block.phis source before)
      (takePhis sem (c.joinCode b (c.joinVars b) (c.start b).nextReg ++ block.phis) source after) := by
  have hbounded := h.bounded_start (harrives.lt_blockCount hrun)
  rw [takePhis, takePhis, List.foldl_append]
  exact agree_plainPhis hrun.vars (agree_joinCode hrun.vars harrives.agree hbounded
    (fun entry hentry => (mem_joinVars.mp hentry).1) harrives.incoming)
    (hbounded.pushAll _) (harrives.plainPhis hrun hblock)

/-- The phis for variables are not observed, and the others show the same. -/
theorem Arrives.phiEvents_eq (harrives : c.Arrives sem b source before after) (hrun : f.Runnable)
    (hblock : f.blocks[b]? = some block) :
    phiEvents sem (c.joinCode b (c.joinVars b) (c.start b).nextReg ++ block.phis) source after =
      phiEvents sem block.phis source before := by
  have hjoins : (c.joinCode b (c.joinVars b) (c.start b).nextReg).filter (·.phiVar?.isNone) = [] :=
    List.filter_eq_nil_iff.mpr fun phi hphi => by
      obtain ⟨entry, r, rfl⟩ := mem_joinCode hphi
      simp [joinPhi, Instr.phi, Instr.phiVar?]
  rw [phiEvents, phiEvents, List.filter_append, hjoins, List.nil_append]
  refine List.map_congr_left fun phi hmem => ?_
  rw [(harrives.plainPhis hrun hblock phi (List.mem_of_mem_filter hmem)).2.2]

end Block

/-- Executing one block does the same on both sides, and leaves them at the same place. -/
theorem Arrives.step (harrives : c.Arrives sem b source before after) (h : c.Valid g)
    (hrun : f.Runnable) (ext : S) :
    c.Matches sem (f.step sem (.running b source before ext))
        (g.step sem (.running b source after ext)) ∧
      g.blockEvents sem (.running b source after ext) =
        f.blockEvents sem (.running b source before ext) := by
  have hb := harrives.lt_blockCount hrun
  have hblock : f.blocks[b]? = some f.blocks[b] := Array.getElem?_eq_getElem hb
  obtain ⟨block', hblock', hphis', hbody', hfin, -, -⟩ := h.getElem?_eq c hrun.toPlain hblock
  have hmid := harrives.agree_mid h hrun hblock
  have hphiEvents := harrives.phiEvents_eq hrun hblock
  rw [← hphis'] at hmid hphiEvents
  obtain ⟨front, last, hbody, hlast, hdst, hfront, htargets⟩ := hrun.body_eq hblock
  have hexec := hmid.execute f.blocks[b].body hrun.vars ((h.bounded_start hb).pushAll _)
    (fun i hi => by
      obtain ⟨h₀, h₁, h₂, _⟩ := hrun.below b _ hblock i (List.dropWhile_subset _ hi)
      exact ⟨h₀, h₁, h₂⟩)
    (by rwa [hbody, List.dropLast_concat])
    (by
      rw [hbody]
      intro i hi hterm
      rcases List.mem_append.mp hi with hi | hi
      · rw [hfront i hi] at hterm
        cases hterm
      · rw [List.mem_singleton.mp hi, hdst]) ext
  rw [← hbody', ← hfin] at hexec
  obtain ⟨hsame, hagree, hevents⟩ := hexec
  constructor
  · have hexit := execute_concat sem front last hfront hlast (takePhis sem f.blocks[b].phis source before) ext
    rw [← hbody] at hexit
    simp only [Function.step, hblock, hblock']
    generalize execute sem f.blocks[b].body _ _ = result at hsame hagree hexit
    generalize execute sem block'.body _ _ = result' at hsame hagree
    obtain ⟨regs, ext₁, exit₁⟩ := result
    obtain ⟨regs', rest'⟩ := result'
    obtain rfl : rest' = (ext₁, exit₁) := hsame
    cases exit₁ with
    | goto target =>
      have htarget := htargets target (Instr.mem_targets_of_exit hexit.symm)
      exact .edge ext₁ harrives.reachable htarget hagree
    | leave value => exact .returned value ext₁
    | fall => exact absurd hexit.symm (Instr.exit_ne_fall sem _ last)
    | nowhere => exact .stuck ext₁
  · simp only [Function.blockEvents, hblock, hblock', hevents, hphiEvents]

/-- Executing one block from matching places. -/
theorem Matches.step {config config' : Config V S} (hmatch : c.Matches sem config config')
    (h : c.Valid g) (hrun : f.Runnable) :
    c.Matches sem (f.step sem config) (g.step sem config') ∧
      g.blockEvents sem config' = f.blockEvents sem config ∧ config'.block? = config.block? := by
  cases hmatch with
  | start ext hagree =>
    obtain ⟨hstep, hevents⟩ := (arrives_start h hrun hagree).step h hrun ext
    exact ⟨hstep, hevents, rfl⟩
  | edge ext hp hedge hagree =>
    obtain ⟨hstep, hevents⟩ := (arrives_edge h hrun hp hedge hagree).step h hrun ext
    exact ⟨hstep, hevents, rfl⟩
  | returned value ext => exact ⟨.returned value ext, rfl, rfl⟩
  | stuck ext => exact ⟨.stuck ext, rfl, rfl⟩

/-- Executing any number of blocks from matching places: the same blocks are visited, the same
instructions are executed with the same values, and the places match again. -/
theorem Matches.run {config config' : Config V S} (hmatch : c.Matches sem config config')
    (h : c.Valid g) (hrun : f.Runnable) (n : Nat) :
    c.Matches sem (f.run sem n config) (g.run sem n config') ∧
      g.visited sem n config' = f.visited sem n config ∧
      g.events sem n config' = f.events sem n config := by
  induction n generalizing config config' with
  | zero => exact ⟨hmatch, rfl, rfl⟩
  | succ n ih =>
    obtain ⟨hstep, hevents, hblock⟩ := hmatch.step h hrun
    obtain ⟨ih₁, ih₂, ih₃⟩ := ih hstep
    refine ⟨ih₁, ?_, ?_⟩
    · rw [Function.visited, Function.visited, hblock, ih₂]
    · rw [Function.events, Function.events, hevents, ih₃]

theorem Matches.ext_eq {config config' : Config V S} (hmatch : c.Matches sem config config') :
    config'.ext = config.ext := by
  cases hmatch <;> rfl

theorem Matches.returned_eq {config config' : Config V S} (hmatch : c.Matches sem config config') :
    config'.returned? = config.returned? := by
  cases hmatch <;> rfl

/-- The entry versions of a function are at home where its conversion says. -/
theorem mem_entryHomes {homes : List (Option Reg)} {vars : List Variable} {r : Reg} {name : Name} :
    (r, name) ∈ ((vars.zip homes).filterMap fun entry => entry.2.map fun r => (r, entry.1.name)) ↔
      ∃ (v : VarId) (var : Variable), vars[v]? = some var ∧ homes[v]? = some (some r) ∧
        var.name = name := by
  rw [List.mem_filterMap]
  constructor
  · rintro ⟨⟨var, home⟩, hmem, heq⟩
    obtain ⟨v, hv⟩ := List.mem_iff_getElem?.mp hmem
    obtain ⟨hvar, hhome⟩ := List.getElem?_zip_eq_some.mp hv
    obtain ⟨q, rfl, hpair⟩ := Option.map_eq_some_iff.mp heq
    rw [Prod.mk.injEq] at hpair
    exact ⟨v, var, hvar, hpair.1 ▸ hhome, hpair.2⟩
  · rintro ⟨v, var, hvar, hhome, rfl⟩
    exact ⟨(var, some r), List.mem_iff_getElem?.mpr ⟨v, List.getElem?_zip_eq_some.mpr ⟨hvar, hhome⟩⟩,
      rfl⟩

/-- At the start of the first block the version in force of a parameter is its entry version, and the other
variables have none. -/
theorem Valid.stack_entry (h : c.Valid g) (hrun : f.Runnable) (v : VarId) :
    (c.start f.entry).stack v = (f.withEntryVersions.paramVersion? v).toList := by
  have hroot : c.placed.idom? f.entry = none := by
    rw [c.sameTree.idom]
    exact h.forest.idom_entry
  rw [Versions.stack, h.renamed.root f.entry (c.lt_placed hrun.entry_lt) hroot]
  exact c.placed.getD_entryStacks v

/-- The start of a call before the conversion matches the start after it. -/
theorem Valid.matches_enter (h : c.Valid g) (hrun : f.Runnable) (sem : Semantics V S)
    (args : Name → V) (ext : S) :
    c.Matches sem (f.enter sem args ext) (g.enterSsa sem args ext) := by
  rw [Function.enter, Function.enterSsa, h.entry_eq, h.vars_eq, h.paramVersions_eq]
  have hversion : ∀ v r, f.withEntryVersions.paramVersions[v]? = some (some r) ↔
      f.withEntryVersions.paramVersion? v = some r := by
    intro v r
    rw [Function.paramVersion?, Option.join_eq_some_iff]
  refine .start ext ⟨fun r hr hnot => ?_, fun v var hv _ => ?_⟩
  · rw [Function.initialRegs_of_not_mem, Function.initialRegs_of_not_mem]
    · intro home hhome heq
      obtain ⟨var, hvar, rfl⟩ := List.mem_map.mp hhome
      exact hnot ⟨var, List.mem_of_mem_filter hvar, heq⟩
    · rintro ⟨q, name⟩ hhome rfl
      obtain ⟨v, var, _, hq, _⟩ := mem_entryHomes.mp hhome
      exact absurd hr (Nat.not_lt.mpr (f.paramVersion?_bounds ((hversion v q).mp hq)).1)
  · rw [hrun.vars.initialRegs_eq (List.mem_of_getElem? hv), Versions.reading, h.stack_entry hrun]
    cases hparam : f.withEntryVersions.paramVersion? v with
    | some r =>
      obtain ⟨var', hvar', hisParam, _⟩ := f.paramVersion?_eq_some_iff.mp hparam
      obtain rfl := Option.some.inj (hv.symm.trans hvar')
      rw [if_pos hisParam]
      refine Function.initialRegs_of_mem sem args
        (mem_entryHomes.mpr ⟨v, var, hv, (hversion v r).mpr hparam, rfl⟩) fun other hother => ?_
      obtain ⟨u, var', hu, hr, rfl⟩ := mem_entryHomes.mp hother
      obtain rfl := f.paramVersion?_inj hparam ((hversion u r).mp hr)
      rw [Option.some.inj (hu.symm.trans hv)]
    | none =>
      refine (if_neg fun hisParam => ?_).symm
      have hsome := f.paramVersion?_eq_some_iff.mpr ⟨var, hv, hisParam, rfl⟩
      rw [hparam] at hsome
      cases hsome

end Conversion

end MiddleEnd
