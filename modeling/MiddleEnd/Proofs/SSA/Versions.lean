import MiddleEnd.Proofs.Success
import MiddleEnd.SSA.Renaming

/-!
# Renaming a block

The renaming of one block as a total function. A block succeeds in being renamed when its phis join
variables that exist; then the versions in force afterwards are those before, with one more for each
instruction that wrote a variable.

## Main definitions

* `Function.owners`: which variable each register stands for.
* `Versions.stack`, `Versions.push`, `Versions.pushAll`: the versions of a variable, and new ones.
* `Versions.reading`, `Operand.renamed`: an operand after renaming.
* `renamedPhi`, `renamedInstr`, `renamedCode`: what renaming answers when it succeeds.

## Main statements

* `Function.varOfReg_eq`: when the owners of the registers can be told.
* `Function.owner?_eq_some_iff`: an operand belongs to a variable when it is the register of it.
* `renameInstrs_eq`: renaming a block succeeds with `renamedCode`.
* `Versions.pop_pushAll`: taking back the versions of a block restores the stacks.
-/

namespace MiddleEnd

-- ════════════════════════════════════════════════════════════════════════
-- Owners
-- ════════════════════════════════════════════════════════════════════════

/-- The registers of the variables were handed out, one to each variable. -/
structure Function.VarsApart (f : Function) : Prop where
  lt : ∀ var ∈ f.vars, var.reg < f.regCount
  nodup : (f.vars.map (·.reg)).Nodup

/-- Two variables with one register are the same. -/
theorem Function.VarsApart.inj {f : Function} (h : f.VarsApart) {u v : VarId} {a b : Variable}
    (hu : f.vars[u]? = some a) (hv : f.vars[v]? = some b) (hreg : a.reg = b.reg) : u = v := by
  have hu' : (f.vars.map (·.reg))[u]? = some a.reg := by rw [List.getElem?_map, hu]; rfl
  have hv' : (f.vars.map (·.reg))[v]? = some a.reg := by rw [List.getElem?_map, hv, hreg]; rfl
  exact (List.getElem?_inj (List.getElem?_eq_some_iff.mp hu').1 h.nodup).mp (hu'.trans hv'.symm)

/-- All registers of an operand were handed out. -/
def Operand.Below (operand : Operand) (count : Nat) : Prop :=
  ∀ r, operand.reg? = some r → r < count

/-- All registers of an instruction were handed out. -/
structure Instr.Below (i : Instr) (count : Nat) : Prop where
  dst : i.dst.Below count
  src1 : i.src1.Below count
  src2 : i.src2.Below count
  args : ∀ arg ∈ i.phiArgs, arg.value.Below count

instance (operand : Operand) (count : Nat) : Decidable (operand.Below count) :=
  inferInstanceAs (Decidable (∀ r ∈ operand.reg?, r < count))

instance (i : Instr) (count : Nat) : Decidable (i.Below count) :=
  decidable_of_iff (i.dst.Below count ∧ i.src1.Below count ∧ i.src2.Below count ∧
      ∀ arg ∈ i.phiArgs, arg.value.Below count)
    ⟨fun ⟨dst, src1, src2, args⟩ => ⟨dst, src1, src2, args⟩,
      fun h => ⟨h.dst, h.src1, h.src2, h.args⟩⟩

/-- A register belongs to some variable. -/
def Function.IsVarReg (f : Function) (r : Reg) : Prop := ∃ var ∈ f.vars, var.reg = r

/-- For each register the variable that it stands for, if every variable has one that was handed out. -/
def Function.owners (f : Function) : Array (Option VarId) :=
  f.vars.zipIdx.foldl (fun table (var, v) => table.setIfInBounds var.reg (some v))
    (Array.replicate f.regCount none)

/-- The owners of the registers can be told if the registers of all variables were handed out. -/
theorem Function.varOfReg_eq {f : Function} (h : ∀ var ∈ f.vars, var.reg < f.regCount) :
    f.varOfReg = .ok f.owners := by
  refine foldlM_eq_ok (P := fun table => table.size = f.regCount) (fun entry hentry table hsize => ?_)
    Array.size_replicate
  have hlt := h entry.1 (List.mem_of_getElem? (List.mem_zipIdx_iff_getElem?.mp hentry))
  exact ⟨if_pos (hsize.symm ▸ hlt), by rw [Array.size_setIfInBounds, hsize]⟩

/-- Entering variables with different registers one by one leaves each of them at its register, and
what was there before at all others. -/
theorem getElem?_foldl_owners {entries : List (Variable × VarId)} {table : Array (Option VarId)}
    {r : Reg} {v : VarId} (hnodup : (entries.map (·.1.reg)).Nodup)
    (hlt : ∀ entry ∈ entries, entry.1.reg < table.size) :
    (entries.foldl (fun table (var, v) => table.setIfInBounds var.reg (some v)) table)[r]? =
        some (some v) ↔
      (∃ entry ∈ entries, entry.1.reg = r ∧ entry.2 = v) ∨
        (∀ entry ∈ entries, entry.1.reg ≠ r) ∧ table[r]? = some (some v) := by
  induction entries generalizing table with
  | nil => simp
  | cons entry entries ih =>
    obtain ⟨var, u⟩ := entry
    rw [List.map_cons, List.nodup_cons] at hnodup
    have hvar : var.reg < table.size := hlt _ List.mem_cons_self
    rw [List.foldl_cons, ih hnodup.2 (by
      intro entry hentry
      simpa using hlt entry (List.mem_cons_of_mem _ hentry))]
    by_cases hr : var.reg = r
    · subst hr
      have hfree : ∀ entry ∈ entries, entry.1.reg ≠ var.reg := by
        intro entry hentry heq
        exact hnodup.1 (List.mem_map.mpr ⟨entry, hentry, heq⟩)
      constructor
      · rintro (⟨entry, hentry, heq, _⟩ | ⟨_, hget⟩)
        · exact absurd heq (hfree entry hentry)
        · rw [Array.getElem?_setIfInBounds_self_of_lt hvar] at hget
          exact .inl ⟨(var, u), List.mem_cons_self, rfl, by simpa using hget⟩
      · rintro (⟨entry, hentry, heq, hv⟩ | ⟨hno, _⟩)
        · rcases List.mem_cons.mp hentry with rfl | hentry
          · refine .inr ⟨hfree, ?_⟩
            rw [Array.getElem?_setIfInBounds_self_of_lt hvar, ← hv]
          · exact absurd heq (hfree entry hentry)
        · exact absurd rfl (hno (var, u) List.mem_cons_self)
    · rw [Array.getElem?_setIfInBounds_ne hr]
      simp [hr]

namespace Function

variable {f : Function}

/-- The owner of a register is the variable that has it. -/
theorem getElem?_owners (h : f.VarsApart) {r : Reg} {v : VarId} :
    f.owners[r]? = some (some v) ↔ ∃ var, f.vars[v]? = some var ∧ var.reg = r := by
  rw [owners, getElem?_foldl_owners]
  · have hnone : (Array.replicate f.regCount (none : Option VarId))[r]? ≠ some (some v) := by
      rw [Array.getElem?_replicate]
      split <;> simp
    simp only [hnone, and_false, or_false, List.mem_zipIdx_iff_getElem?]
    constructor
    · rintro ⟨⟨var, u⟩, hmem, hreg, rfl⟩
      exact ⟨var, hmem, hreg⟩
    · rintro ⟨var, hmem, hreg⟩
      exact ⟨(var, v), hmem, hreg, rfl⟩
  · have hmap : (f.vars.zipIdx.map fun entry => entry.1.reg) = f.vars.map (·.reg) := by
      rw [← List.zipIdx_map_fst 0 f.vars, List.map_map]
      simp
    rw [hmap]
    exact h.nodup
  · rintro ⟨var, u⟩ hmem
    rw [Array.size_replicate]
    exact h.lt var (List.mem_of_getElem? (List.mem_zipIdx_iff_getElem?.mp hmem))

/-- An operand belongs to a variable when it is the register of that variable. -/
theorem owner?_eq_some_iff (h : f.VarsApart) {operand : Operand} {v : VarId} :
    operand.owner? f.owners = some v ↔
      ∃ var ty, f.vars[v]? = some var ∧ operand = .reg var.reg ty := by
  cases operand with
  | reg r ty =>
    have howner : (Operand.reg r ty).owner? f.owners = some v ↔ f.owners[r]? = some (some v) := by
      simp [Operand.owner?, Operand.reg?, Option.bind_eq_some_iff]
    rw [howner, getElem?_owners h]
    constructor
    · rintro ⟨var, hvar, rfl⟩
      exact ⟨var, ty, hvar, rfl⟩
    · rintro ⟨var, ty', hvar, heq⟩
      cases heq
      exact ⟨var, hvar, rfl⟩
  | _ => simp [Operand.owner?, Operand.reg?]

/-- A register has no owner exactly when it belongs to no variable. -/
theorem owner?_reg_eq_none_iff (h : f.VarsApart) {r : Reg} {ty : Option TypeId} :
    (Operand.reg r ty).owner? f.owners = none ↔ ¬ f.IsVarReg r := by
  constructor
  · rintro hnone ⟨var, hvar, rfl⟩
    obtain ⟨v, hv⟩ := List.mem_iff_getElem?.mp hvar
    rw [(owner?_eq_some_iff h).mpr ⟨var, ty, hv, rfl⟩] at hnone
    cases hnone
  · intro hr
    cases hv : (Operand.reg r ty).owner? f.owners with
    | none => rfl
    | some v =>
      obtain ⟨var, _, hvar, heq⟩ := (owner?_eq_some_iff h).mp hv
      exact absurd ⟨var, List.mem_of_getElem? hvar, (Operand.reg.inj heq).1.symm⟩ hr

/-- Only variables that exist own operands. -/
theorem lt_of_owner? (h : f.VarsApart) {operand : Operand} {v : VarId}
    (hv : operand.owner? f.owners = some v) : v < f.vars.length := by
  obtain ⟨var, _, hvar, _⟩ := (owner?_eq_some_iff h).mp hv
  exact (List.getElem?_eq_some_iff.mp hvar).1

end Function

-- ════════════════════════════════════════════════════════════════════════
-- Versions
-- ════════════════════════════════════════════════════════════════════════

namespace Versions

/-- The versions of a variable, the newest first. -/
def stack (s : Versions) (v : VarId) : List Reg := s.versionStacks[v]?.getD []

/-- The versions with a new one of the variable `v`. -/
def push (s : Versions) (v : VarId) : Versions where
  nextReg := s.nextReg + 1
  versionStacks := s.versionStacks.modify v (s.nextReg :: ·)
  pushed := v :: s.pushed

/-- The versions with a new one of each of the given variables in turn. -/
def pushAll (s : Versions) (vs : List VarId) : Versions := vs.foldl push s

/-- The operand that a use of a variable reads: the version in force, or zero. -/
def reading (s : Versions) (v : VarId) (ty : Option TypeId) : Operand :=
  match (s.stack v).head? with
  | some r => .reg r ty
  | none => .int 0

/-- The version of the variable in force among `stacks`. -/
theorem current_eq {s : Versions} {v : VarId} (hv : v < s.versionStacks.size) :
    s.current v = .ok (s.stack v).head? := by
  simp [current, stack, hv]

theorem define_eq {s : Versions} {v : VarId} (hv : v < s.versionStacks.size) (r : Reg)
    (ty : Option TypeId) : s.define v (.reg r ty) = .ok (.reg s.nextReg ty, s.push v) := by
  have hget : s.versionStacks[v]? = some s.versionStacks[v] := Array.getElem?_eq_getElem hv
  have hset : s.versionStacks.setIfInBounds v (s.nextReg :: s.versionStacks[v]) =
      s.versionStacks.modify v (s.nextReg :: ·) := by
    refine Array.ext_getElem? fun u => ?_
    rw [Array.getElem?_modify, Array.getElem?_setIfInBounds]
    by_cases huv : v = u
    · subst huv
      simp [hv]
    · simp [huv]
  simp only [define, Operand.rename, hget, require_some, ok_bind, hset]
  rfl

section Push

variable (s : Versions) (v u : VarId) (vs : List VarId)

@[simp]
theorem size_push : (s.push v).versionStacks.size = s.versionStacks.size := by
  simp [push]

theorem stack_push_self (hv : v < s.versionStacks.size) :
    (s.push v).stack v = s.nextReg :: s.stack v := by
  simp only [stack, push, Array.getElem?_modify, if_true]
  simp [hv]

theorem stack_push_ne (h : v ≠ u) : (s.push v).stack u = s.stack u := by
  simp [stack, push, Array.getElem?_modify, h]

@[simp]
theorem pushAll_nil : s.pushAll [] = s := rfl

@[simp]
theorem pushAll_cons : s.pushAll (v :: vs) = (s.push v).pushAll vs := rfl

theorem pushAll_append (us : List VarId) :
    s.pushAll (us ++ vs) = (s.pushAll us).pushAll vs := by
  simp [pushAll]

@[simp]
theorem size_pushAll : (s.pushAll vs).versionStacks.size = s.versionStacks.size := by
  induction vs generalizing s with
  | nil => rfl
  | cons v vs ih => rw [pushAll_cons, ih, size_push]

@[simp]
theorem nextReg_pushAll : (s.pushAll vs).nextReg = s.nextReg + vs.length := by
  induction vs generalizing s with
  | nil => rfl
  | cons v vs ih =>
    rw [pushAll_cons, ih, List.length_cons]
    simp only [push]
    lia

/-- A variable that gets no new version keeps its versions. -/
theorem stack_pushAll_of_not_mem {v : VarId} {vs : List VarId} (hv : v ∉ vs) :
    (s.pushAll vs).stack v = s.stack v := by
  induction vs generalizing s with
  | nil => rfl
  | cons u vs ih =>
    rw [List.mem_cons, not_or] at hv
    rw [pushAll_cons, ih (s.push u) hv.2, stack_push_ne s u v (Ne.symm hv.1)]

/-- The new versions are taken from the counter in the order of their variables. -/
theorem exists_of_mem_stack_pushAll {v : VarId} {vs : List VarId} {r : Reg}
    (hr : r ∈ (s.pushAll vs).stack v) :
    r ∈ s.stack v ∨ ∃ k, vs[k]? = some v ∧ r = s.nextReg + k := by
  induction vs generalizing s with
  | nil => exact .inl hr
  | cons u vs ih =>
    obtain hr | ⟨k, hk, rfl⟩ := ih (s.push u) hr
    · by_cases huv : u = v
      · subst huv
        by_cases hu : u < s.versionStacks.size
        · rw [stack_push_self s u hu] at hr
          obtain rfl | hr := List.mem_cons.mp hr
          · exact .inr ⟨0, rfl, rfl⟩
          · exact .inl hr
        · have hnone : (s.push u).stack u = [] := by
            simp [stack, push, Nat.not_lt.mp hu]
          rw [hnone] at hr
          cases hr
      · rw [stack_push_ne s u v huv] at hr
        exact .inl hr
    · exact .inr ⟨k + 1, hk, by simp only [push]; lia⟩

/-- The new versions of a variable are taken from the counter. -/
theorem mem_stack_pushAll {v : VarId} {vs : List VarId} {r : Reg}
    (hr : r ∈ (s.pushAll vs).stack v) :
    r ∈ s.stack v ∨ s.nextReg ≤ r ∧ r < (s.pushAll vs).nextReg := by
  refine (s.exists_of_mem_stack_pushAll hr).imp id ?_
  rintro ⟨k, hk, rfl⟩
  have hlt := (List.getElem?_eq_some_iff.mp hk).1
  rw [nextReg_pushAll]
  lia

/-- Taking back the versions of a list of variables restores the stacks. -/
theorem pop_pushAll : ∃ new, (s.pushAll vs).pushed = new ++ s.pushed ∧
    new.foldl (fun table v => table.modify v List.tail) (s.pushAll vs).versionStacks =
      s.versionStacks := by
  induction vs generalizing s with
  | nil => exact ⟨[], rfl, rfl⟩
  | cons v vs ih =>
    obtain ⟨new, hpushed, hpop⟩ := ih (s.push v)
    refine ⟨new ++ [v], by rw [pushAll_cons, hpushed]; simp [push], ?_⟩
    rw [pushAll_cons, List.foldl_append, hpop]
    refine Array.ext_getElem? fun u => ?_
    simp only [push, List.foldl_cons, List.foldl_nil, Array.getElem?_modify]
    by_cases hvu : v = u
    · cases s.versionStacks[u]? <;> simp [hvu]
    · simp [hvu]

end Push

end Versions

-- ════════════════════════════════════════════════════════════════════════
-- Instructions
-- ════════════════════════════════════════════════════════════════════════

/-- Applies a step to the elements of a list, handing a state from each to the next. -/
def threaded {α β σ : Type} (step : α → σ → β × σ) : List α → σ → List β × σ
  | [], s => ([], s)
  | a :: rest, s =>
    ((step a s).1 :: (threaded step rest (step a s).2).1, (threaded step rest (step a s).2).2)

/-- Steps that succeed as long as an invariant holds, and keep it, succeed all together. -/
theorem threadMap_eq {α β σ : Type} {f : α → σ → Except Fault (β × σ)} {g : α → σ → β × σ}
    {P : σ → Prop} {xs : List α} {s : σ}
    (hstep : ∀ a ∈ xs, ∀ s, P s → f a s = .ok (g a s) ∧ P (g a s).2) (hs : P s) :
    threadMap f xs s = .ok (threaded g xs s) := by
  induction xs generalizing s with
  | nil => rfl
  | cons a xs ih =>
    obtain ⟨hok, hs'⟩ := hstep a List.mem_cons_self s hs
    have hrest := ih (fun b hb => hstep b (List.mem_cons_of_mem _ hb)) hs'
    simp only [threadMap, hok, ok_bind, hrest]
    rfl

/-- The operand that an instruction reads after renaming. -/
def Operand.renamed (owners : Array (Option VarId)) (s : Versions) (operand : Operand) : Operand :=
  match operand.owner? owners with
  | Option.none => operand
  | some v => s.reading v operand.ty?

/-- Renaming does not change labels, and makes none. -/
theorem Operand.label?_renamed (owners : Array (Option VarId)) (s : Versions) (operand : Operand) :
    (operand.renamed owners s).label? = operand.label? := by
  cases operand with
  | reg r ty =>
    rw [Operand.renamed]
    split
    · rfl
    · unfold Versions.reading
      split <;> rfl
  | _ => rfl

/-- The destination after renaming of an instruction that writes the variable `var`, if any. -/
def Operand.redirected (s : Versions) (var : Option VarId) (operand : Operand) : Operand :=
  match var with
  | Option.none => operand
  | some _ => .reg s.nextReg operand.ty?

/-- What renaming makes of a phi at the head of a block. -/
def renamedPhi (phi : Instr) (s : Versions) : Instr × Versions :=
  ({ phi with dst := phi.dst.redirected s phi.phiVar? }, s.pushAll phi.phiVar?.toList)

/-- What renaming makes of any other instruction. -/
def renamedInstr (owners : Array (Option VarId)) (i : Instr) (s : Versions) : Instr × Versions :=
  ({ i with
      dst := i.dst.redirected s (i.dst.owner? owners)
      src1 := i.src1.renamed owners s
      src2 := i.src2.renamed owners s },
    s.pushAll (i.dst.owner? owners).toList)

/-- What renaming makes of a block. -/
def renamedCode (owners : Array (Option VarId)) (block : Block) (s : Versions) :
    List Instr × Versions :=
  ((threaded renamedPhi block.phis s).1 ++
      (threaded (renamedInstr owners) block.body (threaded renamedPhi block.phis s).2).1,
    (threaded (renamedInstr owners) block.body (threaded renamedPhi block.phis s).2).2)

/-- The variables that the phis at the head of a block join. -/
def Block.joinedVars (block : Block) : List VarId := block.phis.filterMap (·.phiVar?)

/-- The variables that the other instructions of a block write. -/
def Block.writtenVars (owners : Array (Option VarId)) (block : Block) : List VarId :=
  block.body.filterMap (·.dst.owner? owners)

theorem threaded_renamedPhi_snd (phis : List Instr) (s : Versions) :
    (threaded renamedPhi phis s).2 = s.pushAll (phis.filterMap (·.phiVar?)) := by
  induction phis generalizing s with
  | nil => rfl
  | cons phi phis ih =>
    simp only [threaded, ih, renamedPhi]
    cases hvar : phi.phiVar? with
    | none => simp [hvar]
    | some v => simp [hvar]

theorem threaded_renamedInstr_snd (owners : Array (Option VarId)) (body : List Instr)
    (s : Versions) : (threaded (renamedInstr owners) body s).2 =
      s.pushAll (body.filterMap (·.dst.owner? owners)) := by
  induction body generalizing s with
  | nil => rfl
  | cons i body ih =>
    simp only [threaded, ih, renamedInstr]
    cases hvar : i.dst.owner? owners with
    | none => simp [hvar]
    | some v => simp [hvar]

/-- Renaming an instruction succeeds when there is a stack for each variable. -/
theorem renameInstr_eq {f : Function} (hvars : f.VarsApart) (i : Instr) {s : Versions}
    (hs : s.versionStacks.size = f.vars.length) :
    renameInstr f.owners i s = .ok (renamedInstr f.owners i s) := by
  have huse : ∀ operand : Operand, renameUse f.owners s operand =
      .ok (operand.renamed f.owners s) := by
    intro operand
    rw [renameUse, Operand.renamed]
    cases howner : operand.owner? f.owners with
    | none => rfl
    | some v =>
      have hv : v < s.versionStacks.size := hs ▸ Function.lt_of_owner? hvars howner
      obtain ⟨var, ty, _, rfl⟩ := (Function.owner?_eq_some_iff hvars).mp howner
      simp only [Versions.current_eq hv, ok_bind, Versions.reading]
      cases (s.stack v).head? <;> rfl
  simp only [renameInstr, huse, ok_bind, renamedInstr]
  cases howner : i.dst.owner? f.owners with
  | none => rfl
  | some v =>
    have hv : v < s.versionStacks.size := hs ▸ Function.lt_of_owner? hvars howner
    obtain ⟨var, ty, _, hdst⟩ := (Function.owner?_eq_some_iff hvars).mp howner
    simp only [hdst, Versions.define_eq hv, ok_bind]
    rfl

/-- The phis at the head of a block that join variables write registers, and the variables exist. -/
def Function.JoinsVars (f : Function) (block : Block) : Prop :=
  ∀ phi ∈ block.phis, ∀ v, phi.phiVar? = some v →
    v < f.vars.length ∧ ∃ r ty, phi.dst = .reg r ty

theorem renamePhi_eq {phi : Instr} {s : Versions}
    (hphi : ∀ v, phi.phiVar? = some v → v < s.versionStacks.size ∧ ∃ r ty, phi.dst = .reg r ty) :
    renamePhi phi s = .ok (renamedPhi phi s) := by
  rw [renamePhi, renamedPhi]
  cases hvar : phi.phiVar? with
  | none => rfl
  | some v =>
    obtain ⟨hv, r, ty, hdst⟩ := hphi v hvar
    simp only [hdst, Versions.define_eq hv, ok_bind]
    rfl

/-- Renaming a block succeeds when there is a stack for each variable. -/
theorem renameInstrs_eq {f : Function} (hvars : f.VarsApart) {block : Block}
    (hblock : f.JoinsVars block) {s : Versions} (hs : s.versionStacks.size = f.vars.length) :
    renameInstrs f.owners block s = .ok (renamedCode f.owners block s) := by
  have hphis : threadMap renamePhi block.phis s = .ok (threaded renamedPhi block.phis s) := by
    refine threadMap_eq (P := fun s => s.versionStacks.size = f.vars.length) ?_ hs
    intro phi hphi s hs
    refine ⟨renamePhi_eq fun v hv => ?_, by simp [renamedPhi, hs]⟩
    rw [hs]
    exact hblock phi hphi v hv
  have hbody : threadMap (renameInstr f.owners) block.body (threaded renamedPhi block.phis s).2 =
      .ok (threaded (renamedInstr f.owners) block.body (threaded renamedPhi block.phis s).2) := by
    refine threadMap_eq (P := fun s => s.versionStacks.size = f.vars.length) ?_ ?_
    · exact fun i _ s hs => ⟨renameInstr_eq hvars i hs, by simp [renamedInstr, hs]⟩
    · rw [threaded_renamedPhi_snd, Versions.size_pushAll, hs]
  simp only [renameInstrs, hphis, hbody, ok_bind]
  rfl

end MiddleEnd
