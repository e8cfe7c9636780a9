import MiddleEnd.Proofs.Lowering.Invariant

/-!
# How the state grows while expressions are lowered

Lowering an expression appends instructions to the current block and to blocks of its own, and nothing
else. So whatever was computed before can still be used afterwards, and blocks that were set aside for
later stay as they were.

## Main definitions

* `Lowering.Keeps`: what stays as it is, whatever is lowered.
* `Lowering.Grows`: what may change while an expression is lowered.
* `Lowering.Reaches`: an open state leads to an open state, and what could be used still can.
* `Instr.Straight`: an instruction that neither ends a block nor joins values.

## Main statements

* `Lowering.Keeps.trans`, `Lowering.Keeps.weaken`: putting changes together.
* `Lowering.Reaches.trans`: one expression after the other.
* `Lowering.Reaches.push`: appending an instruction.
* `LowerM.emitUnary_apply`, `LowerM.emitBinary_apply`: computing a new register.
-/

namespace MiddleEnd

namespace Lowering

/-- The jumps out of statements lead to the same blocks. -/
structure SameScopes (s s' : Lowering) : Prop where
  breaks : s'.breakTargets = s.breakTargets
  continues : s'.continueTargets = s.continueTargets
  gotos : s'.gotoTargets = s.gotoTargets
  labels : s'.labelBlocks = s.labelBlocks

theorem SameScopes.refl (s : Lowering) : SameScopes s s := ⟨rfl, rfl, rfl, rfl⟩

theorem SameScopes.trans {s₁ s₂ s₃ : Lowering} (h : SameScopes s₁ s₂) (h' : SameScopes s₂ s₃) :
    SameScopes s₁ s₃ :=
  ⟨h'.breaks.trans h.breaks, h'.continues.trans h.continues, h'.gotos.trans h.gotos,
    h'.labels.trans h.labels⟩

theorem SameScopes.scopes_eq {s s' : Lowering} (h : SameScopes s s') : s'.scopes = s.scopes := by
  rw [scopes, scopes, h.breaks, h.continues, h.gotos, h.labels]

/-- What is popped behind an action is what was pushed before it, if the action leaves the targets alone. -/
theorem SameScopes.popBreak {s t : Lowering} {exit : BlockId} (h : SameScopes (s.pushBreak exit) t) :
    SameScopes s t.popBreak :=
  ⟨congrArg List.tail h.breaks, h.continues, h.gotos, h.labels⟩

theorem SameScopes.popContinue {s t : Lowering} {next : BlockId} (h : SameScopes (s.pushContinue next) t) :
    SameScopes s t.popContinue :=
  ⟨h.breaks, congrArg List.tail h.continues, h.gotos, h.labels⟩

/-- A list that got longer twice by elements with a property got longer by such elements. -/
theorem exists_append_trans {α : Type} {xs ys zs : List α} {P : α → Prop}
    (h : ∃ new, ys = xs ++ new ∧ ∀ x ∈ new, P x) (h' : ∃ new, zs = ys ++ new ∧ ∀ x ∈ new, P x) :
    ∃ new, zs = xs ++ new ∧ ∀ x ∈ new, P x := by
  obtain ⟨new, rfl, hnew⟩ := h
  obtain ⟨new', rfl, hnew'⟩ := h'
  refine ⟨new ++ new', List.append_assoc _ _ _, fun x hx => ?_⟩
  exact (List.mem_append.mp hx).elim (hnew x) (hnew' x)

-- ════════════════════════════════════════════════════════════════════════
-- What stays
-- ════════════════════════════════════════════════════════════════════════

/-- What is there stays, seen from a time when there were `m` blocks: of the blocks from that time only the
current one gets instructions. New variables have new registers. -/
structure Keeps (m : Nat) (s s' : Lowering) : Prop where
  blocks : s.fn.blockCount ≤ s'.fn.blockCount
  regs : s.fn.regCount ≤ s'.fn.regCount
  current : s'.current = s.current ∨ m ≤ s'.current
  code : ∀ b, s.fn.code b <+: s'.fn.code b
  kept : ∀ b < m, b ≠ s.current → s'.fn.code b = s.fn.code b
  vars : ∃ new, s'.fn.vars = s.fn.vars ++ new ∧
    ∀ var ∈ new, s.fn.regCount ≤ var.reg ∧ var.reg < s'.fn.regCount ∧ var.isParam = false

namespace Keeps

variable {m : Nat} {s s' s₁ s₂ s₃ : Lowering}

theorem trans (h : s₁.Keeps m s₂) (h' : s₂.Keeps m s₃) : s₁.Keeps m s₃ where
  blocks := Nat.le_trans h.blocks h'.blocks
  regs := Nat.le_trans h.regs h'.regs
  current := by
    obtain heq | hge := h'.current
    · rw [heq]
      exact h.current
    · exact .inr hge
  code b := (h.code b).trans (h'.code b)
  kept b hb hne := by
    rw [h'.kept b hb, h.kept b hb hne]
    obtain heq | hge := h.current
    · rw [heq]
      exact hne
    · exact Nat.ne_of_lt (Nat.lt_of_lt_of_le hb hge)
  vars := by
    obtain ⟨new, hvars, hnew⟩ := h.vars
    obtain ⟨new', hvars', hnew'⟩ := h'.vars
    refine ⟨new ++ new', by rw [hvars', hvars, List.append_assoc], fun var hvar => ?_⟩
    obtain hvar | hvar := List.mem_append.mp hvar
    · obtain ⟨hge, hlt, hparam⟩ := hnew var hvar
      exact ⟨hge, Nat.lt_of_lt_of_le hlt h'.regs, hparam⟩
    · obtain ⟨hge, hlt, hparam⟩ := hnew' var hvar
      exact ⟨Nat.le_trans h.regs hge, hlt, hparam⟩

/-- What holds seen from a later time holds seen from an earlier one. -/
theorem weaken {m' : Nat} (h : s.Keeps m s') (hm : m' ≤ m) : s.Keeps m' s' :=
  { h with
    current := h.current.imp id (Nat.le_trans hm)
    kept := fun b hb => h.kept b (Nat.lt_of_lt_of_le hb hm) }

theorem mem_vars (h : s.Keeps m s') {var : Variable} (hvar : var ∈ s.fn.vars) : var ∈ s'.fn.vars := by
  obtain ⟨new, hvars, _⟩ := h.vars
  rw [hvars]
  exact List.mem_append_left _ hvar

theorem isVarReg (h : s.Keeps m s') {r : Reg} (hr : s.fn.IsVarReg r) : s'.fn.IsVarReg r := by
  obtain ⟨var, hvar, rfl⟩ := hr
  exact ⟨var, h.mem_vars hvar, rfl⟩

/-- An old register that belongs to no variable does not become one. -/
theorem not_isVarReg (h : s.Keeps m s') {r : Reg} (hlt : r < s.fn.regCount)
    (hr : ¬ s.fn.IsVarReg r) : ¬ s'.fn.IsVarReg r := by
  obtain ⟨new, hvars, hnew⟩ := h.vars
  rintro ⟨var, hvar, rfl⟩
  rw [hvars] at hvar
  obtain hvar | hvar := List.mem_append.mp hvar
  · exact hr ⟨var, hvar, rfl⟩
  · exact Nat.not_lt.mpr (hnew var hvar).1 hlt

/-- The registers of new variables are handed out, too. -/
theorem vars_lt (h : s.Keeps m s') (hlt : ∀ var ∈ s.fn.vars, var.reg < s.fn.regCount) :
    ∀ var ∈ s'.fn.vars, var.reg < s'.fn.regCount := by
  intro var hvar
  obtain ⟨new, hvars, hnew⟩ := h.vars
  rw [hvars] at hvar
  obtain hvar | hvar := List.mem_append.mp hvar
  · exact Nat.lt_of_lt_of_le (hlt var hvar) h.regs
  · exact (hnew var hvar).2.1

/-- An instruction keeps its place. -/
theorem getElem?_code (h : s.Keeps m s') {b : BlockId} {k : Nat} {i : Instr}
    (hi : (s.fn.code b)[k]? = some i) : (s'.fn.code b)[k]? = some i := by
  obtain ⟨rest, hrest⟩ := h.code b
  rw [← hrest, List.getElem?_append_left (List.getElem?_eq_some_iff.mp hi).1, hi]

/-- A change that leaves all instructions alone. -/
theorem of_code (hcode : s'.fn.code = s.fn.code) (hblocks : s.fn.blockCount ≤ s'.fn.blockCount)
    (hregs : s.fn.regCount ≤ s'.fn.regCount) (hcurrent : s'.current = s.current ∨ m ≤ s'.current)
    (hvars : ∃ new, s'.fn.vars = s.fn.vars ++ new ∧
      ∀ var ∈ new, s.fn.regCount ≤ var.reg ∧ var.reg < s'.fn.regCount ∧ var.isParam = false) :
    s.Keeps m s' where
  blocks := hblocks
  regs := hregs
  current := hcurrent
  code b := hcode ▸ List.prefix_rfl
  kept b _ _ := by rw [hcode]
  vars := hvars

/-- A change of the state around the function, or of the current block. -/
theorem of_fn (hfn : s'.fn = s.fn) (hcurrent : s'.current = s.current ∨ m ≤ s'.current) : s.Keeps m s' :=
  of_code (by rw [hfn]) (Nat.le_of_eq (by rw [hfn])) (Nat.le_of_eq (by rw [hfn])) hcurrent
    ⟨[], by simp [hfn], by simp⟩

theorem grown (label : String) : s.Keeps m (s.grown label) :=
  of_code (funext (s.fn.code_grown label))
    (by rw [show (s.grown label).fn.blockCount = _ from s.fn.blockCount_grown label]; exact Nat.le_succ _)
    (Nat.le_refl _) (.inl rfl) ⟨[], by simp [Lowering.grown, Function.grown, Function.newBlock], by simp⟩

theorem withReg : s.Keeps m s.withReg :=
  of_code rfl (Nat.le_refl _) (Nat.le_succ _) (.inl rfl)
    ⟨[], by simp [Lowering.withReg, Function.newReg], by simp⟩

theorem withVar (name : Name) (ty : Option TypeId) : s.Keeps m (s.withVar name ty) := by
  obtain ⟨var, _, _, heq⟩ | ⟨_, heq⟩ := varLookup_cases s.fn name ty
  · rw [Lowering.withVar, heq]
    exact of_fn rfl (.inl rfl)
  · rw [Lowering.withVar, heq]
    refine of_code rfl (Nat.le_refl _) (Nat.le_succ _) (.inl rfl) ⟨_, rfl, fun var hvar => ?_⟩
    rw [List.mem_singleton.mp hvar]
    exact ⟨Nat.le_refl _, Nat.lt_succ_self _, rfl⟩

/-- Appending an instruction to the current block. -/
theorem pushed (i : Instr) : s.Keeps m (s.pushed i) where
  blocks := Nat.le_of_eq (s.fn.blockCount_pushed s.current i).symm
  regs := Nat.le_refl _
  current := .inl rfl
  code := s.fn.code_prefix_pushed s.current i
  kept b _ hne := s.fn.code_pushed_ne s.current i hne
  vars := ⟨[], by simp [Lowering.pushed, Function.pushed, Function.modifyBlock], by simp⟩

end Keeps

-- ════════════════════════════════════════════════════════════════════════
-- Growing
-- ════════════════════════════════════════════════════════════════════════

/-- What may change while an expression is lowered, seen from a time when there were `m` blocks and
`k` registers: what is there stays, no edge leads to the blocks from that time, and what is written is a
variable or a register that is newer. -/
structure Grows (m k : Nat) (avail avail' : Avail) (s s' : Lowering) : Prop extends s.Keeps m s' where
  avail : ∀ b < m, avail' b = avail b
  phi : ∀ b < m, ∀ i ∈ s'.fn.code b, i.isPhi = true → i ∈ s.fn.code b
  edges : ∀ b, ∀ i ∈ s'.fn.code b, i ∈ s.fn.code b ∨ ∀ t ∈ i.targets, m ≤ t
  defs : ∀ r, s'.fn.Defines r → s.fn.Defines r ∨ k ≤ r ∨ s'.fn.IsVarReg r
  scopes : SameScopes s s'

namespace Grows

variable {m k : Nat} {avail avail' avail₁ avail₂ avail₃ : Avail} {s s' s₁ s₂ s₃ : Lowering}

theorem trans (h : Grows m k avail₁ avail₂ s₁ s₂)
    (h' : Grows m k avail₂ avail₃ s₂ s₃) : Grows m k avail₁ avail₃ s₁ s₃ where
  toKeeps := h.toKeeps.trans h'.toKeeps
  avail b hb := (h'.avail b hb).trans (h.avail b hb)
  phi b hb i hi hphi := h.phi b hb i (h'.phi b hb i hi hphi) hphi
  edges b i hi := by
    rcases h'.edges b i hi with hi | hi
    · exact h.edges b i hi
    · exact .inr hi
  defs r hr := by
    rcases h'.defs r hr with hr | hr
    · rcases h.defs r hr with hr | hr | hr
      · exact .inl hr
      · exact .inr (.inl hr)
      · exact .inr (.inr (h'.isVarReg hr))
    · exact .inr hr
  scopes := h.scopes.trans h'.scopes

/-- What holds seen from a later time holds seen from an earlier one. -/
theorem weaken {m' k' : Nat} (h : Grows m k avail avail' s s')
    (hblocks : m' ≤ m) (hregs : k' ≤ k) :
    Grows m' k' avail avail' s s' where
  toKeeps := h.toKeeps.weaken hblocks
  avail b hb := h.avail b (Nat.lt_of_lt_of_le hb hblocks)
  phi b hb := h.phi b (Nat.lt_of_lt_of_le hb hblocks)
  edges b i hi := (h.edges b i hi).imp id fun ht t hmem => Nat.le_trans hblocks (ht t hmem)
  defs r hr := (h.defs r hr).imp id (Or.imp (Nat.le_trans hregs) id)
  scopes := h.scopes

end Grows

variable {m k : Nat} {avail : Avail} {s : Lowering}

/-- Appending an instruction to the current block. -/
theorem grows_pushed {i : Instr} (htargets : ∀ t ∈ i.targets, m ≤ t)
    (hphi : i.isPhi = true → m ≤ s.current)
    (hdef : ∀ r, i.def? = some r → k ≤ r ∨ s.fn.IsVarReg r) :
    Grows m k avail avail s (s.pushed i) where
  toKeeps := .pushed i
  avail _ _ := rfl
  phi b hb j hj hjphi := by
    rcases s.fn.mem_code_pushed s.current i hj with hj | ⟨rfl, rfl⟩
    · exact hj
    · exact absurd hb (Nat.not_lt.mpr (hphi hjphi))
  edges b j hj := by
    rcases s.fn.mem_code_pushed s.current i hj with hj | ⟨_, rfl⟩
    · exact .inl hj
    · exact .inr htargets
  defs r hr := (Function.Defines.of_pushed hr).imp id (hdef r)
  scopes := ⟨rfl, rfl, rfl, rfl⟩

/-- A change that leaves all instructions and scopes alone. -/
theorem grows_of_code {s' : Lowering} {avail' : Avail} (hkeeps : s.Keeps m s')
    (hcode : s'.fn.code = s.fn.code) (havail : ∀ b < m, avail' b = avail b) (hscopes : SameScopes s s') :
    Grows m k avail avail' s s' where
  toKeeps := hkeeps
  avail := havail
  phi b _ i hi _ := hcode ▸ hi
  edges b i hi := .inl (hcode ▸ hi)
  defs r hr := by
    rw [Function.Defines, hcode] at hr
    exact .inl hr
  scopes := hscopes

theorem Grows.refl (m k : Nat) (avail : Avail) (s : Lowering) : Grows m k avail avail s s :=
  grows_of_code (.of_fn rfl (.inl rfl)) rfl (fun _ _ => rfl) (.refl s)

theorem grows_grown (label : String) : Grows m k avail avail s (s.grown label) :=
  grows_of_code (.grown label) (funext (s.fn.code_grown label)) (fun _ _ => rfl) ⟨rfl, rfl, rfl, rfl⟩

theorem grows_withReg : Grows m k avail avail s s.withReg :=
  grows_of_code .withReg rfl (fun _ _ => rfl) ⟨rfl, rfl, rfl, rfl⟩

theorem grows_withVar (name : Name) (ty : Option TypeId) : Grows m k avail avail s (s.withVar name ty) :=
  grows_of_code (.withVar name ty) (s.code_withVar name ty) (fun _ _ => rfl) ⟨rfl, rfl, rfl, rfl⟩

theorem grows_switch {b : BlockId} (hb : b = s.current ∨ m ≤ b) :
    Grows m k avail avail s { s with current := b } :=
  grows_of_code (.of_fn rfl hb) rfl (fun _ _ => rfl) ⟨rfl, rfl, rfl, rfl⟩

-- ════════════════════════════════════════════════════════════════════════
-- Open states
-- ════════════════════════════════════════════════════════════════════════

/-- The current block can take more instructions. -/
def IsOpen (s : Lowering) : Prop := ¬ s.fn.Closed s.current

/-- From one state lowering comes to another, in which the current block is open and everything can be
used that could be used before. -/
structure Reaches (avail avail' : Avail) (s s' : Lowering) : Prop where
  sound : s'.Sound avail'
  isOpen : s'.IsOpen
  grows : Grows s.fn.blockCount s.fn.regCount avail avail' s s'
  now : ∀ r, s.Now avail r → s'.Now avail' r

theorem Reaches.trans {avail₁ avail₂ avail₃ : Avail} {s₁ s₂ s₃ : Lowering}
    (h : Reaches avail₁ avail₂ s₁ s₂) (h' : Reaches avail₂ avail₃ s₂ s₃) :
    Reaches avail₁ avail₃ s₁ s₃ where
  sound := h'.sound
  isOpen := h'.isOpen
  grows := h.grows.trans (h'.grows.weaken h.grows.blocks h.grows.regs)
  now r hr := h'.now r (h.now r hr)

/-- An operand that an instruction may read. -/
def Readable (avail : Avail) (s : Lowering) (operand : Operand) : Prop :=
  ∀ r, operand.reg? = some r → r < s.fn.regCount ∧ (s.fn.IsVarReg r ∨ s.Now avail r)

/-- An operand that holds a value which later assignments do not change. -/
def Usable (avail : Avail) (s : Lowering) (operand : Operand) : Prop :=
  ∀ r, operand.reg? = some r → r < s.fn.regCount ∧ s.Now avail r

theorem Usable.readable {operand : Operand} (h : s.Usable avail operand) :
    s.Readable avail operand := fun r hr => ⟨(h r hr).1, .inr (h r hr).2⟩

theorem Readable.reaches {avail' : Avail} {s' : Lowering} {operand : Operand}
    (h : s.Readable avail operand) (hreach : Reaches avail avail' s s') :
    s'.Readable avail' operand := fun r hr =>
  ⟨Nat.lt_of_lt_of_le (h r hr).1 hreach.grows.regs,
    (h r hr).2.imp hreach.grows.isVarReg (hreach.now r)⟩

theorem Usable.reaches {avail' : Avail} {s' : Lowering} {operand : Operand}
    (h : s.Usable avail operand) (hreach : Reaches avail avail' s s') :
    s'.Usable avail' operand := fun r hr =>
  ⟨Nat.lt_of_lt_of_le (h r hr).1 hreach.grows.regs, hreach.now r (h r hr).2⟩

/-- Two states with the same function and the same scopes. They may differ in the line and in the table
of string literals, which are no part of the invariant. -/
structure Alike (s s' : Lowering) : Prop where
  fn : s'.fn = s.fn
  current : s'.current = s.current
  scopes : SameScopes s s'

namespace Alike

variable {avail avail' : Avail} {s s' s₁ s₁' : Lowering}

theorem sound (halike : Alike s s') (h : s.Sound avail) : s'.Sound avail := by
  obtain ⟨hfn, hcurrent, hscopes⟩ := halike
  refine h.extend (by rw [hfn]; exact h.numbered) (by rw [hfn]) (by rw [hfn]) (by rw [hfn]) (by rw [hfn])
    (Nat.le_of_eq (by rw [hfn])) (Nat.le_of_eq (by rw [hfn])) (by rw [hfn]; exact h.vars) (by rw [hfn]; exact h.names)
    (by rw [hfn]; exact fun _ => id)
    (by rw [hfn]; exact fun _ => .inl) (by rw [hfn, hcurrent]; exact h.current) ?_
  rw [hscopes.scopes_eq]
  exact fun _ => id

theorem grows {m k : Nat} (halike : Alike s s') : Grows m k avail avail s s' := by
  obtain ⟨hfn, hcurrent, hscopes⟩ := halike
  exact grows_of_code (.of_fn hfn (.inl hcurrent)) (by rw [hfn]) (fun _ _ => rfl) hscopes

/-- What leads from one state to another leads between states that are alike. -/
theorem reaches (halike : Alike s s₁) (h : Reaches avail avail' s₁ s₁') (halike' : Alike s₁' s') :
    Reaches avail avail' s s' := by
  have hgrows := h.grows
  rw [halike.fn] at hgrows
  refine ⟨halike'.sound h.sound, ?_, (halike.grows.trans hgrows).trans halike'.grows, fun r hr => ?_⟩
  · rw [IsOpen, halike'.fn, halike'.current]
    exact h.isOpen
  · rw [Now, halike'.fn, halike'.current]
    refine h.now r ?_
    rw [Now, halike.fn, halike.current]
    exact hr

end Alike

/-- Appending to the current block closes it exactly when a terminator is appended. -/
theorem closed_pushed (hcurrent : s.current < s.fn.blockCount) (i : Instr) :
    (s.pushed i).fn.Closed s.current ↔ i.isTerminator = true := by
  have hself : (s.pushed i).fn.code s.current = s.fn.code s.current ++ [i] :=
    s.fn.code_pushed_self s.current i hcurrent
  rw [Function.Closed, hself]
  simp

/-- What is available in a block stays available when an instruction is appended to it. -/
theorem now_pushed {r : Reg} (i : Instr) (hr : s.Now avail r) : (s.pushed i).Now avail r := by
  exact ⟨hr.1, hr.2.imp id (s.fn.mem_defsOf_code_pushed s.current i)⟩

/-- What the appended instruction writes is available. -/
theorem now_pushed_self {r : Reg} {i : Instr} (hcurrent : s.current < s.fn.blockCount)
    (hdef : i.def? = some r) (hr : ¬ s.fn.IsVarReg r) : (s.pushed i).Now avail r := by
  refine ⟨hr, .inr ?_⟩
  have hself : (s.pushed i).fn.code s.current = s.fn.code s.current ++ [i] :=
    s.fn.code_pushed_self s.current i hcurrent
  rw [show (s.pushed i).current = s.current from rfl, hself, defsOf_append, List.mem_append,
    mem_defsOf_singleton]
  exact .inr hdef

/-- Only terminators lead anywhere. -/
theorem targets_of_not_isTerminator {i : Instr} (h : i.isTerminator = false) : i.targets = [] := by
  unfold Instr.isTerminator Opcode.isTerminator at h
  unfold Instr.targets
  split at h
  · cases h
  · cases h
  · cases h
  · cases h
  · split <;> first | rfl | simp_all

end Lowering

/-- An instruction that is neither a terminator nor a phi. -/
structure Instr.Straight (i : Instr) : Prop where
  terminator : i.isTerminator = false
  phi : i.isPhi = false
  detail : i.detail = .none

namespace Lowering

variable {avail : Avail} {s : Lowering}

/-- A straight instruction whose sources can be read may be appended, if its destination is a variable
or a register that nothing has written. -/
theorem Reaches.push (h : s.Sound avail) (hopen : s.IsOpen) {i : Instr} (hi : i.Straight)
    (hsrc1 : s.Readable avail i.src1) (hsrc2 : s.Readable avail i.src2)
    (hdst : ∀ r, i.dst.reg? = some r → r < s.fn.regCount ∧
      (s.fn.IsVarReg r ∨ ¬ s.fn.Defines r)) : (s.pushed i).Sound avail ∧ (s.pushed i).IsOpen := by
  have hfits : s.Fits avail i := by
    refine ⟨⟨fun r hr => (hdst r hr).1, fun r hr => (hsrc1 r hr).1, fun r hr => (hsrc2 r hr).1, ?_⟩,
      ⟨?_, ?_, ?_, by simp [hi.phi]⟩, ?_, ?_, ?_, fun r hr => (hdst r hr).2⟩
    · simp [Instr.phiArgs, hi.detail]
    · simp [Instr.phiVar?, hi.detail]
    · simp [hi.terminator]
    · simp [Instr.phiArgs, hi.detail]
    · intro r hr
      rcases List.mem_append.mp hr with hr | hr
      · exact (hsrc1 r (Option.mem_toList.mp hr)).2
      · exact (hsrc2 r (Option.mem_toList.mp hr)).2
    · simp [targets_of_not_isTerminator hi.terminator]
    · simp [hi.phi]
  refine ⟨h.push hopen hfits, fun hclosed => ?_⟩
  rw [show (s.pushed i).current = s.current from rfl, closed_pushed h.current,
    hi.terminator] at hclosed
  cases hclosed

end Lowering

-- ════════════════════════════════════════════════════════════════════════
-- Actions
-- ════════════════════════════════════════════════════════════════════════

namespace LowerM

variable {α β : Type} {s : Lowering}

theorem bind_apply {act : LowerM α} {next : α → LowerM β} {t : Lowering} {a : α}
    (h : act s = .ok (a, t)) : (act >>= next) s = next a t := by
  change (act s).bind (fun p => next p.1 p.2) = _
  rw [h]
  rfl

/-- A sequence of two actions succeeds only if both do. -/
theorem exists_of_bind {act : LowerM α} {next : α → LowerM β} {s' : Lowering} {b : β}
    (h : (act >>= next) s = .ok (b, s')) : ∃ a s₁, act s = .ok (a, s₁) ∧ next a s₁ = .ok (b, s') := by
  obtain ⟨⟨a, s₁⟩, hact, hnext⟩ := bind_eq_ok.mp h
  exact ⟨a, s₁, hact, hnext⟩

/-- An action between two changes of the state succeeds only if it does by itself. -/
theorem exists_of_between {enter leave : Lowering → Lowering} {act : LowerM α} {s' : Lowering} {a : α}
    (h : between enter leave act s = .ok (a, s')) : ∃ t, act (enter s) = .ok (a, t) ∧ s' = leave t := by
  obtain ⟨_, _, ⟨⟩, h⟩ := exists_of_bind h
  obtain ⟨_, t, hact, h⟩ := exists_of_bind h
  obtain ⟨_, _, ⟨⟩, ⟨⟩⟩ := exists_of_bind h
  exact ⟨t, hact, rfl⟩

/-- The state after an action that ran with another line. -/
theorem exists_of_withLine {line : Nat} {act : LowerM α} {s' : Lowering} {a : α}
    (h : withLine line act s = .ok (a, s')) :
    ∃ t, act { s with line } = .ok (a, t) ∧ s' = { t with line := s.line } := by
  obtain ⟨_, _, ⟨⟩, h⟩ := exists_of_bind h
  exact exists_of_between h

/-- The state after an action inside a loop. -/
theorem exists_of_withLoop {exit next : BlockId} {act : LowerM α} {s' : Lowering} {a : α}
    (h : withLoop exit next act s = .ok (a, s')) :
    ∃ t, act ((s.pushBreak exit).pushContinue next) = .ok (a, t) ∧ s' = t.popContinue.popBreak := by
  obtain ⟨_, hinner, rfl⟩ := exists_of_between h
  obtain ⟨t, hact, rfl⟩ := exists_of_between hinner
  exact ⟨t, hact, rfl⟩

theorem lift_apply {x : Except Fault α} {a : α} (h : x = .ok a) :
    (liftM x : LowerM α) s = .ok (a, s) := by
  rw [h]
  rfl

theorem lift_bind_apply {x : Except Fault α} {next : α → LowerM β} :
    ((liftM x : LowerM α) >>= next) s = x.bind fun a => next a s := by
  cases x <;> rfl

/-- Appending an instruction changes the function alone. -/
theorem emit_eq_bind (instr : Nat → Instr) (s : Lowering) : emit instr s =
    (s.fn.emit s.current (instr s.line)).bind fun fn => .ok ((), { s with fn }) := by
  rw [emit, bind_apply (a := s) (t := s) rfl, lift_bind_apply]
  rfl

/-- Appending an instruction does nothing else, and never stops because of the unit. -/
theorem emit_cases (instr : Nat → Instr) (s : Lowering) :
    emit instr s = .ok ((), s.pushed (instr s.line)) ∨
      ∃ fault, emit instr s = .error fault ∧ ¬ fault.IsDangling := by
  rw [emit_eq_bind]
  obtain heq | ⟨fault, heq, hfault⟩ := s.fn.emit_cases s.current (instr s.line)
  · exact .inl (by rw [heq]; rfl)
  · exact .inr ⟨fault, by rw [heq]; rfl, hfault⟩

/-- What appending an instruction leads to. -/
theorem eq_pushed_of_emit {instr : Nat → Instr} {s' : Lowering} {u : Unit}
    (h : emit instr s = .ok (u, s')) : s' = s.pushed (instr s.line) := by
  obtain heq | ⟨fault, heq, _⟩ := emit_cases instr s
  · exact (Prod.mk.inj (Except.ok.inj (h.symm.trans heq))).2
  · cases heq.symm.trans h

/-- Appending an instruction succeeds only where there is a block. -/
theorem lt_of_emit {instr : Nat → Instr} {s' : Lowering} {u : Unit}
    (h : emit instr s = .ok (u, s')) : s.current < s.fn.blockCount := by
  rw [emit_eq_bind] at h
  obtain ⟨_, hemit, _⟩ := bind_eq_ok.mp h
  obtain ⟨_, hblock, _⟩ := bind_eq_ok.mp hemit
  exact (Array.getElem?_eq_some_iff.mp (require_eq_ok_iff.mp hblock)).1

/-- Appending to an open block succeeds. -/
theorem emit_apply (hcurrent : s.current < s.fn.blockCount) (hopen : s.IsOpen)
    (instr : Nat → Instr) : emit instr s = .ok ((), s.pushed (instr s.line)) := by
  have hemit := Function.emit_eq hcurrent hopen (instr s.line)
  rw [emit, bind_apply (a := s) (t := s) rfl, bind_apply (lift_apply hemit)]
  rfl

/-- Whether the current block is closed can be found out. -/
theorem isTerminated_apply (hcurrent : s.current < s.fn.blockCount) :
    ∃ closed, isTerminated s = .ok (closed, s) ∧ (closed = true ↔ s.fn.Closed s.current) := by
  have hget : s.fn.blocks[s.current]? = some s.fn.blocks[s.current] :=
    Array.getElem?_eq_getElem hcurrent
  refine ⟨_, ?_, Function.isTerminated_iff hget⟩
  have hblock : s.fn.block s.current = .ok s.fn.blocks[s.current] := by
    rw [Function.block, hget]
    rfl
  rw [isTerminated, bind_apply (a := s) (t := s) rfl, bind_apply (lift_apply hblock)]
  rfl

/-- A jump at the end of an open block. -/
theorem ensureJump_of_isOpen (hcurrent : s.current < s.fn.blockCount) (hopen : s.IsOpen)
    (target : BlockId) : ensureJump target s = .ok ((), s.pushed (.jump target s.line)) := by
  obtain ⟨closed, hterm, hiff⟩ := isTerminated_apply hcurrent
  have hclosed : closed = false := Bool.eq_false_iff.mpr fun h => hopen (hiff.mp h)
  rw [ensureJump, bind_apply hterm, hclosed]
  exact emit_apply hcurrent hopen (.jump target)

theorem eq_of_ensureJump (hcurrent : s.current < s.fn.blockCount) (hopen : s.IsOpen) {target : BlockId}
    {s' : Lowering} {u : Unit} (h : ensureJump target s = .ok (u, s')) :
    s' = s.pushed (.jump target s.line) :=
  (Prod.mk.inj (Except.ok.inj (h.symm.trans (ensureJump_of_isOpen hcurrent hopen target)))).2

/-- A closed block needs no jump. -/
theorem ensureJump_of_closed (hcurrent : s.current < s.fn.blockCount)
    (hclosed : s.fn.Closed s.current) (target : BlockId) : ensureJump target s = .ok ((), s) := by
  obtain ⟨closed, hterm, hiff⟩ := isTerminated_apply hcurrent
  rw [ensureJump, bind_apply hterm, hiff.mpr hclosed]
  rfl

/-- Computing a new register from one source. -/
theorem emitUnary_apply (hcurrent : s.current < s.fn.blockCount) (hopen : s.IsOpen)
    (opcode : Opcode) (ty : Option TypeId) (src : Operand) :
    emitUnary opcode ty src s = .ok (.reg s.fn.regCount ty,
      s.withReg.pushed (.unary opcode (.reg s.fn.regCount ty) src s.line)) := by
  have hemit := emit_apply (s := s.withReg) hcurrent hopen
    (.unary opcode (.reg s.fn.regCount ty) src)
  rw [emitUnary, bind_apply (t := s.withReg) rfl, bind_apply hemit]
  rfl

/-- Computing a new register from two sources. -/
theorem emitBinary_apply (hcurrent : s.current < s.fn.blockCount) (hopen : s.IsOpen)
    (opcode : Opcode) (ty : Option TypeId) (lhs rhs : Operand) :
    emitBinary opcode ty lhs rhs s = .ok (.reg s.fn.regCount ty,
      s.withReg.pushed (.binary opcode (.reg s.fn.regCount ty) lhs rhs s.line)) := by
  have hemit := emit_apply (s := s.withReg) hcurrent hopen
    (.binary opcode (.reg s.fn.regCount ty) lhs rhs)
  rw [emitBinary, bind_apply (t := s.withReg) rfl, bind_apply hemit]
  rfl

/-- Writing a variable. -/
theorem writeVar_apply (hcurrent : s.current < s.fn.blockCount) (hopen : s.IsOpen)
    (name : Name) (ty : Option TypeId) (value : Operand) :
    writeVar name ty value s = .ok ((), (s.withVar name ty).pushed
      (.unary .copy (.reg (s.fn.varLookup name ty).1 ty) value s.line)) := by
  have hcurrent' : (s.withVar name ty).current < (s.withVar name ty).fn.blockCount := by
    rw [Function.blockCount, s.blocks_withVar]
    exact hcurrent
  have hopen' : (s.withVar name ty).IsOpen := by
    rw [Lowering.IsOpen, Function.Closed, s.code_withVar]
    exact hopen
  rw [writeVar, bind_apply (t := s.withVar name ty) rfl, emit_apply hcurrent' hopen']
  rfl

end LowerM

end MiddleEnd
