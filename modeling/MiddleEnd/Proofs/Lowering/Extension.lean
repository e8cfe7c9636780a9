import MiddleEnd.Proofs.Interner
import MiddleEnd.Proofs.Lowering.Growth

/-!
# What lowering adds

Lowering only ever adds: instructions to blocks, blocks, registers, variables and string literals. So
what is true of a state in this respect is true of all later ones, and of the function in the end.

## Main definitions

* `Lowering.Extends`: what a state may become.
* `Lowering.Tidy`: the current block is there, and so are the registers of the variables.
* `Lowering.Steps`: what lowering may do to a state.
* `Lowering.Waits`: a block was made for later.

## Main statements

* `Lowering.Extends.trans`, `Lowering.Extends.weaken`: putting extensions together.
* `Lowering.extends_pushed` and the lemmas next to it: the ways to extend a state.
* `Lowering.Waits.persists`: what was made for later stays as it is.
-/

namespace MiddleEnd

-- ════════════════════════════════════════════════════════════════════════
-- Extensions
-- ════════════════════════════════════════════════════════════════════════

namespace Function

/-- The next register belongs to no variable. -/
theorem not_isVarReg_regCount {f : Function} (h : ∀ var ∈ f.vars, var.reg < f.regCount) :
    ¬ f.IsVarReg f.regCount := by
  rintro ⟨var, hvar, heq⟩
  exact Nat.lt_irrefl _ (heq ▸ h var hvar)

theorem label?_pushed (f : Function) (c : BlockId) (i : Instr) (b : BlockId) :
    (f.pushed c i).label? b = f.label? b := by
  by_cases hb : c = b
  · simp [label?, pushed, modifyBlock, Array.getElem?_modify, hb, Function.comp_def]
  · simp [label?, pushed, modifyBlock, Array.getElem?_modify, hb]

theorem label?_grown (f : Function) (label : String) (b : BlockId) :
    (f.grown label).label? b = if b = f.blockCount then some label else f.label? b := by
  by_cases hb : b = f.blockCount
  · simp [label?, grown, newBlock, blockCount, hb]
  · rw [if_neg hb]
    rw [blockCount] at hb
    simp [label?, grown, newBlock, Array.getElem?_push, hb]

end Function

namespace Lowering

/-- What a state may become, seen from a time when there were `m` blocks. Blocks keep their labels, and phis
stand only in blocks where two sides of an operator meet. -/
structure Extends (m : Nat) (s s' : Lowering) : Prop extends s.Keeps m s' where
  label : ∀ b < s.fn.blockCount, s'.fn.label? b = s.fn.label? b
  phis : ∀ b, ∀ i ∈ s'.fn.code b, i.isPhi = true →
    i ∈ s.fn.code b ∨ s'.fn.label? b = some "logic_merge"
  texts : ∀ text id, s.texts.lookup text = some id → s'.texts.lookup text = some id

namespace Extends

variable {m : Nat} {s s₁ s₂ s₃ s' : Lowering}

theorem trans (h : s₁.Extends m s₂) (h' : s₂.Extends m s₃) : s₁.Extends m s₃ where
  toKeeps := h.toKeeps.trans h'.toKeeps
  label b hb := (h'.label b (Nat.lt_of_lt_of_le hb h.blocks)).trans (h.label b hb)
  phis b i hi hphi := by
    obtain hi | hlabel := h'.phis b i hi hphi
    · refine (h.phis b i hi hphi).imp id fun hlabel => ?_
      rw [h'.label b (Function.lt_of_mem_code hi), hlabel]
    · exact .inr hlabel
  texts text id hid := h'.texts text id (h.texts text id hid)

/-- What holds seen from a later time holds seen from an earlier one. -/
theorem weaken {m' : Nat} (h : s.Extends m s') (hm : m' ≤ m) : s.Extends m' s' :=
  { h with toKeeps := h.toKeeps.weaken hm }

end Extends

-- ════════════════════════════════════════════════════════════════════════
-- Single steps
-- ════════════════════════════════════════════════════════════════════════

variable {m : Nat} {s s' : Lowering}

/-- A change that leaves all instructions alone. -/
theorem extends_of_code (hkeeps : s.Keeps m s') (hcode : s'.fn.code = s.fn.code)
    (hlabel : ∀ b < s.fn.blockCount, s'.fn.label? b = s.fn.label? b)
    (htexts : ∀ text id, s.texts.lookup text = some id → s'.texts.lookup text = some id) :
    s.Extends m s' where
  toKeeps := hkeeps
  label := hlabel
  phis _ _ hi _ := .inl (hcode ▸ hi)
  texts := htexts

/-- A change of the state around the function, or of the current block. -/
theorem extends_of_fn (hfn : s'.fn = s.fn) (htexts : s'.texts = s.texts)
    (hcurrent : s'.current = s.current ∨ m ≤ s'.current) : s.Extends m s' :=
  extends_of_code (.of_fn hfn hcurrent) (by rw [hfn]) (fun _ _ => by rw [hfn])
    (by rw [htexts]; exact fun _ _ => id)

theorem Extends.refl (m : Nat) (s : Lowering) : s.Extends m s := extends_of_fn rfl rfl (.inl rfl)

theorem extends_switch {b : BlockId} (hb : m ≤ b) : s.Extends m { s with current := b } :=
  extends_of_fn rfl rfl (.inr hb)

theorem extends_grown (label : String) : s.Extends m (s.grown label) :=
  extends_of_code (.grown label) (funext (s.fn.code_grown label))
    (fun b hb => by
      rw [show (s.grown label).fn.label? b = _ from s.fn.label?_grown label b, if_neg (Nat.ne_of_lt hb)])
    fun _ _ => id

theorem extends_withReg : s.Extends m s.withReg :=
  extends_of_code .withReg rfl (fun _ _ => rfl) fun _ _ => id

theorem extends_withVar (name : Name) (ty : Option TypeId) : s.Extends m (s.withVar name ty) :=
  extends_of_code (.withVar name ty) (s.code_withVar name ty)
    (fun b _ => by rw [Function.label?, s.blocks_withVar name ty]; rfl) fun _ _ => id

theorem extends_intern (text : String) :
    s.Extends m { s with texts := (s.texts.intern text).2 } :=
  extends_of_code (.of_fn rfl (.inl rfl)) rfl (fun _ _ => rfl) fun _ _ => Interner.lookup_intern text

/-- Appending an instruction to the current block. -/
theorem extends_pushed {i : Instr}
    (hphi : i.isPhi = true → s.fn.label? s.current = some "logic_merge") :
    s.Extends m (s.pushed i) where
  toKeeps := .pushed i
  label b _ := s.fn.label?_pushed s.current i b
  phis b j hj hjphi := by
    obtain hj | ⟨rfl, rfl⟩ := s.fn.mem_code_pushed s.current i hj
    · exact .inl hj
    · exact .inr ((s.fn.label?_pushed _ _ _).trans (hphi hjphi))
  texts _ _ := id

-- ════════════════════════════════════════════════════════════════════════
-- Changes around the function
-- ════════════════════════════════════════════════════════════════════════

/-- The change leaves the function alone, and where instructions go and labels are. -/
structure Peripheral (g : Lowering → Lowering) : Prop where
  fn : ∀ s, (g s).fn = s.fn
  texts : ∀ s, (g s).texts = s.texts
  current : ∀ s, (g s).current = s.current
  gotos : ∀ s, (g s).gotoTargets = s.gotoTargets
  labels : ∀ s, (g s).labelBlocks = s.labelBlocks

namespace Peripheral

theorem extends_apply {g : Lowering → Lowering} (h : Peripheral g) (s : Lowering) : s.Extends m (g s) :=
  extends_of_fn (h.fn s) (h.texts s) (.inl (h.current s))

theorem line (line : Nat) : Peripheral fun s => { s with line } :=
  ⟨fun _ => rfl, fun _ => rfl, fun _ => rfl, fun _ => rfl, fun _ => rfl⟩

theorem pushBreak (exit : BlockId) : Peripheral (·.pushBreak exit) :=
  ⟨fun _ => rfl, fun _ => rfl, fun _ => rfl, fun _ => rfl, fun _ => rfl⟩

theorem popBreak : Peripheral (·.popBreak) :=
  ⟨fun _ => rfl, fun _ => rfl, fun _ => rfl, fun _ => rfl, fun _ => rfl⟩

theorem pushContinue (next : BlockId) : Peripheral (·.pushContinue next) :=
  ⟨fun _ => rfl, fun _ => rfl, fun _ => rfl, fun _ => rfl, fun _ => rfl⟩

theorem popContinue : Peripheral (·.popContinue) :=
  ⟨fun _ => rfl, fun _ => rfl, fun _ => rfl, fun _ => rfl, fun _ => rfl⟩

end Peripheral

-- ════════════════════════════════════════════════════════════════════════
-- Steps
-- ════════════════════════════════════════════════════════════════════════

/-- The current block is there, and so are the registers of the variables. -/
structure Tidy (s : Lowering) : Prop where
  current : s.current < s.fn.blockCount
  vars : ∀ var ∈ s.fn.vars, var.reg < s.fn.regCount

theorem Tidy.extends (h : s.Tidy) (hext : s.Extends m s') (hcurrent : s'.current < s'.fn.blockCount) :
    s'.Tidy := ⟨hcurrent, hext.vars_lt h.vars⟩

/-- A new register belongs to no variable. -/
theorem Tidy.not_isVarReg (h : s.Tidy) : ¬ s.fn.IsVarReg s.fn.regCount :=
  Function.not_isVarReg_regCount h.vars

/-- What lowering may do to a state, seen from a time when there were `m` blocks. -/
structure Steps (m : Nat) (s s' : Lowering) : Prop where
  grows : s.Extends m s'
  tidy : s'.Tidy
  scopes : SameScopes s s'

namespace Steps

variable {s₁ s₂ s₃ : Lowering}

theorem refl (h : s.Tidy) : Steps m s s := ⟨.refl m s, h, .refl s⟩

theorem trans (h : Steps m s₁ s₂) (h' : Steps m s₂ s₃) : Steps m s₁ s₃ :=
  ⟨h.grows.trans h'.grows, h'.tidy, h.scopes.trans h'.scopes⟩

theorem weaken {m' : Nat} (h : Steps m s s') (hm : m' ≤ m) : Steps m' s s' :=
  ⟨h.grows.weaken hm, h.tidy, h.scopes⟩

/-- What comes later comes from what was there before. -/
theorem extendsLast (h : Steps m s s') {last : Lowering} (hlast : s'.Extends 0 last) : s.Extends 0 last :=
  (h.grows.weaken (Nat.zero_le m)).trans hlast

/-- One thing after the other, each seen from its start. -/
theorem andThen (h : Steps s₁.fn.blockCount s₁ s₂) (h' : Steps s₂.fn.blockCount s₂ s₃) :
    Steps s₁.fn.blockCount s₁ s₃ :=
  h.trans (h'.weaken h.grows.blocks)

/-- A change of the state around the function. -/
theorem around (h : s.Tidy) (hfn : s'.fn = s.fn) (htexts : s'.texts = s.texts)
    (hcurrent : s'.current = s.current) (hscopes : SameScopes s s') : Steps m s s' := by
  have hgrows : s.Extends m s' := extends_of_fn hfn htexts (.inl hcurrent)
  refine ⟨hgrows, h.extends hgrows ?_, hscopes⟩
  rw [hcurrent, hfn]
  exact h.current

theorem grown (h : s.Tidy) (label : String) : Steps m s (s.grown label) := by
  refine ⟨extends_grown label, h.extends (extends_grown (m := m) label) ?_, ⟨rfl, rfl, rfl, rfl⟩⟩
  exact Nat.lt_of_lt_of_le h.current (extends_grown (m := m) label).blocks

theorem withReg (h : s.Tidy) : Steps m s s.withReg :=
  ⟨extends_withReg, h.extends (extends_withReg (m := m)) h.current, ⟨rfl, rfl, rfl, rfl⟩⟩

theorem withVar (h : s.Tidy) (name : Name) (ty : Option TypeId) : Steps m s (s.withVar name ty) := by
  refine ⟨extends_withVar name ty, h.extends (extends_withVar (m := m) name ty) ?_, ⟨rfl, rfl, rfl, rfl⟩⟩
  exact Nat.lt_of_lt_of_le h.current (extends_withVar (m := m) name ty).blocks

theorem pushed (h : s.Tidy) {i : Instr}
    (hphi : i.isPhi = true → s.fn.label? s.current = some "logic_merge") : Steps m s (s.pushed i) := by
  refine ⟨extends_pushed hphi, h.extends (extends_pushed (m := m) hphi) ?_, ⟨rfl, rfl, rfl, rfl⟩⟩
  exact Nat.lt_of_lt_of_le h.current (extends_pushed (m := m) hphi).blocks

theorem switch (h : s.Tidy) {b : BlockId} (hm : m ≤ b) (hb : b < s.fn.blockCount) :
    Steps m s { s with current := b } :=
  ⟨extends_switch hm, h.extends (extends_switch (m := m) hm) hb, ⟨rfl, rfl, rfl, rfl⟩⟩

end Steps

-- ════════════════════════════════════════════════════════════════════════
-- Blocks for later
-- ════════════════════════════════════════════════════════════════════════

/-- A block that was made for later. -/
structure Waits (s : Lowering) (label : String) (t : BlockId) : Prop where
  lt : t < s.fn.blockCount
  ne : t ≠ s.current
  code : s.fn.code t = []
  label : s.fn.label? t = some label

namespace Waits

variable {label : String} {t : BlockId}

theorem grown_self (hcurrent : s.current < s.fn.blockCount) (label : String) :
    (s.grown label).Waits label s.fn.blockCount where
  lt := by
    rw [show (s.grown label).fn.blockCount = _ from s.fn.blockCount_grown label]
    exact Nat.lt_succ_self _
  ne := Nat.ne_of_gt hcurrent
  code := by
    rw [show (s.grown label).fn.code _ = _ from s.fn.code_grown label _]
    simp [Function.code, Function.blockCount]
  label := (s.fn.label?_grown label _).trans (if_pos rfl)

/-- A block waits until it becomes the current one. -/
theorem persists (h : s.Waits label t) (hext : s.Extends m s') (ht : t < m) : s'.Waits label t where
  lt := Nat.lt_of_lt_of_le h.lt hext.blocks
  ne := by
    obtain heq | hge := hext.current
    · rw [heq]
      exact h.ne
    · exact Nat.ne_of_lt (Nat.lt_of_lt_of_le ht hge)
  code := (hext.kept t ht h.ne).trans h.code
  label := (hext.label t h.lt).trans h.label

theorem steps (h : s.Waits label t) (hsteps : Steps s.fn.blockCount s s') : s'.Waits label t :=
  h.persists hsteps.grows h.lt

theorem switch (h : s.Waits label t) {b : BlockId} (hne : t ≠ b) :
    Waits { s with current := b } label t :=
  ⟨h.lt, hne, h.code, h.label⟩

end Waits

end Lowering

end MiddleEnd
