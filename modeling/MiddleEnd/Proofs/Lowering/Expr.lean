import MiddleEnd.Proofs.Lowering.Growth
import MiddleEnd.Proofs.Semantics.Machine

/-!
# Lowered expressions

Lowering an expression keeps the invariant, and the operand that it answers can be used from then on.

## Main definitions

* `LowerM.Computes`: actions that lower an expression.
* `lowerTest`: the condition of a loop, which may be missing.

## Main statements

* `computes_lowerLogical`: the operators that may skip an operand.
* `SourceUnit.computes_lowerExpr`: every expression.
-/

namespace MiddleEnd

open LowerM Lowering

/-- An operation that is neither a terminator nor a phi. -/
def Opcode.IsStraight (op : Opcode) : Prop := op.isTerminator = false ∧ op ≠ .phi

instance (op : Opcode) : Decidable op.IsStraight := inferInstanceAs (Decidable (_ ∧ _))

theorem BinaryOp.isStraight_opcode (op : BinaryOp) : op.opcode.IsStraight := by
  cases op <;> decide

namespace Lowering

variable {avail : Avail} {s : Lowering}

/-- An instruction with a straight operation and no detail is straight. -/
theorem straight_of_isStraight {i : Instr} (hop : i.opcode.IsStraight) (hdetail : i.detail = .none) :
    i.Straight :=
  ⟨hop.1, by simpa [Instr.isPhi] using hop.2, hdetail⟩

/-- A register that was not handed out is written nowhere. -/
theorem Sound.not_defines (h : s.Sound avail) {r : Reg} (hr : s.fn.regCount ≤ r) :
    ¬ s.fn.Defines r := fun hdefines => Nat.not_lt.mpr hr (h.lt_of_defines hdefines)

/-- A register that was not handed out belongs to no variable. -/
theorem Sound.not_isVarReg (h : s.Sound avail) {r : Reg} (hr : s.fn.regCount ≤ r) :
    ¬ s.fn.IsVarReg r := by
  rintro ⟨var, hvar, rfl⟩
  exact Nat.not_lt.mpr hr (h.vars.lt var hvar)

/-- Computing a new register. -/
theorem Sound.compute (h : s.Sound avail) (hopen : s.IsOpen) {i : Instr} {ty : Option TypeId}
    (hi : i.Straight) (hdst : i.dst = .reg s.fn.regCount ty) (hsrc1 : s.Readable avail i.src1)
    (hsrc2 : s.Readable avail i.src2) :
    Reaches avail avail s (s.withReg.pushed i) ∧
      (s.withReg.pushed i).Usable avail (.reg s.fn.regCount ty) := by
  have hwider : ∀ {operand}, s.Readable avail operand → s.withReg.Readable avail operand :=
    fun ho r hr => ⟨Nat.lt_succ_of_lt (ho r hr).1, (ho r hr).2⟩
  obtain ⟨hsound, hopen'⟩ := Reaches.push h.withReg hopen hi (hwider hsrc1) (hwider hsrc2) (by
    intro r hr
    obtain rfl : s.fn.regCount = r := by simpa [hdst, Operand.reg?] using hr
    exact ⟨Nat.lt_succ_self _, .inr (h.not_defines (Nat.le_refl _))⟩)
  refine ⟨⟨hsound, hopen', ?_, fun r hr => now_pushed (s := s.withReg) i hr⟩, ?_⟩
  · refine grows_withReg.trans (grows_pushed ?_ ?_ ?_)
    · simp [targets_of_not_isTerminator hi.terminator]
    · simp [hi.phi]
    · intro r hr
      have hr' : some s.fn.regCount = some r := by simpa [Instr.def?, hdst, Operand.reg?] using hr
      exact .inl (Nat.le_of_eq (Option.some.inj hr'))
  · intro r hr
    obtain rfl : s.fn.regCount = r := by simpa [Operand.reg?] using hr
    refine ⟨Nat.lt_succ_self _, now_pushed_self (s := s.withReg) h.current ?_
      (h.not_isVarReg (Nat.le_refl _))⟩
    rw [Instr.def?, hdst]
    rfl

/-- Appending an instruction that writes nothing. -/
theorem Sound.perform (h : s.Sound avail) (hopen : s.IsOpen) {i : Instr} (hi : i.Straight)
    (hdst : i.dst = .none) (hsrc1 : s.Readable avail i.src1) (hsrc2 : s.Readable avail i.src2) :
    Reaches avail avail s (s.pushed i) := by
  obtain ⟨hsound, hopen'⟩ := Reaches.push h hopen hi hsrc1 hsrc2 (by simp [hdst, Operand.reg?])
  refine ⟨hsound, hopen', grows_pushed ?_ ?_ ?_, fun r hr => now_pushed i hr⟩
  · simp [targets_of_not_isTerminator hi.terminator]
  · simp [hi.phi]
  · simp [Instr.def?, hdst, Operand.reg?]

/-- Looking up a variable. -/
theorem Sound.reaches_withVar (h : s.Sound avail) (hopen : s.IsOpen) (name : Name)
    (ty : Option TypeId) : Reaches avail avail s (s.withVar name ty) ∧
      (s.withVar name ty).Readable avail (.reg (s.fn.varLookup name ty).1 ty) := by
  have hcode := s.code_withVar name ty
  have hvar := s.isVarReg_withVar name ty
  have hgrows : Grows s.fn.blockCount s.fn.regCount avail avail s (s.withVar name ty) :=
    grows_withVar name ty
  refine ⟨⟨h.withVar name ty, ?_, hgrows, fun r hr => ?_⟩, fun r hr => ?_⟩
  · rw [IsOpen, Function.Closed, hcode]
    exact hopen
  · refine ⟨hgrows.not_isVarReg (h.lt_of_now hr) hr.1, ?_⟩
    rw [hcode]
    exact hr.2
  · obtain rfl : (s.fn.varLookup name ty).1 = r := by simpa [Operand.reg?] using hr
    refine ⟨?_, .inl hvar⟩
    obtain ⟨var, hmem, hreg⟩ := hvar
    rw [← hreg]
    exact (h.withVar name ty).vars.lt var hmem

/-- Writing a variable. -/
theorem Sound.assign (h : s.Sound avail) (hopen : s.IsOpen) {i : Instr} {name : Name}
    {ty : Option TypeId} (hi : i.Straight) (hdst : i.dst = .reg (s.fn.varLookup name ty).1 ty)
    (hsrc1 : s.Readable avail i.src1) (hsrc2 : i.src2 = .none) :
    Reaches avail avail s ((s.withVar name ty).pushed i) := by
  obtain ⟨hreach, hreadable⟩ := h.reaches_withVar hopen name ty
  have hvar := s.isVarReg_withVar name ty
  obtain ⟨hsound, hopen'⟩ := Reaches.push hreach.sound hreach.isOpen hi (hsrc1.reaches hreach)
    (by intro r hr; simp [hsrc2, Operand.reg?] at hr) (by
      intro r hr
      rw [hdst] at hr
      obtain rfl : (s.fn.varLookup name ty).1 = r := by simpa [Operand.reg?] using hr
      exact ⟨(hreadable _ rfl).1, .inl hvar⟩)
  refine ⟨hsound, hopen', hreach.grows.trans (grows_pushed ?_ ?_ ?_), fun r hr =>
    now_pushed i (hreach.now r hr)⟩
  · simp [targets_of_not_isTerminator hi.terminator]
  · simp [hi.phi]
  · intro r hr
    rw [Instr.def?, hdst] at hr
    obtain rfl : (s.fn.varLookup name ty).1 = r := by simpa [Operand.reg?] using hr
    exact .inr hvar

end Lowering

-- ════════════════════════════════════════════════════════════════════════
-- Actions
-- ════════════════════════════════════════════════════════════════════════

namespace LowerM

/-- The action lowers an expression: it leads from an open state to an open state and answers an operand
that can be used there. -/
def Computes (act : LowerM Operand) : Prop :=
  ∀ avail s, s.Sound avail → s.IsOpen → act.Ensures s fun operand s' =>
    ∃ avail', Reaches avail avail' s s' ∧ s'.Usable avail' operand

variable {avail : Avail} {s : Lowering}

theorem ensures_emitUnary (h : s.Sound avail) (hopen : s.IsOpen) {opcode : Opcode}
    (hop : opcode.IsStraight) (ty : Option TypeId) {src : Operand} (hsrc : s.Readable avail src) :
    (emitUnary opcode ty src).Ensures s fun operand s' =>
      Reaches avail avail s s' ∧ s'.Usable avail operand :=
  ensures_of_eq (emitUnary_apply h.current hopen opcode ty src)
    (h.compute hopen (straight_of_isStraight hop rfl) rfl hsrc (by simp [Readable, Instr.unary,
      Operand.reg?]))

theorem ensures_emitBinary (h : s.Sound avail) (hopen : s.IsOpen) {opcode : Opcode}
    (hop : opcode.IsStraight) (ty : Option TypeId) {lhs rhs : Operand}
    (hlhs : s.Readable avail lhs) (hrhs : s.Readable avail rhs) :
    (emitBinary opcode ty lhs rhs).Ensures s fun operand s' =>
      Reaches avail avail s s' ∧ s'.Usable avail operand :=
  ensures_of_eq (emitBinary_apply h.current hopen opcode ty lhs rhs)
    (h.compute hopen (straight_of_isStraight hop rfl) rfl hlhs hrhs)

theorem ensures_writeVar (h : s.Sound avail) (hopen : s.IsOpen) (name : Name)
    (ty : Option TypeId) {value : Operand} (hvalue : s.Readable avail value) :
    (writeVar name ty value).Ensures s fun _ s' => Reaches avail avail s s' :=
  ensures_of_eq (writeVar_apply h.current hopen name ty value)
    (h.assign hopen (straight_of_isStraight (show Opcode.copy.IsStraight by decide) rfl) rfl hvalue
      rfl)

/-- Appending an instruction that is neither a terminator nor a phi, and writes nothing. -/
theorem ensures_emit (h : s.Sound avail) (hopen : s.IsOpen) {instr : Nat → Instr}
    (hi : ∀ line, (instr line).Straight ∧ (instr line).dst = .none ∧
      s.Readable avail (instr line).src1 ∧ s.Readable avail (instr line).src2) :
    (emit instr).Ensures s fun _ s' => Reaches avail avail s s' := by
  obtain ⟨hstraight, hdst, hsrc1, hsrc2⟩ := hi s.line
  exact ensures_of_eq (emit_apply h.current hopen instr) (h.perform hopen hstraight hdst hsrc1 hsrc2)

theorem readable_of_reg? {operand : Operand} (h : operand.reg? = none) :
    s.Readable avail operand := by
  intro r hr
  rw [h] at hr
  cases hr

/-- Storing through an address. -/
theorem ensures_store (h : s.Sound avail) (hopen : s.IsOpen) {addr value : Operand}
    (haddr : s.Readable avail addr) (hvalue : s.Readable avail value) :
    (emit (.store addr value)).Ensures s fun _ s' => Reaches avail avail s s' :=
  ensures_emit h hopen fun _ =>
    ⟨straight_of_isStraight (show Opcode.store.IsStraight by decide) rfl, rfl, haddr, hvalue⟩

/-- Another line for the time of an action. -/
theorem ensures_withLine {α : Type} {line : Nat} {act : LowerM α} {Q : α → Lowering → Prop}
    (h : act.Ensures { s with line } fun a s' => Q a { s' with line := s.line }) :
    (withLine line act).Ensures s Q := by
  exact ensures_get_bind (ensures_between h)

theorem Computes.withLine {act : LowerM Operand} (hact : act.Computes) (line : Nat) :
    (withLine line act).Computes := by
  intro avail s hsound hopen
  have halike : Alike s { s with line } := ⟨rfl, rfl, ⟨rfl, rfl, rfl, rfl⟩⟩
  refine ensures_withLine ((hact avail _ (halike.sound hsound) hopen).mono ?_)
  rintro operand s' ⟨avail', hreach, husable⟩
  exact ⟨avail', halike.reaches hreach ⟨rfl, rfl, ⟨rfl, rfl, rfl, rfl⟩⟩, husable⟩

end LowerM

-- ════════════════════════════════════════════════════════════════════════
-- Short-circuit operators
-- ════════════════════════════════════════════════════════════════════════

namespace Lowering

variable {avail avail' : Avail} {s s' : Lowering} {m k : Nat}

/-- A block that was set aside: it is empty, and nothing leads to it yet. -/
structure Idle (s : Lowering) (t : BlockId) : Prop where
  pos : 0 < t
  lt : t < s.fn.blockCount
  code : s.fn.code t = []
  unlinked : ∀ x, ¬ s.fn.LeadsTo x t
  scopes : t ∉ s.scopes
  ne : t ≠ s.current

/-- A block that was just appended is idle. -/
theorem Sound.idle_grown (h : s.Sound avail) (label : String) :
    (s.grown label).Idle s.fn.blockCount := by
  refine ⟨Nat.lt_of_le_of_lt (Nat.zero_le _) h.current, ?_, ?_, ?_, ?_, Nat.ne_of_gt h.current⟩
  · rw [show (s.grown label).fn.blockCount = _ from s.fn.blockCount_grown label]
    exact Nat.lt_succ_self _
  · rw [show (s.grown label).fn.code s.fn.blockCount = _ from s.fn.code_grown label _, Function.code,
      Function.blockCount]
    simp
  · rintro x ⟨i, hi, ht⟩
    rw [show (s.grown label).fn.code x = _ from s.fn.code_grown label x] at hi
    exact Nat.lt_irrefl _ (h.edges x i hi _ ht).2.1
  · exact fun hmem => Nat.lt_irrefl _ (h.scopes _ hmem).lt

theorem Idle.grown {t : BlockId} (h : s.Idle t) (label : String) : (s.grown label).Idle t where
  pos := h.pos
  lt := by
    rw [show (s.grown label).fn.blockCount = _ from s.fn.blockCount_grown label]
    exact Nat.lt_succ_of_lt h.lt
  code := (s.fn.code_grown label t).trans h.code
  unlinked := by
    rintro x ⟨i, hi, ht⟩
    rw [show (s.grown label).fn.code x = _ from s.fn.code_grown label x] at hi
    exact h.unlinked x ⟨i, hi, ht⟩
  scopes := h.scopes
  ne := h.ne

/-- An idle block stays idle while an expression is lowered. -/
theorem Idle.reaches {t : BlockId} (h : s.Idle t) (hreach : Reaches avail avail' s s') :
    s'.Idle t where
  pos := h.pos
  lt := Nat.lt_of_lt_of_le h.lt hreach.grows.blocks
  code := (hreach.grows.kept t h.lt h.ne).trans h.code
  unlinked := by
    rintro x ⟨i, hi, ht⟩
    rcases hreach.grows.edges x i hi with hi | hge
    · exact h.unlinked x ⟨i, hi, ht⟩
    · exact Nat.not_lt.mpr (hge t ht) h.lt
  scopes := by rw [hreach.grows.scopes.scopes_eq]; exact h.scopes
  ne := by
    rcases hreach.grows.current with heq | hge
    · rw [heq]
      exact h.ne
    · exact Nat.ne_of_lt (Nat.lt_of_lt_of_le h.lt hge)

/-- A register that was set aside: it belongs to no variable, and nothing writes it yet. -/
structure Spare (s : Lowering) (r : Reg) : Prop where
  below : r < s.fn.regCount
  notVar : ¬ s.fn.IsVarReg r
  fresh : ¬ s.fn.Defines r

/-- A register that was just handed out is spare. -/
theorem Sound.spare_withReg (h : s.Sound avail) : s.withReg.Spare s.fn.regCount :=
  ⟨Nat.lt_succ_self _, h.not_isVarReg (Nat.le_refl _), h.not_defines (Nat.le_refl _)⟩

/-- A spare register stays spare while an expression is lowered. -/
theorem Spare.reaches {r : Reg} (h : s.Spare r) (hreach : Reaches avail avail' s s') :
    s'.Spare r := by
  have hnotVar := hreach.grows.not_isVarReg h.below h.notVar
  refine ⟨Nat.lt_of_lt_of_le h.below hreach.grows.regs, hnotVar, fun hdef => ?_⟩
  rcases hreach.grows.defs r hdef with hdef | hge | hvar
  · exact h.fresh hdef
  · exact Nat.not_lt.mpr hge h.below
  · exact hnotVar hvar

theorem Sound.reaches_withReg (h : s.Sound avail) (hopen : s.IsOpen) :
    Reaches avail avail s s.withReg :=
  ⟨h.withReg, hopen, grows_withReg, fun _ hr => hr⟩

theorem Sound.reaches_grown (h : s.Sound avail) (hopen : s.IsOpen) (label : String) :
    Reaches avail avail s (s.grown label) := by
  have hcode : (s.grown label).fn.code = s.fn.code := funext (s.fn.code_grown label)
  refine ⟨h.grown label, ?_, grows_grown label, fun r hr => ⟨hr.1, ?_⟩⟩
  · rw [IsOpen, Function.Closed, hcode]
    exact hopen
  · rw [hcode]
    exact hr.2

/-- What the registers that are now available make available in two blocks. -/
def fork (avail : Avail) (s : Lowering) (t u : BlockId) : Avail :=
  fun b => if b = t then s.Now avail else if b = u then s.Now avail else avail b

/-- A branch to two idle blocks hands on what is available. Lowering then goes on in the first. -/
theorem Sound.branch (h : s.Sound avail) (hopen : s.IsOpen) {t u : BlockId} (ht : s.Idle t)
    (hu : s.Idle u) {i : Instr} (hterm : i.isTerminator = true) (hdst : i.dst = .none)
    (hdetail : i.phiVar? = none ∧ i.phiArgs = []) (htargets : ∀ x ∈ i.targets, x = t ∨ x = u)
    (hsrc : ∀ r ∈ i.sources, r < s.fn.regCount ∧ s.Now avail r) (hsrc1 : i.src1.Below s.fn.regCount)
    (hsrc2 : i.src2.Below s.fn.regCount) : (s.pushed i).Sound (s.fork avail t u) := by
  have hnow : ∀ r, s.Now avail r → s.fn.Defines r ∧ ¬ s.fn.IsVarReg r := by
    intro r hr
    exact ⟨hr.2.elim (fun hr => (h.defined _ r hr).2.2.1) fun hr => ⟨_, hr⟩, hr.1⟩
  have hprovide : s.Sound (s.fork avail t u) :=
    (h.provide hu.pos hu.lt hu.code hu.unlinked hu.scopes hnow).provide ht.pos ht.lt ht.code
      ht.unlinked ht.scopes hnow
  have hcurrent : s.fork avail t u s.current = avail s.current := by
    rw [fork, if_neg (Ne.symm ht.ne), if_neg (Ne.symm hu.ne)]
  have hsame : ∀ r, s.Now avail r → s.Now (s.fork avail t u) r := by
    intro r hr
    rw [Now, hcurrent]
    exact hr
  have hphi : i.isPhi = false := i.isPhi_of_isTerminator hterm
  refine hprovide.push hopen ⟨⟨?_, hsrc1, hsrc2, ?_⟩,
    ⟨hdetail.1, fun _ => hdst, fun _ => hdetail.2, by simp [hphi]⟩,
    fun r hr => .inr (hsame r (hsrc r hr).2), fun x hx => ?_, ?_, ?_⟩
  · simp [hdst, Operand.Below, Operand.reg?]
  · simp [hdetail.2]
  · have hhand : ∀ r, s.fork avail t u x r → s.Now (s.fork avail t u) r := by
      intro r hr
      rcases htargets x hx with rfl | rfl
      · rw [fork, if_pos rfl] at hr
        exact hsame r hr
      · by_cases hxt : x = t
        · rw [fork, if_pos hxt] at hr
          exact hsame r hr
        · rw [fork, if_neg hxt, if_pos rfl] at hr
          exact hsame r hr
    rcases htargets x hx with rfl | rfl
    · exact ⟨ht.pos, ht.lt, hhand, by simp [ht.code]⟩
    · exact ⟨hu.pos, hu.lt, hhand, by simp [hu.code]⟩
  · simp [hphi]
  · simp [Instr.def?, hdst, Operand.reg?]

/-- Seen from a time before two blocks were appended, making registers available there changes
nothing. -/
theorem grows_fork {t u : BlockId} (ht : m ≤ t) (hu : m ≤ u) :
    Grows m k avail (s.fork avail t u) s s := by
  refine grows_of_code (.of_fn rfl (.inl rfl)) rfl (fun b hb => ?_) (.refl s)
  rw [fork, if_neg (Nat.ne_of_lt (Nat.lt_of_lt_of_le hb ht)),
    if_neg (Nat.ne_of_lt (Nat.lt_of_lt_of_le hb hu))]

/-- A block to which one edge leads already, from `p`, and which waits for one from the current block. It
will join the two sides of an operator in the register `result`. -/
structure Awaits (avail : Avail) (s : Lowering) (t p : BlockId) (result : Reg) : Prop where
  pos : 0 < t
  lt : t < s.fn.blockCount
  code : s.fn.code t = []
  scopes : t ∉ s.scopes
  current : t ≠ s.current
  leads : s.fn.LeadsTo p t
  only : ∀ x, s.fn.LeadsTo x t → x = p
  bound : p < s.fn.blockCount
  ne : p ≠ s.current
  avail : ∀ r, avail t r → s.Now avail r
  result : s.Spare result

/-- A block goes on waiting while an expression is lowered. -/
theorem Awaits.reaches {t p : BlockId} {result : Reg} (h : s.Awaits avail t p result)
    (hreach : Reaches avail avail' s s') : s'.Awaits avail' t p result := by
  have hgrows := hreach.grows
  have hapart : ∀ b, b < s.fn.blockCount → b ≠ s.current → b ≠ s'.current := by
    intro b hb hne
    rcases hgrows.current with heq | hge
    · rw [heq]
      exact hne
    · exact Nat.ne_of_lt (Nat.lt_of_lt_of_le hb hge)
  refine ⟨h.pos, Nat.lt_of_lt_of_le h.lt hgrows.blocks, ?_, ?_, hapart t h.lt h.current, ?_, ?_,
    Nat.lt_of_lt_of_le h.bound hgrows.blocks, hapart p h.bound h.ne, ?_, h.result.reaches hreach⟩
  · exact (hgrows.kept t h.lt h.current).trans h.code
  · rw [hgrows.scopes.scopes_eq]
    exact h.scopes
  · obtain ⟨i, hi, hx⟩ := h.leads
    exact ⟨i, (hgrows.code p).subset hi, hx⟩
  · rintro x ⟨i, hi, hx⟩
    rcases hgrows.edges x i hi with hi | hge
    · exact h.only x ⟨i, hi, hx⟩
    · exact absurd h.lt (Nat.not_lt.mpr (hge t hx))
  · intro r hr
    rw [hgrows.avail t h.lt] at hr
    exact hreach.now r (h.avail r hr)

/-- An empty block is open. -/
theorem isOpen_of_code (h : s.fn.code s.current = []) : s.IsOpen := by
  rintro ⟨i, hi, _⟩
  rw [h] at hi
  cases hi

/-- A jump to a block without phis, where nothing is available that is not available now. -/
theorem Sound.jump (h : s.Sound avail) (hopen : s.IsOpen) {t : BlockId} (hpos : 0 < t)
    (hlt : t < s.fn.blockCount) (hphi : ∀ i ∈ s.fn.code t, i.isPhi = false)
    (havail : ∀ r, avail t r → s.Now avail r) (line : Nat) : (s.pushed (.jump t line)).Sound avail := by
  refine h.push hopen ⟨⟨?_, ?_, ?_, ?_⟩, ⟨rfl, fun _ => rfl, fun _ => rfl, fun _ => rfl⟩, ?_, ?_, ?_, ?_⟩
  · simp [Instr.jump, Operand.Below, Operand.reg?]
  · simp [Instr.jump, Operand.Below, Operand.reg?]
  · simp [Instr.jump, Operand.Below, Operand.reg?]
  · simp [Instr.jump, Instr.phiArgs]
  · simp [Instr.jump, Instr.sources, Operand.reg?]
  · intro x hx
    obtain rfl : x = t := by simpa [Instr.targets, Instr.jump, Operand.label?] using hx
    exact ⟨hpos, hlt, havail, hphi⟩
  · simp [Instr.jump, Instr.isPhi]
  · simp [Instr.jump, Instr.def?, Operand.reg?]

/-- The state after the current block was ended with a jump, and its target was made current. -/
def jumped (s : Lowering) (t : BlockId) : Lowering :=
  { s.pushed (.jump t s.line) with current := t }

theorem grows_jumped {t : BlockId} (ht : m ≤ t) : Grows m k avail avail s (s.jumped t) := by
  refine (grows_pushed ?_ ?_ ?_).trans (grows_switch (.inr ht))
  · intro x hx
    obtain rfl : x = t := by simpa [Instr.targets, Instr.jump, Operand.label?] using hx
    exact ht
  · simp [Instr.jump, Instr.isPhi]
  · simp [Instr.jump, Instr.def?, Operand.reg?]

/-- The second edge to a waiting block, which is then ready for its phi. -/
theorem Sound.jumped {t p : BlockId} {result : Reg} (h : s.Sound avail) (hopen : s.IsOpen)
    (ht : s.Awaits avail t p result) :
    (s.jumped t).Sound avail ∧ (s.jumped t).fn.code t = [] ∧
      ∀ q n ty ty' line, q ∈ defsOf (s.fn.code s.current) → ¬ s.fn.IsVarReg q →
        (s.jumped t).Fits avail
          (.phi (.reg result ty) none [⟨.int n, p⟩, ⟨.reg q ty', s.current⟩] line) := by
  have hjump := h.jump hopen ht.pos ht.lt (by simp [ht.code]) ht.avail s.line
  have hcount : (s.pushed (.jump t s.line)).fn.blockCount = s.fn.blockCount :=
    s.fn.blockCount_pushed s.current _
  have hempty : (s.jumped t).fn.code t = [] :=
    (s.fn.code_pushed_ne s.current _ ht.current).trans ht.code
  have hend : (s.jumped t).fn.code s.current = s.fn.code s.current ++ [.jump t s.line] :=
    s.fn.code_pushed_self s.current _ h.current
  refine ⟨hjump.switch (hcount ▸ ht.lt), hempty, fun q n ty ty' line hq hqVar => ?_⟩
  have hsides : (s.jumped t).fn.JoinsSides t
      (.phi (.reg result ty) none [⟨.int n, p⟩, ⟨.reg q ty', s.current⟩] line) := by
    refine ⟨n, p, q, ty', s.current, rfl, ht.ne, hqVar, ?_, ⟨result, ty, rfl, ht.result.notVar⟩,
      ht.leads.pushed _ _, ⟨.jump t s.line, ?_, ?_⟩, ?_⟩
    · rw [hend, defsOf_append]
      exact List.mem_append_left _ hq
    · rw [hend]
      exact List.mem_append_right _ List.mem_cons_self
    · simp [Instr.targets, Instr.jump, Operand.label?]
    · rintro x ⟨i, hi, hx⟩
      rcases s.fn.mem_code_pushed s.current _ hi with hi | ⟨rfl, _⟩
      · exact .inl (ht.only x ⟨i, hi, hx⟩)
      · exact .inr rfl
  have hfresh : ¬ (s.jumped t).fn.Defines result := by
    intro hdefines
    rcases Function.Defines.of_pushed hdefines with hold | hdef
    · exact ht.result.fresh hold
    · cases hdef
  refine ⟨⟨?_, ?_, ?_, ?_⟩, ⟨rfl, ?_, ?_, fun _ => rfl⟩, ?_, ?_, fun _ => ⟨hempty, ht.scopes, hsides⟩, ?_⟩
  · intro r hr
    obtain rfl : result = r := by simpa [Instr.phi, Operand.reg?] using hr
    exact ht.result.below
  · simp [Instr.phi, Operand.Below, Operand.reg?]
  · simp [Instr.phi, Operand.Below, Operand.reg?]
  · intro arg harg r hr
    rcases List.mem_cons.mp harg with rfl | harg
    · cases hr
    · obtain rfl := List.mem_singleton.mp harg
      obtain rfl : q = r := by simpa [Operand.reg?] using hr
      exact h.lt_of_defines ⟨s.current, hq⟩
  · simp [Instr.phi, Instr.isTerminator, Opcode.isTerminator]
  · simp [Instr.phi, Instr.isPhi]
  · simp [Instr.phi, Instr.sources, Operand.reg?]
  · simp [Instr.phi, Instr.targets]
  · intro r hr
    obtain rfl : result = r := by simpa [Instr.def?, Instr.phi, Operand.reg?] using hr
    exact .inr hfresh

/-- The state after a branch to two blocks, the first of which was made current. -/
def forked (s : Lowering) (i : Instr) (t : BlockId) : Lowering := { s.pushed i with current := t }

/-- After the branch, the right operand has the first block to itself, and the second one waits. -/
theorem Sound.forked (h : s.Sound avail) (hopen : s.IsOpen) {t u : BlockId} {result : Reg}
    (ht : s.Idle t) (hu : s.Idle u) (hne : t ≠ u) {cond : Operand} (hcond : s.Usable avail cond)
    {x y : BlockId} (hxy : ∀ z, z ∈ [x, y] ↔ z = t ∨ z = u) (line : Nat)
    (hresult : s.Spare result) :
    (s.forked (.branch cond x y line) t).Sound (s.fork avail t u) ∧
      (s.forked (.branch cond x y line) t).IsOpen ∧
      (s.forked (.branch cond x y line) t).Awaits (s.fork avail t u) u s.current result ∧
      ∀ r, s.Now avail r → (s.forked (.branch cond x y line) t).Now (s.fork avail t u) r := by
  have hsound : (s.pushed (.branch cond x y line)).Sound (s.fork avail t u) := by
    refine h.branch hopen ht hu rfl rfl ⟨rfl, rfl⟩ (fun z hz => (hxy z).mp hz) ?_
      (fun r hr => (hcond r hr).1) ?_
    · intro r hr
      exact hcond r (by simpa [Instr.sources, Instr.branch, Operand.reg?] using hr)
    · simp [Instr.branch, Operand.Below, Operand.reg?]
  have hcount : (s.forked (.branch cond x y line) t).fn.blockCount = s.fn.blockCount :=
    s.fn.blockCount_pushed s.current _
  have hcode : ∀ b, b ≠ s.current → (s.forked (.branch cond x y line) t).fn.code b = s.fn.code b :=
    fun b hb => s.fn.code_pushed_ne s.current _ hb
  have hnow : ∀ r, s.Now avail r → (s.forked (.branch cond x y line) t).Now (s.fork avail t u) r := by
    intro r hr
    refine ⟨hr.1, .inl ?_⟩
    change s.fork avail t u t r
    rw [fork, if_pos rfl]
    exact hr
  refine ⟨hsound.switch (hcount ▸ ht.lt), isOpen_of_code ((hcode t ht.ne).trans ht.code), ?_, hnow⟩
  refine ⟨hu.pos, hcount ▸ hu.lt, (hcode u hu.ne).trans hu.code, hu.scopes, Ne.symm hne, ?_, ?_,
    hcount ▸ h.current, Ne.symm ht.ne, ?_, ⟨hresult.below, hresult.notVar, ?_⟩⟩
  · refine ⟨.branch cond x y line, ?_, (hxy u).mpr (.inr rfl)⟩
    rw [show (s.forked (.branch cond x y line) t).fn.code s.current = _ from
      s.fn.code_pushed_self s.current _ h.current]
    exact List.mem_append_right _ List.mem_cons_self
  · rintro z ⟨i, hi, hz⟩
    rcases s.fn.mem_code_pushed s.current _ hi with hi | ⟨rfl, _⟩
    · exact absurd ⟨i, hi, hz⟩ (hu.unlinked z)
    · rfl
  · intro r hr
    rw [fork, if_neg (Ne.symm hne), if_pos rfl] at hr
    exact hnow r hr
  · intro hdefines
    rcases Function.Defines.of_pushed hdefines with hold | hdef
    · exact hresult.fresh hold
    · cases hdef

theorem grows_forked {t u x y : BlockId} {cond : Operand} {line : Nat} (ht : m ≤ t) (hu : m ≤ u)
    (hxy : ∀ z, z ∈ [x, y] ↔ z = t ∨ z = u) :
    Grows m k avail (s.fork avail t u) s (s.forked (.branch cond x y line) t) := by
  refine ((grows_fork ht hu).trans (grows_pushed ?_ ?_ ?_)).trans (grows_switch (.inr ht))
  · intro z hz
    rcases (hxy z).mp hz with rfl | rfl
    · exact ht
    · exact hu
  · simp [Instr.branch, Instr.isPhi]
  · simp [Instr.branch, Instr.def?, Operand.reg?]

end Lowering

theorem LowerM.newBlock_apply (label : String) (s : Lowering) :
    newBlock label s = .ok (s.fn.blockCount, s.grown label) := rfl

/-- The branch after the left operand of a logical operator. -/
def sideBranch (isAnd : Bool) (left : Operand) (rhsBlock mergeBlock : BlockId) (line : Nat) : Instr :=
  if isAnd then .branch left rhsBlock mergeBlock line else .branch left mergeBlock rhsBlock line

theorem sideBranch_eq (isAnd : Bool) (left : Operand) (rhsBlock mergeBlock : BlockId) (line : Nat) :
    ∃ x y, sideBranch isAnd left rhsBlock mergeBlock line = .branch left x y line ∧
      ∀ z, z ∈ [x, y] ↔ z = rhsBlock ∨ z = mergeBlock := by
  cases isAnd with
  | true => exact ⟨rhsBlock, mergeBlock, rfl, by simp⟩
  | false => exact ⟨mergeBlock, rhsBlock, rfl, by simp [or_comm]⟩

/-- What follows the branch of a logical operator. -/
def lowerRight (lower : ExprId → LowerM Operand) (rhs : ExprId) (rhsBlock mergeBlock : BlockId)
    (result : Operand) (decided : Int) : LowerM Operand := do
  let lhsEnd ← current
  switchTo rhsBlock
  let right ← lower rhs
  let rightBool ← emitBinary .cmpNe none right (.int 0)
  ensureJump mergeBlock
  let rhsEnd ← current
  switchTo mergeBlock
  emit (.phi result none [⟨.int decided, lhsEnd⟩, ⟨rightBool, rhsEnd⟩])
  return result

theorem lowerLogical_eq (lower : ExprId → LowerM Operand) (isAnd : Bool) (lhs rhs : ExprId)
    (ty : Option TypeId) : lowerLogical lower isAnd lhs rhs ty = (do
      let result ← newTemp ty
      let rhsBlock ← newBlock (if isAnd then "and_rhs" else "or_rhs")
      let mergeBlock ← newBlock "logic_merge"
      let left ← lower lhs
      emit (sideBranch isAnd left rhsBlock mergeBlock)
      lowerRight lower rhs rhsBlock mergeBlock result (shortCircuitValue isAnd)) := by
  cases isAnd <;> rfl

/-- The end of a logical operator: its right operand is made into a truth value, and the two sides are
joined in the block that waits for it. -/
theorem ensures_join {avail : Avail} {s : Lowering} (hsound : s.Sound avail) (hopen : s.IsOpen)
    {t p : BlockId} {result : Reg} (ht : s.Awaits avail t p result) {right : Operand}
    (hright : s.Usable avail right) (ty : Option TypeId) (n : Int) {m : Nat} (hm : m ≤ t) :
    (do
      let rightBool ← emitBinary .cmpNe none right (.int 0)
      ensureJump t
      let rhsEnd ← current
      switchTo t
      emit (.phi (.reg result ty) none [⟨.int n, p⟩, ⟨rightBool, rhsEnd⟩])
      return .reg result ty : LowerM Operand).Ensures s fun operand s' =>
        operand = .reg result ty ∧ s'.Sound avail ∧ s'.IsOpen ∧ Grows m result avail avail s s' ∧
          (∀ r, avail t r → s'.Now avail r) ∧ s'.Now avail result := by
  refine ensures_bind_of_eq (emitBinary_apply hsound.current hopen .cmpNe none right _) ?_
  obtain ⟨hreach, husable⟩ := hsound.compute hopen
    (i := .binary .cmpNe (.reg s.fn.regCount none) right (.int 0) s.line)
    (straight_of_isStraight (show Opcode.cmpNe.IsStraight by decide) rfl) rfl hright.readable
    (readable_of_reg? rfl)
  have hdef : s.fn.regCount ∈ defsOf ((s.withReg.pushed (.binary .cmpNe
      (.reg s.fn.regCount none) right (.int 0) s.line)).fn.code s.current) := by
    rw [show (s.withReg.pushed _).fn.code s.current = _ from
      s.withReg.fn.code_pushed_self s.current _ hsound.current, defsOf_append]
    exact List.mem_append_right _ List.mem_cons_self
  have hcurrent : (s.withReg.pushed (.binary .cmpNe (.reg s.fn.regCount none) right (.int 0)
    s.line)).current = s.current := rfl
  generalize s.withReg.pushed (.binary .cmpNe (.reg s.fn.regCount none) right (.int 0) s.line) = s₁
    at hreach husable hdef hcurrent ⊢
  have hqVar := (husable s.fn.regCount rfl).2.1
  have hsound₁ := hreach.sound
  have ht₁ := ht.reaches hreach
  rw [← hcurrent] at hdef
  obtain ⟨hjumped, hempty, hfits⟩ := hsound₁.jumped hreach.isOpen ht₁
  have hfits := hfits s.fn.regCount n ty none s₁.line hdef hqVar
  refine ensures_bind_of_eq (ensureJump_of_isOpen hsound₁.current hreach.isOpen _)
    (ensures_bind_of_eq (a := s₁.current) (t := s₁.pushed (.jump t s₁.line)) rfl
      (ensures_bind_of_eq (a := ()) (t := s₁.jumped t) rfl
        (ensures_bind_of_eq (emit_apply hjumped.current (isOpen_of_code hempty) _)
          (ensures_pure ⟨rfl, ?_⟩))))
  refine ⟨hjumped.push (isOpen_of_code hempty) hfits, ?_, ?_, ?_, ?_⟩
  · intro hclosed
    have hterm := (closed_pushed hjumped.current _).mp hclosed
    simp [Instr.phi, Instr.isTerminator, Opcode.isTerminator] at hterm
  · refine ((hreach.grows.weaken ?_ (Nat.le_of_lt ht.result.below)).trans (grows_jumped hm)).trans
      (grows_pushed ?_ (fun _ => hm) ?_)
    · exact Nat.le_trans hm (Nat.le_of_lt ht.lt)
    · simp [Instr.phi, Instr.targets]
    · intro r hr
      exact .inl (Nat.le_of_eq (by simpa [Instr.def?, Instr.phi, Operand.reg?] using hr))
  · intro r hr
    exact ⟨(hsound₁.defined t r hr).2.2.2, .inl hr⟩
  · exact now_pushed_self hjumped.current rfl ht₁.result.notVar

/-- The operators that may skip their right operand. -/
theorem computes_lowerLogical {lower : ExprId → LowerM Operand} (hlower : ∀ id, (lower id).Computes)
    (isAnd : Bool) (lhs rhs : ExprId) (ty : Option TypeId) :
    (lowerLogical lower isAnd lhs rhs ty).Computes := by
  intro avail s hsound hopen
  rw [lowerLogical_eq]
  -- The register of the result and the two blocks.
  generalize (if isAnd = true then "and_rhs" else "or_rhs") = label
  have hcount : (s.withReg.grown label).fn.blockCount = s.fn.blockCount + 1 :=
    s.withReg.fn.blockCount_grown label
  refine ensures_bind_of_eq (a := .reg s.fn.regCount ty) (t := s.withReg) rfl
    (ensures_bind_of_eq (newBlock_apply label _) (ensures_bind_of_eq (newBlock_apply _ _) ?_))
  rw [hcount, show s.withReg.fn.blockCount = s.fn.blockCount from rfl]
  have hreach₁ := hsound.reaches_withReg hopen
  have hreach₂ := hreach₁.sound.reaches_grown hreach₁.isOpen label
  have hreach₃ := hreach₂.sound.reaches_grown hreach₂.isOpen "logic_merge"
  have hrhs : ((s.withReg.grown label).grown "logic_merge").Idle s.fn.blockCount :=
    (hreach₁.sound.idle_grown label).grown "logic_merge"
  have hmerge := hcount ▸ hreach₂.sound.idle_grown "logic_merge"
  have hspare := (hsound.spare_withReg.reaches hreach₂).reaches hreach₃
  have hgrows₁ : Grows s.fn.blockCount s.fn.regCount avail avail s s.withReg := grows_withReg
  have hgrows₃ := (hgrows₁.trans (grows_grown label)).trans (grows_grown "logic_merge")
  generalize (s.withReg.grown label).grown "logic_merge" = s₃ at *
  -- The left operand.
  refine (hlower lhs avail s₃ hreach₃.sound hreach₃.isOpen).bind ?_
  rintro left s₄ ⟨avail₄, hreach₄, husable₄⟩
  obtain ⟨x, y, hbranch, hxy⟩ := sideBranch_eq isAnd left s.fn.blockCount (s.fn.blockCount + 1) s₄.line
  refine ensures_bind_of_eq (emit_apply hreach₄.sound.current hreach₄.isOpen _) ?_
  rw [hbranch]
  -- The right operand.
  obtain ⟨hsound₅, hopen₅, hawaits₅, hnow₅⟩ := hreach₄.sound.forked hreach₄.isOpen
    (hrhs.reaches hreach₄) (hmerge.reaches hreach₄) (Nat.ne_of_lt (Nat.lt_succ_self _)) husable₄ hxy
    s₄.line (hspare.reaches hreach₄)
  refine ensures_bind_of_eq (a := s₄.current) (t := s₄.pushed (.branch left x y s₄.line)) rfl
    (ensures_bind_of_eq (a := ()) (t := s₄.forked (.branch left x y s₄.line) s.fn.blockCount) rfl ?_)
  have hgrows₅ : Grows s.fn.blockCount s.fn.regCount avail₄ _ s₄
      (s₄.forked (.branch left x y s₄.line) s.fn.blockCount) :=
    grows_forked (Nat.le_refl _) (Nat.le_succ _) hxy
  refine (hlower rhs _ _ hsound₅ hopen₅).bind ?_
  rintro right s₆ ⟨avail₆, hreach₆, husable₆⟩
  have hawaits₆ := hawaits₅.reaches hreach₆
  refine (ensures_join hreach₆.sound hreach₆.isOpen hawaits₆ husable₆ ty (shortCircuitValue isAnd)
    (m := s.fn.blockCount) (Nat.le_succ _)).mono ?_
  rintro operand s₇ ⟨rfl, hsound₇, hopen₇, hgrows₇, hnow₇, hresult₇⟩
  refine ⟨avail₆, ⟨hsound₇, hopen₇, ?_, ?_⟩, ?_⟩
  · have hblocks₃ := hgrows₃.blocks
    have hregs₃ := hgrows₃.regs
    have hblocks₅ := hgrows₅.blocks
    have hgrows := (hgrows₃.trans (hreach₄.grows.weaken hblocks₃ hregs₃)).trans hgrows₅
    exact (hgrows.trans (hreach₆.grows.weaken hgrows.blocks hgrows.regs)).trans hgrows₇
  · intro r hr
    have hr₄ := hreach₄.now r (hreach₃.now r (hreach₂.now r (hreach₁.now r hr)))
    refine hnow₇ r ?_
    rw [hreach₆.grows.avail _ hawaits₅.lt, fork,
      if_neg (Nat.succ_ne_self _), if_pos rfl]
    exact hr₄
  · intro r hr
    obtain rfl : s.fn.regCount = r := by simpa [Operand.reg?] using hr
    exact ⟨Nat.lt_of_lt_of_le hawaits₆.result.below hgrows₇.regs, hresult₇⟩
-- ════════════════════════════════════════════════════════════════════════
-- The other forms
-- ════════════════════════════════════════════════════════════════════════

section Forms

variable {unit : SourceUnit} {lower : ExprId → LowerM Operand}

/-- What follows the lowering of an expression starts where its value can be used. -/
theorem LowerM.Computes.ensures_bind {β : Type} {act : LowerM Operand} (hact : act.Computes)
    {avail : Avail} {s : Lowering} (hsound : s.Sound avail) (hopen : s.IsOpen)
    {next : Operand → LowerM β} {Q : β → Lowering → Prop}
    (hnext : ∀ operand s₁ avail₁, Reaches avail avail₁ s s₁ → s₁.Usable avail₁ operand →
      (next operand).Ensures s₁ Q) : (act >>= next).Ensures s Q := by
  refine (hact avail s hsound hopen).bind ?_
  rintro operand s₁ ⟨avail₁, hreach, husable⟩
  exact hnext operand s₁ avail₁ hreach husable

theorem computes_lowerIdent (name : Name) (ty : Option TypeId) :
    (lowerIdent name ty).Computes := by
  intro avail s hsound hopen
  obtain ⟨hreach, hreadable⟩ := hsound.reaches_withVar hopen name ty
  refine ensures_bind_of_eq (t := s.withVar name ty) rfl ?_
  refine (ensures_emitUnary hreach.sound hreach.isOpen (by decide) ty hreadable).mono ?_
  rintro operand s' ⟨hreach', husable⟩
  exact ⟨avail, hreach.trans hreach', husable⟩

/-- Computing from one operand. -/
theorem computes_unary {act : LowerM Operand} (hact : act.Computes) {opcode : Opcode}
    (hop : opcode.IsStraight) (ty : Option TypeId) :
    (act >>= fun operand => emitUnary opcode ty operand).Computes := by
  intro avail s hsound hopen
  refine hact.ensures_bind hsound hopen fun operand s₁ avail₁ hreach husable => ?_
  refine (ensures_emitUnary hreach.sound hreach.isOpen hop ty husable.readable).mono ?_
  rintro result s' ⟨hreach', husable'⟩
  exact ⟨avail₁, hreach.trans hreach', husable'⟩

/-- Computing from two operands, the left one first. -/
theorem computes_binary {left right : LowerM Operand} (hleft : left.Computes)
    (hright : right.Computes) (opcode : Opcode) (hop : opcode.IsStraight) (ty : Option TypeId) :
    (left >>= fun lhs => right >>= fun rhs => emitBinary opcode ty lhs rhs).Computes := by
  intro avail s hsound hopen
  refine hleft.ensures_bind hsound hopen fun lhs s₁ avail₁ hreach₁ hlhs => ?_
  refine hright.ensures_bind hreach₁.sound hreach₁.isOpen fun rhs s₂ avail₂ hreach₂ hrhs => ?_
  refine (ensures_emitBinary hreach₂.sound hreach₂.isOpen hop ty (hlhs.reaches hreach₂).readable
    hrhs.readable).mono ?_
  rintro result s' ⟨hreach₃, husable⟩
  exact ⟨avail₂, (hreach₁.trans hreach₂).trans hreach₃, husable⟩

/-- Computing from an operand and a constant. -/
theorem computes_binaryConst {act : LowerM Operand} (hact : act.Computes) (opcode : Opcode)
    (hop : opcode.IsStraight) (ty : Option TypeId) (const : Operand) (hconst : const.reg? = none) :
    (act >>= fun operand => emitBinary opcode ty operand const).Computes := by
  intro avail s hsound hopen
  refine hact.ensures_bind hsound hopen fun operand s₁ avail₁ hreach husable => ?_
  refine (ensures_emitBinary hreach.sound hreach.isOpen hop ty husable.readable
    (readable_of_reg? hconst)).mono ?_
  rintro result s' ⟨hreach', husable'⟩
  exact ⟨avail₁, hreach.trans hreach', husable'⟩

theorem computes_const {opcode : Opcode} (hop : opcode.IsStraight) (ty : Option TypeId)
    {const : Operand} (hconst : const.reg? = none) : (emitUnary opcode ty const).Computes := by
  intro avail s hsound hopen
  refine (ensures_emitUnary hsound hopen hop ty (readable_of_reg? hconst)).mono ?_
  rintro result s' ⟨hreach, husable⟩
  exact ⟨avail, hreach, husable⟩

theorem computes_lowerBinary (hlower : ∀ id, (lower id).Computes) (op : BinaryOp)
    (lhs rhs : ExprId) (ty : Option TypeId) : (lowerBinary lower op lhs rhs ty).Computes := by
  unfold lowerBinary
  split
  · exact computes_lowerLogical hlower _ lhs rhs ty
  · exact computes_binary (hlower lhs) (hlower rhs) op.opcode op.isStraight_opcode ty

/-- Writing back the value of an increment. -/
theorem ensures_writeBack {avail : Avail} {s : Lowering} (hsound : s.Sound avail) (hopen : s.IsOpen)
    (operand : ExprId) {value : Operand} (hvalue : s.Usable avail value) (ty : Option TypeId) :
    (writeBack unit operand value ty).Ensures s fun _ s' => Reaches avail avail s s' := by
  refine (ensures_expr (Q := fun _ s' => s' = s) fun _ _ => rfl).bind ?_
  rintro node _ rfl
  split
  · exact ensures_writeVar hsound hopen _ ty hvalue.readable
  · exact ensures_pure ⟨hsound, hopen, .refl _ _ avail _, fun _ => id⟩

theorem computes_lowerPreUpdate (hlower : ∀ id, (lower id).Computes) {opcode : Opcode}
    (hop : opcode.IsStraight) (operand : ExprId) (ty : Option TypeId) :
    (lowerPreUpdate unit lower opcode operand ty).Computes := by
  intro avail s hsound hopen
  refine (hlower operand).ensures_bind hsound hopen fun value s₁ avail₁ hreach₁ hvalue => ?_
  refine (ensures_emitBinary hreach₁.sound hreach₁.isOpen hop ty hvalue.readable
    (readable_of_reg? rfl)).bind ?_
  rintro updated s₂ ⟨hreach₂, hupdated⟩
  refine (ensures_writeBack hreach₂.sound hreach₂.isOpen operand hupdated ty).bind ?_
  intro _ s₃ hreach₃
  exact ensures_pure ⟨avail₁, (hreach₁.trans hreach₂).trans hreach₃, hupdated.reaches hreach₃⟩

theorem computes_lowerPostUpdate (hlower : ∀ id, (lower id).Computes) {opcode : Opcode}
    (hop : opcode.IsStraight) (operand : ExprId) (ty : Option TypeId) :
    (lowerPostUpdate unit lower opcode operand ty).Computes := by
  intro avail s hsound hopen
  refine (hlower operand).ensures_bind hsound hopen fun value s₁ avail₁ hreach₁ hvalue => ?_
  refine (ensures_emitUnary hreach₁.sound hreach₁.isOpen (by decide) ty hvalue.readable).bind ?_
  rintro old s₂ ⟨hreach₂, hold⟩
  refine (ensures_emitBinary hreach₂.sound hreach₂.isOpen hop ty (hvalue.reaches hreach₂).readable
    (readable_of_reg? rfl)).bind ?_
  rintro updated s₃ ⟨hreach₃, hupdated⟩
  refine (ensures_writeBack hreach₃.sound hreach₃.isOpen operand hupdated ty).bind ?_
  intro _ s₄ hreach₄
  exact ensures_pure ⟨avail₁, ((hreach₁.trans hreach₂).trans hreach₃).trans hreach₄,
    (hold.reaches hreach₃).reaches hreach₄⟩

theorem computes_lowerUnary (hlower : ∀ id, (lower id).Computes) (op : UnaryOp) (operand : ExprId)
    (ty : Option TypeId) : (lowerUnary unit lower op operand ty).Computes := by
  cases op with
  | neg | not | bitNot | deref | addrOf => exact computes_unary (hlower operand) (by decide) ty
  | preInc | preDec => exact computes_lowerPreUpdate hlower (by decide) operand ty
  | postInc | postDec => exact computes_lowerPostUpdate hlower (by decide) operand ty

theorem computes_lowerCall (hlower : ∀ id, (lower id).Computes) (callee : Name)
    (args : List ExprId) (ty : Option TypeId) : (lowerCall lower callee args ty).Computes := by
  intro avail s hsound hopen
  have hargs : (args.forM fun arg => do
      let value ← lower arg
      emit (.param value)).Ensures s fun _ s' => ∃ avail', Reaches avail avail' s s' := by
    refine ensures_forM (fun arg _ s₁ ⟨avail₁, hreach₁⟩ => ?_)
      ⟨avail, hsound, hopen, .refl _ _ avail s, fun _ => id⟩
    refine (hlower arg).ensures_bind hreach₁.sound hreach₁.isOpen fun value s₂ avail₂ hreach₂ hvalue => ?_
    refine (ensures_emit hreach₂.sound hreach₂.isOpen fun line => ⟨?_, rfl, hvalue.readable,
      readable_of_reg? rfl⟩).mono ?_
    · exact straight_of_isStraight (show Opcode.param.IsStraight by decide) rfl
    · intro _ s₃ hreach₃
      exact ⟨avail₂, (hreach₁.trans hreach₂).trans hreach₃⟩
  refine hargs.bind ?_
  rintro _ s₁ ⟨avail₁, hreach₁⟩
  refine (ensures_emitBinary hreach₁.sound hreach₁.isOpen (by decide) ty (readable_of_reg? rfl)
    (readable_of_reg? rfl)).mono ?_
  rintro result s₂ ⟨hreach₂, husable⟩
  exact ⟨avail₁, hreach₁.trans hreach₂, husable⟩

/-- Storing through a computed address. -/
theorem ensures_storeTo {act : LowerM Operand} (hact : act.Computes) {avail : Avail} {s : Lowering}
    (hsound : s.Sound avail) (hopen : s.IsOpen) {value : Operand} (hvalue : s.Usable avail value) :
    (act >>= fun addr => emit (.store addr value)).Ensures s fun _ s' =>
      ∃ avail', Reaches avail avail' s s' := by
  refine hact.ensures_bind hsound hopen fun addr s₁ avail₁ hreach₁ haddr => ?_
  refine (ensures_store hreach₁.sound hreach₁.isOpen haddr.readable
    (hvalue.reaches hreach₁).readable).mono fun _ s₂ hreach₂ => ?_
  exact ⟨avail₁, hreach₁.trans hreach₂⟩

theorem ensures_lowerTarget (hlower : ∀ id, (lower id).Computes) {avail : Avail} {s : Lowering}
    (hsound : s.Sound avail) (hopen : s.IsOpen) (target : ExprId) {value : Operand}
    (hvalue : s.Usable avail value) : (lowerTarget unit lower target value).Ensures s fun _ s' =>
      ∃ avail', Reaches avail avail' s s' := by
  refine (ensures_expr (Q := fun _ s' => s' = s) fun _ _ => rfl).bind ?_
  rintro node _ rfl
  split
  · exact (ensures_writeVar hsound hopen _ node.ty hvalue.readable).mono fun _ _ h => ⟨avail, h⟩
  · exact ensures_storeTo (hlower _) hsound hopen hvalue
  · rename_i array position _
    have haddr := computes_binary (hlower array) (hlower position) .indexAddr (by decide) none
    simpa only [bind_assoc] using ensures_storeTo haddr hsound hopen hvalue
  · rename_i base field _ _
    have haddr := computes_binaryConst (hlower base) .member (by decide) none (.field field) rfl
    simpa only [bind_assoc] using ensures_storeTo haddr hsound hopen hvalue
  · exact ensures_storeTo (hlower _) hsound hopen hvalue

theorem computes_lowerAssign (hlower : ∀ id, (lower id).Computes) (target value : ExprId) :
    (lowerAssign unit lower target value).Computes := by
  intro avail s hsound hopen
  refine (hlower value).ensures_bind hsound hopen fun result s₁ avail₁ hreach₁ hresult => ?_
  refine (ensures_lowerTarget hlower hreach₁.sound hreach₁.isOpen target hresult).bind ?_
  rintro _ s₂ ⟨avail₂, hreach₂⟩
  exact ensures_pure ⟨avail₂, hreach₁.trans hreach₂, hresult.reaches hreach₂⟩

theorem computes_none : (pure .none : LowerM Operand).Computes := by
  intro avail s hsound hopen
  refine ensures_pure ⟨avail, ⟨hsound, hopen, .refl _ _ avail s, fun _ => id⟩, fun r hr => ?_⟩
  cases hr

/-- A string literal is entered in the table, which is no part of the invariant. -/
theorem computes_text (text : String) (ty : Option TypeId) :
    (internText text >>= fun id => emitUnary .const ty (.literal id)).Computes := by
  intro avail s hsound hopen
  have halike : Alike s { s with texts := (s.texts.intern text).2 } := ⟨rfl, rfl, ⟨rfl, rfl, rfl, rfl⟩⟩
  refine ensures_bind_of_eq (t := { s with texts := (s.texts.intern text).2 }) rfl ?_
  refine (ensures_emitUnary (halike.sound hsound) hopen (by decide) ty (readable_of_reg? rfl)).mono ?_
  rintro operand s' ⟨hreach, husable⟩
  exact ⟨avail, halike.reaches hreach ⟨rfl, rfl, ⟨rfl, rfl, rfl, rfl⟩⟩, husable⟩

theorem computes_lowerExprKind (hlower : ∀ id, (lower id).Computes) (ty : Option TypeId)
    (kind : ExprKind Name) : (lowerExprKind unit lower ty kind).Computes := by
  cases kind with
  | int | float => exact computes_const (by decide) ty rfl
  | text value => exact computes_text value ty
  | ident name => exact computes_lowerIdent name ty
  | binary op lhs rhs => exact computes_lowerBinary hlower op lhs rhs ty
  | unary op operand => exact computes_lowerUnary hlower op operand ty
  | cast target operand => exact computes_unary (hlower operand) (by decide) _
  | index array position => exact computes_binary (hlower array) (hlower position) _ (by decide) ty
  | member base field => exact computes_binaryConst (hlower base) _ (by decide) ty _ rfl
  | call callee args => exact computes_lowerCall hlower callee args ty
  | assign target value => exact computes_lowerAssign hlower target value
  | initList elements =>
    cases elements with
    | nil => exact computes_none
    | cons first rest => exact hlower first
  | error => exact computes_none

end Forms

namespace SourceUnit

theorem computes_lowerExprWithin (unit : SourceUnit) (depth : Nat) (id : ExprId) :
    (unit.lowerExprWithin depth id).Computes := by
  induction depth generalizing id with
  | zero => exact fun _ _ _ _ => trivial
  | succ depth ih =>
    intro avail s hsound hopen
    refine (ensures_expr (Q := fun _ s' => s' = s) fun _ _ => rfl).bind ?_
    rintro node _ rfl
    exact (computes_lowerExprKind ih node.ty node.kind).withLine node.line avail _ hsound hopen

/-- Lowering an expression keeps the invariant, and answers an operand that can be used. -/
theorem computes_lowerExpr (unit : SourceUnit) (id : ExprId) : (unit.lowerExpr id).Computes :=
  unit.computes_lowerExprWithin _ id

end SourceUnit

-- ════════════════════════════════════════════════════════════════════════
-- Conditions of loops
-- ════════════════════════════════════════════════════════════════════════

/-- The condition of a loop, without which the loop goes on. -/
def lowerTest (unit : SourceUnit) (cond : Option ExprId) (body exit : BlockId) : LowerM Unit :=
  match cond with
  | some cond => do
    let value ← unit.lowerExpr cond
    emit (.branch value body exit)
  | none => emit (.jump body)

theorem lowerFor_eq (unit : SourceUnit) (lower : StmtId → LowerM Unit) (init : Option StmtId)
    (cond incr : Option ExprId) (body : Option StmtId) : lowerFor unit lower init cond incr body = (do
      let condBlock ← newBlock "for_cond"
      let bodyBlock ← newBlock "for_body"
      let incrBlock ← newBlock "for_incr"
      let exitBlock ← newBlock "for_exit"
      withLoop exitBlock incrBlock do
        init.forM lower
        ensureJump condBlock
        switchTo condBlock
        lowerTest unit cond bodyBlock exitBlock
        switchTo bodyBlock
        body.forM lower
        ensureJump incrBlock
        switchTo incrBlock
        incr.forM fun step => discard (unit.lowerExpr step)
        ensureJump condBlock
      switchTo exitBlock) := by
  cases cond with
  | none => rfl
  | some cond => simp only [lowerFor, lowerTest, bind_assoc]

end MiddleEnd
