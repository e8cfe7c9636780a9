import MiddleEnd.Proofs.Lowering.Refinement

/-!
# The values of lowered expressions

Each form of expression is lowered to code that computes its value. The operators that may skip their
right operand have blocks of their own; all other forms are sequences of actions.

## Main statements

* `refines_lowerLogical`: the operators that may skip their right operand.
* `refines_lowerExprKind`: one expression, if its parts are lowered rightly.
* `SourceUnit.refines_lowerExpr`: lowered expressions compute their values.
-/

namespace MiddleEnd

open LowerM Lowering

variable {V S : Type} {sem : Semantics V S} {last : Lowering} {held : List (Operand × V)}

-- ════════════════════════════════════════════════════════════════════════
-- Blocks
-- ════════════════════════════════════════════════════════════════════════

namespace Lowering

variable {s : Lowering} {t source : BlockId} {label : String}

/-- A block that was made for later is entered at its start. -/
theorem Final.step_waiting (hfinal : last.Final) (ht : s.Waits label t) (hlabel : label ≠ "logic_merge")
    (hlast : Extends 0 { s with current := t } last) {source : Option BlockId} {regs : Reg → V} {ext : S} :
    last.finished.step sem (.running t source regs ext) =
      last.finished.resume sem t (s.fn.code t).length regs ext := by
  rw [ht.code]
  refine hfinal.step_enter hlast ht.lt ht.code ?_
  rw [show Function.label? _ t = _ from ht.label]
  simpa using hlabel

theorem Final.goes_waiting (hfinal : last.Final) (ht : s.Waits label t) (hlabel : label ≠ "logic_merge")
    (hlast : Extends 0 { s with current := t } last) :
    last.finished.Goes sem (crossing sem held source t)
      (holding { s with current := t } last sem held) := by
  rintro regs ext c ⟨hheld, rfl⟩
  exact ⟨_, .of_step (hfinal.step_waiting ht hlabel hlast), hheld, rfl⟩

/-- Where two sides meet, the phi takes the value of the side that control comes from. -/
theorem Final.at_merge (hfinal : last.Final) (hs : s.current < s.fn.blockCount)
    (hempty : s.fn.code s.current = []) {phi : Instr} (hlast : (s.pushed phi).Extends 0 last)
    (hphi : phi.isPhi = true) {r : Reg} {ty : Option TypeId} (hdst : phi.dst = .reg r ty)
    (hr : ¬ last.fn.IsVarReg r) {held' : List (Operand × V)} (hsub : held ⊆ held')
    (hheld : ∀ entry ∈ held, entry.1.reg? ≠ some r) {arg : PhiArg} (harg : arg ∈ phi.phiArgs) {x : V}
    (hknown : Knows sem held' arg.value x) {c : Config V S} {mem : Memory V S}
    (hc : last.finished.At (crossing sem held' arg.pred s.current) c mem) :
    ∃ c', last.finished.Leads sem c c' ∧
      last.finished.At ((s.pushed phi).holding last sem (valueOf (.reg r ty) x ++ held)) c' mem := by
  obtain ⟨regs, hagrees, hregs, rfl⟩ := hc
  have hself : (s.pushed phi).fn.code s.current = [phi] := by
    rw [show (s.pushed phi).fn.code s.current = _ from s.fn.code_pushed_self s.current phi hs, hempty]
    rfl
  have hget : (last.fn.code s.current)[0]? = some phi := hlast.getElem?_code (by rw [hself]; rfl)
  refine ⟨_, .of_step (hfinal.step_merge hget hphi harg), setReg regs r x, ?_, ?_, ?_⟩
  · exact agrees_setReg hagrees (by rw [isVarReg_finished]; exact hr) x
  · intro entry hentry
    obtain hentry | hentry := List.mem_append.mp hentry
    · rw [List.mem_singleton.mp hentry]
      simp [Operand.value, setReg]
    · exact held_setReg (fun e he => hregs e (hsub he)) hheld x entry hentry
  · rw [show (s.pushed phi).current = s.current from rfl, hself, hdst, hknown.value hregs]
    rfl

end Lowering

-- ════════════════════════════════════════════════════════════════════════
-- Logical operators
-- ════════════════════════════════════════════════════════════════════════

/-- Where the branch after the left operand leads. -/
theorem exit_sideBranch (isAnd : Bool) (left : Operand) (rhsBlock mergeBlock : BlockId) (line : Nat)
    (regs : Reg → V) : (sideBranch isAnd left rhsBlock mergeBlock line).exit sem regs =
      .goto (if sem.holds (left.value sem regs) = isAnd then rhsBlock else mergeBlock) := by
  cases isAnd <;> cases h : sem.holds (left.value sem regs) <;>
    simp [sideBranch, Instr.exit, Instr.branch, h, Exit.ofTarget, Operand.label?, Instr.falseTarget?]

theorem isTerminator_sideBranch (isAnd : Bool) (left : Operand) (rhsBlock mergeBlock : BlockId)
    (line : Nat) : (sideBranch isAnd left rhsBlock mergeBlock line).isTerminator = true := by
  cases isAnd <;> rfl

/-- The block for the right operand, and the state in which its lowering starts. -/
def sideStart (s₁ : Lowering) (isAnd : Bool) (left : Operand) (rhsBlock : BlockId) : Lowering :=
  s₁.forked (sideBranch isAnd left rhsBlock (rhsBlock + 1) s₁.line) rhsBlock

/-- The state after the right operand was made into a truth value. -/
def sideEnd (s₂ : Lowering) (right : Operand) : Lowering :=
  s₂.withReg.pushed (.binary .cmpNe (.reg s₂.fn.regCount none) right (.int 0) s₂.line)

/-- The label of the block for the right operand. -/
def sideLabel (isAnd : Bool) : String := if isAnd then "and_rhs" else "or_rhs"

theorem sideLabel_ne (isAnd : Bool) : sideLabel isAnd ≠ "logic_merge" := by cases isAnd <;> decide

/-- The steps in which a logical operator is lowered: the left operand, the right operand, and the jump
to where they meet. -/
theorem exists_of_lowerLogical {lower : ExprId → LowerM Operand} {isAnd : Bool} {lhs rhs : ExprId}
    {ty : Option TypeId} {s s' : Lowering} {operand : Operand}
    (h : lowerLogical lower isAnd lhs rhs ty s = .ok (operand, s')) :
    ∃ left s₁ right s₂ s₃,
      lower lhs ((s.withReg.grown (sideLabel isAnd)).grown "logic_merge") = .ok (left, s₁) ∧
      s₁.current < s₁.fn.blockCount ∧
      lower rhs (sideStart s₁ isAnd left s.fn.blockCount) = .ok (right, s₂) ∧
      s₂.current < s₂.fn.blockCount ∧
      ensureJump (s.fn.blockCount + 1) (sideEnd s₂ right) = .ok ((), s₃) ∧
      operand = .reg s.fn.regCount ty ∧
      s' = Lowering.pushed { s₃ with current := s.fn.blockCount + 1 } (.phi operand none
        [⟨.int (shortCircuitValue isAnd), s₁.current⟩, ⟨.reg s₂.fn.regCount none, s₃.current⟩] s₃.line) := by
  rw [lowerLogical_eq] at h
  obtain ⟨result, _, hresult, h⟩ := exists_of_bind h
  cases hresult
  obtain ⟨_, _, hblock, h⟩ := exists_of_bind h
  obtain ⟨rfl, rfl⟩ := eq_of_newBlock hblock
  obtain ⟨_, _, hblock, h⟩ := exists_of_bind h
  obtain ⟨rfl, rfl⟩ := eq_of_newBlock hblock
  rw [show (Lowering.grown _ _).fn.blockCount = _ from Function.blockCount_grown _ _] at h
  obtain ⟨left, s₁, hleft, h⟩ := exists_of_bind h
  obtain ⟨_, _, hbranch, h⟩ := exists_of_bind h
  have hlt₁ := lt_of_emit hbranch
  rw [eq_pushed_of_emit hbranch, lowerRight] at h
  obtain ⟨_, _, hcurrent, h⟩ := exists_of_bind h
  cases hcurrent
  obtain ⟨_, _, hswitch, h⟩ := exists_of_bind h
  cases hswitch
  obtain ⟨right, s₂, hright, h⟩ := exists_of_bind h
  obtain ⟨_, _, hbool, h⟩ := exists_of_bind h
  have hlt₂ := lt_of_emitBinary hbool
  obtain ⟨rfl, rfl⟩ := eq_of_emitBinary hbool
  obtain ⟨_, s₃, hjump, h⟩ := exists_of_bind h
  obtain ⟨_, _, hcurrent, h⟩ := exists_of_bind h
  cases hcurrent
  obtain ⟨_, _, hswitch, h⟩ := exists_of_bind h
  cases hswitch
  obtain ⟨_, _, hphi, h⟩ := exists_of_bind h
  cases h
  exact ⟨left, s₁, right, s₂, s₃, hleft, hlt₁, hright, hlt₂, hjump, rfl, eq_pushed_of_emit hphi⟩

/-- The state when a logical operator has got the register of its result and its two blocks. -/
structure HasSides (s : Lowering) (label : String) (ty : Option TypeId) (s₀ : Lowering) : Prop where
  steps : Steps s.fn.blockCount s s₀
  code : s₀.fn.code = s.fn.code
  current : s₀.current = s.current
  rhs : s₀.Waits label s.fn.blockCount
  merge : s₀.Waits "logic_merge" (s.fn.blockCount + 1)
  result : s₀.Stable (.reg s.fn.regCount ty)

theorem hasSides {s : Lowering} (hs : s.Tidy) (label : String) (ty : Option TypeId) :
    HasSides s label ty ((s.withReg.grown label).grown "logic_merge") := by
  have hreg : Steps s.fn.blockCount s s.withReg := .withReg hs
  have hgrown : Steps s.fn.blockCount s.withReg (s.withReg.grown label) := .grown hreg.tidy label
  have hcount : (s.withReg.grown label).fn.blockCount = s.fn.blockCount + 1 :=
    s.withReg.fn.blockCount_grown label
  refine ⟨(hreg.trans hgrown).trans (.grown hgrown.tidy "logic_merge"), ?_, rfl, ?_, ?_, ?_⟩
  · exact (funext (Function.code_grown _ _)).trans (funext (Function.code_grown _ _))
  · exact (Waits.grown_self hreg.tidy.current label).steps (.grown hgrown.tidy "logic_merge")
  · rw [← hcount]
    exact Waits.grown_self hgrown.tidy.current "logic_merge"
  · rintro r ⟨⟩
    exact ⟨Nat.lt_succ_self _, hs.not_isVarReg⟩

section Branch

variable {m : Nat} {s₁ : Lowering} {label : String} {t u : BlockId} {isAnd : Bool} {left : Operand}

theorem steps_sideBranch (hs : s₁.Tidy) :
    Steps m s₁ (s₁.pushed (sideBranch isAnd left t (t + 1) s₁.line)) := by
  have hbranch := isTerminator_sideBranch isAnd left t (t + 1) s₁.line
  exact .pushed hs (by simp [Instr.isPhi_of_isTerminator _ hbranch])

/-- The branch behind the left operand, and the switch to the block for the right one. -/
theorem steps_sideStart (hs : s₁.Tidy) (hm : m ≤ t) (ht : s₁.Waits label t) :
    Steps m s₁ (sideStart s₁ isAnd left t) :=
  (steps_sideBranch hs).trans
    (.switch (steps_sideBranch (m := m) hs).tidy hm (ht.steps (steps_sideBranch hs)).lt)

/-- The other block goes on waiting. -/
theorem waits_sideStart (hs : s₁.Tidy) (hu : s₁.Waits label u) (hne : u ≠ t) :
    (sideStart s₁ isAnd left t).Waits label u :=
  (hu.steps (steps_sideBranch hs)).switch hne

/-- Where the branch goes, given the value of the left operand. -/
theorem Lowering.Final.goes_sides (hfinal : last.Final) (hs : s₁.Tidy) (ht : s₁.Waits label t)
    (hlast : (sideStart s₁ isAnd left t).Extends 0 last) (v : V) :
    last.finished.Goes sem (s₁.holding last sem (valueOf left v ++ held))
      (crossing sem held s₁.current (if sem.holds v = isAnd then t else t + 1)) := by
  have hswitch : Steps 0 (s₁.pushed (sideBranch isAnd left t (t + 1) s₁.line))
      (sideStart s₁ isAnd left t) :=
    .switch (steps_sideBranch (m := 0) hs).tidy (Nat.zero_le _) (ht.steps (steps_sideBranch hs)).lt
  refine hfinal.goes_crossing hs.current (hswitch.extendsLast hlast) (isTerminator_sideBranch _ _ _ _ _)
    (List.subset_append_right _ _) fun regs hregs => ?_
  rw [exit_sideBranch, hregs (left, v) List.mem_cons_self]

/-- The block for the right operand is entered at its start. -/
theorem Lowering.Final.goes_sideStart (hfinal : last.Final) (hs : s₁.Tidy) (ht : s₁.Waits label t)
    (hlabel : label ≠ "logic_merge") (hlast : (sideStart s₁ isAnd left t).Extends 0 last)
    {source : BlockId} : last.finished.Goes sem (crossing sem held source t)
      ((sideStart s₁ isAnd left t).holding last sem held) :=
  hfinal.goes_waiting (ht.steps (steps_sideBranch hs)) hlabel hlast

end Branch

/-- The switch to where the sides meet, and the phi there. -/
theorem steps_meet {m : Nat} {s₃ : Lowering} {t : BlockId} (hs : s₃.Tidy) (hm : m ≤ t)
    (ht : s₃.Waits "logic_merge" t) (phi : Instr) :
    Steps m s₃ (Lowering.pushed { s₃ with current := t } phi) := by
  have hswitch : Steps m s₃ { s₃ with current := t } := .switch hs hm ht.lt
  exact hswitch.trans (.pushed hswitch.tidy fun _ => ht.label)

section Logical

variable [Nonempty V] {lower : ExprId → LowerM Operand} {eval : ExprId → EvalM V S V}

/-- The right operand is made into a truth value. -/
theorem refined_sideEnd (hfinal : last.Final)
    (hlower : ∀ id held, (lower id).Refines last sem held (eval id) valueOf) {s₀ s₂ : Lowering}
    (hs : s₀.Tidy) (hheld : ∀ entry ∈ held, s₀.Stable entry.1) {rhs : ExprId} {right : Operand}
    (hright : lower rhs s₀ = .ok (right, s₂)) :
    Refined last sem held s₀
      (eval rhs >>= fun w => EvalM.apply sem .cmpNe none w (sem.constant (.int 0)))
      (valueOf (.reg s₂.fn.regCount none)) (sideEnd s₂ right) := by
  have hvalue := hlower rhs held s₀ right s₂ hright hs hheld
  refine hvalue.bind fun w => ?_
  exact refined_binary hfinal hvalue.steps.tidy (hvalue.stable_append hheld w) (by decide)
    fun _ regs mem _ hregs => ⟨hregs (right, w) List.mem_cons_self, rfl⟩

/-- The operators that may skip their right operand. -/
theorem refines_lowerLogical (hfinal : last.Final)
    (hlower : ∀ id held, (lower id).Refines last sem held (eval id) valueOf) (isAnd : Bool)
    (lhs rhs : ExprId) (ty : Option TypeId) :
    (lowerLogical lower isAnd lhs rhs ty).Refines last sem held (evalLogical sem eval isAnd lhs rhs)
      valueOf := by
  intro s operand s' hok hs hheld
  obtain ⟨left, s₁, right, s₂, s₃, hleft, _, hright, hlt₂, hjump, rfl, rfl⟩ := exists_of_lowerLogical hok
  have hsides := hasSides hs (sideLabel isAnd) ty
  generalize (s.withReg.grown (sideLabel isAnd)).grown "logic_merge" = s₀ at hsides hleft
  -- The left operand and the branch.
  have h₁ := hlower lhs held s₀ left s₁ hleft hsides.steps.tidy
    fun entry hentry => (hheld entry hentry).extends hsides.steps.grows
  have hrhs := hsides.rhs.steps h₁.steps
  have hmerge := hsides.merge.steps h₁.steps
  have hstart : Steps s.fn.blockCount s₁ (sideStart s₁ isAnd left s.fn.blockCount) :=
    steps_sideStart h₁.steps.tidy (Nat.le_refl _) hrhs
  have hsteps := (hsides.steps.andThen h₁.steps).trans hstart
  -- The right operand, and the jump behind it.
  have h₂ := refined_sideEnd hfinal hlower hsteps.tidy
    (fun entry hentry => (hheld entry hentry).extends hsteps.grows) hright
  have hs₃ := eq_of_ensureJump (s := sideEnd s₂ right) h₂.steps.tidy.current
    (isOpen_pushed (s := s₂.withReg) hlt₂ rfl) hjump
  have hjumped : Steps (sideEnd s₂ right).fn.blockCount (sideEnd s₂ right) s₃ := by
    rw [hs₃]
    exact .pushed h₂.steps.tidy (by simp [Instr.isPhi, Instr.jump])
  have hmerge₃ : s₃.Waits "logic_merge" (s.fn.blockCount + 1) :=
    ((waits_sideStart h₁.steps.tidy hmerge (Nat.succ_ne_self _)).steps h₂.steps).steps hjumped
  have hresult : s₃.Stable (.reg s.fn.regCount ty) :=
    (((hsides.result.extends h₁.steps.grows).extends hstart.grows).extends h₂.steps.grows).extends
      hjumped.grows
  -- The phi where the two sides meet.
  generalize hphi : Instr.phi (.reg s.fn.regCount ty) none
    [⟨.int (shortCircuitValue isAnd), s₁.current⟩, ⟨.reg s₂.fn.regCount none, s₃.current⟩] s₃.line = phi
  have hmeets : Steps s.fn.blockCount s₃
      (Lowering.pushed { s₃ with current := s.fn.blockCount + 1 } phi) :=
    steps_meet hjumped.tidy (Nat.le_succ _) hmerge₃ phi
  refine ⟨((hsteps.andThen h₂.steps).andThen hjumped).trans hmeets, fun _ => ?_, ?_, fun hlast => ?_⟩
  · exact isOpen_pushed hmerge₃.lt (by rw [← hphi]; rfl)
  · intro x entry hentry
    rw [List.mem_singleton.mp hentry]
    exact hresult.extends hmeets.grows
  have hlast₃ := hmeets.extendsLast hlast
  have hlast₂ := hjumped.extendsLast hlast₃
  have hlast₁ := h₂.steps.extendsLast hlast₂
  -- Both ways into the last block.
  have hmeet : ∀ {held' : List (Operand × V)} {x : V} (arg : PhiArg), held ⊆ held' →
      arg ∈ phi.phiArgs → Knows sem held' arg.value x → ∀ c mem,
      last.finished.At (crossing sem held' arg.pred (s.fn.blockCount + 1)) c mem →
      ∃ c', last.finished.Leads sem c c' ∧ last.finished.At
        ((Lowering.pushed { s₃ with current := s.fn.blockCount + 1 } phi).holding last sem
          (valueOf (.reg s.fn.regCount ty) x ++ held)) c' mem := by
    intro held' x arg hsub harg hknown c mem hc
    refine hfinal.at_merge hmerge₃.lt hmerge₃.code hlast (by rw [← hphi]; rfl) (by rw [← hphi]; rfl) ?_
      hsub (fun entry hentry hreg => ?_) harg hknown hc
    · exact (hresult.extends hlast₃ _ rfl).2
    · exact Nat.lt_irrefl _ (hheld entry hentry _ hreg).1
  have hforks : ∀ v, last.finished.Goes sem (s₁.holding last sem (valueOf left v ++ held))
      (crossing sem held s₁.current (if sem.holds v = isAnd then s.fn.blockCount else s.fn.blockCount + 1)) :=
    hfinal.goes_sides h₁.steps.tidy hrhs hlast₁
  have hjumps : ∀ held', last.finished.Goes sem ((sideEnd s₂ right).holding last sem held')
      (crossing sem held' s₃.current (s.fn.blockCount + 1)) := by
    intro held'
    rw [hs₃] at hlast₃ ⊢
    exact hfinal.goes_jump h₂.steps.tidy.current hlast₃
  refine .of_goes (goes_holding (fun _ => id) hsides.code hsides.current) ?_
  refine (h₁.does (hstart.extendsLast hlast₁)).bind fun v => .of_goes (hforks v) ?_
  by_cases hv : sem.holds v = isAnd
  · -- Control goes through the block for the right operand.
    rw [if_pos hv, if_pos hv]
    refine .of_goes (hfinal.goes_sideStart h₁.steps.tidy hrhs (sideLabel_ne isAnd) hlast₁) ?_
    refine (h₂.does hlast₂).imp fun y c mem hc => ?_
    obtain ⟨c₁, hleads, hc₁⟩ := (hjumps _).at hc
    obtain ⟨c₂, hleads', hc₂⟩ := hmeet ⟨.reg s₂.fn.regCount none, s₃.current⟩
      (List.subset_append_right _ _) (by simp [← hphi, Instr.phi, Instr.phiArgs]) .head c₁ mem hc₁
    exact ⟨c₂, hleads.trans hleads', hc₂⟩
  · rw [if_neg hv, if_neg hv]
    exact .pure fun c mem hc => hmeet ⟨.int (shortCircuitValue isAnd), s₁.current⟩
      (List.Subset.refl held) (by simp [← hphi, Instr.phi, Instr.phiArgs]) (.const rfl) c mem hc

end Logical

-- ════════════════════════════════════════════════════════════════════════
-- The other forms
-- ════════════════════════════════════════════════════════════════════════

/-- Writing back the value of an increment. -/
theorem refines_writeBack (hfinal : last.Final) (hmoves : sem.Moves) {unit : SourceUnit} (operand : ExprId)
    {value : Operand} {x : V} (hvalue : Knows sem held value x) (ty : Option TypeId) :
    (writeBack unit operand value ty).Refines last sem held (evalWriteBack unit operand x) noValue := by
  refine refines_expr_bind fun node => ?_
  cases node.kind.ident? with
  | some name => exact refines_writeVar hfinal hmoves name ty hvalue
  | none => exact refines_nothing () ()

/-- A string literal has its number in the table of literals. -/
theorem refines_text (hfinal : last.Final) (hmoves : sem.Moves) (text : String) (ty : Option TypeId) :
    (internText text >>= fun id => emitUnary .const ty (.literal id)).Refines last sem held (do
      return sem.constant (.literal (← last.texts.lookup text)) : EvalM V S V) valueOf := by
  intro s operand s' hok hs hheld
  obtain ⟨id, s₁, hintern, hok⟩ := exists_of_bind hok
  obtain ⟨rfl, rfl⟩ : id = (s.texts.intern text).1 ∧ s₁ = { s with texts := (s.texts.intern text).2 } :=
    Prod.mk.inj (Except.ok.inj hintern.symm)
  have hsteps : Steps s.fn.blockCount s { s with texts := (s.texts.intern text).2 } :=
    ⟨extends_intern text, ⟨hs.current, hs.vars⟩, ⟨rfl, rfl, rfl, rfl⟩⟩
  have hconst : Refined last sem held { s with texts := (s.texts.intern text).2 }
      (pure (sem.constant (.literal (s.texts.intern text).1))) (valueOf operand) s' :=
    refines_emitConst hfinal hmoves ty rfl _ operand s' hok hsteps.tidy
      fun entry hentry => (hheld entry hentry).extends hsteps.grows
  obtain ⟨hsteps', hopen, hstable, hdoes⟩ := hconst.prepend hsteps rfl rfl
  refine ⟨hsteps', hopen, hstable, fun hlast => ?_⟩
  have hlookup : last.texts.lookup text = some (s.texts.intern text).1 :=
    (hconst.steps.extendsLast hlast).texts text _ (s.texts.lookup_intern_self text)
  rw [hlookup]
  exact hdoes hlast

section Forms

variable [Nonempty V] {unit : SourceUnit} {lower : ExprId → LowerM Operand} {eval : ExprId → EvalM V S V}
  (hfinal : last.Final) (hmoves : sem.Moves)
  (hlower : ∀ id held, (lower id).Refines last sem held (eval id) valueOf)

include hfinal hlower

theorem refines_lowerBinary (op : BinaryOp) (lhs rhs : ExprId) (ty : Option TypeId) :
    (lowerBinary lower op lhs rhs ty).Refines last sem held (evalBinary sem eval ty op lhs rhs)
      valueOf := by
  have hplain : (lower lhs >>= fun left => lower rhs >>= fun right =>
      emitBinary op.opcode ty left right).Refines last sem held (do
        let left ← eval lhs
        let right ← eval rhs
        EvalM.apply sem op.opcode ty left right) valueOf := by
    refine (hlower lhs held).bind fun left x => (hlower rhs _).bind fun right y => ?_
    exact refines_emitBinary hfinal op.isStraight_opcode ty Knows.head.later .head
  cases op with
  | logicalAnd => exact refines_lowerLogical hfinal hlower true lhs rhs ty
  | logicalOr => exact refines_lowerLogical hfinal hlower false lhs rhs ty
  | _ => exact hplain

theorem refines_lowerCall (callee : Name) (args : List ExprId) (ty : Option TypeId) :
    (lowerCall lower callee args ty).Refines last sem held (evalCall sem eval ty callee args) valueOf := by
  refine Refines.bind (refines_forM fun arg _ => ?_) fun _ _ =>
    refines_emitBinary hfinal (by decide) ty (.const rfl) (.const rfl)
  refine (hlower arg held).bind fun value x => ?_
  exact refines_perform hfinal (by decide) .head (.const rfl)

include hmoves

theorem refines_lowerPreUpdate {op : Opcode} (hop : op.IsStraight) (operand : ExprId) (ty : Option TypeId) :
    (lowerPreUpdate unit lower op operand ty).Refines last sem held (do
      return (← evalUpdate sem unit eval ty op operand).2) valueOf := by
  simp only [evalUpdate, bind_assoc, pure_bind]
  refine (hlower operand held).bind fun value x => ?_
  refine (refines_emitBinary hfinal hop ty .head (.const rfl)).bind fun updated y => ?_
  refine (refines_writeBack hfinal hmoves operand .head ty).bind fun _ _ => ?_
  exact refines_return Knows.head.later

theorem refines_lowerPostUpdate {op : Opcode} (hop : op.IsStraight) (operand : ExprId)
    (ty : Option TypeId) : (lowerPostUpdate unit lower op operand ty).Refines last sem held (do
      return (← evalUpdate sem unit eval ty op operand).1) valueOf := by
  -- The old value is copied, which nothing in the evaluation corresponds to.
  have hcopied : (do return (← evalUpdate sem unit eval ty op operand).1 : EvalM V S V) = (do
      let value ← eval operand
      let old ← pure value
      let new ← EvalM.apply sem op ty value (sem.constant (.int 1))
      evalWriteBack unit operand new
      return old) := by
    simp only [evalUpdate, bind_assoc, pure_bind]
  rw [hcopied]
  refine (hlower operand held).bind fun value x => ?_
  refine (refines_emitCopy hfinal hmoves ty .head).bind fun old x' => ?_
  refine (refines_emitBinary hfinal hop ty Knows.head.later (.const rfl)).bind fun updated y => ?_
  refine (refines_writeBack hfinal hmoves operand .head ty).bind fun _ _ => ?_
  exact refines_return Knows.head.later.later

theorem refines_lowerUnary (op : UnaryOp) (operand : ExprId) (ty : Option TypeId) :
    (lowerUnary unit lower op operand ty).Refines last sem held (evalUnary sem unit eval ty op operand)
      valueOf := by
  cases op with
  | neg | not | bitNot | deref | addrOf =>
    exact (hlower operand held).bind fun value x => refines_emitUnary hfinal (by decide) ty .head
  | preInc | preDec => exact refines_lowerPreUpdate hfinal hmoves hlower (by decide) operand ty
  | postInc | postDec => exact refines_lowerPostUpdate hfinal hmoves hlower (by decide) operand ty

theorem refines_lowerTarget (target : ExprId) {value : Operand} {x : V}
    (hvalue : Knows sem held value x) :
    (lowerTarget unit lower target value).Refines last sem held (evalTarget sem unit eval target x)
      noValue := by
  have hstore : ∀ {held'} addr y, Knows sem held' value x → (emit (.store addr value)).Refines last sem
      (valueOf addr y ++ held') (EvalM.perform sem .store y x) noValue :=
    fun addr y hvalue => refines_perform hfinal (by decide) .head hvalue.later
  have hthrough : ∀ id, (lower id >>= fun addr => emit (.store addr value)).Refines last sem held
      (eval id >>= fun addr => EvalM.perform sem .store addr x) noValue :=
    fun id => (hlower id held).bind fun addr y => hstore addr y hvalue
  refine refines_expr_bind fun node => ?_
  cases node.kind with
  | ident name => exact refines_writeVar hfinal hmoves name node.ty hvalue
  | unary op operand =>
    cases op with
    | deref => exact hthrough operand
    | _ => exact hthrough target
  | index array position =>
    refine (hlower array held).bind fun base y => (hlower position _).bind fun offset z => ?_
    refine (refines_emitBinary hfinal (by decide) none Knows.head.later .head).bind fun addr w => ?_
    exact hstore addr w hvalue.later.later
  | member base field =>
    refine (hlower base held).bind fun object y => ?_
    refine (refines_emitBinary hfinal (by decide) none .head (.const rfl)).bind fun addr w => ?_
    exact hstore addr w hvalue.later
  | _ => exact hthrough target

/-- One expression, if its parts are lowered rightly. -/
theorem refines_lowerExprKind (ty : Option TypeId) (kind : ExprKind Name) :
    (lowerExprKind unit lower ty kind).Refines last sem held (evalKind sem unit eval ty last.texts kind)
      valueOf := by
  cases kind with
  | int | float => exact refines_emitConst hfinal hmoves ty rfl
  | text value => exact refines_text hfinal hmoves value ty
  | ident name => exact refines_lowerIdent hfinal hmoves name ty
  | binary op lhs rhs => exact refines_lowerBinary hfinal hlower op lhs rhs ty
  | unary op operand => exact refines_lowerUnary hfinal hmoves hlower op operand ty
  | cast target operand =>
    exact (hlower operand held).bind fun value x => refines_emitUnary hfinal (by decide) _ .head
  | index array position =>
    refine (hlower array held).bind fun base y => (hlower position _).bind fun offset z => ?_
    exact refines_emitBinary hfinal (by decide) ty Knows.head.later .head
  | member base field =>
    refine (hlower base held).bind fun object y => ?_
    exact refines_emitBinary hfinal (by decide) ty .head (.const rfl)
  | call callee args => exact refines_lowerCall hfinal hlower callee args ty
  | assign target value =>
    refine (hlower value held).bind fun result x => ?_
    refine (refines_lowerTarget hfinal hmoves hlower target .head).bind fun _ _ => ?_
    exact refines_return Knows.head.later
  | initList elements =>
    cases elements with
    | nil => exact refines_return (.const rfl)
    | cons first rest => exact hlower first held
  | error => exact refines_return (.const rfl)

end Forms

/-- Lowered expressions compute their values. -/
theorem SourceUnit.refines_lowerExprWithin [Nonempty V] (hfinal : last.Final) (hmoves : sem.Moves)
    (unit : SourceUnit) (depth : Nat) (id : ExprId) (held : List (Operand × V)) :
    (unit.lowerExprWithin depth id).Refines last sem held (unit.evalWithin sem last.texts depth id)
      valueOf := by
  induction depth generalizing id held with
  | zero => rintro s _ _ ⟨⟩
  | succ depth ih =>
    refine refines_expr_bind fun node => Refines.withLine ?_ node.line
    exact refines_lowerExprKind hfinal hmoves ih node.ty node.kind

/-- Lowered expressions compute their values. -/
theorem SourceUnit.refines_lowerExpr (hfinal : last.Final) (hmoves : sem.Moves) (unit : SourceUnit)
    (id : ExprId) (held : List (Operand × V)) :
    (unit.lowerExpr id).Refines last sem held (unit.eval sem last.texts id) valueOf :=
  have : Nonempty V := ⟨sem.nothing⟩
  unit.refines_lowerExprWithin hfinal hmoves _ id held

end MiddleEnd
