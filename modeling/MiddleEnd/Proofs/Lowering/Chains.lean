import MiddleEnd.Proofs.Lowering.Moves

/-!
# Lowering as a chain of moves

Expressions, statements and whole functions are lowered by chains of moves. An expression leaves the
operands that wait alone: what is handed over for a call in it, the call takes back. Between statements
nothing waits. What waits changes from step to step inside a form, and it is settled anew for each block that
the form makes, so this is not a property that actions by themselves keep, and the forms are taken one by one.

## Main definitions

* `LowerM.Evaluates`: an action that lowers an expression.
* `LowerM.Clears`: an action that lowers a statement.

## Main statements

* `evaluates_lowerLogical`, `evaluates_lowerCall`: the expressions in which operands wait for long.
* `SourceUnit.evaluates_lowerExpr`, `SourceUnit.clears_lowerStmtWithin`: expressions and statements.
* `SourceUnit.exists_run_lowerFunction`: functions.
-/

namespace MiddleEnd

open LowerM Lowering

-- ════════════════════════════════════════════════════════════════════════
-- Expressions
-- ════════════════════════════════════════════════════════════════════════

/-- The action is a chain of moves that leaves the operands that wait alone, and it answers a computed
value. -/
def LowerM.Evaluates (unit : SourceUnit) (act : LowerM Operand) : Prop :=
  ∀ starts given waiting, act.Moves unit starts given (some waiting) (some waiting) fun a => [a]

section Expr

variable {unit : SourceUnit} {lower : ExprId → LowerM Operand} {starts : Starts}
  {given : List Operand}

/-- The right operand of a logical operator, and the phi behind it. What waits at the start of its block
and of the block behind it is settled, and need not be known any more when control has come there. -/
theorem exists_run_lowerRight (hlower : ∀ id, (lower id).Evaluates unit) {rhs : ExprId}
    {rhsBlock mergeBlock : BlockId} {result operand : Operand} {decided : Int} {s s' : Lowering}
    (hs : s.Ready starts given) (hresult : s.Stable result) (hlt : mergeBlock < s.fn.blockCount)
    (hlabel : s.fn.label? mergeBlock = some "logic_merge")
    (hok : lowerRight lower rhs rhsBlock mergeBlock result decided s = .ok (operand, s'))
    (waiting : List Operand) : operand = result ∧ SameScopes s s' ∧ Progress.Run unit
      ⟨s, none, (mergeBlock, waiting) :: (rhsBlock, waiting) :: starts⟩ ⟨s', some waiting, starts⟩ := by
  rw [lowerRight] at hok
  obtain ⟨_, _, hcurrent, hok⟩ := exists_of_bind hok
  cases hcurrent
  obtain ⟨_, _, hswitch, hok⟩ := exists_of_bind hok
  cases hswitch
  obtain ⟨right, s₁, hright, hok⟩ := exists_of_bind hok
  obtain ⟨truth, s₂, htruth, hok⟩ := exists_of_bind hok
  obtain ⟨_, s₃, hjump, hok⟩ := exists_of_bind hok
  obtain ⟨_, _, hcurrent, hok⟩ := exists_of_bind hok
  cases hcurrent
  obtain ⟨_, _, hswitch, hok⟩ := exists_of_bind hok
  cases hswitch
  obtain ⟨_, s₄, hphi, hok⟩ := exists_of_bind hok
  cases hok
  have henter : Lowering.Extends 0 s { s with current := rhsBlock } := extends_switch (Nat.zero_le _)
  -- The right operand as a truth value.
  have hside : Moves unit ((mergeBlock, waiting) :: starts) given (some waiting) none
      (lower rhs >>= fun right => emitBinary .cmpNe none right (.int 0) >>= fun truth =>
        ensureJump mergeBlock >>= fun _ => pure truth) fun truth => [truth] := by
    refine (hlower rhs _ _ _).bind fun right => ?_
    refine (moves_emitBinary (by decide) none (by simp) (.inr rfl)).bind fun truth => ?_
    exact (moves_ensureJump (by simp)).bind fun _ => moves_pure (by simp)
  obtain ⟨hmoved, hstable⟩ := hside { s with current := rhsBlock } truth s₃
    ((hs.extends henter hs.scopes).mono (List.subset_cons_self _ _))
    ((bind_apply hright).trans ((bind_apply htruth).trans (bind_apply hjump)))
  -- The phi behind it.
  have hext := henter.trans hmoved.grows
  have hlabel' : s₃.fn.label? mergeBlock = some "logic_merge" := (hext.label _ hlt).trans hlabel
  have hlast : Lowering.Extends 0 s { s₃ with current := mergeBlock } :=
    hext.trans (extends_switch (Nat.zero_le _))
  have hsep : Lowering.Separates { s₃ with current := mergeBlock } (.phi result none
      [⟨.int decided, s.current⟩, ⟨truth, s₃.current⟩] s₃.line) := by
    refine ⟨.inl (hresult.extends hlast), .inl (stable_of_reg? rfl), stable_of_reg? rfl, fun arg harg => ?_⟩
    obtain rfl | harg := List.mem_cons.mp harg
    · exact stable_of_reg? rfl
    · rw [List.mem_singleton.mp harg]
      exact hstable truth List.mem_cons_self
  have hmerge : Lowering.Moved unit starts (some waiting) (some waiting)
      { s₃ with current := mergeBlock } s' := by
    rw [eq_pushed_of_emit hphi]
    exact .pushed (lt_of_emit hphi) (isOpen_of_emit hphi) (fun _ => hlabel') hsep
      (.plain rfl (by rintro ⟨⟩) (by rintro ⟨⟩))
  have hswitched : SameScopes s { s with current := rhsBlock } := ⟨rfl, rfl, rfl, rfl⟩
  have hswitched' : SameScopes s₃ { s₃ with current := mergeBlock } := ⟨rfl, rfl, rfl, rfl⟩
  refine ⟨rfl, ((hswitched.trans hmoved.scopes).trans hswitched').trans hmerge.scopes, ?_⟩
  have hrhs : Progress.Run unit ⟨s, none, (mergeBlock, waiting) :: (rhsBlock, waiting) :: starts⟩
      ⟨{ s with current := rhsBlock }, some waiting, (mergeBlock, waiting) :: starts⟩ :=
    Progress.run_enter (by simp) (by simp) (by simp only [List.mem_cons]; tauto)
  exact (hrhs.trans hmoved.run).trans
    ((Progress.run_enter List.mem_cons_self (List.subset_cons_self _ _) (by simp)).trans hmerge.run)

theorem evaluates_lowerLogical (hlower : ∀ id, (lower id).Evaluates unit) (isAnd : Bool) (lhs rhs : ExprId)
    (ty : Option TypeId) : (lowerLogical lower isAnd lhs rhs ty).Evaluates unit := by
  intro starts given waiting
  rw [lowerLogical_eq]
  refine moves_newTemp_bind fun r => ?_
  intro s operand s' hs hok
  obtain ⟨_, _, hblock, hok⟩ := exists_of_bind hok
  obtain ⟨rfl, rfl⟩ := eq_of_newBlock hblock
  obtain ⟨_, _, hblock, hok⟩ := exists_of_bind hok
  obtain ⟨rfl, rfl⟩ := eq_of_newBlock hblock
  obtain ⟨left, s₁, hleft, hok⟩ := exists_of_bind hok
  obtain ⟨_, s₂, hbranch, hok⟩ := exists_of_bind hok
  -- Both blocks are made, and the same will wait at their starts.
  have hlabel : (if isAnd then "and_rhs" else "or_rhs") ≠ "dead" := by cases isAnd <;> decide
  generalize (if isAnd then "and_rhs" else "or_rhs") = label at hlabel hleft hbranch hok
  set s₀ := (s.grown label).grown "logic_merge" with hs₀
  set rhsBlock := s.fn.blockCount with hrhs
  set mergeBlock := (s.grown label).fn.blockCount with hmerge
  have hstart : s.Extends 0 s₀ := (extends_grown label).trans (extends_grown "logic_merge")
  have hgrown : Progress.Run unit ⟨s, some waiting, starts⟩
      ⟨s₀, some waiting, (mergeBlock, waiting) :: (rhsBlock, waiting) :: starts⟩ :=
    .tail (.single (.grown label waiting hlabel)) (.grown "logic_merge" waiting (by decide))
  -- The left side and the branch behind it.
  have hside : Moves unit ((mergeBlock, waiting) :: (rhsBlock, waiting) :: starts) (.reg r ty :: given)
      (some waiting) none (lower lhs >>= fun left => emit (sideBranch isAnd left rhsBlock mergeBlock))
      fun _ => [] := by
    refine (hlower lhs _ _ _).bind fun left => ?_
    cases isAnd with
    | true => exact moves_emitBranch (by simp) (by simp) (by simp)
    | false => exact moves_emitBranch (by simp) (by simp) (by simp)
  have hready : s₀.Ready ((mergeBlock, waiting) :: (rhsBlock, waiting) :: starts) (.reg r ty :: given) :=
    (hs.extends hstart hs.scopes).mono fun x hx => by simp [hx]
  obtain ⟨hmoved, _⟩ := hside s₀ () s₂ hready ((bind_apply hleft).trans hbranch)
  -- The right side and what follows.
  have hgrew : SameScopes s s₀ := ⟨rfl, rfl, rfl, rfl⟩
  have hsame := hgrew.trans hmoved.scopes
  have hext := hstart.trans hmoved.grows
  have hready' : s₂.Ready starts (.reg r ty :: given) :=
    hs.extends hext (by rw [hsame.scopes_eq]; exact hs.scopes)
  have hlt : mergeBlock < s₀.fn.blockCount := by
    rw [hs₀, show (Lowering.grown _ _).fn.blockCount = _ from Function.blockCount_grown _ _]
    exact Nat.lt_succ_self _
  have hmergeLabel : s₀.fn.label? mergeBlock = some "logic_merge" :=
    (Function.label?_grown _ _ _).trans (if_pos rfl)
  obtain ⟨rfl, hsame', hrun⟩ := exists_run_lowerRight hlower hready' (hready'.given _ List.mem_cons_self)
    (Nat.lt_of_lt_of_le hlt hmoved.grows.blocks) ((hmoved.grows.label _ hlt).trans hmergeLabel) hok waiting
  refine ⟨⟨hsame.trans hsame', (hgrown.trans hmoved.run).trans hrun⟩, fun operand ho => ?_⟩
  rw [List.mem_singleton.mp ho]
  exact (hready'.given _ List.mem_cons_self).extends hrun.extends

theorem evaluates_lowerBinary (hlower : ∀ id, (lower id).Evaluates unit) (op : BinaryOp) (lhs rhs : ExprId)
    (ty : Option TypeId) : (lowerBinary lower op lhs rhs ty).Evaluates unit := by
  intro starts given waiting
  unfold lowerBinary
  split
  · exact evaluates_lowerLogical hlower _ lhs rhs ty starts given waiting
  · refine (hlower lhs _ _ _).bind fun left => (hlower rhs _ _ _).bind fun right => ?_
    exact moves_emitBinary op.isPlain_opcode ty (by simp) (by simp)

theorem moves_writeBack {waiting : List Operand} (operand : ExprId) {value : Operand} (ty : Option TypeId)
    (hvalue : value ∈ given) :
    (writeBack unit operand value ty).Moves unit starts given (some waiting) (some waiting) fun _ => [] := by
  refine moves_lift_bind fun node _ => ?_
  split
  · exact moves_writeVar _ ty hvalue
  · exact moves_pure_nil _

theorem evaluates_lowerUnary (hlower : ∀ id, (lower id).Evaluates unit) (op : UnaryOp) (operand : ExprId)
    (ty : Option TypeId) : (lowerUnary unit lower op operand ty).Evaluates unit := by
  have hsimple : ∀ {opcode : Opcode}, opcode.IsPlain →
      LowerM.Evaluates unit (lower operand >>= fun value => emitUnary opcode ty value) :=
    fun hop _ _ _ => (hlower operand _ _ _).bind fun value => moves_emitUnary hop ty (by simp)
  have hpre : ∀ {opcode : Opcode}, opcode.IsPlain →
      (lowerPreUpdate unit lower opcode operand ty).Evaluates unit := by
    intro opcode hop starts given waiting
    refine (hlower operand _ _ _).bind fun value => ?_
    refine (moves_emitBinary hop ty (by simp) (.inr rfl)).bind fun updated => ?_
    exact (moves_writeBack operand ty (by simp)).bind fun _ => moves_pure (by simp)
  have hpost : ∀ {opcode : Opcode}, opcode.IsPlain →
      (lowerPostUpdate unit lower opcode operand ty).Evaluates unit := by
    intro opcode hop starts given waiting
    refine (hlower operand _ _ _).bind fun value => ?_
    refine (moves_emitUnary (by decide) ty (by simp)).bind fun old => ?_
    refine (moves_emitBinary hop ty (by simp) (.inr rfl)).bind fun updated => ?_
    exact (moves_writeBack operand ty (by simp)).bind fun _ => moves_pure (by simp)
  cases op with
  | neg | not | bitNot | deref | addrOf => exact hsimple (by decide)
  | preInc | preDec => exact hpre (by decide)
  | postInc | postDec => exact hpost (by decide)

theorem moves_lowerTarget {waiting : List Operand} (hlower : ∀ id, (lower id).Evaluates unit)
    (target : ExprId) {value : Operand} (hvalue : value ∈ given) :
    (lowerTarget unit lower target value).Moves unit starts given (some waiting) (some waiting)
      fun _ => [] := by
  have hstore : ∀ {addr : Operand} {more : List Operand}, addr ∈ more → value ∈ more →
      (emit (.store addr value)).Moves unit starts more (some waiting) (some waiting) fun _ => [] :=
    fun haddr hvalue => moves_emitPlain (fun _ => (by decide : Opcode.store.IsPlain)) fun s hs =>
      separates_of_stable rfl (stable_of_reg? rfl) (hs.given _ haddr) (hs.given _ hvalue)
  refine moves_lift_bind fun node _ => ?_
  split
  · exact moves_writeVar _ _ hvalue
  · exact (hlower _ _ _ _).bind fun addr => hstore (by simp) (by simp [hvalue])
  · refine (hlower _ _ _ _).bind fun base => (hlower _ _ _ _).bind fun offset => ?_
    refine (moves_emitBinary (by decide) none (by simp) (by simp)).bind fun addr => ?_
    exact hstore (by simp) (by simp [hvalue])
  · refine (hlower _ _ _ _).bind fun object => ?_
    refine (moves_emitBinary (by decide) none (by simp) (.inr rfl)).bind fun addr => ?_
    exact hstore (by simp) (by simp [hvalue])
  · exact (hlower _ _ _ _).bind fun addr => hstore (by simp) (by simp [hvalue])

/-- Handing over the arguments of a call. -/
theorem exists_passesArgs (hlower : ∀ id, (lower id).Evaluates unit) {args : List ExprId}
    {s s' : Lowering} (hs : s.Ready starts given)
    (hok : (args.forM fun arg => do
      let value ← lower arg
      emit (.param value)) s = .ok ((), s')) (waiting : List Operand) :
    ∃ values, values.length = args.length ∧ PassesArgs lower s args values s' ∧
      s.Moved unit starts (some waiting) (some (waiting ++ values)) s' := by
  induction args generalizing s waiting with
  | nil =>
    cases hok
    exact ⟨[], rfl, .nil s', by rw [List.append_nil]; exact .refl⟩
  | cons arg args ih =>
    obtain ⟨_, s₂, hfirst, hrest⟩ := exists_of_bind hok
    obtain ⟨value, s₁, hvalue, hparam⟩ := exists_of_bind hfirst
    obtain ⟨hmoved, hstable⟩ := hlower arg starts given waiting s value s₁ hs hvalue
    have hsep : s₁.Separates (.param value s₁.line) := separates_of_stable rfl (stable_of_reg? rfl)
      (hstable value List.mem_cons_self) (stable_of_reg? rfl)
    have hpassed : s₁.Moved unit starts (some waiting) (some (waiting ++ [value]))
        (s₁.pushed (.param value s₁.line)) :=
      .pushed (lt_of_emit hparam) (isOpen_of_emit hparam) nofun hsep (.param rfl)
    rw [eq_pushed_of_emit hparam] at hrest
    obtain ⟨values, hlength, hpasses, hmoved'⟩ := ih (hs.moved (hmoved.trans hpassed)) hrest _
    refine ⟨value :: values, congrArg Nat.succ hlength, .cons hvalue hpasses, ?_⟩
    rw [← List.append_cons] at hmoved'
    exact (hmoved.trans hpassed).trans hmoved'

/-- The call takes back exactly what was handed over for it. -/
theorem evaluates_lowerCall {depth : Nat} {callee : Name} {args : List ExprId}
    (hsource : ∃ id node, unit.expr id = .ok node ∧ node.kind = .call callee args)
    (hlower : ∀ id, (unit.lowerExprWithin depth id).Evaluates unit) (ty : Option TypeId) :
    (lowerCall (unit.lowerExprWithin depth) callee args ty).Evaluates unit := by
  intro starts given waiting s operand s' hs hok
  obtain ⟨_, s₁, hargs, hcall⟩ := exists_of_bind hok
  obtain ⟨values, hlength, hpasses, hmoved⟩ := exists_passesArgs hlower hs hargs waiting
  have hs₁ := hs.moved hmoved
  obtain ⟨_, _, hnew, hcall⟩ := exists_of_bind hcall
  cases hnew
  obtain ⟨_, s₂, hemit, hcall⟩ := exists_of_bind hcall
  cases hcall
  obtain ⟨id, node, hnode, hkind⟩ := hsource
  set call : Instr := .binary .call (.reg s₁.fn.regCount ty) (.func callee) (.int args.length) s₁.line
  have hopen : s₁.withReg.IsOpen := isOpen_of_emit hemit
  have hlt : s₁.withReg.current < s₁.withReg.fn.blockCount := lt_of_emit hemit
  obtain rfl : s' = s₁.withReg.pushed call := eq_pushed_of_emit hemit
  have hreg : s₁.Moved unit starts (some (waiting ++ values)) (some (waiting ++ values)) s₁.withReg :=
    .withReg
  have hdst : s₁.withReg.Stable (.reg s₁.fn.regCount ty) := hs₁.stable_withReg ty
  have hsep : s₁.withReg.Separates call :=
    separates_of_stable rfl hdst (stable_of_reg? rfl) (stable_of_reg? rfl)
  have hsite : CallSite unit s₁.withReg.fn s₁.current (s₁.withReg.fn.code s₁.current).length call values :=
    ⟨id, node, callee, args, depth, s, s₁, hnode, hkind, rfl, hpasses, hreg.grows.partOf, rfl, rfl⟩
  have hpushed : s₁.withReg.Moved unit starts (some (waiting ++ values)) (some waiting)
      (s₁.withReg.pushed call) :=
    .pushed hlt hopen nofun hsep (.call rfl (by rw [hlength]; rfl) hsite)
  refine ⟨(hmoved.trans hreg).trans hpushed, fun operand ho => ?_⟩
  rw [List.mem_singleton.mp ho]
  exact hdst.extends hpushed.grows

theorem evaluates_lowerExprKind {depth : Nat} {id : ExprId} {node : Expr} (hnode : unit.expr id = .ok node)
    (hlower : ∀ id, (unit.lowerExprWithin depth id).Evaluates unit) :
    (lowerExprKind unit (unit.lowerExprWithin depth) node.ty node.kind).Evaluates unit := by
  generalize hty : node.ty = ty
  intro starts given waiting
  cases hkind : node.kind with
  | int | float => exact moves_emitUnary (by decide) ty (.inr (.inl rfl))
  | text value =>
    exact (moves_internText value).bind fun text => moves_emitUnary (by decide) ty (.inr (.inl rfl))
  | ident name =>
    exact (moves_varOperand name ty).bind fun var => moves_emitUnary (by decide) ty (.inr (.inr rfl))
  | binary op lhs rhs => exact evaluates_lowerBinary hlower op lhs rhs ty starts given waiting
  | unary op operand => exact evaluates_lowerUnary hlower op operand ty starts given waiting
  | cast target operand =>
    exact (hlower operand _ _ _).bind fun value => moves_emitUnary (by decide) _ (by simp)
  | index array position =>
    refine (hlower array _ _ _).bind fun base => (hlower position _ _ _).bind fun offset => ?_
    exact moves_emitBinary (by decide) ty (by simp) (by simp)
  | member base field =>
    exact (hlower base _ _ _).bind fun object => moves_emitBinary (by decide) ty (by simp) (.inr rfl)
  | call callee args =>
    exact evaluates_lowerCall ⟨id, node, hnode, hkind⟩ hlower ty starts given waiting
  | assign target value =>
    refine (hlower value _ _ _).bind fun result => ?_
    exact (moves_lowerTarget hlower target (by simp)).bind fun _ => moves_pure (by simp)
  | initList elements =>
    cases elements with
    | nil => exact moves_pure (by simp [Operand.reg?])
    | cons first rest => exact hlower first starts given waiting
  | error => exact moves_pure (by simp [Operand.reg?])

end Expr

theorem SourceUnit.evaluates_lowerExprWithin (unit : SourceUnit) (depth : Nat) (id : ExprId) :
    (unit.lowerExprWithin depth id).Evaluates unit := by
  induction depth generalizing id with
  | zero => exact fun starts given waiting => moves_throw _ _
  | succ depth ih =>
    intro starts given waiting
    exact moves_lift_bind fun node hnode =>
      moves_withLine node.line (evaluates_lowerExprKind hnode ih starts given waiting)

/-- Lowering an expression is a chain of moves and answers a computed value. -/
theorem SourceUnit.evaluates_lowerExpr (unit : SourceUnit) (id : ExprId) :
    (unit.lowerExpr id).Evaluates unit :=
  unit.evaluates_lowerExprWithin _ id

-- ════════════════════════════════════════════════════════════════════════
-- Statements
-- ════════════════════════════════════════════════════════════════════════

/-- The action is a chain of moves, and nothing waits before and after it. -/
def LowerM.Clears (unit : SourceUnit) (act : LowerM Unit) : Prop :=
  ∀ starts given, act.Moves unit starts given (some []) (some []) fun _ => []

section Stmt

variable {unit : SourceUnit} {lower : StmtId → LowerM Unit} {starts : Starts}
  {given : List Operand}

/-- Going on in a block at whose start nothing waits. -/
theorem moves_enter {b : BlockId} (h : (b, []) ∈ starts) :
    (switchTo b).Moves unit starts given none (some []) fun _ => [] := moves_switchTo h

theorem clears_openDeadBlock (id : StmtId) : (openDeadBlock unit id).Clears unit := by
  intro starts given s _ s' hs hok
  obtain rfl | ⟨hclosed, rfl⟩ := openDeadBlock_cases hok
  · exact ⟨.refl, nofun⟩
  · exact ⟨⟨⟨rfl, rfl, rfl, rfl⟩, .head (.closed hclosed) (.single .opened)⟩, nofun⟩

theorem clears_lowerList (hlower : ∀ id, (lower id).Clears unit) (body : List StmtId) :
    (lowerList unit lower body).Clears unit := fun starts given =>
  moves_forM fun id _ => (clears_openDeadBlock id starts given).bind fun _ => hlower id _ _

theorem clears_lowerDeclare (name : Name) (ty : Option TypeId) (init : Option ExprId) :
    (lowerDeclare unit name ty init).Clears unit := by
  intro starts given
  refine (moves_varOperand name ty).bind fun var => ?_
  cases init with
  | none => exact moves_pure_nil _
  | some value =>
    exact (unit.evaluates_lowerExpr value _ _ _).bind fun result => moves_emitCopy (by simp)

/-- Nothing waits where a function is left. -/
theorem moves_emitRet {value : Operand} (h : value ∈ given ∨ value.reg? = none) :
    (emit (.ret value)).Moves unit starts given (some []) none fun _ => [] := by
  refine moves_emit (fun _ => rfl) fun s hs => ⟨?_, .leave rfl nofun fun _ => rfl⟩
  exact separates_of_stable rfl (stable_of_reg? rfl) (h.elim (hs.given value) stable_of_reg?)
    (stable_of_reg? rfl)

theorem moves_emitNop :
    (emit .nop).Moves unit starts given (some []) (some []) fun _ => [] :=
  moves_emitPlain (fun _ => (by decide : Opcode.nop.IsPlain)) fun _ _ =>
    separates_of_stable rfl (stable_of_reg? rfl) (stable_of_reg? rfl) (stable_of_reg? rfl)

theorem clears_lowerReturn (value : Option ExprId) : (lowerReturn unit value).Clears unit := by
  intro starts given
  cases value with
  | none =>
    refine (moves_pure (R := fun a => [a]) (by simp [Operand.reg?])).bind fun result => ?_
    exact (moves_emitRet (by simp)).idle
  | some value =>
    exact (unit.evaluates_lowerExpr value _ _ _).bind fun result => (moves_emitRet (by simp)).idle

theorem clears_lowerAssertion (cond : ExprId) : (lowerAssertion unit cond).Clears unit := by
  intro starts given
  refine moves_newBlock_bind (by decide) fun failBlock => moves_newBlock_bind (by decide) fun okBlock => ?_
  refine (unit.evaluates_lowerExpr cond _ _ _).bind fun value => ?_
  refine (moves_emitBranch (by simp) (by simp) (by simp)).bind fun _ => ?_
  refine (moves_enter (by simp)).bind fun _ => moves_emitNop.bind fun _ => ?_
  exact (moves_emitRet (.inr rfl)).bind fun _ => moves_enter (by simp)

/-- A block is filled with a statement between two others. -/
theorem moves_fillBlock (hlower : ∀ id, (lower id).Clears unit) {block next : BlockId} (body : StmtId)
    (hblock : (block, []) ∈ starts) (hnext : (next, []) ∈ starts) :
    (fillBlock lower block body next).Moves unit starts given none none fun _ => [] :=
  (moves_enter hblock).bind fun _ => (hlower body _ _).bind fun _ => moves_ensureJump hnext

theorem clears_lowerConditional (hlower : ∀ id, (lower id).Clears unit) (cond : ExprId)
    (thenBody : StmtId) (elseBody : Option StmtId) :
    (lowerConditional unit lower cond thenBody elseBody).Clears unit := by
  intro starts given
  refine moves_newBlock_bind (by decide) fun thenBlock => ?_
  cases elseBody with
  | none =>
    refine moves_newBlock_bind (by decide) fun mergeBlock => ?_
    refine (unit.evaluates_lowerExpr cond _ _ _).bind fun value => ?_
    refine (moves_emitBranch (by simp) (by simp) (by simp)).bind fun _ => ?_
    refine (moves_fillBlock hlower thenBody (by simp) (by simp)).bind fun _ => ?_
    exact moves_enter (by simp)
  | some elseBody =>
    refine moves_newBlock_bind (by decide) fun elseBlock => moves_newBlock_bind (by decide) fun mergeBlock => ?_
    refine (unit.evaluates_lowerExpr cond _ _ _).bind fun value => ?_
    refine (moves_emitBranch (by simp) (by simp) (by simp)).bind fun _ => ?_
    refine (moves_fillBlock hlower thenBody (by simp) (by simp)).bind fun _ => ?_
    refine (moves_fillBlock hlower elseBody (by simp) (by simp)).bind fun _ => ?_
    exact moves_enter (by simp)

theorem clears_lowerWhile (hlower : ∀ id, (lower id).Clears unit) (cond : ExprId) (body : StmtId) :
    (lowerWhile unit lower cond body).Clears unit := by
  intro starts given
  refine moves_newBlock_bind (by decide) fun condBlock => moves_newBlock_bind (by decide) fun bodyBlock => ?_
  refine moves_newBlock_bind (by decide) fun exitBlock => ?_
  refine Moves.bind (R := fun _ => []) (moves_withLoop (by simp) (by simp) ?_) fun _ =>
    moves_enter (by simp)
  refine (moves_ensureJump (by simp)).bind fun _ => (moves_enter (by simp)).bind fun _ => ?_
  refine (unit.evaluates_lowerExpr cond _ _ _).bind fun value => ?_
  refine (moves_emitBranch (by simp) (by simp) (by simp)).bind fun _ => ?_
  exact moves_fillBlock hlower body (by simp) (by simp)

theorem clears_lowerDo (hlower : ∀ id, (lower id).Clears unit) (body : StmtId) (cond : ExprId) :
    (lowerDo unit lower body cond).Clears unit := by
  intro starts given
  refine moves_newBlock_bind (by decide) fun bodyBlock => moves_newBlock_bind (by decide) fun condBlock => ?_
  refine moves_newBlock_bind (by decide) fun exitBlock => ?_
  refine Moves.bind (R := fun _ => []) (moves_withLoop (by simp) (by simp) ?_) fun _ =>
    moves_enter (by simp)
  refine (moves_ensureJump (by simp)).bind fun _ => ?_
  refine (moves_fillBlock hlower body (by simp) (by simp)).bind fun _ => ?_
  refine (moves_enter (by simp)).bind fun _ => ?_
  refine (unit.evaluates_lowerExpr cond _ _ _).bind fun value => ?_
  exact moves_emitBranch (by simp) (by simp) (by simp)

theorem moves_lowerTest (cond : Option ExprId) {t u : BlockId} (ht : (t, []) ∈ starts) (hu : (u, []) ∈ starts) :
    (lowerTest unit cond t u).Moves unit starts given (some []) none fun _ => [] := by
  cases cond with
  | none => exact moves_emitJump ht
  | some cond =>
    exact (unit.evaluates_lowerExpr cond _ _ _).bind fun value => moves_emitBranch (by simp) ht hu

theorem clears_lowerFor (hlower : ∀ id, (lower id).Clears unit) (init : Option StmtId)
    (cond incr : Option ExprId) (body : Option StmtId) :
    (lowerFor unit lower init cond incr body).Clears unit := by
  intro starts given
  rw [lowerFor_eq]
  refine moves_newBlock_bind (by decide) fun condBlock => moves_newBlock_bind (by decide) fun bodyBlock => ?_
  refine moves_newBlock_bind (by decide) fun incrBlock => moves_newBlock_bind (by decide) fun exitBlock => ?_
  refine Moves.bind (R := fun _ => []) (moves_withLoop (by simp) (by simp) ?_) fun _ =>
    moves_enter (by simp)
  refine (moves_optional (fun id => hlower id _ _) init).bind fun _ => ?_
  refine (moves_ensureJump (by simp)).bind fun _ => (moves_enter (by simp)).bind fun _ => ?_
  refine (moves_lowerTest cond (by simp) (by simp)).bind fun _ => (moves_enter (by simp)).bind fun _ => ?_
  refine (moves_optional (fun id => hlower id _ _) body).bind fun _ => ?_
  refine (moves_ensureJump (by simp)).bind fun _ => (moves_enter (by simp)).bind fun _ => ?_
  refine (moves_optional (fun step => moves_discard (unit.evaluates_lowerExpr step _ _ _)) incr).bind
    fun _ => ?_
  exact moves_ensureJump (by simp)

/-- Making the blocks of the entries of a switch, at whose starts nothing will wait. -/
theorem moves_createEntry_bind {β : Type} {stack stack' : Option (List Operand)} {R : β → List Operand}
    (id : StmtId) {next : Option SwitchEntry → LowerM β}
    (h : ∀ entry us, EntriesIn [entry] us →
      (next entry).Moves unit (us.map (·, []) ++ starts) given stack stack' R) :
    (createEntry unit id >>= next).Moves unit starts given stack stack' R := by
  rw [createEntry, bind_assoc]
  refine moves_lift_bind fun node _ => ?_
  split
  · rw [bind_assoc]
    exact moves_newBlock_bind (case_ne _ (by decide)) fun t => h (some ⟨some _, t⟩) [t] (by simp [EntriesIn])
  · rw [bind_assoc]
    exact moves_newBlock_bind (by decide) fun t => h (some ⟨none, t⟩) [t] (by simp [EntriesIn])
  · exact h none [] (by simp [EntriesIn])

theorem moves_createEntries_bind {β : Type} {stack stack' : Option (List Operand)} {R : β → List Operand}
    (stmts : List StmtId) {next : List (Option SwitchEntry) → LowerM β}
    (h : ∀ entries us, EntriesIn entries us →
      (next entries).Moves unit (us.map (·, []) ++ starts) given stack stack' R) :
    (stmts.mapM (createEntry unit) >>= next).Moves unit starts given stack stack' R := by
  induction stmts generalizing starts next with
  | nil => exact h [] [] (by simp [EntriesIn])
  | cons id stmts ih =>
    rw [List.mapM_cons, bind_assoc]
    refine moves_createEntry_bind id fun entry us hentry => ?_
    rw [bind_assoc]
    refine ih fun entries vs hentries => ?_
    rw [← List.append_assoc, ← List.map_append]
    refine h (entry :: entries) (vs ++ us) fun e he => ?_
    obtain heq | he := List.mem_cons.mp he
    · exact List.mem_append_right _ (hentry e (heq ▸ List.mem_cons_self))
    · exact List.mem_append_left _ (hentries e he)

theorem moves_lowerSwitchPart (hlower : ∀ id, (lower id).Clears unit) (id : StmtId)
    (entry : Option SwitchEntry) (hentry : ∀ e ∈ entry, (e.block, []) ∈ starts) :
    (lowerSwitchPart unit lower id entry).Moves unit starts given (some []) (some []) fun _ => [] := by
  cases entry with
  | some entry =>
    exact (moves_ensureJump (hentry entry rfl)).bind fun _ => moves_enter (hentry entry rfl)
  | none => exact (clears_openDeadBlock id _ _).bind fun _ => hlower id _ _

/-- A switch leads to its entries and behind itself. -/
theorem moves_emitSwitch {value : Operand} {entries : List (Option SwitchEntry)} {exit : BlockId}
    {free : List BlockId} (hvalue : value ∈ given) (hfree : ∀ t ∈ free, (t, []) ∈ starts)
    (hentries : EntriesIn entries free) (hexit : exit ∈ free) :
    (emit (.switch value (switchCases entries) ((switchDefault? entries).getD exit))).Moves unit starts
      given (some []) (some []) fun _ => [] := by
  refine (moves_emit (fun _ => rfl) fun s hs => ⟨?_, .leave rfl (fun t ht => ?_) ?_⟩).idle
  · exact separates_of_stable rfl (stable_of_reg? rfl) (hs.given value hvalue) (stable_of_reg? rfl)
  · exact hfree t (mem_targets_switch hentries hexit ht)
  · rintro ⟨⟩

theorem clears_lowerSwitch (hlower : ∀ id, (lower id).Clears unit) (cond : ExprId) (body : StmtId) :
    (lowerSwitch unit lower cond body).Clears unit := by
  intro starts given
  refine moves_newBlock_bind (by decide) fun exitBlock => ?_
  refine Moves.bind (R := fun _ => []) (moves_withBreak (by simp) ?_) fun _ => moves_enter (by simp)
  refine (unit.evaluates_lowerExpr cond _ _ _).bind fun value => ?_
  refine moves_lift_bind fun stmts _ => moves_createEntries_bind stmts fun entries us hentries => ?_
  have hknown : ∀ t ∈ us ++ [exitBlock], (t, []) ∈ us.map (·, []) ++ (exitBlock, []) :: starts := by
    intro t ht
    obtain ht | ht := List.mem_append.mp ht
    · exact List.mem_append_left _ (List.mem_map_of_mem ht)
    · rw [List.mem_singleton.mp ht]
      exact List.mem_append_right _ List.mem_cons_self
  have hentries' : EntriesIn entries (us ++ [exitBlock]) :=
    fun e he => List.mem_append_left _ (hentries e he)
  refine (moves_emitSwitch (by simp) hknown hentries' (by simp)).bind fun _ => ?_
  refine Moves.bind (R := fun _ => []) (moves_forM fun part hpart => ?_) fun _ => moves_ensureJump (by simp)
  refine moves_lowerSwitchPart hlower part.1 part.2 fun entry hentry => hknown _ (hentries' entry ?_)
  exact Option.mem_def.mp hentry ▸ (List.of_mem_zip hpart).2

theorem moves_jumpToInnermost {targets : List BlockId} (h : ∀ t ∈ targets, (t, []) ∈ starts) :
    (jumpToInnermost targets).Moves unit starts given (some []) (some []) fun _ => [] := by
  cases targets with
  | nil => exact moves_pure_nil _
  | cons t rest => exact (moves_emitJump (h t List.mem_cons_self)).idle

theorem clears_lowerGoto (name : Name) : (lowerGoto name).Clears unit := by
  refine fun starts given => moves_get_bind fun s hscopes => ?_
  split
  · rename_i target hlookup
    have htarget := mem_of_lookup hlookup
    exact (moves_emitJump (hscopes target (by simp [scopes, htarget]))).idle
  · exact moves_emitNop

theorem clears_lowerLabel (id : StmtId) : (lowerLabel id).Clears unit := by
  refine fun starts given => moves_get_bind fun s hscopes => ?_
  split
  · rename_i block hlookup
    have hblock := mem_of_lookup hlookup
    have hknown := hscopes block (by simp [scopes, hblock])
    exact (moves_ensureJump hknown).bind fun _ => moves_enter hknown
  · exact moves_pure_nil _

theorem clears_lowerStmtKind (hlower : ∀ id, (lower id).Clears unit) (id : StmtId) (ty : Option TypeId)
    (kind : StmtKind Name) : (lowerStmtKind unit lower id ty kind).Clears unit := by
  cases kind with
  | block body => exact clears_lowerList hlower body
  | declare name init => exact clears_lowerDeclare name ty init
  | expr value => exact fun _ _ => moves_discard (unit.evaluates_lowerExpr value _ _ _)
  | ret value => exact clears_lowerReturn value
  | conditional cond thenBody elseBody => exact clears_lowerConditional hlower cond thenBody elseBody
  | whileLoop cond body => exact clears_lowerWhile hlower cond body
  | doLoop body cond => exact clears_lowerDo hlower body cond
  | forLoop init cond incr body => exact clears_lowerFor hlower init cond incr body
  | switch cond body => exact clears_lowerSwitch hlower cond body
  | breakJump | continueJump =>
    refine fun _ _ => moves_get_bind fun s hscopes => moves_jumpToInnermost fun t ht => ?_
    exact hscopes t (by simp [scopes, ht])
  | goto name => exact clears_lowerGoto name
  | label name => exact clears_lowerLabel id
  | assertion cond =>
    cases cond with
    | none => exact fun _ _ => moves_pure_nil _
    | some cond => exact clears_lowerAssertion cond
  | error => exact fun _ _ => moves_emitNop
  | caseLabel | defaultLabel | empty => exact fun _ _ => moves_pure_nil _

/-- Lowering a statement is a chain of moves. -/
theorem SourceUnit.clears_lowerStmtWithin (unit : SourceUnit) (depth : Nat) (id : StmtId) :
    (unit.lowerStmtWithin depth id).Clears unit := by
  induction depth generalizing id with
  | zero => exact fun _ _ => moves_throw _ _
  | succ depth ih =>
    refine fun _ _ => moves_lift_bind fun node _ => ?_
    exact moves_withLine node.line (clears_lowerStmtKind ih id node.ty node.kind _ _)

-- ════════════════════════════════════════════════════════════════════════
-- Functions
-- ════════════════════════════════════════════════════════════════════════

/-- The action makes blocks at whose starts nothing will wait, and does nothing else. -/
def LowerM.MakesLabels (unit : SourceUnit) (act : LowerM Unit) : Prop :=
  ∀ s s' starts stack, s.Ready starts [] → act s = .ok ((), s') → ∃ us : List BlockId,
    s'.Ready (us.map (·, []) ++ starts) [] ∧
      Progress.Run unit ⟨s, stack, starts⟩ ⟨s', stack, us.map (·, []) ++ starts⟩

theorem makesLabels_createLabel (id : StmtId) (name : Name) :
    (createLabel unit id name).MakesLabels unit := by
  intro s s' starts stack hs hok
  rw [createLabel, lift_bind_apply] at hok
  obtain ⟨label, _, hok⟩ := bind_eq_ok.mp hok
  obtain rfl : s.withLabel label id name = s' := (Prod.mk.inj (Except.ok.inj hok)).2
  refine ⟨[s.fn.blockCount], ?_, .single (.labelled label id name)⟩
  refine (hs.mono (List.subset_cons_self _ _)).extends (extends_withLabel label id name) fun t ht => ?_
  have hold := hs.scopes t
  simp only [Lowering.scopes, Lowering.withLabel, Lowering.grown, List.map_append, List.map_cons,
    List.map_nil, List.mem_append, List.mem_cons, List.not_mem_nil, or_false] at ht hold
  obtain (ht | ht | rfl) | rfl | ht := ht
  · exact List.mem_cons_of_mem _ (hold (.inl (.inl ht)))
  · exact List.mem_cons_of_mem _ (hold (.inl (.inr ht)))
  · exact List.mem_cons_self
  · exact List.mem_cons_self
  · exact List.mem_cons_of_mem _ (hold (.inr ht))

theorem makesLabels_forM {act : StmtId → LowerM Unit} {parts : List StmtId}
    (h : ∀ part ∈ parts, (act part).MakesLabels unit) : LowerM.MakesLabels unit (parts.forM act) := by
  induction parts with
  | nil =>
    rintro s _ starts stack hs ⟨⟩
    exact ⟨[], hs, .refl⟩
  | cons part parts ih =>
    intro s s' starts stack hs hok
    obtain ⟨_, s₁, hfirst, hrest⟩ := exists_of_bind hok
    obtain ⟨us, hready, hrun⟩ := h part List.mem_cons_self s s₁ starts stack hs hfirst
    obtain ⟨vs, hready', hrun'⟩ := ih (fun p hp => h p (List.mem_cons_of_mem _ hp)) s₁ s' _ stack hready hrest
    rw [← List.append_assoc, ← List.map_append] at hready' hrun'
    exact ⟨vs ++ us, hready', hrun.trans hrun'⟩

theorem SourceUnit.makesLabels_createLabelsWithin (unit : SourceUnit) (depth : Nat) (id : StmtId) :
    (unit.createLabelsWithin depth id).MakesLabels unit := by
  induction depth generalizing id with
  | zero => rintro s s' starts stack _ ⟨⟩
  | succ depth ih =>
    intro s s' starts stack hs hok
    rw [createLabelsWithin, lift_bind_apply] at hok
    obtain ⟨node, _, hok⟩ := bind_eq_ok.mp hok
    cases hkind : node.kind with
    | label name =>
      rw [hkind] at hok
      exact makesLabels_createLabel id name s s' starts stack hs hok
    | _ =>
      rw [hkind] at hok
      exact makesLabels_forM (fun part _ => ih part) s s' starts stack hs hok

/-- Lowering the body of a function is a chain of moves. In the end nothing waits anywhere. -/
theorem SourceUnit.run_lowerBody (unit : SourceUnit) {body : StmtId} {s s' : Lowering} (hs : s.Ready [] [])
    (hok : unit.lowerBody body s = .ok ((), s')) :
    Progress.Run unit ⟨s, some [], []⟩ ⟨s', some [], []⟩ := by
  obtain ⟨_, s₁, hlabels, hlower⟩ := exists_of_bind hok
  obtain ⟨us, hready, hrun⟩ := unit.makesLabels_createLabelsWithin _ body s s₁ [] (some []) hs hlabels
  obtain ⟨hmoved, _⟩ := unit.clears_lowerStmtWithin _ body _ [] s₁ () s' hready hlower
  refine (hrun.trans hmoved.run).tail (.forget (List.nil_subset _) fun x hx => .inr (.inr ?_))
  simp only [List.append_nil, List.mem_map] at hx
  obtain ⟨u, _, rfl⟩ := hx
  rfl

/-- A lowered function was finished from a state that a chain of moves led to, from one without instructions.
Nothing waits in either of them. -/
theorem SourceUnit.exists_run_lowerFunction {unit : SourceUnit} {texts texts' : Interner}
    {decl : FunctionDecl} {f : Function} (h : unit.lowerFunction texts decl = .ok (some f, texts')) :
    ∃ (start last : Lowering) (avail : Avail), f = last.finished ∧ last.Sound avail ∧
      start.current = 0 ∧ 0 < start.fn.blockCount ∧ (∀ b, start.fn.code b = []) ∧
      Progress.Run unit ⟨start, some [], []⟩ ⟨last, some [], []⟩ := by
  obtain ⟨body, fn, last, avail, _, _, hstart, hcode, hlower, hlast, rfl, _⟩ := unit.exists_lowerBody h
  exact ⟨_, last, avail, rfl, hlast, hstart.entry, Nat.zero_lt_of_lt hstart.current, hcode,
    unit.run_lowerBody ⟨hstart.vars.lt, List.forall_mem_nil _, List.forall_mem_nil _⟩ hlower⟩

end Stmt

end MiddleEnd
