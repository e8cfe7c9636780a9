import MiddleEnd.Proofs.Lowering.Stmt
import MiddleEnd.Proofs.Lowering.Texts

/-!
# How deep lowering goes

Everything that follows the numbers in a unit is told how deep it may go. In a unit in which the parts of a
node come before it, this bound is never met: whatever is larger than the number of a node is deep enough,
and makes no difference. So the recursions end by themselves, also where nodes are shared.

## Main statements

* `SourceUnit.Acyclic.exists_text`: the text of a type.
* `SourceUnit.WellFormed.lowerExprWithin_eq`, `SourceUnit.WellFormed.lowerStmtWithin_eq`,
  `SourceUnit.WellFormed.createLabelsWithin_eq`: the bound makes no difference.
* `SourceUnit.WellFormed.succeeds_lowerExpr`, `SourceUnit.WellFormed.succeeds_lowerStmt`,
  `SourceUnit.WellFormed.succeeds_createLabels`: lowering what exists succeeds.
-/

namespace MiddleEnd

open LowerM

-- ════════════════════════════════════════════════════════════════════════
-- Types
-- ════════════════════════════════════════════════════════════════════════

/-- A type that exists has a text, which is found at any depth beyond its number. -/
theorem SourceUnit.Acyclic.exists_text {unit : SourceUnit} (h : unit.Acyclic) {id : TypeId}
    (hid : id < unit.types.size) :
    ∃ text, ∀ depth, id < depth → unit.types.textWithin unit.names depth id = .ok text := by
  induction id using Nat.strong_induction_on with
  | _ id ih =>
    have hget : unit.types.get id = .ok unit.types.entries[id] := by
      rw [TypeTable.get, Array.getElem?_eq_getElem hid, require_some]
    have hrefs : ∀ ref ∈ unit.types.entries[id].refs, ref.Known unit ∧ ref.Precedes (.type id) := by
      have howner : unit.refsOf (.type id) = unit.types.entries[id].refs := by
        rw [SourceUnit.refsOf, Array.getElem?_eq_getElem hid]
        rfl
      exact howner ▸ h.entries (.type id)
    generalize unit.types.entries[id] = ty at hget hrefs
    -- The text of a part is found one level below.
    have hpart : ∀ part, .type part ∈ ty.refs →
        ∃ text, ∀ depth, id < depth + 1 → unit.types.textWithin unit.names depth part = .ok text := by
      intro part hmem
      obtain ⟨hknown, hlt⟩ := hrefs (.type part) hmem
      obtain ⟨text, htext⟩ := ih part hlt hknown
      exact ⟨text, fun depth hdepth => htext depth (Nat.lt_of_lt_of_le hlt (Nat.le_of_lt_succ hdepth))⟩
    -- No text is found at the depth zero, so it is enough to look at the others.
    have hsucc : ∃ text, ∀ depth, id < depth + 1 →
        unit.types.textWithin unit.names (depth + 1) id = .ok text := by
      simp only [TypeTable.textWithin, hget, ok_bind]
      cases ty with
      | pointer target =>
        obtain ⟨text, htext⟩ := hpart target List.mem_cons_self
        exact ⟨text ++ "*", fun depth hlt => bind_eq_ok.mpr ⟨text, htext depth hlt, rfl⟩⟩
      | array element length =>
        obtain ⟨text, htext⟩ := hpart element List.mem_cons_self
        exact ⟨text ++ "[" ++ toString length ++ "]",
          fun depth hlt => bind_eq_ok.mpr ⟨text, htext depth hlt, rfl⟩⟩
      | struct name =>
        obtain ⟨text, htext⟩ := Interner.succeeds_name (hrefs (.name name) List.mem_cons_self).1
        exact ⟨"struct " ++ text, fun _ _ => bind_eq_ok.mpr ⟨text, htext, rfl⟩⟩
      | _ => exact ⟨_, fun _ _ => rfl⟩
    obtain ⟨text, htext⟩ := hsucc
    refine ⟨text, fun depth hlt => ?_⟩
    cases depth with
    | zero => exact absurd hlt (Nat.not_lt_zero id)
    | succ depth => exact htext depth hlt

-- ════════════════════════════════════════════════════════════════════════
-- Expressions
-- ════════════════════════════════════════════════════════════════════════

theorem forM_congr {α : Type} {act act' : α → LowerM PUnit} {xs : List α} (h : ∀ a ∈ xs, act a = act' a) :
    xs.forM act = xs.forM act' := by
  induction xs with
  | nil => rfl
  | cons a xs ih =>
    change (act a >>= fun _ => xs.forM act) = (act' a >>= fun _ => xs.forM act')
    rw [h a List.mem_cons_self, ih fun b hb => h b (List.mem_cons_of_mem _ hb)]

theorem optional_congr {α : Type} {act act' : α → LowerM Unit} {part : Option α}
    (h : ∀ a ∈ part, act a = act' a) : part.forM act = part.forM act' := by
  cases part with
  | none => rfl
  | some a => exact h a rfl

theorem lift_ok_bind {α β : Type} (a : α) (next : α → LowerM β) :
    ((liftM (.ok a : Except Fault α) : LowerM α) >>= next) = next a := rfl

namespace SourceUnit.WellFormed

variable {unit : SourceUnit}

section Expr

variable {lower lower' : ExprId → LowerM Operand} {bound : Nat} (hlower : ∀ id < bound, lower id = lower' id)
include hlower

theorem lowerTarget_congr (hunit : unit.WellFormed) (hbound : bound ≤ unit.exprs.size) {target : ExprId}
    (htarget : target < bound) (value : Operand) :
    lowerTarget unit lower target value = lowerTarget unit lower' target value := by
  obtain ⟨node, hexpr, hparts⟩ := hunit.exists_expr (Nat.lt_of_lt_of_le htarget hbound)
  have hpart : ∀ part ∈ node.kind.parts, lower part = lower' part :=
    fun part hmem => hlower part (Nat.lt_trans (hparts part hmem) htarget)
  simp only [lowerTarget, hexpr, lift_ok_bind]
  split
  · rfl
  · rename_i operand hkind
    rw [hpart operand (by simp [hkind, ExprKind.parts])]
  · rename_i array position hkind
    rw [hpart array (by simp [hkind, ExprKind.parts]), hpart position (by simp [hkind, ExprKind.parts])]
  · rename_i base field arrow hkind
    rw [hpart base (by simp [hkind, ExprKind.parts])]
  · rw [hlower target htarget]

theorem lowerUnary_congr (op : UnaryOp) {operand : ExprId} (hoperand : operand < bound) (ty : Option TypeId) :
    lowerUnary unit lower op operand ty = lowerUnary unit lower' op operand ty := by
  cases op <;> simp only [lowerUnary, lowerPreUpdate, lowerPostUpdate, hlower operand hoperand]

/-- What lowers the parts is asked for nothing but the parts, and the parts of the target of an assignment. -/
theorem lowerExprKind_congr (hunit : unit.WellFormed) (hbound : bound ≤ unit.exprs.size) {kind : ExprKind Name}
    (hparts : ∀ part ∈ kind.parts, part < bound) (ty : Option TypeId) :
    lowerExprKind unit lower ty kind = lowerExprKind unit lower' ty kind := by
  have hpart : ∀ part ∈ kind.parts, lower part = lower' part := fun part hmem => hlower part (hparts part hmem)
  cases kind with
  | binary op lhs rhs =>
    simp only [lowerExprKind, lowerBinary, lowerLogical, hpart lhs (by simp [ExprKind.parts]),
      hpart rhs (by simp [ExprKind.parts])]
  | unary op operand => exact lowerUnary_congr hlower op (hparts operand (by simp [ExprKind.parts])) ty
  | cast target operand => simp only [lowerExprKind, hpart operand (by simp [ExprKind.parts])]
  | index array position =>
    simp only [lowerExprKind, hpart array (by simp [ExprKind.parts]), hpart position (by simp [ExprKind.parts])]
  | member base field arrow => simp only [lowerExprKind, hpart base (by simp [ExprKind.parts])]
  | call callee args =>
    have hargs : (args.forM fun arg => lower arg >>= fun value => LowerM.emit (.param value)) =
        args.forM fun arg => lower' arg >>= fun value => LowerM.emit (.param value) :=
      forM_congr fun arg harg => by rw [hpart arg harg]
    simp only [lowerExprKind, lowerCall, hargs]
  | assign target value =>
    have htarget := lowerTarget_congr hlower hunit hbound (hparts target (by simp [ExprKind.parts]))
    simp only [lowerExprKind, lowerAssign, hpart value (by simp [ExprKind.parts]), htarget]
  | initList elements =>
    cases elements with
    | nil => rfl
    | cons first rest => exact hpart first (by simp [ExprKind.parts])
  | int | float | text | ident | error => rfl

end Expr

/-- Whatever is larger than the number of an expression is deep enough for it. -/
theorem lowerExprWithin_eq (hunit : unit.WellFormed) {depth depth' : Nat} {id : ExprId} (h : id < depth)
    (h' : id < depth') (hid : id < unit.exprs.size) :
    unit.lowerExprWithin depth id = unit.lowerExprWithin depth' id := by
  induction depth generalizing depth' id with
  | zero => exact absurd h (Nat.not_lt_zero id)
  | succ depth ih =>
    obtain ⟨depth', rfl⟩ := Nat.exists_eq_add_one_of_ne_zero (Nat.ne_zero_of_lt h')
    obtain ⟨node, hexpr, hparts⟩ := hunit.exists_expr hid
    have hbelow : ∀ part < id, unit.lowerExprWithin depth part = unit.lowerExprWithin depth' part := by
      intro part hpart
      exact ih (Nat.lt_of_lt_of_le hpart (Nat.le_of_lt_succ h))
        (Nat.lt_of_lt_of_le hpart (Nat.le_of_lt_succ h')) (Nat.lt_trans hpart hid)
    simp only [lowerExprWithin, hexpr, lift_ok_bind, lowerExprKind_congr hbelow hunit (Nat.le_of_lt hid) hparts]

/-- Lowering an expression that exists succeeds wherever an instruction can be appended. -/
theorem succeeds_lowerExpr (hunit : unit.WellFormed) {id : ExprId} (hid : id < unit.exprs.size)
    {s : Lowering} {avail : Lowering.Avail} (hsound : s.Sound avail) (hlist : s.Listable unit)
    (hopen : s.IsOpen) : Succeeds (unit.lowerExpr id s) :=
  (unit.computes_lowerExpr id avail s hsound hopen).succeeds (hunit.serves_lowerExpr hid) hlist

-- ════════════════════════════════════════════════════════════════════════
-- Statements
-- ════════════════════════════════════════════════════════════════════════

section Stmt

variable {lower lower' : StmtId → LowerM Unit} {bound : Nat} (hlower : ∀ id < bound, lower id = lower' id)
include hlower

theorem lowerSwitch_congr (hunit : unit.WellFormed) (hbound : bound ≤ unit.stmts.size) (cond : ExprId)
    {body : StmtId} (hbody : body < bound) :
    lowerSwitch unit lower cond body = lowerSwitch unit lower' cond body := by
  obtain ⟨node, hstmt, hparts⟩ := hunit.exists_stmt (Nat.lt_of_lt_of_le hbody hbound)
  -- The body is lowered part by part if it is a block, and else as the only part.
  obtain ⟨stmts, hstmts, hbelow⟩ : ∃ stmts, switchBody unit body = .ok stmts ∧ ∀ id ∈ stmts, id < bound := by
    rw [switchBody, hstmt, ok_bind]
    split
    · rename_i stmts hkind
      exact ⟨stmts, rfl, fun id hid => Nat.lt_trans (hparts id (by simp [hkind, StmtKind.parts, hid])) hbody⟩
    · exact ⟨[body], rfl, fun id hid => List.mem_singleton.mp hid ▸ hbody⟩
  have hpart : ∀ part : StmtId × Option SwitchEntry, part.1 ∈ stmts →
      lowerSwitchPart unit lower part.1 part.2 = lowerSwitchPart unit lower' part.1 part.2 := by
    intro part hmem
    simp only [lowerSwitchPart, hlower part.1 (hbelow part.1 hmem)]
  simp only [lowerSwitch, hstmts, lift_ok_bind]
  refine bind_congr fun exitBlock => congrArg (· >>= _) (congrArg (withBreak exitBlock) ?_)
  refine bind_congr fun value => bind_congr fun entries => bind_congr fun _ => congrArg (· >>= _) ?_
  exact forM_congr fun part hmem => hpart part (List.of_mem_zip hmem).1

/-- What lowers the parts is asked for nothing but the parts, and the parts of the body of a switch. -/
theorem lowerStmtKind_congr (hunit : unit.WellFormed) (hbound : bound ≤ unit.stmts.size) {kind : StmtKind Name}
    (hparts : ∀ part ∈ kind.parts, part < bound) (id : StmtId) (ty : Option TypeId) :
    lowerStmtKind unit lower id ty kind = lowerStmtKind unit lower' id ty kind := by
  have hpart : ∀ part ∈ kind.parts, lower part = lower' part := fun part hmem => hlower part (hparts part hmem)
  cases kind with
  | block body => exact forM_congr fun part hmem => by rw [hpart part hmem]
  | conditional cond thenBody elseBody =>
    have hthen := hpart thenBody (by simp [StmtKind.parts])
    cases elseBody with
    | none => simp only [lowerStmtKind, lowerConditional, fillBlock, hthen]
    | some elseBody =>
      simp only [lowerStmtKind, lowerConditional, fillBlock, hthen, hpart elseBody (by simp [StmtKind.parts])]
  | whileLoop cond body =>
    simp only [lowerStmtKind, lowerWhile, fillBlock, hpart body (by simp [StmtKind.parts])]
  | doLoop body cond => simp only [lowerStmtKind, lowerDo, fillBlock, hpart body (by simp [StmtKind.parts])]
  | forLoop init cond incr body =>
    have hinit : init.forM lower = init.forM lower' :=
      optional_congr fun part hmem => hpart part (by simp_all [StmtKind.parts])
    have hbody : body.forM lower = body.forM lower' :=
      optional_congr fun part hmem => hpart part (by simp_all [StmtKind.parts])
    simp only [lowerStmtKind, lowerFor, hinit, hbody]
  | switch cond body =>
    exact lowerSwitch_congr hlower hunit hbound cond (hparts body (by simp [StmtKind.parts]))
  | assertion cond => cases cond <;> rfl
  | _ => rfl

end Stmt

/-- Whatever is larger than the number of a statement is deep enough for it. -/
theorem lowerStmtWithin_eq (hunit : unit.WellFormed) {depth depth' : Nat} {id : StmtId} (h : id < depth)
    (h' : id < depth') (hid : id < unit.stmts.size) :
    unit.lowerStmtWithin depth id = unit.lowerStmtWithin depth' id := by
  induction depth generalizing depth' id with
  | zero => exact absurd h (Nat.not_lt_zero id)
  | succ depth ih =>
    obtain ⟨depth', rfl⟩ := Nat.exists_eq_add_one_of_ne_zero (Nat.ne_zero_of_lt h')
    obtain ⟨node, hstmt, hparts⟩ := hunit.exists_stmt hid
    have hbelow : ∀ part < id, unit.lowerStmtWithin depth part = unit.lowerStmtWithin depth' part := by
      intro part hpart
      exact ih (Nat.lt_of_lt_of_le hpart (Nat.le_of_lt_succ h))
        (Nat.lt_of_lt_of_le hpart (Nat.le_of_lt_succ h')) (Nat.lt_trans hpart hid)
    simp only [lowerStmtWithin, hstmt, lift_ok_bind, lowerStmtKind_congr hbelow hunit (Nat.le_of_lt hid) hparts]

/-- Lowering a statement that exists succeeds wherever an instruction can be appended, and a statement that
opens a block of its own can follow anything. -/
theorem succeeds_lowerStmt (hunit : unit.WellFormed) {id : StmtId} (hid : id < unit.stmts.size)
    {s : Lowering} {avail : Lowering.Avail} (hsound : s.Sound avail) (hlist : s.Listable unit)
    (hopen : s.IsOpen ∨ ∀ node, unit.stmt id = .ok node → node.kind.opensBlock = true) :
    Succeeds (unit.lowerStmt id s) :=
  (unit.lowers_lowerStmt id avail s hsound hopen).succeeds (hunit.serves_lowerStmt hid) hlist

-- ════════════════════════════════════════════════════════════════════════
-- Labels
-- ════════════════════════════════════════════════════════════════════════

/-- Whatever is larger than the number of a statement is deep enough for its labels. -/
theorem createLabelsWithin_eq (hunit : unit.WellFormed) {depth depth' : Nat} {id : StmtId} (h : id < depth)
    (h' : id < depth') (hid : id < unit.stmts.size) :
    unit.createLabelsWithin depth id = unit.createLabelsWithin depth' id := by
  induction depth generalizing depth' id with
  | zero => exact absurd h (Nat.not_lt_zero id)
  | succ depth ih =>
    obtain ⟨depth', rfl⟩ := Nat.exists_eq_add_one_of_ne_zero (Nat.ne_zero_of_lt h')
    obtain ⟨node, hstmt, hparts⟩ := hunit.exists_stmt hid
    simp only [createLabelsWithin, hstmt, lift_ok_bind]
    split
    · rfl
    · refine forM_congr fun part hmem => ?_
      have hpart := hparts part hmem
      exact ih (Nat.lt_of_lt_of_le hpart (Nat.le_of_lt_succ h))
        (Nat.lt_of_lt_of_le hpart (Nat.le_of_lt_succ h')) (Nat.lt_trans hpart hid)

/-- The labels in a statement that exists can be made wherever an instruction can be appended. -/
theorem succeeds_createLabels (hunit : unit.WellFormed) {id : StmtId} (hid : id < unit.stmts.size)
    {s : Lowering} {avail : Lowering.Avail} (hsound : s.Sound avail) (hlist : s.Listable unit)
    (hopen : s.IsOpen) : Succeeds (unit.createLabels id s) :=
  (unit.ensures_createLabelsWithin _ hsound hopen id).succeeds (hunit.serves_createLabels hid) hlist

end SourceUnit.WellFormed

end MiddleEnd
