import MiddleEnd.Proofs.Lowering.Chains
import MiddleEnd.Proofs.Lowering.Function

/-!
# Variables and computed values

A variable has one register, which assignments write over and over. A computed value has a register of its
own, which is written once. Lowering never mixes them up: it copies a variable to read it and copies a value
to write it, so what was computed stays what it is.

## Main definitions

* `Function.KeepsApart`: the registers of variables and of computed values.
* `Lowering.Untouched`: a register that no assignment will write.

## Main statements

* `Lowering.Stable.untouched`: computed values are not touched.
* `SourceUnit.lowerFunction_keepsApart`: lowered functions, and the operands that expressions answer.
-/

namespace MiddleEnd

open LowerM Lowering

-- ════════════════════════════════════════════════════════════════════════
-- Functions
-- ════════════════════════════════════════════════════════════════════════

theorem Function.size_owners (f : Function) : f.owners.size = f.regCount :=
  List.foldlRecOn (motive := fun table : Array (Option VarId) => table.size = f.regCount) _ _
    Array.size_replicate fun _ htable _ _ => Array.size_setIfInBounds.trans htable

/-- The registers of variables are distinct and stand for their variables, and only copies mention them.
Every other register that occurs is written exactly once. -/
structure Function.KeepsApart (f : Function) : Prop where
  names : (f.vars.map (·.name)).Nodup
  regs : (f.vars.map (·.reg)).Nodup
  below : ∀ var ∈ f.vars, var.reg < f.regCount
  /-- A register stands for the variable that has it, and for none if no variable has it. -/
  owners : ∃ table, f.varOfReg = .ok table ∧ table.size = f.regCount ∧
    ∀ r v, table[r]? = some (some v) ↔ ∃ var : Variable, f.vars[v]? = some var ∧ var.reg = r
  /-- A variable is written by a copy, or copied to the register of a computed value. -/
  copies : ∀ b, ∀ i ∈ f.code b, ∀ r, f.IsVarReg r →
    (i.dst.reg? = some r → i.opcode = .copy) ∧
    (i.src1.reg? = some r → i.opcode = .copy ∧ ∃ q, i.dst.reg? = some q ∧ ¬ f.IsVarReg q) ∧
    i.src2.reg? ≠ some r ∧ ∀ arg ∈ i.phiArgs, arg.value.reg? ≠ some r
  computed : ∀ b, ∀ i ∈ f.code b, ∀ operand ∈ i.operands, ∀ r, operand.reg? = some r →
    ¬ f.IsVarReg r → f.defCount r = 1

namespace Function.Lowered

variable {avail : Avail} {f : Function}

/-- A computed value that an instruction mentions is written somewhere. -/
theorem defines_of_mem_operands (h : f.Lowered avail) {b : BlockId} {i : Instr} (hi : i ∈ f.code b)
    {operand : Operand} (ho : operand ∈ i.operands) {r : Reg} (hr : operand.reg? = some r)
    (hvar : ¬ f.IsVarReg r) : f.Defines r := by
  have hsource : r ∈ i.sources → f.Defines r := by
    intro hr
    obtain ⟨pre, post, hsplit⟩ := List.append_of_mem hi
    obtain hr | hr | hr := h.uses b pre i post hsplit r hr
    · exact absurd hr hvar
    · exact (h.defined b r hr).2.2.1
    · exact ⟨b, by rw [hsplit, defsOf_append]; exact List.mem_append_left _ hr⟩
  obtain rfl | rfl | rfl | ⟨arg, harg, rfl⟩ := Instr.mem_operands.mp ho
  · exact ⟨b, mem_defsOf.mpr ⟨i, hi, hr⟩⟩
  · exact hsource (List.mem_append_left _ (Option.mem_toList.mpr hr))
  · exact hsource (List.mem_append_right _ (Option.mem_toList.mpr hr))
  · -- Only a phi has arguments, and it stands first.
    have hphi : i.isPhi = true := by
      by_contra hnot
      rw [(h.formed b i hi).args (Bool.eq_false_iff.mpr hnot)] at harg
      cases harg
    have hhead : i ∈ (f.code b).head? := by
      cases hcode : f.code b with
      | nil => rw [hcode] at hi; cases hi
      | cons first rest =>
        rw [hcode] at hi
        obtain rfl | hi := List.mem_cons.mp hi
        · rfl
        · have htail := h.phiTail b i (by rw [hcode]; exact hi)
          rw [hphi] at htail
          cases htail
    obtain ⟨n, hint⟩ | ⟨q, ty, hreg, _, hdef⟩ := h.phiArgs b i hhead hphi arg harg
    · rw [hint] at hr
      cases hr
    · rw [hreg] at hr
      cases hr
      exact ⟨_, hdef⟩

theorem defCount_eq_one (h : f.Lowered avail) {r : Reg} (hr : f.Defines r) (hvar : ¬ f.IsVarReg r) :
    f.defCount r = 1 := by
  refine Nat.le_antisymm (h.single r hvar) (Nat.one_le_iff_ne_zero.mpr fun hzero => ?_)
  obtain ⟨b, hb⟩ := hr
  obtain ⟨i, hi, _⟩ := mem_defsOf.mp hb
  rw [Function.defCount_eq_code, List.count_eq_zero] at hzero
  exact hzero (List.mem_flatMap.mpr ⟨b, List.mem_range.mpr (lt_of_mem_code hi), hb⟩)

end Function.Lowered

-- ════════════════════════════════════════════════════════════════════════
-- Lowering
-- ════════════════════════════════════════════════════════════════════════

namespace Lowering

variable {avail : Avail} {s t u : Lowering}

/-- No assignment writes the register from now on: it belongs to no variable, nor to one that is looked up
in any later state. -/
def Untouched (t : Lowering) (r : Reg) : Prop :=
  ∀ u, t.Extends 0 u → ¬ u.fn.IsVarReg r ∧ ∀ name ty, (u.fn.varLookup name ty).1 ≠ r

/-- Computed values are not touched: a variable that is new gets a new register. -/
theorem Stable.untouched {operand : Operand} (h : t.Stable operand) {r : Reg} (hr : operand.reg? = some r) :
    t.Untouched r := by
  intro u hext
  obtain ⟨hlt, hvar⟩ := h.extends hext r hr
  refine ⟨hvar, fun name ty => ?_⟩
  obtain ⟨var, hmem, _, heq⟩ | ⟨_, heq⟩ := varLookup_cases u.fn name ty
  · rw [heq]
    exact fun hreg => hvar ⟨var, hmem, hreg⟩
  · rw [heq]
    exact Nat.ne_of_gt hlt

/-- A function that was lowered by moves keeps variables and computed values apart. -/
theorem Sound.keepsApart (h : s.Sound avail) (happart : ∀ b, ∀ i ∈ s.fn.code b, s.Separates i) :
    s.finished.KeepsApart := by
  have hlowered := h.lowered
  refine ⟨hlowered.names, hlowered.vars.nodup, hlowered.vars.lt,
    ⟨_, Function.varOfReg_eq hlowered.vars.lt, s.finished.size_owners, fun _ _ =>
      Function.getElem?_owners hlowered.vars⟩, fun b i hi r hr => ?_,
    fun b i hi operand ho r hr hvar => ?_⟩
  · rw [isVarReg_finished] at hr ⊢
    have hstable : ∀ {operand : Operand}, s.Stable operand → operand.reg? ≠ some r :=
      fun hop heq => (hop r heq).2 hr
    obtain ⟨j, hj, rfl⟩ := h.mem_code_finished hi
    have hsep : s.Separates j := by
      obtain hj | rfl := hj
      · exact happart b j hj
      · exact separates_of_stable rfl (stable_of_reg? rfl) (stable_of_reg? rfl) (stable_of_reg? rfl)
    simp only [dst_aligned, src1_aligned, src2_aligned, opcode_aligned]
    refine ⟨fun hdst => ?_, fun hsrc => ?_, hstable hsep.src2, fun arg harg => ?_⟩
    · exact hsep.dst.resolve_left fun hop => hstable hop hdst
    · obtain ⟨hcopy, hdst, hreg⟩ := hsep.src1.resolve_left fun hop => hstable hop hsrc
      obtain ⟨q, hq⟩ := Option.isSome_iff_exists.mp hreg
      exact ⟨hcopy, q, hq, (hdst q hq).2⟩
    · exact hstable (hsep.args arg ((s.perm_phiArgs_aligned b j).mem_iff.mp harg))
  · exact hlowered.defCount_eq_one (hlowered.defines_of_mem_operands hi ho hr hvar) hvar

end Lowering

/-- A lowered function keeps variables and computed values apart. Lowering any expression, in any state in
which the registers of the variables were handed out, answers a register that no assignment will write. -/
theorem SourceUnit.lowerFunction_keepsApart {unit : SourceUnit} {texts texts' : Interner}
    {decl : FunctionDecl} {f : Function} (h : unit.lowerFunction texts decl = .ok (some f, texts')) :
    f.KeepsApart ∧ ∃ last : Lowering, f = last.finished ∧
      ∀ depth id (s t : Lowering) value, (∀ var ∈ s.fn.vars, var.reg < s.fn.regCount) →
        unit.lowerExprWithin depth id s = .ok (value, t) → ∀ r, value.reg? = some r →
          t.Untouched r ∧ (t.Extends 0 last → ¬ f.IsVarReg r) := by
  obtain ⟨start, last, avail, rfl, hsound, _, _, hcode, hrun⟩ := exists_run_lowerFunction h
  have hstart : Progress.Apart ⟨start, some [], []⟩ := fun b i hi => by
    rw [hcode] at hi
    cases hi
  refine ⟨hsound.keepsApart (hrun.apart hstart), last, rfl, fun depth id s t value hvars hlower r hr => ?_⟩
  have hready : s.Ready (s.scopes.map (·, [])) [] := ⟨hvars, fun t ht => List.mem_map_of_mem ht, nofun⟩
  obtain ⟨_, hstable⟩ := unit.evaluates_lowerExprWithin depth id _ _ [] s value t hready hlower
  have huntouched := (hstable value List.mem_cons_self).untouched hr
  refine ⟨huntouched, fun hlast => ?_⟩
  rw [isVarReg_finished]
  exact (huntouched last hlast).1

/-- A unit with the function `int mixed(int a, int a) { return (a = b = a++) + a; }`. The two sides of the
sum share an expression with the increment. -/
def mixedUnit : SourceUnit where
  names := { texts := #["mixed", "a", "b"] }
  exprs := #[
    { kind := .ident 1, ty := some TypeTable.int, line := 1 },
    { kind := .unary .postInc 0, ty := some TypeTable.int, line := 1 },
    { kind := .ident 2, ty := some TypeTable.int, line := 1 },
    { kind := .assign 2 1, ty := some TypeTable.int, line := 1 },
    { kind := .assign 0 3, ty := some TypeTable.int, line := 1 },
    { kind := .binary .add 4 0, ty := some TypeTable.int, line := 1 }]
  stmts := #[
    { kind := .ret (some 5), ty := none, line := 1 },
    { kind := .block [0], ty := none, line := 1 }]

/-- The declaration of that function. -/
def mixedDecl : FunctionDecl where
  name := 0
  returnType := TypeTable.int
  params := [⟨some 1, TypeTable.int⟩, ⟨some 1, TypeTable.int⟩]
  body := some 1
  line := 1

/-- Both parameters are one variable. The value of `a = b = a++` is the old one, in a register that no
assignment writes, also none of those that follow in the expression. -/
theorem mixed_keepsApart : ∃ f texts, mixedUnit.lowerFunction {} mixedDecl = .ok (some f, texts) ∧
    f.KeepsApart ∧ f.vars.map (fun var => (var.name, var.reg)) = [(1, 0), (2, 4)] ∧
    ∃ fn t, mixedUnit.enterFunction mixedDecl = .ok fn ∧
      mixedUnit.lowerExpr 4 { fn, texts := {}, current := fn.entry, line := 1 } =
        .ok (.reg 2 (some TypeTable.int), t) ∧ t.Untouched 2 := by
  have hvars : ((mixedUnit.lowerFunction {} mixedDecl).toOption.bind (·.1)).map
      (fun f => f.vars.map fun var => (var.name, var.reg)) = some [(1, 0), (2, 4)] := by
    decide +kernel
  have hvalue : (mixedUnit.enterFunction mixedDecl).toOption.map (fun fn =>
      (decide (∀ var ∈ fn.vars, var.reg < fn.regCount),
        (mixedUnit.lowerExpr 4 { fn, texts := {}, current := fn.entry, line := 1 }).toOption.map (·.1))) =
      some (true, some (.reg 2 (some TypeTable.int))) := by
    decide +kernel
  obtain ⟨f, hf, hnames⟩ := Option.map_eq_some_iff.mp hvars
  obtain ⟨texts, hlower⟩ := exists_of_toOption_bind hf
  obtain ⟨hapart, last, _, hexpr⟩ := SourceUnit.lowerFunction_keepsApart hlower
  obtain ⟨fn, henter, hvalue⟩ := exists_of_toOption_map hvalue
  obtain ⟨hbelow, hvalue⟩ := Prod.mk.inj hvalue
  obtain ⟨⟨value, t⟩, hok, rfl⟩ := exists_of_toOption_map hvalue
  exact ⟨f, texts, hlower, hapart, hnames, fn, t, henter, hok,
    (hexpr _ 4 _ t _ (of_decide_eq_true hbelow) hok 2 rfl).1⟩

end MiddleEnd
