import MiddleEnd.Proofs.Lowering.Extension
import MiddleEnd.Proofs.Lowering.Function
import MiddleEnd.Proofs.Semantics.InStep

/-!
# Lowered expressions compute values

While the machine executes what an expression was lowered to, it stays in step with the interpreter, and
the registers that hold the values of other expressions stay as they are.

## Main definitions

* `Lowering.Final`: the state in which lowering ends. Its function is the one that is run.
* `Lowering.holding`: the machine is behind the instructions that were lowered so far, and some operands
  hold known values.
* `LowerM.Refines`: what an action lowers does what evaluation does.

## Main statements

* `LowerM.Refines.bind`: one action after the other.
* `LowerM.refines_emitBinary`, `LowerM.refines_writeVar`: computing a new register, writing a variable.
-/

namespace MiddleEnd

open LowerM Lowering

variable {V S : Type} {sem : Semantics V S}

-- ════════════════════════════════════════════════════════════════════════
-- Operands
-- ════════════════════════════════════════════════════════════════════════

theorem Operand.value_of_reg?_eq_none {operand : Operand} (h : operand.reg? = Option.none)
    (regs : Reg → V) : operand.value sem regs = sem.constant operand := by
  cases operand with
  | reg r ty => cases h
  | none | field | int | float | label | func | literal => rfl

/-- An operand keeps its value when another register is written. -/
theorem Operand.value_setReg {operand : Operand} {r : Reg} (h : operand.reg? ≠ some r) (regs : Reg → V)
    (x : V) : operand.value sem (setReg regs r x) = operand.value sem regs := by
  cases operand with
  | reg q ty =>
    have hne : q ≠ r := fun heq => h (congrArg some heq)
    simp [value, setReg, hne]
  | none | field | int | float | label | func | literal => rfl

/-- A phi takes the only argument that belongs to where control comes from. -/
theorem Instr.incoming_of_mem {phi : Instr} {arg : PhiArg} (harg : arg ∈ phi.phiArgs)
    (hunique : ∀ other ∈ phi.phiArgs, other.pred = arg.pred → other = arg) (regs : Reg → V) :
    phi.incoming sem regs (some arg.pred) = arg.value.value sem regs := by
  obtain ⟨other, hfind⟩ := Option.isSome_iff_exists.mp
    (List.find?_isSome (p := fun other : PhiArg => decide (other.pred = arg.pred)) |>.mpr
      ⟨arg, harg, by simp⟩)
  have hpred : other.pred = arg.pred := by simpa using List.find?_some hfind
  obtain rfl := hunique other (List.mem_of_find?_eq_some hfind) hpred
  simp [incoming, hfind]

-- ════════════════════════════════════════════════════════════════════════
-- The function in the end
-- ════════════════════════════════════════════════════════════════════════

namespace Lowering

/-- The state in which lowering ends. -/
structure Final (last : Lowering) : Prop where
  sound : ∃ avail, last.Sound avail

namespace Final

variable {last s : Lowering} {b : BlockId} {k : Nat} {i : Instr} {regs : Reg → V} {ext : S}
  {source : Option BlockId}

/-- An instruction is in its place in the function in the end. -/
theorem getElem?_code (h : last.Final) (hi : (last.fn.code b)[k]? = some i) :
    (last.finished.code b)[k]? = some (last.aligned b i) := by
  obtain ⟨avail, hsound⟩ := h.sound
  rw [hsound.code_finished, List.getElem?_map, Function.code_closeBlocks,
    List.getElem?_append_left (List.getElem?_eq_some_iff.mp hi).1, hi, Option.map_some]

theorem aligned_eq (h : last.Final) (hi : i ∈ last.fn.code b) (hphi : i.isPhi = false) :
    last.aligned b i = i := by
  obtain ⟨avail, hsound⟩ := h.sound
  exact i.mapPhiArgs_of_phiArgs _ (alignArgs_nil _) ((hsound.formed b i hi).args hphi)

/-- Entering a block that was empty once, and in which no sides of an operator meet. -/
theorem step_enter (h : last.Final) (hlast : s.Extends 0 last) (hb : b < s.fn.blockCount)
    (hcode : s.fn.code b = []) (hlabel : s.fn.label? b ≠ some "logic_merge") :
    last.finished.step sem (.running b source regs ext) = last.finished.resume sem b 0 regs ext := by
  obtain ⟨avail, hsound⟩ := h.sound
  have hlt : b < last.finished.blockCount := by
    rw [last.blockCount_finished]
    exact Nat.lt_of_lt_of_le hb hlast.blocks
  refine Function.step_plain hlt fun i hi => ?_
  obtain ⟨j, hj, rfl⟩ := hsound.mem_code_finished hi
  rw [isPhi_aligned]
  obtain hj | rfl := hj
  · refine Bool.eq_false_iff.mpr fun hphi => ?_
    obtain hold | hmerge := hlast.phis b j hj hphi
    · rw [hcode] at hold
      cases hold
    · rw [hlast.label b hb] at hmerge
      exact hlabel hmerge
  · rfl

/-- Entering a block in which the sides of an operator meet. -/
theorem step_merge (h : last.Final) {phi : Instr} (hi : (last.fn.code b)[0]? = some phi)
    (hphi : phi.isPhi = true) {arg : PhiArg} (harg : arg ∈ phi.phiArgs) :
    last.finished.step sem (.running b (some arg.pred) regs ext) =
      last.finished.resume sem b 1 (phi.dst.write regs (arg.value.value sem regs)) ext := by
  obtain ⟨avail, hsound⟩ := h.sound
  have hmem : ∀ other, other ∈ (last.aligned b phi).phiArgs ↔ other ∈ phi.phiArgs :=
    fun _ => (last.perm_phiArgs_aligned b phi).mem_iff
  obtain ⟨n, p, q, ty, p', hsides, hne, _⟩ :=
    hsound.phiHead b phi (by rw [List.head?_eq_getElem?]; exact hi) hphi
  have hunique : ∀ other ∈ (last.aligned b phi).phiArgs, other.pred = arg.pred → other = arg := by
    intro other hother hpred
    rw [hmem, hsides] at hother
    rw [hsides] at harg
    simp only [List.mem_cons, List.not_mem_nil, or_false] at hother harg
    obtain rfl | rfl := hother <;> obtain rfl | rfl := harg
    · rfl
    · exact absurd hpred hne
    · exact absurd hpred.symm hne
    · rfl
  have hcode := h.getElem?_code hi
  obtain ⟨rest, hrest⟩ : ∃ rest, last.finished.code b = last.aligned b phi :: rest := by
    cases hfinished : last.finished.code b with
    | nil => simp [hfinished] at hcode
    | cons j rest => exact ⟨rest, by simpa [hfinished] using hcode⟩
  have hplain : ∀ j ∈ rest, j.isPhi = false := by
    intro j hj
    have htail : j ∈ (last.finished.code b).tail := by rw [hrest]; exact hj
    rw [hsound.code_finished, ← List.map_tail] at htail
    obtain ⟨j', hj', rfl⟩ := List.mem_map.mp htail
    rw [isPhi_aligned]
    exact hsound.phiTail_closeBlocks b j' hj'
  have hdst : (last.aligned b phi).dst = phi.dst := by simp [aligned]
  rw [Function.step_phi hrest (by rw [isPhi_aligned]; exact hphi) hplain, hdst,
    Instr.incoming_of_mem ((hmem arg).mpr harg) hunique]

/-- Executing an instruction that was appended. -/
theorem resume_pushed (h : last.Final) (hs : s.current < s.fn.blockCount)
    (hlast : (s.pushed i).Extends 0 last) (hi : i.Straight) (sem : Semantics V S) (regs : Reg → V)
    (ext : S) :
    last.finished.resume sem s.current (s.fn.code s.current).length regs ext =
      last.finished.resume sem s.current ((s.pushed i).fn.code s.current).length
        (i.dst.write regs (i.result sem regs ext).1) (i.result sem regs ext).2 := by
  have hself : (s.pushed i).fn.code s.current = s.fn.code s.current ++ [i] :=
    s.fn.code_pushed_self s.current i hs
  have hget : (last.fn.code s.current)[(s.fn.code s.current).length]? = some i :=
    hlast.getElem?_code (by rw [hself, List.getElem?_concat_length])
  have hcode := h.getElem?_code hget
  rw [h.aligned_eq (List.mem_of_getElem? hget) hi.phi] at hcode
  rw [Function.resume_straight hcode hi.terminator, hself, List.length_append]
  rfl

/-- Leaving a block at a terminator that was appended. -/
theorem resume_left (h : last.Final) (hs : s.current < s.fn.blockCount)
    (hlast : (s.pushed i).Extends 0 last) (hi : i.isTerminator = true) :
    last.finished.resume sem s.current (s.fn.code s.current).length regs ext =
      .after s.current (regs, ext, i.exit sem regs) := by
  have hself : (s.pushed i).fn.code s.current = s.fn.code s.current ++ [i] :=
    s.fn.code_pushed_self s.current i hs
  have hget : (last.fn.code s.current)[(s.fn.code s.current).length]? = some i :=
    hlast.getElem?_code (by rw [hself, List.getElem?_concat_length])
  have hcode := h.getElem?_code hget
  rw [h.aligned_eq (List.mem_of_getElem? hget) (i.isPhi_of_isTerminator hi)] at hcode
  exact Function.resume_terminator hcode hi

/-- Registers and names of variables correspond. -/
theorem reg_eq_iff (h : last.Final) {var var' : Variable} (hvar : var ∈ last.fn.vars)
    (hvar' : var' ∈ last.fn.vars) : var.reg = var'.reg ↔ var.name = var'.name := by
  obtain ⟨avail, hsound⟩ := h.sound
  constructor
  · intro heq
    rw [List.inj_on_of_nodup_map hsound.vars.nodup hvar hvar' heq]
  · intro heq
    rw [List.inj_on_of_nodup_map hsound.names hvar hvar' heq]

end Final

-- ════════════════════════════════════════════════════════════════════════
-- Known values
-- ════════════════════════════════════════════════════════════════════════

variable {m : Nat} {last s s' : Lowering} {held held' : List (Operand × V)} {operand : Operand} {x : V}

/-- An operand that keeps its value: no variable is written through it. -/
def Stable (s : Lowering) (operand : Operand) : Prop :=
  ∀ r, operand.reg? = some r → r < s.fn.regCount ∧ ¬ s.fn.IsVarReg r

theorem Stable.extends (h : s.Stable operand) (hext : s.Extends m s') : s'.Stable operand :=
  fun r hr => ⟨Nat.lt_of_lt_of_le (h r hr).1 hext.regs, hext.not_isVarReg (h r hr).1 (h r hr).2⟩

theorem stable_of_reg? (h : operand.reg? = Option.none) : s.Stable operand := by
  intro r hr
  rw [h] at hr
  cases hr

/-- The operand is known to have the value, because it is held or because it is a constant. -/
def Knows (sem : Semantics V S) (held : List (Operand × V)) (operand : Operand) (x : V) : Prop :=
  (operand, x) ∈ held ∨ operand.reg? = Option.none ∧ sem.constant operand = x

theorem Knows.const (h : operand.reg? = Option.none) : Knows sem held operand (sem.constant operand) :=
  .inr ⟨h, rfl⟩

theorem Knows.stable (h : Knows sem held operand x) (hheld : ∀ entry ∈ held, s.Stable entry.1) :
    s.Stable operand := by
  obtain hmem | ⟨hreg, _⟩ := h
  · exact hheld _ hmem
  · exact stable_of_reg? hreg

theorem Knows.value (h : Knows sem held operand x) {regs : Reg → V}
    (hheld : ∀ entry ∈ held, entry.1.value sem regs = entry.2) : operand.value sem regs = x := by
  obtain hmem | ⟨hreg, rfl⟩ := h
  · exact hheld _ hmem
  · exact Operand.value_of_reg?_eq_none hreg regs

/-- The machine is behind the instructions that were lowered so far, and the given operands hold the
given values. -/
def holding (s : Lowering) (last : Lowering) (sem : Semantics V S) (held : List (Operand × V)) :
    Place V S :=
  fun regs ext c => (∀ entry ∈ held, entry.1.value sem regs = entry.2) ∧
    c = last.finished.resume sem s.current (s.fn.code s.current).length regs ext

/-- The machine goes along an edge, and the given operands hold the given values. -/
def crossing (sem : Semantics V S) (held : List (Operand × V)) (source target : BlockId) : Place V S :=
  fun regs ext c => (∀ entry ∈ held, entry.1.value sem regs = entry.2) ∧
    c = .running target (some source) regs ext

theorem goes_holding (hsub : held' ⊆ held) (hcode : s'.fn.code = s.fn.code)
    (hcurrent : s'.current = s.current) :
    last.finished.Goes sem (s.holding last sem held) (s'.holding last sem held') := by
  rintro regs ext c ⟨hheld, rfl⟩
  refine ⟨_, .refl _, fun entry hentry => hheld entry (hsub hentry), ?_⟩
  rw [hcode, hcurrent]

/-- Writing a register that belongs to no variable. -/
theorem agrees_setReg {f : Function} {regs : Reg → V} {vars : Name → V} (h : f.Agrees regs vars) {r : Reg}
    (hr : ¬ f.IsVarReg r) (x : V) : f.Agrees (setReg regs r x) vars := by
  intro var hvar
  have hne : var.reg ≠ r := fun heq => hr ⟨var, hvar, heq⟩
  rw [setReg, if_neg hne]
  exact h var hvar

/-- What is held stays when another register is written. -/
theorem held_setReg {regs : Reg → V} (h : ∀ entry ∈ held, entry.1.value sem regs = entry.2) {r : Reg}
    (hr : ∀ entry ∈ held, entry.1.reg? ≠ some r) (x : V) :
    ∀ entry ∈ held, entry.1.value sem (setReg regs r x) = entry.2 := by
  intro entry hentry
  rw [Operand.value_setReg (hr entry hentry)]
  exact h entry hentry

/-- Leaving a block at a terminator that goes to a block. -/
theorem Final.goes_crossing (h : last.Final) (hs : s.current < s.fn.blockCount) {i : Instr}
    (hlast : (s.pushed i).Extends 0 last) (hi : i.isTerminator = true) {target : BlockId}
    (hsub : held' ⊆ held)
    (hexit : ∀ regs : Reg → V, (∀ entry ∈ held, entry.1.value sem regs = entry.2) →
      i.exit sem regs = .goto target) :
    last.finished.Goes sem (s.holding last sem held) (crossing sem held' s.current target) := by
  rintro regs ext c ⟨hheld, rfl⟩
  refine ⟨_, .refl _, fun entry hentry => hheld entry (hsub hentry), ?_⟩
  rw [h.resume_left hs hlast hi, hexit regs hheld]
  rfl

theorem Final.goes_jump (h : last.Final) (hs : s.current < s.fn.blockCount) {t : BlockId} {line : Nat}
    (hlast : (s.pushed (.jump t line)).Extends 0 last) :
    last.finished.Goes sem (s.holding last sem held) (crossing sem held s.current t) :=
  h.goes_crossing hs hlast rfl (fun _ => id) fun _ _ => rfl

/-- What lowering has made of a state, compared with what evaluation does: the machine gets in step from
the first state to the second, and then also holds what the evaluation gives. -/
structure Refined {β : Type} (last : Lowering) (sem : Semantics V S) (held : List (Operand × V))
    (s : Lowering) (ev : EvalM V S β) (gives : β → List (Operand × V)) (s' : Lowering) : Prop where
  steps : Steps s.fn.blockCount s s'
  isOpen : s.IsOpen → s'.IsOpen
  stable : ∀ b, ∀ entry ∈ gives b, s'.Stable entry.1
  does : s'.Extends 0 last → last.finished.Does sem (s.holding last sem held) ev fun b =>
    last.finished.At (s'.holding last sem (gives b ++ held))

section Composition

variable {β δ : Type} {s₁ : Lowering} {ev : EvalM V S β} {gives : β → List (Operand × V)}

theorem Refined.stable_append (h : Refined last sem held s ev gives s')
    (hheld : ∀ entry ∈ held, s.Stable entry.1) (b : β) : ∀ entry ∈ gives b ++ held, s'.Stable entry.1 := by
  intro entry hentry
  obtain hentry | hentry := List.mem_append.mp hentry
  · exact h.stable b entry hentry
  · exact (hheld entry hentry).extends h.steps.grows

/-- One thing after the other. -/
theorem Refined.bind [Nonempty β] {evNext : β → EvalM V S δ} {gives' : δ → List (Operand × V)}
    (h : Refined last sem held s ev gives s₁)
    (hnext : ∀ b, Refined last sem (gives b ++ held) s₁ (evNext b) gives' s') :
    Refined last sem held s (ev >>= evNext) gives' s' := by
  have hany := hnext (Classical.arbitrary β)
  refine ⟨h.steps.andThen hany.steps, hany.isOpen ∘ h.isOpen, hany.stable, fun hlast => ?_⟩
  refine (h.does (hany.steps.extendsLast hlast)).bind fun b =>
    ((hnext b).does hlast).imp fun d c mem hc => ?_
  refine (goes_holding ?_ rfl rfl).at hc
  intro entry hentry
  simp only [List.mem_append] at hentry ⊢
  exact hentry.imp id .inr

/-- What comes before that adds no instruction makes no difference. -/
theorem Refined.prepend (h : Refined last sem held s₁ ev gives s') (hsteps : Steps s.fn.blockCount s s₁)
    (hcode : s₁.fn.code = s.fn.code) (hcurrent : s₁.current = s.current) :
    Refined last sem held s ev gives s' := by
  refine ⟨hsteps.andThen h.steps, fun hopen => h.isOpen ?_, h.stable, fun hlast => ?_⟩
  · rw [IsOpen, Function.Closed, hcode, hcurrent]
    exact hopen
  · exact (h.does hlast).of_goes (goes_holding (fun _ => id) hcode hcurrent)

end Composition

/-- An instruction that is no terminator leaves the block open. -/
theorem isOpen_pushed {i : Instr} (hs : s.current < s.fn.blockCount) (hi : i.isTerminator = false) :
    (s.pushed i).IsOpen := by
  intro hclosed
  rw [(closed_pushed hs i).mp hclosed] at hi
  cases hi

end Lowering

-- ════════════════════════════════════════════════════════════════════════
-- Actions
-- ════════════════════════════════════════════════════════════════════════

/-- The operand holds the value. -/
def valueOf (operand : Operand) (x : V) : List (Operand × V) := [(operand, x)]

/-- There is no value. -/
def noValue {α β : Type} (_ : α) (_ : β) : List (Operand × V) := []

theorem Lowering.Knows.head {held : List (Operand × V)} {operand : Operand} {x : V} :
    Knows sem (valueOf operand x ++ held) operand x :=
  .inl List.mem_cons_self

theorem Lowering.Knows.later {held held' : List (Operand × V)} {operand : Operand} {x : V}
    (h : Knows sem held operand x) : Knows sem (held' ++ held) operand x :=
  h.imp (List.mem_append_right held') id

namespace LowerM

/-- What the action lowers does what evaluation does, when the given operands hold the given values. -/
def Refines {α β : Type} (act : LowerM α) (last : Lowering) (sem : Semantics V S)
    (held : List (Operand × V)) (ev : EvalM V S β) (gives : α → β → List (Operand × V)) : Prop :=
  ∀ s a s', act s = .ok (a, s') → s.Tidy → (∀ entry ∈ held, s.Stable entry.1) →
    Refined last sem held s ev (gives a) s'

variable {α β γ δ : Type} {last : Lowering} {held : List (Operand × V)}

theorem Refines.bind [Nonempty β] {act : LowerM α} {ev : EvalM V S β} {gives : α → β → List (Operand × V)}
    {next : α → LowerM γ} {evNext : β → EvalM V S δ} {gives' : γ → δ → List (Operand × V)}
    (h : act.Refines last sem held ev gives)
    (hnext : ∀ a b, (next a).Refines last sem (gives a b ++ held) (evNext b) gives') :
    (act >>= next).Refines last sem held (ev >>= evNext) gives' := by
  intro s c s' hok hs hheld
  obtain ⟨a, s₁, hact, hrest⟩ := exists_of_bind hok
  have hfirst := h s a s₁ hact hs hheld
  refine hfirst.bind fun b => hnext a b s₁ c s' hrest hfirst.steps.tidy fun entry hentry => ?_
  exact hfirst.stable_append hheld b entry hentry

theorem refines_pure {a : α} {b : β} {gives : α → β → List (Operand × V)}
    (h : ∀ b' : β, ∀ entry ∈ gives a b', ∃ x, Knows sem held entry.1 x)
    (hb : ∀ entry ∈ gives a b, Knows sem held entry.1 entry.2) :
    (pure a : LowerM α).Refines last sem held (pure b) gives := by
  rintro s _ _ ⟨⟩ hs hheld
  refine ⟨.refl hs, id, fun b' entry hentry => ?_, fun _ => .pure ?_⟩
  · obtain ⟨x, hx⟩ := h b' entry hentry
    exact hx.stable hheld
  · rintro c mem ⟨regs, hagrees, hvalues, hc⟩
    refine ⟨c, .refl c, regs, hagrees, fun entry hentry => ?_, hc⟩
    obtain hentry | hentry := List.mem_append.mp hentry
    · exact (hb entry hentry).value hvalues
    · exact hvalues entry hentry

/-- Answering an operand whose value is known. -/
theorem refines_return {operand : Operand} {x : V} (h : Knows sem held operand x) :
    (pure operand : LowerM Operand).Refines last sem held (pure x) valueOf :=
  refines_pure (by simpa [valueOf] using fun _ : V => ⟨x, h⟩) (by simpa [valueOf] using h)

/-- Doing nothing. -/
theorem refines_nothing (a : α) (b : β) :
    (pure a : LowerM α).Refines last sem held (pure b : EvalM V S β) noValue :=
  refines_pure (by simp [noValue]) (by simp [noValue])

/-- Looking up an expression. -/
theorem refines_expr_bind {unit : SourceUnit} {id : ExprId} {next : Expr → LowerM γ}
    {evNext : Expr → EvalM V S δ} {gives : γ → δ → List (Operand × V)}
    (h : ∀ node, (next node).Refines last sem held (evNext node) gives) :
    ((liftM (unit.expr id) : LowerM Expr) >>= next).Refines last sem held
      ((liftM unit.exprs[id]? : EvalM V S Expr) >>= evNext) gives := by
  intro s c s' hok hs hheld
  rw [lift_bind_apply] at hok
  obtain ⟨node, hnode, hok⟩ := bind_eq_ok.mp hok
  rw [require_eq_ok_iff.mp hnode]
  exact h node s c s' hok hs hheld

theorem Refines.withLine {act : LowerM α} {ev : EvalM V S β} {gives : α → β → List (Operand × V)}
    (h : act.Refines last sem held ev gives) (line : Nat) :
    (withLine line act).Refines last sem held ev gives := by
  intro s a s' hok hs hheld
  obtain ⟨s₁, hact, rfl⟩ := exists_of_withLine hok
  have hs' : Tidy { s with line } := ⟨hs.current, hs.vars⟩
  obtain ⟨hsteps, hopen, hstable, hdoes⟩ := h { s with line } a s₁ hact hs' hheld
  have hfirst : Steps s.fn.blockCount s { s with line } := .around hs rfl rfl rfl ⟨rfl, rfl, rfl, rfl⟩
  have hback : Steps s.fn.blockCount s₁ { s₁ with line := s.line } :=
    .around hsteps.tidy rfl rfl rfl ⟨rfl, rfl, rfl, rfl⟩
  refine ⟨(hfirst.trans hsteps).trans hback, hopen, hstable, fun hlast => ?_⟩
  exact hdoes (hback.extendsLast hlast)

theorem refines_forM {act : α → LowerM PUnit} {ev : α → EvalM V S PUnit} {xs : List α}
    (h : ∀ a ∈ xs, (act a).Refines last sem held (ev a) noValue) :
    (xs.forM act).Refines last sem held (xs.forM ev) noValue := by
  induction xs with
  | nil => exact refines_nothing _ _
  | cons a xs ih =>
    exact (h a List.mem_cons_self).bind fun _ _ => ih fun b hb => h b (List.mem_cons_of_mem _ hb)

-- ════════════════════════════════════════════════════════════════════════
-- Instructions
-- ════════════════════════════════════════════════════════════════════════

variable {a b : Operand} {x y : V}

/-- Performing an operation without a value. -/
theorem refines_perform (hfinal : last.Final) {op : Opcode} (hop : op.IsStraight)
    (ha : Knows sem held a x) (hb : Knows sem held b y) :
    (emit fun line => { opcode := op, src1 := a, src2 := b, line }).Refines last sem held
      (EvalM.perform sem op x y) noValue := by
  intro s _ s' hok hs hheld
  rw [eq_pushed_of_emit hok]
  have hi : Instr.Straight { opcode := op, src1 := a, src2 := b, line := s.line } :=
    straight_of_isStraight hop rfl
  refine ⟨.pushed hs (by simp [hi.phi]), fun _ => isOpen_pushed hs.current hi.terminator,
    by simp [noValue], fun hlast => ?_⟩
  rintro c mem ⟨regs, hagrees, hvalues, rfl⟩
  have hresult : Instr.result sem regs mem.ext { opcode := op, src1 := a, src2 := b, line := s.line } =
      sem.apply op none x y mem.ext := by
    rw [Instr.result, ha.value hvalues, hb.value hvalues]
    rfl
  refine ⟨(), { mem with ext := (sem.apply op none x y mem.ext).2 }, _, rfl, .refl _, regs, hagrees,
    hvalues, ?_⟩
  rw [hfinal.resume_pushed hs.current hlast hi, hresult]
  rfl

theorem eq_of_emitBinary {op : Opcode} {ty : Option TypeId} {s s' : Lowering} {operand : Operand}
    (h : emitBinary op ty a b s = .ok (operand, s')) : operand = .reg s.fn.regCount ty ∧
      s' = s.withReg.pushed (.binary op (.reg s.fn.regCount ty) a b s.line) := by
  rw [emitBinary] at h
  obtain ⟨_, _, hnew, h⟩ := exists_of_bind h
  cases hnew
  obtain ⟨_, _, hemit, hret⟩ := exists_of_bind h
  cases hret
  exact ⟨rfl, eq_pushed_of_emit hemit⟩

theorem lt_of_emitBinary {op : Opcode} {ty : Option TypeId} {s s' : Lowering} {operand : Operand}
    (h : emitBinary op ty a b s = .ok (operand, s')) : s.current < s.fn.blockCount := by
  rw [emitBinary] at h
  obtain ⟨_, _, hnew, h⟩ := exists_of_bind h
  cases hnew
  obtain ⟨_, _, hemit, _⟩ := exists_of_bind h
  exact lt_of_emit (s := s.withReg) hemit

/-- Computing a new register from operands whose values are known from what is held and from the
memory. -/
theorem refined_binary (hfinal : last.Final) {s : Lowering} (hs : s.Tidy)
    (hheld : ∀ entry ∈ held, s.Stable entry.1) {op : Opcode} (hop : op.IsStraight) {ty : Option TypeId}
    {line : Nat} {x y : Memory V S → V}
    (hvalues : s.Extends 0 last → ∀ regs mem, last.finished.Agrees regs mem.vars →
      (∀ entry ∈ held, entry.1.value sem regs = entry.2) →
      a.value sem regs = x mem ∧ b.value sem regs = y mem) :
    Refined last sem held s (fun mem => EvalM.apply sem op ty (x mem) (y mem) mem)
      (valueOf (.reg s.fn.regCount ty))
      (s.withReg.pushed (.binary op (.reg s.fn.regCount ty) a b line)) := by
  have hi : (Instr.binary op (.reg s.fn.regCount ty) a b line).Straight := straight_of_isStraight hop rfl
  have hsteps : Steps s.fn.blockCount s.withReg
      (s.withReg.pushed (.binary op (.reg s.fn.regCount ty) a b line)) :=
    .pushed (Steps.withReg (m := 0) hs).tidy (by simp [hi.phi])
  have hall := (Steps.withReg hs).trans hsteps
  have hnew : s.withReg.Stable (.reg s.fn.regCount ty) := by
    rintro r ⟨⟩
    exact ⟨Nat.lt_succ_self _, hs.not_isVarReg⟩
  refine ⟨hall, fun _ => isOpen_pushed hs.current hi.terminator, ?_, ?_⟩
  · intro z entry hentry
    rw [List.mem_singleton.mp hentry]
    exact hnew.extends hsteps.grows
  · rintro hlast c mem ⟨regs, hagrees, hregs, rfl⟩
    obtain ⟨ha, hb⟩ := hvalues (hall.extendsLast hlast) regs mem hagrees hregs
    have hresult : (Instr.binary op (.reg s.fn.regCount ty) a b line).result sem regs mem.ext =
        sem.apply op ty (x mem) (y mem) mem.ext := by
      rw [Instr.result, Instr.binary, ha, hb]
      rfl
    refine ⟨_, _, _, rfl, .refl _,
      setReg regs s.fn.regCount (sem.apply op ty (x mem) (y mem) mem.ext).1, ?_, ?_, ?_⟩
    · refine agrees_setReg hagrees ?_ _
      rw [isVarReg_finished]
      exact ((hnew.extends hsteps.grows).extends hlast _ rfl).2
    · intro entry hentry
      obtain hentry | hentry := List.mem_append.mp hentry
      · rw [List.mem_singleton.mp hentry]
        simp [Operand.value, setReg]
      · refine held_setReg hregs (fun entry hentry hreg => ?_) _ entry hentry
        exact Nat.lt_irrefl _ (hheld entry hentry _ hreg).1
    · have hresume := hfinal.resume_pushed (s := s.withReg) hs.current hlast hi sem regs mem.ext
      rw [hresult] at hresume
      exact hresume

/-- Computing a new register. -/
theorem refines_emitBinary (hfinal : last.Final) {op : Opcode} (hop : op.IsStraight) (ty : Option TypeId)
    (ha : Knows sem held a x) (hb : Knows sem held b y) :
    (emitBinary op ty a b).Refines last sem held (EvalM.apply sem op ty x y) valueOf := by
  intro s operand s' hok hs hheld
  obtain ⟨rfl, rfl⟩ := eq_of_emitBinary hok
  exact refined_binary hfinal hs hheld hop fun _ _ _ _ hregs => ⟨ha.value hregs, hb.value hregs⟩

/-- Computing a new register from one operand. -/
theorem refines_emitUnary (hfinal : last.Final) {op : Opcode} (hop : op.IsStraight) (ty : Option TypeId)
    (ha : Knows sem held a x) :
    (emitUnary op ty a).Refines last sem held (EvalM.apply sem op ty x sem.nothing) valueOf :=
  refines_emitBinary hfinal hop ty ha (.const rfl)

/-- Copying a value into a new register. -/
theorem refines_emitCopy (hfinal : last.Final) (hmoves : sem.Moves) (ty : Option TypeId)
    (ha : Knows sem held a x) : (emitUnary .copy ty a).Refines last sem held (pure x) valueOf := by
  have hcopy : EvalM.apply sem .copy ty x sem.nothing = pure x :=
    funext fun mem => EvalM.apply_eq_some (hmoves.copy ty x _ mem.ext)
  rw [← hcopy]
  exact refines_emitUnary hfinal (by decide) ty ha

/-- Putting a constant into a new register. -/
theorem refines_emitConst (hfinal : last.Final) (hmoves : sem.Moves) (ty : Option TypeId)
    (ha : a.reg? = none) :
    (emitUnary .const ty a).Refines last sem held (pure (sem.constant a)) valueOf := by
  have hconst : EvalM.apply sem .const ty (sem.constant a) sem.nothing = pure (sem.constant a) :=
    funext fun mem => EvalM.apply_eq_some (hmoves.const ty _ _ mem.ext)
  rw [← hconst]
  exact refines_emitUnary hfinal (by decide) ty (.const ha)

-- ════════════════════════════════════════════════════════════════════════
-- Variables
-- ════════════════════════════════════════════════════════════════════════

theorem eq_of_newBlock {label : String} {s s' : Lowering} {t : BlockId}
    (h : newBlock label s = .ok (t, s')) : t = s.fn.blockCount ∧ s' = s.grown label :=
  Prod.mk.inj (Except.ok.inj h.symm)

theorem eq_of_varOperand {name : Name} {ty : Option TypeId} {s s' : Lowering} {operand : Operand}
    (h : varOperand name ty s = .ok (operand, s')) :
    operand = .reg (s.fn.varLookup name ty).1 ty ∧ s' = s.withVar name ty :=
  Prod.mk.inj (Except.ok.inj h.symm)

/-- Reading a variable. -/
theorem refines_lowerIdent (hfinal : last.Final) (hmoves : sem.Moves) (name : Name) (ty : Option TypeId) :
    (lowerIdent name ty).Refines last sem held (EvalM.readVar name) valueOf := by
  intro s operand s' hok hs hheld
  rw [lowerIdent] at hok
  obtain ⟨_, _, hvar, hok⟩ := exists_of_bind hok
  obtain ⟨rfl, rfl⟩ := eq_of_varOperand hvar
  obtain ⟨rfl, rfl⟩ := eq_of_emitBinary hok
  have hsteps : Steps s.fn.blockCount s (s.withVar name ty) := .withVar hs name ty
  have hread : (fun mem : Memory V S => EvalM.apply sem .copy ty (mem.vars name) sem.nothing mem) =
      EvalM.readVar name := funext fun mem => EvalM.apply_eq_some (hmoves.copy ty _ _ mem.ext)
  rw [← hread]
  refine Refined.prepend ?_ hsteps (s.code_withVar name ty) rfl
  refine refined_binary hfinal hsteps.tidy (fun entry hentry => (hheld entry hentry).extends hsteps.grows)
    (by decide) fun hlast regs mem hagrees _ => ⟨?_, rfl⟩
  obtain ⟨var, hvar, rfl, hreg⟩ := s.exists_mem_withVar name ty
  rw [← hagrees var (by rw [vars_finished]; exact hlast.mem_vars hvar), hreg]
  rfl

/-- Copying a value into the register of a variable. -/
theorem refined_assign (hfinal : last.Final) (hmoves : sem.Moves) {s : Lowering} (hs : s.Tidy)
    (hheld : ∀ entry ∈ held, s.Stable entry.1) {var : Variable} (hvar : var ∈ s.fn.vars)
    (ty : Option TypeId) (ha : Knows sem held a x) (line : Nat) :
    Refined last sem held s (EvalM.writeVar var.name x) (noValue ())
      (s.pushed (.unary .copy (.reg var.reg ty) a line)) := by
  have hi : (Instr.unary .copy (.reg var.reg ty) a line).Straight :=
    straight_of_isStraight (show Opcode.copy.IsStraight by decide) rfl
  have hsteps : Steps s.fn.blockCount s (s.pushed (.unary .copy (.reg var.reg ty) a line)) :=
    .pushed hs (by simp [hi.phi])
  refine ⟨hsteps, fun _ => isOpen_pushed hs.current hi.terminator, by simp [noValue], ?_⟩
  rintro hlast c mem ⟨regs, hagrees, hregs, rfl⟩
  have hmem : var ∈ last.fn.vars := hlast.mem_vars (hsteps.grows.mem_vars hvar)
  have hresult : (Instr.unary .copy (.reg var.reg ty) a line).result sem regs mem.ext = (x, mem.ext) := by
    rw [Instr.result, Instr.unary, ha.value hregs]
    exact hmoves.copy _ _ _ _
  refine ⟨(), _, _, rfl, .refl _, setReg regs var.reg x, fun other hother => ?_, ?_, ?_⟩
  · rw [vars_finished] at hother
    simp only [setReg, hfinal.reg_eq_iff hother hmem]
    split
    · rfl
    · exact hagrees other (by rw [vars_finished]; exact hother)
  · refine held_setReg hregs (fun entry hentry heq => ?_) x
    exact (hheld entry hentry _ heq).2 ⟨var, hvar, rfl⟩
  · have hresume := hfinal.resume_pushed hs.current hlast hi sem regs mem.ext
    rw [hresult] at hresume
    exact hresume

/-- Writing a variable. -/
theorem refines_writeVar (hfinal : last.Final) (hmoves : sem.Moves) (name : Name) (ty : Option TypeId)
    (ha : Knows sem held a x) :
    (writeVar name ty a).Refines last sem held (EvalM.writeVar name x) noValue := by
  intro s _ s' hok hs hheld
  rw [writeVar] at hok
  obtain ⟨_, _, hvar, hok⟩ := exists_of_bind hok
  obtain ⟨rfl, rfl⟩ := eq_of_varOperand hvar
  have hsteps : Steps s.fn.blockCount s (s.withVar name ty) := .withVar hs name ty
  obtain ⟨var, hvar, rfl, hreg⟩ := s.exists_mem_withVar name ty
  rw [eq_pushed_of_emit hok, ← hreg]
  refine Refined.prepend ?_ hsteps (s.code_withVar var.name ty) rfl
  exact refined_assign hfinal hmoves hsteps.tidy
    (fun entry hentry => (hheld entry hentry).extends hsteps.grows) hvar ty ha _

end LowerM

end MiddleEnd
