import MiddleEnd.Proofs.Lowering.Values

/-!
# Lowered statements do what statements do

While the machine executes what a statement was lowered to, it stays in step with the interpreter, and
when the statement has ended it is where the statement leads: behind it, where `break` or `continue` leads,
or out of the function.

## Main definitions

* `Lowering.ready`: the machine is behind the instructions that were lowered so far, in a block that is
  open.
* `Lowering.Site`: the blocks that wait to be used.
* `LowerM.Runs`: what an action lowers does what a statement does.

## Main statements

* `runs_lowerList`: statements one after the other.
* `runs_lowerConditional`, `runs_lowerWhile`, `runs_lowerDo`, `runs_lowerFor`: the control statements.
-/

namespace MiddleEnd

open LowerM Lowering

variable {V S : Type} {sem : Semantics V S} {last : Lowering}

-- ════════════════════════════════════════════════════════════════════════
-- Places
-- ════════════════════════════════════════════════════════════════════════

namespace Lowering

variable {m : Nat} {s s₁ s' : Lowering} {t : BlockId} {label : String} {held : List (Operand × V)}

/-- The machine is behind the instructions that were lowered so far, in a block that is open. -/
def ready (s last : Lowering) (sem : Semantics V S) (held : List (Operand × V)) : Place V S :=
  fun regs ext c => s.IsOpen ∧ s.holding last sem held regs ext c

/-- Where a statement leads that was lowered from one state to another. -/
def exits (s s' last : Lowering) (sem : Semantics V S) : Exits V S where
  normal := s'.ready last sem []
  breaks := .block s.breakTargets.head?
  continues := .block s.continueTargets.head?

/-- The surroundings of a statement are those that lowering knows. -/
structure Inside (s : Lowering) (around : Surroundings) : Prop where
  breaks : around.canBreak = s.breakTargets.head?.isSome
  continues : around.canContinue = s.continueTargets.head?.isSome

/-- Going on in a state with the same instructions. -/
theorem goes_ready (hcode : s'.fn.code = s.fn.code) (hcurrent : s'.current = s.current) :
    last.finished.Goes sem (s.ready last sem held) (s'.ready last sem held) := by
  rintro regs ext c ⟨hopen, hc⟩
  obtain ⟨c', hleads, hc'⟩ := goes_holding (fun _ => id) hcode hcurrent regs ext c hc
  refine ⟨c', hleads, ?_, hc'⟩
  rw [IsOpen, Function.Closed, hcode, hcurrent]
  exact hopen

/-- Going on after a part that changes nothing that matters here. -/
theorem Refined.does_ready {β : Type} {ev : EvalM V S β} {gives : β → List (Operand × V)}
    (h : Refined last sem held s ev gives s') (hlast : s'.Extends 0 last) :
    last.finished.Does sem (s.ready last sem held) ev fun b =>
      last.finished.At (s'.ready last sem (gives b ++ held)) := by
  rintro c mem ⟨regs, hagrees, hopen, hc⟩
  obtain ⟨b, mem', c', hev, hleads, regs', hagrees', hc'⟩ := h.does hlast c mem ⟨regs, hagrees, hc⟩
  exact ⟨b, mem', c', hev, hleads, regs', hagrees', h.isOpen hopen, hc'⟩

/-- Leaving a block at a terminator. -/
theorem Final.goes_left (hfinal : last.Final) (hs : s.current < s.fn.blockCount) {i : Instr}
    (hlast : (s.pushed i).Extends 0 last) (hi : i.isTerminator = true) {target : BlockId}
    (hexit : ∀ regs : Reg → V, (∀ entry ∈ held, entry.1.value sem regs = entry.2) →
      i.exit sem regs = .goto target) :
    last.finished.Goes sem (s.ready last sem held) (.block (some target)) := by
  rintro regs ext c ⟨_, hheld, rfl⟩
  refine ⟨_, .refl _, target, rfl, some s.current, ?_⟩
  rw [hfinal.resume_left hs hlast hi, hexit regs hheld]
  rfl

-- ════════════════════════════════════════════════════════════════════════
-- Blocks
-- ════════════════════════════════════════════════════════════════════════

/-- A state with blocks that wait to be used, the oldest of which is the block `m` or a later one. -/
structure Site (m : Nat) (ts : List BlockId) (s : Lowering) : Prop where
  tidy : s.Tidy
  le : m ≤ s.fn.blockCount
  nodup : ts.Nodup
  waits : ∀ t ∈ ts, m ≤ t ∧ ∃ label, label ≠ "logic_merge" ∧ s.Waits label t

namespace Site

variable {ts : List BlockId}

theorem steps (h : s.Site m ts) (hsteps : Steps s.fn.blockCount s s') : s'.Site m ts := by
  refine ⟨hsteps.tidy, Nat.le_trans h.le hsteps.grows.blocks, h.nodup, fun t ht => ?_⟩
  obtain ⟨hge, label, hlabel, hwaits⟩ := h.waits t ht
  exact ⟨hge, label, hlabel, hwaits.steps hsteps⟩

theorem grown (h : s.Site m ts) (hlabel : label ≠ "logic_merge") :
    (s.grown label).Site m (ts ++ [s.fn.blockCount]) := by
  have hsteps : Steps s.fn.blockCount s (s.grown label) := .grown h.tidy label
  obtain ⟨htidy, hle, _, hwaits⟩ := h.steps hsteps
  refine ⟨htidy, hle, ?_, fun t ht => ?_⟩
  · rw [List.nodup_append]
    refine ⟨h.nodup, List.nodup_singleton _, fun t ht t' ht' => ?_⟩
    obtain ⟨_, _, _, hwaits⟩ := h.waits t ht
    rw [List.mem_singleton.mp ht']
    exact Nat.ne_of_lt hwaits.lt
  · obtain ht | ht := List.mem_append.mp ht
    · exact hwaits t ht
    · rw [List.mem_singleton.mp ht]
      exact ⟨h.le, label, hlabel, .grown_self h.tidy.current label⟩

theorem switch (h : s.Site m (t :: ts)) :
    Site m ts { s with current := t } ∧ Steps m s { s with current := t } := by
  obtain ⟨hge, _, _, hwaits⟩ := h.waits t List.mem_cons_self
  have hsteps : Steps m s { s with current := t } := .switch h.tidy hge hwaits.lt
  refine ⟨⟨hsteps.tidy, h.le, (List.nodup_cons.mp h.nodup).2, fun t' ht' => ?_⟩, hsteps⟩
  obtain ⟨hge', label, hlabel, hwaits'⟩ := h.waits t' (List.mem_cons_of_mem _ ht')
  have hne : t' ≠ t := fun heq => (List.nodup_cons.mp h.nodup).1 (heq ▸ ht')
  exact ⟨hge', label, hlabel, hwaits'.switch hne⟩

theorem perm {ts' : List BlockId} (h : s.Site m ts) (hperm : ts'.Perm ts) : s.Site m ts' :=
  ⟨h.tidy, h.le, hperm.nodup_iff.mpr h.nodup, fun t ht => h.waits t (hperm.mem_iff.mp ht)⟩

/-- The next of the blocks is entered at its start. -/
theorem enters (h : s.Site m (t :: ts)) (sem : Semantics V S) (hfinal : last.Final)
    (hlast : Extends 0 { s with current := t } last) :
    last.finished.Enters sem t (ready { s with current := t } last sem []) := by
  obtain ⟨_, label, hlabel, hwaits⟩ := h.waits t List.mem_cons_self
  intro source regs ext
  rw [hfinal.step_waiting hwaits hlabel hlast]
  exact ⟨isOpen_of_code hwaits.code, by simp, rfl⟩

end Site

/-- A state after some blocks were made, before anything else was lowered. -/
structure Begun (m : Nat) (ts : List BlockId) (s s₁ : Lowering) : Prop where
  site : s₁.Site m ts
  steps : Steps m s s₁
  code : s₁.fn.code = s.fn.code
  current : s₁.current = s.current

namespace Begun

variable {ts : List BlockId}

theorem of_site (h : s.Site m ts) : Begun m ts s s := ⟨h, .refl h.tidy, rfl, rfl⟩

theorem refl (hs : s.Tidy) : Begun s.fn.blockCount [] s s :=
  of_site ⟨hs, Nat.le_refl _, List.nodup_nil, by simp⟩

theorem grown (h : Begun m ts s s₁) (hlabel : label ≠ "logic_merge") :
    Begun m (ts ++ [s₁.fn.blockCount]) s (s₁.grown label) where
  site := h.site.grown hlabel
  steps := h.steps.trans (.grown h.site.tidy label)
  code := (funext (s₁.fn.code_grown label)).trans h.code
  current := h.current

theorem newBlock {β : Type} (h : Begun m ts s s₁) {next : BlockId → LowerM β} {b : β}
    (hok : (newBlock label >>= next) s₁ = .ok (b, s')) (hlabel : label ≠ "logic_merge") :
    ∃ t s₂, next t s₂ = .ok (b, s') ∧ Begun m (ts ++ [t]) s s₂ := by
  obtain ⟨t, s₂, hnew, hok⟩ := exists_of_bind hok
  obtain ⟨rfl, rfl⟩ := eq_of_newBlock hnew
  exact ⟨_, _, hok, h.grown hlabel⟩

theorem goes (h : Begun m ts s s₁) :
    last.finished.Goes sem (s.ready last sem held) (s₁.ready last sem held) :=
  goes_ready h.code h.current

end Begun

/-- What lowering has made of a state, compared with what a statement does: the machine gets in step from
the first state to where the statement leads. -/
structure Ran (last : Lowering) (sem : Semantics V S) (limit : Nat) (s : Lowering)
    (ex : EvalM V S (Completion V)) (s' : Lowering) : Prop where
  steps : Steps s.fn.blockCount s s'
  does : s'.Extends 0 last → last.finished.Does sem (s.ready last sem []) ex
    (last.finished.Ends sem limit (s.exits s' last sem))

end Lowering

-- ════════════════════════════════════════════════════════════════════════
-- Straight code
-- ════════════════════════════════════════════════════════════════════════

namespace LowerM

variable {limit : Nat} {around : Surroundings}

/-- What the action lowers does what a statement does. -/
def Runs (act : LowerM Unit) (last : Lowering) (sem : Semantics V S) (limit : Nat)
    (around : Surroundings) (ex : EvalM V S (Completion V)) : Prop :=
  ∀ s u s', act s = .ok (u, s') → s.Tidy → s.Inside around → Ran last sem limit s ex s'

/-- A statement that only evaluates something. -/
theorem Refines.runs {act : LowerM Unit} {ev : EvalM V S Unit}
    (h : act.Refines last sem [] ev noValue) :
    act.Runs last sem limit around (ev >>= fun _ => pure .normal) := by
  intro s u s' hok hs _
  have hrefined := h s u s' hok hs (by simp)
  refine ⟨hrefined.steps, fun hlast => (hrefined.does_ready hlast).bind fun _ => .pure fun c mem hc => ?_⟩
  exact ⟨c, .refl c, hc⟩

/-- A statement that does nothing. -/
theorem runs_nothing : (pure () : LowerM Unit).Runs last sem limit around
    (pure .normal : EvalM V S (Completion V)) :=
  (refines_nothing () ()).runs

theorem Runs.withLine {act : LowerM Unit} {ex : EvalM V S (Completion V)}
    (h : act.Runs last sem limit around ex) (line : Nat) :
    (withLine line act).Runs last sem limit around ex := by
  intro s u s' hok hs hinside
  obtain ⟨s₁, hact, rfl⟩ := exists_of_withLine hok
  have hbefore : Steps s.fn.blockCount s { s with line } := .around hs rfl rfl rfl ⟨rfl, rfl, rfl, rfl⟩
  obtain ⟨hsteps, hdoes⟩ := h { s with line } u s₁ hact hbefore.tidy ⟨hinside.breaks, hinside.continues⟩
  have hafter : Steps s.fn.blockCount s₁ { s₁ with line := s.line } :=
    .around hsteps.tidy rfl rfl rfl ⟨rfl, rfl, rfl, rfl⟩
  exact ⟨(hbefore.trans hsteps).trans hafter, fun hlast => hdoes (hafter.extendsLast hlast)⟩

end LowerM

/-- Part of the lowering of a statement: which blocks still wait afterwards, and what follows for the
function in the end. -/
structure Lowering.Segment (last : Lowering) (m : Nat) (ts : List BlockId) (s s' : Lowering) (P : Prop) :
    Prop where
  site : s'.Site m ts
  steps : Steps m s s'
  fact : s'.Extends 0 last → P

section Segments

variable {m limit : Nat} {ts : List BlockId} {around : Surroundings} {unit : SourceUnit}
  {s s₁ s' : Lowering} {t next : BlockId} {u u' : Unit} {held : List (Operand × V)}

theorem steps_emit {instr : Nat → Instr} (hs : s.Tidy) (hphi : ∀ line, (instr line).isPhi = false)
    (h : emit instr s = .ok (u, s')) : Steps s.fn.blockCount s s' := by
  rw [eq_pushed_of_emit h]
  exact .pushed hs (by simp [hphi])

/-- A jump to another block. -/
theorem goes_jump (hfinal : last.Final) (hs : s.Tidy) (h : emit (.jump t) s = .ok (u, s'))
    (hlast : s'.Extends 0 last) :
    last.finished.Goes sem (s.ready last sem []) (.block (some t)) := by
  rw [eq_pushed_of_emit h] at hlast
  exact hfinal.goes_left hs.current hlast rfl fun _ _ => rfl

/-- A jump at the end of a block that is open. -/
theorem segment_ensureJump (sem : Semantics V S) (hfinal : last.Final) (hsite : s.Site m ts)
    (h : ensureJump t s = .ok (u, s')) :
    Segment last m ts s s' (last.finished.Goes sem (s.ready last sem []) (.block (some t))) := by
  by_cases hclosed : s.fn.Closed s.current
  · obtain rfl : s' = s :=
      (Prod.mk.inj (Except.ok.inj (h.symm.trans (ensureJump_of_closed hsite.tidy.current hclosed t)))).2
    exact ⟨hsite, .refl hsite.tidy, fun _ regs ext c hc => absurd hclosed hc.1⟩
  · rw [eq_of_ensureJump hsite.tidy.current hclosed h]
    have hsteps : Steps s.fn.blockCount s (s.pushed (.jump t s.line)) :=
      .pushed hsite.tidy (by simp [Instr.isPhi, Instr.jump])
    exact ⟨hsite.steps hsteps, hsteps.weaken hsite.le,
      fun hlast => hfinal.goes_left hsite.tidy.current hlast rfl fun _ _ => rfl⟩

/-- A condition and the branch behind it. -/
theorem segment_test (hfinal : last.Final) (hmoves : sem.Moves) (hsite : s.Site m ts) {cond : ExprId}
    {x y : BlockId}
    (h : (unit.lowerExpr cond >>= fun value => emit (.branch value x y)) s = .ok (u, s')) :
    Segment last m ts s s' (last.finished.Does sem (s.ready last sem [])
      (evalTest sem unit last.texts (some cond)) fun holds =>
        last.finished.At (.block (some (if holds then x else y)))) := by
  obtain ⟨value, s₁, hvalue, hbranch⟩ := exists_of_bind h
  have hrefined := unit.refines_lowerExpr hfinal hmoves cond [] s value s₁ hvalue hsite.tidy (by simp)
  have hpushed := steps_emit hrefined.steps.tidy (fun _ => rfl) hbranch
  have hsteps := hrefined.steps.andThen hpushed
  refine ⟨hsite.steps hsteps, hsteps.weaken hsite.le, fun hlast => ?_⟩
  refine (hrefined.does_ready (hpushed.extendsLast hlast)).bind fun v => .pure fun c mem hc => ?_
  rw [eq_pushed_of_emit hbranch] at hlast
  refine (hfinal.goes_left hrefined.steps.tidy.current hlast rfl fun regs hregs => ?_).at hc
  have hv : value.value sem regs = v := hregs (value, v) List.mem_cons_self
  cases hholds : sem.holds v <;>
    simp [Instr.exit, Instr.branch, hv, hholds, Exit.ofTarget, Operand.label?, Instr.falseTarget?]

/-- A block that is filled with a statement, and goes on to another block. -/
theorem segment_fill (hfinal : last.Final) (hsite : s.Site m (t :: ts)) (hinside : s.Inside around)
    {act : LowerM Unit} {ex : EvalM V S (Completion V)} (hact : act.Runs last sem limit around ex)
    (h : act { s with current := t } = .ok (u, s₁)) (hjump : ensureJump next s₁ = .ok (u', s')) :
    Segment last m ts s s' (∃ inside, last.finished.Enters sem t inside ∧
      last.finished.Does sem inside ex (last.finished.Ends sem limit
        ⟨.block (some next), .block s.breakTargets.head?, .block s.continueTargets.head?⟩)) := by
  obtain ⟨hsite', hswitch⟩ := hsite.switch
  obtain ⟨hsteps, hdoes⟩ := hact _ u s₁ h hswitch.tidy ⟨hinside.breaks, hinside.continues⟩
  obtain ⟨hsite'', hsteps', hgoes⟩ := segment_ensureJump sem hfinal (hsite'.steps hsteps) hjump
  refine ⟨hsite'', (hswitch.trans (hsteps.weaken hsite'.le)).trans hsteps', fun hlast => ?_⟩
  have hlast₁ := hsteps'.extendsLast hlast
  refine ⟨_, hsite.enters sem hfinal (hsteps.extendsLast hlast₁), ?_⟩
  exact (hdoes hlast₁).goes (hgoes hlast)

/-- Leaving the function. -/
theorem does_return (hfinal : last.Final) (hs : s.Tidy) {operand : Operand}
    (h : emit (.ret operand) s = .ok (u, s')) (hlast : s'.Extends 0 last) {v : V}
    (hknown : Knows sem held operand v) (exits : Exits V S) :
    last.finished.Does sem (s.ready last sem held) (pure (.returns v))
      (last.finished.Ends sem limit exits) := by
  rw [eq_pushed_of_emit h] at hlast
  refine .pure ?_
  rintro c mem ⟨regs, hagrees, _, hregs, rfl⟩
  refine ⟨_, .refl _, ?_⟩
  rw [hfinal.resume_left hs.current hlast rfl, Function.Ends, Instr.exit, Instr.ret, hknown.value hregs]
  rfl

end Segments

-- ════════════════════════════════════════════════════════════════════════
-- Straight statements
-- ════════════════════════════════════════════════════════════════════════

section Statements

variable {limit : Nat} {unit : SourceUnit} {around : Surroundings}
  {run : Surroundings → StmtId → EvalM V S (Completion V)}

/-- A declaration. -/
theorem refines_lowerDeclare (hfinal : last.Final) (hmoves : sem.Moves) (name : Name) (ty : Option TypeId)
    (value : ExprId) : (lowerDeclare unit name ty (some value)).Refines last sem []
      (unit.eval sem last.texts value >>= EvalM.writeVar name) noValue := by
  have : Nonempty V := ⟨sem.nothing⟩
  intro s u s' hok hs hheld
  rw [lowerDeclare] at hok
  obtain ⟨_, _, hvar, hok⟩ := exists_of_bind hok
  obtain ⟨rfl, rfl⟩ := eq_of_varOperand hvar
  obtain ⟨result, s₁, hresult, hok⟩ := exists_of_bind hok
  have hsteps : Steps s.fn.blockCount s (s.withVar name ty) := .withVar hs name ty
  have hrefined := unit.refines_lowerExpr hfinal hmoves value [] _ result s₁ hresult hsteps.tidy (by simp)
  obtain ⟨var, hvar, rfl, hreg⟩ := s.exists_mem_withVar name ty
  rw [eq_pushed_of_emit hok, ← hreg]
  refine Refined.prepend (hrefined.bind fun x => ?_) hsteps (s.code_withVar var.name ty) rfl
  exact refined_assign hfinal hmoves hrefined.steps.tidy (hrefined.stable_append (by simp) x)
    (hrefined.steps.grows.mem_vars hvar) ty .head _

/-- A declaration without an initial value. -/
theorem refines_lowerDeclare_none (unit : SourceUnit) (name : Name) (ty : Option TypeId) :
    (lowerDeclare unit name ty none).Refines last sem [] (pure ()) noValue := by
  intro s u s' hok hs hheld
  rw [lowerDeclare] at hok
  obtain ⟨_, _, hvar, hok⟩ := exists_of_bind hok
  obtain ⟨rfl, rfl⟩ := eq_of_varOperand hvar
  have hsteps : Steps s.fn.blockCount s (s.withVar name ty) := .withVar hs name ty
  refine Refined.prepend ?_ hsteps (s.code_withVar name ty) rfl
  exact refines_nothing () () _ u s' hok hsteps.tidy (by simp)

/-- An expression whose value is not used. -/
theorem refines_discard (hfinal : last.Final) (hmoves : sem.Moves) (value : ExprId) :
    (discard (unit.lowerExpr value)).Refines last sem [] (discard (unit.eval sem last.texts value))
      noValue := by
  have : Nonempty V := ⟨sem.nothing⟩
  exact (unit.refines_lowerExpr hfinal hmoves value []).bind fun _ _ => refines_nothing _ _

/-- An instruction that does nothing. -/
theorem refines_nop (hfinal : last.Final) (hmoves : sem.Moves) :
    (emit .nop).Refines last sem [] (pure ()) noValue := by
  have hnop : EvalM.perform sem .nop sem.nothing sem.nothing = pure () := by
    funext mem
    change some ((), { mem with ext := (sem.apply .nop none sem.nothing sem.nothing mem.ext).2 }) = _
    rw [hmoves.nop]
    rfl
  rw [← hnop]
  exact refines_perform hfinal (by decide) (.const rfl) (.const rfl)

theorem runs_lowerReturn (hfinal : last.Final) (hmoves : sem.Moves) (value : Option ExprId) :
    (lowerReturn unit value).Runs last sem limit around
      (execKind sem unit last.texts limit run around (.ret value)) := by
  intro s u s' hok hs _
  cases value with
  | none => exact ⟨steps_emit hs (fun _ => rfl) hok, fun hlast => does_return hfinal hs hok hlast (.const rfl) _⟩
  | some value =>
    obtain ⟨result, s₁, hresult, hret⟩ := exists_of_bind hok
    have hrefined := unit.refines_lowerExpr hfinal hmoves value [] s result s₁ hresult hs (by simp)
    have hsteps := steps_emit hrefined.steps.tidy (fun _ => rfl) hret
    refine ⟨hrefined.steps.andThen hsteps, fun hlast => ?_⟩
    exact (hrefined.does_ready (hsteps.extendsLast hlast)).bind fun x =>
      does_return hfinal hrefined.steps.tidy hret hlast .head _

/-- `break` and `continue`. -/
theorem runs_jumpToInnermost (hfinal : last.Final) {targets : Lowering → List BlockId} {can : Bool}
    {done : Completion V} (hcan : ∀ s, s.Inside around → can = (targets s).head?.isSome)
    (hdone : ∀ s s' c mem, last.finished.At (.block (targets s).head?) c mem →
      last.finished.Ends sem limit (s.exits s' last sem) done c mem) :
    (do jumpToInnermost (targets (← get))).Runs last sem limit around
      (pure (if can then done else .normal)) := by
  intro s u s' hok hs hinside
  obtain ⟨_, _, hget, hok⟩ := exists_of_bind hok
  cases hget
  rw [hcan s hinside]
  have hends := hdone s s'
  cases htargets : targets s with
  | nil =>
    rw [htargets] at hok
    exact runs_nothing s u s' hok hs hinside
  | cons target rest =>
    rw [htargets] at hok hends
    refine ⟨steps_emit hs (fun _ => rfl) hok, fun hlast => .pure fun c mem hc => ?_⟩
    obtain ⟨c', hleads, hc'⟩ := (goes_jump hfinal hs hok hlast).at hc
    exact ⟨c', hleads, hends c' mem hc'⟩

-- ════════════════════════════════════════════════════════════════════════
-- One after the other
-- ════════════════════════════════════════════════════════════════════════

variable {lower : StmtId → LowerM Unit}

/-- A new block is opened only where the machine does not come. -/
theorem segment_openDeadBlock {s s' : Lowering} {u : Unit} {id : StmtId} (hs : s.Tidy)
    (h : openDeadBlock unit id s = .ok (u, s')) : Steps s.fn.blockCount s s' ∧
      last.finished.Goes sem (s.ready last sem []) (s'.ready last sem []) := by
  obtain rfl | ⟨hclosed, rfl⟩ := openDeadBlock_cases h
  · exact ⟨.refl hs, .refl _⟩
  · have hgrown : Steps s.fn.blockCount s (s.grown "dead") := .grown hs "dead"
    have hlt := (Waits.grown_self hs.current "dead").lt
    exact ⟨hgrown.trans (.switch hgrown.tidy (Nat.le_refl _) hlt), fun _ _ c hc => absurd hclosed hc.1⟩

theorem Lowering.Inside.steps {m : Nat} {s s' : Lowering} (h : s.Inside around) (hsteps : Steps m s s') :
    s'.Inside around := by
  refine ⟨?_, ?_⟩
  · rw [hsteps.scopes.breaks]
    exact h.breaks
  · rw [hsteps.scopes.continues]
    exact h.continues

theorem Lowering.exits_steps {m : Nat} {s s₁ s' : Lowering} (hsteps : Steps m s s₁) :
    s₁.exits s' last sem = s.exits s' last sem := by
  rw [exits, exits, hsteps.scopes.breaks, hsteps.scopes.continues]

/-- Statements one after the other. -/
theorem runs_lowerList {body : List StmtId}
    (h : ∀ id ∈ body, (lower id).Runs last sem limit around (run around id)) :
    (lowerList unit lower body).Runs last sem limit around (execList (run around) body) := by
  induction body with
  | nil => exact runs_nothing
  | cons id rest ih =>
    intro s u s' hok hs hinside
    obtain ⟨_, s₂, hfirst, hrest⟩ := exists_of_bind hok
    obtain ⟨_, s₁, hopen, hfirst⟩ := exists_of_bind hfirst
    obtain ⟨hsteps₁, hgoes⟩ := segment_openDeadBlock hs hopen
    obtain ⟨hsteps₂, hdoes⟩ := h id List.mem_cons_self s₁ _ s₂ hfirst hsteps₁.tidy (hinside.steps hsteps₁)
    have hsteps := hsteps₁.andThen hsteps₂
    obtain ⟨hsteps₃, hdoes'⟩ := ih (fun other hother => h other (List.mem_cons_of_mem _ hother)) s₂ u s' hrest
      hsteps.tidy (hinside.steps hsteps)
    refine ⟨hsteps.andThen hsteps₃, fun hlast => ?_⟩
    rw [exits_steps hsteps₁] at hdoes
    rw [exits_steps hsteps] at hdoes'
    exact .execList_cons ((hdoes (hsteps₃.extendsLast hlast)).of_goes hgoes) (hdoes' hlast)

-- ════════════════════════════════════════════════════════════════════════
-- Conditionals
-- ════════════════════════════════════════════════════════════════════════

/-- An assertion. -/
theorem runs_lowerAssertion (hfinal : last.Final) (hmoves : sem.Moves) (cond : ExprId) :
    (lowerAssertion unit cond).Runs last sem limit around
      (execKind sem unit last.texts limit run around (.assertion (some cond))) := by
  intro s u s' hok hs hinside
  obtain ⟨failBlock, s₁, hok, hbegun⟩ := (Begun.refl hs).newBlock hok (by decide)
  obtain ⟨okBlock, s₁, hok, hbegun⟩ := hbegun.newBlock hok (by decide)
  rw [← bind_assoc] at hok
  obtain ⟨_, s₂, htest, hok⟩ := exists_of_bind hok
  obtain ⟨hsite, htested, htest⟩ := segment_test hfinal hmoves hbegun.site htest
  obtain ⟨_, _, ⟨⟩, hok⟩ := exists_of_bind hok
  obtain ⟨_, s₃, hnop, hok⟩ := exists_of_bind hok
  obtain ⟨_, s₄, hret, hok⟩ := exists_of_bind hok
  cases hok
  obtain ⟨hsite₂, hswitch⟩ := hsite.switch
  have hnop := refines_nop hfinal hmoves _ _ s₃ hnop hswitch.tidy (by simp)
  have hleft := hnop.steps.andThen (steps_emit hnop.steps.tidy (fun _ => rfl) hret)
  obtain ⟨_, hswitch'⟩ := (hsite₂.steps hleft).switch
  refine ⟨((hbegun.steps.trans htested).trans hswitch).trans ((hleft.weaken hsite₂.le).trans hswitch'),
    fun hlast => ?_⟩
  have hlast₄ := hswitch'.extendsLast hlast
  have hlast₃ := (steps_emit hnop.steps.tidy (fun _ => rfl) hret).extendsLast hlast₄
  have hlast₂ := hnop.steps.extendsLast hlast₃
  refine ((htest (hswitch.extendsLast hlast₂)).of_goes hbegun.goes).bind fun holds => ?_
  cases holds with
  | true => exact .pure fun c mem hc => ((hsite₂.steps hleft).enters sem hfinal hlast).goes.at hc
  | false =>
    refine .of_goes (hsite.enters sem hfinal hlast₂).goes ?_
    change last.finished.Does sem _ (pure () >>= fun _ => pure (Completion.returns sem.nothing)) _
    exact (hnop.does_ready hlast₃).bind fun _ =>
      does_return hfinal hnop.steps.tidy hret hlast₄ (.const rfl) _

/-- Filling a block with a statement that goes on to another block. -/
theorem segment_fillBlock {m : Nat} {ts : List BlockId} {s s' : Lowering} {t next : BlockId} {u : Unit}
    {id : StmtId} {ex : EvalM V S (Completion V)} (hfinal : last.Final) (hsite : s.Site m (t :: ts))
    (hinside : s.Inside around) (hact : (lower id).Runs last sem limit around ex)
    (h : fillBlock lower t id next s = .ok (u, s')) :
    Segment last m ts s s' (∃ inside, last.finished.Enters sem t inside ∧
      last.finished.Does sem inside ex (last.finished.Ends sem limit
        ⟨.block (some next), .block s.breakTargets.head?, .block s.continueTargets.head?⟩)) := by
  obtain ⟨_, _, ⟨⟩, h⟩ := exists_of_bind h
  obtain ⟨_, s₁, hlower, hjump⟩ := exists_of_bind h
  exact segment_fill hfinal hsite hinside hact hlower hjump

/-- A conditional. -/
theorem runs_lowerConditional (hfinal : last.Final) (hmoves : sem.Moves) {cond : ExprId}
    {thenBody : StmtId} {elseBody : Option StmtId}
    (hthen : (lower thenBody).Runs last sem limit around (run around thenBody))
    (helse : ∀ id ∈ elseBody, (lower id).Runs last sem limit around (run around id)) :
    (lowerConditional unit lower cond thenBody elseBody).Runs last sem limit around
      (execKind sem unit last.texts limit run around (.conditional cond thenBody elseBody)) := by
  intro s u s' hok hs hinside
  rw [lowerConditional] at hok
  obtain ⟨thenBlock, s₁, hok, hbegun⟩ := (Begun.refl hs).newBlock hok (by decide)
  cases elseBody with
  | none =>
    obtain ⟨mergeBlock, s₁, hok, hbegun⟩ := hbegun.newBlock hok (by decide)
    rw [← bind_assoc] at hok
    obtain ⟨_, s₂, htest, hok⟩ := exists_of_bind hok
    obtain ⟨_, s₃, hfill, ⟨⟩⟩ := exists_of_bind hok
    obtain ⟨hsite₂, hsteps₂, htest⟩ := segment_test hfinal hmoves hbegun.site htest
    have hsteps₂ := hbegun.steps.trans hsteps₂
    obtain ⟨hsite₃, hsteps₃, hfill⟩ := segment_fillBlock hfinal hsite₂ (hinside.steps hsteps₂) hthen hfill
    have hswitch := hsite₃.switch.2
    refine ⟨(hsteps₂.trans hsteps₃).trans hswitch, fun hlast => ?_⟩
    have hlast₃ := hswitch.extendsLast hlast
    obtain ⟨inside, henter, hbody⟩ := hfill hlast₃
    have hmerge := (hsite₃.enters sem hfinal hlast).goes
    refine ((htest (hsteps₃.extendsLast hlast₃)).of_goes hbegun.goes).bind fun holds => ?_
    cases holds with
    | true =>
      rw [hsteps₂.scopes.breaks, hsteps₂.scopes.continues] at hbody
      exact .of_goes henter.goes (hbody.goes hmerge)
    | false => exact .pure fun c mem hc => hmerge.at hc
  | some elseBody =>
    obtain ⟨elseBlock, s₁, hok, hbegun⟩ := hbegun.newBlock hok (by decide)
    obtain ⟨mergeBlock, s₁, hok, hbegun⟩ := hbegun.newBlock hok (by decide)
    rw [← bind_assoc] at hok
    obtain ⟨_, s₂, htest, hok⟩ := exists_of_bind hok
    obtain ⟨_, s₃, hfill, hok⟩ := exists_of_bind hok
    obtain ⟨_, s₄, hfill', ⟨⟩⟩ := exists_of_bind hok
    obtain ⟨hsite₂, hsteps₂, htest⟩ := segment_test hfinal hmoves hbegun.site htest
    have hsteps₂ := hbegun.steps.trans hsteps₂
    obtain ⟨hsite₃, hfilled, hfill⟩ := segment_fillBlock hfinal hsite₂ (hinside.steps hsteps₂) hthen hfill
    have hsteps₃ := hsteps₂.trans hfilled
    obtain ⟨hsite₄, hfilled', hfill'⟩ :=
      segment_fillBlock hfinal hsite₃ (hinside.steps hsteps₃) (helse elseBody rfl) hfill'
    have hswitch := hsite₄.switch.2
    refine ⟨(hsteps₃.trans hfilled').trans hswitch, fun hlast => ?_⟩
    have hlast₄ := hswitch.extendsLast hlast
    have hlast₃ := hfilled'.extendsLast hlast₄
    have hmerge := (hsite₄.enters sem hfinal hlast).goes
    refine ((htest (hfilled.extendsLast hlast₃)).of_goes hbegun.goes).bind fun holds => ?_
    cases holds with
    | true =>
      obtain ⟨inside, henter, hbody⟩ := hfill hlast₃
      rw [hsteps₂.scopes.breaks, hsteps₂.scopes.continues] at hbody
      exact .of_goes henter.goes (hbody.goes hmerge)
    | false =>
      obtain ⟨inside, henter, hbody⟩ := hfill' hlast₄
      rw [hsteps₃.scopes.breaks, hsteps₃.scopes.continues] at hbody
      exact .of_goes henter.goes (hbody.goes hmerge)

-- ════════════════════════════════════════════════════════════════════════
-- Loops
-- ════════════════════════════════════════════════════════════════════════

section Scopes

variable {s t : Lowering} {m : Nat} {exit next : BlockId} {ts breaks continues : List BlockId}

/-- The state in which the body of a construct is lowered that `break` and `continue` lead out of. -/
def Lowering.scoped (s : Lowering) (breaks continues : List BlockId) : Lowering :=
  { s with breakTargets := breaks, continueTargets := continues }

theorem Lowering.Site.scoped (h : s.Site m ts) : (s.scoped breaks continues).Site m ts where
  tidy := ⟨h.tidy.current, h.tidy.vars⟩
  le := h.le
  nodup := h.nodup
  waits := fun t ht => by
    obtain ⟨hge, label, hlabel, hwaits⟩ := h.waits t ht
    exact ⟨hge, label, hlabel, hwaits.lt, hwaits.ne, hwaits.code, hwaits.label⟩

/-- What happens inside a construct leaves the scopes outside alone. -/
theorem Lowering.Steps.scoped (h : Steps m (s.scoped breaks continues) t) :
    Steps m s (t.scoped s.breakTargets s.continueTargets) where
  grows := { h.grows with }
  tidy := ⟨h.tidy.current, h.tidy.vars⟩
  scopes := ⟨rfl, rfl, h.scopes.gotos, h.scopes.labels⟩

/-- What happened inside a construct left its target on top, so popping it leaves the scopes outside. -/
theorem Lowering.Steps.popBreak (h : Steps m (s.scoped (exit :: s.breakTargets) s.continueTargets) t) :
    t.popBreak = t.scoped s.breakTargets s.continueTargets := by
  have hbreaks : t.breakTargets.tail = s.breakTargets := congrArg List.tail h.scopes.breaks
  have hcontinues : t.continueTargets = s.continueTargets := h.scopes.continues
  rw [Lowering.popBreak, Lowering.scoped, hbreaks, ← hcontinues]

theorem Lowering.Steps.popLoop (h : Steps m (s.scoped (exit :: s.breakTargets) (next :: s.continueTargets)) t) :
    t.popContinue.popBreak = t.scoped s.breakTargets s.continueTargets := by
  have hbreaks : t.breakTargets.tail = s.breakTargets := congrArg List.tail h.scopes.breaks
  have hcontinues : t.continueTargets.tail = s.continueTargets := congrArg List.tail h.scopes.continues
  rw [Lowering.scoped, ← hbreaks, ← hcontinues]
  rfl

/-- Leaving a construct for its last block. -/
theorem Lowering.Begun.leave {s₁ popped : Lowering} (sem : Semantics V S) (hfinal : last.Final)
    (hbegun : Begun m ts s s₁) (hsteps : Steps m (s₁.scoped breaks continues) t) (hsite : t.Site m [exit])
    (hpopped : popped = t.scoped s₁.breakTargets s₁.continueTargets) :
    Steps m s { popped with current := exit } ∧
      (Lowering.Extends 0 { popped with current := exit } last → t.Extends 0 last ∧
        last.finished.Goes sem (.block (some exit)) (ready { popped with current := exit } last sem [])) := by
  subst hpopped
  have hsite' : (t.scoped s₁.breakTargets s₁.continueTargets).Site m [exit] := hsite.scoped
  have hswitch := hsite'.switch.2
  refine ⟨(hbegun.steps.trans hsteps.scoped).trans hswitch, fun hlast => ⟨?_, ?_⟩⟩
  · exact { hswitch.extendsLast hlast with }
  · exact (hsite'.enters sem hfinal hlast).goes

end Scopes

/-- A loop that tests its condition first. -/
theorem runs_lowerWhile (hfinal : last.Final) (hmoves : sem.Moves) {cond : ExprId} {body : StmtId}
    (hbody : (lower body).Runs last sem limit .loop (run .loop body)) :
    (lowerWhile unit lower cond body).Runs last sem limit around
      (execKind sem unit last.texts limit run around (.whileLoop cond body)) := by
  intro s u s' hok hs hinside
  rw [lowerWhile] at hok
  obtain ⟨condBlock, s₁, hok, hbegun⟩ := (Begun.refl hs).newBlock hok (by decide)
  obtain ⟨bodyBlock, s₁, hok, hbegun⟩ := hbegun.newBlock hok (by decide)
  obtain ⟨exitBlock, s₁, hok, hbegun⟩ := hbegun.newBlock hok (by decide)
  obtain ⟨_, s₂, hwith, ⟨⟩⟩ := exists_of_bind hok
  obtain ⟨t₄, hloop, rfl⟩ := exists_of_withLoop hwith
  obtain ⟨_, t₁, hjump, hloop⟩ := exists_of_bind hloop
  obtain ⟨_, _, ⟨⟩, hloop⟩ := exists_of_bind hloop
  rw [← bind_assoc] at hloop
  obtain ⟨_, t₃, htest, hfill⟩ := exists_of_bind hloop
  obtain ⟨hsite₁, hsteps₁, hjump⟩ := segment_ensureJump sem hfinal hbegun.site.scoped hjump
  obtain ⟨hsite₂, hswitch⟩ := hsite₁.switch
  obtain ⟨hsite₃, htested, htest⟩ := segment_test hfinal hmoves hsite₂ htest
  have hsteps₃ := (hsteps₁.trans hswitch).trans htested
  have hinside : t₃.Inside .loop := Inside.steps ⟨rfl, rfl⟩ hsteps₃
  obtain ⟨hsite₄, hfilled, hfill⟩ := segment_fillBlock hfinal hsite₃ hinside hbody hfill
  have hsteps₄ := hsteps₃.trans hfilled
  obtain ⟨hsteps, hleave⟩ := hbegun.leave sem hfinal hsteps₄ hsite₄ hsteps₄.popLoop
  refine ⟨hsteps, fun hlast => ?_⟩
  obtain ⟨hlast₄, hexit⟩ := hleave hlast
  have hlast₃ := hfilled.extendsLast hlast₄
  have hlast₂ := htested.extendsLast hlast₃
  obtain ⟨inside, henter, hround⟩ := hfill hlast₄
  rw [hsteps₃.scopes.breaks, hsteps₃.scopes.continues] at hround
  have hstart : last.finished.Goes sem (s.ready last sem []) (.block (some condBlock)) :=
    hbegun.goes.trans ((goes_ready rfl rfl).trans (hjump (hswitch.extendsLast hlast₂)))
  have htest := (htest hlast₃).of_goes (hsite₁.enters sem hfinal hlast₂).goes
  exact .execLoop (htest.of_goes hstart) henter hround htest hexit

/-- A loop that tests its condition last. -/
theorem runs_lowerDo (hfinal : last.Final) (hmoves : sem.Moves) {cond : ExprId} {body : StmtId}
    (hbody : (lower body).Runs last sem limit .loop (run .loop body)) :
    (lowerDo unit lower body cond).Runs last sem limit around
      (execKind sem unit last.texts limit run around (.doLoop body cond)) := by
  intro s u s' hok hs _
  rw [lowerDo] at hok
  obtain ⟨bodyBlock, s₁, hok, hbegun⟩ := (Begun.refl hs).newBlock hok (by decide)
  obtain ⟨condBlock, s₁, hok, hbegun⟩ := hbegun.newBlock hok (by decide)
  obtain ⟨exitBlock, s₁, hok, hbegun⟩ := hbegun.newBlock hok (by decide)
  obtain ⟨_, s₂, hwith, ⟨⟩⟩ := exists_of_bind hok
  obtain ⟨t₄, hloop, rfl⟩ := exists_of_withLoop hwith
  obtain ⟨_, t₁, hjump, hloop⟩ := exists_of_bind hloop
  obtain ⟨_, t₂, hfill, hloop⟩ := exists_of_bind hloop
  obtain ⟨_, _, ⟨⟩, htest⟩ := exists_of_bind hloop
  obtain ⟨hsite₁, hsteps₁, hjump⟩ := segment_ensureJump sem hfinal hbegun.site.scoped hjump
  have hinside : t₁.Inside .loop := Inside.steps ⟨rfl, rfl⟩ hsteps₁
  obtain ⟨hsite₂, hfilled, hfill⟩ := segment_fillBlock hfinal hsite₁ hinside hbody hfill
  obtain ⟨hsite₃, hswitch⟩ := hsite₂.switch
  obtain ⟨hsite₄, htested, htest⟩ := segment_test hfinal hmoves hsite₃ htest
  have hsteps₄ := (hsteps₁.trans hfilled).trans (hswitch.trans htested)
  obtain ⟨hsteps, hleave⟩ := hbegun.leave sem hfinal hsteps₄ hsite₄ hsteps₄.popLoop
  refine ⟨hsteps, fun hlast => ?_⟩
  obtain ⟨hlast₄, hexit⟩ := hleave hlast
  have hlast₃ := htested.extendsLast hlast₄
  have hlast₂ := hswitch.extendsLast hlast₃
  obtain ⟨inside, henter, hround⟩ := hfill hlast₂
  rw [hsteps₁.scopes.breaks, hsteps₁.scopes.continues] at hround
  have hstart : last.finished.Goes sem (s.ready last sem []) (.block (some bodyBlock)) :=
    hbegun.goes.trans ((goes_ready rfl rfl).trans (hjump (hfilled.extendsLast hlast₂)))
  have htest := (htest hlast₄).of_goes (hsite₂.enters sem hfinal hlast₃).goes
  exact .of_goes hstart (.execRounds henter hround htest hexit limit (Nat.le_refl _))

/-- The condition of a loop, without which the loop goes on. -/
theorem segment_lowerTest {m : Nat} {ts : List BlockId} {s s' : Lowering} {x y : BlockId} {u : Unit}
    (hfinal : last.Final) (hmoves : sem.Moves) (hsite : s.Site m ts) {cond : Option ExprId}
    (h : lowerTest unit cond x y s = .ok (u, s')) :
    Segment last m ts s s' (last.finished.Does sem (s.ready last sem [])
      (evalTest sem unit last.texts cond) fun holds =>
        last.finished.At (.block (some (if holds then x else y)))) := by
  cases cond with
  | none =>
    have hsteps := steps_emit hsite.tidy (fun _ => rfl) h
    refine ⟨hsite.steps hsteps, hsteps.weaken hsite.le, fun hlast => ?_⟩
    exact .pure fun c mem hc => (goes_jump hfinal hsite.tidy h hlast).at hc
  | some cond => exact segment_test hfinal hmoves hsite h

/-- A part of a statement that only evaluates something. -/
theorem segment_refines {m : Nat} {ts : List BlockId} {s s' : Lowering} {u : Unit} {act : LowerM Unit}
    {ev : EvalM V S Unit} (hsite : s.Site m ts) (hact : act.Refines last sem [] ev noValue)
    (h : act s = .ok (u, s')) :
    Segment last m ts s s' (last.finished.Does sem (s.ready last sem []) ev fun _ =>
      last.finished.At (s'.ready last sem [])) := by
  have hrefined := hact s u s' h hsite.tidy (by simp)
  exact ⟨hsite.steps hrefined.steps, hrefined.steps.weaken hsite.le, hrefined.does_ready⟩

/-- The step of a loop, which may be missing. -/
theorem refines_forStep (hfinal : last.Final) (hmoves : sem.Moves) (incr : Option ExprId) :
    (incr.forM fun step => discard (unit.lowerExpr step)).Refines last sem []
      (incr.forM fun step => discard (unit.eval sem last.texts step)) noValue := by
  cases incr with
  | none => exact refines_nothing _ _
  | some step => exact refines_discard hfinal hmoves step

/-- A loop with a start, a condition and a step. -/
theorem runs_lowerFor (hfinal : last.Final) (hmoves : sem.Moves) {init body : Option StmtId}
    {cond incr : Option ExprId}
    (hinit : (init.forM lower).Refines last sem [] (init.forM fun start => discard (run .loop start))
      noValue)
    (hbody : ∀ id ∈ body, (lower id).Runs last sem limit .loop (run .loop id)) :
    (lowerFor unit lower init cond incr body).Runs last sem limit around
      (execKind sem unit last.texts limit run around (.forLoop init cond incr body)) := by
  intro s u s' hok hs _
  rw [lowerFor_eq] at hok
  obtain ⟨condBlock, s₁, hok, hbegun⟩ := (Begun.refl hs).newBlock hok (by decide)
  obtain ⟨bodyBlock, s₁, hok, hbegun⟩ := hbegun.newBlock hok (by decide)
  obtain ⟨incrBlock, s₁, hok, hbegun⟩ := hbegun.newBlock hok (by decide)
  obtain ⟨exitBlock, s₁, hok, hbegun⟩ := hbegun.newBlock hok (by decide)
  obtain ⟨_, s₂, hwith, ⟨⟩⟩ := exists_of_bind hok
  obtain ⟨t₇, hloop, rfl⟩ := exists_of_withLoop hwith
  -- The start, up to the jump to the condition.
  obtain ⟨_, t₁, hstart, hloop⟩ := exists_of_bind hloop
  obtain ⟨_, t₂, hjump, hloop⟩ := exists_of_bind hloop
  obtain ⟨_, _, ⟨⟩, hloop⟩ := exists_of_bind hloop
  obtain ⟨hsite₁, hsteps₁, hstart⟩ := segment_refines hbegun.site.scoped hinit hstart
  obtain ⟨hsite₂, hjumped, hjump⟩ := segment_ensureJump sem hfinal hsite₁ hjump
  -- The condition.
  obtain ⟨hsite, hswitch⟩ := hsite₂.switch
  obtain ⟨_, t₃, htest, hloop⟩ := exists_of_bind hloop
  obtain ⟨hsite₃, htested, htest⟩ := segment_lowerTest hfinal hmoves hsite htest
  have hsteps₃ := ((hsteps₁.trans hjumped).trans hswitch).trans htested
  -- The body.
  obtain ⟨_, _, ⟨⟩, hloop⟩ := exists_of_bind hloop
  obtain ⟨_, t₄, hfill, hloop⟩ := exists_of_bind hloop
  obtain ⟨_, t₅, hnext, hloop⟩ := exists_of_bind hloop
  have hact : (body.forM lower).Runs last sem limit .loop (body.elim (pure .normal) (run .loop)) := by
    cases body with
    | none => exact runs_nothing
    | some id => exact hbody id rfl
  have hinside : t₃.Inside .loop := Inside.steps ⟨rfl, rfl⟩ hsteps₃
  obtain ⟨hsite₅, hfilled, hfill⟩ := segment_fill hfinal hsite₃ hinside hact hfill hnext
  -- The step, and back to the condition.
  obtain ⟨_, _, ⟨⟩, hloop⟩ := exists_of_bind hloop
  obtain ⟨_, t₆, hstep, hback⟩ := exists_of_bind hloop
  obtain ⟨hsite, hswitch'⟩ := hsite₅.switch
  obtain ⟨hsite₆, hstepped, hstep⟩ := segment_refines hsite (refines_forStep hfinal hmoves incr) hstep
  obtain ⟨hsite₇, hjumped', hback⟩ := segment_ensureJump sem hfinal hsite₆ hback
  have hsteps₇ := (hsteps₃.trans hfilled).trans ((hswitch'.trans hstepped).trans hjumped')
  obtain ⟨hsteps, hleave⟩ := hbegun.leave sem hfinal hsteps₇ hsite₇ hsteps₇.popLoop
  refine ⟨hsteps, fun hlast => ?_⟩
  obtain ⟨hlast₇, hexit⟩ := hleave hlast
  have hlast₆ := hjumped'.extendsLast hlast₇
  have hlast₅ := hstepped.extendsLast hlast₆
  have hlast₄ := hswitch'.extendsLast hlast₅
  have hlast₃ := hfilled.extendsLast hlast₄
  have hlast₂ := htested.extendsLast hlast₃
  have hlast₁ := hswitch.extendsLast hlast₂
  obtain ⟨inside, henter, hround⟩ := hfill hlast₄
  rw [hsteps₃.scopes.breaks, hsteps₃.scopes.continues] at hround
  have htest := (htest hlast₃).of_goes (hsite₂.enters sem hfinal hlast₂).goes
  have hagain := ((hstep hlast₆).bind fun _ => htest.of_goes (hback hlast₇)).of_goes
    (hsite₅.enters sem hfinal hlast₅).goes
  have hbegin := (hstart (hjumped.extendsLast hlast₁)).of_goes (hbegun.goes.trans (goes_ready rfl rfl))
  exact hbegin.bind fun _ =>
    .execLoop (htest.of_goes (hjump hlast₁)) henter hround hagain hexit

end Statements

end MiddleEnd
