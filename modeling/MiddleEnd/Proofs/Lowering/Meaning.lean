import MiddleEnd.Proofs.Lowering.Selection
import MiddleEnd.Proofs.Pipeline
import MiddleEnd.Proofs.SSA.Meaning

/-!
# Lowering keeps the meaning of structured code

A function whose body has no labels is lowered to a function that does what its body does: for every
meaning of the operations, every state of the world outside and all arguments.

## Main definitions

* `Function.Yields`: what a run of a function has come to.

## Main statements

* `SourceUnit.runs_lowerStmt`: a lowered statement does what the statement does.
* `SourceUnit.call_inStep`: what the interpreter gives for a call, a run of the lowered function yields.
* `SourceUnit.lowerFunction_meaning`: a lowered function returns what the interpreter gives, and exactly
  when the interpreter gives something.
-/

namespace MiddleEnd

open LowerM Lowering

variable {V S : Type} {sem : Semantics V S} {last : Lowering} {unit : SourceUnit} {limit : Nat}

-- ════════════════════════════════════════════════════════════════════════
-- Statements
-- ════════════════════════════════════════════════════════════════════════

/-- Declarations and expressions end normally after they have evaluated something. -/
theorem exists_refines_of_isSimple (unit : SourceUnit) (limit : Nat) (hfinal : last.Final)
    (hmoves : sem.Moves) {kind : StmtKind Name} (h : kind.IsSimple) : ∃ ev : EvalM V S Unit,
      (∀ lower id ty, (lowerStmtKind unit lower id ty kind).Refines last sem [] ev noValue) ∧
      ∀ run around, execKind sem unit last.texts limit run around kind = ev >>= fun _ => pure .normal := by
  cases kind with
  | declare name init =>
    cases init with
    | none => exact ⟨pure (), fun _ _ ty => refines_lowerDeclare_none unit name ty, fun _ _ => rfl⟩
    | some value =>
      refine ⟨_, fun _ _ ty => refines_lowerDeclare hfinal hmoves name ty value, fun _ _ => ?_⟩
      rw [bind_assoc]
      rfl
  | expr value => exact ⟨_, fun _ _ _ => refines_discard hfinal hmoves value, fun _ _ => rfl⟩
  | _ => cases h

theorem EvalM.discard_normal (ev : EvalM V S Unit) :
    discard (ev >>= fun _ => pure (Completion.normal : Completion V)) = ev := by
  change (ev >>= fun _ => pure Completion.normal) >>= (fun _ => pure ()) = ev
  rw [bind_assoc]
  exact bind_pure ev

namespace SourceUnit

section Nodes

variable {depth : Nat} {id : StmtId} {node : Stmt}

theorem lowerStmtWithin_succ (hnode : unit.stmts[id]? = some node) :
    unit.lowerStmtWithin (depth + 1) id =
      withLine node.line (lowerStmtKind unit (unit.lowerStmtWithin depth) id node.ty node.kind) := by
  have hstmt : unit.stmt id = .ok node := require_eq_ok_iff.mpr hnode
  funext s
  rw [lowerStmtWithin, lift_bind_apply, hstmt]
  rfl

theorem execWithin_succ (hnode : unit.stmts[id]? = some node) (texts : Interner) (around : Surroundings) :
    unit.execWithin sem texts limit (depth + 1) around id =
      execKind sem unit texts limit (unit.execWithin sem texts limit depth) around node.kind := by
  rw [execWithin, hnode]
  rfl

/-- The start of a loop. -/
theorem refines_lowerStart (hfinal : last.Final) (hmoves : sem.Moves) (hnode : unit.stmts[id]? = some node)
    (hsimple : node.kind.IsSimple) (around : Surroundings) :
    (unit.lowerStmtWithin depth id).Refines last sem []
      (discard (unit.execWithin sem last.texts limit depth around id)) noValue := by
  cases depth with
  | zero =>
    intro s u s' hok
    cases hok
  | succ depth =>
    obtain ⟨ev, hrefines, hexec⟩ := exists_refines_of_isSimple unit limit hfinal hmoves hsimple
    rw [lowerStmtWithin_succ hnode, execWithin_succ hnode, hexec, EvalM.discard_normal]
    exact (hrefines _ id node.ty).withLine node.line

/-- A lowered statement does what the statement does. -/
theorem runs_lowerStmtKind (hfinal : last.Final) (hmoves : sem.Moves) {lower : StmtId → LowerM Unit}
    {run : Surroundings → StmtId → EvalM V S (Completion V)} {kind : StmtKind Name}
    (hparts : ∀ part ∈ kind.parts, ∀ around, (lower part).Runs last sem limit around (run around part))
    (hkind : ¬ kind.IsLabelled)
    (hstart : ∀ start ∈ kind.start?, (lower start).Refines last sem [] (discard (run .loop start)) noValue)
    (hswitch : ∀ cond body, kind = .switch cond body → ∀ part ∈ unit.switchParts body, ∀ around,
      (lower part).Runs last sem limit around (run around part))
    (around : Surroundings) (ty : Option TypeId) :
    (lowerStmtKind unit lower id ty kind).Runs last sem limit around
      (execKind sem unit last.texts limit run around kind) := by
  cases kind with
  | block body => exact runs_lowerList fun part hpart => hparts part hpart around
  | declare name init =>
    have hsimple : (StmtKind.declare name init).IsSimple := trivial
    obtain ⟨ev, hrefines, hexec⟩ := exists_refines_of_isSimple unit limit hfinal hmoves hsimple
    rw [hexec]
    exact (hrefines lower id ty).runs
  | expr value => exact (refines_discard hfinal hmoves value).runs
  | ret value => exact runs_lowerReturn hfinal hmoves value
  | conditional cond thenBody elseBody =>
    refine runs_lowerConditional hfinal hmoves (hparts thenBody List.mem_cons_self around) fun part hpart => ?_
    exact hparts part (List.mem_cons_of_mem _ (Option.mem_toList.mpr hpart)) around
  | whileLoop cond body => exact runs_lowerWhile hfinal hmoves (hparts body List.mem_cons_self .loop)
  | doLoop body cond => exact runs_lowerDo hfinal hmoves (hparts body List.mem_cons_self .loop)
  | forLoop init cond incr body =>
    refine runs_lowerFor hfinal hmoves ?_ fun part hpart => ?_
    · cases init with
      | none => exact refines_nothing _ _
      | some start => exact hstart start rfl
    · exact hparts part (List.mem_append_right _ (Option.mem_toList.mpr hpart)) .loop
  | switch cond body =>
    exact runs_lowerSwitch hfinal hmoves fun part hpart => hswitch cond body rfl part hpart _
  | breakJump => exact runs_jumpToInnermost hfinal (fun _ => Inside.breaks) fun _ _ _ _ hc => hc
  | continueJump => exact runs_jumpToInnermost hfinal (fun _ => Inside.continues) fun _ _ _ _ hc => hc
  | assertion cond =>
    cases cond with
    | none => exact runs_nothing
    | some cond => exact runs_lowerAssertion hfinal hmoves cond
  | error => exact (refines_nop hfinal hmoves).runs
  | caseLabel | defaultLabel | empty => exact runs_nothing
  | goto | label => exact absurd trivial hkind

end Nodes

/-- The statements directly in a structured switch are structured. -/
theorem Structured.switchParts {body : StmtId} (h : unit.Structured body) :
    ∀ part ∈ unit.switchParts body, unit.Structured part := by
  intro part hpart
  unfold SourceUnit.switchParts at hpart
  split at hpart
  · rename_i parts hkind
    obtain ⟨hnode, _, _, hparts⟩ := h
    rw [kind?, hnode, Option.map_some, Option.some.injEq] at hkind
    rw [hkind] at hparts
    exact hparts part hpart
  · rw [List.mem_singleton.mp hpart]
    exact h

theorem runs_lowerStmtWithin (hfinal : last.Final) (hmoves : sem.Moves) (unit : SourceUnit) (limit depth : Nat)
    (around : Surroundings) {id : StmtId} (h : unit.Structured id) :
    (unit.lowerStmtWithin depth id).Runs last sem limit around
      (unit.execWithin sem last.texts limit depth around id) := by
  induction depth generalizing around id with
  | zero =>
    intro s u s' hok
    cases hok
  | succ depth ih =>
    obtain ⟨hnode, hkind, hstart, hparts⟩ := h
    rw [lowerStmtWithin_succ hnode, execWithin_succ hnode]
    refine Runs.withLine (runs_lowerStmtKind hfinal hmoves ?_ hkind ?_ ?_ around _) _
    · exact fun part hpart around => ih around (hparts part hpart)
    · intro start hmem
      obtain ⟨_, hnode', hsimple⟩ := hstart start hmem
      exact refines_lowerStart hfinal hmoves hnode' hsimple .loop
    · intro cond body heq part hpart around
      rw [heq] at hparts
      exact ih around ((hparts body List.mem_cons_self).switchParts part hpart)

/-- A lowered statement does what the statement does. -/
theorem runs_lowerStmt (hfinal : last.Final) (hmoves : sem.Moves) (unit : SourceUnit) (limit : Nat)
    (around : Surroundings) {id : StmtId} (h : unit.Structured id) :
    (unit.lowerStmt id).Runs last sem limit around (unit.exec sem last.texts limit around id) :=
  unit.runs_lowerStmtWithin hfinal hmoves limit _ around h

/-- Actions that change nothing change nothing one after the other. -/
theorem eq_of_forM {α : Type} {act : α → LowerM PUnit} {xs : List α}
    (h : ∀ a ∈ xs, ∀ s u s', act a s = .ok (u, s') → s' = s) {s s' : Lowering} {u : PUnit}
    (hok : xs.forM act s = .ok (u, s')) : s' = s := by
  induction xs generalizing s with
  | nil =>
    cases hok
    rfl
  | cons a xs ih =>
    obtain ⟨_, s₁, hfirst, hrest⟩ := exists_of_bind hok
    obtain rfl := h a List.mem_cons_self s _ s₁ hfirst
    exact ih (fun b hb => h b (List.mem_cons_of_mem _ hb)) hrest

/-- Structured code has no labels to make blocks for. -/
theorem eq_of_createLabelsWithin {depth : Nat} {id : StmtId} (h : unit.Structured id) {s s' : Lowering}
    {u : Unit} (hok : unit.createLabelsWithin depth id s = .ok (u, s')) : s' = s := by
  induction depth generalizing id s s' u with
  | zero => cases hok
  | succ depth ih =>
    cases h with
    | @mk _ node hnode hkind _ hparts =>
      have hstmt : unit.stmt id = .ok node := require_eq_ok_iff.mpr hnode
      rw [createLabelsWithin, lift_bind_apply, hstmt] at hok
      simp only [Except.bind] at hok
      generalize node.kind = kind at hkind hparts hok
      cases kind with
      | label => exact absurd trivial hkind
      | _ => exact eq_of_forM (fun part hpart s u s' => ih (hparts part hpart)) hok

-- ════════════════════════════════════════════════════════════════════════
-- Parameters
-- ════════════════════════════════════════════════════════════════════════

theorem vars_declare {f : Function} (hf : ∀ var ∈ f.vars, var.isParam = true) (own : Name) (ty : TypeId) :
    (∀ var ∈ (f.declareParam own ty).2.vars, var.isParam = true) ∧
      ∀ name, (∃ var ∈ (f.declareParam own ty).2.vars, var.name = name) ↔
        (∃ var ∈ f.vars, var.name = name) ∨ own = name := by
  have hmark : ∀ var : Variable,
      (if var.name = own then { var with isParam := true } else var).name = var.name := by
    intro var
    split <;> rfl
  have hnames : ∀ name, (∃ var ∈ (f.declareParam own ty).2.vars, var.name = name) ↔
      ∃ var ∈ (f.varLookup own (some ty)).2.vars, var.name = name := by
    intro name
    simp only [Function.declareParam, List.mem_map, exists_exists_and_eq_and, hmark]
  obtain ⟨old, hold, rfl, heq⟩ | ⟨hnew, heq⟩ := varLookup_cases f own (some ty)
  · refine ⟨fun var hvar => ?_, fun name => ?_⟩
    · simp only [Function.declareParam, heq, List.mem_map] at hvar
      obtain ⟨var', hvar', rfl⟩ := hvar
      split
      · rfl
      · exact hf var' hvar'
    · rw [hnames, heq]
      exact ⟨.inl, fun h => h.elim id fun hname => ⟨old, hold, hname⟩⟩
  · refine ⟨fun var hvar => ?_, fun name => ?_⟩
    · simp only [Function.declareParam, heq, List.mem_map] at hvar
      obtain ⟨var', hvar', rfl⟩ := hvar
      split
      · rfl
      · rename_i hne
        obtain hvar' | hvar' := List.mem_append.mp hvar'
        · exact hf var' hvar'
        · rw [List.mem_singleton.mp hvar'] at hne
          exact absurd rfl hne
    · rw [hnames, heq]
      simp [or_and_right, exists_or]

/-- Declaring a parameter enters its variable, if it holds something. -/
theorem vars_declareParam {f f' : Function} {param : ParamDecl} (h : unit.declareParam f param = .ok f')
    (hf : ∀ var ∈ f.vars, var.isParam = true) : (∀ var ∈ f'.vars, var.isParam = true) ∧
      ∀ name, (∃ var ∈ f'.vars, var.name = name) ↔
        (∃ var ∈ f.vars, var.name = name) ∨ unit.isParam name param = true := by
  rw [declareParam] at h
  simp only [isParam]
  cases hname : param.name with
  | none =>
    simp only [hname, Except.ok.injEq] at h
    subst h
    simpa using hf
  | some own =>
    simp only [hname] at h
    obtain ⟨ty, hty, h⟩ := bind_eq_ok.mp h
    cases hvoid : ty.isVoid with
    | true =>
      rw [hvoid] at h
      cases h
      simpa [hty, hvoid, Except.toOption] using hf
    | false =>
      rw [hvoid] at h
      cases h
      simpa [hty, hvoid, Except.toOption] using vars_declare hf own param.ty

theorem vars_declareParams {params : List ParamDecl} {f f' : Function}
    (h : params.foldlM unit.declareParam f = .ok f') (hf : ∀ var ∈ f.vars, var.isParam = true) :
    (∀ var ∈ f'.vars, var.isParam = true) ∧
      ∀ name, (∃ var ∈ f'.vars, var.name = name) ↔
        (∃ var ∈ f.vars, var.name = name) ∨ params.any (unit.isParam name) = true := by
  induction params generalizing f with
  | nil =>
    cases h
    simpa using hf
  | cons param params ih =>
    rw [List.foldlM_cons] at h
    obtain ⟨f₁, hfirst, hrest⟩ := bind_eq_ok.mp h
    obtain ⟨hparams₁, hnames₁⟩ := vars_declareParam hfirst hf
    obtain ⟨hparams, hnames⟩ := ih hrest hparams₁
    refine ⟨hparams, fun name => ?_⟩
    rw [hnames, hnames₁, List.any_cons, Bool.or_eq_true, or_assoc]

/-- Before its body is lowered, the variables of a function are its parameters. -/
theorem vars_enterFunction {decl : FunctionDecl} {fn : Function} (h : unit.enterFunction decl = .ok fn) :
    (∀ var ∈ fn.vars, var.isParam = true) ∧
      (∀ name, (∃ var ∈ fn.vars, var.name = name) ↔ decl.params.any (unit.isParam name) = true) ∧
      fn.label? fn.entry = some "entry" := by
  obtain ⟨f, hfold, h⟩ := bind_eq_ok.mp h
  cases h
  obtain ⟨hparams, hnames⟩ := vars_declareParams hfold (by simp)
  refine ⟨hparams, fun name => ?_, ?_⟩
  · simpa using hnames name
  · simp [Function.label?]

-- ════════════════════════════════════════════════════════════════════════
-- Calls
-- ════════════════════════════════════════════════════════════════════════

end SourceUnit

namespace Lowering

variable {avail : Avail} {s : Lowering} {fn : Function}

/-- Behind the instructions of a block that is still open the function returns nothing. -/
theorem Sound.resume_open (h : s.Sound avail) (hopen : s.IsOpen) (sem : Semantics V S) (regs : Reg → V)
    (ext : S) : s.finished.resume sem s.current (s.fn.code s.current).length regs ext =
      .returned sem.nothing ext := by
  obtain ⟨block, hblock⟩ := Function.exists_getElem?_blocks h.current
  have hterm : block.isTerminated = false :=
    Bool.eq_false_iff.mpr fun hterm => hopen ((Function.isTerminated_iff hblock).mp hterm)
  have hcode : (s.finished.code s.current)[(s.fn.code s.current).length]? =
      some (s.aligned s.current (.ret .none s.fn.line)) := by
    rw [h.code_finished, Function.code_closeBlocks, Function.closing, hblock]
    simp [hterm]
  rw [Function.resume_terminator hcode rfl]
  rfl

/-- At the start of a call the registers of the variables hold what the variables hold: the parameters
their arguments, and all others zero. -/
theorem Sound.agrees_enter (h : s.Sound avail) (hparams : ∀ var ∈ fn.vars, var.isParam = true)
    (hvars : ∃ new, s.fn.vars = fn.vars ++ new ∧ ∀ var ∈ new, var.isParam = false)
    {isParam : Name → Bool} (hnames : ∀ name, (∃ var ∈ fn.vars, var.name = name) ↔ isParam name = true)
    (args : Name → V) : s.finished.Agrees
      (Function.initialRegs sem ((s.finished.vars.filter (·.isParam)).map fun var => (var.reg, var.name)) args)
      (fun name => if isParam name then args name else sem.zero) := by
  intro var hvar
  have hapart : s.finished.VarsApart := h.lowered.vars
  rw [hapart.initialRegs_eq hvar]
  rw [vars_finished] at hvar
  beta_reduce
  obtain ⟨new, hsplit, hnew⟩ := hvars
  have hname : ∀ other ∈ s.fn.vars, other.name = var.name → other = var := fun other hother heq =>
    List.inj_on_of_nodup_map h.names hother hvar heq
  cases hparam : var.isParam with
  | true =>
    have hmem : var ∈ fn.vars := by
      rw [hsplit] at hvar
      refine (List.mem_append.mp hvar).resolve_right fun hvar => ?_
      rw [hnew var hvar] at hparam
      cases hparam
    rw [if_pos rfl, if_pos ((hnames var.name).mp ⟨var, hmem, rfl⟩)]
  | false =>
    have hnot : ¬ isParam var.name = true := by
      intro hname'
      obtain ⟨other, hother, heq⟩ := (hnames var.name).mpr hname'
      obtain rfl := hname other (by rw [hsplit]; exact List.mem_append_left _ hother) heq
      rw [hparams other hother] at hparam
      cases hparam
    rw [if_neg Bool.false_ne_true, if_neg hnot]

end Lowering

/-- What a run of a function from the given place on yields: it returns a value, or it has not returned
after at least `rounds` blocks. -/
def Function.Yields (f : Function) (sem : Semantics V S) (rounds : Nat) (start : Config V S) :
    Option V → S → Prop
  | some value, ext => f.Leads sem start (.returned value ext)
  | none, ext => ∃ n, rounds ≤ n ∧ ∃ b source regs, f.run sem n start = .running b source regs ext

/-- The value that a body returns which ends so, if it has ended. -/
def Completion.value? (sem : Semantics V S) : Completion V → Option V
  | .returns value => some value
  | .unfinished => none
  | .normal | .breaks | .continues => some sem.nothing

/-- When the body has ended, so has the call. -/
theorem Lowering.Sound.yields_of_ends {avail : Avail} {s last : Lowering} (h : last.Sound avail)
    (hbreaks : s.breakTargets = []) (hcontinues : s.continueTargets = []) {rounds : Nat}
    {start c : Config V S} {done : Completion V} {mem : Memory V S}
    (hleads : last.finished.Leads sem start c)
    (hends : last.finished.Ends sem rounds (s.exits last last sem) done c mem) :
    last.finished.Yields sem rounds start (done.value? sem) mem.ext := by
  cases done with
  | normal =>
    obtain ⟨regs, _, hopen, _, rfl⟩ := hends
    rw [h.resume_open hopen] at hleads
    exact hleads
  | breaks =>
    obtain ⟨_, _, _, htarget, _⟩ := hends
    rw [hbreaks] at htarget
    cases htarget
  | continues =>
    obtain ⟨_, _, _, htarget, _⟩ := hends
    rw [hcontinues] at htarget
    cases htarget
  | returns value =>
    cases hends
    exact hleads
  | unfinished =>
    obtain ⟨n, hn, hrun⟩ := hends
    obtain ⟨m, rfl⟩ := hleads
    refine ⟨m + n, Nat.le_add_left_of_le hn, ?_⟩
    rw [Function.run_add]
    exact hrun

namespace SourceUnit

variable {decl : FunctionDecl} {body : StmtId} {f : Function} {texts texts' : Interner}

/-- What the variables hold at the start of a call. -/
def startVars (unit : SourceUnit) (sem : Semantics V S) (decl : FunctionDecl) (args : Name → V) : Name → V :=
  fun name => if decl.params.any (unit.isParam name) then args name else sem.zero

/-- A call gives what its body gives. -/
theorem callWithin_eq {rounds : Nat} {args : Name → V} {ext : S} {done : Completion V} {mem : Memory V S}
    (hbody : decl.body = some body)
    (h : unit.exec sem texts rounds {} body ⟨unit.startVars sem decl args, ext⟩ = some (done, mem)) :
    unit.callWithin sem texts rounds decl args ext = some (done.value? sem, mem.ext) := by
  rw [callWithin, hbody]
  refine (congrArg (Option.bind · _) h).trans ?_
  cases done <;> rfl

/-- The state in which the lowering of a structured body starts, and that in which it ends. -/
theorem exists_lowered (hbody : decl.body = some body) (hstructured : unit.Structured body)
    (hlower : unit.lowerFunction texts decl = .ok (some f, texts')) :
    ∃ fn last, unit.enterFunction decl = .ok fn ∧
      Sound (fun _ _ => False) { fn, texts, current := fn.entry, line := decl.line } ∧
      (∀ b, fn.code b = []) ∧
      unit.lowerStmt body { fn, texts, current := fn.entry, line := decl.line } = .ok ((), last) ∧
      last.Final ∧ last.finished = f ∧ last.texts = texts' := by
  obtain ⟨_, fn, last, avail, hbody', hfn, hstart, hcode, hrun, hsound, hf, htexts⟩ :=
    unit.exists_lowerBody hlower
  obtain rfl := Option.some.inj (hbody.symm.trans hbody')
  obtain ⟨_, s₁, hlabels, hstmt⟩ := exists_of_bind hrun
  obtain rfl := eq_of_createLabelsWithin hstructured hlabels
  exact ⟨fn, last, hfn, hstart, hcode, hstmt, ⟨avail, hsound⟩, hf, htexts⟩

/-- What the interpreter gives for a call, a run of the lowered function yields. -/
theorem call_inStep (hbody : decl.body = some body) (hstructured : unit.Structured body)
    (hlower : unit.lowerFunction texts decl = .ok (some f, texts')) (hmoves : sem.Moves) (rounds : Nat)
    (args : Name → V) (ext : S) : ∃ result ext',
      unit.callWithin sem texts' rounds decl args ext = some (result, ext') ∧
        f.Yields sem rounds (f.enter sem args ext) result ext' := by
  obtain ⟨fn, last, hfn, hstart, hcode, hstmt, hfinal, rfl, rfl⟩ :=
    exists_lowered hbody hstructured hlower
  obtain ⟨avail, hsound⟩ := hfinal.sound
  obtain ⟨hparams, hnames, hlabel⟩ := unit.vars_enterFunction hfn
  let s : Lowering := { fn, texts, current := fn.entry, line := decl.line }
  obtain ⟨hsteps, hdoes⟩ := runs_lowerStmt hfinal hmoves unit rounds {} hstructured s () last hstmt
    ⟨hstart.current, hstart.vars.lt⟩ ⟨rfl, rfl⟩
  have hlast : s.Extends 0 last := hsteps.extendsLast (.refl 0 last)
  -- The machine gets into the entry, where it is in step with the interpreter.
  let regs := Function.initialRegs sem
    ((last.finished.vars.filter (·.isParam)).map fun var => (var.reg, var.name)) args
  have hagrees : last.finished.Agrees regs (unit.startVars sem decl args) := by
    obtain ⟨new, hvars, hnew⟩ := hlast.vars
    exact hsound.agrees_enter hparams ⟨new, hvars, fun var hvar => (hnew var hvar).2.2⟩ hnames args
  have henter : last.finished.Leads sem (last.finished.enter sem args ext)
      (last.finished.resume sem fn.entry 0 regs ext) := by
    have hentry : last.finished.entry = fn.entry := by
      rw [entry_finished, hsound.entry]
      exact hstart.entry.symm
    refine .of_step ?_
    rw [Function.enter, hentry]
    exact hfinal.step_enter hlast hstart.current (hcode _) (by rw [hlabel]; decide)
  obtain ⟨done, mem, c, hexec, hleads, hends⟩ := hdoes (.refl 0 last) _ ⟨_, ext⟩
    ⟨regs, hagrees, isOpen_of_code (hcode _), by simp, by rw [hcode]⟩
  exact ⟨_, _, callWithin_eq hbody hexec, hsound.yields_of_ends rfl rfl (henter.trans hleads) hends⟩

/-- Lowering keeps the meaning of structured code. A run of a lowered function returns a value and leaves
the world outside in a state exactly when the interpreter says so, for some number of rounds. The
interpreter always gives something, and where its loops use up their rounds, the machine has not returned
either after at least as many blocks, and has left the world outside in the same state. -/
theorem lowerFunction_meaning (unit : SourceUnit) (texts texts' : Interner) (decl : FunctionDecl)
    (body : StmtId) (f : Function) (hbody : decl.body = some body) (hstructured : unit.Structured body)
    (hlower : unit.lowerFunction texts decl = .ok (some f, texts')) {V S : Type} (sem : Semantics V S)
    (hmoves : sem.Moves) (args : Name → V) (ext : S) :
    (∀ value ext', (∃ n, f.run sem n (f.enter sem args ext) = .returned value ext') ↔
      ∃ rounds, unit.callWithin sem texts' rounds decl args ext = some (some value, ext')) ∧
    ∀ rounds, ∃ result ext', unit.callWithin sem texts' rounds decl args ext = some (result, ext') ∧
      (result = none → ∃ n, rounds ≤ n ∧
        ∃ b source regs, f.run sem n (f.enter sem args ext) = .running b source regs ext') := by
  have hcall := fun rounds => call_inStep hbody hstructured hlower hmoves rounds args ext
  refine ⟨fun value ext' => ⟨?_, ?_⟩, fun rounds => ?_⟩
  · rintro ⟨n, hn⟩
    have hreturned : ∀ m, n ≤ m → f.run sem m (f.enter sem args ext) = .returned value ext' := by
      intro m hm
      obtain ⟨k, rfl⟩ := Nat.exists_eq_add_of_le hm
      rw [Function.run_add, hn, Function.run_returned]
    obtain ⟨result, ext'', heq, hyields⟩ := hcall n
    cases result with
    | none =>
      obtain ⟨m, hm, b, source, regs, hrun⟩ := hyields
      rw [hreturned m hm] at hrun
      cases hrun
    | some value' =>
      obtain ⟨m, hm⟩ := hyields
      have hlater : f.run sem (m + n) (f.enter sem args ext) = .returned value' ext'' := by
        rw [Function.run_add, hm, Function.run_returned]
      rw [hreturned (m + n) (Nat.le_add_left n m)] at hlater
      cases hlater
      exact ⟨n, heq⟩
  · rintro ⟨rounds, hrounds⟩
    obtain ⟨result, ext'', heq, hyields⟩ := hcall rounds
    rw [hrounds] at heq
    cases heq
    exact hyields
  · obtain ⟨result, ext', heq, hyields⟩ := hcall rounds
    refine ⟨result, ext', heq, ?_⟩
    rintro rfl
    exact hyields

end SourceUnit

/-- The function that counts down has no labels. -/
theorem countdown_structured : countdownUnit.Structured 3 := by
  have hstep : countdownUnit.Structured 0 := .mk (Array.getElem?_eq_getElem (by decide)) not_false nofun nofun
  have hret : countdownUnit.Structured 2 := .mk (Array.getElem?_eq_getElem (by decide)) not_false nofun nofun
  have hloop : countdownUnit.Structured 1 := by
    refine .mk (Array.getElem?_eq_getElem (by decide)) not_false nofun fun part hpart => ?_
    rw [List.mem_singleton.mp hpart]
    exact hstep
  refine .mk (Array.getElem?_eq_getElem (by decide)) not_false nofun fun part hpart => ?_
  obtain rfl | hpart := List.mem_cons.mp hpart
  · exact hloop
  · rw [List.mem_singleton.mp hpart]
    exact hret

/-- Called with `3`, the function that counts down returns `0` after three rounds. -/
theorem countdown_returns : ∃ f texts, countdownUnit.lowerFunction {} countdownDecl = .ok (some f, texts) ∧
    ∃ n, f.run wholeNumbers n (f.enter wholeNumbers (fun _ => 3) ()) = .returned 0 () := by
  obtain ⟨f, texts, hlower⟩ := countdown_lowers
  have hmoves : wholeNumbers.Moves := ⟨fun _ _ _ _ => rfl, fun _ _ _ _ => rfl, fun _ _ _ _ => rfl⟩
  have hmeaning := countdownUnit.lowerFunction_meaning {} texts countdownDecl 3 f rfl
    countdown_structured hlower wholeNumbers hmoves (fun _ => 3) ()
  exact ⟨f, texts, hlower, (hmeaning.1 0 ()).mpr ⟨3, by rfl⟩⟩

end MiddleEnd
