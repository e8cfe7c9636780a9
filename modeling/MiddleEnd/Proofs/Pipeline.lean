import MiddleEnd.Pipeline
import MiddleEnd.Proofs.Dataflow.Reaching
import MiddleEnd.Proofs.Lowering.Texts
import MiddleEnd.Proofs.SSA.Validity

/-!
# The pipeline always succeeds

Every unit that was built can be compiled, with any options, and the check for single assignment form
accepts what the conversion makes. Only the choice of that form has an influence on the program.

## Main definitions

* `Function.Sent`: what one stage of the pipeline hands to the next about a function.
* `Function.converted`: the function in single assignment form.

## Main statements

* `SourceUnit.WellFormed.lower_eq`: lowering a well-formed unit succeeds.
* `SourceUnit.constructProgram_eq`: converting what was lowered succeeds, checked or not.
* `SourceUnit.compile_total`: the pipeline succeeds.
-/

namespace MiddleEnd

open Lowering

/-- The function was lowered, and its texts are in the tables. -/
structure Function.Sent (unit : SourceUnit) (texts : Interner) (f : Function) : Prop where
  lowered : ∃ avail, f.Lowered avail
  listable : f.Listable ⟨unit.names, texts⟩

-- ════════════════════════════════════════════════════════════════════════
-- Lowering
-- ════════════════════════════════════════════════════════════════════════

theorem Function.Listable.declareParam {f : Function} {tables : Tables} (h : f.Listable tables)
    {name : Name} (hname : name < tables.names.size) (ty : TypeId) :
    (f.declareParam name ty).2.Listable tables := by
  have hlookup : (f.varLookup name (some ty)).2.Listable tables := by
    obtain ⟨var, _, _, heq⟩ | ⟨_, heq⟩ := varLookup_cases f name (some ty)
    · rw [heq]
      exact h
    · rw [heq]
      refine ⟨h.name, h.params, fun var hvar => ?_, h.code⟩
      obtain hvar | hvar := List.mem_append.mp hvar
      · exact h.vars var hvar
      · rw [List.mem_singleton.mp hvar]
        exact hname
  refine ⟨hlookup.name, fun param hparam => ?_, fun var hvar => ?_, hlookup.code⟩
  · obtain hparam | hparam := List.mem_append.mp hparam
    · exact hlookup.params param hparam
    · rw [List.mem_singleton.mp hparam]
      exact hname
  · obtain ⟨old, hold, rfl⟩ := List.mem_map.mp hvar
    split
    · exact hlookup.vars old hold
    · exact hlookup.vars old hold

/-- Finishing a function brings in no texts. -/
theorem Lowering.Sound.listable_finished {s : Lowering} {avail : Avail} {unit : SourceUnit}
    (h : s.Sound avail) (hlist : s.Listable unit) : s.finished.Listable ⟨unit.names, s.texts⟩ := by
  obtain ⟨_, heq⟩ := s.finished_eq
  refine ⟨by rw [heq]; exact hlist.name, by rw [heq]; exact hlist.params,
    by rw [heq]; exact hlist.vars, fun b j hj => ?_⟩
  obtain ⟨i, hi, rfl⟩ := h.mem_code_finished hj
  have hlisted : i.Listed ⟨unit.names, s.texts⟩ := by
    rcases hi with hi | rfl
    · exact hlist.code b i hi
    · intro operand hop
      rcases Instr.mem_operands.mp hop with rfl | rfl | rfl | ⟨arg, harg, _⟩
      · trivial
      · trivial
      · trivial
      · cases harg
  intro operand hop
  refine hlisted operand (Instr.mem_operands.mpr ?_)
  rcases Instr.mem_operands.mp hop with rfl | rfl | rfl | ⟨arg, harg, rfl⟩
  · exact .inl (by simp [aligned])
  · exact .inr (.inl (by simp [aligned]))
  · exact .inr (.inr (.inl (by simp [aligned])))
  · rw [aligned, Instr.phiArgs_mapPhiArgs _ _ (alignArgs_nil _)] at harg
    exact .inr (.inr (.inr ⟨arg, (List.mergeSort_perm _ _).mem_iff.mp harg, rfl⟩))

namespace SourceUnit.WellFormed

variable {unit : SourceUnit} {decl : FunctionDecl}

/-- The parameters of a known function can be declared. -/
theorem enterFunction_eq (hdecl : unit.KnowsItem (.function decl)) (texts : Interner) :
    ∃ fn, unit.enterFunction decl = .ok fn ∧ fn.Listable ⟨unit.names, texts⟩ := by
  obtain ⟨hname, hparams, _⟩ := hdecl
  have hdeclare : ∀ f : Function, f.Listable ⟨unit.names, texts⟩ → ∀ param ∈ decl.params,
      ∃ f', unit.declareParam f param = .ok f' ∧ f'.Listable ⟨unit.names, texts⟩ := by
    intro f hlist param hparam
    obtain ⟨hty, hknown⟩ := hparams param hparam
    have hget : unit.types.get param.ty = .ok unit.types.entries[param.ty] := by
      rw [TypeTable.get, Array.getElem?_eq_getElem hty, require_some]
    unfold declareParam
    split
    · exact ⟨f, rfl, hlist⟩
    · rename_i name hparamName
      rw [hget, ok_bind]
      split
      · exact ⟨f, rfl, hlist⟩
      · exact ⟨_, rfl, hlist.declareParam (hknown name hparamName) param.ty⟩
  obtain ⟨f, hfold, hlist⟩ := foldlM_induction unit.declareParam
    (fun _ f => f.Listable ⟨unit.names, texts⟩) decl.params
    { name := decl.name, line := decl.line, returnType := some decl.returnType }
    ⟨hname, nofun, nofun, fun b i hi => by simp [Function.code] at hi⟩
    fun pre param post f hsplit hlist => hdeclare f hlist param (by rw [hsplit]; simp)
  refine ⟨{ (f.newBlock (some "entry")).2 with entry := f.blocks.size }, ?_, hlist.name, hlist.params,
    hlist.vars, fun b i hi => hlist.code b i ?_⟩
  · rw [enterFunction, hfold, ok_bind]
    rfl
  · rw [← Function.code_grown f "entry"]
    exact hi

/-- Lowering a known function of a well-formed unit succeeds. -/
theorem lowerFunction_eq (hunit : unit.WellFormed) (hdecl : unit.KnowsItem (.function decl))
    (texts : Interner) : ∃ f texts', unit.lowerFunction texts decl = .ok (f, texts') ∧
      texts.size ≤ texts'.size ∧ ∀ fn ∈ f, fn.Sent unit texts' := by
  unfold lowerFunction
  split
  · exact ⟨none, texts, rfl, Nat.le_refl _, nofun⟩
  · rename_i body hbody
    obtain ⟨fn, hfn, hlist⟩ := enterFunction_eq hdecl texts
    have hentered := unit.ensured_enterFunction decl texts decl.line
    rw [hfn] at hentered ⊢
    obtain ⟨hsound, hcode⟩ := hentered
    obtain ⟨_, final, hlower, ⟨avail, hfinal⟩, hfinalList, hle⟩ :=
      (unit.ensures_lowerBody hsound (isOpen_of_code (hcode _)) body).exists_eq_ok
        (hunit.serves_lowerBody (hdecl.2.2 body hbody)) hlist
    refine ⟨some final.finished, final.texts, ?_, hle, ?_⟩
    · have hrun : (unit.lowerBody body).run { fn, texts, current := fn.entry, line := decl.line } =
          .ok ((), final) := hlower
      rw [ok_bind]
      exact bind_eq_ok.mpr ⟨_, hrun, rfl⟩
    · rintro f ⟨⟩
      exact ⟨⟨avail, hfinal.lowered⟩, hfinal.listable_finished hfinalList⟩

/-- A known global variable can be lowered. -/
theorem succeeds_lowerGlobal {decl : GlobalDecl} (hdecl : unit.KnowsItem (.global decl)) :
    Succeeds (unit.lowerGlobal decl) := by
  unfold lowerGlobal
  cases hinit : decl.init with
  | none => exact succeeds_ok _
  | some id =>
    have hlt : id < unit.exprs.size := hdecl.2 id hinit
    have hexpr : unit.expr id = .ok unit.exprs[id] := by
      rw [expr, Array.getElem?_eq_getElem hlt, require_some]
    simp only [hexpr, ok_bind]
    split <;> exact succeeds_ok _

/-- Lowering a known item of a well-formed unit succeeds, and keeps what was lowered before. -/
theorem lowerItem_eq (hunit : unit.WellFormed) {item : Item} (hitem : unit.KnowsItem item)
    {program : Program} (hprogram : ∀ f ∈ program.functions, f.Sent unit program.texts) :
    ∃ program', unit.lowerItem program item = .ok program' ∧
      ∀ f ∈ program'.functions, f.Sent unit program'.texts := by
  cases item with
  | function decl =>
    obtain ⟨f, texts, hlower, hle, hf⟩ := hunit.lowerFunction_eq hitem program.texts
    refine ⟨{ program with functions := program.functions ++ f.toList, texts }, ?_, fun g hg => ?_⟩
    · rw [lowerItem, hlower]
      rfl
    · rcases List.mem_append.mp hg with hg | hg
      · exact ⟨(hprogram g hg).lowered, (hprogram g hg).listable.mono hle⟩
      · exact hf g (Option.mem_toList.mp hg)
  | global decl =>
    obtain ⟨global, hglobal⟩ := succeeds_lowerGlobal hitem
    refine ⟨{ program with globals := program.globals ++ [global] }, ?_, hprogram⟩
    rw [lowerItem, hglobal]
    rfl

/-- Lowering a well-formed unit succeeds. -/
theorem lower_eq (hunit : unit.WellFormed) : ∃ program, unit.lower = .ok program ∧
    ∀ f ∈ program.functions, f.Sent unit program.texts :=
  foldlM_induction unit.lowerItem (fun _ program => ∀ f ∈ program.functions, f.Sent unit program.texts)
    unit.items {} nofun fun pre item post program hsplit hprogram =>
      hunit.lowerItem_eq (hunit.items item (by rw [hsplit]; simp)) hprogram

end SourceUnit.WellFormed

-- ════════════════════════════════════════════════════════════════════════
-- Conversion and analyses
-- ════════════════════════════════════════════════════════════════════════

/-- The analyses of a function succeed when its blocks carry their positions, its edges agree and it mentions
only registers that were handed out. -/
theorem Function.Linked.succeeds_analyse {f : Function} (h : f.Linked) (hnumbered : f.Numbered)
    (hregs : f.RegsBelow) : Succeeds f.analyse := by
  obtain ⟨_, live, _, _, _, hlive, _⟩ := liveness_exact f hnumbered h.succs_lt hregs
  apply Succeeds.bind ⟨live, hlive⟩
  intro live _
  apply Succeeds.bind ⟨_, reachingDefs_eq hnumbered h⟩
  intro reaching _
  exact succeeds_ok _

/-- The function in single assignment form, or the function itself if it has none. -/
def Function.converted (f : Function) : Function := f.constructSsa.toOption.getD f

/-- The program with all its functions in single assignment form. -/
def Program.converted (program : Program) : Program :=
  { program with functions := program.functions.map Function.converted }

namespace Function.Sent

variable {unit : SourceUnit} {texts : Interner} {f : Function}

theorem succeeds_analyse (h : f.Sent unit texts) : Succeeds f.analyse := by
  obtain ⟨avail, hlow⟩ := h.lowered
  refine hlow.linked.succeeds_analyse hlow.numbered ⟨hlow.below, ?_⟩
  simp [entryRegs, hlow.unversioned]

/-- The conversion of a function that was lowered succeeds and has no violations; it can be listed and
analysed. -/
theorem converted (h : f.Sent unit texts) : f.constructSsa = .ok f.converted ∧
    f.converted.violations = [] ∧ f.converted.Listable ⟨unit.names, texts⟩ ∧
      Succeeds f.converted.analyse := by
  obtain ⟨avail, hlow⟩ := h.lowered
  have hplain := hlow.runnable.toPlain
  obtain ⟨c, g, hconstruct, hvalid⟩ := Function.constructSsa_eq hplain
  have hconverted : f.converted = { g with isSsa := true } := by
    rw [Function.converted, hconstruct]
    rfl
  have hlinked := hvalid.linked hplain
  have hregs := hvalid.regsBelow hlow
  have hlist := hvalid.listable hplain h.listable
  rw [hconverted]
  refine ⟨hconstruct, hvalid.violations_eq_nil hlow, ⟨hlist.name, hlist.params, hlist.vars, hlist.code⟩,
    ?_⟩
  exact Linked.succeeds_analyse (f := { g with isSsa := true })
    ⟨hlinked.succs_lt, hlinked.mem_preds, hlinked.preds_nodup, hlinked.succs_nodup⟩
    ((sameEdges_constructSsa hconstruct).numbered hlow.numbered) ⟨hregs.code, hregs.entry⟩

end Function.Sent

namespace SourceUnit

variable {unit : SourceUnit} {program : Program}

/-- A program whose texts are in the tables can be listed. -/
theorem succeeds_emitIf (h : ∀ f ∈ program.functions, f.Listable ⟨unit.names, program.texts⟩)
    (wanted : Option String) : Succeeds (unit.emitIf program wanted) := by
  cases wanted with
  | none => exact succeeds_ok ""
  | some filter =>
    refine succeeds_joinMap fun f hf => ?_
    apply (Interner.succeeds_name (h f hf).name).bind
    intro name _
    split
    · exact (h f hf).listing
    · exact succeeds_ok ""

/-- Converting a function that was lowered gives its single assignment form, checked or not. -/
theorem constructFunction_eq {texts : Interner} {f : Function} (h : f.Sent unit texts)
    (validate : Bool) : unit.constructFunction validate f = pure f.converted := by
  obtain ⟨hconstruct, hviolations, hlist, _⟩ := h.converted
  obtain ⟨name, hname⟩ := Interner.succeeds_name hlist.name
  rw [constructFunction, hconstruct]
  cases validate with
  | false => rfl
  | true =>
    change (do
      let name ← liftM (unit.names.name f.converted.name)
      unless f.converted.violations.isEmpty do
        throw (.invalidSsa name f.converted.violations)
      return f.converted : ExceptT CompileError (Except Fault) Function) = pure f.converted
    rw [hname, hviolations]
    rfl

/-- Converting what was lowered gives the single assignment form of each function, checked or not. -/
theorem constructProgram_eq (h : ∀ f ∈ program.functions, f.Sent unit program.texts) (validate : Bool) :
    unit.constructProgram validate program = pure program.converted := by
  rw [constructProgram, mapM_eq_pure fun f hf => constructFunction_eq (h f hf) validate, pure_bind]
  rfl

theorem succeeds_analyse (h : ∀ f ∈ program.functions, Succeeds f.analyse) (wanted : Bool) :
    Succeeds (program.analyse wanted) := by
  cases wanted with
  | false => exact succeeds_ok []
  | true => exact succeeds_mapM h

/-- Converting what was lowered succeeds. -/
theorem constructSsa_eq (h : ∀ f ∈ program.functions, f.Sent unit program.texts) :
    program.constructSsa = .ok program.converted := by
  rw [Program.constructSsa, mapM_eq_ok fun f hf => (h f hf).converted.1]
  rfl

/-- A well-formed unit has a lowered program and its conversion, and compiling it gives one of the two,
whatever else is asked for. -/
theorem WellFormed.compile_eq (hunit : unit.WellFormed) : ∃ lowered converted : Program,
    unit.lower = .ok lowered ∧ lowered.constructSsa = .ok converted ∧
      (∀ f ∈ converted.functions, f.violations = []) ∧
      ∀ options : Options, ∃ emitted analyses, unit.compile options = .ok {
        emitted, result := .ok { program := if options.ssa then converted else lowered, analyses } } := by
  obtain ⟨lowered, hlower, hsent⟩ := hunit.lower_eq
  have hconverted : ∀ g ∈ lowered.converted.functions, g.violations = [] ∧
      g.Listable ⟨unit.names, lowered.converted.texts⟩ ∧ Succeeds g.analyse := by
    intro g hg
    obtain ⟨f, hf, rfl⟩ := List.mem_map.mp hg
    exact (hsent f hf).converted.2
  refine ⟨lowered, lowered.converted, hlower, constructSsa_eq hsent, fun g hg => (hconverted g hg).1, ?_⟩
  intro options
  obtain ⟨listed, hlisted⟩ := succeeds_emitIf (fun f hf => (hsent f hf).listable) options.emitIr
  rw [compile, hlower, ok_bind, hlisted, ok_bind]
  cases options.ssa with
  | false =>
    obtain ⟨analyses, hanalyses⟩ := succeeds_analyse
      (fun f hf => (hsent f hf).succeeds_analyse) options.analyses
    refine ⟨listed, analyses, ?_⟩
    exact bind_eq_ok.mpr ⟨analyses, hanalyses, rfl⟩
  | true =>
    obtain ⟨relisted, hrelisted⟩ := succeeds_emitIf (fun g hg => (hconverted g hg).2.1) options.emitSsa
    obtain ⟨analyses, hanalyses⟩ := succeeds_analyse (fun g hg => (hconverted g hg).2.2) options.analyses
    refine ⟨listed ++ relisted, analyses, ?_⟩
    rw [constructProgram_eq hsent]
    refine bind_eq_ok.mpr ⟨_, rfl, bind_eq_ok.mpr ⟨_, hrelisted, ?_⟩⟩
    exact bind_eq_ok.mpr ⟨_, hanalyses, rfl⟩

/-- Every unit that was built compiles with every choice of options: no stage stops with a fault, be it a
number that names nothing, a register that was never handed out in a set of registers, or an instruction after a
terminator; no function is refused, and no violation of single assignment form is reported. What comes out is
what was lowered, or its single assignment form, and the choice between the two depends on no other option. -/
theorem compile_total (unit : SourceUnit) (hunit : unit.Built) (options : Options) :
    ∃ lowered emitted compilation, unit.lower = .ok lowered ∧
      unit.compile options = .ok { emitted, result := .ok compilation } ∧
      (options.ssa = false → compilation.program = lowered) ∧
      (options.ssa = true → lowered.constructSsa = .ok compilation.program ∧
        ∀ f ∈ compilation.program.functions, f.violations = []) ∧
      ∀ options' : Options, options'.ssa = options.ssa → ∃ emitted' compilation',
        unit.compile options' = .ok { emitted := emitted', result := .ok compilation' } ∧
          compilation'.program = compilation.program := by
  obtain ⟨lowered, converted, hlower, hconstruct, hvalid, hcompile⟩ := hunit.wellFormed.compile_eq
  obtain ⟨emitted, analyses, heq⟩ := hcompile options
  refine ⟨lowered, emitted, _, hlower, heq, fun hssa => ?_, fun hssa => ?_, fun options' hsame => ?_⟩
  · rw [hssa]
    rfl
  · rw [if_pos hssa]
    exact ⟨hconstruct, hvalid⟩
  · obtain ⟨emitted', analyses', heq'⟩ := hcompile options'
    rw [hsame] at heq'
    exact ⟨emitted', _, heq', rfl⟩

end SourceUnit

/-- The unit of the function that counts down, node by node. Its only identifier is a part of four other
nodes. -/
theorem countdownUnit_built : countdownUnit.Built := by
  have hempty : (({} : SourceUnit).intern "countdown").2.Built := .intern "countdown" .empty
  have hx := SourceUnit.Built.addExpr (.ident "x") (some TypeTable.int) 1 hempty ⟨nofun, nofun⟩
    (by decide)
  have hone := SourceUnit.Built.addExpr (.int 1) (some TypeTable.int) 1 hx ⟨nofun, nofun⟩ (by decide)
  have hsub := SourceUnit.Built.addExpr (.binary .sub 0 1) (some TypeTable.int) 1 hone
    ⟨by decide +kernel, nofun⟩ (by decide)
  have hassign := SourceUnit.Built.addExpr (.assign 0 2) (some TypeTable.int) 1 hsub
    ⟨by decide +kernel, nofun⟩ (by decide)
  have hstep := SourceUnit.Built.addStmt (.expr 3) none 1 hassign ⟨nofun, by decide +kernel⟩ nofun
  have hloop := SourceUnit.Built.addStmt (.whileLoop 0 0) none 1 hstep
    ⟨by decide +kernel, by decide +kernel⟩ nofun
  have hret := SourceUnit.Built.addStmt (.ret (some 0)) none 1 hloop ⟨nofun, by decide +kernel⟩ nofun
  have hbody := SourceUnit.Built.addStmt (.block [1, 2]) none 1 hret ⟨by decide +kernel, nofun⟩ nofun
  convert hbody using 1
  decide +kernel

/-- The function that counts down is lowered, and compiles to its single assignment form, which is valid, with or
without the check and the analyses. -/
theorem countdown_compiles : ∃ unit : SourceUnit, unit.Built ∧ unit.functions.length = 1 ∧
    ∃ lowered emitted compilation, unit.lower = .ok lowered ∧ lowered.functions.length = 1 ∧
      unit.compile {} = .ok { emitted, result := .ok compilation } ∧
      lowered.constructSsa = .ok compilation.program ∧
      (∀ f ∈ compilation.program.functions, f.violations = []) ∧
      ∃ emitted' compilation', unit.compile { validate := false, analyses := true } =
        .ok { emitted := emitted', result := .ok compilation' } ∧
          compilation'.program = compilation.program := by
  have hbuilt : (countdownUnit.addFunction "countdown" TypeTable.int [(some "x", TypeTable.int)]
      (some 3) 1).Built :=
    .addFunction _ _ _ _ _ countdownUnit_built (by decide) (by decide) (by decide)
  obtain ⟨lowered, emitted, compilation, hlower, hcompile, _, hssa, hsame⟩ :=
    SourceUnit.compile_total _ hbuilt {}
  have hcount : (countdownUnit.addFunction "countdown" TypeTable.int [(some "x", TypeTable.int)]
      (some 3) 1).lower.toOption.map (·.functions.length) = some 1 := by decide +kernel
  rw [hlower] at hcount
  obtain ⟨hconstruct, hvalid⟩ := hssa rfl
  exact ⟨_, hbuilt, by decide +kernel, lowered, emitted, compilation, hlower, Option.some.inj hcount,
    hcompile, hconstruct, hvalid, hsame _ rfl⟩

end MiddleEnd
