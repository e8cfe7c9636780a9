import MiddleEnd.Proofs.Lowering.Depth
import MiddleEnd.Proofs.Pipeline

/-!
# Sessions with a builder

A session makes one unit by calls in any order. Each call is handed only numbers that earlier calls of the
same session handed out. Whatever the order, no node of the unit is a part of itself, and everything that
follows the numbers in the unit ends and finds what it looks for.

## Main definitions

* `Builder.Call`, `Builder.perform`: the calls, and what they do.
* `Builder.Session`: what a session has handed out, and what it has made.

## Main statements

* `SourceUnit.Built.allocExpr`, `SourceUnit.Built.allocStmt`: entering a node is a way of building.
* `Builder.perform_spec`: a call with known numbers succeeds and hands out a number that names something.
* `Builder.session_acyclic`: what a session makes is acyclic, and can be followed to its end.

## Design notes

A node that is entered as it is has numbers for its names, while the forms that a builder is asked for have
texts. No text has two numbers, so replacing the numbers by their texts and entering these again gives the
same node.
-/

namespace MiddleEnd

-- ════════════════════════════════════════════════════════════════════════
-- Nodes that are entered as they are
-- ════════════════════════════════════════════════════════════════════════

/-- The form with its name replaced. -/
def ExprKind.mapName {ν μ : Type} (f : ν → μ) : ExprKind ν → ExprKind μ
  | .int value => .int value
  | .float value => .float value
  | .text value => .text value
  | .ident name => .ident (f name)
  | .binary op lhs rhs => .binary op lhs rhs
  | .unary op operand => .unary op operand
  | .cast target operand => .cast target operand
  | .index array position => .index array position
  | .member base field arrow => .member base (f field) arrow
  | .call callee args => .call (f callee) args
  | .assign target value => .assign target value
  | .initList elements => .initList elements
  | .error => .error

/-- The form with its name replaced. -/
def StmtKind.mapName {ν μ : Type} (f : ν → μ) : StmtKind ν → StmtKind μ
  | .block body => .block body
  | .declare name init => .declare (f name) init
  | .expr value => .expr value
  | .ret value => .ret value
  | .conditional cond thenBody elseBody => .conditional cond thenBody elseBody
  | .whileLoop cond body => .whileLoop cond body
  | .doLoop body cond => .doLoop body cond
  | .forLoop init cond incr body => .forLoop init cond incr body
  | .switch cond body => .switch cond body
  | .caseLabel value => .caseLabel value
  | .defaultLabel => .defaultLabel
  | .breakJump => .breakJump
  | .continueJump => .continueJump
  | .goto target => .goto (f target)
  | .label name => .label (f name)
  | .assertion cond => .assertion cond
  | .empty => .empty
  | .error => .error

theorem ExprKind.refs_mapName {ν μ : Type} (f : ν → μ) (kind : ExprKind ν) :
    (kind.mapName f).refs = kind.refs := by
  cases kind <;> rfl

theorem StmtKind.refs_mapName {ν μ : Type} (f : ν → μ) (kind : StmtKind ν) :
    (kind.mapName f).refs = kind.refs := by
  cases kind <;> rfl

namespace SourceUnit

variable {unit : SourceUnit}

theorem internExpr_mapName {f : Name → String} {kind : ExprKind Name}
    (h : ∀ name ∈ kind.name?, unit.intern (f name) = (name, unit)) :
    unit.internExpr (kind.mapName f) = (kind, unit) := by
  cases kind with
  | ident name | member _ name _ | call name _ => simp only [ExprKind.mapName, internExpr, h name rfl]
  | _ => rfl

theorem internStmt_mapName {f : Name → String} {kind : StmtKind Name}
    (h : ∀ name ∈ kind.name?, unit.intern (f name) = (name, unit)) :
    unit.internStmt (kind.mapName f) = (kind, unit) := by
  cases kind with
  | declare name _ | goto name | label name => simp only [StmtKind.mapName, internStmt, h name rfl]
  | _ => rfl

/-- The text of a name that is known. -/
def nameText (unit : SourceUnit) (name : Name) : String := (unit.names.get? name).getD ""

namespace Built

/-- In a unit that was built no name was entered twice. -/
theorem distinct (h : unit.Built) : unit.names.Distinct := by
  induction h with
  | empty => exact .empty
  | intern text _ ih => exact ih.intern text
  | addType _ _ _ ih => exact ih
  | @addExpr unit form ty line _ _ _ ih =>
    obtain ⟨names, heq, henters, _⟩ := unit.internExpr_spec form
    rw [addExpr_eq, heq]
    exact henters.distinct ih
  | @addStmt unit form ty line _ _ _ ih =>
    obtain ⟨names, heq, henters, _⟩ := unit.internStmt_spec form
    rw [addStmt_eq, heq]
    exact henters.distinct ih
  | @addFunction unit text returnType params body line _ _ _ _ ih =>
    obtain ⟨names, heq, henters, _⟩ := (unit.intern text).2.internParams_spec params
    have hnames : ((unit.intern text).2.internParams params).2.names.Distinct := by
      rw [heq]
      exact henters.distinct (ih.intern text)
    exact hnames
  | addGlobal text _ _ _ _ _ _ ih => exact ih.intern text

/-- Entering the text of a name that is there answers the name and changes nothing. -/
theorem intern_nameText (h : unit.Built) {name : Name} (hname : name < unit.names.size) :
    unit.intern (unit.nameText name) = (name, unit) := by
  have hget : unit.names.get? name = some (unit.nameText name) := by
    rw [nameText, Interner.get?, Array.getElem?_eq_getElem hname]
    rfl
  rw [SourceUnit.intern, h.distinct.intern_of_get? hget]

/-- A node whose numbers are known can be entered as it is. -/
theorem allocExpr (h : unit.Built) {node : Expr} (hnode : ∀ ref ∈ node.refs, ref.Known unit) :
    (unit.allocExpr node).2.Built := by
  have hintern : unit.internExpr (node.kind.mapName unit.nameText) = (node.kind, unit) :=
    internExpr_mapName fun name hname => h.intern_nameText (hnode (.name name) (by simp_all [Expr.refs]))
  have hform : unit.KnowsExpr (node.kind.mapName unit.nameText) := by
    rw [knowsExpr_iff, ExprKind.refs_mapName]
    exact fun ref href => hnode ref (by simp [Expr.refs, href])
  have hbuilt := h.addExpr _ node.ty node.line hform fun ty hty => hnode (.type ty) (by simp_all [Expr.refs])
  rw [addExpr_eq, hintern] at hbuilt
  exact hbuilt

/-- A node whose numbers are known can be entered as it is. -/
theorem allocStmt (h : unit.Built) {node : Stmt} (hnode : ∀ ref ∈ node.refs, ref.Known unit) :
    (unit.allocStmt node).2.Built := by
  have hintern : unit.internStmt (node.kind.mapName unit.nameText) = (node.kind, unit) :=
    internStmt_mapName fun name hname => h.intern_nameText (hnode (.name name) (by simp_all [Stmt.refs]))
  have hform : unit.KnowsStmt (node.kind.mapName unit.nameText) := by
    rw [knowsStmt_iff, StmtKind.refs_mapName]
    exact fun ref href => hnode ref (by simp [Stmt.refs, href])
  have hbuilt := h.addStmt _ node.ty node.line hform fun ty hty => hnode (.type ty) (by simp_all [Stmt.refs])
  rw [addStmt_eq, hintern] at hbuilt
  exact hbuilt

end Built

end SourceUnit

-- ════════════════════════════════════════════════════════════════════════
-- Calls
-- ════════════════════════════════════════════════════════════════════════

namespace Builder

/-- What a builder, or the unit that it made, is asked for. -/
inductive Call where
  | setLine (line : Nat)
  | name (text : String)
  | type (ty : Ty)
  | expr (form : ExprKind String)
  | ident (text : String) (ty : TypeId)
  | stmt (form : StmtKind String)
  | declaration (text : String) (ty : TypeId) (init : Option ExprId)
  | function (text : String) (returnType : TypeId) (params : List (Option String × TypeId))
    (body : Option StmtId)
  | intFunction (text : String) (params : List String) (body : StmtId)
  | global (text : String) (ty : TypeId) (init : Option ExprId)
  | allocExpr (node : Expr)
  | allocStmt (node : Stmt)
  deriving DecidableEq, Repr

/-- The numbers that a call is handed. -/
def Call.refs : Call → List Ref
  | .setLine _ | .name _ => []
  | .type ty => ty.refs
  | .expr form => form.refs
  | .ident _ ty => [.type ty]
  | .stmt form => form.refs
  | .declaration _ ty init => .type ty :: init.toList.map .expr
  | .function _ returnType params body =>
    .type returnType :: (params.map fun param => .type param.2) ++ body.toList.map .stmt
  | .intFunction _ _ body => [.stmt body]
  | .global _ ty init => .type ty :: init.toList.map .expr
  | .allocExpr node => node.refs
  | .allocStmt node => node.refs

/-- The answer to a call that hands out a number of the given table. -/
def handOut (table : Nat → Ref) (answer : Nat × Builder) : Option Ref × Builder :=
  (some (table answer.1), answer.2)

/-- Does what it is asked for, and answers the number that is handed out, if there is one. -/
def perform (b : Builder) : Call → Except Fault (Option Ref × Builder)
  | .setLine line => .ok (none, { b with line })
  | .name text => .ok (handOut .name (b.onUnit (·.intern text)))
  | .type ty => .ok (handOut .type (b.onUnit (·.addType ty)))
  | .expr form => return handOut .expr (← b.addExpr form)
  | .ident text ty => .ok (handOut .expr (b.addIdent text ty))
  | .stmt form => .ok (handOut .stmt (b.addStmt form))
  | .declaration text ty init => .ok (handOut .stmt (b.addDeclaration text ty init))
  | .function text returnType params body => .ok (none, b.addFunction text returnType params body)
  | .intFunction text params body => .ok (none, b.addIntFunction text params body)
  | .global text ty init => .ok (none, b.addGlobal text ty init)
  | .allocExpr node => .ok (handOut .expr (b.onUnit (·.allocExpr node)))
  | .allocStmt node => .ok (handOut .stmt (b.onUnit (·.allocStmt node)))

/-- The call is answered: it leads to a unit that was built, what was known stays known, and the number that is
handed out is known. -/
def Answers (b : Builder) (call : Call) : Prop :=
  ∃ answer b', b.perform call = .ok (answer, b') ∧ b'.unit.Built ∧ b.unit.KeepsRefs b'.unit ∧
    ∀ ref ∈ answer, ref.Known b'.unit

variable {b : Builder}

theorem answers_handOut {call : Call} {table : Nat → Ref} (act : SourceUnit → Nat × SourceUnit)
    (hperform : b.perform call = .ok (handOut table (b.onUnit act))) (hbuilt : (act b.unit).2.Built)
    (hkeeps : b.unit.KeepsRefs (act b.unit).2) (hknown : (table (act b.unit).1).Known (act b.unit).2) :
    b.Answers call := by
  refine ⟨_, _, hperform, hbuilt, hkeeps, fun ref href => ?_⟩
  obtain rfl := Option.mem_some_iff.mp href
  exact hknown

theorem answers_none {call : Call} {b' : Builder} (hperform : b.perform call = .ok (none, b'))
    (hbuilt : b'.unit.Built) (hkeeps : b.unit.KeepsRefs b'.unit) : b.Answers call :=
  ⟨none, b', hperform, hbuilt, hkeeps, nofun⟩

/-- A call that is handed known numbers succeeds. -/
theorem perform_spec (h : b.unit.Built) {call : Call} (hrefs : ∀ ref ∈ call.refs, ref.Known b.unit) :
    b.Answers call := by
  cases call with
  | setLine line => exact answers_none rfl h (.refl _)
  | name text =>
    exact answers_handOut (·.intern text) rfl (.intern text h) (b.unit.keepsRefs_intern text)
      (b.unit.names.intern_lt text).1
  | type ty =>
    refine answers_handOut (·.addType ty) rfl (.addType ty h (SourceUnit.knowsType_iff.mpr hrefs))
      (b.unit.keepsRefs_addType ty) ?_
    simp [Ref.Known, SourceUnit.addType, TypeTable.add, TypeTable.size]
  | expr form =>
    obtain ⟨id, b', heq, hbuilt, hkeeps, hid⟩ := built_addExpr h form (SourceUnit.knowsExpr_iff.mpr hrefs)
    refine ⟨some (.expr id), b', by rw [perform, heq]; rfl, hbuilt, hkeeps, fun ref href => ?_⟩
    obtain rfl := Option.mem_some_iff.mp href
    exact hid
  | ident text ty =>
    refine answers_handOut (·.addExpr (.ident text) (some ty) b.line) rfl
      (built_addIdent h text (hrefs (.type ty) List.mem_cons_self)) (b.unit.keepsRefs_addExpr _ _ _) ?_
    simp [Ref.Known, SourceUnit.addExpr]
  | stmt form =>
    have hbuilt := built_addStmt h form (SourceUnit.knowsStmt_iff.mpr hrefs)
    obtain ⟨ty, heq, _⟩ := b.addStmt_eq form
    rw [heq] at hbuilt
    refine answers_handOut (·.addStmt form ty b.line) (congrArg (Except.ok ∘ handOut .stmt) heq) hbuilt
      (b.unit.keepsRefs_addStmt _ _ _) ?_
    simp [Ref.Known, SourceUnit.addStmt]
  | declaration text ty init =>
    have hinit : ∀ id ∈ init, id < b.unit.exprs.size := fun id hid => hrefs (.expr id) (by simp_all [Call.refs])
    refine answers_handOut (·.addStmt (.declare text init) (some ty) b.line) rfl
      (built_addDeclaration h text (hrefs (.type ty) List.mem_cons_self) hinit)
      (b.unit.keepsRefs_addStmt _ _ _) ?_
    simp [Ref.Known, SourceUnit.addStmt]
  | function text returnType params body =>
    have hparams : ∀ param ∈ params, param.2 < b.unit.types.size := fun param hparam =>
      hrefs (.type param.2) (List.mem_cons_of_mem _ (List.mem_append_left _ (List.mem_map_of_mem hparam)))
    have hbody : ∀ id ∈ body, id < b.unit.stmts.size := fun id hid => hrefs (.stmt id) (by simp_all [Call.refs])
    exact answers_none rfl
      (built_addFunction h text (hrefs (.type returnType) List.mem_cons_self) hparams hbody)
      (b.unit.keepsRefs_addFunction text returnType params body b.line)
  | intFunction text params body =>
    exact answers_none rfl (built_addIntFunction h text params (hrefs (.stmt body) List.mem_cons_self))
      (b.unit.keepsRefs_addFunction _ _ _ _ _)
  | global text ty init =>
    have hinit : ∀ id ∈ init, id < b.unit.exprs.size := fun id hid => hrefs (.expr id) (by simp_all [Call.refs])
    exact answers_none rfl (built_addGlobal h text (hrefs (.type ty) List.mem_cons_self) hinit)
      (b.unit.keepsRefs_addGlobal text ty init b.line)
  | allocExpr node =>
    refine answers_handOut (·.allocExpr node) rfl (h.allocExpr hrefs) (b.unit.keepsRefs_allocExpr node) ?_
    simp [Ref.Known, SourceUnit.allocExpr]
  | allocStmt node =>
    refine answers_handOut (·.allocStmt node) rfl (h.allocStmt hrefs) (b.unit.keepsRefs_allocStmt node) ?_
    simp [Ref.Known, SourceUnit.allocStmt]

-- ════════════════════════════════════════════════════════════════════════
-- Sessions
-- ════════════════════════════════════════════════════════════════════════

/-- The shared scalar types, which a builder hands out at any time. -/
def scalars : List Ref :=
  [.type TypeTable.void, .type TypeTable.char, .type TypeTable.int, .type TypeTable.long,
    .type TypeTable.float, .type TypeTable.double]

/-- Calls one after the other, from an empty unit on. Each is handed only what was handed out before. -/
inductive Session : List Ref → Builder → Prop where
  | start : Session scalars {}
  | call {known : List Ref} {b b' : Builder} {answer : Option Ref} (h : Session known b) (call : Call)
    (hrefs : ∀ ref ∈ call.refs, ref ∈ known) (hperform : b.perform call = .ok (answer, b')) :
    Session (answer.toList ++ known) b'

/-- A session builds its unit, and all that it has handed out is known there. -/
theorem Session.built {known : List Ref} (h : Session known b) :
    b.unit.Built ∧ ∀ ref ∈ known, ref.Known b.unit := by
  induction h with
  | start => exact ⟨.empty, by decide⟩
  | call _ _ hrefs hperform ih =>
    obtain ⟨answer, b', heq, hbuilt, hkeeps, hanswer⟩ :=
      perform_spec ih.1 fun ref href => ih.2 ref (hrefs ref href)
    obtain ⟨rfl, rfl⟩ := Prod.mk.inj (Except.ok.inj (heq.symm.trans hperform))
    refine ⟨hbuilt, fun ref href => ?_⟩
    rcases List.mem_append.mp href with hnew | hold
    · exact hanswer ref (Option.mem_toList.mp hnew)
    · exact hkeeps ref (ih.2 ref hold)

/-- Whatever the order of the calls, a unit that a session makes is acyclic, and every number that was handed
out names something in it. The next call is answered if it is handed such numbers. Every type has a text;
lowering an expression or a statement and making its labels find all that they look for, and succeed wherever
lowering comes to. For each of them every depth beyond the number that it starts from is the same. -/
theorem session_acyclic {known : List Ref} {b : Builder} (h : Session known b) :
    b.unit.Acyclic ∧
      (∀ ref ∈ known, ref.Known b.unit) ∧
      (∀ call : Call, (∀ ref ∈ call.refs, ref ∈ known) → Succeeds (b.perform call)) ∧
      (∀ id < b.unit.types.size, ∃ text, b.unit.typeText id = .ok text ∧
        ∀ depth, id < depth → b.unit.types.textWithin b.unit.names depth id = .ok text) ∧
      (∀ id < b.unit.exprs.size,
        (b.unit.lowerExpr id).Serves b.unit (Operand.Named b.unit) ∧
        (∀ avail (s : Lowering), s.Sound avail → s.Listable b.unit → s.IsOpen →
          Succeeds (b.unit.lowerExpr id s)) ∧
        ∀ depth, id < depth → b.unit.lowerExprWithin depth id = b.unit.lowerExpr id) ∧
      (∀ id < b.unit.stmts.size,
        (b.unit.lowerStmt id).Serves b.unit (fun _ => True) ∧
        (b.unit.createLabels id).Serves b.unit (fun _ => True) ∧
        (∀ avail (s : Lowering), s.Sound avail → s.Listable b.unit →
          (s.IsOpen ∨ ∀ node, b.unit.stmt id = .ok node → node.kind.opensBlock = true) →
          Succeeds (b.unit.lowerStmt id s)) ∧
        (∀ avail (s : Lowering), s.Sound avail → s.Listable b.unit → s.IsOpen →
          Succeeds (b.unit.createLabels id s)) ∧
        ∀ depth, id < depth → b.unit.lowerStmtWithin depth id = b.unit.lowerStmt id ∧
          b.unit.createLabelsWithin depth id = b.unit.createLabels id) ∧
      Succeeds b.unit.lower := by
  obtain ⟨hbuilt, hknown⟩ := h.built
  have hacyclic := hbuilt.acyclic
  have hunit := hbuilt.wellFormed
  refine ⟨hacyclic, hknown, fun call hrefs => ?_, fun id hid => ?_, fun id hid => ⟨?_, ?_, ?_⟩,
    fun id hid => ⟨?_, ?_, ?_, ?_, ?_⟩, ?_⟩
  · obtain ⟨answer, b', heq, _⟩ := perform_spec hbuilt fun ref href => hknown ref (hrefs ref href)
    exact ⟨_, heq⟩
  · obtain ⟨text, htext⟩ := hacyclic.exists_text hid
    exact ⟨text, htext _ (Nat.lt_succ_of_lt hid), htext⟩
  · exact hunit.serves_lowerExpr hid
  · exact fun avail s hsound hlist hopen => hunit.succeeds_lowerExpr hid hsound hlist hopen
  · exact fun depth hdepth => hunit.lowerExprWithin_eq hdepth (Nat.lt_succ_of_lt hid) hid
  · exact hunit.serves_lowerStmt hid
  · exact hunit.serves_createLabels hid
  · exact fun avail s hsound hlist hopen => hunit.succeeds_lowerStmt hid hsound hlist hopen
  · exact fun avail s hsound hlist hopen => hunit.succeeds_createLabels hid hsound hlist hopen
  · exact fun depth hdepth => ⟨hunit.lowerStmtWithin_eq hdepth (Nat.lt_succ_of_lt hid) hid,
      hunit.createLabelsWithin_eq hdepth (Nat.lt_succ_of_lt hid) hid⟩
  · obtain ⟨program, hlower, _⟩ := hunit.lower_eq
    exact ⟨program, hlower⟩

/-- A unit whose nodes are parts of several others: `x + x` is the statement in both branches of a conditional
on `x`, and the same statement stands in front of the conditional. -/
def sharingUnit : SourceUnit where
  names := { texts := #["x", "f"] }
  types := { entries := #[.void, .char, .int, .long, .float, .double, .pointer 2, .array 6 4] }
  exprs := #[
    { kind := .ident 0, ty := some 7, line := 1 },
    { kind := .binary .add 0 0, ty := some TypeTable.int, line := 1 }]
  stmts := #[
    { kind := .expr 1, ty := none, line := 1 },
    { kind := .conditional 0 0 (some 0), ty := none, line := 1 },
    { kind := .block [0, 1], ty := none, line := 2 }]
  items := [.function { name := 1, returnType := TypeTable.int, params := [], body := some 2, line := 2 }]

/-- A session makes this unit, so it can be lowered, and every depth beyond that of the block is the same. -/
theorem sharingUnit_acyclic :
    Session ([.stmt 2, .stmt 1, .stmt 0, .expr 1, .expr 0, .type 7, .type 6] ++ scalars)
      { unit := sharingUnit, line := 2 } ∧
    sharingUnit.Acyclic ∧ sharingUnit.typeText 7 = .ok "int*[4]" ∧
    (∀ depth, 2 < depth → sharingUnit.lowerStmtWithin depth 2 = sharingUnit.lowerStmt 2) ∧
    Succeeds sharingUnit.lower := by
  have hpointer := Session.start.call (.type (.pointer TypeTable.int)) (by decide) rfl
  have harray := hpointer.call (.type (.array 6 4)) (by decide) rfl
  have hx := harray.call (.ident "x" 7) (by decide) rfl
  have hsum := hx.call (.expr (.binary .add 0 0)) (by decide) rfl
  have hstmt := hsum.call (.stmt (.expr 1)) (by decide) rfl
  have hcond := hstmt.call (.stmt (.conditional 0 0 (some 0))) (by decide) rfl
  have hline := hcond.call (.setLine 2) (by decide) rfl
  have hblock := hline.call (.allocStmt { kind := .block [0, 1], ty := none, line := 2 }) (by decide) rfl
  have hfunction := hblock.call (.intFunction "f" [] 2) (by decide) rfl
  have hsession : Session ([.stmt 2, .stmt 1, .stmt 0, .expr 1, .expr 0, .type 7, .type 6] ++ scalars)
      { unit := sharingUnit, line := 2 } := by
    convert hfunction using 1
    · decide +kernel
    · decide +kernel
  obtain ⟨hacyclic, _, _, _, _, hstmts, hlower⟩ := session_acyclic hsession
  exact ⟨hsession, hacyclic, by decide +kernel, fun depth hdepth =>
    ((hstmts 2 (by decide)).2.2.2.2 depth hdepth).1, hlower⟩

end Builder

end MiddleEnd
