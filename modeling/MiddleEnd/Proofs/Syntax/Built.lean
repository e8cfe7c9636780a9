import MiddleEnd.Lowering.Stmt
import MiddleEnd.Proofs.Interner
import MiddleEnd.Syntax.Builder

/-!
# Units that were built

A unit is built by entering nodes whose parts were entered before. One node may be a part of several
others, but no node is a part of itself, and no number points outside the tables.

## Main definitions

* `ExprKind.parts`, `StmtKind.exprs`: the expressions that a node refers to.
* `Ref`: a number together with the table that it points into.
* `SourceUnit.Built`: the units that come about by entering nodes.
* `SourceUnit.Acyclic`: all numbers in a unit name something, and nothing refers to itself or to what came
  after it.
* `SourceUnit.WellFormed`: what lowering needs of this.

## Main statements

* `SourceUnit.Acyclic.grow`: a unit stays acyclic when what is entered refers to what is there.
* `SourceUnit.Built.acyclic`, `SourceUnit.Built.wellFormed`: a unit that was built is acyclic and well formed.
* `Builder.built_addExpr` and its siblings: what a builder enters, it builds.
-/

namespace MiddleEnd

-- ════════════════════════════════════════════════════════════════════════
-- What a node refers to
-- ════════════════════════════════════════════════════════════════════════

namespace ExprKind

variable {ν : Type}

/-- The expressions inside an expression, in source order. -/
def parts : ExprKind ν → List ExprId
  | .binary _ lhs rhs => [lhs, rhs]
  | .unary _ operand => [operand]
  | .cast _ operand => [operand]
  | .index array position => [array, position]
  | .member base _ _ => [base]
  | .call _ args => args
  | .assign target value => [target, value]
  | .initList elements => elements
  | .int _ | .float _ | .text _ | .ident _ | .error => []

/-- The name in an expression. -/
def name? : ExprKind ν → Option ν
  | .ident name => some name
  | .member _ field _ => some field
  | .call callee _ => some callee
  | _ => none

/-- The type in an expression. -/
def type? : ExprKind ν → Option TypeId
  | .cast target _ => some target
  | _ => none

end ExprKind

namespace StmtKind

variable {ν : Type}

/-- The expressions directly inside a statement. -/
def exprs : StmtKind ν → List ExprId
  | .declare _ init => init.toList
  | .expr value => [value]
  | .ret value => value.toList
  | .conditional cond _ _ => [cond]
  | .whileLoop cond _ => [cond]
  | .doLoop _ cond => [cond]
  | .forLoop _ cond incr _ => cond.toList ++ incr.toList
  | .switch cond _ => [cond]
  | .assertion cond => cond.toList
  | _ => []

/-- The name in a statement. -/
def name? : StmtKind ν → Option ν
  | .declare name _ => some name
  | .goto target => some target
  | .label name => some name
  | _ => none

end StmtKind

/-- A number of a unit, with the table that it points into. -/
inductive Ref where
  | name (id : Name)
  | type (id : TypeId)
  | expr (id : ExprId)
  | stmt (id : StmtId)
  deriving DecidableEq, Repr

/-- The numbers in a type. -/
def Ty.refs : Ty → List Ref
  | .pointer target => [.type target]
  | .array element _ => [.type element]
  | .struct name => [.name name]
  | .void | .char | .int | .long | .float | .double => []

/-- The numbers in a form, apart from names. -/
def ExprKind.refs {ν : Type} (kind : ExprKind ν) : List Ref :=
  kind.parts.map .expr ++ kind.type?.toList.map .type

/-- The numbers in a form, apart from names. -/
def StmtKind.refs {ν : Type} (kind : StmtKind ν) : List Ref :=
  kind.parts.map .stmt ++ kind.exprs.map .expr

/-- The numbers in an expression. -/
def Expr.refs (node : Expr) : List Ref :=
  node.kind.refs ++ node.kind.name?.toList.map .name ++ node.ty.toList.map .type

/-- The numbers in a statement. -/
def Stmt.refs (node : Stmt) : List Ref :=
  node.kind.refs ++ node.kind.name?.toList.map .name ++ node.ty.toList.map .type

/-- The numbers in a parameter. -/
def ParamDecl.refs (param : ParamDecl) : List Ref :=
  .type param.ty :: param.name.toList.map .name

/-- The numbers in a declaration. -/
def Item.refs : Item → List Ref
  | .function decl => .name decl.name :: .type decl.returnType ::
      (decl.params.flatMap ParamDecl.refs ++ decl.body.toList.map .stmt)
  | .global decl => .name decl.name :: .type decl.ty :: decl.init.toList.map .expr

-- ════════════════════════════════════════════════════════════════════════
-- Building
-- ════════════════════════════════════════════════════════════════════════

namespace SourceUnit

/-- The numbers in a type were handed out. -/
def KnowsType (unit : SourceUnit) : Ty → Prop
  | .pointer target => target < unit.types.size
  | .array element _ => element < unit.types.size
  | .struct name => name < unit.names.size
  | _ => True

/-- The numbers in a request for an expression were handed out. -/
def KnowsExpr (unit : SourceUnit) (form : ExprKind String) : Prop :=
  (∀ part ∈ form.parts, part < unit.exprs.size) ∧ ∀ ty ∈ form.type?, ty < unit.types.size

/-- The numbers in a request for a statement were handed out. -/
def KnowsStmt (unit : SourceUnit) (form : StmtKind String) : Prop :=
  (∀ part ∈ form.parts, part < unit.stmts.size) ∧ ∀ id ∈ form.exprs, id < unit.exprs.size

/-- The units that come about when only numbers are handed in that were handed out before. -/
inductive Built : SourceUnit → Prop where
  | empty : Built {}
  | intern {unit : SourceUnit} (text : String) (h : Built unit) : Built (unit.intern text).2
  | addType {unit : SourceUnit} (ty : Ty) (h : Built unit) (hty : unit.KnowsType ty) :
    Built (unit.addType ty).2
  | addExpr {unit : SourceUnit} (form : ExprKind String) (ty : Option TypeId) (line : Nat)
    (h : Built unit) (hform : unit.KnowsExpr form) (hty : ∀ t ∈ ty, t < unit.types.size) :
    Built (unit.addExpr form ty line).2
  | addStmt {unit : SourceUnit} (form : StmtKind String) (ty : Option TypeId) (line : Nat)
    (h : Built unit) (hform : unit.KnowsStmt form) (hty : ∀ t ∈ ty, t < unit.types.size) :
    Built (unit.addStmt form ty line).2
  | addFunction {unit : SourceUnit} (text : String) (returnType : TypeId)
    (params : List (Option String × TypeId)) (body : Option StmtId) (line : Nat) (h : Built unit)
    (hreturn : returnType < unit.types.size) (hparams : ∀ param ∈ params, param.2 < unit.types.size)
    (hbody : ∀ id ∈ body, id < unit.stmts.size) :
    Built (unit.addFunction text returnType params body line)
  | addGlobal {unit : SourceUnit} (text : String) (ty : TypeId) (init : Option ExprId) (line : Nat)
    (h : Built unit) (hty : ty < unit.types.size) (hinit : ∀ id ∈ init, id < unit.exprs.size) :
    Built (unit.addGlobal text ty init line)

-- ════════════════════════════════════════════════════════════════════════
-- Acyclic units
-- ════════════════════════════════════════════════════════════════════════

end SourceUnit

namespace Ref

/-- The number names something in the unit. -/
def Known (unit : SourceUnit) : Ref → Prop
  | .name id => id < unit.names.size
  | .type id => id < unit.types.size
  | .expr id => id < unit.exprs.size
  | .stmt id => id < unit.stmts.size

instance (unit : SourceUnit) (ref : Ref) : Decidable (ref.Known unit) :=
  match ref with
  | .name id => inferInstanceAs (Decidable (id < unit.names.size))
  | .type id => inferInstanceAs (Decidable (id < unit.types.size))
  | .expr id => inferInstanceAs (Decidable (id < unit.exprs.size))
  | .stmt id => inferInstanceAs (Decidable (id < unit.stmts.size))

/-- The second number is not of the same table, or larger. -/
def Precedes : Ref → Ref → Prop
  | .type part, .type id | .expr part, .expr id | .stmt part, .stmt id => part < id
  | _, _ => True

variable {unit unit' : SourceUnit} {ref : Ref}

theorem Known.mono (h : ref.Known unit) (hnames : unit.names.size ≤ unit'.names.size)
    (htypes : unit.types.size ≤ unit'.types.size) (hexprs : unit.exprs.size ≤ unit'.exprs.size)
    (hstmts : unit.stmts.size ≤ unit'.stmts.size) : ref.Known unit' := by
  cases ref with
  | name id => exact Nat.lt_of_lt_of_le h hnames
  | type id => exact Nat.lt_of_lt_of_le h htypes
  | expr id => exact Nat.lt_of_lt_of_le h hexprs
  | stmt id => exact Nat.lt_of_lt_of_le h hstmts

/-- What names something comes before the next entry of each table. -/
theorem Known.precedes (h : ref.Known unit) : ref.Precedes (.type unit.types.size) ∧
    ref.Precedes (.expr unit.exprs.size) ∧ ref.Precedes (.stmt unit.stmts.size) := by
  cases ref with
  | name id => exact ⟨trivial, trivial, trivial⟩
  | type id => exact ⟨h, trivial, trivial⟩
  | expr id => exact ⟨trivial, h, trivial⟩
  | stmt id => exact ⟨trivial, trivial, h⟩

end Ref

namespace SourceUnit

/-- The numbers in the entry that a number names. -/
def refsOf (unit : SourceUnit) : Ref → List Ref
  | .name _ => []
  | .type id => (unit.types.entries[id]?).elim [] Ty.refs
  | .expr id => (unit.exprs[id]?).elim [] Expr.refs
  | .stmt id => (unit.stmts[id]?).elim [] Stmt.refs

/-- All numbers in a unit name something, and those in a type or a node come before it. -/
structure Acyclic (unit : SourceUnit) : Prop where
  scalars : 6 ≤ unit.types.size
  entries : ∀ owner, ∀ ref ∈ unit.refsOf owner, ref.Known unit ∧ ref.Precedes owner
  items : ∀ item ∈ unit.items, ∀ ref ∈ item.refs, ref.Known unit

/-- What names something in the first unit, names something in the second. -/
def KeepsRefs (unit unit' : SourceUnit) : Prop := ∀ ref : Ref, ref.Known unit → ref.Known unit'

theorem KeepsRefs.refl (unit : SourceUnit) : unit.KeepsRefs unit := fun _ => id

theorem KeepsRefs.trans {a b c : SourceUnit} (hab : a.KeepsRefs b) (hbc : b.KeepsRefs c) : a.KeepsRefs c :=
  fun ref h => hbc ref (hab ref h)

theorem keepsRefs_withNames (unit : SourceUnit) {names : Interner} (h : unit.names.size ≤ names.size) :
    unit.KeepsRefs { unit with names } :=
  fun _ href => href.mono h (Nat.le_refl _) (Nat.le_refl _) (Nat.le_refl _)

theorem keepsRefs_addType (unit : SourceUnit) (ty : Ty) : unit.KeepsRefs (unit.addType ty).2 := by
  have hle : unit.types.size ≤ (unit.addType ty).2.types.size := by
    simp [SourceUnit.addType, TypeTable.add, TypeTable.size]
  exact fun _ href => href.mono (Nat.le_refl _) hle (Nat.le_refl _) (Nat.le_refl _)

theorem keepsRefs_allocExpr (unit : SourceUnit) (node : Expr) : unit.KeepsRefs (unit.allocExpr node).2 := by
  have hle : unit.exprs.size ≤ (unit.allocExpr node).2.exprs.size := by simp [SourceUnit.allocExpr]
  exact fun _ href => href.mono (Nat.le_refl _) (Nat.le_refl _) hle (Nat.le_refl _)

theorem keepsRefs_allocStmt (unit : SourceUnit) (node : Stmt) : unit.KeepsRefs (unit.allocStmt node).2 := by
  have hle : unit.stmts.size ≤ (unit.allocStmt node).2.stmts.size := by simp [SourceUnit.allocStmt]
  exact fun _ href => href.mono (Nat.le_refl _) (Nat.le_refl _) (Nat.le_refl _) hle

theorem keepsRefs_append (unit : SourceUnit) (items : List Item) : unit.KeepsRefs { unit with items } :=
  fun _ href => href.mono (Nat.le_refl _) (Nat.le_refl _) (Nat.le_refl _) (Nat.le_refl _)

namespace Acyclic

variable {unit unit' : SourceUnit}

/-- A unit stays acyclic when what is entered refers to what is there. -/
theorem grow (h : unit.Acyclic) (hkeeps : unit.KeepsRefs unit')
    (hentries : ∀ owner, unit'.refsOf owner = unit.refsOf owner ∨
      ∀ ref ∈ unit'.refsOf owner, ref.Known unit ∧ ref.Precedes owner)
    (hitems : ∀ item ∈ unit'.items, item ∈ unit.items ∨ ∀ ref ∈ item.refs, ref.Known unit) :
    unit'.Acyclic where
  scalars := hkeeps (.type 5) h.scalars
  entries owner ref href := by
    have hold : ref.Known unit ∧ ref.Precedes owner := by
      rcases hentries owner with heq | hnew
      · exact h.entries owner ref (heq ▸ href)
      · exact hnew ref href
    exact ⟨hkeeps ref hold.1, hold.2⟩
  items item hitem ref href := by
    rcases hitems item hitem with hold | hnew
    · exact hkeeps ref (h.items item hold ref href)
    · exact hkeeps ref (hnew ref href)

theorem withNames (h : unit.Acyclic) {names : Interner} (hnames : unit.names.size ≤ names.size) :
    Acyclic { unit with names } := by
  refine h.grow (unit.keepsRefs_withNames hnames) (fun owner => .inl ?_) fun item hitem => .inl hitem
  cases owner <;> rfl

theorem addType (h : unit.Acyclic) {ty : Ty} (hty : ∀ ref ∈ ty.refs, ref.Known unit) :
    (unit.addType ty).2.Acyclic := by
  refine h.grow (unit.keepsRefs_addType ty) ?_ fun item hitem => .inl hitem
  rintro (_ | id | _ | _)
  case type =>
    by_cases hid : id = unit.types.size
    · refine .inr fun ref href => ?_
      have hmem : ref ∈ ty.refs := by
        simpa [refsOf, SourceUnit.addType, TypeTable.add, TypeTable.size, hid] using href
      exact ⟨hty ref hmem, hid ▸ (hty ref hmem).precedes.1⟩
    · exact .inl (by simp [refsOf, SourceUnit.addType, TypeTable.add, Array.getElem?_push,
        show id ≠ unit.types.entries.size from hid])
  all_goals exact .inl rfl

theorem allocExpr (h : unit.Acyclic) {node : Expr} (hnode : ∀ ref ∈ node.refs, ref.Known unit) :
    (unit.allocExpr node).2.Acyclic := by
  refine h.grow (unit.keepsRefs_allocExpr node) ?_ fun item hitem => .inl hitem
  rintro (_ | _ | id | _)
  case expr =>
    by_cases hid : id = unit.exprs.size
    · refine .inr fun ref href => ?_
      have hmem : ref ∈ node.refs := by simpa [refsOf, SourceUnit.allocExpr, hid] using href
      exact ⟨hnode ref hmem, hid ▸ (hnode ref hmem).precedes.2.1⟩
    · exact .inl (by simp [refsOf, SourceUnit.allocExpr, Array.getElem?_push, hid])
  all_goals exact .inl rfl

theorem allocStmt (h : unit.Acyclic) {node : Stmt} (hnode : ∀ ref ∈ node.refs, ref.Known unit) :
    (unit.allocStmt node).2.Acyclic := by
  refine h.grow (unit.keepsRefs_allocStmt node) ?_ fun item hitem => .inl hitem
  rintro (_ | _ | _ | id)
  case stmt =>
    by_cases hid : id = unit.stmts.size
    · refine .inr fun ref href => ?_
      have hmem : ref ∈ node.refs := by simpa [refsOf, SourceUnit.allocStmt, hid] using href
      exact ⟨hnode ref hmem, hid ▸ (hnode ref hmem).precedes.2.2⟩
    · exact .inl (by simp [refsOf, SourceUnit.allocStmt, Array.getElem?_push, hid])
  all_goals exact .inl rfl

theorem append (h : unit.Acyclic) {item : Item} (hitem : ∀ ref ∈ item.refs, ref.Known unit) :
    Acyclic { unit with items := unit.items ++ [item] } := by
  refine h.grow (unit.keepsRefs_append _) (fun owner => .inl ?_) fun other hother => ?_
  · cases owner <;> rfl
  · rcases List.mem_append.mp hother with hother | hother
    · exact .inl hother
    · rw [List.mem_singleton.mp hother]
      exact .inr hitem

end Acyclic

-- ════════════════════════════════════════════════════════════════════════
-- Well-formed units
-- ════════════════════════════════════════════════════════════════════════

/-- The numbers in a declaration name something. -/
def KnowsItem (unit : SourceUnit) : Item → Prop
  | .function decl => decl.name < unit.names.size ∧
      (∀ param ∈ decl.params, param.ty < unit.types.size ∧ ∀ name ∈ param.name, name < unit.names.size) ∧
        ∀ id ∈ decl.body, id < unit.stmts.size
  | .global decl => decl.name < unit.names.size ∧ ∀ id ∈ decl.init, id < unit.exprs.size

/-- All numbers in a unit name something, and the parts of a node come before it. -/
structure WellFormed (unit : SourceUnit) : Prop where
  scalars : 6 ≤ unit.types.size
  exprs : ∀ (id : ExprId) node, unit.exprs[id]? = some node →
    (∀ part ∈ node.kind.parts, part < id) ∧ (∀ ty ∈ node.ty, ty < unit.types.size) ∧
      ∀ name ∈ node.kind.name?, name < unit.names.size
  stmts : ∀ (id : StmtId) node, unit.stmts[id]? = some node →
    (∀ part ∈ node.kind.parts, part < id) ∧ (∀ part ∈ node.kind.exprs, part < unit.exprs.size) ∧
      ∀ name ∈ node.kind.name?, name < unit.names.size
  items : ∀ item ∈ unit.items, unit.KnowsItem item

variable {unit : SourceUnit}

theorem knowsItem_of_refs {item : Item} (h : ∀ ref ∈ item.refs, ref.Known unit) : unit.KnowsItem item := by
  cases item with
  | function decl =>
    have hparam : ∀ param ∈ decl.params, ∀ ref ∈ param.refs, ref.Known unit := fun param hparam ref href =>
      h ref (List.mem_cons_of_mem _ (List.mem_cons_of_mem _ (List.mem_append_left _
        (List.mem_flatMap.mpr ⟨param, hparam, href⟩))))
    refine ⟨h (.name decl.name) (by simp [Item.refs]), fun param hmem => ⟨?_, fun name hname => ?_⟩,
      fun id hid => h (.stmt id) (by simp_all [Item.refs])⟩
    · exact hparam param hmem (.type param.ty) (by simp [ParamDecl.refs])
    · exact hparam param hmem (.name name) (by simp_all [ParamDecl.refs])
  | global decl =>
    exact ⟨h (.name decl.name) (by simp [Item.refs]), fun id hid => h (.expr id) (by simp_all [Item.refs])⟩

/-- An acyclic unit is well formed. -/
theorem Acyclic.wellFormed (h : unit.Acyclic) : unit.WellFormed where
  scalars := h.scalars
  exprs id node hnode := by
    have hrefs : ∀ ref ∈ node.refs, ref.Known unit ∧ ref.Precedes (.expr id) := fun ref href =>
      h.entries (.expr id) ref (by simpa [refsOf, hnode] using href)
    exact ⟨fun part hpart => (hrefs (.expr part) (by simp [Expr.refs, ExprKind.refs, hpart])).2,
      fun ty hty => (hrefs (.type ty) (by simp_all [Expr.refs])).1,
      fun name hname => (hrefs (.name name) (by simp_all [Expr.refs])).1⟩
  stmts id node hnode := by
    have hrefs : ∀ ref ∈ node.refs, ref.Known unit ∧ ref.Precedes (.stmt id) := fun ref href =>
      h.entries (.stmt id) ref (by simpa [refsOf, hnode] using href)
    exact ⟨fun part hpart => (hrefs (.stmt part) (by simp [Stmt.refs, StmtKind.refs, hpart])).2,
      fun part hpart => (hrefs (.expr part) (by simp [Stmt.refs, StmtKind.refs, hpart])).1,
      fun name hname => (hrefs (.name name) (by simp_all [Stmt.refs])).1⟩
  items item hitem := knowsItem_of_refs (h.items item hitem)

/-- An expression that exists can be read, and its parts come before it. -/
theorem WellFormed.exists_expr (h : unit.WellFormed) {id : ExprId} (hid : id < unit.exprs.size) :
    ∃ node, unit.expr id = .ok node ∧ ∀ part ∈ node.kind.parts, part < id := by
  have hnode : unit.exprs[id]? = some unit.exprs[id] := Array.getElem?_eq_getElem hid
  exact ⟨_, require_eq_ok_iff.mpr hnode, (h.exprs id _ hnode).1⟩

/-- A statement that exists can be read, and its parts come before it. -/
theorem WellFormed.exists_stmt (h : unit.WellFormed) {id : StmtId} (hid : id < unit.stmts.size) :
    ∃ node, unit.stmt id = .ok node ∧ ∀ part ∈ node.kind.parts, part < id := by
  have hnode : unit.stmts[id]? = some unit.stmts[id] := Array.getElem?_eq_getElem hid
  exact ⟨_, require_eq_ok_iff.mpr hnode, (h.stmts id _ hnode).1⟩

-- ════════════════════════════════════════════════════════════════════════
-- Units that were built are acyclic
-- ════════════════════════════════════════════════════════════════════════

theorem knowsType_iff {ty : Ty} : unit.KnowsType ty ↔ ∀ ref ∈ ty.refs, ref.Known unit := by
  cases ty <;> simp [KnowsType, Ty.refs, Ref.Known]

theorem knowsExpr_iff {form : ExprKind String} : unit.KnowsExpr form ↔ ∀ ref ∈ form.refs, ref.Known unit := by
  simp only [KnowsExpr, ExprKind.refs, List.mem_append, List.mem_map, Option.mem_toList]
  constructor
  · rintro ⟨hparts, htype⟩ _ (⟨part, hpart, rfl⟩ | ⟨ty, hty, rfl⟩)
    · exact hparts part hpart
    · exact htype ty hty
  · intro h
    exact ⟨fun part hpart => h (.expr part) (.inl ⟨part, hpart, rfl⟩),
      fun ty hty => h (.type ty) (.inr ⟨ty, hty, rfl⟩)⟩

theorem knowsStmt_iff {form : StmtKind String} : unit.KnowsStmt form ↔ ∀ ref ∈ form.refs, ref.Known unit := by
  simp only [KnowsStmt, StmtKind.refs, List.mem_append, List.mem_map]
  constructor
  · rintro ⟨hparts, hexprs⟩ _ (⟨part, hpart, rfl⟩ | ⟨id, hid, rfl⟩)
    · exact hparts part hpart
    · exact hexprs id hid
  · intro h
    exact ⟨fun part hpart => h (.stmt part) (.inl ⟨part, hpart, rfl⟩),
      fun id hid => h (.expr id) (.inr ⟨id, hid, rfl⟩)⟩

/-- Names are only ever entered. -/
structure Enters (unit : SourceUnit) (names : Interner) : Prop where
  le : unit.names.size ≤ names.size
  distinct : unit.names.Distinct → names.Distinct

theorem enters_refl (unit : SourceUnit) : unit.Enters unit.names := ⟨Nat.le_refl _, id⟩

theorem enters_intern (unit : SourceUnit) (text : String) : unit.Enters (unit.names.intern text).2 :=
  ⟨(unit.names.intern_lt text).2, fun h => h.intern text⟩

/-- Entering the name of an expression keeps the other numbers. -/
theorem internExpr_spec (unit : SourceUnit) (form : ExprKind String) :
    ∃ names, (unit.internExpr form).2 = { unit with names } ∧ unit.Enters names ∧
      (unit.internExpr form).1.refs = form.refs ∧
        ∀ name ∈ (unit.internExpr form).1.name?, name < names.size := by
  cases form with
  | ident text | member base text arrow | call text args =>
    refine ⟨_, rfl, unit.enters_intern text, rfl, fun name hname => ?_⟩
    cases hname
    exact (unit.names.intern_lt text).1
  | _ => exact ⟨_, rfl, unit.enters_refl, rfl, nofun⟩

/-- Entering the name of a statement keeps the other numbers. -/
theorem internStmt_spec (unit : SourceUnit) (form : StmtKind String) :
    ∃ names, (unit.internStmt form).2 = { unit with names } ∧ unit.Enters names ∧
      (unit.internStmt form).1.refs = form.refs ∧
        ∀ name ∈ (unit.internStmt form).1.name?, name < names.size := by
  cases form with
  | declare text init | goto text | label text =>
    refine ⟨_, rfl, unit.enters_intern text, rfl, fun name hname => ?_⟩
    cases hname
    exact (unit.names.intern_lt text).1
  | _ => exact ⟨_, rfl, unit.enters_refl, rfl, nofun⟩

theorem internParams_spec (unit : SourceUnit) (params : List (Option String × TypeId)) :
    ∃ names, (unit.internParams params).2 = { unit with names } ∧ unit.Enters names ∧
      ∀ param ∈ (unit.internParams params).1, (∃ text, (text, param.ty) ∈ params) ∧
        ∀ name ∈ param.name, name < names.size := by
  induction params generalizing unit with
  | nil => exact ⟨_, rfl, unit.enters_refl, nofun⟩
  | cons param params ih =>
    obtain ⟨text, ty⟩ := param
    cases text with
    | none =>
      obtain ⟨names, heq, henters, hall⟩ := ih unit
      refine ⟨names, heq, henters, fun other hother => ?_⟩
      rcases List.mem_cons.mp hother with rfl | hother
      · exact ⟨⟨none, List.mem_cons_self⟩, nofun⟩
      · obtain ⟨⟨text, hmem⟩, hname⟩ := hall other hother
        exact ⟨⟨text, List.mem_cons_of_mem _ hmem⟩, hname⟩
    | some text =>
      have hfirst := unit.enters_intern text
      obtain ⟨names, heq, henters, hall⟩ := ih (unit.intern text).2
      refine ⟨names, heq, ⟨Nat.le_trans hfirst.le henters.le, fun h => henters.distinct (hfirst.distinct h)⟩,
        fun other hother => ?_⟩
      rcases List.mem_cons.mp hother with rfl | hother
      · refine ⟨⟨some text, List.mem_cons_self⟩, fun name hname => ?_⟩
        cases hname
        exact Nat.lt_of_lt_of_le (unit.names.intern_lt text).1 henters.le
      · obtain ⟨⟨text', hmem⟩, hname⟩ := hall other hother
        exact ⟨⟨text', List.mem_cons_of_mem _ hmem⟩, hname⟩

theorem addExpr_eq (unit : SourceUnit) (form : ExprKind String) (ty : Option TypeId) (line : Nat) :
    unit.addExpr form ty line =
      (unit.internExpr form).2.allocExpr ⟨(unit.internExpr form).1, ty, line⟩ := rfl

theorem addStmt_eq (unit : SourceUnit) (form : StmtKind String) (ty : Option TypeId) (line : Nat) :
    unit.addStmt form ty line =
      (unit.internStmt form).2.allocStmt ⟨(unit.internStmt form).1, ty, line⟩ := rfl

theorem keepsRefs_intern (unit : SourceUnit) (text : String) : unit.KeepsRefs (unit.intern text).2 :=
  unit.keepsRefs_withNames (unit.enters_intern text).le

theorem keepsRefs_addExpr (unit : SourceUnit) (form : ExprKind String) (ty : Option TypeId) (line : Nat) :
    unit.KeepsRefs (unit.addExpr form ty line).2 := by
  obtain ⟨names, heq, henters, _⟩ := unit.internExpr_spec form
  rw [addExpr_eq, heq]
  exact (unit.keepsRefs_withNames henters.le).trans (keepsRefs_allocExpr _ _)

theorem keepsRefs_addStmt (unit : SourceUnit) (form : StmtKind String) (ty : Option TypeId) (line : Nat) :
    unit.KeepsRefs (unit.addStmt form ty line).2 := by
  obtain ⟨names, heq, henters, _⟩ := unit.internStmt_spec form
  rw [addStmt_eq, heq]
  exact (unit.keepsRefs_withNames henters.le).trans (keepsRefs_allocStmt _ _)

theorem keepsRefs_addFunction (unit : SourceUnit) (text : String) (returnType : TypeId)
    (params : List (Option String × TypeId)) (body : Option StmtId) (line : Nat) :
    unit.KeepsRefs (unit.addFunction text returnType params body line) := by
  obtain ⟨names, heq, henters, _⟩ := (unit.intern text).2.internParams_spec params
  have hparams : unit.KeepsRefs ((unit.intern text).2.internParams params).2 := by
    rw [heq]
    exact (unit.keepsRefs_intern text).trans (keepsRefs_withNames _ henters.le)
  exact hparams.trans (keepsRefs_append _ _)

theorem keepsRefs_addGlobal (unit : SourceUnit) (text : String) (ty : TypeId) (init : Option ExprId)
    (line : Nat) : unit.KeepsRefs (unit.addGlobal text ty init line) :=
  (unit.keepsRefs_intern text).trans (keepsRefs_append _ _)

/-- The numbers in a node with a type. -/
theorem known_of_mem_refs {ref : Ref} {refs : List Ref} {name : Option Name} {ty : Option TypeId}
    (hrefs : ∀ ref ∈ refs, ref.Known unit) (hname : ∀ n ∈ name, n < unit.names.size)
    (hty : ∀ t ∈ ty, t < unit.types.size)
    (h : ref ∈ refs ++ name.toList.map .name ++ ty.toList.map .type) : ref.Known unit := by
  simp only [List.mem_append, List.mem_map, Option.mem_toList] at h
  rcases h with (h | ⟨n, hn, rfl⟩) | ⟨t, ht, rfl⟩
  · exact hrefs ref h
  · exact hname n hn
  · exact hty t ht

/-- A unit that was built is acyclic. -/
theorem Built.acyclic (h : unit.Built) : unit.Acyclic := by
  induction h with
  | empty =>
    refine ⟨by decide, ?_, nofun⟩
    rintro (_ | id | _ | _) ref href
    case type =>
      match id, href with
      | 0, href | 1, href | 2, href | 3, href | 4, href | 5, href => cases href
      | _ + 6, href => cases href
    all_goals simp [refsOf] at href
  | @intern unit text _ ih => exact ih.withNames (unit.enters_intern text).le
  | addType ty _ hty ih => exact ih.addType (knowsType_iff.mp hty)
  | @addExpr unit form ty line _ hform hty ih =>
    obtain ⟨names, heq, henters, hrefs, hname⟩ := unit.internExpr_spec form
    rw [addExpr_eq, heq]
    refine (ih.withNames henters.le).allocExpr fun ref href => known_of_mem_refs ?_ hname hty href
    rw [hrefs]
    exact fun ref href => unit.keepsRefs_withNames henters.le ref (knowsExpr_iff.mp hform ref href)
  | @addStmt unit form ty line _ hform hty ih =>
    obtain ⟨names, heq, henters, hrefs, hname⟩ := unit.internStmt_spec form
    rw [addStmt_eq, heq]
    refine (ih.withNames henters.le).allocStmt fun ref href => known_of_mem_refs ?_ hname hty href
    rw [hrefs]
    exact fun ref href => unit.keepsRefs_withNames henters.le ref (knowsStmt_iff.mp hform ref href)
  | @addFunction unit text returnType params body line _ hreturn hparams hbody ih =>
    have hlt := (unit.names.intern_lt text).1
    obtain ⟨names, heq, henters, hall⟩ := (unit.intern text).2.internParams_spec params
    have hunit : ((unit.intern text).2.internParams params).2.Acyclic := by
      rw [heq]
      exact (ih.withNames (unit.enters_intern text).le).withNames henters.le
    refine hunit.append ?_
    rw [heq]
    simp only [Item.refs, List.mem_cons, List.mem_append, List.mem_flatMap, List.mem_map, Option.mem_toList,
      ParamDecl.refs]
    rintro _ (rfl | rfl | ⟨param, hparam, rfl | ⟨name, hname, rfl⟩⟩ | ⟨id, hid, rfl⟩)
    · exact Nat.lt_of_lt_of_le hlt henters.le
    · exact hreturn
    · obtain ⟨text', hmem⟩ := (hall param hparam).1
      exact hparams _ hmem
    · exact (hall param hparam).2 name hname
    · exact hbody id hid
  | @addGlobal unit text ty init line _ hty hinit ih =>
    refine (ih.withNames (unit.enters_intern text).le).append ?_
    simp only [Item.refs, List.mem_cons, List.mem_map, Option.mem_toList]
    rintro _ (rfl | rfl | ⟨id, hid, rfl⟩)
    · exact (unit.names.intern_lt text).1
    · exact hty
    · exact hinit id hid

/-- A unit that was built is well formed. -/
theorem Built.wellFormed (h : unit.Built) : unit.WellFormed := h.acyclic.wellFormed

end SourceUnit

-- ════════════════════════════════════════════════════════════════════════
-- Builders
-- ════════════════════════════════════════════════════════════════════════

namespace Builder

variable {b : Builder}

/-- A builder that is handed known numbers enters the expression, and goes on with a unit that was
built. -/
theorem built_addExpr (h : b.unit.Built) (form : ExprKind String) (hform : b.unit.KnowsExpr form) :
    ∃ id b', b.addExpr form = .ok (id, b') ∧ b'.unit.Built ∧ b.unit.KeepsRefs b'.unit ∧
      id < b'.unit.exprs.size := by
  have hwell := h.wellFormed
  have hscalars := hwell.scalars
  -- What is left once the type is there.
  have hadd : ∀ (b' : Builder) (ty : Option TypeId), b.suggestType form = .ok (ty, b') →
      b'.unit.Built → b.unit.KeepsRefs b'.unit → (∀ t ∈ ty, t < b'.unit.types.size) →
      ∃ id b', b.addExpr form = .ok (id, b') ∧ b'.unit.Built ∧ b.unit.KeepsRefs b'.unit ∧
        id < b'.unit.exprs.size := by
    intro b' ty hsuggest hbuilt hkeeps hty
    have hknows : b'.unit.KnowsExpr form := SourceUnit.knowsExpr_iff.mpr fun ref href =>
      hkeeps ref (SourceUnit.knowsExpr_iff.mp hform ref href)
    refine ⟨(b'.unit.addExpr form ty b'.line).1, ⟨(b'.unit.addExpr form ty b'.line).2, b'.line⟩, ?_,
      .addExpr form ty b'.line hbuilt hknows hty, hkeeps.trans (b'.unit.keepsRefs_addExpr form ty b'.line), ?_⟩
    · rw [addExpr, hsuggest]
      rfl
    · simp [SourceUnit.addExpr]
  cases form with
  | float value =>
    refine hadd b (some TypeTable.double) rfl h (.refl _) fun t ht => ?_
    obtain rfl := Option.mem_some_iff.mp ht
    exact hscalars
  | text value =>
    refine hadd _ _ rfl (.addType _ h ?_) (b.unit.keepsRefs_addType _) fun t ht => ?_
    · exact Nat.lt_of_lt_of_le (by decide) hscalars
    · obtain rfl := Option.mem_some_iff.mp ht
      simp [TypeTable.size]
  | cast target operand => exact hadd b (some target) rfl h (.refl _) hform.2
  | assign target value =>
    have hlt : target < b.unit.exprs.size := hform.1 target (by simp [ExprKind.parts])
    have hnode : b.unit.expr target = .ok b.unit.exprs[target] := by
      rw [SourceUnit.expr, Array.getElem?_eq_getElem hlt]
      rfl
    refine hadd b b.unit.exprs[target].ty ?_ h (.refl _) ?_
    · rw [suggestType, hnode]
      rfl
    · exact (hwell.exprs target _ (Array.getElem?_eq_getElem hlt)).2.1
  | initList elements => exact hadd b none rfl h (.refl _) nofun
  | error => exact hadd b none rfl h (.refl _) nofun
  | int | ident | binary | unary | index | member | call =>
    refine hadd b (some TypeTable.int) rfl h (.refl _) fun t ht => ?_
    obtain rfl := Option.mem_some_iff.mp ht
    exact Nat.lt_of_lt_of_le (by decide) hscalars

theorem built_addIdent (h : b.unit.Built) (name : String) {ty : TypeId}
    (hty : ty < b.unit.types.size) : (b.addIdent name ty).2.unit.Built := by
  refine .addExpr (.ident name) (some ty) b.line h ⟨nofun, nofun⟩ fun t ht => ?_
  obtain rfl := Option.mem_some_iff.mp ht
  exact hty

/-- A statement has no type, unless it is a declaration, whose type is `int`. -/
theorem addStmt_eq (b : Builder) (form : StmtKind String) :
    ∃ ty, b.addStmt form = b.onUnit (·.addStmt form ty b.line) ∧ ∀ t ∈ ty, t = TypeTable.int := by
  cases form with
  | declare name init => exact ⟨some TypeTable.int, rfl, fun t ht => (Option.mem_some_iff.mp ht).symm⟩
  | _ => exact ⟨none, rfl, nofun⟩

theorem built_addStmt (h : b.unit.Built) (form : StmtKind String) (hform : b.unit.KnowsStmt form) :
    (b.addStmt form).2.unit.Built := by
  obtain ⟨ty, heq, hint⟩ := b.addStmt_eq form
  rw [heq]
  refine .addStmt form ty b.line h hform fun t ht => ?_
  rw [hint t ht]
  exact Nat.lt_of_lt_of_le (by decide) h.wellFormed.scalars

theorem built_addDeclaration (h : b.unit.Built) (name : String) {ty : TypeId} {init : Option ExprId}
    (hty : ty < b.unit.types.size) (hinit : ∀ id ∈ init, id < b.unit.exprs.size) :
    (b.addDeclaration name ty init).2.unit.Built := by
  refine .addStmt (.declare name init) (some ty) b.line h ⟨nofun, fun id hid => hinit id ?_⟩
    fun t ht => ?_
  · simpa [StmtKind.exprs] using hid
  · obtain rfl := Option.mem_some_iff.mp ht
    exact hty

theorem built_addFunction (h : b.unit.Built) (name : String) {returnType : TypeId}
    {params : List (Option String × TypeId)} {body : Option StmtId}
    (hreturn : returnType < b.unit.types.size) (hparams : ∀ param ∈ params, param.2 < b.unit.types.size)
    (hbody : ∀ id ∈ body, id < b.unit.stmts.size) :
    (b.addFunction name returnType params body).unit.Built :=
  .addFunction name returnType params body b.line h hreturn hparams hbody

theorem built_addIntFunction (h : b.unit.Built) (name : String) (params : List String) {body : StmtId}
    (hbody : body < b.unit.stmts.size) : (b.addIntFunction name params body).unit.Built := by
  have hint : TypeTable.int < b.unit.types.size :=
    Nat.lt_of_lt_of_le (by decide) h.wellFormed.scalars
  refine built_addFunction h name hint (fun param hparam => ?_) fun id hid => ?_
  · obtain ⟨_, _, rfl⟩ := List.mem_map.mp hparam
    exact hint
  · obtain rfl := Option.mem_some_iff.mp hid
    exact hbody

theorem built_addGlobal (h : b.unit.Built) (name : String) {ty : TypeId} {init : Option ExprId}
    (hty : ty < b.unit.types.size) (hinit : ∀ id ∈ init, id < b.unit.exprs.size) :
    (b.addGlobal name ty init).unit.Built :=
  .addGlobal name ty init b.line h hty hinit

end Builder

end MiddleEnd
