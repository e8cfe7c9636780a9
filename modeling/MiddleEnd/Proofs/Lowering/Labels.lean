import MiddleEnd.Proofs.Lowering.Refinement

/-!
# The labels of a body

Before a body is lowered, a block is made for each label in it. The walk that makes these blocks meets the
labels in source order, so the blocks have consecutive numbers in this order.

## Main definitions

* `SourceUnit.statements`: the statements in a statement, in source order.
* `SourceUnit.labelName?`, `SourceUnit.gotoName?`: labels and gotos.
* `Lowering.MakesBlocks`: blocks were made for the given labels.

## Main statements

* `SourceUnit.makesBlocks_createLabels`: what making the blocks of all labels leads to.
* `Lowering.MakesBlocks.lookup_label`, `Lowering.MakesBlocks.lookup_goto`: the block of a label, and where
  a goto leads.
-/

namespace MiddleEnd

open LowerM

-- ════════════════════════════════════════════════════════════════════════
-- Labels and gotos
-- ════════════════════════════════════════════════════════════════════════

namespace StmtKind

variable {ν : Type}

/-- The name of a label. -/
def labelName? : StmtKind ν → Option ν
  | label name => some name
  | _ => none

/-- The name that a goto asks for. -/
def gotoName? : StmtKind ν → Option ν
  | goto target => some target
  | _ => none

end StmtKind

namespace SourceUnit

variable (unit : SourceUnit)

/-- The name of a label. -/
def labelName? (id : StmtId) : Option Name := (unit.stmt id).toOption.bind (·.kind.labelName?)

/-- The name that a goto asks for. -/
def gotoName? (id : StmtId) : Option Name := (unit.stmt id).toOption.bind (·.kind.gotoName?)

/-- Whether the statement is a label. -/
def isLabel (id : StmtId) : Bool := (unit.labelName? id).isSome

/-- Whether the statement is a label or a goto. -/
def isMark (id : StmtId) : Bool := unit.isLabel id || (unit.gotoName? id).isSome

/-- The statements in a statement that is nested less than `depth` deep, in source order. -/
def statementsWithin : Nat → StmtId → Except Fault (List StmtId)
  | 0, _ => .error .endlessNesting
  | depth + 1, id => do
    let inner ← (← unit.stmt id).kind.parts.mapM (statementsWithin depth)
    return id :: inner.flatten

/-- The statements in a statement, in source order. -/
def statements (id : StmtId) : Except Fault (List StmtId) := unit.statementsWithin (unit.stmts.size + 1) id

/-- The labels and gotos in a statement that is nested less than `depth` deep, in source order. -/
def marksWithin (depth : Nat) (id : StmtId) : List StmtId :=
  match unit.statementsWithin depth id with
  | .ok nodes => nodes.filter unit.isMark
  | .error _ => []

theorem labelName?_eq {id : StmtId} {node : Stmt} (hnode : unit.stmt id = .ok node) :
    unit.labelName? id = node.kind.labelName? := by
  rw [labelName?, hnode]
  rfl

theorem gotoName?_eq {id : StmtId} {node : Stmt} (hnode : unit.stmt id = .ok node) :
    unit.gotoName? id = node.kind.gotoName? := by
  rw [gotoName?, hnode]
  rfl

variable {unit}

theorem isMark_eq {id : StmtId} {node : Stmt} (hnode : unit.stmt id = .ok node) :
    unit.isMark id = (node.kind.labelName?.isSome || node.kind.gotoName?.isSome) := by
  rw [isMark, isLabel, unit.labelName?_eq hnode, unit.gotoName?_eq hnode]

/-- The labels and gotos of statements one after the other. -/
theorem filter_isMark_mapM {depth : Nat} {parts : List StmtId} {inner : List (List StmtId)}
    (h : parts.mapM (unit.statementsWithin depth) = .ok inner) :
    inner.flatten.filter unit.isMark = parts.flatMap (unit.marksWithin depth) ∧
      ∀ id ∈ parts, Succeeds (unit.statementsWithin depth id) := by
  induction parts generalizing inner with
  | nil =>
    cases h
    exact ⟨rfl, fun _ hid => absurd hid List.not_mem_nil⟩
  | cons id parts ih =>
    rw [List.mapM_cons] at h
    obtain ⟨nodes, hnodes, h⟩ := bind_eq_ok.mp h
    obtain ⟨rest, hrest, h⟩ := bind_eq_ok.mp h
    cases h
    obtain ⟨hmarks, hparts⟩ := ih hrest
    have hhead : unit.marksWithin depth id = nodes.filter unit.isMark := by rw [marksWithin, hnodes]
    refine ⟨?_, List.forall_mem_cons.mpr ⟨⟨nodes, hnodes⟩, hparts⟩⟩
    rw [List.flatten_cons, List.filter_append, hmarks, List.flatMap_cons, hhead]

/-- The labels and gotos in a statement: the statement itself, and those in its parts. -/
theorem exists_of_statementsWithin {depth : Nat} {id : StmtId}
    (h : Succeeds (unit.statementsWithin (depth + 1) id)) : ∃ node, unit.stmt id = .ok node ∧
      (∀ part ∈ node.kind.parts, Succeeds (unit.statementsWithin depth part)) ∧
      unit.marksWithin (depth + 1) id =
        [id].filter unit.isMark ++ node.kind.parts.flatMap (unit.marksWithin depth) := by
  obtain ⟨nodes, hnodes⟩ := h
  rw [marksWithin, hnodes]
  obtain ⟨node, hnode, hrest⟩ := bind_eq_ok.mp hnodes
  obtain ⟨inner, hinner, heq⟩ := bind_eq_ok.mp hrest
  cases heq
  obtain ⟨hmarks, hparts⟩ := filter_isMark_mapM hinner
  refine ⟨node, hnode, hparts, ?_⟩
  rw [← hmarks, ← List.filter_append]
  rfl

/-- The labels and gotos in the body of a switch are those in its statements. -/
theorem exists_of_switchBody {depth : Nat} {body : StmtId}
    (h : Succeeds (unit.statementsWithin depth body)) : ∃ stmts depth',
      switchBody unit body = .ok stmts ∧ (∀ id ∈ stmts, Succeeds (unit.statementsWithin depth' id)) ∧
      unit.marksWithin depth body = stmts.flatMap (unit.marksWithin depth') := by
  cases depth with
  | zero => obtain ⟨_, ⟨⟩⟩ := h
  | succ depth =>
    obtain ⟨node, hnode, hparts, hmarks⟩ := exists_of_statementsWithin h
    have hmark := isMark_eq hnode
    rw [switchBody, hnode, ok_bind]
    cases hkind : node.kind with
    | block stmts =>
      rw [hkind] at hparts hmarks hmark
      refine ⟨stmts, depth, rfl, hparts, ?_⟩
      rw [hmarks, List.filter_cons_of_neg (by rw [hmark]; exact Bool.false_ne_true), List.filter_nil]
      rfl
    | _ =>
      refine ⟨[body], depth + 1, rfl, fun id hid => List.mem_singleton.mp hid ▸ h, ?_⟩
      rw [List.flatMap_singleton]

/-- There are no labels and gotos in what marks an entry of a switch. -/
theorem marksWithin_of_isSwitchLabel {depth : Nat} {id : StmtId} {node : Stmt}
    (hnode : unit.stmt id = .ok node) (hlabel : node.kind.isSwitchLabel = true) :
    unit.marksWithin depth id = [] := by
  cases depth with
  | zero => rfl
  | succ depth =>
    have hmark := isMark_eq hnode
    rw [marksWithin, statementsWithin, hnode, ok_bind]
    cases hkind : node.kind with
    | caseLabel | defaultLabel =>
      rw [hkind] at hmark
      exact List.filter_cons_of_neg (by rw [hmark]; exact Bool.false_ne_true)
    | _ =>
      rw [hkind] at hlabel
      cases hlabel

end SourceUnit

-- ════════════════════════════════════════════════════════════════════════
-- Making blocks
-- ════════════════════════════════════════════════════════════════════════

/-- Blocks were made for the given labels, one after the other, and nothing else happened. The numbers of
the blocks start where those before end. -/
structure Lowering.MakesBlocks (unit : SourceUnit) (labels : List StmtId) (s s' : Lowering) : Prop where
  code : s'.fn.code = s.fn.code
  current : s'.current = s.current
  blocks : s'.fn.blockCount = s.fn.blockCount + labels.length
  table : s'.labelBlocks = (labels.zipIdx s.fn.blockCount).reverse ++ s.labelBlocks
  gotos : ∀ name, s'.gotoTargets.lookup name = (s.gotoTargets.lookup name).or
    (((labels.zipIdx s.fn.blockCount).find? fun p => unit.labelName? p.1 == some name).map (·.2))

namespace Lowering.MakesBlocks

variable {unit : SourceUnit} {labels labels' : List StmtId} {s s₁ s' : Lowering}

theorem refl (unit : SourceUnit) (s : Lowering) : s.MakesBlocks unit [] s :=
  ⟨rfl, rfl, rfl, rfl, fun _ => Option.or_none.symm⟩

theorem append (h : s.MakesBlocks unit labels s₁) (h' : s₁.MakesBlocks unit labels' s') :
    s.MakesBlocks unit (labels ++ labels') s' where
  code := h'.code.trans h.code
  current := h'.current.trans h.current
  blocks := by rw [h'.blocks, h.blocks, List.length_append, Nat.add_assoc]
  table := by
    rw [h'.table, h.table, h.blocks, List.zipIdx_append, List.reverse_append, List.append_assoc]
  gotos name := by
    rw [h'.gotos, h.gotos, h.blocks, Option.or_assoc, List.zipIdx_append, List.find?_append, Option.map_or]

/-- A label that occurs once has the block that was made for it. -/
theorem lookup_label (h : s.MakesBlocks unit labels s') (honce : labels.Nodup) {id : StmtId} {b : BlockId}
    (hmem : (id, b) ∈ labels.zipIdx s.fn.blockCount) : s'.labelBlocks.lookup id = some b := by
  rw [h.table]
  obtain ⟨front, back, heq⟩ := List.append_of_mem (List.mem_reverse.mpr hmem)
  refine List.lookup_eq_some_iff.mpr ⟨front, back ++ s.labelBlocks, by rw [heq, List.append_assoc]; rfl, ?_⟩
  -- The labels in front of it are other ones.
  have hkeys : labels.reverse = front.map (·.1) ++ id :: back.map (·.1) := by
    rw [← List.zipIdx_map_fst s.fn.blockCount labels, ← List.map_reverse, heq, List.map_append]
    rfl
  have hnodup := List.nodup_reverse.mpr honce
  rw [hkeys] at hnodup
  intro p hp
  have hne : p.1 ≠ id := fun heq => (List.nodup_middle.mp hnodup).notMem
    (List.mem_append_left _ (heq ▸ List.mem_map_of_mem hp))
  exact bne_iff_ne.mpr (Ne.symm hne)

/-- Only the blocks that were made belong to labels. -/
theorem mem_of_lookup_label (h : s.MakesBlocks unit labels s') (hs : s.labelBlocks = []) {id : StmtId}
    {b : BlockId} (hb : s'.labelBlocks.lookup id = some b) : (id, b) ∈ labels.zipIdx s.fn.blockCount := by
  rw [h.table, hs, List.append_nil] at hb
  obtain ⟨front, back, heq, _⟩ := List.lookup_eq_some_iff.mp hb
  exact List.mem_reverse.mp (heq ▸ List.mem_append_right _ List.mem_cons_self)

/-- A goto leads to the block of the first label with its name. -/
theorem lookup_goto (h : s.MakesBlocks unit labels s') (hs : s.gotoTargets = []) (honce : labels.Nodup)
    (name : Name) : s'.gotoTargets.lookup name =
      (labels.find? fun id => unit.labelName? id == some name).bind fun id =>
        s'.labelBlocks.lookup id := by
  rw [h.gotos, hs, List.lookup_nil, Option.none_or]
  conv_rhs => rw [← List.zipIdx_map_fst s.fn.blockCount labels, List.find?_map]
  cases hfind : (labels.zipIdx s.fn.blockCount).find? fun p => unit.labelName? p.1 == some name with
  | none => rw [Function.comp_def, hfind]; rfl
  | some p =>
    rw [Function.comp_def, hfind]
    exact (h.lookup_label honce (List.mem_of_find?_eq_some hfind)).symm

end Lowering.MakesBlocks

namespace SourceUnit

variable {unit : SourceUnit}

theorem makesBlocks_createLabel {id : StmtId} {name : Name} {s s' : Lowering}
    (hname : unit.labelName? id = some name) (h : createLabel unit id name s = .ok ((), s')) :
    s.MakesBlocks unit [id] s' := by
  obtain ⟨text, s₁, htext, h⟩ := exists_of_bind h
  obtain ⟨b, s₂, hblock, h⟩ := exists_of_bind h
  obtain rfl : s = s₁ := by
    cases hlookup : unit.names.name name with
    | error fault => rw [hlookup] at htext; cases htext
    | ok text => rw [hlookup] at htext; cases htext; rfl
  obtain ⟨rfl, rfl⟩ := eq_of_newBlock hblock
  cases h
  refine ⟨funext (s.fn.code_grown text), rfl, s.fn.blockCount_grown text, rfl, fun other => ?_⟩
  change (s.gotoTargets ++ [(name, s.fn.blockCount)]).lookup other = _
  rw [List.lookup_append, List.zipIdx_singleton, List.find?_singleton, hname, List.lookup_cons]
  by_cases heq : other = name
  · subst heq
    simp
  · have hne : (some name == some other) = false := by simpa using Ne.symm heq
    simp [beq_eq_false_iff_ne.mpr heq, hne]

/-- Making the blocks of the labels in statements one after the other. -/
theorem makesBlocks_forM {depth : Nat} {parts : List StmtId} {s s' : Lowering}
    (hpart : ∀ id ∈ parts, ∀ s s', unit.createLabelsWithin depth id s = .ok ((), s') →
      ∃ nodes, unit.statementsWithin depth id = .ok nodes ∧ s.MakesBlocks unit (nodes.filter unit.isLabel) s')
    (h : parts.forM (unit.createLabelsWithin depth) s = .ok ((), s')) :
    ∃ inner, parts.mapM (unit.statementsWithin depth) = .ok inner ∧
      s.MakesBlocks unit (inner.flatten.filter unit.isLabel) s' := by
  induction parts generalizing s with
  | nil =>
    cases h
    exact ⟨[], rfl, .refl unit s'⟩
  | cons id parts ih =>
    obtain ⟨_, s₁, hfirst, hrest⟩ := exists_of_bind h
    obtain ⟨nodes, hnodes, hmakes⟩ := hpart id List.mem_cons_self s s₁ hfirst
    obtain ⟨inner, hinner, hmakes'⟩ := ih (fun id hid => hpart id (List.mem_cons_of_mem _ hid)) hrest
    refine ⟨nodes :: inner, ?_, ?_⟩
    · rw [List.mapM_cons, hnodes, hinner]
      rfl
    · rw [List.flatten_cons, List.filter_append]
      exact hmakes.append hmakes'

theorem makesBlocks_createLabelsWithin {depth : Nat} {id : StmtId} {s s' : Lowering}
    (h : unit.createLabelsWithin depth id s = .ok ((), s')) :
    ∃ nodes, unit.statementsWithin depth id = .ok nodes ∧
      s.MakesBlocks unit (nodes.filter unit.isLabel) s' := by
  induction depth generalizing id s s' with
  | zero => cases h
  | succ depth ih =>
    rw [createLabelsWithin, lift_bind_apply] at h
    obtain ⟨node, hnode, h⟩ := bind_eq_ok.mp h
    have hname := unit.labelName?_eq hnode
    -- A statement that is no label has the labels of its parts.
    have hparts : node.kind.labelName? = none →
        node.kind.parts.forM (unit.createLabelsWithin depth) s = .ok ((), s') →
        ∃ nodes, unit.statementsWithin (depth + 1) id = .ok nodes ∧
          s.MakesBlocks unit (nodes.filter unit.isLabel) s' := by
      intro hnone hforM
      obtain ⟨inner, hinner, hmakes⟩ := makesBlocks_forM (fun id _ _ _ h => ih h) hforM
      refine ⟨id :: inner.flatten, ?_, ?_⟩
      · rw [statementsWithin, hnode, ok_bind, hinner]
        rfl
      · rw [List.filter_cons_of_neg (by rw [isLabel, hname, hnone]; exact Bool.false_ne_true)]
        exact hmakes
    cases hkind : node.kind with
    | label name =>
      rw [hkind] at h hname
      refine ⟨[id], ?_, ?_⟩
      · rw [statementsWithin, hnode, ok_bind, hkind]
        rfl
      · rw [List.filter_cons_of_pos (by rw [isLabel, hname]; rfl)]
        exact makesBlocks_createLabel hname h
    | _ =>
      rw [hkind] at h hparts
      exact hparts rfl h

/-- Making the blocks of all labels in a statement. -/
theorem makesBlocks_createLabels {id : StmtId} {s s' : Lowering} (h : unit.createLabels id s = .ok ((), s')) :
    ∃ nodes, unit.statements id = .ok nodes ∧ s.MakesBlocks unit (nodes.filter unit.isLabel) s' :=
  makesBlocks_createLabelsWithin h

end SourceUnit

end MiddleEnd
