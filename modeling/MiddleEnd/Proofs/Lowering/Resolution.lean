import MiddleEnd.Proofs.Lowering.Walk

/-!
# Gotos and labels

The blocks of the labels are made before a body is lowered, and the walk over the body goes on in each of
them once: at the label it was made for. A goto leads to the block of the first label with its name.

## Main definitions

* `StmtVisit.Emits`, `StmtVisit.Enters`: what lowering a goto and lowering a label lead to.
* `currents`: the blocks that are current in the course of a walk.
* `LabelsResolve`: how the labels and gotos of a body are resolved.

## Main statements

* `Course.notMem_currents`, `Course.stretch_currents`: a block that was there before becomes current only at
  a label.
* `SourceUnit.labels_resolve`: the labels and gotos of a lowered function.
-/

namespace MiddleEnd

open LowerM

-- ════════════════════════════════════════════════════════════════════════
-- Single visits
-- ════════════════════════════════════════════════════════════════════════

/-- Lowering the statement appends one instruction to the current block and changes nothing else in the
function, and there the instruction stays. -/
structure StmtVisit.Emits (v : StmtVisit) (f : Function) (i : Instr) : Prop where
  appended : v.after.fn = v.before.fn.pushed v.before.current i
  stands : (f.code v.before.current)[(v.before.fn.code v.before.current).length]? = some i

/-- Lowering the statement makes block `b` current, which has no instructions yet. If the block before is
open it ends in a jump to `b` from then on, and otherwise nothing is added. -/
structure StmtVisit.Enters (v : StmtVisit) (f : Function) (b : BlockId) (line : Nat) : Prop where
  empty : v.before.fn.code b = []
  elsewhere : v.before.current ≠ b
  current : v.after.current = b
  falls : v.before.IsOpen → v.Emits f (.jump b line) ∧
    (f.code v.before.current).getLast? = some (.jump b line)
  stays : ¬ v.before.IsOpen → v.after.fn = v.before.fn

section Runs

variable {unit : SourceUnit} {id : StmtId} {s s' : Lowering} {depth : Nat}

theorem lt_of_ensureJump {target : BlockId} {u : Unit} (h : ensureJump target s = .ok (u, s')) :
    s.current < s.fn.blockCount := by
  obtain ⟨_, _, hclosed, _⟩ := exists_of_bind h
  obtain ⟨_, _, hget, hblock⟩ := exists_of_bind hclosed
  cases hget
  rw [lift_bind_apply] at hblock
  obtain ⟨_, hblock, _⟩ := bind_eq_ok.mp hblock
  exact (Array.getElem?_eq_some_iff.mp (require_eq_ok_iff.mp hblock)).1

/-- A statement is lowered with its own line. -/
theorem exists_of_lowerStmtWithin (h : unit.lowerStmtWithin depth id s = .ok ((), s')) :
    ∃ depth' node s₁, unit.stmt id = .ok node ∧ s' = { s₁ with line := s.line } ∧
      lowerStmtKind unit (unit.lowerStmtWithin depth') id node.ty node.kind { s with line := node.line } =
        .ok ((), s₁) := by
  cases depth with
  | zero => cases h
  | succ depth =>
    rw [SourceUnit.lowerStmtWithin, lift_bind_apply] at h
    obtain ⟨node, hnode, h⟩ := bind_eq_ok.mp h
    obtain ⟨s₁, hrun, heq⟩ := exists_of_withLine h
    exact ⟨depth, node, s₁, hnode, heq, hrun⟩

/-- What lowering a label that has a block leads to. -/
theorem exists_of_label (h : unit.lowerStmtWithin depth id s = .ok ((), s'))
    (hlabel : unit.isLabel id = true) {b : BlockId} (hb : s.labelBlocks.lookup id = some b) :
    ∃ node, unit.stmt id = .ok node ∧ s.current < s.fn.blockCount ∧ s'.current = b ∧
      (s.IsOpen → s'.fn = s.fn.pushed s.current (.jump b node.line)) ∧ (¬ s.IsOpen → s'.fn = s.fn) := by
  obtain ⟨depth', node, s₁, hnode, rfl, hrun⟩ := exists_of_lowerStmtWithin h
  rw [SourceUnit.isLabel, unit.labelName?_eq hnode] at hlabel
  obtain ⟨name, hname⟩ := Option.isSome_iff_exists.mp hlabel
  cases hkind : node.kind with
  | label =>
    rw [hkind] at hrun
    obtain ⟨_, _, hget, hrun⟩ := exists_of_bind hrun
    cases hget
    rw [show List.lookup id _ = _ from hb] at hrun
    obtain ⟨_, s₂, hjump, hswitch⟩ := exists_of_bind hrun
    cases hswitch
    have hlt := lt_of_ensureJump hjump
    refine ⟨node, hnode, hlt, rfl, fun hopen => ?_, fun hclosed => ?_⟩
    · rw [eq_of_ensureJump (s := { s with line := node.line }) hlt hopen hjump]
      rfl
    · have heq := ensureJump_of_closed (s := { s with line := node.line }) hlt (not_not.mp hclosed) b
      obtain rfl := (Prod.mk.inj (Except.ok.inj (hjump.symm.trans heq))).2
      rfl
  | _ =>
    rw [hkind] at hname
    cases hname

/-- The instruction of a goto. -/
def gotoInstr (target : Option BlockId) (line : Nat) : Instr :=
  match target with
  | some b => .jump b line
  | none => .nop line

theorem isPhi_gotoInstr (target : Option BlockId) (line : Nat) : (gotoInstr target line).isPhi = false := by
  cases target <;> rfl

/-- What lowering a goto leads to. -/
theorem exists_of_goto (h : unit.lowerStmtWithin depth id s = .ok ((), s')) {name : Name}
    (hname : unit.gotoName? id = some name) :
    ∃ node, unit.stmt id = .ok node ∧ s.current < s.fn.blockCount ∧
      s'.fn = s.fn.pushed s.current (gotoInstr (s.gotoTargets.lookup name) node.line) := by
  obtain ⟨depth', node, s₁, hnode, rfl, hrun⟩ := exists_of_lowerStmtWithin h
  rw [unit.gotoName?_eq hnode] at hname
  refine ⟨node, hnode, ?_⟩
  cases hkind : node.kind with
  | goto target =>
    rw [hkind] at hrun hname
    cases hname
    obtain ⟨_, _, hget, hrun⟩ := exists_of_bind hrun
    cases hget
    generalize ht : { s with line := node.line } = t at hrun
    have hemit : emit (gotoInstr (s.gotoTargets.lookup name)) t = .ok ((), s₁) := by
      rw [← hrun, ← ht]
      cases s.gotoTargets.lookup name <;> rfl
    have hpushed := eq_pushed_of_emit hemit
    have hlt := lt_of_emit hemit
    subst ht hpushed
    exact ⟨hlt, rfl⟩
  | _ =>
    rw [hkind] at hname
    cases hname

end Runs

-- ════════════════════════════════════════════════════════════════════════
-- Current blocks
-- ════════════════════════════════════════════════════════════════════════

/-- The blocks that are current in the course of a walk: where it begins, at each statement, behind each
label, and where it ends. -/
def currents (unit : SourceUnit) : Lowering → List StmtVisit → Lowering → List BlockId
  | s, [], s' => [s.current, s'.current]
  | s, v :: visits, s' =>
    if unit.isLabel v.stmt then s.current :: v.before.current :: currents unit v.after visits s'
    else s.current :: currents unit v.before visits s'

/-- The labels among the visits go on in other blocks than `b`, and add only to the block they leave. -/
def Passes (unit : SourceUnit) (b : BlockId) (visits : List StmtVisit) : Prop :=
  ∀ v ∈ visits, unit.isLabel v.stmt = true → v.after.current ≠ b ∧
    ∀ c, c ≠ v.before.current → v.after.fn.code c = v.before.fn.code c

namespace Course

variable {unit : SourceUnit} {m : Nat} {s s' : Lowering} {visits pre post : List StmtVisit} {v : StmtVisit}
  {b : BlockId}

theorem adds_before (h : Course unit m s visits s') (hv : v ∈ visits) : s.Adds unit 0 v.before := by
  induction h with
  | done => cases hv
  | inside h _ _ ih =>
    obtain rfl | hv := List.mem_cons.mp hv
    · exact h.weaken (Nat.zero_le m)
    · exact (h.weaken (Nat.zero_le m)).trans (ih hv)
  | label h _ hlabel _ ih =>
    obtain rfl | hv := List.mem_cons.mp hv
    · exact h.weaken (Nat.zero_le m)
    · exact ((h.weaken (Nat.zero_le m)).trans hlabel).trans (ih hv)

/-- The course before a label, and that behind it. -/
theorem split (h : Course unit m s (pre ++ v :: post) s') (hlabel : unit.isLabel v.stmt = true) :
    Course unit m s pre v.before ∧ Course unit m v.after post s' := by
  induction pre generalizing s with
  | nil =>
    cases h with
    | inside _ hkind => rw [hlabel] at hkind; cases hkind
    | label h _ _ rest => exact ⟨.done h, rest⟩
  | cons u pre ih =>
    cases h with
    | inside h hkind rest => exact (ih rest).imp (.inside h hkind) id
    | label h hkind hadds rest => exact (ih rest).imp (.label h hkind hadds) id

/-- A block that was there before, is not current and belongs to none of the labels does not become
current, and nothing is added to it. -/
theorem notMem_currents (h : Course unit m s visits s') (hb : b < m) (hs : s.current ≠ b)
    (hpass : Passes unit b visits) :
    b ∉ currents unit s visits s' ∧ s'.current ≠ b ∧ s'.fn.code b = s.fn.code b := by
  have hstep : ∀ {t t' : Lowering}, t.Adds unit m t' → t.current ≠ b →
      t'.current ≠ b ∧ t'.fn.code b = t.fn.code b := by
    intro t t' hadds ht
    refine ⟨?_, hadds.grows.kept b hb (Ne.symm ht)⟩
    obtain heq | hge := hadds.grows.current
    · exact heq ▸ ht
    · exact Nat.ne_of_gt (Nat.lt_of_lt_of_le hb hge)
  induction h with
  | done h =>
    obtain ⟨hs', hcode⟩ := hstep h hs
    exact ⟨by simp [currents, Ne.symm hs, Ne.symm hs'], hs', hcode⟩
  | inside h hkind _ ih =>
    obtain ⟨hbefore, hcode⟩ := hstep h hs
    obtain ⟨hmem, hs', hcode'⟩ := ih hbefore fun u hu => hpass u (List.mem_cons_of_mem _ hu)
    exact ⟨by simp [currents, hkind, Ne.symm hs, hmem], hs', hcode'.trans hcode⟩
  | label h hkind _ _ ih =>
    obtain ⟨hbefore, hcode⟩ := hstep h hs
    obtain ⟨hafter, hkept⟩ := hpass _ List.mem_cons_self hkind
    obtain ⟨hmem, hs', hcode'⟩ := ih hafter fun u hu => hpass u (List.mem_cons_of_mem _ hu)
    refine ⟨by simp [currents, hkind, Ne.symm hs, Ne.symm hbefore, hmem], hs', ?_⟩
    rw [hcode', hkept b (Ne.symm hbefore), hcode]

/-- A block that was there before, is current and belongs to none of the labels stays current for a while,
and does not become current again. -/
theorem stretch_currents (h : Course unit m s visits s') (hb : b < m) (hs : s.current = b)
    (hpass : Passes unit b visits) :
    ∃ k rest, currents unit s visits s' = List.replicate (k + 1) b ++ rest ∧ b ∉ rest := by
  induction h with
  | @done s s' h =>
    by_cases hs' : s'.current = b
    · exact ⟨1, [], by rw [currents, hs, hs']; rfl, List.not_mem_nil⟩
    · exact ⟨0, [s'.current], by rw [currents, hs]; rfl, by simp [Ne.symm hs']⟩
  | @inside s s' v visits h hkind rest ih =>
    have hpass' : Passes unit b visits := fun u hu => hpass u (List.mem_cons_of_mem _ hu)
    have hcurrents : currents unit s (v :: visits) s' = b :: currents unit v.before visits s' := by
      rw [currents, if_neg (by simp [hkind]), hs]
    rw [hcurrents]
    by_cases hbefore : v.before.current = b
    · obtain ⟨k, rest, heq, hrest⟩ := ih hbefore hpass'
      exact ⟨k + 1, rest, by rw [heq]; rfl, hrest⟩
    · exact ⟨0, _, rfl, (rest.notMem_currents hb hbefore hpass').1⟩
  | @label s s' v visits h hkind _ rest _ =>
    have hpass' : Passes unit b visits := fun u hu => hpass u (List.mem_cons_of_mem _ hu)
    have hmem := (rest.notMem_currents hb (hpass v List.mem_cons_self hkind).1 hpass').1
    have hcurrents : currents unit s (v :: visits) s' =
        b :: v.before.current :: currents unit v.after visits s' := by
      rw [currents, if_pos hkind, hs]
    rw [hcurrents]
    by_cases hbefore : v.before.current = b
    · exact ⟨1, _, by rw [hbefore]; rfl, hmem⟩
    · exact ⟨0, _, rfl, List.not_mem_cons_of_ne_of_not_mem (Ne.symm hbefore) hmem⟩

end Course

-- ════════════════════════════════════════════════════════════════════════
-- Bodies
-- ════════════════════════════════════════════════════════════════════════

/-- How the labels and gotos of a body are resolved by a walk that leads from `start` to `last` and leaves
the function `f`. -/
structure LabelsResolve (unit : SourceUnit) (nodes : List StmtId) (start : Lowering)
    (visits : List StmtVisit) (last : Lowering) (f : Function) : Prop where
  /-- Each label has a block. -/
  blocks : ∀ id ∈ nodes, unit.isLabel id = true → ∃ b, start.labelBlocks.lookup id = some b
  /-- No two labels have the same block. -/
  apart : ∀ id id' b, start.labelBlocks.lookup id = some b → start.labelBlocks.lookup id' = some b → id = id'
  /-- The walk comes to the labels and gotos in source order, to each as often as it stands there. -/
  order : (visits.map (·.stmt)).filter unit.isMark = nodes.filter unit.isMark
  /-- At a label it goes on in the block of the label. -/
  label : ∀ v ∈ visits, unit.isLabel v.stmt = true → ∃ b node, v.before.labelBlocks.lookup v.stmt = some b ∧
    unit.stmt v.stmt = .ok node ∧ v.Enters f b node.line
  /-- The block of a label is current from the label on for a while, and at no other time. -/
  once : ∀ pre v post, visits = pre ++ v :: post → unit.isLabel v.stmt = true →
    ∀ b, start.labelBlocks.lookup v.stmt = some b → b ∉ currents unit start pre v.before ∧
      ∃ k rest, currents unit v.after post last = List.replicate (k + 1) b ++ rest ∧ b ∉ rest
  /-- A goto leads to the block of the first label with its name. -/
  found : ∀ v ∈ visits, ∀ name id, unit.gotoName? v.stmt = some name →
    nodes.find? (fun id => unit.labelName? id == some name) = some id →
    ∃ b node, start.labelBlocks.lookup id = some b ∧ unit.stmt v.stmt = .ok node ∧
      v.Emits f (.jump b node.line)
  /-- It does nothing if there is no such label. -/
  missing : ∀ v ∈ visits, ∀ name, unit.gotoName? v.stmt = some name →
    (∀ id ∈ nodes, unit.labelName? id ≠ some name) →
    ∃ node, unit.stmt v.stmt = .ok node ∧ v.Emits f (.nop node.line)

namespace BodyWalk

variable {unit : SourceUnit} {texts : Interner} {decl : FunctionDecl} {body : StmtId} {nodes : List StmtId}
  {entered start last : Lowering} {visits pre post : List StmtVisit} {v : StmtVisit} {b : BlockId}

theorem labels_visited (h : BodyWalk unit texts decl body nodes entered start visits last) :
    (visits.map (·.stmt)).filter unit.isLabel = nodes.filter unit.isLabel := by
  have hmarks := congrArg (List.filter unit.isLabel) h.marks
  have hlabel : ∀ ids : List StmtId,
      (ids.filter unit.isMark).filter unit.isLabel = ids.filter unit.isLabel := by
    intro ids
    rw [List.filter_filter]
    refine List.filter_congr fun id _ => ?_
    cases hid : unit.isLabel id <;> simp [SourceUnit.isMark, hid]
  rwa [hlabel, hlabel] at hmarks

/-- Before a statement the tables of labels are as at the start. -/
theorem tables_before (h : BodyWalk unit texts decl body nodes entered start visits last) (hv : v ∈ visits) :
    v.before.labelBlocks = start.labelBlocks ∧ v.before.gotoTargets = start.gotoTargets :=
  have hadds := h.walked.course.adds_before hv
  ⟨hadds.labels, hadds.gotos⟩

/-- The block of a label was made before the walk, and is not the one in which it begins. -/
theorem bounds_of_lookup (h : BodyWalk unit texts decl body nodes entered start visits last) {id : StmtId}
    (hb : start.labelBlocks.lookup id = some b) : b < start.fn.blockCount ∧ start.current ≠ b := by
  obtain ⟨hge, hlt, _⟩ := List.mem_zipIdx (h.prepared.mem_of_lookup_label h.blank.2.2.2 hb)
  rw [h.prepared.blocks, h.prepared.current]
  exact ⟨hlt, Nat.ne_of_lt (Nat.lt_of_lt_of_le h.blank.1 hge)⟩

theorem eq_of_lookup (h : BodyWalk unit texts decl body nodes entered start visits last) {id id' : StmtId}
    (hb : start.labelBlocks.lookup id = some b) (hb' : start.labelBlocks.lookup id' = some b) : id = id' := by
  obtain ⟨_, _, heq⟩ := List.mem_zipIdx (h.prepared.mem_of_lookup_label h.blank.2.2.2 hb)
  obtain ⟨_, _, heq'⟩ := List.mem_zipIdx (h.prepared.mem_of_lookup_label h.blank.2.2.2 hb')
  exact heq.trans heq'.symm

/-- Each label has a block if it occurs once. -/
theorem exists_block (h : BodyWalk unit texts decl body nodes entered start visits last)
    (honce : (nodes.filter unit.isLabel).Nodup) {id : StmtId} (hid : id ∈ nodes.filter unit.isLabel) :
    ∃ b, start.labelBlocks.lookup id = some b := by
  rw [← List.zipIdx_map_fst entered.fn.blockCount (nodes.filter unit.isLabel)] at hid
  obtain ⟨⟨_, b⟩, hmem, rfl⟩ := List.mem_map.mp hid
  exact ⟨b, h.prepared.lookup_label honce hmem⟩

theorem mem_labels (h : BodyWalk unit texts decl body nodes entered start visits last) (hv : v ∈ visits)
    (hlabel : unit.isLabel v.stmt = true) : v.stmt ∈ nodes.filter unit.isLabel := by
  rw [← h.labels_visited]
  exact List.mem_filter.mpr ⟨List.mem_map_of_mem hv, hlabel⟩

/-- What a visit appends stays where it is. -/
theorem emits (h : BodyWalk unit texts decl body nodes entered start visits last) (hfinal : last.Final)
    (hv : v ∈ visits) {i : Instr} (hphi : i.isPhi = false) (hlt : v.before.current < v.before.fn.blockCount)
    (happended : v.after.fn = v.before.fn.pushed v.before.current i) : v.Emits last.finished i := by
  refine ⟨happended, ?_⟩
  have hget : (v.after.fn.code v.before.current)[(v.before.fn.code v.before.current).length]? = some i := by
    rw [happended]
    exact Lowering.getElem?_code_pushed hlt
  have hlast := (h.walked.goes v hv).grows.getElem?_code hget
  have hfinished := hfinal.getElem?_code hlast
  rwa [hfinal.aligned_eq (List.mem_of_getElem? hlast) hphi] at hfinished

/-- Other labels than the one that a block belongs to pass it by. -/
theorem passes (h : BodyWalk unit texts decl body nodes entered start visits last)
    (honce : (nodes.filter unit.isLabel).Nodup) {id : StmtId} (hb : start.labelBlocks.lookup id = some b)
    {others : List StmtVisit} (hothers : ∀ u ∈ others, u ∈ visits)
    (hne : ∀ u ∈ others, unit.isLabel u.stmt = true → u.stmt ≠ id) : Passes unit b others := by
  intro u hu hlabel
  obtain ⟨depth, hrun⟩ := h.walked.runs u (hothers u hu)
  obtain ⟨b', hb'⟩ := h.exists_block honce (h.mem_labels (hothers u hu) hlabel)
  have hlookup := hb'
  rw [← (h.tables_before (hothers u hu)).1] at hlookup
  obtain ⟨node, _, _, hcurrent, hopen, hclosed⟩ := exists_of_label hrun hlabel hlookup
  refine ⟨?_, fun c hc => ?_⟩
  · rw [hcurrent]
    rintro rfl
    exact hne u hu hlabel (h.eq_of_lookup hb' hb)
  · by_cases ho : u.before.IsOpen
    · rw [hopen ho, Function.code_pushed_ne _ _ _ hc]
    · rw [hclosed ho]

/-- A label that occurs once is visited once. -/
theorem ne_of_split (h : BodyWalk unit texts decl body nodes entered start visits last)
    (honce : (nodes.filter unit.isLabel).Nodup) (hsplit : visits = pre ++ v :: post)
    (hlabel : unit.isLabel v.stmt = true) {u : StmtVisit} (hu : u ∈ pre ++ post)
    (hlabel' : unit.isLabel u.stmt = true) : u.stmt ≠ v.stmt := by
  have hnodup := honce
  rw [← h.labels_visited, hsplit, List.map_append, List.map_cons, List.filter_append,
    List.filter_cons_of_pos hlabel, List.nodup_middle, ← List.filter_append, ← List.map_append] at hnodup
  intro heq
  refine (List.nodup_cons.mp hnodup).1 (heq ▸ ?_)
  exact List.mem_filter.mpr ⟨List.mem_map_of_mem hu, hlabel'⟩

/-- What lowering a label leads to. -/
theorem enters (h : BodyWalk unit texts decl body nodes entered start visits last) (hfinal : last.Final)
    (honce : (nodes.filter unit.isLabel).Nodup) (hv : v ∈ visits) (hlabel : unit.isLabel v.stmt = true)
    (hb : start.labelBlocks.lookup v.stmt = some b) :
    ∃ node, unit.stmt v.stmt = .ok node ∧ v.Enters last.finished b node.line := by
  obtain ⟨avail, hsound⟩ := hfinal.sound
  obtain ⟨pre, post, hsplit⟩ := List.append_of_mem hv
  obtain ⟨hlt, hstart⟩ := h.bounds_of_lookup hb
  -- The block is as it was made, since the walk has not come to the label before.
  have hpass : Passes unit b pre := h.passes honce hb
    (fun u hu => hsplit ▸ List.mem_append_left _ hu)
    fun u hu => h.ne_of_split honce hsplit hlabel (List.mem_append_left _ hu)
  obtain ⟨hpre, _⟩ := (hsplit ▸ h.walked.course).split hlabel
  obtain ⟨_, helsewhere, hcode⟩ := hpre.notMem_currents hlt hstart hpass
  obtain ⟨depth, hrun⟩ := h.walked.runs v hv
  obtain ⟨node, hnode, hcurrent, hafter, hopen, hclosed⟩ :=
    exists_of_label hrun hlabel ((h.tables_before hv).1 ▸ hb)
  refine ⟨node, hnode, hcode.trans (h.code_start b), helsewhere, hafter, fun ho => ?_, hclosed⟩
  have hemits := h.emits hfinal hv rfl hcurrent (hopen ho)
  exact ⟨hemits, hsound.lowered.getLast?_of_isTerminator (List.mem_of_getElem? hemits.stands) rfl⟩

/-- When the block of a label is current. -/
theorem stretch (h : BodyWalk unit texts decl body nodes entered start visits last) (hfinal : last.Final)
    (honce : (nodes.filter unit.isLabel).Nodup) (hsplit : visits = pre ++ v :: post)
    (hlabel : unit.isLabel v.stmt = true) (hb : start.labelBlocks.lookup v.stmt = some b) :
    b ∉ currents unit start pre v.before ∧
      ∃ k rest, currents unit v.after post last = List.replicate (k + 1) b ++ rest ∧ b ∉ rest := by
  have hv : v ∈ visits := hsplit ▸ List.mem_append_right _ List.mem_cons_self
  obtain ⟨node, _, henters⟩ := h.enters hfinal honce hv hlabel hb
  obtain ⟨hlt, hstart⟩ := h.bounds_of_lookup hb
  obtain ⟨hpre, hpost⟩ := (hsplit ▸ h.walked.course).split hlabel
  refine ⟨(hpre.notMem_currents hlt hstart ?_).1, hpost.stretch_currents hlt henters.current ?_⟩
  · exact h.passes honce hb (fun u hu => hsplit ▸ List.mem_append_left _ hu)
      fun u hu => h.ne_of_split honce hsplit hlabel (List.mem_append_left _ hu)
  · exact h.passes honce hb (fun u hu => hsplit ▸ List.mem_append_right _ (List.mem_cons_of_mem _ hu))
      fun u hu => h.ne_of_split honce hsplit hlabel (List.mem_append_right _ hu)

/-- What lowering a goto leads to. -/
theorem emits_goto (h : BodyWalk unit texts decl body nodes entered start visits last) (hfinal : last.Final)
    (honce : (nodes.filter unit.isLabel).Nodup) (hv : v ∈ visits) {name : Name}
    (hname : unit.gotoName? v.stmt = some name) :
    ∃ node, unit.stmt v.stmt = .ok node ∧ v.Emits last.finished (gotoInstr
      ((nodes.find? fun id => unit.labelName? id == some name).bind fun id => start.labelBlocks.lookup id)
      node.line) := by
  obtain ⟨depth, hrun⟩ := h.walked.runs v hv
  obtain ⟨node, hnode, hlt, happended⟩ := exists_of_goto hrun hname
  refine ⟨node, hnode, h.emits hfinal hv (isPhi_gotoInstr _ _) hlt ?_⟩
  have hlabels : (nodes.filter unit.isLabel).find? (fun id => unit.labelName? id == some name) =
      nodes.find? fun id => unit.labelName? id == some name := by
    rw [List.find?_filter]
    refine congrArg (List.find? · nodes) (funext fun id => ?_)
    by_cases hid : unit.labelName? id = some name <;> simp [SourceUnit.isLabel, hid]
  rw [happended, (h.tables_before hv).2, h.prepared.lookup_goto h.blank.2.2.1 honce, hlabels]

/-- The labels and gotos are resolved if each label occurs once. -/
theorem resolves (h : BodyWalk unit texts decl body nodes entered start visits last) (hfinal : last.Final)
    (honce : (nodes.filter unit.isLabel).Nodup) :
    LabelsResolve unit nodes start visits last last.finished where
  blocks _ hid hlabel := h.exists_block honce (List.mem_filter.mpr ⟨hid, hlabel⟩)
  apart _ _ _ := h.eq_of_lookup
  order := h.marks
  label v hv hlabel := by
    obtain ⟨b, hb⟩ := h.exists_block honce (h.mem_labels hv hlabel)
    obtain ⟨node, hnode, henters⟩ := h.enters hfinal honce hv hlabel hb
    exact ⟨b, node, (h.tables_before hv).1 ▸ hb, hnode, henters⟩
  once _ _ _ hsplit hlabel _ := h.stretch hfinal honce hsplit hlabel
  found v hv name id hname hfind := by
    obtain ⟨node, hnode, hemits⟩ := h.emits_goto hfinal honce hv hname
    have hlabel : unit.labelName? id = some name := by simpa using List.find?_some hfind
    obtain ⟨b, hb⟩ := h.exists_block honce
      (List.mem_filter.mpr ⟨List.mem_of_find?_eq_some hfind, by rw [SourceUnit.isLabel, hlabel]; rfl⟩)
    rw [hfind, Option.bind_some, hb] at hemits
    exact ⟨b, node, hb, hnode, hemits⟩
  missing v hv name hname hnone := by
    obtain ⟨node, hnode, hemits⟩ := h.emits_goto hfinal honce hv hname
    have hfind : (nodes.find? fun id => unit.labelName? id == some name) = none :=
      List.find?_eq_none.mpr fun id hid => by simpa using hnone id hid
    rw [hfind] at hemits
    exact ⟨node, hnode, hemits⟩

end BodyWalk

/-- The labels and gotos of a lowered function are resolved, whatever they are nested in, if each label
statement occurs once in its body. -/
theorem SourceUnit.labels_resolve {unit : SourceUnit} {texts texts' : Interner} {decl : FunctionDecl}
    {f : Function} (h : unit.lowerFunction texts decl = .ok (some f, texts')) :
    ∃ body nodes entered start visits last, decl.body = some body ∧
      BodyWalk unit texts decl body nodes entered start visits last ∧ f = last.finished ∧
      ((nodes.filter unit.isLabel).Nodup → LabelsResolve unit nodes start visits last f) := by
  obtain ⟨body, nodes, entered, start, visits, last, hbody, hwalk, hfinal, rfl⟩ := exists_bodyWalk h
  exact ⟨body, nodes, entered, start, visits, last, hbody, hwalk, rfl, hwalk.resolves hfinal⟩

/-- A unit with the function
`int knot(int n) { goto out; while (n) { again: goto again; goto nowhere; } again: return 0; out: ; }`. -/
def knotUnit : SourceUnit where
  names := { texts := #["knot", "n", "again", "out", "nowhere"] }
  exprs := #[
    { kind := .ident 1, ty := some TypeTable.int, line := 2 },
    { kind := .int 0, ty := some TypeTable.int, line := 3 }]
  stmts := #[
    { kind := .goto 3, ty := none, line := 1 },
    { kind := .label 2, ty := none, line := 2 },
    { kind := .goto 2, ty := none, line := 2 },
    { kind := .goto 4, ty := none, line := 2 },
    { kind := .block [1, 2, 3], ty := none, line := 2 },
    { kind := .whileLoop 0 4, ty := none, line := 2 },
    { kind := .label 2, ty := none, line := 3 },
    { kind := .ret (some 1), ty := none, line := 3 },
    { kind := .label 3, ty := none, line := 4 },
    { kind := .empty, ty := none, line := 4 },
    { kind := .block [0, 5, 6, 7, 8, 9], ty := none, line := 1 }]

/-- The declaration of that function. -/
def knotDecl : FunctionDecl where
  name := 0
  returnType := TypeTable.int
  params := [⟨some 1, TypeTable.int⟩]
  body := some 10
  line := 1

/-- Two labels have the same name, and a goto asks for a name that no label has. Still each label has a
block, and the three gotos lead to the blocks of the third and the first label, and nowhere. -/
theorem knot_resolves : ∃ f texts start visits last,
    knotUnit.lowerFunction {} knotDecl = .ok (some f, texts) ∧
      (visits.map (·.stmt)).filter knotUnit.isMark = [0, 1, 2, 3, 6, 8] ∧
      LabelsResolve knotUnit [10, 0, 5, 4, 1, 2, 3, 6, 7, 8, 9] start visits last f := by
  have hsome : ((knotUnit.lowerFunction {} knotDecl).toOption.bind (·.1)).isSome = true := by
    decide +kernel
  have hnodes : knotUnit.statements 10 = .ok [10, 0, 5, 4, 1, 2, 3, 6, 7, 8, 9] := by decide +kernel
  obtain ⟨f, hf⟩ := Option.isSome_iff_exists.mp hsome
  obtain ⟨texts, hlower⟩ := exists_of_toOption_bind hf
  obtain ⟨body, nodes, entered, start, visits, last, hbody, hwalk, _, hresolve⟩ :=
    SourceUnit.labels_resolve hlower
  cases hbody
  obtain rfl := Except.ok.inj (hwalk.source.symm.trans hnodes)
  refine ⟨f, texts, start, visits, last, hlower, ?_, hresolve (by decide +kernel)⟩
  rw [hwalk.marks]
  decide +kernel

end MiddleEnd
