import MiddleEnd.Proofs.Lowering.Additions
import MiddleEnd.Proofs.Lowering.Labels

/-!
# The walk over statements

Lowering a statement walks over the statements inside it. The walk is seen from outside by stopping it: a
lowering that stops with a fault in front of some statements in some states comes to the fault of the first
one that it meets, and so tells which statements are met, in which order and in which states.

Between the labels the walk adds to the state, and never goes on in a block that was there when it began.
Which statements a form meets, and in what order, is its own, so the forms are taken one by one; of all that
happens in between `SourceUnit.adds` says enough.

## Main definitions

* `SourceUnit.lowerStmtUntil`: lowering that may be stopped.
* `StmtVisit`: a statement that was lowered, with the states before and after.
* `Course`: a run from visit to visit.
* `LowerM.Walks`: an action visits statements, among them the given gotos and labels.
* `BodyWalk`: how a function is lowered.

## Main statements

* `LowerM.Walks.bind` and the lemmas next to it: the walks of actions one after the other.
* `SourceUnit.walks_lowerStmtUntil`: lowering a statement visits the gotos and labels in it in source order.
* `SourceUnit.exists_bodyWalk`: every function is lowered by a walk over its body.
-/

namespace MiddleEnd

open LowerM

-- ════════════════════════════════════════════════════════════════════════
-- Stopping
-- ════════════════════════════════════════════════════════════════════════

/-- In front of which statements, and in which states, lowering is to stop. -/
abbrev Stops := StmtId → Lowering → Option Fault

/-- Lowering never stops. -/
def Stops.never : Stops := fun _ _ => none

namespace SourceUnit

/-- Lowers a statement as `lowerStmtWithin` does, unless it is to stop in front of it or of one inside. -/
def lowerStmtUntil (unit : SourceUnit) (stops : Stops) : Nat → StmtId → LowerM Unit
  | 0, _ => throw .endlessNesting
  | depth + 1, id => fun s =>
    match stops id s with
    | some fault => .error fault
    | none => (do
        let node ← unit.stmt id
        withLine node.line
          (lowerStmtKind unit (unit.lowerStmtUntil stops depth) id node.ty node.kind) : LowerM Unit) s

variable (unit : SourceUnit) (stops : Stops)

theorem lowerStmtUntil_stop {depth : Nat} {id : StmtId} {s : Lowering} {fault : Fault}
    (h : stops id s = some fault) : unit.lowerStmtUntil stops (depth + 1) id s = .error fault := by
  simp only [lowerStmtUntil, h]

theorem lowerStmtUntil_go {depth : Nat} {id : StmtId} {s : Lowering} {node : Stmt}
    (hnode : unit.stmt id = .ok node) (h : stops id s = none) :
    unit.lowerStmtUntil stops (depth + 1) id s = withLine node.line
      (lowerStmtKind unit (unit.lowerStmtUntil stops depth) id node.ty node.kind) s := by
  simp only [lowerStmtUntil, h]
  rw [lift_bind_apply, hnode]
  rfl

/-- A lowering that never stops is the lowering. -/
theorem lowerStmtUntil_never (depth : Nat) :
    unit.lowerStmtUntil .never depth = unit.lowerStmtWithin depth := by
  induction depth with
  | zero => rfl
  | succ depth ih =>
    funext id s
    rw [lowerStmtUntil, ih]
    rfl

end SourceUnit

/-- A statement that was lowered. -/
structure StmtVisit where
  stmt : StmtId
  before : Lowering
  after : Lowering

/-- What comes of a run that makes the given visits and ends in the state `s'` if it may be stopped: the
fault of the first visit in front of which it is to stop, or else the state. -/
def Stops.outcome (stops : Stops) (visits : List StmtVisit) (s' : Lowering) :
    Except Fault (Unit × Lowering) :=
  match visits.findSome? fun v => stops v.stmt v.before with
  | some fault => .error fault
  | none => .ok ((), s')

theorem Stops.outcome_cons (stops : Stops) (v : StmtVisit) (visits : List StmtVisit) (s' : Lowering) :
    stops.outcome (v :: visits) s' = match stops v.stmt v.before with
      | some fault => .error fault
      | none => stops.outcome visits s' := by
  cases h : stops v.stmt v.before with
  | some fault => rw [outcome, List.findSome?_cons_of_isSome (by rw [h]; rfl), h]
  | none => rw [outcome, List.findSome?_cons_of_isNone (by rw [h]; rfl), outcome]

theorem Stops.outcome_append (stops : Stops) (visits visits' : List StmtVisit) (s s' : Lowering) :
    stops.outcome (visits ++ visits') s' =
      (stops.outcome visits s).bind fun _ => stops.outcome visits' s' := by
  induction visits with
  | nil => rfl
  | cons v visits ih =>
    rw [List.cons_append, outcome_cons, outcome_cons]
    cases stops v.stmt v.before with
    | some fault => rfl
    | none => exact ih

-- ════════════════════════════════════════════════════════════════════════
-- Courses
-- ════════════════════════════════════════════════════════════════════════

/-- A run that makes the given visits. From one visit to the next only that is added what may be added,
seen from a time when there were `m` blocks; a label may go on in any block. -/
inductive Course (unit : SourceUnit) (m : Nat) : Lowering → List StmtVisit → Lowering → Prop
  | done {s s' : Lowering} (h : s.Adds unit m s') : Course unit m s [] s'
  | inside {s s' : Lowering} {v : StmtVisit} {visits : List StmtVisit} (h : s.Adds unit m v.before)
    (hkind : unit.isLabel v.stmt = false) (rest : Course unit m v.before visits s') :
    Course unit m s (v :: visits) s'
  | label {s s' : Lowering} {v : StmtVisit} {visits : List StmtVisit} (h : s.Adds unit m v.before)
    (hkind : unit.isLabel v.stmt = true) (hlabel : v.before.Adds unit 0 v.after)
    (rest : Course unit m v.after visits s') : Course unit m s (v :: visits) s'

namespace Course

variable {unit : SourceUnit} {m : Nat} {s₁ s₂ s₃ : Lowering} {visits visits' : List StmtVisit}

theorem adds (h : Course unit m s₁ visits s₂) : s₁.Adds unit 0 s₂ := by
  induction h with
  | done h => exact h.weaken (Nat.zero_le m)
  | inside h _ _ ih => exact (h.weaken (Nat.zero_le m)).trans ih
  | label h _ hlabel _ ih => exact ((h.weaken (Nat.zero_le m)).trans hlabel).trans ih

theorem prepend (h : s₁.Adds unit m s₂) (hrest : Course unit m s₂ visits s₃) :
    Course unit m s₁ visits s₃ := by
  cases hrest with
  | done h' => exact .done (h.trans h')
  | inside h' hkind rest => exact .inside (h.trans h') hkind rest
  | label h' hkind hlabel rest => exact .label (h.trans h') hkind hlabel rest

theorem append (h : Course unit m s₁ visits s₂) (h' : Course unit m s₂ visits' s₃) :
    Course unit m s₁ (visits ++ visits') s₃ := by
  induction h with
  | done h => exact h'.prepend h
  | inside h hkind _ ih => exact .inside h hkind (ih h')
  | label h hkind hlabel _ ih => exact .label h hkind hlabel (ih h')

end Course

-- ════════════════════════════════════════════════════════════════════════
-- Walks
-- ════════════════════════════════════════════════════════════════════════

/-- A run of an action that may be stopped makes the given visits, each of which is a run of its own that
the rest of the run goes on from. -/
structure Walked (unit : SourceUnit) (m : Nat) (act : Stops → LowerM Unit) (s : Lowering)
    (visits : List StmtVisit) (s' : Lowering) : Prop where
  course : Course unit m s visits s'
  runs : ∀ v ∈ visits, ∃ depth, unit.lowerStmtWithin depth v.stmt v.before = .ok ((), v.after)
  goes : ∀ v ∈ visits, v.after.Adds unit 0 s'
  stops : ∀ stops : Stops, act stops s = stops.outcome visits s'

/-- Whenever the action succeeds it visits statements, among them the given gotos and labels. -/
def LowerM.Walks (unit : SourceUnit) (m : Nat) (act : Stops → LowerM Unit) (marks : List StmtId) : Prop :=
  ∀ s s', m ≤ s.fn.blockCount → act .never s = .ok ((), s') →
    ∃ visits, Walked unit m act s visits s' ∧ (visits.map (·.stmt)).filter unit.isMark = marks

namespace LowerM

variable {α β : Type} {unit : SourceUnit} {m : Nat} {marks marks' : List StmtId}

/-- An action that visits nothing. -/
theorem Adds.walks {act : LowerM Unit} (h : Adds unit m act fun _ => True) :
    Walks unit m (fun _ => act) [] := by
  intro s s' hm hok
  have hadds := (h s () s' hm hok).1
  have hnone : ∀ {v : StmtVisit} {P : Prop}, v ∈ [] → P := fun hv => absurd hv List.not_mem_nil
  exact ⟨[], ⟨.done hadds, fun _ => hnone, fun _ => hnone, fun _ => hok⟩, rfl⟩

/-- First an action that visits nothing. -/
theorem Adds.bindWalks {act : LowerM α} {next : α → Stops → LowerM Unit} {R : α → Prop}
    (h : Adds unit m act R) (hnext : ∀ a, R a → Walks unit m (next a) marks) :
    Walks unit m (fun stops => act >>= fun a => next a stops) marks := by
  intro s s' hm hok
  obtain ⟨a, s₁, hact, hrest⟩ := exists_of_bind hok
  obtain ⟨hadds, ha⟩ := h s a s₁ hm hact
  obtain ⟨visits, hwalked, hmarks⟩ := hnext a ha s₁ s' (Nat.le_trans hm hadds.grows.blocks) hrest
  refine ⟨visits, ⟨hwalked.course.prepend hadds, hwalked.runs, hwalked.goes, fun stops => ?_⟩, hmarks⟩
  rw [bind_apply hact, hwalked.stops stops]

theorem Walks.bind {act next : Stops → LowerM Unit} (h : Walks unit m act marks)
    (hnext : Walks unit m next marks') :
    Walks unit m (fun stops => act stops >>= fun _ => next stops) (marks ++ marks') := by
  intro s s' hm hok
  obtain ⟨_, s₁, hact, hrest⟩ := exists_of_bind hok
  obtain ⟨visits, hwalked, hmarks⟩ := h s s₁ hm hact
  obtain ⟨visits', hwalked', hmarks'⟩ :=
    hnext s₁ s' (Nat.le_trans hm hwalked.course.adds.grows.blocks) hrest
  refine ⟨visits ++ visits', ⟨hwalked.course.append hwalked'.course, fun v hv => ?_, fun v hv => ?_,
    fun stops => ?_⟩, ?_⟩
  · exact (List.mem_append.mp hv).elim (hwalked.runs v) (hwalked'.runs v)
  · exact (List.mem_append.mp hv).elim (fun hv => (hwalked.goes v hv).trans hwalked'.course.adds)
      (hwalked'.goes v)
  · change (act stops s).bind (fun p => next stops p.2) = _
    rw [stops.outcome_append visits visits' s₁, hwalked.stops stops]
    -- The second action starts where the first one ends, if it comes to its end.
    unfold Stops.outcome
    split
    · rfl
    · exact hwalked'.stops stops
  · rw [List.map_append, List.filter_append, hmarks, hmarks']

/-- Then an action that visits nothing. -/
theorem Walks.bindAdds {act : Stops → LowerM Unit} {next : LowerM Unit}
    (h : Walks unit m act marks) (hnext : Adds unit m next fun _ => True) :
    Walks unit m (fun stops => act stops >>= fun _ => next) marks :=
  List.append_nil marks ▸ h.bind hnext.walks

theorem walks_forM {act : Stops → α → LowerM Unit} {marks : α → List StmtId} {xs : List α}
    (h : ∀ a ∈ xs, Walks unit m (fun stops => act stops a) (marks a)) :
    Walks unit m (fun stops => xs.forM (act stops)) (xs.flatMap marks) := by
  induction xs with
  | nil => exact (adds_pure trivial).walks
  | cons a xs ih =>
    exact (h a List.mem_cons_self).bind (ih fun b hb => h b (List.mem_cons_of_mem _ hb))

theorem walks_optional {act : Stops → α → LowerM Unit} {marks : α → List StmtId} {part : Option α}
    (h : ∀ a ∈ part, Walks unit m (fun stops => act stops a) (marks a)) :
    Walks unit m (fun stops => part.forM (act stops)) (part.toList.flatMap marks) := by
  cases part with
  | none => exact (adds_pure trivial).walks
  | some a =>
    rw [Option.toList_some, List.flatMap_singleton]
    exact h a rfl

/-- An action between two changes around the function. -/
theorem Walks.between {act : Stops → LowerM Unit} {enter leave : Lowering → Lowering}
    (h : Walks unit m act marks) (henter : Lowering.Peripheral enter) (hleave : Lowering.Peripheral leave) :
    Walks unit m (fun stops => LowerM.between enter leave (act stops)) marks :=
  (adds_modify henter).bindWalks fun _ _ =>
    h.bindAdds ((adds_modify hleave).bind fun _ _ => adds_pure (a := ()) trivial)

theorem walks_withLine {act : Stops → LowerM Unit} (line : Nat) (h : Walks unit m act marks) :
    Walks unit m (fun stops => withLine line (act stops)) marks :=
  adds_get.bindWalks fun _ _ => h.between (.line line) (.line _)

theorem walks_withBreak {act : Stops → LowerM Unit} (exit : BlockId) (h : Walks unit m act marks) :
    Walks unit m (fun stops => withBreak exit (act stops)) marks :=
  h.between (.pushBreak exit) .popBreak

theorem walks_withLoop {act : Stops → LowerM Unit} (exit next : BlockId) (h : Walks unit m act marks) :
    Walks unit m (fun stops => withLoop exit next (act stops)) marks :=
  walks_withBreak exit (h.between (.pushContinue next) .popContinue)

-- ════════════════════════════════════════════════════════════════════════
-- Control statements
-- ════════════════════════════════════════════════════════════════════════

theorem adds_openDeadBlock (unit : SourceUnit) (m : Nat) (next : StmtId) :
    Adds unit m (openDeadBlock unit next) fun _ => True :=
  (unit.adds m).holds_openDeadBlock (show (SourceUnit.Domain.all unit).stmt 0 next from trivial)

/-- A label may go on in any block. -/
theorem adds_lowerLabel (id : StmtId) : Adds unit 0 (lowerLabel id) fun _ => True := by
  refine adds_get.bind fun s _ => ?_
  cases s.labelBlocks.lookup id with
  | none => exact adds_pure trivial
  | some block => exact (adds_ensureJump block).bind fun _ _ => adds_switchTo (Nat.zero_le block)

section Control

variable {lower : Stops → StmtId → LowerM Unit} {marks : StmtId → List StmtId}

theorem walks_lowerList {body : List StmtId}
    (hlower : ∀ id ∈ body, Walks unit m (fun stops => lower stops id) (marks id)) :
    Walks unit m (fun stops => lowerList unit (lower stops) body) (body.flatMap marks) :=
  walks_forM fun id hid => (adds_openDeadBlock unit m id).bindWalks fun _ _ => hlower id hid

theorem walks_fillBlock {body : StmtId} {block : BlockId} (hblock : m ≤ block) (next : BlockId)
    (hlower : Walks unit m (fun stops => lower stops body) (marks body)) :
    Walks unit m (fun stops => fillBlock (lower stops) block body next) (marks body) :=
  (adds_switchTo hblock).bindWalks fun _ _ => hlower.bindAdds (adds_ensureJump next)

theorem walks_lowerConditional (cond : ExprId) {thenBody : StmtId} {elseBody : Option StmtId}
    (hthen : Walks unit m (fun stops => lower stops thenBody) (marks thenBody))
    (helse : ∀ id ∈ elseBody, Walks unit m (fun stops => lower stops id) (marks id)) :
    Walks unit m (fun stops => lowerConditional unit (lower stops) cond thenBody elseBody)
      (marks thenBody ++ elseBody.toList.flatMap marks) := by
  refine (adds_newBlock _).bindWalks fun thenBlock hthenBlock => ?_
  cases elseBody with
  | none =>
    refine (adds_newBlock _).bindWalks fun merge hmerge => ?_
    refine (unit.adds_lowerExpr m cond).bindWalks fun _ _ => (adds_emit fun _ => rfl).bindWalks fun _ _ => ?_
    rw [Option.toList_none, List.flatMap_nil, List.append_nil]
    exact (walks_fillBlock hthenBlock merge hthen).bindAdds (adds_switchTo hmerge)
  | some elseBody =>
    refine (adds_newBlock _).bindWalks fun elseBlock helseBlock => ?_
    refine (adds_newBlock _).bindWalks fun merge hmerge => ?_
    refine (unit.adds_lowerExpr m cond).bindWalks fun _ _ => (adds_emit fun _ => rfl).bindWalks fun _ _ => ?_
    rw [Option.toList_some, List.flatMap_singleton]
    refine (walks_fillBlock hthenBlock merge hthen).bind ?_
    exact (walks_fillBlock helseBlock merge (helse elseBody rfl)).bindAdds (adds_switchTo hmerge)

theorem walks_lowerWhile (cond : ExprId) {body : StmtId}
    (hlower : Walks unit m (fun stops => lower stops body) (marks body)) :
    Walks unit m (fun stops => lowerWhile unit (lower stops) cond body) (marks body) := by
  refine (adds_newBlock _).bindWalks fun condBlock hcond => ?_
  refine (adds_newBlock _).bindWalks fun bodyBlock hbody => ?_
  refine (adds_newBlock _).bindWalks fun exitBlock hexit => ?_
  refine (walks_withLoop exitBlock condBlock ?_).bindAdds (adds_switchTo hexit)
  refine (adds_ensureJump _).bindWalks fun _ _ => (adds_switchTo hcond).bindWalks fun _ _ => ?_
  refine (unit.adds_lowerExpr m cond).bindWalks fun _ _ => (adds_emit fun _ => rfl).bindWalks fun _ _ => ?_
  exact walks_fillBlock hbody condBlock hlower

theorem walks_lowerDo (cond : ExprId) {body : StmtId}
    (hlower : Walks unit m (fun stops => lower stops body) (marks body)) :
    Walks unit m (fun stops => lowerDo unit (lower stops) body cond) (marks body) := by
  refine (adds_newBlock _).bindWalks fun bodyBlock hbody => ?_
  refine (adds_newBlock _).bindWalks fun condBlock hcond => ?_
  refine (adds_newBlock _).bindWalks fun exitBlock hexit => ?_
  refine (walks_withLoop exitBlock condBlock ?_).bindAdds (adds_switchTo hexit)
  refine (adds_ensureJump _).bindWalks fun _ _ => ?_
  refine (walks_fillBlock hbody condBlock hlower).bindAdds ?_
  refine (adds_switchTo hcond).bind fun _ _ => ?_
  exact (unit.adds_lowerExpr m cond).bind fun _ _ => adds_emit fun _ => rfl

theorem walks_lowerFor (cond incr : Option ExprId) {init body : Option StmtId}
    (hinit : ∀ id ∈ init, Walks unit m (fun stops => lower stops id) (marks id))
    (hbody : ∀ id ∈ body, Walks unit m (fun stops => lower stops id) (marks id)) :
    Walks unit m (fun stops => lowerFor unit (lower stops) init cond incr body)
      (init.toList.flatMap marks ++ body.toList.flatMap marks) := by
  simp only [lowerFor_eq]
  refine (adds_newBlock _).bindWalks fun condBlock hcondBlock => ?_
  refine (adds_newBlock _).bindWalks fun bodyBlock hbodyBlock => ?_
  refine (adds_newBlock _).bindWalks fun incrBlock hincrBlock => ?_
  refine (adds_newBlock _).bindWalks fun exitBlock hexitBlock => ?_
  refine (walks_withLoop exitBlock incrBlock ?_).bindAdds (adds_switchTo hexitBlock)
  refine (walks_optional hinit).bind ?_
  refine (adds_ensureJump _).bindWalks fun _ _ => (adds_switchTo hcondBlock).bindWalks fun _ _ => ?_
  refine ((unit.adds m).holds_lowerTest (fun _ _ => trivial) _ _).bindWalks fun _ _ => (adds_switchTo hbodyBlock).bindWalks fun _ _ => ?_
  refine (walks_optional hbody).bindAdds ?_
  refine (adds_ensureJump _).bind fun _ _ => (adds_switchTo hincrBlock).bind fun _ _ => ?_
  have hstep : Adds unit m (incr.forM fun step => discard (unit.lowerExpr step)) fun _ => True :=
    (unit.adds m).holds_optional incr fun step _ => (unit.adds m).holds_discard (unit.adds_lowerExpr m step)
  exact hstep.bind fun _ _ => adds_ensureJump condBlock

/-- What is made for a statement of a switch: a new block for an entry, nothing for anything else. -/
def EntryOf (unit : SourceUnit) (m : Nat) (id : StmtId) (entry : Option SwitchEntry) : Prop :=
  ∀ e ∈ entry, m ≤ e.block ∧ ∃ node, unit.stmt id = .ok node ∧ node.kind.isSwitchLabel = true

theorem adds_createEntry (id : StmtId) : Adds unit m (createEntry unit id) (EntryOf unit m id) := by
  refine (adds_lift _).bind fun node hnode => ?_
  cases hkind : node.kind with
  | caseLabel | defaultLabel =>
    refine (adds_newBlock _).bind fun b hb => adds_pure ?_
    rintro _ ⟨⟩
    exact ⟨hb, node, hnode, by rw [hkind]; rfl⟩
  | _ => exact adds_pure fun _ he => nomatch he

theorem adds_mapM {act : α → LowerM β} {R : α → β → Prop} {xs : List α}
    (h : ∀ a ∈ xs, Adds unit m (act a) (R a)) : Adds unit m (xs.mapM act) (List.Forall₂ R xs) := by
  induction xs with
  | nil => exact adds_pure .nil
  | cons a xs ih =>
    rw [List.mapM_cons]
    refine (h a List.mem_cons_self).bind fun b hb => ?_
    refine (ih fun c hc => h c (List.mem_cons_of_mem _ hc)).bind fun bs hbs => ?_
    exact adds_pure (.cons hb hbs)

theorem walks_lowerSwitchPart {id : StmtId} {entry : Option SwitchEntry} (hentry : EntryOf unit m id entry)
    (hnone : ∀ node, unit.stmt id = .ok node → node.kind.isSwitchLabel = true → marks id = [])
    (hlower : Walks unit m (fun stops => lower stops id) (marks id)) :
    Walks unit m (fun stops => lowerSwitchPart unit (lower stops) id entry) (marks id) := by
  cases entry with
  | none => exact (adds_openDeadBlock unit m id).bindWalks fun _ _ => hlower
  | some e =>
    obtain ⟨hblock, node, hnode, hlabel⟩ := hentry e rfl
    rw [hnone node hnode hlabel]
    exact ((adds_ensureJump e.block).bind fun _ _ => adds_switchTo hblock).walks

theorem walks_lowerSwitch (cond : ExprId) {body : StmtId} {stmts : List StmtId}
    (hstmts : switchBody unit body = .ok stmts)
    (hnone : ∀ id ∈ stmts, ∀ node, unit.stmt id = .ok node → node.kind.isSwitchLabel = true → marks id = [])
    (hlower : ∀ id ∈ stmts, Walks unit m (fun stops => lower stops id) (marks id)) :
    Walks unit m (fun stops => lowerSwitch unit (lower stops) cond body)
      (stmts.flatMap marks) := by
  refine (adds_newBlock _).bindWalks fun exitBlock hexit => ?_
  refine (walks_withBreak exitBlock ?_).bindAdds (adds_switchTo hexit)
  refine (unit.adds_lowerExpr m cond).bindWalks fun value _ => ?_
  refine (adds_lift _).bindWalks fun stmts' hstmts' => ?_
  obtain rfl := Except.ok.inj (hstmts'.symm.trans hstmts)
  refine (adds_mapM fun id _ => adds_createEntry id).bindWalks fun entries hentries => ?_
  refine (adds_emit fun _ => rfl).bindWalks fun _ _ => ?_
  have hmarks : stmts'.flatMap marks = (stmts'.zip entries).flatMap fun part => marks part.1 := by
    rw [← List.flatMap_map Prod.fst marks, List.map_fst_zip hentries.length_eq.le]
  rw [hmarks]
  refine (walks_forM fun part hpart => ?_).bindAdds (adds_ensureJump exitBlock)
  have hmem := (List.of_mem_zip hpart).1
  exact walks_lowerSwitchPart (List.forall₂_zip hentries hpart) (hnone _ hmem) (hlower _ hmem)

end Control

-- ════════════════════════════════════════════════════════════════════════
-- Statements
-- ════════════════════════════════════════════════════════════════════════

/-- Lowering a statement that is no label. -/
theorem walks_lowerStmtKind {lower : Stops → StmtId → LowerM Unit} {marks : StmtId → List StmtId}
    {id : StmtId} {ty : Option TypeId} {kind : StmtKind Name}
    (hparts : ∀ part ∈ kind.parts, Walks unit m (fun stops => lower stops part) (marks part))
    (hswitch : ∀ cond body, kind = .switch cond body →
      Walks unit m (fun stops => lowerSwitch unit (lower stops) cond body) (marks body))
    (hlabel : ∀ name, kind ≠ .label name) :
    Walks unit m (fun stops => lowerStmtKind unit (lower stops) id ty kind) (kind.parts.flatMap marks) := by
  cases kind with
  | block body => exact walks_lowerList hparts
  | declare name init => exact ((unit.adds m).holds_lowerDeclare trivial ty fun _ _ => trivial).walks
  | expr value => exact ((unit.adds m).holds_discard (unit.adds_lowerExpr m value)).walks
  | ret value => exact ((unit.adds m).holds_lowerReturn fun _ _ => trivial).walks
  | conditional cond thenBody elseBody =>
    refine walks_lowerConditional cond (hparts thenBody List.mem_cons_self) fun id hid => ?_
    exact hparts id (List.mem_cons_of_mem _ (Option.mem_toList.mpr hid))
  | whileLoop cond body =>
    rw [StmtKind.parts, List.flatMap_singleton]
    exact walks_lowerWhile cond (hparts body List.mem_cons_self)
  | doLoop body cond =>
    rw [StmtKind.parts, List.flatMap_singleton]
    exact walks_lowerDo cond (hparts body List.mem_cons_self)
  | forLoop init cond incr body =>
    rw [StmtKind.parts, List.flatMap_append]
    refine walks_lowerFor cond incr (fun id hid => ?_) fun id hid => ?_
    · exact hparts id (List.mem_append_left _ (Option.mem_toList.mpr hid))
    · exact hparts id (List.mem_append_right _ (Option.mem_toList.mpr hid))
  | switch cond body =>
    rw [StmtKind.parts, List.flatMap_singleton]
    exact hswitch cond body rfl
  | breakJump => exact (adds_get.bind fun s _ => (unit.adds m).holds_jumpToInnermost s.breakTargets).walks
  | continueJump => exact (adds_get.bind fun s _ => (unit.adds m).holds_jumpToInnermost s.continueTargets).walks
  | goto name => exact ((unit.adds m).holds_lowerGoto name).walks
  | label name => exact absurd rfl (hlabel name)
  | assertion cond =>
    cases cond with
    | none => exact (adds_pure trivial).walks
    | some cond => exact ((unit.adds m).holds_lowerAssertion trivial).walks
  | error => exact (adds_emit fun _ => rfl).walks
  | caseLabel | defaultLabel | empty => exact (adds_pure trivial).walks

/-- A statement is visited before what is visited inside it. -/
theorem outcome_visit {depth : Nat} {id : StmtId} {node : Stmt} {s s' : Lowering} {visits : List StmtVisit}
    (hnode : unit.stmt id = .ok node) (stops : Stops)
    (h : withLine node.line (lowerStmtKind unit (unit.lowerStmtUntil stops depth) id node.ty node.kind) s =
      stops.outcome visits s') :
    unit.lowerStmtUntil stops (depth + 1) id s = stops.outcome (⟨id, s, s'⟩ :: visits) s' := by
  rw [Stops.outcome_cons]
  cases hstop : stops id s with
  | some fault => exact unit.lowerStmtUntil_stop stops hstop
  | none => exact (unit.lowerStmtUntil_go stops hnode hstop).trans h

/-- Lowering a statement that is no label visits it first. -/
theorem Walks.visit {depth : Nat} {id : StmtId} {node : Stmt} (hnode : unit.stmt id = .ok node)
    (hkind : unit.isLabel id = false)
    (hinner : Walks unit m (fun stops =>
      lowerStmtKind unit (unit.lowerStmtUntil stops depth) id node.ty node.kind) marks) :
    Walks unit m (fun stops => unit.lowerStmtUntil stops (depth + 1) id)
      ([id].filter unit.isMark ++ marks) := by
  intro s s' hm hok
  have hrun : unit.lowerStmtUntil .never (depth + 1) id s = .ok ((), s') := hok
  obtain ⟨visits, hwalked, hmarks⟩ := walks_withLine node.line hinner s s' hm
    ((unit.lowerStmtUntil_go .never hnode rfl).symm.trans hrun)
  rw [unit.lowerStmtUntil_never] at hrun
  refine ⟨⟨id, s, s'⟩ :: visits, ⟨.inside (.refl unit m s) hkind hwalked.course, ?_, ?_, fun stops => ?_⟩, ?_⟩
  · exact List.forall_mem_cons.mpr ⟨⟨depth + 1, hrun⟩, hwalked.runs⟩
  · exact List.forall_mem_cons.mpr ⟨.refl unit 0 s', hwalked.goes⟩
  · exact outcome_visit hnode stops (hwalked.stops stops)
  · rw [List.map_cons, List.filter_cons, List.filter_cons, List.filter_nil, hmarks]
    cases unit.isMark id <;> rfl

/-- Lowering a label visits it, and nothing inside it. -/
theorem walks_label {depth : Nat} {id : StmtId} {node : Stmt} {name : Name}
    (hnode : unit.stmt id = .ok node) (hkind : node.kind = .label name) :
    Walks unit m (fun stops => unit.lowerStmtUntil stops (depth + 1) id) [id] := by
  intro s s' hm hok
  have hrun : unit.lowerStmtUntil .never (depth + 1) id s = .ok ((), s') := hok
  have hname : unit.isLabel id = true := by
    rw [SourceUnit.isLabel, unit.labelName?_eq hnode, hkind]
    rfl
  have hlabel : withLine node.line (lowerLabel id) s = .ok ((), s') := by
    rw [unit.lowerStmtUntil_go .never hnode rfl, hkind] at hrun
    exact hrun
  have hadds : s.Adds unit 0 s' :=
    (adds_withLine node.line (adds_lowerLabel id) s () s' (Nat.zero_le _) hlabel).1
  rw [unit.lowerStmtUntil_never] at hrun
  refine ⟨[⟨id, s, s'⟩], ⟨?_, List.forall_mem_singleton.mpr ⟨depth + 1, hrun⟩,
    List.forall_mem_singleton.mpr (.refl unit 0 s'), fun stops => ?_⟩, ?_⟩
  · exact .label (.refl unit m s) hname hadds (.done (.refl unit m s'))
  · refine outcome_visit hnode stops ?_
    rw [hkind]
    exact hlabel
  · exact List.filter_cons_of_pos (by rw [SourceUnit.isMark, hname]; rfl)

end LowerM

/-- Lowering a statement visits the labels and gotos in it in source order. -/
theorem SourceUnit.walks_lowerStmtUntil {unit : SourceUnit} {m : Nat} (depth : Nat) {nesting : Nat}
    {id : StmtId} (h : Succeeds (unit.statementsWithin nesting id)) :
    LowerM.Walks unit m (fun stops => unit.lowerStmtUntil stops depth id) (unit.marksWithin nesting id) := by
  induction depth generalizing nesting id with
  | zero =>
    intro s s' _ hok
    cases hok
  | succ depth ih =>
    cases nesting with
    | zero => obtain ⟨_, ⟨⟩⟩ := h
    | succ nesting =>
      obtain ⟨node, hnode, hparts, hmarks⟩ := exists_of_statementsWithin h
      rw [hmarks]
      by_cases hlabel : ∃ name, node.kind = .label name
      · obtain ⟨name, hkind⟩ := hlabel
        have hmark : unit.isMark id = true := by
          rw [isMark_eq hnode, hkind]
          rfl
        rw [hkind, List.filter_cons_of_pos hmark]
        exact walks_label hnode hkind
      · refine Walks.visit hnode ?_ (walks_lowerStmtKind (fun part hpart => ih (hparts part hpart)) ?_ ?_)
        · rw [isLabel, unit.labelName?_eq hnode]
          cases hkind : node.kind with
          | label name => exact absurd ⟨name, hkind⟩ hlabel
          | _ => rfl
        · intro cond body hkind
          have hbody := hparts body (by rw [hkind]; exact List.mem_cons_self)
          obtain ⟨stmts, nesting', hstmts, hsucceeds, hmarks⟩ := exists_of_switchBody hbody
          rw [hmarks]
          exact walks_lowerSwitch cond hstmts (fun _ _ _ => marksWithin_of_isSwitchLabel)
            fun id hid => ih (hsucceeds id hid)
        · exact fun name hkind => hlabel ⟨name, hkind⟩

-- ════════════════════════════════════════════════════════════════════════
-- Bodies
-- ════════════════════════════════════════════════════════════════════════

/-- How a function with the given body is lowered: it is entered in the state `entered`, the blocks of the
labels are made, which leads to the state `start`, and then the walk over the body ends in `last`. -/
structure BodyWalk (unit : SourceUnit) (texts : Interner) (decl : FunctionDecl) (body : StmtId)
    (nodes : List StmtId) (entered start : Lowering) (visits : List StmtVisit) (last : Lowering) : Prop where
  enter : unit.enterFunction decl = .ok entered.fn
  begins : entered = { fn := entered.fn, texts, current := entered.fn.entry, line := decl.line }
  source : unit.statements body = .ok nodes
  made : unit.createLabels body entered = .ok ((), start)
  prepared : entered.MakesBlocks unit (nodes.filter unit.isLabel) start
  walked : Walked unit start.fn.blockCount
    (fun stops => unit.lowerStmtUntil stops (unit.stmts.size + 1) body) start visits last
  marks : (visits.map (·.stmt)).filter unit.isMark = nodes.filter unit.isMark

namespace BodyWalk

variable {unit : SourceUnit} {texts : Interner} {decl : FunctionDecl} {body : StmtId} {nodes : List StmtId}
  {entered start last : Lowering} {visits : List StmtVisit}

/-- In the beginning the current block exists, no block has instructions, and there are no labels. -/
theorem blank (h : BodyWalk unit texts decl body nodes entered start visits last) :
    entered.current < entered.fn.blockCount ∧ (∀ b, entered.fn.code b = []) ∧
      entered.gotoTargets = [] ∧ entered.labelBlocks = [] := by
  have hensured := unit.ensured_enterFunction decl texts decl.line
  rw [h.enter] at hensured
  refine ⟨?_, hensured.2, congrArg (·.gotoTargets) h.begins, congrArg (·.labelBlocks) h.begins⟩
  rw [show entered.current = entered.fn.entry from congrArg (·.current) h.begins]
  exact hensured.1.current

/-- There are no instructions when the walk begins. -/
theorem code_start (h : BodyWalk unit texts decl body nodes entered start visits last) (b : BlockId) :
    start.fn.code b = [] := by
  rw [h.prepared.code]
  exact h.blank.2.1 b

end BodyWalk

/-- Every function is lowered by a walk over its body. -/
theorem SourceUnit.exists_bodyWalk {unit : SourceUnit} {texts texts' : Interner} {decl : FunctionDecl}
    {f : Function} (h : unit.lowerFunction texts decl = .ok (some f, texts')) :
    ∃ body nodes entered start visits last, decl.body = some body ∧
      BodyWalk unit texts decl body nodes entered start visits last ∧ last.Final ∧ f = last.finished := by
  obtain ⟨body, fn, last, avail, hbody, hfn, _, _, hlower, hsound, rfl, _⟩ := unit.exists_lowerBody h
  obtain ⟨_, start, hlabels, hstmt⟩ := exists_of_bind hlower
  obtain ⟨nodes, hnodes, hmakes⟩ := makesBlocks_createLabels hlabels
  have huntil : unit.lowerStmtUntil .never (unit.stmts.size + 1) body start = .ok ((), last) := by
    rw [unit.lowerStmtUntil_never]
    exact hstmt
  obtain ⟨visits, hwalked, hmarks⟩ := walks_lowerStmtUntil (m := start.fn.blockCount) (unit.stmts.size + 1)
    ⟨nodes, hnodes⟩ start last (Nat.le_refl _) huntil
  rw [marksWithin, show unit.statementsWithin _ body = _ from hnodes] at hmarks
  exact ⟨body, nodes, _, start, visits, last, hbody,
    ⟨hfn, rfl, hnodes, hlabels, hmakes, hwalked, hmarks⟩, ⟨avail, hsound⟩, rfl⟩

end MiddleEnd
