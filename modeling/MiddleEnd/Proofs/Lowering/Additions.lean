import MiddleEnd.Proofs.Lowering.Composition
import MiddleEnd.Proofs.Lowering.Values

/-!
# What actions add

Seen from a time when there were `m` blocks, lowering an expression extends the state and never goes on in
one of these blocks, except in the one that was current. Each phi that it adds stands where the sides of a
logical operator meet: the end of the left side branches to it, and the end of the right side jumps to it.

## Main definitions

* `Junction`: a logical operator of the unit, and where its sides begin and end.
* `Junction.Stands`: the code around a phi that joins the sides.
* `Lowering.Adds`: what may be added to a state.
* `LowerM.Adds`: an action adds nothing else.

## Main statements

* `LowerM.adds_lowerLogical`: a logical operator adds the phi that joins its sides.
* `SourceUnit.adds`: so do the actions that lowering is put together from, also one after the other.
* `SourceUnit.adds_lowerExpr`: lowering an expression.
-/

namespace MiddleEnd

open LowerM

-- ════════════════════════════════════════════════════════════════════════
-- Parts
-- ════════════════════════════════════════════════════════════════════════

/-- Everything but the phis stands at the same place in the other function. -/
def Function.PartOf (f g : Function) : Prop :=
  ∀ (b : BlockId) (k : Nat) (i : Instr), (f.code b)[k]? = some i → i.isPhi = false →
    (g.code b)[k]? = some i

theorem Function.PartOf.trans {f g h : Function} (hfg : f.PartOf g) (hgh : g.PartOf h) : f.PartOf h :=
  fun b k i hi hphi => hgh b k i (hfg b k i hi hphi) hphi

theorem Lowering.Extends.partOf {m : Nat} {s s' : Lowering} (h : s.Extends m s') : s.fn.PartOf s'.fn :=
  fun _ _ _ hi _ => h.getElem?_code hi

theorem Lowering.Final.partOf_finished {last : Lowering} (h : last.Final) : last.fn.PartOf last.finished := by
  intro b k i hi hphi
  have hget := h.getElem?_code hi
  rwa [h.aligned_eq (List.mem_of_getElem? hi) hphi] at hget

/-- Where an appended instruction stands. -/
theorem Lowering.getElem?_code_pushed {s : Lowering} {i : Instr} (hs : s.current < s.fn.blockCount) :
    ((s.pushed i).fn.code s.current)[(s.fn.code s.current).length]? = some i := by
  rw [show (s.pushed i).fn.code s.current = _ from s.fn.code_pushed_self s.current i hs,
    List.getElem?_concat_length]

-- ════════════════════════════════════════════════════════════════════════
-- Junctions
-- ════════════════════════════════════════════════════════════════════════

/-- Where the sides of a logical operator meet. -/
structure Junction where
  op : BinaryOp
  lhs : ExprId
  rhs : ExprId
  /-- What the two sides answer. -/
  left : Operand
  right : Operand
  /-- The blocks in which the two sides end. -/
  leftEnd : BlockId
  rightEnd : BlockId
  /-- The block in which the right side begins. -/
  rightStart : BlockId
  /-- The right side as a truth value. -/
  truth : Reg
  leftLine : Nat
  rightLine : Nat

namespace Junction

variable (j : Junction)

/-- Whether the operator is `&&`. -/
def isAnd : Bool := j.op == .logicalAnd

/-- The branch behind the left side. It skips the right side if the left one decides. -/
def branch (b : BlockId) : Instr := sideBranch j.isAnd j.left j.rightStart b j.leftLine

/-- The comparison that makes the right side a truth value. -/
def test : Instr := .binary .cmpNe (.reg j.truth none) j.right (.int 0) j.rightLine

/-- The jump behind the right side. -/
def jump (b : BlockId) : Instr := .jump b j.rightLine

/-- What the phi takes from each side. -/
def args : List PhiArg :=
  [⟨.int (shortCircuitValue j.isAnd), j.leftEnd⟩, ⟨.reg j.truth none, j.rightEnd⟩]

theorem isTerminator_branch (b : BlockId) : (j.branch b).isTerminator = true :=
  isTerminator_sideBranch _ _ _ _ _

theorem isPhi_branch (b : BlockId) : (j.branch b).isPhi = false :=
  Instr.isPhi_of_isTerminator _ (j.isTerminator_branch b)

/-- A phi of block `b` joins the sides of an operator of the unit. Each side was lowered as a part of the
function, and what follows it stands right behind it. -/
structure Stands (unit : SourceUnit) (f : Function) (b : BlockId) (phi : Instr) : Prop where
  source : ∃ id node, unit.expr id = .ok node ∧ node.kind = .binary j.op j.lhs j.rhs
  skips : j.op.isShortCircuit = true
  var : phi.phiVar? = none
  args : phi.phiArgs.Perm j.args
  leftSide : ∃ depth s t, unit.lowerExprWithin depth j.lhs s = .ok (j.left, t) ∧ t.fn.PartOf f ∧
    t.current = j.leftEnd ∧ (f.code t.current)[(t.fn.code t.current).length]? = some (j.branch b)
  rightSide : ∃ depth s t, unit.lowerExprWithin depth j.rhs s = .ok (j.right, t) ∧ t.fn.PartOf f ∧
    t.current = j.rightEnd ∧ (f.code t.current)[(t.fn.code t.current).length]? = some j.test ∧
    (f.code t.current)[(t.fn.code t.current).length + 1]? = some (j.jump b)
  apart : j.rightStart ≠ b

variable {j : Junction} {unit : SourceUnit} {f g : Function} {b : BlockId} {phi : Instr}

/-- What stands around a phi stays there. -/
theorem Stands.mono (h : j.Stands unit f b phi) (hpart : f.PartOf g) : j.Stands unit g b phi := by
  obtain ⟨depth, s, t, hleft, ht, hcurrent, hbranch⟩ := h.leftSide
  obtain ⟨depth', s', t', hright, ht', hcurrent', htest, hjump⟩ := h.rightSide
  exact { h with
    leftSide := ⟨depth, s, t, hleft, ht.trans hpart, hcurrent,
      hpart _ _ _ hbranch (j.isPhi_branch b)⟩
    rightSide := ⟨depth', s', t', hright, ht'.trans hpart, hcurrent', hpart _ _ _ htest rfl,
      hpart _ _ _ hjump rfl⟩ }

end Junction

-- ════════════════════════════════════════════════════════════════════════
-- States
-- ════════════════════════════════════════════════════════════════════════

namespace Lowering

/-- What may be added to a state, seen from a time when there were `m` blocks. -/
structure Adds (unit : SourceUnit) (m : Nat) (s s' : Lowering) : Prop where
  grows : s.Extends m s'
  gotos : s'.gotoTargets = s.gotoTargets
  labels : s'.labelBlocks = s.labelBlocks
  /-- Each new phi joins the sides of an operator. -/
  phis : ∀ b, ∀ i ∈ s'.fn.code b, i.isPhi = true →
    i ∈ s.fn.code b ∨ ∃ j : Junction, j.Stands unit s'.fn b i

namespace Adds

variable {unit : SourceUnit} {m : Nat} {s s' s₁ s₂ s₃ : Lowering}

theorem of_code (hgrows : s.Extends m s') (hgotos : s'.gotoTargets = s.gotoTargets)
    (hlabels : s'.labelBlocks = s.labelBlocks) (hcode : s'.fn.code = s.fn.code) : s.Adds unit m s' :=
  ⟨hgrows, hgotos, hlabels, fun _ _ hi _ => .inl (hcode ▸ hi)⟩

theorem refl (unit : SourceUnit) (m : Nat) (s : Lowering) : s.Adds unit m s :=
  of_code (.refl m s) rfl rfl rfl

theorem trans (h : s₁.Adds unit m s₂) (h' : s₂.Adds unit m s₃) : s₁.Adds unit m s₃ where
  grows := h.grows.trans h'.grows
  gotos := h'.gotos.trans h.gotos
  labels := h'.labels.trans h.labels
  phis b i hi hphi := by
    obtain hi | hnew := h'.phis b i hi hphi
    · refine (h.phis b i hi hphi).imp id ?_
      rintro ⟨j, hj⟩
      exact ⟨j, hj.mono h'.grows.partOf⟩
    · exact .inr hnew

theorem weaken {m' : Nat} (h : s.Adds unit m s') (hm : m' ≤ m) : s.Adds unit m' s' :=
  ⟨h.grows.weaken hm, h.gotos, h.labels, h.phis⟩

theorem grown (label : String) : s.Adds unit m (s.grown label) :=
  of_code (extends_grown label) rfl rfl (funext (s.fn.code_grown label))

theorem withReg : s.Adds unit m s.withReg := of_code extends_withReg rfl rfl rfl

theorem withVar (name : Name) (ty : Option TypeId) : s.Adds unit m (s.withVar name ty) :=
  of_code (extends_withVar name ty) rfl rfl (s.code_withVar name ty)

theorem switch {b : BlockId} (hb : m ≤ b) : s.Adds unit m { s with current := b } :=
  of_code (extends_switch hb) rfl rfl rfl

theorem pushed {i : Instr} (hphi : i.isPhi = false) : s.Adds unit m (s.pushed i) := by
  refine ⟨extends_pushed (by simp [hphi]), rfl, rfl, fun b j hj hjphi => ?_⟩
  obtain hj | ⟨rfl, rfl⟩ := s.fn.mem_code_pushed s.current i hj
  · exact .inl hj
  · rw [hphi] at hjphi
    cases hjphi

/-- Appending the phi that joins the sides of an operator. -/
theorem meet {j : Junction} {i : Instr} (hlabel : s.fn.label? s.current = some "logic_merge")
    (h : j.Stands unit s.fn s.current i) : s.Adds unit m (s.pushed i) := by
  refine ⟨extends_pushed fun _ => hlabel, rfl, rfl, fun b k hk _ => ?_⟩
  obtain hk | ⟨rfl, rfl⟩ := s.fn.mem_code_pushed s.current i hk
  · exact .inl hk
  · exact .inr ⟨j, h.mono (extends_pushed (m := 0) fun _ => hlabel).partOf⟩

end Adds

end Lowering

-- ════════════════════════════════════════════════════════════════════════
-- Actions
-- ════════════════════════════════════════════════════════════════════════

/-- Whenever it succeeds, the action adds only what may be added, and answers something with the given
property. -/
def LowerM.Adds {α : Type} (unit : SourceUnit) (m : Nat) (act : LowerM α) (R : α → Prop) : Prop :=
  ∀ s a s', m ≤ s.fn.blockCount → act s = .ok (a, s') → s.Adds unit m s' ∧ R a

namespace LowerM

variable {α β : Type} {unit : SourceUnit} {m : Nat}

theorem Adds.bind {act : LowerM α} {next : α → LowerM β} {R : α → Prop} {S : β → Prop}
    (h : Adds unit m act R) (hnext : ∀ a, R a → Adds unit m (next a) S) :
    Adds unit m (act >>= next) S := by
  intro s b s' hm hok
  obtain ⟨a, s₁, hact, hrest⟩ := exists_of_bind hok
  obtain ⟨hadds, ha⟩ := h s a s₁ hm hact
  obtain ⟨hadds', hb⟩ := hnext a ha s₁ b s' (Nat.le_trans hm hadds.grows.blocks) hrest
  exact ⟨hadds.trans hadds', hb⟩

theorem Adds.imp {act : LowerM α} {R S : α → Prop} (h : Adds unit m act R) (himp : ∀ a, R a → S a) :
    Adds unit m act S :=
  fun s a s' hm hok => (h s a s' hm hok).imp id (himp a)

theorem adds_pure {a : α} {R : α → Prop} (h : R a) : Adds unit m (pure a) R := by
  rintro s _ _ _ ⟨⟩
  exact ⟨.refl unit m s, h⟩

theorem adds_lift (x : Except Fault α) : Adds unit m (liftM x) fun a => x = .ok a := by
  intro s a s' _ hok
  cases x with
  | error fault => cases hok
  | ok a =>
    cases hok
    exact ⟨.refl unit m s, rfl⟩

theorem adds_get : Adds unit m get fun _ => True := by
  rintro s _ _ _ ⟨⟩
  exact ⟨.refl unit m s, trivial⟩

theorem adds_modify {g : Lowering → Lowering} (hg : Lowering.Peripheral g) :
    Adds unit m (modify g) fun _ => True := by
  rintro s _ _ _ ⟨⟩
  exact ⟨.of_code (hg.extends_apply s) (hg.gotos s) (hg.labels s) (congrArg Function.code (hg.fn s)), trivial⟩

theorem adds_newBlock (label : String) : Adds unit m (newBlock label) (m ≤ ·) := by
  rintro s _ _ hm ⟨⟩
  exact ⟨.grown label, hm⟩

theorem adds_switchTo {b : BlockId} (hb : m ≤ b) : Adds unit m (switchTo b) fun _ => True := by
  rintro s _ _ _ ⟨⟩
  exact ⟨.switch hb, trivial⟩

theorem adds_newTemp (ty : Option TypeId) : Adds unit m (newTemp ty) fun _ => True := by
  rintro s _ _ _ ⟨⟩
  exact ⟨.withReg, trivial⟩

theorem adds_varOperand (name : Name) (ty : Option TypeId) :
    Adds unit m (varOperand name ty) fun _ => True := by
  rintro s _ _ _ ⟨⟩
  exact ⟨.withVar name ty, trivial⟩

theorem adds_internText (text : String) : Adds unit m (internText text) fun _ => True := by
  rintro s _ _ _ ⟨⟩
  exact ⟨.of_code (Lowering.extends_intern text) rfl rfl rfl, trivial⟩

theorem adds_emit {instr : Nat → Instr} (h : ∀ line, (instr line).isPhi = false) :
    Adds unit m (emit instr) fun _ => True := by
  intro s _ s' _ hok
  rw [eq_pushed_of_emit hok]
  exact ⟨.pushed (h s.line), trivial⟩

theorem adds_isTerminated : Adds unit m isTerminated fun _ => True :=
  adds_get.bind fun _ _ => (adds_lift _).bind fun _ _ => adds_pure trivial

theorem adds_ensureJump (target : BlockId) : Adds unit m (ensureJump target) fun _ => True := by
  refine adds_isTerminated.bind fun closed _ => ?_
  cases closed with
  | true => exact adds_pure trivial
  | false => exact adds_emit fun _ => rfl

theorem adds_text (text : String) (ty : Option TypeId) :
    Adds unit m (internText text >>= fun id => emitUnary .const ty (.literal id)) fun _ => True := by
  refine (adds_internText text).bind fun id _ => (adds_newTemp ty).bind fun dst _ => ?_
  exact (adds_emit fun _ => rfl).bind fun _ _ => adds_pure trivial

/-- An action between two changes around the function. -/
theorem adds_between {act : LowerM α} {R : α → Prop} {enter leave : Lowering → Lowering}
    (henter : Lowering.Peripheral enter) (hleave : Lowering.Peripheral leave) (h : Adds unit m act R) :
    Adds unit m (between enter leave act) R :=
  (adds_modify henter).bind fun _ _ => h.bind fun _ ha => (adds_modify hleave).bind fun _ _ => adds_pure ha

theorem adds_withLine {act : LowerM α} {R : α → Prop} (line : Nat) (h : Adds unit m act R) :
    Adds unit m (withLine line act) R :=
  adds_get.bind fun _ _ => adds_between (.line line) (.line _) h

-- ════════════════════════════════════════════════════════════════════════
-- Expressions
-- ════════════════════════════════════════════════════════════════════════

/-- A logical operator adds the phi that joins its sides, and what these add. -/
theorem adds_lowerLogical {depth : Nat} {op : BinaryOp} {lhs rhs : ExprId}
    (hsource : ∃ id node, unit.expr id = .ok node ∧ node.kind = .binary op lhs rhs)
    (hskips : op.isShortCircuit = true)
    (hlower : ∀ id, Adds unit m (unit.lowerExprWithin depth id) fun _ => True) (ty : Option TypeId) :
    Adds unit m (lowerLogical (unit.lowerExprWithin depth) (op == .logicalAnd) lhs rhs ty)
      fun _ => True := by
  intro s operand s' hm hok
  obtain ⟨left, s₁, right, s₂, s₃, hleft, hlt₁, hright, hlt₂, hjump, rfl, rfl⟩ := exists_of_lowerLogical hok
  let j : Junction :=
    { op, lhs, rhs, left, right, leftEnd := s₁.current, rightEnd := s₂.current,
      rightStart := s.fn.blockCount, truth := s₂.fn.regCount, leftLine := s₁.line, rightLine := s₂.line }
  -- The left side and the branch behind it.
  have hstart : s.Adds unit m ((s.withReg.grown (sideLabel j.isAnd)).grown "logic_merge") :=
    (Lowering.Adds.withReg.trans (.grown _)).trans (.grown _)
  have hside := (hlower lhs _ left s₁ (Nat.le_trans hm hstart.grows.blocks) hleft).1
  have hbranch : s₁.Adds unit m (s₁.pushed (j.branch (s.fn.blockCount + 1))) := by
    refine .pushed (Instr.isPhi_of_isTerminator _ ?_)
    exact isTerminator_sideBranch _ _ _ _ _
  have hforked : s₁.Adds unit m (sideStart s₁ j.isAnd left s.fn.blockCount) := hbranch.trans (.switch hm)
  have hadds₁ := (hstart.trans hside).trans hforked
  -- The right side and the jump behind it.
  have hside' := (hlower rhs _ right s₂ (Nat.le_trans hm hadds₁.grows.blocks) hright).1
  have htest : s₂.Adds unit m (sideEnd s₂ right) := Lowering.Adds.withReg.trans (.pushed rfl)
  obtain rfl := eq_of_ensureJump (s := sideEnd s₂ right)
    (Nat.lt_of_lt_of_le hlt₂ htest.grows.blocks) (Lowering.isOpen_pushed (s := s₂.withReg) hlt₂ rfl) hjump
  have hjumped : (sideEnd s₂ right).Adds unit m ((sideEnd s₂ right).pushed (j.jump (s.fn.blockCount + 1))) :=
    .pushed rfl
  have hadds₂ := ((hadds₁.trans hside').trans htest).trans hjumped
  -- The phi where they meet.
  have hmerge : (Lowering.grown (s.withReg.grown (sideLabel j.isAnd)) "logic_merge").fn.label?
      (s.fn.blockCount + 1) = some "logic_merge" :=
    (Function.label?_grown _ _ _).trans (if_pos (Function.blockCount_grown _ _).symm)
  have hlt : s.fn.blockCount + 1 <
      ((s.withReg.grown (sideLabel j.isAnd)).grown "logic_merge").fn.blockCount := by
    rw [show (Lowering.grown _ _).fn.blockCount = _ from Function.blockCount_grown _ _,
      show (Lowering.grown _ _).fn.blockCount = _ from Function.blockCount_grown _ _]
    exact Nat.lt_succ_self _
  have hlabel := ((((hside.trans hforked).trans hside').trans htest).trans hjumped).grows.label _ hlt
  -- What stands behind the sides.
  have hbehind := Lowering.getElem?_code_pushed (i := j.branch (s.fn.blockCount + 1)) hlt₁
  have hbehind' := hjumped.grows.getElem?_code
    (Lowering.getElem?_code_pushed (s := s₂.withReg) (i := j.test) hlt₂)
  have hlast := Lowering.getElem?_code_pushed (s := sideEnd s₂ right) (i := j.jump (s.fn.blockCount + 1))
    (Nat.lt_of_lt_of_le hlt₂ htest.grows.blocks)
  rw [show (sideEnd s₂ right).fn.code (sideEnd s₂ right).current = s₂.fn.code s₂.current ++ [j.test] from
    s₂.withReg.fn.code_pushed_self s₂.current j.test hlt₂, List.length_append] at hlast
  have hrest := ((Lowering.Adds.switch hm).trans hside').trans (htest.trans hjumped)
  refine ⟨(hadds₂.trans (.switch (Nat.le_succ_of_le hm))).trans
    (.meet (j := j) (hlabel.trans hmerge) ?_), trivial⟩
  exact {
    source := hsource
    skips := hskips
    var := rfl
    args := .refl _
    leftSide := ⟨depth, _, s₁, hleft, (hforked.trans (hside'.trans (htest.trans hjumped))).grows.partOf, rfl,
      hrest.grows.getElem?_code hbehind⟩
    rightSide := ⟨depth, _, s₂, hright, (htest.trans hjumped).grows.partOf, rfl, hbehind', hlast⟩
    apart := Nat.ne_of_lt (Nat.lt_succ_self _) }

end LowerM

/-- All forms of expressions, and what else goes on only in blocks that are made on the way, add only what may be
added. -/
theorem SourceUnit.adds (unit : SourceUnit) (m : Nat) :
    StmtCompositional unit (.all unit) (m ≤ ·) (fun _ => True) fun act R => Adds unit m act R where
  pure := adds_pure
  bind := Adds.bind
  lift hok _ := (adds_lift _).imp hok
  holds_withLine := adds_withLine
  holds_newTemp := adds_newTemp
  holds_varOperand _ := adds_varOperand _
  holds_text := adds_text
  valid_none := trivial
  valid_int _ := trivial
  valid_float _ := trivial
  valid_field _ := trivial
  valid_func _ := trivial
  holds_emitStraight hop _ := adds_emit fun line => beq_false_of_ne (hop line).2
  holds_lowerLogical hsource hskips hlower _ _ := adds_lowerLogical hsource hskips fun id => hlower id trivial
  get_bind _ h := adds_get.bind fun s _ => h s
  holds_withBreak exit h := adds_between (.pushBreak exit) .popBreak h
  holds_withContinue next h := adds_between (.pushContinue next) .popContinue h
  holds_newBlock := adds_newBlock
  holds_switchTo := adds_switchTo
  holds_isTerminated := adds_isTerminated
  holds_emitLast hlast _ := adds_emit fun line => Instr.isPhi_of_isTerminator _ (hlast line)
  valid_label _ := trivial

theorem SourceUnit.adds_lowerExprWithin (unit : SourceUnit) (m depth : Nat) (id : ExprId) :
    LowerM.Adds unit m (unit.lowerExprWithin depth id) fun _ => True :=
  (unit.adds m).holds_lowerExprWithin depth trivial

/-- Lowering an expression adds only what may be added. -/
theorem SourceUnit.adds_lowerExpr (unit : SourceUnit) (m : Nat) (id : ExprId) :
    LowerM.Adds unit m (unit.lowerExpr id) fun _ => True :=
  unit.adds_lowerExprWithin m _ id

end MiddleEnd
