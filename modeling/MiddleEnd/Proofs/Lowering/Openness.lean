import MiddleEnd.Proofs.Lowering.Additions

/-!
# Where expressions end

Lowering an expression starts where an instruction can be appended, and ends where one can be appended. For
most forms this is so because the last thing they do is to append an instruction that does not leave the
block. A logical operator goes on in two blocks of its own, which stay empty until their turn comes.

## Main definitions

* `Lowering.Accepts`: an instruction can be appended.
* `LowerM.Carries`: an action that leads from such states to such states, and stops only because of the unit.
* `LowerM.Grounded`: an action that does not stop because of the unit.

## Main statements

* `LowerM.carries_lowerLogical`: logical operators.
* `SourceUnit.carries`: all forms of expressions.
* `SourceUnit.WellFormed.completes_lowerExpr`: in a well-formed unit it succeeds.
-/

namespace MiddleEnd

open LowerM

namespace Lowering

variable {s : Lowering}

/-- The current block is there and takes another instruction. -/
structure Accepts (s : Lowering) : Prop where
  current : s.current < s.fn.blockCount
  isOpen : s.IsOpen

namespace Accepts

theorem of_code {s' : Lowering} (h : s.Accepts) (hcurrent : s'.current = s.current)
    (hcount : s.fn.blockCount ≤ s'.fn.blockCount) (hcode : s'.fn.code = s.fn.code) : s'.Accepts := by
  refine ⟨hcurrent ▸ Nat.lt_of_lt_of_le h.current hcount, ?_⟩
  rw [IsOpen, Function.Closed, hcode, hcurrent]
  exact h.isOpen

theorem grown (h : s.Accepts) (label : String) : (s.grown label).Accepts :=
  h.of_code rfl (extends_grown (m := 0) label).blocks (funext (s.fn.code_grown label))

theorem withReg (h : s.Accepts) : s.withReg.Accepts := ⟨h.current, h.isOpen⟩

theorem withVar (h : s.Accepts) (name : Name) (ty : Option TypeId) : (s.withVar name ty).Accepts :=
  h.of_code rfl (extends_withVar (m := 0) name ty).blocks (s.code_withVar name ty)

/-- An instruction that does not leave the block may be followed by another one. -/
theorem pushed (h : s.Accepts) {i : Instr} (hi : i.isTerminator = false) : (s.pushed i).Accepts :=
  ⟨Nat.lt_of_lt_of_eq h.current (s.fn.blockCount_pushed s.current i).symm, isOpen_pushed h.current hi⟩

end Accepts

/-- A block that was made for later takes an instruction. -/
theorem Waits.accepts {label : String} {t : BlockId} (h : s.Waits label t) :
    Accepts { s with current := t } := by
  refine ⟨h.lt, ?_⟩
  rintro ⟨i, hi, _⟩
  rw [show Function.code _ t = [] from h.code] at hi
  cases hi

end Lowering

namespace LowerM

variable {α β : Type} {unit : SourceUnit}

/-- The action leads from states in which an instruction can be appended to such states and answers something with
the given property, unless it stops because of what the unit refers to. -/
def Carries (act : LowerM α) (R : α → Prop) : Prop :=
  ∀ s : Lowering, s.Accepts → act.Ensures s fun a s' => s'.Accepts ∧ R a

-- ════════════════════════════════════════════════════════════════════════
-- Actions one after the other
-- ════════════════════════════════════════════════════════════════════════

theorem Carries.bind {act : LowerM α} {next : α → LowerM β} {R : α → Prop} {S : β → Prop} (h : act.Carries R)
    (hnext : ∀ a, R a → (next a).Carries S) : (act >>= next).Carries S :=
  fun s hs => (h s hs).bind fun a s' hs' => hnext a hs'.2 s' hs'.1

theorem carries_pure {a : α} {R : α → Prop} (h : R a) : (pure a : LowerM α).Carries R := fun _ hs => ⟨hs, h⟩

theorem carries_withLine {act : LowerM α} {R : α → Prop} (line : Nat) (h : act.Carries R) :
    (withLine line act).Carries R := by
  intro s hs
  have hact := h { s with line } ⟨hs.current, hs.isOpen⟩
  exact ensures_withLine (hact.mono fun _ _ hs' => ⟨⟨hs'.1.current, hs'.1.isOpen⟩, hs'.2⟩)

theorem carries_emit {instr : Nat → Instr} (h : ∀ line, (instr line).isTerminator = false) :
    (emit instr).Carries fun _ => True :=
  fun s hs => ensures_of_eq (emit_apply hs.current hs.isOpen instr) ⟨hs.pushed (h s.line), trivial⟩

theorem carries_text (text : String) (ty : Option TypeId) :
    (internText text >>= fun id => emitUnary .const ty (.literal id)).Carries fun _ => True := by
  have hintern : (internText text).Carries fun _ => True := fun _ hs => ⟨⟨hs.current, hs.isOpen⟩, trivial⟩
  have htemp : (newTemp ty).Carries fun _ => True := fun _ hs => ⟨hs.withReg, trivial⟩
  refine hintern.bind fun id _ => htemp.bind fun dst _ => ?_
  exact (carries_emit fun _ => rfl).bind fun _ _ => carries_pure trivial

/-- What is known of a run that succeeds may be added to what an action ensures. -/
theorem Ensures.and_of_eq {act : LowerM α} {s : Lowering} {P Q : α → Lowering → Prop} (h : act.Ensures s Q)
    (hrun : ∀ a s', act s = .ok (a, s') → P a s') : act.Ensures s fun a s' => Q a s' ∧ P a s' := by
  unfold Ensures at h ⊢
  split
  · rename_i a s' heq
    rw [heq] at h
    exact ⟨h, hrun a s' heq⟩
  · rename_i fault heq
    rw [heq] at h
    exact h

-- ════════════════════════════════════════════════════════════════════════
-- Expressions
-- ════════════════════════════════════════════════════════════════════════

/-- The blocks of a logical operator stay empty until it goes on in them. -/
theorem carries_lowerLogical {depth : Nat}
    (hlower : ∀ id, (unit.lowerExprWithin depth id).Carries fun _ => True) (isAnd : Bool) (lhs rhs : ExprId)
    (ty : Option TypeId) :
    (lowerLogical (unit.lowerExprWithin depth) isAnd lhs rhs ty).Carries fun _ => True := by
  -- A side adds nothing to the blocks that were there, but to the current one.
  have hside : ∀ id (s : Lowering), s.Accepts → (unit.lowerExprWithin depth id).Ensures s fun _ s' =>
      s'.Accepts ∧ s.Extends s.fn.blockCount s' := fun id s hs =>
    ((hlower id s hs).mono fun _ _ hs' => hs'.1).and_of_eq fun a s' hok =>
      (unit.adds_lowerExprWithin s.fn.blockCount depth id s a s' (Nat.le_refl _) hok).1.grows
  intro s hs
  rw [lowerLogical_eq]
  generalize (if isAnd then "and_rhs" else "or_rhs") = label
  refine ensures_bind_of_eq (t := s.withReg) rfl ?_
  refine ensures_bind_of_eq (newBlock_apply label _) (ensures_bind_of_eq (newBlock_apply _ _) ?_)
  have hgrown : (s.withReg.grown label).Accepts := hs.withReg.grown label
  have hcount : (s.withReg.grown label).fn.blockCount = s.fn.blockCount + 1 :=
    s.withReg.fn.blockCount_grown label
  have hrhs : ((s.withReg.grown label).grown "logic_merge").Waits label s.fn.blockCount :=
    (Lowering.Waits.grown_self hs.withReg.current label).persists
      (Lowering.extends_grown (m := s.fn.blockCount + 1) "logic_merge") (Nat.lt_succ_self _)
  have hmerge : ((s.withReg.grown label).grown "logic_merge").Waits "logic_merge" (s.fn.blockCount + 1) :=
    hcount ▸ Lowering.Waits.grown_self hgrown.current "logic_merge"
  rw [hcount, show s.withReg.fn.blockCount = s.fn.blockCount from rfl]
  -- The left side, and the branch behind it.
  refine (hside lhs _ (hgrown.grown "logic_merge")).bind ?_
  rintro left s₁ ⟨hs₁, hext₁⟩
  have hrhs₁ := hrhs.persists hext₁ hrhs.lt
  have hmerge₁ := hmerge.persists hext₁ hmerge.lt
  refine ensures_bind_of_eq (emit_apply hs₁.current hs₁.isOpen _) ?_
  generalize hbranch : sideBranch isAnd left s.fn.blockCount (s.fn.blockCount + 1) s₁.line = branch
  have hbranched : s₁.Extends s₁.fn.blockCount (s₁.pushed branch) := by
    refine Lowering.extends_pushed fun hphi => ?_
    rw [← hbranch, Instr.isPhi_of_isTerminator _ (isTerminator_sideBranch _ _ _ _ _)] at hphi
    cases hphi
  have hmerge₁' : Lowering.Waits (s₁.forked branch s.fn.blockCount) "logic_merge" (s.fn.blockCount + 1) :=
    (hmerge₁.persists hbranched hmerge₁.lt).switch (Nat.succ_ne_self _)
  -- The right side, and the jump behind it.
  refine ensures_bind_of_eq (t := s₁.pushed branch) rfl ?_
  refine ensures_bind_of_eq (t := s₁.forked branch s.fn.blockCount) rfl ?_
  refine (hside rhs _ (hrhs₁.persists hbranched hrhs₁.lt).accepts).bind ?_
  rintro right s₂ ⟨hs₂, hext₂⟩
  have hmerge₂ := hmerge₁'.persists hext₂ hmerge₁'.lt
  refine ensures_bind_of_eq (emitBinary_apply hs₂.current hs₂.isOpen _ _ _ _) ?_
  have hs₃ : (sideEnd s₂ right).Accepts := hs₂.withReg.pushed rfl
  have hext₃ : s₂.Extends s₂.fn.blockCount (sideEnd s₂ right) :=
    Lowering.extends_withReg.trans (Lowering.extends_pushed nofun)
  refine ensures_bind_of_eq (ensureJump_of_isOpen hs₃.current hs₃.isOpen _) ?_
  have hjumped : s₂.Extends s₂.fn.blockCount
      ((sideEnd s₂ right).pushed (.jump (s.fn.blockCount + 1) s₂.line)) :=
    hext₃.trans (Lowering.extends_pushed nofun)
  have hlast := (hmerge₂.persists hjumped hmerge₂.lt).accepts
  -- The phi where they meet.
  refine ensures_bind_of_eq (t := (sideEnd s₂ right).pushed (.jump (s.fn.blockCount + 1) s₂.line)) rfl ?_
  refine ensures_bind_of_eq rfl (ensures_bind_of_eq (emit_apply hlast.current hlast.isOpen _) ?_)
  exact ensures_pure ⟨hlast.pushed rfl, trivial⟩

end LowerM

/-- All that lowering an expression is put together from ends where an instruction can be appended. -/
theorem SourceUnit.carries (unit : SourceUnit) :
    ExprCompositional unit (.all unit) (fun _ => True) fun act R => act.Carries R where
  pure := carries_pure
  bind := Carries.bind
  lift hok herror _ hs := ensures_lift (fun a ha => ⟨hs, hok a ha⟩) fun fault hfault => (herror fault hfault).2
  holds_withLine := carries_withLine
  holds_newTemp _ _ hs := ⟨hs.withReg, trivial⟩
  holds_varOperand _ ty _ hs := ⟨hs.withVar _ ty, trivial⟩
  holds_text := carries_text
  valid_none := trivial
  valid_int _ := trivial
  valid_float _ := trivial
  valid_field _ := trivial
  valid_func _ := trivial
  holds_emitStraight hop _ := carries_emit fun line => (hop line).1
  holds_lowerLogical _ _ hlower _ _ := carries_lowerLogical (fun id => hlower id trivial) _ _ _

/-- Lowering an expression ends where an instruction can be appended if it starts there. -/
theorem SourceUnit.carries_lowerExpr (unit : SourceUnit) (id : ExprId) :
    (unit.lowerExpr id).Carries fun _ => True :=
  unit.carries.holds_lowerExpr trivial

-- ════════════════════════════════════════════════════════════════════════
-- Well-formed units
-- ════════════════════════════════════════════════════════════════════════

namespace LowerM

variable {α β : Type}

/-- If the action stops, then not because of what the unit refers to. -/
def Grounded (act : LowerM α) (R : α → Prop) : Prop :=
  ∀ s, match act s with
    | .ok (a, _) => R a
    | .error fault => ¬ fault.IsDangling

theorem Grounded.bind {act : LowerM α} {next : α → LowerM β} {R : α → Prop} {S : β → Prop}
    (h : act.Grounded R) (hnext : ∀ a, R a → (next a).Grounded S) : (act >>= next).Grounded S := by
  intro s
  have hact := h s
  change match (act s).bind fun p => next p.1 p.2 with
    | .ok (b, _) => S b
    | .error fault => ¬ fault.IsDangling
  cases heq : act s with
  | error fault =>
    rw [heq] at hact
    exact hact
  | ok p =>
    rw [heq] at hact
    exact hnext p.1 hact p.2

/-- An action that can only stop because of the unit, and does not, succeeds. -/
theorem Ensures.completes {act : LowerM α} {s : Lowering} {Q : α → Lowering → Prop} {R : α → Prop}
    (h : act.Ensures s Q) (hgrounded : act.Grounded R) : ∃ a s', act s = .ok (a, s') ∧ Q a s' := by
  have hact := hgrounded s
  unfold Ensures at h
  cases heq : act s with
  | ok p =>
    rw [heq] at h
    exact ⟨p.1, p.2, rfl, h⟩
  | error fault =>
    rw [heq] at h hact
    exact absurd h hact

theorem grounded_get : (get : LowerM Lowering).Grounded fun _ => True := fun _ => trivial

theorem grounded_between {enter leave : Lowering → Lowering} {act : LowerM α} {R : α → Prop}
    (h : act.Grounded R) : (between enter leave act).Grounded R := by
  have hmodify : ∀ g : Lowering → Lowering, (modify g : LowerM PUnit).Grounded fun _ => True :=
    fun _ _ => trivial
  exact (hmodify enter).bind fun _ _ => h.bind fun _ ha => (hmodify leave).bind fun _ _ _ => ha

theorem grounded_emit (instr : Nat → Instr) : (emit instr).Grounded fun _ => True := by
  intro s
  obtain heq | ⟨fault, heq, hfault⟩ := emit_cases instr s
  · rw [heq]
    trivial
  · rw [heq]
    exact hfault

theorem grounded_isTerminated : isTerminated.Grounded fun _ => True := by
  intro s
  rw [isTerminated, bind_apply (a := s) (t := s) rfl, lift_bind_apply, Function.block]
  cases s.fn.blocks[s.current]? with
  | none => exact not_false
  | some block => trivial

theorem grounded_text (text : String) (ty : Option TypeId) :
    (internText text >>= fun id => emitUnary .const ty (.literal id)).Grounded fun _ => True := by
  have hintern : (internText text).Grounded fun _ => True := fun _ => trivial
  have htemp : (newTemp ty).Grounded fun _ => True := fun _ => trivial
  exact hintern.bind fun _ _ => htemp.bind fun _ _ => (grounded_emit _).bind fun _ _ _ => trivial

end LowerM

namespace SourceUnit.WellFormed

variable {unit : SourceUnit}

/-- Nothing that lowering is put together from stops because of a well-formed unit. -/
theorem grounded (hunit : unit.WellFormed) :
    Compositional unit hunit.domain (fun _ => True) fun act R => act.Grounded R where
  pure h _ := h
  bind := Grounded.bind
  lift := by
    intro α x R hok herror s
    cases x with
    | ok a => exact hok a rfl
    | error fault => exact (herror fault rfl).1.elim
  get_bind _ h s := h s s
  holds_withLine _ h := grounded_get.bind fun _ _ => grounded_between h
  holds_withBreak _ h := grounded_between h
  holds_withContinue _ h := grounded_between h
  holds_switchTo _ _ := trivial
  holds_newBlock _ _ := trivial
  holds_newTemp _ _ := trivial
  holds_varOperand _ _ _ := trivial
  holds_isTerminated := grounded_isTerminated
  holds_emit _ := grounded_emit _
  holds_text := grounded_text
  valid_none := trivial
  valid_int _ := trivial
  valid_float _ := trivial
  valid_label _ := trivial
  valid_field _ := trivial
  valid_func _ := trivial

/-- Wherever an instruction can be appended, an expression that exists is lowered, and then an instruction can
be appended again. -/
theorem completes_lowerExpr (hunit : unit.WellFormed) {id : ExprId} (hid : id < unit.exprs.size)
    {s : Lowering} (hs : s.Accepts) : ∃ operand s', unit.lowerExpr id s = .ok (operand, s') ∧ s'.Accepts :=
  ((unit.carries_lowerExpr id s hs).mono fun _ _ hs' => hs'.1).completes
    (hunit.grounded.stmt.holds_lowerExpr ⟨Nat.lt_succ_of_lt hid, hid⟩)

end SourceUnit.WellFormed

end MiddleEnd
