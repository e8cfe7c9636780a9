import MiddleEnd.Proofs.Lowering.Stage

/-!
# Lowered statements

Lowering a statement keeps the invariant, whatever it is made of and wherever its jumps lead.

## Main statements

* `ensures_lowerStmtKind`: one statement, if its parts keep the invariant.
* `SourceUnit.lowers_lowerStmt`: every statement.
* `SourceUnit.ensures_lowerBody`: a whole body, the blocks of whose labels are made first.
-/

namespace MiddleEnd

open LowerM Lowering

variable {unit : SourceUnit} {lower : StmtId → LowerM Unit} {avail : Avail} {s : Lowering}

-- ════════════════════════════════════════════════════════════════════════
-- Straight code
-- ════════════════════════════════════════════════════════════════════════

/-- After a terminator a new block is opened, unless the next statement opens one. -/
theorem ensures_openDeadBlock (h : s.Sound avail) (id : StmtId) :
    (openDeadBlock unit id).Ensures s fun _ s' => Advances avail avail s s' ∧
      (s'.IsOpen ∨ ∀ node, unit.stmt id = .ok node → node.kind.opensBlock = true) := by
  obtain ⟨closed, hterm, hiff⟩ := isTerminated_apply h.current
  refine ensures_bind_of_eq hterm ?_
  cases closed with
  | false =>
    refine ensures_pure ⟨.refl h, .inl fun hclosed => ?_⟩
    cases hiff.mpr hclosed
  | true =>
    refine (ensures_stmt (Q := fun node s' => unit.stmt id = .ok node ∧ s' = s)
      fun node hnode => ⟨hnode, rfl⟩).bind ?_
    rintro node _ ⟨hnode, rfl⟩
    cases hopens : node.kind.opensBlock with
    | true =>
      refine ensures_pure ⟨.refl h, .inr fun node' hnode' => ?_⟩
      rw [hnode] at hnode'
      cases hnode'
      exact hopens
    | false =>
      refine h.stage.ensures_newBlock fun t s₁ h₁ _ _ => ?_
      refine ensures_of_eq (t := { s₁ with current := t }) rfl ⟨?_, .inl ?_⟩
      · have h₂ : Stage avail _ ⟨_, _, [t], []⟩ avail { s₁ with current := t } :=
          h₁.switch List.mem_cons_self rfl rfl (fun _ hu => hu) (by simp)
        exact h₂.finish rfl rfl
      · exact h₁.isOpen_switch List.mem_cons_self

/-- Code after a terminator goes on in a new block, which is dead. -/
theorem openDeadBlock_cases {id : StmtId} {s s' : Lowering} {u : Unit}
    (h : openDeadBlock unit id s = .ok (u, s')) : s' = s ∨
      s.fn.Closed s.current ∧ s' = { s.grown "dead" with current := s.fn.blockCount } := by
  rw [openDeadBlock] at h
  obtain ⟨⟨closed, s₁⟩, hterm, hrest⟩ := bind_eq_ok.mp h
  rw [isTerminated, bind_apply (a := s) (t := s) rfl, lift_bind_apply] at hterm
  obtain ⟨block, hblock, hpure⟩ := bind_eq_ok.mp hterm
  cases hpure
  cases hclosed : block.isTerminated with
  | false =>
    simp only [hclosed, Bool.false_eq_true, if_false] at hrest
    cases hrest
    exact .inl rfl
  | true =>
    simp only [hclosed, if_true] at hrest
    rw [lift_bind_apply] at hrest
    obtain ⟨node, _, hrest⟩ := bind_eq_ok.mp hrest
    split at hrest
    · cases hrest
      exact .inl rfl
    · cases hrest
      exact .inr ⟨(Function.isTerminated_iff (require_eq_ok_iff.mp hblock)).mp hclosed, rfl⟩

theorem ensures_lowerList (hlower : Lowers unit lower) (h : s.Sound avail) (body : List StmtId) :
    (lowerList unit lower body).Ensures s fun _ s' => ∃ avail', Advances avail avail' s s' := by
  refine ensures_forM (fun id _ s₁ ⟨avail₁, hadv₁⟩ => ?_) ⟨avail, .refl h⟩
  refine (ensures_openDeadBlock hadv₁.sound id).bind fun _ s₂ ⟨hadv₂, hopen₂⟩ => ?_
  refine (hlower id avail₁ s₂ hadv₂.sound hopen₂).mono ?_
  rintro _ s₃ ⟨avail₃, hadv₃⟩
  exact ⟨avail₃, (hadv₁.trans hadv₂).trans hadv₃⟩

theorem ensures_lowerDeclare (h : s.Sound avail) (hopen : s.IsOpen) (name : Name)
    (ty : Option TypeId) (init : Option ExprId) :
    (lowerDeclare unit name ty init).Ensures s fun _ s' => ∃ avail', Advances avail avail' s s' := by
  obtain ⟨hreach₁, hreadable₁⟩ := h.reaches_withVar hopen name ty
  have hvar₁ := s.isVarReg_withVar name ty
  refine ensures_bind_of_eq (t := s.withVar name ty) rfl ?_
  cases init with
  | none => exact ensures_pure ⟨avail, hreach₁.advances⟩
  | some value =>
    refine (unit.computes_lowerExpr value).ensures_bind hreach₁.sound hreach₁.isOpen
      fun result s₂ avail₂ hreach₂ hresult => ?_
    have hvar₂ := hreach₂.grows.isVarReg hvar₁
    have hlt₂ := (hreadable₁.reaches hreach₂ _ rfl).1
    obtain ⟨hsound₃, hopen₃⟩ := Reaches.push hreach₂.sound hreach₂.isOpen
      (i := .unary .copy (.reg (s.fn.varLookup name ty).1 ty) result s₂.line)
      (straight_of_isStraight (show Opcode.copy.IsStraight by decide) rfl) hresult.readable
      (readable_of_reg? rfl) (by
        intro r hr
        obtain rfl : (s.fn.varLookup name ty).1 = r := by
          simpa [Instr.unary, Operand.reg?] using hr
        exact ⟨hlt₂, .inl hvar₂⟩)
    refine ensures_of_eq (emit_apply hreach₂.sound.current hreach₂.isOpen _) ⟨avail₂, ?_⟩
    refine (hreach₁.trans hreach₂).advances.trans ⟨hsound₃, ?_, ⟨rfl, rfl, rfl, rfl⟩⟩
    refine (grows_pushed (k := 0) ?_ ?_ fun r _ => .inl (Nat.zero_le r)).widens
    · simp [Instr.unary, Instr.targets]
    · simp [Instr.unary, Instr.isPhi]

/-- Leaving the function. -/
theorem Lowering.Sound.leave_ret (h : s.Sound avail) (hopen : s.IsOpen) {value : Operand}
    (hvalue : s.Usable avail value) (line : Nat) :
    Advances avail avail s (s.pushed (.ret value line)) :=
  h.leave hopen rfl rfl ⟨rfl, rfl⟩ hvalue rfl (by simp [Instr.ret, Instr.targets])

theorem ensures_lowerReturn (h : s.Sound avail) (hopen : s.IsOpen) (value : Option ExprId) :
    (lowerReturn unit value).Ensures s fun _ s' => ∃ avail', Advances avail avail' s s' := by
  cases value with
  | none =>
    refine ensures_bind_of_eq (a := .none) (t := s) rfl ?_
    exact ensures_of_eq (emit_apply h.current hopen _)
      ⟨avail, h.leave_ret hopen (usable_of_reg? rfl) s.line⟩
  | some value =>
    refine (unit.computes_lowerExpr value).ensures_bind h hopen fun result s₁ avail₁ hreach₁ hresult => ?_
    exact ensures_of_eq (emit_apply hreach₁.sound.current hreach₁.isOpen _)
      ⟨avail₁, hreach₁.advances.trans (hreach₁.sound.leave_ret hreach₁.isOpen hresult s₁.line)⟩

/-- An instruction that does nothing. -/
theorem ensures_nop (h : s.Sound avail) (hopen : s.IsOpen) :
    (emit .nop).Ensures s fun _ s' => Reaches avail avail s s' :=
  ensures_emit h hopen fun _ => ⟨straight_of_isStraight (show Opcode.nop.IsStraight by decide) rfl,
    rfl, readable_of_reg? rfl, readable_of_reg? rfl⟩

/-- A jump out of the statement. -/
theorem ensures_jumpOut (h : s.Sound avail) (hopen : s.IsOpen) {t : BlockId} (ht : t ∈ s.scopes) :
    (emit (.jump t)).Ensures s fun _ s' => ∃ avail', Advances avail avail' s s' :=
  ensures_of_eq (emit_apply h.current hopen _)
    ⟨avail, h.leave_jump hopen (h.scopes t ht) s.line⟩

theorem ensures_jumpToInnermost (h : s.Sound avail) (hopen : s.IsOpen) {targets : List BlockId}
    (htargets : ∀ t ∈ targets, t ∈ s.scopes) :
    (jumpToInnermost targets).Ensures s fun _ s' => ∃ avail', Advances avail avail' s s' := by
  cases targets with
  | nil => exact ensures_pure ⟨avail, .refl h⟩
  | cons t rest => exact ensures_jumpOut h hopen (htargets t List.mem_cons_self)

theorem mem_of_lookup {α β : Type} [BEq α] [LawfulBEq α] {table : List (α × β)} {a : α} {b : β}
    (h : table.lookup a = some b) : b ∈ table.map (·.2) := by
  induction table with
  | nil => cases h
  | cons entry rest ih =>
    rw [List.lookup_cons] at h
    split at h
    · cases h
      exact List.mem_cons_self
    · exact List.mem_cons_of_mem _ (ih h)

theorem ensures_lowerGoto (h : s.Sound avail) (hopen : s.IsOpen) (name : Name) :
    (lowerGoto name).Ensures s fun _ s' => ∃ avail', Advances avail avail' s s' := by
  refine ensures_get_bind ?_
  split
  · rename_i target hlookup
    refine ensures_jumpOut h hopen ?_
    simp only [Lowering.scopes, List.mem_append]
    exact .inl (.inr (mem_of_lookup hlookup))
  · exact (ensures_nop h hopen).mono fun _ _ hreach => ⟨avail, hreach.advances⟩

theorem ensures_lowerLabel (h : s.Sound avail) (id : StmtId) :
    (lowerLabel id).Ensures s fun _ s' => ∃ avail', Advances avail avail' s s' := by
  refine ensures_get_bind ?_
  split
  · rename_i block hlookup
    have hlabel : block ∈ s.labelled := mem_of_lookup hlookup
    have hfree : s.Free avail block := h.scopes block (List.mem_append_right _ hlabel)
    have hjump : (ensureJump block).Ensures s fun _ s' => Advances avail avail s s' := by
      by_cases hopen : s.IsOpen
      · exact ensures_of_eq (ensureJump_of_isOpen h.current hopen block)
          (h.leave_jump hopen hfree s.line)
      · exact ensures_of_eq (ensureJump_of_closed h.current (not_not.mp hopen) block) (.refl h)
    refine hjump.bind fun _ s₁ hadv => ?_
    have hlabel₁ : block ∈ s₁.labelled := hadv.widens.labelled_eq ▸ hlabel
    refine ensures_of_eq (t := { s₁ with current := block }) rfl ⟨avail, hadv.trans ?_⟩
    exact ⟨hadv.sound.switch (hfree.advances hadv).lt,
      widens_of_fn rfl (.inr (.inr hlabel₁)) rfl, ⟨rfl, rfl, rfl, rfl⟩⟩
  · exact ensures_pure ⟨avail, .refl h⟩

-- ════════════════════════════════════════════════════════════════════════
-- Conditionals and loops
-- ════════════════════════════════════════════════════════════════════════

theorem ensures_lowerAssertion (h : s.Sound avail) (hopen : s.IsOpen) (cond : ExprId) :
    (lowerAssertion unit cond).Ensures s fun _ s' => ∃ avail', Advances avail avail' s s' := by
  refine h.stage.ensures_newBlock fun failBlock s₁ h₁ _ hopen₁ => ?_
  refine h₁.ensures_newBlock fun okBlock s₂ h₂ hne₂ hopen₂ => ?_
  refine h₂.ensures_lowerExpr (hopen₂ (hopen₁ hopen)) fun value s₃ avail₃ h₃ hopen₃ hvalue => ?_
  refine h₃.ensures_branch hopen₃ hvalue (by simp [Plan.reserve]) (by simp [Plan.reserve])
    fun s₄ h₄ => ?_
  refine h₄.ensures_enter [] (by simp [Plan.reserve]) (by simp)
    fun s₅ h₅ hopen₅ => ?_
  refine (ensures_nop h₅.sound hopen₅).bind fun _ s₆ hreach₆ => ?_
  have h₆ := h₅.advance hreach₆.advances
  refine ensures_bind_of_eq (emit_apply h₆.sound.current hreach₆.isOpen _) ?_
  have hnothing : Operand.reg? .none = none := rfl
  have h₇ := h₆.advance (h₆.sound.leave_ret hreach₆.isOpen (usable_of_reg? hnothing) s₆.line)
  exact h₇.ensures_exit (by simp [Plan.reserve])

theorem ensures_lowerConditional (hlower : Lowers unit lower) (h : s.Sound avail)
    (hopen : s.IsOpen) (cond : ExprId) (thenBody : StmtId) (elseBody : Option StmtId) :
    (lowerConditional unit lower cond thenBody elseBody).Ensures s fun _ s' =>
      ∃ avail', Advances avail avail' s s' := by
  refine h.stage.ensures_newBlock fun thenBlock s₁ h₁ _ hopen₁ => ?_
  cases elseBody with
  | none =>
    refine h₁.ensures_newBlock fun mergeBlock s₂ h₂ hne₂ hopen₂ => ?_
    refine h₂.ensures_lowerExpr (hopen₂ (hopen₁ hopen)) fun value s₃ avail₃ h₃ hopen₃ hvalue => ?_
    refine h₃.ensures_branch hopen₃ hvalue (by simp [Plan.reserve]) (by simp [Plan.reserve])
      fun s₄ h₄ => ?_
    refine (h₄.ensures_fillBlock hlower [] (by simp [Plan.reserve])
      (by simp [Plan.reserve]) (by simp)).bind ?_
    rintro _ s₅ ⟨avail₅, h₅⟩
    exact h₅.ensures_exit (by simp [Plan.reserve])
  | some elseBody =>
    refine h₁.ensures_newBlock fun elseBlock s₂ h₂ hne₂ hopen₂ => ?_
    refine h₂.ensures_newBlock fun mergeBlock s₃ h₃ hne₃ hopen₃ => ?_
    refine h₃.ensures_lowerExpr (hopen₃ (hopen₂ (hopen₁ hopen)))
      fun value s₄ avail₄ h₄ hopen₄ hvalue => ?_
    refine h₄.ensures_branch hopen₄ hvalue (by simp [Plan.reserve]) (by simp [Plan.reserve])
      fun s₅ h₅ => ?_
    have hne : thenBlock ≠ elseBlock := hne₂ thenBlock (by simp [Plan.reserve])
    refine (h₅.ensures_fillBlock hlower [elseBlock] (by simp [Plan.reserve])
      (by simp [Plan.reserve]) (by simp [Plan.reserve, hne.symm])).bind ?_
    rintro _ s₆ ⟨avail₆, h₆⟩
    refine (h₆.ensures_fillBlock hlower [] (by simp)
      (by simp [Plan.reserve]) (by simp)).bind ?_
    rintro _ s₇ ⟨avail₇, h₇⟩
    exact h₇.ensures_exit (by simp [Plan.reserve])

theorem ensures_lowerWhile (hlower : Lowers unit lower) (h : s.Sound avail) (cond : ExprId)
    (body : StmtId) : (lowerWhile unit lower cond body).Ensures s fun _ s' =>
      ∃ avail', Advances avail avail' s s' := by
  refine h.stage.ensures_newBlock fun condBlock s₁ h₁ _ _ => ?_
  refine h₁.ensures_newBlock fun bodyBlock s₂ h₂ hne₂ _ => ?_
  refine h₂.ensures_newBlock fun exitBlock s₃ h₃ _ _ => ?_
  have hne : condBlock ≠ bodyBlock := hne₂ condBlock (by simp [Plan.reserve])
  refine (h₃.ensures_withLoop (by simp [Plan.reserve]) (by simp [Plan.reserve]) ?_).bind ?_
  · intro s₄ h₄ _
    refine (h₄.ensures_ensureJump (by simp [Plan.reserve])).bind fun _ s₅ h₅ => ?_
    refine h₅.ensures_enter [bodyBlock] (by simp [Plan.reserve])
      (by simp [Plan.reserve, hne.symm]) fun s₆ h₆ hopen₆ => ?_
    refine h₆.ensures_lowerExpr hopen₆ fun value s₇ avail₇ h₇ hopen₇ hvalue => ?_
    refine h₇.ensures_branch hopen₇ hvalue (by simp [Plan.reserve]) (by simp [Plan.reserve])
      fun s₈ h₈ => ?_
    refine (h₈.ensures_fillBlock hlower [] (by simp) (by simp [Plan.reserve])
      (by simp)).mono ?_
    rintro _ s₉ ⟨avail₉, h₉⟩
    exact ⟨avail₉, [], h₉⟩
  · rintro _ s₄ ⟨avail₄, free, reserved, h₄, hexit⟩
    exact h₄.ensures_exit hexit

theorem ensures_lowerDo (hlower : Lowers unit lower) (h : s.Sound avail)
    (body : StmtId) (cond : ExprId) : (lowerDo unit lower body cond).Ensures s fun _ s' =>
      ∃ avail', Advances avail avail' s s' := by
  refine h.stage.ensures_newBlock fun bodyBlock s₁ h₁ _ _ => ?_
  refine h₁.ensures_newBlock fun condBlock s₂ h₂ hne₂ _ => ?_
  refine h₂.ensures_newBlock fun exitBlock s₃ h₃ _ _ => ?_
  have hne : bodyBlock ≠ condBlock := hne₂ bodyBlock (by simp [Plan.reserve])
  refine (h₃.ensures_withLoop (by simp [Plan.reserve]) (by simp [Plan.reserve]) ?_).bind ?_
  · intro s₄ h₄ _
    refine (h₄.ensures_ensureJump (by simp [Plan.reserve])).bind fun _ s₅ h₅ => ?_
    refine (h₅.ensures_fillBlock hlower [condBlock] (by simp [Plan.reserve])
      (by simp [Plan.reserve]) (by simp [Plan.reserve, hne.symm])).bind ?_
    rintro _ s₆ ⟨avail₆, h₆⟩
    refine h₆.ensures_enter [] (by simp) (by simp) fun s₇ h₇ hopen₇ => ?_
    refine h₇.ensures_lowerExpr hopen₇ fun value s₈ avail₈ h₈ hopen₈ hvalue => ?_
    have h₉ := h₈.advance (h₈.sound.leave_branch hopen₈ hvalue
      (h₈.free_of_mem (t := bodyBlock) (by simp [Plan.reserve]))
      (h₈.free_of_mem (t := exitBlock) (by simp [Plan.reserve])) s₈.line)
    exact ensures_of_eq (emit_apply h₈.sound.current hopen₈ _) ⟨avail₈, [], h₉⟩
  · rintro _ s₄ ⟨avail₄, free, reserved, h₄, hexit⟩
    exact h₄.ensures_exit hexit

/-- A part of a statement that may be missing. -/
theorem Lowering.Stage.ensures_forM {initial avail : Avail} {start s : Lowering} {plan : Plan}
    (h : Stage initial start plan avail s) (hopen : s.IsOpen) (hlower : Lowers unit lower)
    (part : Option StmtId) : (part.forM lower).Ensures s fun _ s' =>
      ∃ avail', Stage initial start plan avail' s' := by
  cases part with
  | none => exact ensures_pure ⟨avail, h⟩
  | some id => exact h.ensures_lower hlower hopen id

/-- The condition of a loop, without which the loop goes on. -/
theorem Lowering.Stage.ensures_lowerTest {β : Type} {initial avail : Avail} {start s : Lowering}
    {plan : Plan} (h : Stage initial start plan avail s) (hopen : s.IsOpen) (cond : Option ExprId)
    {t u : BlockId} (ht : t ∈ plan.free) (hu : u ∈ plan.free) {next : Unit → LowerM β}
    {Q : β → Lowering → Prop}
    (hnext : ∀ s' avail', Stage initial start plan avail' s' → (next ()).Ensures s' Q) :
    (lowerTest unit cond t u >>= next).Ensures s Q := by
  cases cond with
  | none =>
    exact ensures_bind_of_eq (emit_apply h.sound.current hopen _)
      (hnext _ avail (h.advance (h.sound.leave_jump hopen (h.free_of_mem ht) s.line)))
  | some cond =>
    rw [lowerTest, bind_assoc]
    refine h.ensures_lowerExpr hopen fun value s₁ avail₁ h₁ hopen₁ hvalue => ?_
    exact h₁.ensures_branch hopen₁ hvalue ht hu fun s₂ h₂ => hnext s₂ avail₁ h₂

/-- The step of a loop, which may be missing. -/
theorem Lowering.Stage.ensures_forStep {initial avail : Avail} {start s : Lowering} {plan : Plan}
    (h : Stage initial start plan avail s) (hopen : s.IsOpen) (incr : Option ExprId) :
    (incr.forM fun step => discard (unit.lowerExpr step)).Ensures s fun _ s' =>
      ∃ avail', Stage initial start plan avail' s' := by
  cases incr with
  | none => exact ensures_pure ⟨avail, h⟩
  | some step =>
    exact h.ensures_lowerExpr hopen fun _ s₁ avail₁ h₁ _ _ => ensures_pure ⟨avail₁, h₁⟩

theorem ensures_lowerFor (hlower : Lowers unit lower) (h : s.Sound avail) (hopen : s.IsOpen)
    (init : Option StmtId) (cond incr : Option ExprId) (body : Option StmtId) :
    (lowerFor unit lower init cond incr body).Ensures s fun _ s' =>
      ∃ avail', Advances avail avail' s s' := by
  rw [lowerFor_eq]
  refine h.stage.ensures_newBlock fun condBlock s₁ h₁ _ hopen₁ => ?_
  refine h₁.ensures_newBlock fun bodyBlock s₂ h₂ hne₂ hopen₂ => ?_
  refine h₂.ensures_newBlock fun incrBlock s₃ h₃ hne₃ hopen₃ => ?_
  refine h₃.ensures_newBlock fun exitBlock s₄ h₄ _ hopen₄ => ?_
  have hne : condBlock ≠ bodyBlock := hne₂ condBlock (by simp [Plan.reserve])
  have hne' : condBlock ≠ incrBlock := hne₃ condBlock (by simp [Plan.reserve])
  have hne'' : bodyBlock ≠ incrBlock := hne₃ bodyBlock (by simp [Plan.reserve])
  refine (h₄.ensures_withLoop (by simp [Plan.reserve]) (by simp [Plan.reserve]) ?_).bind ?_
  · intro s₅ h₅ hopen₅
    refine (h₅.ensures_forM (hopen₅ (hopen₄ (hopen₃ (hopen₂ (hopen₁ hopen))))) hlower init).bind ?_
    rintro _ s₆ ⟨avail₆, h₆⟩
    refine (h₆.ensures_ensureJump (by simp [Plan.reserve])).bind fun _ s₇ h₇ => ?_
    refine h₇.ensures_enter [bodyBlock, incrBlock] (by simp [Plan.reserve])
      (by simp [Plan.reserve, hne.symm, hne'.symm]) fun s₈ h₈ hopen₈ => ?_
    refine h₈.ensures_lowerTest hopen₈ cond (by simp [Plan.reserve]) (by simp [Plan.reserve])
      fun s₉ avail₉ h₉ => ?_
    refine h₉.ensures_enter [incrBlock] (by simp) (by simp [hne''.symm])
      fun s₁₀ h₁₀ hopen₁₀ => ?_
    refine (h₁₀.ensures_forM hopen₁₀ hlower body).bind ?_
    rintro _ s₁₁ ⟨avail₁₁, h₁₁⟩
    refine (h₁₁.ensures_ensureJump (by simp [Plan.reserve])).bind fun _ s₁₂ h₁₂ => ?_
    refine h₁₂.ensures_enter [] (by simp) (by simp) fun s₁₃ h₁₃ hopen₁₃ => ?_
    refine (h₁₃.ensures_forStep hopen₁₃ incr).bind ?_
    rintro _ s₁₄ ⟨avail₁₄, h₁₄⟩
    exact (h₁₄.ensures_ensureJump (by simp [Plan.reserve])).mono fun _ s₁₅ h₁₅ => ⟨avail₁₄, [], h₁₅⟩
  · rintro _ s₅ ⟨avail₅, free, reserved, h₅, hexit⟩
    exact h₅.ensures_exit hexit

-- ════════════════════════════════════════════════════════════════════════
-- Switches
-- ════════════════════════════════════════════════════════════════════════

/-- The entries of a switch lead to blocks of the switch. -/
def EntriesIn (entries : List (Option SwitchEntry)) (free : List BlockId) : Prop :=
  ∀ entry, some entry ∈ entries → entry.block ∈ free

namespace Lowering.Stage

variable {initial : Avail} {start : Lowering} {plan : Plan}

theorem ensures_createEntry (h : Stage initial start plan avail s) (hopen : s.IsOpen) (id : StmtId) :
    (createEntry unit id).Ensures s fun entry s' => ∃ free reserved,
      Stage initial start ⟨plan.breaks, plan.continues, free, reserved⟩ avail s' ∧
        Reaches avail avail s s' ∧ (∀ t ∈ plan.free, t ∈ free) ∧
        ∀ e, entry = some e → e.block ∈ free := by
  have hblock : ∀ value label, (newBlock label >>= fun block => pure (some ⟨value, block⟩) :
      LowerM (Option SwitchEntry)).Ensures s fun entry s' => ∃ free reserved,
        Stage initial start ⟨plan.breaks, plan.continues, free, reserved⟩ avail s' ∧
          Reaches avail avail s s' ∧ (∀ t ∈ plan.free, t ∈ free) ∧
          ∀ e, entry = some e → e.block ∈ free := by
    intro value label
    refine ensures_bind_of_eq (newBlock_apply label s) (ensures_pure ?_)
    refine ⟨_, _, h.reserve label, h.sound.reaches_grown hopen label,
      fun u hu => List.mem_cons_of_mem _ hu, ?_⟩
    rintro e ⟨⟩
    exact List.mem_cons_self
  refine (ensures_stmt (Q := fun _ s' => s' = s) fun _ _ => rfl).bind ?_
  rintro node _ rfl
  split
  · exact hblock _ _
  · exact hblock _ _
  · exact ensures_pure ⟨plan.free, plan.reserved, h,
      ⟨h.sound, hopen, .refl _ _ avail _, fun _ hr => hr⟩, fun _ hu => hu, by simp⟩

theorem ensures_createEntries (h : Stage initial start plan avail s) (hopen : s.IsOpen)
    (stmts : List StmtId) : (stmts.mapM (createEntry unit)).Ensures s fun entries s' =>
      ∃ free reserved, Stage initial start ⟨plan.breaks, plan.continues, free, reserved⟩ avail s' ∧
        Reaches avail avail s s' ∧ (∀ t ∈ plan.free, t ∈ free) ∧ EntriesIn entries free := by
  induction stmts generalizing s plan with
  | nil =>
    exact ensures_pure ⟨plan.free, plan.reserved, h,
      ⟨h.sound, hopen, .refl _ _ avail _, fun _ hr => hr⟩, fun _ hu => hu, by simp [EntriesIn]⟩
  | cons id stmts ih =>
    rw [List.mapM_cons]
    refine (h.ensures_createEntry hopen id).bind ?_
    rintro entry s₁ ⟨free₁, reserved₁, h₁, hreach₁, hsub₁, hentry⟩
    refine (ih h₁ hreach₁.isOpen).bind ?_
    rintro entries s₂ ⟨free₂, reserved₂, h₂, hreach₂, hsub₂, hentries⟩
    refine ensures_pure ⟨free₂, reserved₂, h₂, hreach₁.trans hreach₂,
      fun t ht => hsub₂ t (hsub₁ t ht), ?_⟩
    intro e he
    rcases List.mem_cons.mp he with he | he
    · exact hsub₂ _ (hentry e he.symm)
    · exact hentries e he

theorem ensures_lowerSwitchPart (hlower : Lowers unit lower) (h : Stage initial start plan avail s)
    (id : StmtId) (entry : Option SwitchEntry) (hentry : ∀ e, entry = some e → e.block ∈ plan.free) :
    (lowerSwitchPart unit lower id entry).Ensures s fun _ s' => ∃ avail',
      Stage initial start { plan with reserved := [] } avail' s' := by
  cases entry with
  | some e =>
    refine (h.ensures_ensureJump (hentry e rfl)).bind fun _ s₁ h₁ => ?_
    exact (h₁.ensures_switchTo (hentry e rfl)).mono fun _ s₂ h₂ => ⟨avail, h₂⟩
  | none =>
    refine (ensures_openDeadBlock h.sound id).bind fun _ s₁ ⟨hadv₁, hopen₁⟩ => ?_
    refine (hlower id avail s₁ hadv₁.sound hopen₁).mono ?_
    rintro _ s₂ ⟨avail₂, hadv₂⟩
    obtain ⟨h₁, h₂, h₃, h₄, h₅, h₆, _⟩ := (h.advance hadv₁).advance hadv₂
    exact ⟨avail₂, h₁, h₂, h₃, h₄, h₅, h₆, by simp⟩

end Lowering.Stage

/-- The label of a case is no label that starts otherwise. -/
theorem case_ne (value : Int) {label : String} (h : label.toList.head? ≠ some 'c') :
    "case_" ++ toString value ≠ label := by
  rintro rfl
  rw [String.toList_append] at h
  exact h rfl

/-- The targets of a switch are blocks of the switch. -/
theorem mem_targets_switch {value : Operand} {entries : List (Option SwitchEntry)} {exit : BlockId}
    {free : List BlockId} {line : Nat} (hentries : EntriesIn entries free) (hexit : exit ∈ free)
    {t : BlockId} (ht : t ∈ (Instr.switch value (switchCases entries)
      ((switchDefault? entries).getD exit) line).targets) : t ∈ free := by
  simp only [Instr.targets, Instr.switch, Instr.cases, Instr.fallback?, List.mem_append,
    List.mem_map, Option.mem_toList, Option.some.injEq] at ht
  rcases ht with ⟨c, hc, rfl⟩ | rfl
  · simp only [switchCases, List.mem_filterMap, Option.map_eq_some_iff] at hc
    obtain ⟨entry, ⟨_, hentry, rfl⟩, _, _, rfl⟩ := hc
    exact hentries entry hentry
  · cases hdefault : switchDefault? entries with
    | none => exact hexit
    | some block =>
      have hmem := List.mem_of_getLast? hdefault
      simp only [List.mem_map, List.mem_filter, List.mem_filterMap] at hmem
      obtain ⟨entry, ⟨⟨_, hentry, rfl⟩, _⟩, rfl⟩ := hmem
      exact hentries entry hentry

theorem ensures_switchBody (body : StmtId) :
    (liftM (switchBody unit body) : LowerM (List StmtId)).Ensures s fun _ s' => s' = s := by
  refine ensures_lift (fun _ _ => rfl) fun fault hfault => ?_
  unfold switchBody SourceUnit.stmt at hfault
  cases hget : unit.stmts[body]? with
  | none => rw [hget] at hfault; cases hfault; trivial
  | some node =>
    rw [hget, require_some, ok_bind] at hfault
    cases hkind : node.kind <;> rw [hkind] at hfault <;> cases hfault

theorem ensures_lowerSwitch (hlower : Lowers unit lower) (h : s.Sound avail) (hopen : s.IsOpen)
    (cond : ExprId) (body : StmtId) : (lowerSwitch unit lower cond body).Ensures s fun _ s' =>
      ∃ avail', Advances avail avail' s s' := by
  refine h.stage.ensures_newBlock fun exitBlock s₁ h₁ _ hopen₁ => ?_
  refine (h₁.ensures_withBreak (by simp [Plan.reserve]) ?_).bind ?_
  · intro s₂ h₂ hopen₂
    refine h₂.ensures_lowerExpr (hopen₂ (hopen₁ hopen)) fun value s₃ avail₃ h₃ hopen₃ hvalue => ?_
    refine (ensures_switchBody body).bind ?_
    rintro stmts _ rfl
    refine (h₃.ensures_createEntries hopen₃ stmts).bind ?_
    rintro entries s₄ ⟨free, reserved, h₄, hreach₄, hsub, hentries⟩
    have hexit : exitBlock ∈ free := hsub _ (by simp [Plan.reserve])
    refine ensures_bind_of_eq (emit_apply h₄.sound.current hreach₄.isOpen _) ?_
    have h₅ := h₄.advance (h₄.sound.leave hreach₄.isOpen (i := .switch value (switchCases entries)
      ((switchDefault? entries).getD exitBlock) s₄.line) rfl rfl ⟨rfl, rfl⟩ (hvalue.reaches hreach₄)
      rfl fun t ht => h₄.free_of_mem (mem_targets_switch hentries hexit ht))
    refine LowerM.Ensures.bind (ensures_forM (P := fun s' => ∃ avail' reserved', Stage avail s
      ⟨exitBlock :: s.breakTargets, s.continueTargets, free, reserved'⟩ avail' s') ?_ ⟨_, _, h₅⟩) ?_
    · rintro ⟨id, entry⟩ hpart s₆ ⟨avail₆, reserved₆, h₆⟩
      refine (h₆.ensures_lowerSwitchPart hlower id entry ?_).mono ?_
      · rintro e rfl
        exact hentries e (List.of_mem_zip hpart).2
      · rintro _ s₇ ⟨avail₇, h₇⟩
        exact ⟨avail₇, [], h₇⟩
    · rintro _ s₆ ⟨avail₆, reserved₆, h₆⟩
      exact (h₆.ensures_ensureJump hexit).mono fun _ s₇ h₇ => ⟨avail₆, free, reserved₆, h₇, hexit⟩
  · rintro _ s₂ ⟨avail₂, free, reserved, h₂, hexit⟩
    exact h₂.ensures_exit hexit

-- ════════════════════════════════════════════════════════════════════════
-- Statements
-- ════════════════════════════════════════════════════════════════════════

/-- One statement keeps the invariant, if its parts do. -/
theorem ensures_lowerStmtKind (hlower : Lowers unit lower) (h : s.Sound avail) (id : StmtId)
    (ty : Option TypeId) {kind : StmtKind Name} (hopen : s.IsOpen ∨ kind.opensBlock = true) :
    (lowerStmtKind unit lower id ty kind).Ensures s fun _ s' =>
      ∃ avail', Advances avail avail' s s' := by
  have hnone : (pure () : LowerM Unit).Ensures s fun _ s' => ∃ avail', Advances avail avail' s s' :=
    ensures_pure ⟨avail, .refl h⟩
  have hopen' : kind.opensBlock = false → s.IsOpen := fun hopens => hopen.resolve_right (by simp [hopens])
  have hscope : ∀ {t : BlockId}, t ∈ s.breakTargets ∨ t ∈ s.continueTargets → t ∈ s.scopes := by
    intro t ht
    simp only [Lowering.scopes, List.mem_append]
    exact .inl (.inl ht)
  cases kind with
  | label name => exact ensures_lowerLabel h id
  | caseLabel value => exact hnone
  | defaultLabel => exact hnone
  | block body => exact ensures_lowerList hlower h body
  | empty => exact hnone
  | whileLoop cond body => exact ensures_lowerWhile hlower h cond body
  | doLoop body cond => exact ensures_lowerDo hlower h body cond
  | declare name init => exact ensures_lowerDeclare h (hopen' rfl) name ty init
  | expr value =>
    exact (unit.computes_lowerExpr value).ensures_bind h (hopen' rfl) fun _ s₁ avail₁ hreach₁ _ =>
      ensures_pure ⟨avail₁, hreach₁.advances⟩
  | ret value => exact ensures_lowerReturn h (hopen' rfl) value
  | conditional cond thenBody elseBody =>
    exact ensures_lowerConditional hlower h (hopen' rfl) cond thenBody elseBody
  | forLoop init cond incr body =>
    exact ensures_lowerFor hlower h (hopen' rfl) init cond incr body
  | switch cond body => exact ensures_lowerSwitch hlower h (hopen' rfl) cond body
  | breakJump =>
    exact ensures_get_bind (ensures_jumpToInnermost h (hopen' rfl)
      fun t ht => hscope (.inl ht))
  | continueJump =>
    exact ensures_get_bind (ensures_jumpToInnermost h (hopen' rfl)
      fun t ht => hscope (.inr ht))
  | goto name => exact ensures_lowerGoto h (hopen' rfl) name
  | assertion cond =>
    cases cond with
    | none => exact hnone
    | some cond => exact ensures_lowerAssertion h (hopen' rfl) cond
  | error =>
    exact (ensures_nop h (hopen' rfl)).mono
      fun _ _ hreach => ⟨avail, hreach.advances⟩

namespace SourceUnit

theorem lowers_lowerStmtWithin (unit : SourceUnit) (depth : Nat) :
    Lowers unit (unit.lowerStmtWithin depth) := by
  induction depth with
  | zero => exact fun _ _ _ _ _ => trivial
  | succ depth ih =>
    intro id avail s hsound hopen
    refine (ensures_stmt (Q := fun node s' => unit.stmt id = .ok node ∧ s' = s)
      fun node hnode => ⟨hnode, rfl⟩).bind ?_
    rintro node s ⟨hnode, rfl⟩
    have halike : Alike s { s with line := node.line } := ⟨rfl, rfl, ⟨rfl, rfl, rfl, rfl⟩⟩
    refine ensures_withLine ((ensures_lowerStmtKind ih (halike.sound hsound) id node.ty
      (hopen.imp_right fun hopens => hopens node hnode)).mono ?_)
    rintro _ s' ⟨avail', hadv⟩
    exact ⟨avail', halike.advances hadv ⟨rfl, rfl, ⟨rfl, rfl, rfl, rfl⟩⟩⟩

/-- Lowering a statement keeps the invariant. -/
theorem lowers_lowerStmt (unit : SourceUnit) : Lowers unit unit.lowerStmt :=
  unit.lowers_lowerStmtWithin _

-- ════════════════════════════════════════════════════════════════════════
-- Labels
-- ════════════════════════════════════════════════════════════════════════

theorem ensures_name (unit : SourceUnit) (name : Name) (s : Lowering) :
    (liftM (unit.names.name name) : LowerM String).Ensures s fun _ s' => s' = s := by
  refine ensures_lift (fun _ _ => rfl) fun fault hfault => ?_
  unfold Interner.name at hfault
  cases hget : unit.names.get? name with
  | none => rw [hget] at hfault; cases hfault; trivial
  | some text => rw [hget] at hfault; cases hfault

theorem ensures_createLabel (unit : SourceUnit) (h : s.Sound avail) (hopen : s.IsOpen) (id : StmtId)
    (name : Name) : (createLabel unit id name).Ensures s fun _ s' => s'.Sound avail ∧ s'.IsOpen := by
  refine (unit.ensures_name name s).bind ?_
  rintro label s rfl
  have hreach := h.reaches_grown hopen label
  have hfree : (s.grown label).Free avail s.fn.blockCount :=
    (h.stage.reserve label).free_of_mem List.mem_cons_self
  refine ensures_bind_of_eq (newBlock_apply label _) (ensures_of_eq rfl ⟨?_, hreach.isOpen⟩)
  refine hreach.sound.rescope rfl rfl fun t ht => ?_
  have hold := hreach.sound.scopes t
  simp only [Lowering.scopes, List.map_cons, List.map_append, List.mem_append, List.mem_cons,
    List.map_nil, List.not_mem_nil, or_false] at ht hold
  rcases ht with (ht | ht | rfl) | rfl | ht
  · exact hold (.inl (.inl ht))
  · exact hold (.inl (.inr ht))
  · exact hfree
  · exact hfree
  · exact hold (.inr ht)

/-- Making the blocks of labels appends no instruction. -/
theorem ensures_createLabelsWithin (unit : SourceUnit) (depth : Nat) (h : s.Sound avail)
    (hopen : s.IsOpen) (id : StmtId) :
    (unit.createLabelsWithin depth id).Ensures s fun _ s' => s'.Sound avail ∧ s'.IsOpen := by
  induction depth generalizing s id with
  | zero => trivial
  | succ depth ih =>
    refine (ensures_stmt (Q := fun _ s' => s' = s) fun _ _ => rfl).bind ?_
    rintro node _ rfl
    split
    · exact unit.ensures_createLabel h hopen id _
    · exact ensures_forM (fun part _ s₁ ⟨h₁, hopen₁⟩ => ih h₁ hopen₁ part) ⟨h, hopen⟩

/-- Lowering the body of a function keeps the invariant. -/
theorem ensures_lowerBody (unit : SourceUnit) (h : s.Sound avail) (hopen : s.IsOpen)
    (body : StmtId) : (unit.lowerBody body).Ensures s fun _ s' => ∃ avail', s'.Sound avail' := by
  refine (unit.ensures_createLabelsWithin _ h hopen body).bind fun _ s₁ ⟨h₁, hopen₁⟩ => ?_
  refine (unit.lowers_lowerStmt body avail s₁ h₁ (.inl hopen₁)).mono ?_
  rintro _ s₂ ⟨avail₂, hadv⟩
  exact ⟨avail₂, hadv.sound⟩

end SourceUnit

end MiddleEnd
