import MiddleEnd.Proofs.Lowering.Control
import MiddleEnd.Proofs.Lowering.Moves
import MiddleEnd.Proofs.Lowering.Openness

/-!
# What lowering leaves alone

Whatever the state in which lowering starts, and wherever its labels and jumps lead: it only appends. Blocks
keep their numbers and labels, instructions their places, and variables and string literals their numbers.
Nothing follows a terminator, and what is written is the register of a variable or a new one. The jumps out
of statements lead to the same blocks as before, and the line is the same.

The primitive actions are like this, and so are actions one after the other. A construct pushes the blocks that
`break` and `continue` lead to inside it and pops them again; that these are the ones which it pushed is known
because what is inside it leaves the jumps alone, too. Which registers may be written is said by the function from
which lowering started; the registers of later variables are new for it.

## Main definitions

* `Function.MayWrite`: a register of a variable, or one that was not handed out.
* `Lowering.Appends`: what a state may become.
* `LowerM.Appends`: an action makes nothing else of a state.

## Main statements

* `LowerM.appends_withBreak`, `LowerM.appends_withContinue`: leaving a construct.
* `SourceUnit.appends`: all that lowering is put together from.
* `SourceUnit.lowering_appends`: lowering an expression and a statement.
-/

namespace MiddleEnd

open LowerM

-- ════════════════════════════════════════════════════════════════════════
-- Registers
-- ════════════════════════════════════════════════════════════════════════

namespace Function

variable {old f : Function}

/-- The function without blocks, variables and registers. -/
def frame (f : Function) : Function := { f with blocks := #[], vars := [], regCount := 0 }

/-- The register stands for a variable or was not handed out. -/
def MayWrite (f : Function) (r : Reg) : Prop := f.IsVarReg r ∨ f.regCount ≤ r

/-- An instruction may have the operand as its destination. -/
def Takes (f : Function) (operand : Operand) : Prop := ∀ r, operand.reg? = some r → f.MayWrite r

theorem takes_none (f : Function) : f.Takes .none := nofun

/-- `f` has handed out the registers that `old` has, and only new ones to new variables. -/
structure Precedes (old f : Function) : Prop where
  regs : old.regCount ≤ f.regCount
  vars : ∀ var ∈ f.vars, old.MayWrite var.reg

theorem Precedes.refl (f : Function) : f.Precedes f :=
  ⟨Nat.le_refl _, fun var hvar => .inl ⟨var, hvar, rfl⟩⟩

/-- The register of a variable that is looked up may be written. -/
theorem Precedes.takes_varLookup (h : old.Precedes f) (name : Name) (ty : Option TypeId) :
    old.Takes (.reg (f.varLookup name ty).1 ty) := by
  rintro r ⟨⟩
  obtain ⟨var, hvar, _, heq⟩ | ⟨_, heq⟩ := Lowering.varLookup_cases f name ty
  · rw [heq]
    exact h.vars var hvar
  · rw [heq]
    exact .inr h.regs

end Function

-- ════════════════════════════════════════════════════════════════════════
-- States
-- ════════════════════════════════════════════════════════════════════════

namespace Lowering

/-- What a state may become by appending, when the registers that may be written are those of `old`. -/
structure Appends (old : Function) (s s' : Lowering) : Prop where
  scopes : SameScopes s s'
  line : s'.line = s.line
  /-- Only blocks, variables and registers are added. -/
  frame : s'.fn.frame = s.fn.frame
  /-- A block keeps its number and everything but its instructions. -/
  block : ∀ (b : BlockId) (block : Block), s.fn.blocks[b]? = some block →
    s'.fn.blocks[b]? = some { block with instrs := s'.fn.code b }
  /-- Instructions are added at the end of blocks that are not closed. -/
  code : ∀ b, ∃ new, s'.fn.code b = s.fn.code b ++ new ∧ (s.fn.Closed b → new = []) ∧
    ∀ i ∈ new, ∀ r, i.def? = some r → old.MayWrite r
  vars : ∃ new, s'.fn.vars = s.fn.vars ++ new ∧ ∀ var ∈ new, old.regCount ≤ var.reg
  regs : s.fn.regCount ≤ s'.fn.regCount
  texts : s.texts.texts.toList <+: s'.texts.texts.toList

namespace Appends

variable {old : Function} {s s' s₁ s₂ s₃ : Lowering}

theorem precedes (h : s.Appends old s') (hs : old.Precedes s.fn) : old.Precedes s'.fn := by
  obtain ⟨new, hvars, hnew⟩ := h.vars
  refine ⟨Nat.le_trans hs.regs h.regs, fun var hvar => ?_⟩
  rw [hvars] at hvar
  obtain hvar | hvar := List.mem_append.mp hvar
  · exact hs.vars var hvar
  · exact .inr (hnew var hvar)

/-- A block that was closed is the same as before. -/
theorem block_of_closed (h : s.Appends old s') {b : BlockId} {block : Block}
    (hb : s.fn.blocks[b]? = some block) (hclosed : block.isTerminated = true) :
    s'.fn.blocks[b]? = some block := by
  obtain ⟨new, hcode, hnew, _⟩ := h.code b
  rw [h.block b block hb, hcode, hnew ((Function.isTerminated_iff hb).mp hclosed), List.append_nil,
    Function.code_of_getElem? hb]

/-- A change that leaves the blocks alone. -/
theorem of_blocks (hscopes : SameScopes s s') (hline : s'.line = s.line)
    (hframe : s'.fn.frame = s.fn.frame) (hblocks : s'.fn.blocks = s.fn.blocks)
    (hvars : ∃ new, s'.fn.vars = s.fn.vars ++ new ∧ ∀ var ∈ new, old.regCount ≤ var.reg)
    (hregs : s.fn.regCount ≤ s'.fn.regCount) (htexts : s.texts.texts.toList <+: s'.texts.texts.toList) :
    s.Appends old s' := by
  have hcode : s'.fn.code = s.fn.code := by
    funext b
    rw [Function.code, Function.code, hblocks]
  refine ⟨hscopes, hline, hframe, fun b block hb => ?_, fun b => ⟨[], ?_, fun _ => rfl, by simp⟩, hvars,
    hregs, htexts⟩
  · rw [hblocks, hcode, Function.code_of_getElem? hb, hb]
  · rw [hcode, List.append_nil]

/-- A change around the function. -/
theorem around (hfn : s'.fn = s.fn) (htexts : s'.texts = s.texts) (hscopes : SameScopes s s')
    (hline : s'.line = s.line) : s.Appends old s' :=
  of_blocks hscopes hline (by rw [hfn]) (by rw [hfn]) ⟨[], by simp [hfn], by simp⟩
    (Nat.le_of_eq (by rw [hfn])) (htexts ▸ List.prefix_rfl)

theorem refl (old : Function) (s : Lowering) : s.Appends old s := around rfl rfl (.refl s) rfl

theorem trans (h : s₁.Appends old s₂) (h' : s₂.Appends old s₃) : s₁.Appends old s₃ where
  scopes := h.scopes.trans h'.scopes
  line := h'.line.trans h.line
  frame := h'.frame.trans h.frame
  block b block hb := h'.block b { block with instrs := s₂.fn.code b } (h.block b block hb)
  code b := by
    obtain ⟨new, hcode, hclosed, hnew⟩ := h.code b
    obtain ⟨new', hcode', hclosed', hnew'⟩ := h'.code b
    refine ⟨new ++ new', by rw [hcode', hcode, List.append_assoc], fun hb => ?_, fun i hi => ?_⟩
    · have hnil := hclosed hb
      rw [hnil, List.append_nil] at hcode
      rw [hnil, hclosed' (by rwa [Function.Closed, hcode]), List.append_nil]
    · exact (List.mem_append.mp hi).elim (hnew i) (hnew' i)
  vars := exists_append_trans h.vars h'.vars
  regs := Nat.le_trans h.regs h'.regs
  texts := h.texts.trans h'.texts

theorem withReg : s.Appends old s.withReg :=
  of_blocks ⟨rfl, rfl, rfl, rfl⟩ rfl rfl rfl ⟨[], (List.append_nil _).symm, by simp⟩ (Nat.le_succ _)
    List.prefix_rfl

theorem withVar (hs : old.Precedes s.fn) (name : Name) (ty : Option TypeId) :
    s.Appends old (s.withVar name ty) := by
  obtain ⟨var, _, _, heq⟩ | ⟨_, heq⟩ := varLookup_cases s.fn name ty
  · rw [Lowering.withVar, heq]
    exact .refl old s
  · rw [Lowering.withVar, heq]
    refine of_blocks ⟨rfl, rfl, rfl, rfl⟩ rfl rfl rfl ⟨_, rfl, fun var hvar => ?_⟩ (Nat.le_succ _)
      List.prefix_rfl
    rw [List.mem_singleton.mp hvar]
    exact hs.regs

/-- A string literal that is new is entered behind the others. -/
theorem intern (text : String) : s.Appends old { s with texts := (s.texts.intern text).2 } := by
  refine of_blocks ⟨rfl, rfl, rfl, rfl⟩ rfl rfl rfl ⟨[], (List.append_nil _).symm, by simp⟩
    (Nat.le_refl _) ?_
  change s.texts.texts.toList <+: (s.texts.intern text).2.texts.toList
  rw [Interner.intern]
  cases s.texts.lookup text with
  | some id => exact List.prefix_rfl
  | none =>
    rw [Interner.texts_enter, Array.toList_push]
    exact List.prefix_append _ _

theorem grown (label : String) : s.Appends old (s.grown label) where
  scopes := ⟨rfl, rfl, rfl, rfl⟩
  line := rfl
  frame := rfl
  block b block hb := by
    have hlt : b < s.fn.blocks.size := (Array.getElem?_eq_some_iff.mp hb).1
    rw [show (s.grown label).fn.code b = _ from s.fn.code_grown label b, Function.code_of_getElem? hb]
    exact (Array.getElem?_push_lt hlt).trans (Array.getElem?_eq_getElem hlt ▸ hb)
  code b := by
    refine ⟨[], ?_, fun _ => rfl, by simp⟩
    rw [show (s.grown label).fn.code b = _ from s.fn.code_grown label b, List.append_nil]
  vars := ⟨[], (List.append_nil _).symm, by simp⟩
  regs := Nat.le_refl _
  texts := List.prefix_rfl

/-- Appending an instruction to the current block, which is open. -/
theorem pushed {i : Instr} (hs : s.Accepts) (hi : old.Takes i.dst) : s.Appends old (s.pushed i) where
  scopes := ⟨rfl, rfl, rfl, rfl⟩
  line := rfl
  frame := rfl
  block b block hb := by
    have hcode := Function.code_of_getElem? hb
    change (s.fn.blocks.modify s.current _)[b]? = some { block with instrs := (s.fn.pushed s.current i).code b }
    rw [Array.getElem?_modify, hb]
    by_cases hcurrent : s.current = b
    · subst hcurrent
      rw [if_pos rfl, s.fn.code_pushed_self s.current i hs.current, hcode]
      rfl
    · rw [if_neg hcurrent, s.fn.code_pushed_ne s.current i (Ne.symm hcurrent), hcode]
  code b := by
    by_cases hb : b = s.current
    · subst hb
      refine ⟨[i], s.fn.code_pushed_self s.current i hs.current, fun hclosed => absurd hclosed hs.isOpen, ?_⟩
      rintro j hj r hr
      obtain rfl := List.mem_singleton.mp hj
      exact hi r hr
    · exact ⟨[], (s.fn.code_pushed_ne s.current i hb).trans (List.append_nil _).symm, fun _ => rfl, by simp⟩
  vars := ⟨[], (List.append_nil _).symm, by simp⟩
  regs := Nat.le_refl _
  texts := List.prefix_rfl

end Appends

end Lowering

-- ════════════════════════════════════════════════════════════════════════
-- Actions
-- ════════════════════════════════════════════════════════════════════════

/-- Whenever it succeeds, the action appends to the state and does nothing else, and answers something with
the given property. -/
def LowerM.Appends {α : Type} (old : Function) (act : LowerM α) (R : α → Prop) : Prop :=
  ∀ s a s', old.Precedes s.fn → act s = .ok (a, s') → s.Appends old s' ∧ R a

namespace LowerM

variable {α β : Type} {old : Function} {unit : SourceUnit}

theorem Appends.bind {act : LowerM α} {next : α → LowerM β} {R : α → Prop} {S : β → Prop}
    (h : Appends old act R) (hnext : ∀ a, R a → Appends old (next a) S) : Appends old (act >>= next) S := by
  intro s b s' hs hok
  obtain ⟨a, s₁, hact, hrest⟩ := exists_of_bind hok
  obtain ⟨happends, ha⟩ := h s a s₁ hs hact
  obtain ⟨happends', hb⟩ := hnext a ha s₁ b s' (happends.precedes hs) hrest
  exact ⟨happends.trans happends', hb⟩

theorem appends_pure {a : α} {R : α → Prop} (h : R a) : Appends old (pure a) R := by
  rintro s _ _ _ ⟨⟩
  exact ⟨.refl old s, h⟩

theorem Appends.imp {act : LowerM α} {R S : α → Prop} (h : Appends old act R) (himp : ∀ a, R a → S a) :
    Appends old act S :=
  fun s a s' hs hok => (h s a s' hs hok).imp id (himp a)

theorem appends_lift (x : Except Fault α) : Appends old (liftM x) fun a => x = .ok a := by
  intro s a s' _ hok
  cases x with
  | error fault => cases hok
  | ok a =>
    cases hok
    exact ⟨.refl old s, rfl⟩

theorem appends_get : Appends old get fun _ => True := by
  rintro s _ _ _ ⟨⟩
  exact ⟨.refl old s, trivial⟩

-- ════════════════════════════════════════════════════════════════════════
-- Blocks and instructions
-- ════════════════════════════════════════════════════════════════════════

theorem appends_newBlock (label : String) : Appends old (newBlock label) fun _ => True := by
  rintro s _ _ _ ⟨⟩
  exact ⟨.grown label, trivial⟩

theorem appends_switchTo (b : BlockId) : Appends old (switchTo b) fun _ => True := by
  rintro s _ _ _ ⟨⟩
  exact ⟨.around rfl rfl ⟨rfl, rfl, rfl, rfl⟩ rfl, trivial⟩

theorem appends_emit {instr : Nat → Instr} (h : ∀ line, old.Takes (instr line).dst) :
    Appends old (emit instr) fun _ => True := by
  intro s _ s' _ hok
  rw [eq_pushed_of_emit hok]
  exact ⟨.pushed ⟨lt_of_emit hok, isOpen_of_emit hok⟩ (h s.line), trivial⟩

theorem appends_isTerminated : Appends old isTerminated fun _ => True :=
  appends_get.bind fun _ _ => (appends_lift _).bind fun _ _ => appends_pure trivial

-- ════════════════════════════════════════════════════════════════════════
-- Registers
-- ════════════════════════════════════════════════════════════════════════

theorem appends_newTemp (ty : Option TypeId) : Appends old (newTemp ty) old.Takes := by
  rintro s _ _ hs ⟨⟩
  refine ⟨.withReg, ?_⟩
  rintro r ⟨⟩
  exact .inr hs.regs

theorem appends_varOperand (name : Name) (ty : Option TypeId) :
    Appends old (varOperand name ty) old.Takes := by
  rintro s _ _ hs ⟨⟩
  exact ⟨.withVar hs name ty, hs.takes_varLookup name ty⟩

theorem appends_internText (text : String) : Appends old (internText text) fun _ => True := by
  rintro s _ _ _ ⟨⟩
  exact ⟨.intern text, trivial⟩

theorem appends_text (text : String) (ty : Option TypeId) :
    Appends old (internText text >>= fun id => emitUnary .const ty (.literal id)) old.Takes := by
  refine (appends_internText text).bind fun id _ => (appends_newTemp ty).bind fun dst hdst => ?_
  exact (appends_emit fun _ => hdst).bind fun _ _ => appends_pure hdst

-- ════════════════════════════════════════════════════════════════════════
-- Scopes
-- ════════════════════════════════════════════════════════════════════════

/-- The line is as it was afterwards, because it is written back. -/
theorem appends_withLine {act : LowerM α} {R : α → Prop} (line : Nat) (h : Appends old act R) :
    Appends old (withLine line act) R := by
  intro s a s' hs hok
  obtain ⟨t, hact, rfl⟩ := exists_of_withLine hok
  obtain ⟨happends, ha⟩ := h { s with line } a t hs hact
  exact ⟨{ happends with
    scopes := ⟨happends.scopes.breaks, happends.scopes.continues, happends.scopes.gotos, happends.scopes.labels⟩
    line := rfl }, ha⟩

/-- The target that is popped is the one that was pushed, because the action leaves the targets alone. -/
theorem appends_withBreak {act : LowerM α} {R : α → Prop} (exit : BlockId) (h : Appends old act R) :
    Appends old (withBreak exit act) R := by
  intro s a s' hs hok
  obtain ⟨t, hact, rfl⟩ := exists_of_between hok
  obtain ⟨happends, ha⟩ := h (s.pushBreak exit) a t hs hact
  exact ⟨{ happends with scopes := happends.scopes.popBreak }, ha⟩

theorem appends_withContinue {act : LowerM α} {R : α → Prop} (next : BlockId) (h : Appends old act R) :
    Appends old (withContinue next act) R := by
  intro s a s' hs hok
  obtain ⟨t, hact, rfl⟩ := exists_of_between hok
  obtain ⟨happends, ha⟩ := h (s.pushContinue next) a t hs hact
  exact ⟨{ happends with scopes := happends.scopes.popContinue }, ha⟩

end LowerM

-- ════════════════════════════════════════════════════════════════════════
-- Expressions and statements
-- ════════════════════════════════════════════════════════════════════════

/-- All that lowering is put together from only appends. It answers operands that may be written or are no
registers. -/
theorem SourceUnit.appends (unit : SourceUnit) (old : Function) :
    Compositional unit (.all unit) old.Takes fun act R => Appends old act R where
  pure := appends_pure
  bind := Appends.bind
  lift hok _ := (appends_lift _).imp hok
  holds_withLine := appends_withLine
  holds_newTemp := appends_newTemp
  holds_varOperand _ := appends_varOperand _
  holds_text := appends_text
  valid_none := old.takes_none
  valid_int _ := nofun
  valid_float _ := nofun
  valid_field _ := nofun
  valid_func _ := nofun
  get_bind _ h := appends_get.bind fun s _ => h s
  holds_withBreak := appends_withBreak
  holds_withContinue := appends_withContinue
  holds_newBlock := appends_newBlock
  holds_switchTo _ := appends_switchTo _
  holds_isTerminated := appends_isTerminated
  valid_label _ := nofun
  holds_emit h := appends_emit fun line => h line _ (Instr.mem_operands.mpr (.inl rfl))

/-- A statement that exists is lowered in every state that lowering comes to and that takes another
instruction. -/
theorem SourceUnit.WellFormed.completes_lowerStmt {unit : SourceUnit} (hunit : unit.WellFormed) {id : StmtId}
    (hid : id < unit.stmts.size) {avail : Lowering.Avail} {s : Lowering} (hsound : s.Sound avail)
    (hopen : s.IsOpen) : ∃ s', unit.lowerStmt id s = .ok ((), s') := by
  have hgrounded := hunit.grounded.holds_lowerStmtWithin _ ⟨Nat.lt_succ_of_lt hid, hid⟩
  obtain ⟨_, s', hok, _⟩ := (unit.lowers_lowerStmt id avail s hsound (.inl hopen)).completes hgrounded
  exact ⟨s', hok⟩

/-- Wherever an instruction can be appended, lowering an expression or a statement only appends. After an
expression an instruction can be appended again, to the same block or to a new one. In a well-formed unit it
comes to that, and statements are lowered in all states in which the invariant of lowering holds. -/
theorem SourceUnit.lowering_appends (unit : SourceUnit) {s : Lowering} (hs : s.Accepts) :
    (∀ id operand s', unit.lowerExpr id s = .ok (operand, s') → s.Appends s.fn s' ∧ s'.Accepts ∧
      (s'.current = s.current ∨ s.fn.blockCount ≤ s'.current)) ∧
    (∀ id s', unit.lowerStmt id s = .ok ((), s') → s.Appends s.fn s') ∧
    (unit.WellFormed → (∀ id < unit.exprs.size, Succeeds (unit.lowerExpr id s)) ∧
      ∀ avail, s.Sound avail → ∀ id < unit.stmts.size, Succeeds (unit.lowerStmt id s)) := by
  have hself : s.fn.Precedes s.fn := .refl s.fn
  refine ⟨fun id operand s' hok => ⟨?_, ?_, ?_⟩, fun id s' hok => ?_, fun hunit => ⟨fun id hid => ?_,
    fun avail hsound id hid => ?_⟩⟩
  · exact ((unit.appends s.fn).stmt.holds_lowerExpr trivial s operand s' hself hok).1
  · have hcarries := unit.carries_lowerExpr id s hs
    unfold Ensures at hcarries
    rw [hok] at hcarries
    exact hcarries.1
  · exact (unit.adds_lowerExpr s.fn.blockCount id s operand s' (Nat.le_refl _) hok).1.grows.current
  · exact ((unit.appends s.fn).holds_lowerStmtWithin _ trivial s () s' hself hok).1
  · obtain ⟨operand, s', hok, _⟩ := hunit.completes_lowerExpr hid hs
    exact ⟨(operand, s'), hok⟩
  · obtain ⟨s', hok⟩ := hunit.completes_lowerStmt hid hsound hs.isOpen
    exact ⟨((), s'), hok⟩

/-- A unit with the statement `while (a && b) { a = "t"; again: break; }`. -/
def innerLoopUnit : SourceUnit where
  names := { texts := #["a", "b", "again"] }
  exprs := #[
    { kind := .ident 0, ty := some TypeTable.int, line := 3 },
    { kind := .ident 1, ty := some TypeTable.int, line := 3 },
    { kind := .binary .logicalAnd 0 1, ty := some TypeTable.int, line := 3 },
    { kind := .ident 0, ty := some TypeTable.int, line := 4 },
    { kind := .text "t", ty := none, line := 4 },
    { kind := .assign 3 4, ty := none, line := 4 }]
  stmts := #[
    { kind := .expr 5, ty := none, line := 4 },
    { kind := .label 2, ty := none, line := 5 },
    { kind := .breakJump, ty := none, line := 5 },
    { kind := .block [0, 1, 2], ty := none, line := 3 },
    { kind := .whileLoop 2 3, ty := none, line := 3 }]

/-- A state inside another loop. The entry is closed, the body of the loop is open, and the block of the label
has been made. -/
def insideLoop : Lowering where
  fn := {
    name := 0
    line := 1
    blocks := #[
      { id := 0, label := "entry", instrs := [.jump 1 1] },
      { id := 1, label := "while_body", instrs := [.unary .copy (.reg 1 none) (.reg 0 none) 2] },
      { id := 2, label := "while_exit" },
      { id := 3, label := "again" }]
    vars := [{ name := 0, reg := 0, ty := some TypeTable.int }]
    regCount := 2 }
  texts := {}
  current := 1
  line := 2
  breakTargets := [2]
  continueTargets := [1]
  gotoTargets := [(2, 3)]
  labelBlocks := [(1, 3)]

/-- The condition goes on in a new block, and the loop makes blocks of its own. The entry is the same after
both. -/
theorem insideLoop_appends : insideLoop.Accepts ∧ innerLoopUnit.WellFormed ∧
    (∃ operand s', innerLoopUnit.lowerExpr 2 insideLoop = .ok (operand, s') ∧
      insideLoop.Appends insideLoop.fn s' ∧ s'.Accepts ∧ 4 ≤ s'.current) ∧
    ∃ s', innerLoopUnit.lowerStmt 4 insideLoop = .ok ((), s') ∧ insideLoop.Appends insideLoop.fn s' ∧
      s'.fn.blocks[0]? = insideLoop.fn.blocks[0]? ∧ s'.breakTargets = [2] := by
  have hs : insideLoop.Accepts := by
    refine ⟨by decide, ?_⟩
    rintro ⟨i, hi, hterm⟩
    cases hi
    cases hterm
  have hunit : innerLoopUnit.WellFormed := by
    have hexprs : ∀ id < 6, ∀ node ∈ innerLoopUnit.exprs[id]?, (∀ part ∈ node.kind.parts, part < id) ∧
        (∀ ty ∈ node.ty, ty < innerLoopUnit.types.size) ∧
        ∀ name ∈ node.kind.name?, name < innerLoopUnit.names.size := by decide +kernel
    have hstmts : ∀ id < 5, ∀ node ∈ innerLoopUnit.stmts[id]?, (∀ part ∈ node.kind.parts, part < id) ∧
        (∀ part ∈ node.kind.exprs, part < innerLoopUnit.exprs.size) ∧
        ∀ name ∈ node.kind.name?, name < innerLoopUnit.names.size := by decide +kernel
    exact ⟨by decide, fun id node hnode => hexprs id (Array.getElem?_eq_some_iff.mp hnode).1 node hnode,
      fun id node hnode => hstmts id (Array.getElem?_eq_some_iff.mp hnode).1 node hnode, nofun⟩
  obtain ⟨hexpr, hstmt, hsucceeds⟩ := innerLoopUnit.lowering_appends hs
  refine ⟨hs, hunit, ?_, ?_⟩
  · obtain ⟨⟨operand, s'⟩, hok⟩ := (hsucceeds hunit).1 2 (by decide)
    obtain ⟨happends, haccepts, hcurrent⟩ := hexpr 2 operand s' hok
    have hmoved : (innerLoopUnit.lowerExpr 2 insideLoop).toOption.map (·.2.current) = some 5 := by
      decide +kernel
    rw [hok] at hmoved
    have hnew : s'.current = 5 := Option.some.inj hmoved
    exact ⟨operand, s', hok, happends, haccepts, hcurrent.resolve_left (by rw [hnew]; decide)⟩
  · have hsome : (innerLoopUnit.lowerStmt 4 insideLoop).toOption.map (fun _ => ()) = some () := by
      decide +kernel
    obtain ⟨⟨_, s'⟩, hok, _⟩ := exists_of_toOption_map hsome
    have happends := hstmt 4 s' hok
    exact ⟨s', hok, happends, happends.block_of_closed rfl (by decide), happends.scopes.breaks⟩

end MiddleEnd
