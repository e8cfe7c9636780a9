import MiddleEnd.Proofs.Lowering.Additions
import Mathlib.Logic.Relation

/-!
# The moves of lowering

Lowering a function is a chain of small moves. A move says everything that lowering may do at once: which
operands an instruction may mention, and what becomes of the operands that were handed over and wait for
their call. What every move keeps, lowering keeps.

Blocks are left when they are closed. The operands that wait at the end of a block wait at the start of the
blocks that it leads to, so what waits at the start of a block is settled before anything leads there.

## Main definitions

* `Lowering.Separates`: the instruction keeps variables and computed values apart.
* `CallSite`: the call at a place is that of an expression, and its arguments stand before it.
* `Progress`, `Progress.Move`, `Progress.Run`: the moves, and chains of them.
* `LowerM.Moves`: an action is such a chain.

## Main statements

* `Progress.Run.extends`, `Progress.Run.apart`: what chains of moves keep.
* `LowerM.Moves.bind` and the lemmas next to it: the actions that lowering is put together from.
-/

namespace MiddleEnd

open LowerM Lowering

/-- An operation that neither leaves a block, nor joins values, nor has to do with calls. -/
def Opcode.IsPlain (op : Opcode) : Prop := op.IsStraight ∧ op ≠ .param ∧ op ≠ .call

instance (op : Opcode) : Decidable op.IsPlain := inferInstanceAs (Decidable (_ ∧ _))

theorem BinaryOp.isPlain_opcode (op : BinaryOp) : op.opcode.IsPlain := by
  cases op <;> decide

-- ════════════════════════════════════════════════════════════════════════
-- Variables and computed values
-- ════════════════════════════════════════════════════════════════════════

namespace Lowering

variable {s s' : Lowering} {i : Instr}

/-- The instruction keeps variables and computed values apart: only copies write variables, only copies
into new registers read them, and everything else is constant or computed. -/
structure Separates (s : Lowering) (i : Instr) : Prop where
  dst : s.Stable i.dst ∨ i.opcode = .copy
  src1 : s.Stable i.src1 ∨ i.opcode = .copy ∧ s.Stable i.dst ∧ i.dst.reg?.isSome
  src2 : s.Stable i.src2
  args : ∀ arg ∈ i.phiArgs, s.Stable arg.value

theorem Separates.extends {m : Nat} (h : s.Separates i) (hext : s.Extends m s') : s'.Separates i where
  dst := h.dst.imp (·.extends hext) id
  src1 := h.src1.imp (·.extends hext) (And.imp_right (And.imp_left (·.extends hext)))
  src2 := h.src2.extends hext
  args arg harg := (h.args arg harg).extends hext

/-- An instruction that mentions constants and computed values only. -/
theorem separates_of_stable (hdetail : i.phiArgs = []) (hdst : s.Stable i.dst) (hsrc1 : s.Stable i.src1)
    (hsrc2 : s.Stable i.src2) : s.Separates i :=
  ⟨.inl hdst, .inl hsrc1, hsrc2, by simp [hdetail]⟩

end Lowering

-- ════════════════════════════════════════════════════════════════════════
-- Calls
-- ════════════════════════════════════════════════════════════════════════

/-- The arguments of a call are lowered one by one to the given operands, and each is handed over. -/
inductive PassesArgs (lower : ExprId → LowerM Operand) :
    Lowering → List ExprId → List Operand → Lowering → Prop
  | nil (s : Lowering) : PassesArgs lower s [] [] s
  | cons {s t u : Lowering} {arg : ExprId} {args : List ExprId} {value : Operand} {values : List Operand} :
    lower arg s = .ok (value, t) → PassesArgs lower (t.pushed (.param value t.line)) args values u →
      PassesArgs lower s (arg :: args) (value :: values) u

/-- The call at a place of a function is that of an expression of the unit. Its arguments were lowered to
the given operands as a part of the function, and the call stands right behind them. -/
def CallSite (unit : SourceUnit) (f : Function) (b : BlockId) (k : Nat) (i : Instr)
    (values : List Operand) : Prop :=
  ∃ id node callee args depth s t, unit.expr id = .ok node ∧ node.kind = .call callee args ∧
    i.src1 = .func callee ∧ PassesArgs (unit.lowerExprWithin depth) s args values t ∧
    t.fn.PartOf f ∧ t.current = b ∧ (t.fn.code b).length = k

theorem CallSite.mono {unit : SourceUnit} {f g : Function} {b : BlockId} {k : Nat} {i : Instr}
    {values : List Operand} (h : CallSite unit f b k i values) (hpart : f.PartOf g) :
    CallSite unit g b k i values := by
  obtain ⟨id, node, callee, args, depth, s, t, hnode, hkind, hsrc, hpasses, hf, hplace⟩ := h
  exact ⟨id, node, callee, args, depth, s, t, hnode, hkind, hsrc, hpasses, hf.trans hpart, hplace⟩

-- ════════════════════════════════════════════════════════════════════════
-- Moves
-- ════════════════════════════════════════════════════════════════════════

/-- The operands that will wait at the start of blocks, for blocks that edges may lead to. -/
abbrev Starts := List (BlockId × List Operand)

/-- The state with a block for a label appended. -/
def Lowering.withLabel (s : Lowering) (label : String) (id : StmtId) (name : Name) : Lowering :=
  { s.grown label with
    labelBlocks := (id, s.fn.blockCount) :: s.labelBlocks
    gotoTargets := s.gotoTargets ++ [(name, s.fn.blockCount)] }

theorem Lowering.extends_withLabel {m : Nat} {s : Lowering} (label : String) (id : StmtId) (name : Name) :
    s.Extends m (s.withLabel label id name) :=
  (extends_grown label).trans (extends_of_fn rfl rfl (.inl rfl))

/-- How far lowering has come. -/
structure Progress where
  state : Lowering
  /-- The operands that wait at the end of the current block as long as it is open, or nothing if it is
  closed. -/
  stack : Option (List Operand)
  starts : Starts

namespace Progress

/-- What appending an instruction does to the operands that wait. -/
inductive Effect (unit : SourceUnit) (s : Lowering) (starts : Starts) (i : Instr) :
    List Operand → Option (List Operand) → Prop
  | plain {stack : List Operand} : i.isTerminator = false → i.opcode ≠ .param → i.opcode ≠ .call →
    Effect unit s starts i stack (some stack)
  | param {stack : List Operand} : i.opcode = .param →
    Effect unit s starts i stack (some (stack ++ [i.src1]))
  | call {rest values : List Operand} : i.opcode = .call → i.src2 = .int values.length →
    CallSite unit s.fn s.current (s.fn.code s.current).length i values →
    Effect unit s starts i (rest ++ values) (some rest)
  | leave {stack : List Operand} : i.isTerminator = true → (∀ t ∈ i.targets, (t, stack) ∈ starts) →
    (i.opcode = .ret → stack = []) → Effect unit s starts i stack none

/-- An instruction leads to blocks whose starts are settled. -/
theorem Effect.mem_starts {unit : SourceUnit} {s : Lowering} {starts : Starts} {i : Instr} {stack : List Operand}
    {stack' : Option (List Operand)} (h : Effect unit s starts i stack stack') {t : BlockId}
    (ht : t ∈ i.targets) : (t, stack) ∈ starts := by
  have hstraight : i.isTerminator = false → (t, stack) ∈ starts := by
    intro hterm
    rw [targets_of_not_isTerminator hterm] at ht
    cases ht
  cases h with
  | plain hplain _ _ => exact hstraight hplain
  | param hop => exact hstraight (by rw [Instr.isTerminator, hop]; rfl)
  | call hop _ _ => exact hstraight (by rw [Instr.isTerminator, hop]; rfl)
  | leave _ htargets _ => exact htargets t ht

/-- What lowering may do at once. A block for code after a terminator is the only one with its label that is
not the block of a label, and edges do not lead there. -/
inductive Move (unit : SourceUnit) : Progress → Progress → Prop
  /-- Everything but the blocks may change. -/
  | still {s s' : Lowering} {stack : Option (List Operand)} {starts : Starts} :
    s.Extends 0 s' → s'.fn.blocks = s.fn.blocks → s'.current = s.current → s'.labelled = s.labelled →
    Move unit ⟨s, stack, starts⟩ ⟨s', stack, starts⟩
  /-- A block is made, and what will wait at its start is settled. -/
  | grown {s : Lowering} {stack : Option (List Operand)} {starts : Starts} (label : String)
    (waiting : List Operand) : label ≠ "dead" →
    Move unit ⟨s, stack, starts⟩ ⟨s.grown label, stack, (s.fn.blockCount, waiting) :: starts⟩
  /-- The block of a label is made, at whose start nothing will wait. -/
  | labelled {s : Lowering} {stack : Option (List Operand)} {starts : Starts} (label : String) (id : StmtId)
    (name : Name) :
    Move unit ⟨s, stack, starts⟩ ⟨s.withLabel label id name, stack, (s.fn.blockCount, []) :: starts⟩
  /-- A closed block is left for a new one that nothing leads to. -/
  | opened {s : Lowering} {starts : Starts} :
    Move unit ⟨s, none, starts⟩ ⟨{ s.grown "dead" with current := s.fn.blockCount }, some [], starts⟩
  /-- An instruction is appended to the current block. -/
  | pushed {s : Lowering} {stack : List Operand} {stack' : Option (List Operand)}
    {starts : Starts} {i : Instr} : s.current < s.fn.blockCount → s.IsOpen →
    (i.isPhi = true → s.fn.label? s.current = some "logic_merge") → s.Separates i →
    Effect unit s starts i stack stack' → Move unit ⟨s, some stack, starts⟩ ⟨s.pushed i, stack', starts⟩
  /-- A closed block is left for another one. -/
  | enter {s : Lowering} {b : BlockId} {stack : List Operand} {starts : Starts} :
    (b, stack) ∈ starts → Move unit ⟨s, none, starts⟩ ⟨{ s with current := b }, some stack, starts⟩
  /-- The current block was found to be closed. -/
  | closed {s : Lowering} {stack : List Operand} {starts : Starts} :
    s.fn.Closed s.current → Move unit ⟨s, some stack, starts⟩ ⟨s, none, starts⟩
  /-- Anything may be said of the end of a closed block. -/
  | idle {s : Lowering} (stack : List Operand) {starts : Starts} :
    Move unit ⟨s, none, starts⟩ ⟨s, some stack, starts⟩
  /-- What waits at the start of a block need not be known any more if nothing waits or control has come
  there. -/
  | forget {s : Lowering} {stack : Option (List Operand)} {starts starts' : Starts} :
    starts' ⊆ starts → (∀ x ∈ starts, x ∈ starts' ∨ x.1 = s.current ∨ x.2 = []) →
    Move unit ⟨s, stack, starts⟩ ⟨s, stack, starts'⟩

/-- A chain of moves. -/
abbrev Run (unit : SourceUnit) : Progress → Progress → Prop := Relation.ReflTransGen (Move unit)

variable {unit : SourceUnit} {p q : Progress}

/-- A move extends the function. -/
theorem Move.extends (h : Move unit p q) : p.state.Extends 0 q.state := by
  cases h with
  | still hext _ _ _ => exact hext
  | grown label _ _ => exact extends_grown label
  | labelled label id name => exact extends_withLabel label id name
  | opened => exact (extends_grown "dead").trans (extends_switch (Nat.zero_le _))
  | pushed _ _ hphi _ _ => exact extends_pushed hphi
  | enter _ => exact extends_switch (Nat.zero_le _)
  | closed | idle | forget => exact .refl 0 _

theorem Run.extends (h : Run unit p q) : p.state.Extends 0 q.state := by
  induction h with
  | refl => exact .refl 0 _
  | tail _ hmove ih => exact ih.trans hmove.extends

/-- A closed block is left for another one, whose start need not be known any more. -/
theorem run_enter {s : Lowering} {b : BlockId} {stack : List Operand}
    {starts starts' : Starts} (hb : (b, stack) ∈ starts) (hsub : starts' ⊆ starts)
    (hrest : ∀ x ∈ starts, x = (b, stack) ∨ x ∈ starts') :
    Run unit ⟨s, none, starts⟩ ⟨{ s with current := b }, some stack, starts'⟩ := by
  refine .tail (.single (.enter hb)) (.forget hsub fun x hx => ?_)
  obtain rfl | hx := hrest x hx
  · exact .inr (.inl rfl)
  · exact .inl hx

/-- The instructions of the function keep variables and computed values apart. -/
def Apart (p : Progress) : Prop := ∀ b, ∀ i ∈ p.state.fn.code b, p.state.Separates i

/-- A move appends no other instruction. -/
theorem Move.apart (h : Move unit p q) (hp : p.Apart) : q.Apart := by
  have hext := h.extends
  intro b i hi
  cases h with
  | still _ hblocks _ _ =>
    rw [Function.code, hblocks] at hi
    exact (hp b i hi).extends hext
  | @grown s _ _ label _ _ | @labelled s _ _ label _ _ =>
    have hi : i ∈ (s.fn.grown label).code b := hi
    rw [Function.code_grown] at hi
    exact (hp b i hi).extends hext
  | @opened s _ =>
    have hi : i ∈ (s.fn.grown "dead").code b := hi
    rw [Function.code_grown] at hi
    exact (hp b i hi).extends hext
  | @pushed s _ _ _ j _ _ _ hsep _ =>
    obtain hi | ⟨_, rfl⟩ := s.fn.mem_code_pushed s.current j hi
    · exact (hp b i hi).extends hext
    · exact hsep.extends hext
  | enter | closed | idle | forget => exact (hp b i hi).extends hext

theorem Run.apart (h : Run unit p q) (hp : p.Apart) : q.Apart := by
  induction h with
  | refl => exact hp
  | tail _ hmove ih => exact hmove.apart ih

end Progress

-- ════════════════════════════════════════════════════════════════════════
-- Actions
-- ════════════════════════════════════════════════════════════════════════

namespace Lowering

variable {unit : SourceUnit} {starts : Starts} {given : List Operand}
  {stack stack' stack₁ : Option (List Operand)} {s s' s₁ : Lowering}

/-- The registers of the variables were handed out, jumps out of statements lead to blocks at whose start
nothing waits, and the given operands hold computed values. -/
structure Ready (starts : Starts) (given : List Operand) (s : Lowering) : Prop where
  vars : ∀ var ∈ s.fn.vars, var.reg < s.fn.regCount
  scopes : ∀ t ∈ s.scopes, (t, []) ∈ starts
  given : ∀ operand ∈ given, s.Stable operand

/-- A chain of moves inside the same constructs, after which the same starts of blocks are settled. -/
structure Moved (unit : SourceUnit) (starts : Starts)
    (stack stack' : Option (List Operand)) (s s' : Lowering) : Prop where
  scopes : SameScopes s s'
  run : Progress.Run unit ⟨s, stack, starts⟩ ⟨s', stack', starts⟩

namespace Moved

theorem refl : s.Moved unit starts stack stack s := ⟨.refl s, .refl⟩

theorem trans (h : s.Moved unit starts stack stack₁ s₁) (h' : s₁.Moved unit starts stack₁ stack' s') :
    s.Moved unit starts stack stack' s' := ⟨h.scopes.trans h'.scopes, h.run.trans h'.run⟩

theorem grows (h : s.Moved unit starts stack stack' s') : s.Extends 0 s' := h.run.extends

/-- A move that leaves the blocks alone. -/
theorem still (hext : s.Extends 0 s') (hblocks : s'.fn.blocks = s.fn.blocks)
    (hcurrent : s'.current = s.current) (hscopes : SameScopes s s') : s.Moved unit starts stack stack s' :=
  ⟨hscopes, .single (.still hext hblocks hcurrent (by rw [labelled, hscopes.labels]; rfl))⟩

theorem withReg : s.Moved unit starts stack stack s.withReg :=
  still extends_withReg rfl rfl ⟨rfl, rfl, rfl, rfl⟩

theorem withVar (name : Name) (ty : Option TypeId) : s.Moved unit starts stack stack (s.withVar name ty) :=
  still (extends_withVar name ty) (s.blocks_withVar name ty) rfl ⟨rfl, rfl, rfl, rfl⟩

end Moved

theorem Ready.extends (h : s.Ready starts given) (hext : s.Extends 0 s')
    (hscopes : ∀ t ∈ s'.scopes, (t, []) ∈ starts) : s'.Ready starts given := by
  exact ⟨hext.vars_lt h.vars, hscopes, fun operand ho => (h.given operand ho).extends hext⟩

theorem Ready.moved (h : s.Ready starts given) (hmoved : s.Moved unit starts stack stack' s') :
    s'.Ready starts given := by
  refine h.extends hmoved.grows ?_
  rw [hmoved.scopes.scopes_eq]
  exact h.scopes

theorem Ready.mono {starts' : Starts} (h : s.Ready starts given)
    (hsub : starts ⊆ starts') : s.Ready starts' given :=
  ⟨h.vars, fun t ht => hsub (h.scopes t ht), h.given⟩

theorem Ready.append {more : List Operand} (h : s.Ready starts given)
    (hmore : ∀ operand ∈ more, s.Stable operand) : s.Ready starts (more ++ given) :=
  ⟨h.vars, h.scopes, fun operand ho => (List.mem_append.mp ho).elim (hmore operand) (h.given operand)⟩

/-- A new register belongs to no variable. -/
theorem Ready.stable_withReg (h : s.Ready starts given) (ty : Option TypeId) :
    s.withReg.Stable (.reg s.fn.regCount ty) := by
  rintro r ⟨⟩
  exact ⟨Nat.lt_succ_self _, Function.not_isVarReg_regCount h.vars⟩

/-- The end of the current block may be moved on by an instruction. -/
theorem Moved.pushed {stack : List Operand} {i : Instr} (hlt : s.current < s.fn.blockCount)
    (hopen : s.IsOpen) (hphi : i.isPhi = true → s.fn.label? s.current = some "logic_merge")
    (hsep : s.Separates i) (heffect : Progress.Effect unit s starts i stack stack') :
    s.Moved unit starts (some stack) stack' (s.pushed i) :=
  ⟨⟨rfl, rfl, rfl, rfl⟩, .single (.pushed hlt hopen hphi hsep heffect)⟩

end Lowering

namespace LowerM

variable {α β : Type} {unit : SourceUnit} {starts : Starts} {given : List Operand}
  {stack stack' stack₁ : Option (List Operand)}

/-- The action is a chain of moves, and computes the operands that `R` picks from what it answers. -/
def Moves (unit : SourceUnit) (starts : Starts) (given : List Operand)
    (stack stack' : Option (List Operand)) (act : LowerM α) (R : α → List Operand) : Prop :=
  ∀ s a s', s.Ready starts given → act s = .ok (a, s') →
    s.Moved unit starts stack stack' s' ∧ ∀ operand ∈ R a, s'.Stable operand

theorem Moves.bind {act : LowerM α} {next : α → LowerM β} {R : α → List Operand} {S : β → List Operand}
    (h : Moves unit starts given stack stack₁ act R)
    (hnext : ∀ a, Moves unit starts (R a ++ given) stack₁ stack' (next a) S) :
    Moves unit starts given stack stack' (act >>= next) S := by
  intro s b s' hs hok
  obtain ⟨a, s₁, hact, hrest⟩ := exists_of_bind hok
  obtain ⟨hmoved, ha⟩ := h s a s₁ hs hact
  obtain ⟨hmoved', hb⟩ := hnext a s₁ b s' ((hs.moved hmoved).append ha) hrest
  exact ⟨hmoved.trans hmoved', hb⟩

/-- Of a closed block anything may be said. -/
theorem Moves.idle {act : LowerM α} {R : α → List Operand} {waiting : List Operand}
    (h : Moves unit starts given stack none act R) :
    Moves unit starts given stack (some waiting) act R := by
  intro s a s' hs hok
  obtain ⟨hmoved, ha⟩ := h s a s' hs hok
  exact ⟨⟨hmoved.scopes, hmoved.run.tail (.idle waiting)⟩, ha⟩

theorem moves_pure {a : α} {R : α → List Operand}
    (h : ∀ operand ∈ R a, operand ∈ given ∨ operand.reg? = none) :
    Moves unit starts given stack stack (pure a) R := by
  rintro s _ _ hs ⟨⟩
  exact ⟨.refl, fun operand ho => (h operand ho).elim (hs.given operand) stable_of_reg?⟩

theorem moves_pure_nil (a : α) : Moves unit starts given stack stack (pure a) fun _ => [] :=
  moves_pure fun _ ho => absurd ho List.not_mem_nil

theorem moves_lift_bind {x : Except Fault α} {next : α → LowerM β} {R : β → List Operand}
    (h : ∀ a, x = .ok a → Moves unit starts given stack stack' (next a) R) :
    Moves unit starts given stack stack' (liftM x >>= next) R := by
  intro s b s' hs hok
  rw [lift_bind_apply] at hok
  obtain ⟨a, hx, hrest⟩ := bind_eq_ok.mp hok
  exact h a hx s b s' hs hrest

theorem moves_throw (fault : Fault) (R : α → List Operand) :
    Moves unit starts given stack stack' (throw fault) R := by
  rintro s a s' _ ⟨⟩

/-- Jumps out of statements, as an action finds them in the state, lead to blocks where nothing waits. -/
theorem moves_get_bind {next : Lowering → LowerM β} {R : β → List Operand}
    (h : ∀ s : Lowering, (∀ t ∈ s.scopes, (t, []) ∈ starts) →
      Moves unit starts given stack stack' (next s) R) :
    Moves unit starts given stack stack' (get >>= next) R :=
  fun s b s' hs hok => h s hs.scopes s b s' hs hok

theorem moves_forM {act : α → LowerM PUnit} {xs : List α}
    (h : ∀ a ∈ xs, Moves unit starts given stack stack (act a) fun _ => []) :
    Moves unit starts given stack stack (xs.forM act) fun _ => [] := by
  induction xs with
  | nil => exact moves_pure_nil _
  | cons a xs ih =>
    exact (h a List.mem_cons_self).bind fun _ => ih fun b hb => h b (List.mem_cons_of_mem _ hb)

theorem moves_optional {act : α → LowerM PUnit}
    (h : ∀ a, Moves unit starts given stack stack (act a) fun _ => []) (part : Option α) :
    Moves unit starts given stack stack (part.forM act) fun _ => [] := by
  cases part with
  | none => exact moves_pure_nil _
  | some a => exact h a

theorem moves_discard {act : LowerM α} {R : α → List Operand}
    (h : Moves unit starts given stack stack' act R) :
    Moves unit starts given stack stack' (discard act) fun _ => [] := by
  intro s a s' hs hok
  have hbind : (act >>= fun _ => pure a) s = .ok (a, s') := hok
  obtain ⟨b, s₁, hact, hrest⟩ := exists_of_bind hbind
  cases hrest
  exact ⟨(h s b s' hs hact).1, nofun⟩

-- ════════════════════════════════════════════════════════════════════════
-- Changes around an action
-- ════════════════════════════════════════════════════════════════════════

/-- An action between two changes around the function. -/
theorem moves_between {act : LowerM α} {R : α → List Operand} {enter leave : Lowering → Lowering}
    (henter : Peripheral enter) (hleave : Peripheral leave) {s s' : Lowering} {a : α}
    (hscopes : ∀ t ∈ (enter s).scopes, (t, []) ∈ starts)
    (hback : ∀ t, SameScopes (enter s) t → SameScopes s (leave t))
    (h : Moves unit starts given stack stack' act R) (hs : s.Ready starts given)
    (hok : between enter leave act s = .ok (a, s')) :
    s.Moved unit starts stack stack' s' ∧ ∀ operand ∈ R a, s'.Stable operand := by
  obtain ⟨t, hact, rfl⟩ := exists_of_between hok
  have hext : s.Extends 0 (enter s) := henter.extends_apply s
  obtain ⟨hmoved, ha⟩ := h (enter s) a t (hs.extends hext hscopes) hact
  have hext' : t.Extends 0 (leave t) := hleave.extends_apply t
  refine ⟨⟨hback t hmoved.scopes, ?_⟩, fun operand ho => (ha operand ho).extends hext'⟩
  exact (hmoved.run.head (.still hext (by rw [henter.fn]) (henter.current s)
    (by rw [labelled, henter.labels]; rfl))).tail
    (.still hext' (by rw [hleave.fn]) (hleave.current t) (by rw [labelled, hleave.labels]; rfl))

theorem moves_withLine {act : LowerM α} {R : α → List Operand} (line : Nat)
    (h : Moves unit starts given stack stack' act R) :
    Moves unit starts given stack stack' (withLine line act) R := by
  intro s a s' hs hok
  obtain ⟨_, _, ⟨⟩, hok⟩ := exists_of_bind hok
  exact moves_between (.line line) (.line _) hs.scopes
    (fun _ hsame => ⟨hsame.breaks, hsame.continues, hsame.gotos, hsame.labels⟩) h hs hok

/-- Inside the construct jumps lead to `exit` too, and afterwards to where they led before. -/
theorem moves_withBreak {act : LowerM α} {R : α → List Operand} {exit : BlockId}
    (hexit : (exit, []) ∈ starts) (h : Moves unit starts given stack stack' act R) :
    Moves unit starts given stack stack' (withBreak exit act) R := by
  intro s a s' hs hok
  refine moves_between (.pushBreak exit) .popBreak (fun t ht => ?_) (fun _ hsame => hsame.popBreak) h hs hok
  obtain rfl | ht := List.mem_cons.mp ht
  · exact hexit
  · exact hs.scopes t ht

theorem moves_withLoop {act : LowerM α} {R : α → List Operand} {exit again : BlockId}
    (hexit : (exit, []) ∈ starts) (hagain : (again, []) ∈ starts)
    (h : Moves unit starts given stack stack' act R) :
    Moves unit starts given stack stack' (withLoop exit again act) R := by
  refine moves_withBreak hexit fun s a s' hs hok => ?_
  refine moves_between (.pushContinue again) .popContinue (fun t ht => ?_)
    (fun _ hsame => hsame.popContinue) h hs hok
  by_cases heq : t = again
  · rw [heq]
    exact hagain
  · refine hs.scopes t ?_
    simpa [scopes, pushContinue, heq] using ht

-- ════════════════════════════════════════════════════════════════════════
-- Blocks and instructions
-- ════════════════════════════════════════════════════════════════════════

/-- An instruction is appended to an open block only. -/
theorem isOpen_of_emit {instr : Nat → Instr} {s s' : Lowering} {u : Unit} (h : emit instr s = .ok (u, s')) :
    s.IsOpen := by
  rw [emit_eq_bind] at h
  obtain ⟨_, hemit, _⟩ := bind_eq_ok.mp h
  obtain ⟨block, hblock, hpush⟩ := bind_eq_ok.mp hemit
  obtain ⟨_, hpush, _⟩ := bind_eq_ok.mp hpush
  intro hclosed
  rw [Block.push, if_pos ((Function.isTerminated_iff (require_eq_ok_iff.mp hblock)).mpr hclosed)] at hpush
  cases hpush

theorem ensureJump_cases {target : BlockId} {s s' : Lowering} {u : Unit}
    (h : ensureJump target s = .ok (u, s')) : s.fn.Closed s.current ∧ s' = s ∨
      s.current < s.fn.blockCount ∧ s.IsOpen ∧ s' = s.pushed (.jump target s.line) := by
  obtain ⟨closed, s₁, hterm, hrest⟩ := exists_of_bind h
  rw [isTerminated, bind_apply (a := s) (t := s) rfl, lift_bind_apply] at hterm
  obtain ⟨block, hblock, hpure⟩ := bind_eq_ok.mp hterm
  cases hpure
  cases hclosed : block.isTerminated with
  | true =>
    rw [hclosed] at hrest
    cases hrest
    exact .inl ⟨(Function.isTerminated_iff (require_eq_ok_iff.mp hblock)).mp hclosed, rfl⟩
  | false =>
    rw [hclosed] at hrest
    exact .inr ⟨lt_of_emit hrest, isOpen_of_emit hrest, eq_pushed_of_emit hrest⟩

/-- Making a block at whose start nothing will wait. -/
theorem moves_newBlock_bind {label : String} (hlabel : label ≠ "dead") {next : BlockId → LowerM β}
    {R : β → List Operand}
    (h : ∀ t, Moves unit ((t, []) :: starts) given stack stack' (next t) R) :
    Moves unit starts given stack stack' (newBlock label >>= next) R := by
  intro s b s' hs hok
  have hready : (s.grown label).Ready ((s.fn.blockCount, []) :: starts) given :=
    (hs.extends (extends_grown label) hs.scopes).mono (List.subset_cons_self _ _)
  obtain ⟨hmoved, hb⟩ := h s.fn.blockCount (s.grown label) b s' hready hok
  have hsame : SameScopes s (s.grown label) := ⟨rfl, rfl, rfl, rfl⟩
  refine ⟨⟨hsame.trans hmoved.scopes, ?_⟩, hb⟩
  refine (hmoved.run.head (.grown label [] hlabel)).tail (.forget (List.subset_cons_self _ _) fun x hx => ?_)
  obtain rfl | hx := List.mem_cons.mp hx
  · exact .inr (.inr rfl)
  · exact .inl hx

/-- A closed block is left for one whose start is settled. -/
theorem moves_switchTo {b : BlockId} {waiting : List Operand} (h : (b, waiting) ∈ starts) :
    Moves unit starts given none (some waiting) (switchTo b) fun _ => [] := by
  rintro s _ _ _ ⟨⟩
  exact ⟨⟨⟨rfl, rfl, rfl, rfl⟩, .single (.enter h)⟩, nofun⟩

theorem moves_emit {instr : Nat → Instr} {waiting : List Operand} (hphi : ∀ line, (instr line).isPhi = false)
    (h : ∀ s : Lowering, s.Ready starts given → s.Separates (instr s.line) ∧
      Progress.Effect unit s starts (instr s.line) waiting stack') :
    Moves unit starts given (some waiting) stack' (emit instr) fun _ => [] := by
  intro s _ s' hs hok
  rw [eq_pushed_of_emit hok]
  obtain ⟨hsep, heffect⟩ := h s hs
  exact ⟨.pushed (lt_of_emit hok) (isOpen_of_emit hok) (by simp [hphi]) hsep heffect, nofun⟩

/-- A plain instruction that mentions constants and computed values only. -/
theorem moves_emitPlain {instr : Nat → Instr} {waiting : List Operand}
    (hop : ∀ line, (instr line).opcode.IsPlain) (hsep : ∀ s : Lowering, s.Ready starts given →
      s.Separates (instr s.line)) :
    Moves unit starts given (some waiting) (some waiting) (emit instr) fun _ => [] :=
  moves_emit (fun line => by simpa [Instr.isPhi] using (hop line).1.2) fun s hs =>
    ⟨hsep s hs, .plain (hop s.line).1.1 (hop s.line).2.1 (hop s.line).2.2⟩

theorem moves_emitJump {t : BlockId} {waiting : List Operand} (h : (t, waiting) ∈ starts) :
    Moves unit starts given (some waiting) none (emit (.jump t)) fun _ => [] := by
  refine moves_emit (fun _ => rfl) fun s _ => ⟨?_, .leave rfl (fun u hu => ?_) nofun⟩
  · exact separates_of_stable rfl (stable_of_reg? rfl) (stable_of_reg? rfl) (stable_of_reg? rfl)
  · rw [List.mem_singleton.mp hu]
    exact h

theorem moves_ensureJump {t : BlockId} {waiting : List Operand} (h : (t, waiting) ∈ starts) :
    Moves unit starts given (some waiting) none (ensureJump t) fun _ => [] := by
  intro s _ s' hs hok
  obtain ⟨hclosed, rfl⟩ | ⟨hlt, hopen, rfl⟩ := ensureJump_cases hok
  · exact ⟨⟨.refl s', .single (.closed hclosed)⟩, nofun⟩
  · have hjump : Moves unit starts given (some waiting) none (emit (.jump t)) fun _ => [] := moves_emitJump h
    exact ⟨(hjump s () _ hs (emit_apply hlt hopen (.jump t))).1, nofun⟩

theorem moves_emitBranch {cond : Operand} {t u : BlockId} {waiting : List Operand} (hcond : cond ∈ given)
    (ht : (t, waiting) ∈ starts) (hu : (u, waiting) ∈ starts) :
    Moves unit starts given (some waiting) none (emit (.branch cond t u)) fun _ => [] := by
  refine moves_emit (fun _ => rfl) fun s hs => ⟨?_, .leave rfl (fun x hx => ?_) nofun⟩
  · exact separates_of_stable rfl (stable_of_reg? rfl) (hs.given cond hcond) (stable_of_reg? rfl)
  · obtain rfl | hx := List.mem_cons.mp hx
    · exact ht
    · rw [List.mem_singleton.mp hx]
      exact hu

-- ════════════════════════════════════════════════════════════════════════
-- Registers
-- ════════════════════════════════════════════════════════════════════════

/-- A new register holds a computed value. -/
theorem moves_newTemp_bind {ty : Option TypeId} {next : Operand → LowerM β} {R : β → List Operand}
    (h : ∀ r, Moves unit starts (.reg r ty :: given) stack stack' (next (.reg r ty)) R) :
    Moves unit starts given stack stack' (newTemp ty >>= next) R := by
  intro s b s' hs hok
  have hmoved : s.Moved unit starts stack stack s.withReg := .withReg
  have hready : s.withReg.Ready starts ([.reg s.fn.regCount ty] ++ given) :=
    (hs.moved hmoved).append (List.forall_mem_singleton.mpr (hs.stable_withReg ty))
  obtain ⟨hmoved', hb⟩ := h s.fn.regCount s.withReg b s' hready hok
  exact ⟨hmoved.trans hmoved', hb⟩

theorem moves_varOperand (name : Name) (ty : Option TypeId) :
    Moves unit starts given stack stack (varOperand name ty) fun _ => [] := by
  rintro s _ _ _ ⟨⟩
  exact ⟨.withVar name ty, nofun⟩

theorem moves_internText (text : String) :
    Moves unit starts given stack stack (internText text) fun _ => [] := by
  rintro s _ _ _ ⟨⟩
  exact ⟨.still (extends_intern text) rfl rfl ⟨rfl, rfl, rfl, rfl⟩, nofun⟩

/-- Computing a new register from a computed value, or from a variable by a copy. -/
theorem moves_emitUnary {opcode : Opcode} (hop : opcode.IsPlain) (ty : Option TypeId) {src : Operand}
    {waiting : List Operand} (hsrc : src ∈ given ∨ src.reg? = none ∨ opcode = .copy) :
    Moves unit starts given (some waiting) (some waiting) (emitUnary opcode ty src) fun a => [a] := by
  refine moves_newTemp_bind fun r => (moves_emitPlain (fun _ => hop) fun s hs => ?_).bind fun _ =>
    moves_pure (by simp)
  have hdst : s.Stable (.reg r ty) := hs.given _ List.mem_cons_self
  refine ⟨.inl hdst, ?_, stable_of_reg? rfl, nofun⟩
  obtain hsrc | hsrc | hcopy := hsrc
  · exact .inl (hs.given src (List.mem_cons_of_mem _ hsrc))
  · exact .inl (stable_of_reg? hsrc)
  · exact .inr ⟨hcopy, hdst, rfl⟩

/-- Computing a new register from two computed values. -/
theorem moves_emitBinary {opcode : Opcode} (hop : opcode.IsPlain) (ty : Option TypeId) {lhs rhs : Operand}
    {waiting : List Operand} (hlhs : lhs ∈ given) (hrhs : rhs ∈ given ∨ rhs.reg? = none) :
    Moves unit starts given (some waiting) (some waiting) (emitBinary opcode ty lhs rhs) fun a => [a] := by
  refine moves_newTemp_bind fun r => (moves_emitPlain (fun _ => hop) fun s hs => ?_).bind fun _ =>
    moves_pure (by simp)
  refine separates_of_stable rfl (hs.given _ List.mem_cons_self)
    (hs.given lhs (List.mem_cons_of_mem _ hlhs)) ?_
  exact hrhs.elim (fun hrhs => hs.given rhs (List.mem_cons_of_mem _ hrhs)) stable_of_reg?

/-- Writing a computed value to what may be a variable. -/
theorem moves_emitCopy {dst src : Operand} {waiting : List Operand} (hsrc : src ∈ given) :
    Moves unit starts given (some waiting) (some waiting) (emit (.unary .copy dst src)) fun _ => [] :=
  moves_emitPlain (fun _ => (by decide : Opcode.copy.IsPlain)) fun s hs =>
    ⟨.inr rfl, .inl (hs.given src hsrc), stable_of_reg? rfl, nofun⟩

theorem moves_writeVar (name : Name) (ty : Option TypeId) {value : Operand} {waiting : List Operand}
    (hvalue : value ∈ given) :
    Moves unit starts given (some waiting) (some waiting) (writeVar name ty value) fun _ => [] :=
  (moves_varOperand name ty).bind fun _ => moves_emitCopy hvalue

end LowerM

end MiddleEnd
