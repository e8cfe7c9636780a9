import MiddleEnd.Proofs.IR.Alike
import MiddleEnd.Proofs.Lowering.Composition

/-!
# Lowering does not look at string literals

Lowering enters a string literal into the table and sets a register to its number at once. No other step
depends on the table. So from states that differ only in the numbers of string literals, lowering does the
same, and ends in such states again.

## Main definitions

* `Lowering.Parallel`: two states that are equal, except for the numbers of string literals.
* `LowerM.Uniform`: an action that gives the same answer from both, and leads to such states.

## Main statements

* `SourceUnit.WellFormed.uniform`: the primitive actions of lowering are such actions, also one after the other.
* `SourceUnit.WellFormed.uniform_lowerBody`: so lowering a body is such an action.
-/

namespace MiddleEnd

/-- Two states of lowering are equal, except for the numbers of string literals. -/
structure Lowering.Parallel (s t : Lowering) : Prop where
  rest : t = { s with fn := t.fn, texts := t.texts }
  fn : s.fn.Alike s.texts t.texts t.fn

/-- From two states that differ in the numbers of string literals, the action gives the same answer and leads
to such states, or it stops with the same fault. The tables only grow. -/
def LowerM.Uniform {α : Type} (act : LowerM α) (R : α → Prop) : Prop :=
  ∀ s t : Lowering, s.Parallel t → Agree (fun p q => p.1 = q.1 ∧ R p.1 ∧ p.2.Parallel q.2 ∧
    s.texts.Keeps p.2.texts ∧ t.texts.Keeps q.2.texts) (act s) (act t)

namespace LowerM

variable {α β : Type} {R : α → Prop}

-- ════════════════════════════════════════════════════════════════════════
-- Actions one after the other
-- ════════════════════════════════════════════════════════════════════════

theorem uniform_pure {a : α} (h : R a) : (pure a : LowerM α).Uniform R :=
  fun s t hst => ⟨rfl, h, hst, .refl s.texts, .refl t.texts⟩

theorem Uniform.bind {act : LowerM α} {next : α → LowerM β} {S : β → Prop} (h : act.Uniform R)
    (hnext : ∀ a, R a → (next a).Uniform S) : (act >>= next).Uniform S := by
  intro s t hst
  change Agree _ ((act s).bind fun p => next p.1 p.2) ((act t).bind fun p => next p.1 p.2)
  refine (h s t hst).bind ?_
  rintro ⟨a, s₁⟩ ⟨_, t₁⟩ ⟨rfl, ha, hst₁, hkeeps, hkeeps'⟩
  refine (hnext a ha s₁ t₁ hst₁).mono ?_
  rintro p q ⟨heq, hS, hpq, hlater, hlater'⟩
  exact ⟨heq, hS, hpq, hkeeps.trans hlater, hkeeps'.trans hlater'⟩

/-- Reading what does not depend on the numbers of string literals. -/
theorem uniform_get_bind {next : Lowering → LowerM α}
    (hnext : ∀ s fn texts, next { s with fn, texts } = next s) (h : ∀ s, (next s).Uniform R) :
    (get >>= next).Uniform R := by
  intro s t hst
  have hsame : next t = next s := by
    rw [hst.rest]
    exact hnext s t.fn t.texts
  change Agree _ (next s s) (next t t)
  rw [hsame]
  exact h s s t hst

/-- Changing what does not depend on the numbers of string literals. -/
theorem uniform_modify {g : Lowering → Lowering}
    (hg : ∀ s fn texts, g { s with fn, texts } = { g s with fn, texts }) :
    (modify g : LowerM PUnit).Uniform fun _ => True := by
  intro s t hst
  have hs : g s = { g s with fn := s.fn, texts := s.texts } := hg s s.fn s.texts
  have ht : g t = { g s with fn := t.fn, texts := t.texts } := by
    rw [hst.rest]
    exact hg s t.fn t.texts
  have hpar : (g s).Parallel (g t) := by
    rw [ht, hs]
    exact ⟨rfl, hst.fn⟩
  have htexts : (g s).texts = s.texts ∧ (g t).texts = t.texts := by
    rw [hs, ht]
    exact ⟨rfl, rfl⟩
  exact ⟨rfl, trivial, hpar, htexts.1 ▸ .refl s.texts, htexts.2 ▸ .refl t.texts⟩

/-- So a change of this kind may be made for the time of an action. -/
theorem uniform_between {enter leave : Lowering → Lowering} {act : LowerM α}
    (henter : ∀ s fn texts, enter { s with fn, texts } = { enter s with fn, texts })
    (hleave : ∀ s fn texts, leave { s with fn, texts } = { leave s with fn, texts }) (h : act.Uniform R) :
    (between enter leave act).Uniform R :=
  (uniform_modify henter).bind fun _ _ => h.bind fun _ ha =>
    (uniform_modify hleave).bind fun _ _ => uniform_pure ha

-- ════════════════════════════════════════════════════════════════════════
-- Blocks and registers
-- ════════════════════════════════════════════════════════════════════════

/-- An action on the function alone. -/
theorem uniform_onFunction {act : LowerM α} (onFunction : Lowering → Except Fault (α × Function))
    (hact : ∀ s, act s = onFunction s >>= fun p => .ok (p.1, { s with fn := p.2 }))
    (h : ∀ s t, s.Parallel t → Agree (fun p q => p.1 = q.1 ∧ R p.1 ∧ p.2.Alike s.texts t.texts q.2)
      (onFunction s) (onFunction t)) : act.Uniform R := by
  intro s t hst
  rw [hact, hact]
  refine (h s t hst).bind ?_
  rintro ⟨a, f⟩ ⟨_, g⟩ ⟨rfl, ha, hfg⟩
  exact ⟨rfl, ha, ⟨by rw [hst.rest], hfg⟩, .refl s.texts, .refl t.texts⟩

theorem uniform_newBlock (label : String) : (newBlock label).Uniform fun _ => True := by
  refine uniform_onFunction (fun s => .ok (s.fn.newBlock (some label))) (fun _ => rfl) ?_
  intro s t hst
  exact ⟨hst.fn.size.symm, trivial, hst.fn.newBlock (some label)⟩

theorem uniform_newTemp (ty : Option TypeId) : (newTemp ty).Uniform Operand.Wordless := by
  refine uniform_onFunction (fun s => .ok (.reg s.fn.newReg.1 ty, s.fn.newReg.2))
    (fun _ => rfl) ?_
  intro s t hst
  obtain ⟨hreg, hfn⟩ := hst.fn.newReg
  exact ⟨congrArg (Operand.reg · ty) hreg, Operand.wordless_reg _ ty, hfn⟩

theorem uniform_varOperand (name : Name) (ty : Option TypeId) :
    (varOperand name ty).Uniform Operand.Wordless := by
  refine uniform_onFunction
    (fun s => .ok (.reg (s.fn.varLookup name ty).1 ty, (s.fn.varLookup name ty).2))
    (fun _ => rfl) ?_
  intro s t hst
  obtain ⟨hreg, hfn⟩ := hst.fn.varLookup name ty
  exact ⟨congrArg (Operand.reg · ty) hreg, Operand.wordless_reg _ ty, hfn⟩

theorem uniform_isTerminated : isTerminated.Uniform fun _ => True := by
  refine uniform_onFunction
    (fun s => s.fn.block s.current >>= fun block => .ok (block.isTerminated, s.fn)) ?_ ?_
  · intro s
    rw [isTerminated, bind_apply (a := s) (t := s) rfl, lift_bind_apply]
    cases s.fn.block s.current <;> rfl
  · intro s t hst
    have hcurrent : t.current = s.current := by rw [hst.rest]
    rw [hcurrent]
    refine (hst.fn.block s.current).bind fun block block' hblock => ?_
    exact ⟨hblock.isTerminated.symm, trivial, hst.fn⟩

theorem uniform_emit {instr : Nat → Instr} (hinstr : ∀ line, (instr line).Wordless) :
    (emit instr).Uniform fun _ => True := by
  refine uniform_onFunction
    (fun s => s.fn.emit s.current (instr s.line) >>= fun fn => .ok ((), fn)) ?_ ?_
  · intro s
    rw [emit_eq_bind]
    cases s.fn.emit s.current (instr s.line) <;> rfl
  · intro s t hst
    have hcurrent : t.current = s.current := by rw [hst.rest]
    have hline : t.line = s.line := by rw [hst.rest]
    rw [hcurrent, hline]
    exact (hst.fn.emit s.current (.same (hinstr s.line))).bind fun _ _ hfn => ⟨rfl, trivial, hfn⟩

/-- A register that is set to a string literal. The literal is entered first, so its number stands for the
same text in both tables. -/
theorem uniform_text (text : String) (ty : Option TypeId) :
    (internText text >>= fun id => emitUnary .const ty (.literal id)).Uniform Operand.Wordless := by
  intro s t hst
  have hact : ∀ s : Lowering, (internText text >>= fun id => emitUnary .const ty (.literal id)) s =
      s.fn.newReg.2.emit s.current (.unary .const (.reg s.fn.newReg.1 ty)
        (.literal (s.texts.intern text).1) s.line) >>= fun fn =>
          .ok (.reg s.fn.newReg.1 ty, { s with fn, texts := (s.texts.intern text).2 }) := by
    intro s
    change (emit (.unary .const (.reg s.fn.newReg.1 ty) (.literal (s.texts.intern text).1))
      { s with fn := s.fn.newReg.2, texts := (s.texts.intern text).2 }).bind _ = _
    rw [emit_eq_bind]
    cases s.fn.newReg.2.emit s.current (.unary .const (.reg s.fn.newReg.1 ty)
      (.literal (s.texts.intern text).1) s.line) <;> rfl
  rw [hact, hact]
  have hcurrent : t.current = s.current := by rw [hst.rest]
  have hline : t.line = s.line := by rw [hst.rest]
  have hkeeps := s.texts.keeps_intern text
  have hkeeps' := t.texts.keeps_intern text
  obtain ⟨hreg, hfn⟩ := hst.fn.newReg
  rw [hcurrent, hline, ← hreg]
  refine ((hfn.mono hkeeps hkeeps').emit s.current
    (.literal (s.texts.get?_intern text) (t.texts.get?_intern text))).bind fun fn fn' hfn => ?_
  exact ⟨rfl, Operand.wordless_reg _ ty, ⟨by rw [hst.rest], hfn⟩, hkeeps, hkeeps'⟩

end LowerM

namespace SourceUnit.WellFormed

open LowerM

variable {unit : SourceUnit}

/-- All that lowering is put together from does the same whatever numbers string literals have. -/
theorem uniform (hunit : unit.WellFormed) :
    Compositional unit hunit.domain Operand.Wordless fun act R => act.Uniform R where
  pure := uniform_pure
  bind := Uniform.bind
  lift := by
    intro α x R hok herror
    cases x with
    | ok a => exact uniform_pure (hok a rfl)
    | error fault => exact (herror fault rfl).1.elim
  get_bind := uniform_get_bind
  holds_withLine _ h :=
    uniform_get_bind (fun _ _ _ => rfl) fun _ => uniform_between (fun _ _ _ => rfl) (fun _ _ _ => rfl) h
  holds_withBreak _ h := uniform_between (fun _ _ _ => rfl) (fun _ _ _ => rfl) h
  holds_withContinue _ h := uniform_between (fun _ _ _ => rfl) (fun _ _ _ => rfl) h
  holds_switchTo _ := uniform_modify fun _ _ _ => rfl
  holds_newBlock := uniform_newBlock
  holds_newTemp := uniform_newTemp
  holds_varOperand _ ty := uniform_varOperand _ ty
  holds_isTerminated := uniform_isTerminated
  holds_emit := uniform_emit
  holds_text := uniform_text
  valid_none := Operand.wordless_none
  valid_int := Operand.wordless_int
  valid_float := Operand.wordless_float
  valid_label := Operand.wordless_label
  valid_field _ := Operand.wordless_field _
  valid_func _ := Operand.wordless_func _

/-- Lowering a body that exists does the same whatever numbers string literals have. -/
theorem uniform_lowerBody (hunit : unit.WellFormed) {body : StmtId} (hbody : body < unit.stmts.size) :
    (unit.lowerBody body).Uniform fun _ => True :=
  hunit.uniform.holds_lowerBody (fun _ _ _ => uniform_modify fun _ _ _ => rfl) ⟨Nat.lt_succ_of_lt hbody, hbody⟩

end SourceUnit.WellFormed

end MiddleEnd
