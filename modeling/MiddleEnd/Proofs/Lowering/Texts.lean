import MiddleEnd.Proofs.Lowering.Composition

/-!
# Lowering a well-formed unit

A unit in which all numbers name something never stops lowering, and the texts of what is lowered are in
the tables at all times.

## Main definitions

* `Operand.Named`: the operand mentions no string literal, and only names that exist.
* `LowerM.Serves`: an action that keeps the texts of the function in the tables and does not stop
  because of the unit.

## Main statements

* `SourceUnit.WellFormed.serves`: the primitive actions of lowering are such actions, also one after the other.
* `SourceUnit.WellFormed.serves_lowerBody`: so lowering a body is such an action.
-/

namespace MiddleEnd

open LowerM

/-- The operand mentions no string literal, and only names that exist. -/
def Operand.Named (unit : SourceUnit) (operand : Operand) : Prop :=
  ∀ texts, operand.Listed ⟨unit.names, texts⟩

/-- So do all operands of the instruction. -/
def Instr.Named (unit : SourceUnit) (i : Instr) : Prop := ∀ operand ∈ i.operands, operand.Named unit

/-- All texts of the function under construction are in the tables. -/
def Lowering.Listable (unit : SourceUnit) (s : Lowering) : Prop :=
  s.fn.Listable ⟨unit.names, s.texts⟩

/-- The action keeps the texts of the function in the tables, and does not stop because of the unit. -/
def LowerM.Serves {α : Type} (unit : SourceUnit) (act : LowerM α) (R : α → Prop) : Prop :=
  ∀ s : Lowering, s.Listable unit → match act s with
    | .ok (a, s') => s'.Listable unit ∧ s.texts.size ≤ s'.texts.size ∧ R a
    | .error fault => ¬ fault.IsDangling

theorem Operand.Listed.mono {operand : Operand} {names texts texts' : Interner}
    (h : operand.Listed ⟨names, texts⟩) (hle : texts.size ≤ texts'.size) :
    operand.Listed ⟨names, texts'⟩ := by
  cases operand with
  | literal id => exact Nat.lt_of_lt_of_le h hle
  | _ => exact h

theorem Function.Listable.mono {f : Function} {names texts texts' : Interner}
    (h : f.Listable ⟨names, texts⟩) (hle : texts.size ≤ texts'.size) : f.Listable ⟨names, texts'⟩ where
  name := h.name
  params := h.params
  vars := h.vars
  code b i hi operand hop := (h.code b i hi operand hop).mono hle

namespace LowerM

variable {α β : Type} {unit : SourceUnit}

theorem serves_pure {a : α} {R : α → Prop} (h : R a) : (pure a : LowerM α).Serves unit R :=
  fun _ hs => ⟨hs, Nat.le_refl _, h⟩

theorem Serves.bind {act : LowerM α} {next : α → LowerM β} {P : α → Prop} {R : β → Prop}
    (h : act.Serves unit P) (hnext : ∀ a, P a → (next a).Serves unit R) :
    (act >>= next).Serves unit R := by
  intro s hs
  have hact := h s hs
  have hbind : (act >>= next) s = (act s).bind fun p => next p.1 p.2 := rfl
  rw [hbind]
  cases heq : act s with
  | error fault =>
    rw [heq] at hact
    exact hact
  | ok p =>
    obtain ⟨a, s₁⟩ := p
    rw [heq] at hact
    obtain ⟨hs₁, hle₁, ha⟩ := hact
    have hrest := hnext a ha s₁ hs₁
    change match next a s₁ with
      | .ok (b, s') => s'.Listable unit ∧ s.texts.size ≤ s'.texts.size ∧ R b
      | .error fault => ¬ fault.IsDangling
    cases heq' : next a s₁ with
    | error fault =>
      rw [heq'] at hrest
      exact hrest
    | ok q =>
      rw [heq'] at hrest
      exact ⟨hrest.1, Nat.le_trans hle₁ hrest.2.1, hrest.2.2⟩

/-- An action that stops only because of the unit, and not because of the unit either, succeeds. -/
theorem Ensures.exists_eq_ok {act : LowerM α} {s : Lowering} {Q : α → Lowering → Prop} {R : α → Prop}
    (h : act.Ensures s Q) (hserves : act.Serves unit R) (hs : s.Listable unit) :
    ∃ a s', act s = .ok (a, s') ∧ Q a s' ∧ s'.Listable unit ∧ s.texts.size ≤ s'.texts.size := by
  have hnot := hserves s hs
  unfold Ensures at h
  cases heq : act s with
  | ok result =>
    rw [heq] at h hnot
    exact ⟨result.1, result.2, rfl, h, hnot.1, hnot.2.1⟩
  | error fault =>
    rw [heq] at h hnot
    exact absurd h hnot

theorem Ensures.succeeds {act : LowerM α} {s : Lowering} {Q : α → Lowering → Prop} {R : α → Prop}
    (h : act.Ensures s Q) (hserves : act.Serves unit R) (hs : s.Listable unit) : Succeeds (act s) := by
  obtain ⟨a, s', heq, _⟩ := h.exists_eq_ok hserves hs
  exact ⟨(a, s'), heq⟩

theorem serves_get : (get : LowerM Lowering).Serves unit fun _ => True :=
  fun _ hs => ⟨hs, Nat.le_refl _, trivial⟩

/-- Changing where control goes changes no text. -/
theorem serves_modify {g : Lowering → Lowering}
    (hg : ∀ s fn texts, g { s with fn, texts } = { g s with fn, texts }) :
    (modify g : LowerM PUnit).Serves unit fun _ => True := by
  intro s hs
  have hs' : g s = { g s with fn := s.fn, texts := s.texts } := hg s s.fn s.texts
  have hfn : (g s).fn = s.fn := by rw [hs']
  have htexts : (g s).texts = s.texts := by rw [hs']
  change (g s).Listable unit ∧ s.texts.size ≤ (g s).texts.size ∧ True
  refine ⟨?_, Nat.le_of_eq (by rw [htexts]), trivial⟩
  rw [Lowering.Listable, hfn, htexts]
  exact hs

/-- So control may go elsewhere for the time of an action. -/
theorem serves_between {enter leave : Lowering → Lowering} {act : LowerM α} {R : α → Prop}
    (henter : ∀ s fn texts, enter { s with fn, texts } = { enter s with fn, texts })
    (hleave : ∀ s fn texts, leave { s with fn, texts } = { leave s with fn, texts }) (h : act.Serves unit R) :
    (between enter leave act).Serves unit R :=
  (serves_modify henter).bind fun _ _ => h.bind fun _ ha => (serves_modify hleave).bind fun _ _ => serves_pure ha

theorem serves_newBlock (label : String) : (newBlock label).Serves unit fun _ => True := by
  intro s hs
  change (s.grown label).Listable unit ∧ s.texts.size ≤ (s.grown label).texts.size ∧ True
  refine ⟨⟨hs.name, hs.params, hs.vars, fun b i hi => ?_⟩, Nat.le_refl _, trivial⟩
  rw [Lowering.grown, Function.code_grown] at hi
  exact hs.code b i hi

theorem serves_newTemp (ty : Option TypeId) : (newTemp ty).Serves unit (Operand.Named unit) := by
  intro s hs
  exact ⟨⟨hs.name, hs.params, hs.vars, hs.code⟩, Nat.le_refl _, fun _ => trivial⟩

theorem serves_varOperand {name : Name} (hname : name < unit.names.size) (ty : Option TypeId) :
    (varOperand name ty).Serves unit (Operand.Named unit) := by
  intro s hs
  have hvars : (s.withVar name ty).Listable unit → match varOperand name ty s with
      | .ok (a, s') => s'.Listable unit ∧ s.texts.size ≤ s'.texts.size ∧ a.Named unit
      | .error fault => ¬ fault.IsDangling := fun h => ⟨h, Nat.le_refl _, fun _ => trivial⟩
  apply hvars
  rw [Lowering.Listable, Lowering.withVar]
  obtain ⟨var, _, _, heq⟩ | ⟨_, heq⟩ := Lowering.varLookup_cases s.fn name ty
  · rw [heq]
    exact hs
  · rw [heq]
    refine ⟨hs.name, hs.params, fun var hvar => ?_, hs.code⟩
    obtain hvar | hvar := List.mem_append.mp hvar
    · exact hs.vars var hvar
    · rw [List.mem_singleton.mp hvar]
      exact hname

/-- An instruction whose texts are in the tables may be appended. -/
theorem serves_emit_of (instr : Nat → Instr) {s : Lowering} (hs : s.Listable unit)
    (hinstr : ∀ line, (instr line).Listed ⟨unit.names, s.texts⟩) : match emit instr s with
      | .ok (_, s') => s'.Listable unit ∧ s.texts.size ≤ s'.texts.size ∧ True
      | .error fault => ¬ fault.IsDangling := by
  obtain heq | ⟨fault, heq, hfault⟩ := emit_cases instr s
  · rw [heq]
    refine ⟨⟨hs.name, hs.params, hs.vars, fun b i hi => ?_⟩, Nat.le_refl _, trivial⟩
    obtain hi | ⟨_, rfl⟩ := s.fn.mem_code_pushed s.current _ hi
    · exact hs.code b i hi
    · exact hinstr s.line
  · rw [heq]
    exact hfault

theorem serves_emit {instr : Nat → Instr} (hinstr : ∀ line, (instr line).Named unit) :
    (emit instr).Serves unit fun _ => True := by
  intro s hs
  have hemit := serves_emit_of instr hs fun line operand hop => hinstr line operand hop s.texts
  cases heq : emit instr s with
  | ok p =>
    rw [heq] at hemit
    exact hemit
  | error fault =>
    rw [heq] at hemit
    exact hemit

theorem serves_isTerminated : isTerminated.Serves unit fun _ => True := by
  intro s hs
  have hterm : isTerminated s = (s.fn.block s.current).bind fun block =>
      .ok (block.isTerminated, s) := by
    rw [isTerminated, bind_apply (a := s) (t := s) rfl, lift_bind_apply]
    rfl
  rw [hterm, Function.block]
  cases s.fn.blocks[s.current]? with
  | none => exact not_false
  | some block => exact ⟨hs, Nat.le_refl _, trivial⟩

/-- A string literal is entered before it is mentioned. -/
theorem serves_text (text : String) (ty : Option TypeId) :
    (internText text >>= fun id => emitUnary .const ty (.literal id)).Serves unit
      (Operand.Named unit) := by
  intro s hs
  obtain ⟨hlt, hle⟩ := s.texts.intern_lt text
  -- The state behind the number of the literal and the new register.
  have hreg : s.withReg.Listable unit := ⟨hs.name, hs.params, hs.vars, hs.code⟩
  have hs₁ : Lowering.Listable unit { s.withReg with texts := (s.texts.intern text).2 } :=
    Function.Listable.mono hreg hle
  have hemit := serves_emit_of (.unary .const (.reg s.fn.regCount ty)
    (.literal (s.texts.intern text).1)) hs₁ ?_
  · have hact : (internText text >>= fun id => emitUnary .const ty (.literal id)) s =
        (emit (.unary .const (.reg s.fn.regCount ty) (.literal (s.texts.intern text).1))
          { s.withReg with texts := (s.texts.intern text).2 }).bind fun p =>
            .ok (.reg s.fn.regCount ty, p.2) := rfl
    rw [hact]
    cases heq : emit (.unary .const (.reg s.fn.regCount ty) (.literal (s.texts.intern text).1))
        { s.withReg with texts := (s.texts.intern text).2 } with
    | error fault =>
      rw [heq] at hemit
      exact hemit
    | ok p =>
      rw [heq] at hemit
      exact ⟨hemit.1, Nat.le_trans hle hemit.2.1, fun _ => trivial⟩
  · intro line operand hop
    obtain rfl | rfl | rfl | ⟨_, harg, _⟩ := Instr.mem_operands.mp hop
    · trivial
    · exact hlt
    · trivial
    · cases harg

end LowerM

namespace SourceUnit.WellFormed

variable {unit : SourceUnit}

/-- All that lowering is put together from keeps the texts in the tables. -/
theorem serves (hunit : unit.WellFormed) :
    Compositional unit hunit.domain (Operand.Named unit) fun act R => act.Serves unit R where
  pure := serves_pure
  bind := Serves.bind
  lift := by
    intro α x R hok herror
    cases x with
    | ok a => exact serves_pure (hok a rfl)
    | error fault => exact (herror fault rfl).1.elim
  get_bind _ h := serves_get.bind fun s _ => h s
  holds_withLine _ h := serves_get.bind fun _ _ => serves_between (fun _ _ _ => rfl) (fun _ _ _ => rfl) h
  holds_withBreak _ h := serves_between (fun _ _ _ => rfl) (fun _ _ _ => rfl) h
  holds_withContinue _ h := serves_between (fun _ _ _ => rfl) (fun _ _ _ => rfl) h
  holds_switchTo _ := serves_modify fun _ _ _ => rfl
  holds_newBlock := serves_newBlock
  holds_newTemp := serves_newTemp
  holds_varOperand := serves_varOperand
  holds_isTerminated := serves_isTerminated
  holds_emit := serves_emit
  holds_text := serves_text
  valid_none _ := trivial
  valid_int _ _ := trivial
  valid_float _ _ := trivial
  valid_label _ _ := trivial
  valid_field hname _ := hname
  valid_func hname _ := hname

/-- Lowering an expression that exists does not stop. -/
theorem serves_lowerExpr (hunit : unit.WellFormed) {id : ExprId} (hid : id < unit.exprs.size) :
    (unit.lowerExpr id).Serves unit (Operand.Named unit) :=
  hunit.serves.stmt.holds_lowerExpr ⟨Nat.lt_succ_of_lt hid, hid⟩

/-- Lowering a statement that exists does not stop. -/
theorem serves_lowerStmt (hunit : unit.WellFormed) {id : StmtId} (hid : id < unit.stmts.size) :
    (unit.lowerStmt id).Serves unit fun _ => True :=
  hunit.serves.holds_lowerStmtWithin _ ⟨Nat.lt_succ_of_lt hid, hid⟩

/-- Making the labels of a statement that exists does not stop. -/
theorem serves_createLabels (hunit : unit.WellFormed) {id : StmtId} (hid : id < unit.stmts.size) :
    (unit.createLabels id).Serves unit fun _ => True :=
  hunit.serves.holds_createLabelsWithin (fun _ _ _ => serves_modify fun _ _ _ => rfl) _
    ⟨Nat.lt_succ_of_lt hid, hid⟩

/-- Lowering a body that exists does not stop. -/
theorem serves_lowerBody (hunit : unit.WellFormed) {body : StmtId} (hbody : body < unit.stmts.size) :
    (unit.lowerBody body).Serves unit fun _ => True :=
  hunit.serves.holds_lowerBody (fun _ _ _ => serves_modify fun _ _ _ => rfl) ⟨Nat.lt_succ_of_lt hbody, hbody⟩

end SourceUnit.WellFormed

end MiddleEnd
