import MiddleEnd.Lowering.Unit
import Mathlib.Tactic.Common

/-!
# What lowering can end in

Lowering stops with a fault only when the unit refers to something that it does not have. This module
has the rules by which such statements are proved, one for each way in which actions are put together.

## Main definitions

* `Fault.IsDangling`: the fault is about a number in the unit that names nothing.
* `LowerM.Ensures`: an action ends in a state with a property, or in such a fault.

## Main statements

* `LowerM.Ensures.bind`, `LowerM.ensures_forM`: actions one after the other.
* `LowerM.ensures_expr`, `LowerM.ensures_stmt`: looking up a node.
-/

namespace MiddleEnd

/-- The fault is about a number in the unit that names nothing, or about nodes without end. -/
def Fault.IsDangling : Fault → Prop
  | missingName _ | missingType _ | missingExpr _ | missingStmt _ | endlessNesting => True
  | _ => False

/-- Requiring an entry stops with the fault it is told. -/
theorem isDangling_of_require {α : Type} {o : Option α} {fault fault' : Fault}
    (h : require fault o = .error fault') (hfault : fault.IsDangling) : fault'.IsDangling := by
  cases o with
  | none =>
    rw [require_none] at h
    cases h
    exact hfault
  | some a =>
    rw [require_some] at h
    cases h

namespace LowerM

variable {α β : Type}

/-- From the state `s` the action succeeds with a result and a state that satisfy `Q`, or it stops
because of what the unit refers to. -/
def Ensures (act : LowerM α) (s : Lowering) (Q : α → Lowering → Prop) : Prop :=
  match act s with
  | .ok (a, s') => Q a s'
  | .error fault => fault.IsDangling

theorem ensures_of_eq {act : LowerM α} {s t : Lowering} {a : α} {Q : α → Lowering → Prop}
    (heq : act s = .ok (a, t)) (hQ : Q a t) : act.Ensures s Q := by
  rw [Ensures, heq]
  exact hQ

theorem Ensures.mono {act : LowerM α} {s : Lowering} {P Q : α → Lowering → Prop}
    (h : act.Ensures s P) (hPQ : ∀ a s', P a s' → Q a s') : act.Ensures s Q := by
  unfold Ensures at h ⊢
  split
  · rename_i heq
    rw [heq] at h
    exact hPQ _ _ h
  · rename_i heq
    rw [heq] at h
    exact h

theorem Ensures.bind {act : LowerM α} {next : α → LowerM β} {s : Lowering}
    {P : α → Lowering → Prop} {Q : β → Lowering → Prop} (h : act.Ensures s P)
    (hnext : ∀ a s', P a s' → (next a).Ensures s' Q) : (act >>= next).Ensures s Q := by
  unfold Ensures at h
  have hbind : (act >>= next) s = (act s).bind fun p => next p.1 p.2 := rfl
  rw [Ensures, hbind]
  cases hact : act s with
  | ok p =>
    obtain ⟨a, s'⟩ := p
    rw [hact] at h
    exact hnext a s' h
  | error fault =>
    rw [hact] at h
    exact h

theorem ensures_pure {a : α} {s : Lowering} {Q : α → Lowering → Prop} (h : Q a s) :
    (pure a : LowerM α).Ensures s Q := h

theorem ensures_bind_of_eq {act : LowerM α} {next : α → LowerM β} {s t : Lowering} {a : α}
    {Q : β → Lowering → Prop} (heq : act s = .ok (a, t)) (h : (next a).Ensures t Q) :
    (act >>= next).Ensures s Q :=
  Ensures.bind (P := fun b s' => b = a ∧ s' = t) (ensures_of_eq heq ⟨rfl, rfl⟩) (by
    rintro _ _ ⟨rfl, rfl⟩
    exact h)

theorem ensures_get_bind {next : Lowering → LowerM β} {s : Lowering} {Q : β → Lowering → Prop}
    (h : (next s).Ensures s Q) : (get >>= next).Ensures s Q := h

theorem ensures_modify_bind {g : Lowering → Lowering} {next : PUnit → LowerM β} {s : Lowering}
    {Q : β → Lowering → Prop} (h : (next ⟨⟩).Ensures (g s) Q) : (modify g >>= next).Ensures s Q := h

/-- An action between two changes of the state. -/
theorem ensures_between {enter leave : Lowering → Lowering} {act : LowerM α} {s : Lowering}
    {Q : α → Lowering → Prop} (h : act.Ensures (enter s) fun a s' => Q a (leave s')) :
    (between enter leave act).Ensures s Q :=
  ensures_modify_bind (h.bind fun _ _ hQ => ensures_modify_bind (ensures_pure hQ))

/-- Looking something up in the unit leaves the state alone. -/
theorem ensures_lift {x : Except Fault α} {s : Lowering} {Q : α → Lowering → Prop}
    (hok : ∀ a, x = .ok a → Q a s) (herror : ∀ fault, x = .error fault → fault.IsDangling) :
    (liftM x : LowerM α).Ensures s Q := by
  cases x with
  | ok a => exact hok a rfl
  | error fault => exact herror fault rfl

theorem ensures_expr {unit : SourceUnit} {id : ExprId} {s : Lowering} {Q : Expr → Lowering → Prop}
    (h : ∀ node, unit.expr id = .ok node → Q node s) :
    (liftM (unit.expr id) : LowerM Expr).Ensures s Q :=
  ensures_lift h fun _ herror => isDangling_of_require herror trivial

theorem ensures_stmt {unit : SourceUnit} {id : StmtId} {s : Lowering} {Q : Stmt → Lowering → Prop}
    (h : ∀ node, unit.stmt id = .ok node → Q node s) :
    (liftM (unit.stmt id) : LowerM Stmt).Ensures s Q :=
  ensures_lift h fun _ herror => isDangling_of_require herror trivial

/-- Actions for the elements of a list, each of which keeps an invariant. -/
theorem ensures_forM {act : α → LowerM PUnit} {xs : List α} {s : Lowering} {P : Lowering → Prop}
    (hstep : ∀ a ∈ xs, ∀ s, P s → (act a).Ensures s fun _ s' => P s') (hs : P s) :
    (xs.forM act).Ensures s fun _ s' => P s' := by
  induction xs generalizing s with
  | nil => exact ensures_pure hs
  | cons a xs ih =>
    change (act a >>= fun _ => xs.forM act).Ensures s fun _ s' => P s'
    exact (hstep a List.mem_cons_self s hs).bind fun _ s' hs' =>
      ih (fun b hb => hstep b (List.mem_cons_of_mem _ hb)) hs'

end LowerM

end MiddleEnd
