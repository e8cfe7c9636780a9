import MiddleEnd.Proofs.Lowering.Chains

/-!
# Blocks that nothing leads to

Code after a terminator goes into a block of its own. Lowering never makes a jump to such a block: it
jumps to blocks whose starts are settled, and these are the blocks that it has made for a purpose, and those
of labels.

## Main definitions

* `Lowering.IsDead`: the block was opened for code after a terminator.
* `Progress.Spared`: nothing leads to such a block, and none has a start that is settled.

## Main statements

* `Progress.Move.spared`, `Progress.Run.spared`: moves keep it so.
* `SourceUnit.enterable_lowerBody`: what a body leads to when it has been lowered.
-/

namespace MiddleEnd

open Lowering

-- ════════════════════════════════════════════════════════════════════════
-- Blocks that may be entered
-- ════════════════════════════════════════════════════════════════════════

namespace Lowering

/-- A block that was opened for code after a terminator. A label of the source may have the same text,
so the blocks of labels are left out. -/
def IsDead (s : Lowering) (b : BlockId) : Prop := s.fn.label? b = some "dead" ∧ b ∉ s.labelled

/-- A block that jumps may lead to. -/
def Enterable (s : Lowering) (t : BlockId) : Prop := t < s.fn.blockCount ∧ ¬ s.IsDead t

namespace Enterable

variable {s s' : Lowering} {t : BlockId}

theorem of_blocks (h : s.Enterable t) (hblocks : s'.fn.blocks = s.fn.blocks)
    (hlabels : s'.labelled = s.labelled) : s'.Enterable t := by
  rw [Enterable, IsDead, Function.blockCount, Function.label?, hblocks, hlabels]
  exact h

theorem pushed (h : s.Enterable t) (i : Instr) : (s.pushed i).Enterable t := by
  rw [Enterable, IsDead, Lowering.pushed, Function.blockCount_pushed, Function.label?_pushed]
  exact h

/-- A block that is there keeps its label when another is appended. -/
theorem grown (h : s.Enterable t) (label : String) : (s.grown label).Enterable t := by
  obtain ⟨hlt, hdead⟩ := h
  rw [Enterable, IsDead, Lowering.grown, Function.blockCount_grown, Function.label?_grown,
    if_neg (Nat.ne_of_lt hlt)]
  exact ⟨Nat.lt_succ_of_lt hlt, hdead⟩

/-- A block with a label of its own may be jumped to. -/
theorem grown_self {label : String} (hlabel : label ≠ "dead") : (s.grown label).Enterable s.fn.blockCount := by
  rw [Enterable, IsDead, Lowering.grown, Function.blockCount_grown, Function.label?_grown, if_pos rfl]
  exact ⟨Nat.lt_succ_self _, fun hdead => hlabel (Option.some.inj hdead.1)⟩

theorem withLabel (h : s.Enterable t) (label : String) (id : StmtId) (name : Name) :
    (s.withLabel label id name).Enterable t := by
  obtain ⟨hlt, hdead⟩ := h.grown label
  exact ⟨hlt, fun ⟨hlabel, hnew⟩ => hdead ⟨hlabel, fun hold => hnew (List.mem_cons_of_mem _ hold)⟩⟩

/-- The block of a label may be jumped to, whatever its text. -/
theorem withLabel_self (label : String) (id : StmtId) (name : Name) :
    (s.withLabel label id name).Enterable s.fn.blockCount := by
  refine ⟨?_, fun ⟨_, hmem⟩ => hmem List.mem_cons_self⟩
  rw [Lowering.withLabel, Lowering.grown, Function.blockCount_grown]
  exact Nat.lt_succ_self _

end Enterable

end Lowering

-- ════════════════════════════════════════════════════════════════════════
-- Moves
-- ════════════════════════════════════════════════════════════════════════

namespace Progress

variable {unit : SourceUnit} {p q : Progress}

/-- No jump leads to a block for code after a terminator, and none will: jumps are made to blocks whose starts
are settled. -/
structure Spared (p : Progress) : Prop where
  edges : ∀ b t, p.state.fn.LeadsTo b t → p.state.Enterable t
  starts : ∀ x ∈ p.starts, p.state.Enterable x.1

/-- What led nowhere else before leads nowhere else when no instruction is added. -/
theorem Spared.of_code {s s' : Lowering} {stack stack' : Option (List Operand)} {starts starts' : Starts}
    (hp : Spared ⟨s, stack, starts⟩) (hcode : s'.fn.code = s.fn.code)
    (henter : ∀ t, s.Enterable t → s'.Enterable t)
    (hstarts : ∀ x ∈ starts', x ∈ starts ∨ s'.Enterable x.1) : Spared ⟨s', stack', starts'⟩ := by
  refine ⟨fun b t hlead => henter t (hp.edges b t ?_), fun x hx => ?_⟩
  · rw [Function.LeadsTo, hcode] at hlead
    exact hlead
  · exact (hstarts x hx).elim (fun hx => henter _ (hp.starts x hx)) id

/-- A move makes no jump to a block for code after a terminator. -/
theorem Move.spared (h : Move unit p q) (hp : p.Spared) : q.Spared := by
  cases h with
  | @still s s' _ _ _ hblocks _ hlabels =>
    refine hp.of_code ?_ (fun t ht => ht.of_blocks hblocks hlabels) fun _ => .inl
    funext b
    rw [Function.code, Function.code, hblocks]
  | @grown s _ _ label waiting hlabel =>
    refine hp.of_code (funext (s.fn.code_grown label)) (fun t ht => ht.grown label) fun x hx => ?_
    obtain rfl | hx := List.mem_cons.mp hx
    · exact .inr (.grown_self hlabel)
    · exact .inl hx
  | @labelled s _ _ label id name =>
    refine hp.of_code (funext (s.fn.code_grown label)) (fun t ht => ht.withLabel label id name) fun x hx => ?_
    obtain rfl | hx := List.mem_cons.mp hx
    · exact .inr (.withLabel_self label id name)
    · exact .inl hx
  | @opened s _ => exact hp.of_code (funext (s.fn.code_grown "dead")) (fun t ht => ht.grown "dead") fun _ => .inl
  | @pushed s stack _ starts i _ _ _ _ heffect =>
    refine ⟨fun b t hlead => ?_, fun x hx => (hp.starts x hx).pushed i⟩
    obtain ⟨j, hj, ht⟩ := hlead
    obtain hj | ⟨_, rfl⟩ := s.fn.mem_code_pushed s.current i hj
    · exact (hp.edges b t ⟨j, hj, ht⟩).pushed i
    · exact (hp.starts _ (heffect.mem_starts ht)).pushed j
  | enter _ => exact hp.of_code rfl (fun _ => id) fun _ => .inl
  | closed _ => exact hp.of_code rfl (fun _ => id) fun _ => .inl
  | idle _ => exact hp.of_code rfl (fun _ => id) fun _ => .inl
  | forget hsub _ => exact hp.of_code rfl (fun _ => id) fun _ hx => .inl (hsub hx)

/-- Nor does a chain of moves. -/
theorem Run.spared (h : Run unit p q) (hp : p.Spared) : q.Spared := by
  induction h with
  | refl => exact hp
  | tail _ hmove ih => exact hmove.spared ih

end Progress

/-- When a body has been lowered from a state without instructions, nothing leads to a block for code after a
terminator. -/
theorem SourceUnit.enterable_lowerBody (unit : SourceUnit) {body : StmtId} {s s' : Lowering}
    (hs : s.Ready [] []) (hcode : ∀ b, s.fn.code b = []) (hok : unit.lowerBody body s = .ok ((), s'))
    {b t : BlockId} (hlead : s'.fn.LeadsTo b t) : s'.Enterable t := by
  refine ((unit.run_lowerBody hs hok).spared ⟨fun b t ⟨i, hi, _⟩ => ?_, nofun⟩).edges b t hlead
  rw [show s.fn.code b = [] from hcode b] at hi
  cases hi

end MiddleEnd
