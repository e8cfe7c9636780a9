import MiddleEnd.Proofs.Lowering.Unreached
import MiddleEnd.Proofs.Pipeline

/-!
# Lowered graphs

A lowered function is a graph of blocks. Each block carries its position as its number and ends in its only terminator, each edge is asked for
by a terminator and leads to a block, and nothing leads to the entry or to code after a terminator.

## Main definitions

* `Function.Shaped`: the blocks of a function and the edges between them are in order.

## Main statements

* `Function.Lowered.shaped`: so they are in a lowered function.
* `SourceUnit.enterable_finalState`: nothing leads to a block for code after a terminator.
* `SourceUnit.lowerFunction_shaped`: both, for every function that is lowered.
-/

namespace MiddleEnd

open LowerM Lowering

/-- The operations after which control leaves a block. -/
def Opcode.terminators : List Opcode := [.jump, .branch, .ret, .switch]

theorem Opcode.isTerminator_iff {op : Opcode} : op.isTerminator = true ↔ op ∈ terminators := by
  cases op <;> decide

/-- The blocks of a function and the edges between them are in order. -/
structure Function.Shaped (f : Function) : Prop where
  /-- The number that a block carries is its position. -/
  number : ∀ (b : BlockId) block, f.blocks[b]? = some block → block.id = b
  /-- A block ends in its only terminator. -/
  ends : ∀ b < f.blockCount, ∃ front last, f.code b = front ++ [last] ∧
    last.opcode ∈ Opcode.terminators ∧ ∀ i ∈ front, i.opcode ∉ Opcode.terminators
  /-- A terminator leads to blocks. -/
  targets : ∀ b, ∀ i ∈ f.code b, ∀ t ∈ i.targets, t < f.blockCount
  /-- The edges are those that the terminators ask for. -/
  succs : ∀ b t, t ∈ f.succs b ↔ ∃ last ∈ (f.code b).getLast?, t ∈ last.targets
  preds : ∀ b p, p ∈ f.preds b ↔ b ∈ f.succs p
  entry : f.entry < f.blockCount ∧ f.preds f.entry = []

theorem Function.Lowered.shaped {avail : Avail} {f : Function} (h : f.Lowered avail) : f.Shaped := by
  have hleads : ∀ b t, f.LeadsTo b t ↔ ∃ last ∈ (f.code b).getLast?, t ∈ last.targets := by
    intro b t
    constructor
    · rintro ⟨i, hi, ht⟩
      obtain ⟨front, last, hcode, _, hfront⟩ := h.ends b (lt_of_mem_code hi)
      rw [hcode] at hi ⊢
      obtain hi | hi := List.mem_append.mp hi
      · rw [targets_of_not_isTerminator (hfront i hi)] at ht
        cases ht
      · rw [List.mem_singleton.mp hi] at ht
        exact ⟨last, by simp, ht⟩
    · rintro ⟨last, hlast, ht⟩
      exact ⟨last, List.mem_of_getLast? hlast, ht⟩
  refine ⟨h.numbered, fun b hb => ?_, fun b i hi t ht => ?_, fun b t => ?_,
    fun b p => h.linked.mem_preds p b, ?_, h.runnable.preds_entry⟩
  · obtain ⟨front, last, hcode, hlast, hfront⟩ := h.ends b hb
    refine ⟨front, last, hcode, Opcode.isTerminator_iff.mp hlast, fun i hi hterm => ?_⟩
    have hnot := hfront i hi
    rw [Instr.isTerminator, Opcode.isTerminator_iff.mpr hterm] at hnot
    cases hnot
  · exact h.linked.succs_lt b t ((h.succs b t).mpr ⟨i, hi, ht⟩)
  · rw [h.succs, hleads]
  · rw [h.entry]
    exact h.nonempty

namespace Lowering

theorem label?_finished (s : Lowering) (b : BlockId) : s.finished.label? b = s.fn.label? b := by
  obtain ⟨t, _, heq⟩ := s.fn.closeBlocks.buildEdges_eq
  rw [Function.label?, finished, Function.getElem?_buildEdges heq, Function.closeBlocks,
    Function.mapBlocks, Array.getElem?_map, Function.label?]
  cases s.fn.blocks[b]? with
  | none => rfl
  | some block => cases h : block.isTerminated <;> simp [h, Block.alignPhis, Block.mapPhis]

/-- Nothing leads to a block for code after a terminator in the finished function either. -/
theorem Sound.preds_finished {avail : Avail} {s : Lowering} (h : s.Sound avail)
    (hspared : ∀ b t, s.fn.LeadsTo b t → s.Enterable t) {b : BlockId} (hdead : s.IsDead b) :
    s.finished.preds b = [] := by
  refine List.eq_nil_iff_forall_not_mem.mpr fun p hp => ?_
  rw [h.lowered.linked.mem_preds, h.lowered.succs, h.leadsTo_finished] at hp
  exact (hspared p b hp).2 hdead

end Lowering

namespace SourceUnit

/-- When a function has been lowered, nothing leads to a block for code after a terminator. -/
theorem enterable_finalState {unit : SourceUnit} {texts : Interner} {decl : FunctionDecl} {body : StmtId}
    {s : Lowering} (h : unit.finalState texts decl body = .ok s) {b t : BlockId} (hlead : s.fn.LeadsTo b t) :
    s.Enterable t := by
  obtain ⟨fn, henter, hrun⟩ := bind_eq_ok.mp h
  obtain ⟨⟨_, final⟩, hlower, hfinal⟩ := bind_eq_ok.mp hrun
  cases hfinal
  have hentered := unit.ensured_enterFunction decl texts decl.line
  rw [henter] at hentered
  exact unit.enterable_lowerBody ⟨hentered.1.vars.lt, nofun, nofun⟩ hentered.2 hlower hlead

/-- Lowering a function never appends to a block that ends in a terminator: it stops only because of what
the unit refers to, and not at all if the unit is well formed. In what it answers each block has a
terminator at its end and nowhere else and carries its position as its number, every target of a
terminator is a block and every edge leads to such a target. Nothing leads to the entry, nor to a block that
was opened for code after a terminator, which is one labelled `dead` that belongs to no label of the
source. -/
theorem lowerFunction_shaped (unit : SourceUnit) (texts : Interner) (decl : FunctionDecl)
    (body : StmtId) (hbody : decl.body = some body) :
    (∀ fault, unit.lowerFunction texts decl = .error fault →
      fault ≠ .afterTerminator ∧ fault.IsDangling) ∧
    (unit.WellFormed → .function decl ∈ unit.items →
      ∃ result, unit.lowerFunction texts decl = .ok result) ∧
    ∀ result texts', unit.lowerFunction texts decl = .ok (result, texts') →
      ∃ f s, result = some f ∧ f.Shaped ∧ unit.finalState texts decl body = .ok s ∧ f = s.finished ∧
        ∀ b, f.label? b = some "dead" → b ∉ s.labelled → f.preds b = [] := by
  refine ⟨fun fault hfault => ?_, fun hunit hitem => ?_, fun result texts' hok => ?_⟩
  · have hensured := unit.ensured_lowerFunction texts decl
    rw [hfault] at hensured
    refine ⟨?_, hensured⟩
    rintro rfl
    exact hensured
  · obtain ⟨f, texts', hlower, _⟩ := hunit.lowerFunction_eq (hunit.items _ hitem) texts
    exact ⟨_, hlower⟩
  · rw [unit.lowerFunction_of_body texts hbody] at hok
    obtain ⟨s, hfinal, hresult⟩ := bind_eq_ok.mp hok
    have hensured := unit.ensured_finalState texts decl body
    rw [hfinal] at hensured
    obtain ⟨avail, hsound⟩ := hensured
    cases hresult
    refine ⟨s.finished, s, rfl, hsound.lowered.shaped, hfinal, rfl, fun b hlabel hlabelled => ?_⟩
    rw [label?_finished] at hlabel
    exact hsound.preds_finished (fun _ _ => enterable_finalState hfinal) ⟨hlabel, hlabelled⟩

end SourceUnit

/-- A unit with the function `int stray() { return 0; 0; dead: goto dead; }`. -/
def strayUnit : SourceUnit where
  names := { texts := #["stray", "dead"] }
  exprs := #[{ kind := .int 0, ty := some TypeTable.int, line := 1 }]
  stmts := #[
    { kind := .ret (some 0), ty := none, line := 1 },
    { kind := .expr 0, ty := none, line := 2 },
    { kind := .label 1, ty := none, line := 3 },
    { kind := .goto 1, ty := none, line := 3 },
    { kind := .block [0, 1, 2, 3], ty := none, line := 1 }]

/-- The declaration of that function. -/
def strayDecl : FunctionDecl where
  name := 0
  returnType := TypeTable.int
  params := []
  body := some 4
  line := 1

/-- The block for the code after the return and that of the label have the same text. Nothing leads to
the former; the former and the latter lead to the latter. -/
theorem stray_shaped : ∃ f texts, strayUnit.lowerFunction {} strayDecl = .ok (some f, texts) ∧
    f.Shaped ∧ f.label? 2 = some "dead" ∧ f.preds 2 = [] ∧
      f.label? 1 = some "dead" ∧ f.preds 1 = [1, 2] := by
  have hlabels : ((strayUnit.lowerFunction {} strayDecl).toOption.bind (·.1)).map
      (fun f => (f.label? 2, f.label? 1, f.preds 1)) = some (some "dead", some "dead", [1, 2]) := by
    decide +kernel
  have hlabelled : (strayUnit.finalState {} strayDecl 4).toOption.map (·.labelled) = some [1] := by
    decide +kernel
  obtain ⟨f, hf, hlabels⟩ := Option.map_eq_some_iff.mp hlabels
  obtain ⟨texts, hlower⟩ := exists_of_toOption_bind hf
  obtain ⟨_, s, ⟨⟩, hshaped, hfinal, _, hdead⟩ :=
    (strayUnit.lowerFunction_shaped {} strayDecl 4 rfl).2.2 (some f) texts hlower
  obtain ⟨htwo, hone, hpreds⟩ : f.label? 2 = some "dead" ∧ f.label? 1 = some "dead" ∧
      f.preds 1 = [1, 2] := by simpa using hlabels
  rw [hfinal] at hlabelled
  have hmarked : s.labelled = [1] := Option.some.inj hlabelled
  exact ⟨f, texts, hlower, hshaped, htwo, hdead 2 htwo (by simp [hmarked]), hone, hpreds⟩

end MiddleEnd
