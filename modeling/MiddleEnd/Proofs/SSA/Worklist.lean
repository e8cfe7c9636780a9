import MiddleEnd.Proofs.IR.Numbered
import MiddleEnd.Proofs.SSA.Placement
import MiddleEnd.Proofs.SSA.Versions
import Mathlib.Algebra.Order.Ring.Nat

/-!
# The worklist of phi placement

The worklist of a variable starts with the blocks that write it. When a block is taken off, each block of its
frontier gets a phi if it has none, and with its phi it comes onto the worklist, unless it was there before. So
only joins get phis, and when the worklist is empty all of them have one, in whatever order the blocks were
taken off.

## Main definitions

* `Placing.Sound`: what holds of the work for one variable at every moment.
* `Placing.Advances`: what the work does not undo.
* `Placing.Covered`: the frontiers that were looked at have phis.

## Main statements

* `Function.exists_defBlocks`: the blocks listed for a variable are those that write its register.
* `Placing.Sound.placeAt`, `Placing.Sound.visit`: what the work for one join and for one block keeps.
* `Placing.Sound.drain`: when the worklist is empty, the joins of the variable have phis.
* `Function.insertPhis_eq`: the phis are placed, and nothing else changes.
-/

namespace MiddleEnd

-- ════════════════════════════════════════════════════════════════════════
-- Counting members
-- ════════════════════════════════════════════════════════════════════════

namespace IndexSet

theorem nodup_toList (s : IndexSet) : s.toList.Nodup := List.nodup_range.filter _

@[simp]
theorem card_empty : (∅ : IndexSet).card = 0 := by decide

/-- A new member counts once. -/
theorem card_insert {s : IndexSet} {i : Nat} (hi : i ∉ s) : (s.insert i).card = s.card + 1 := by
  have hperm : (s.insert i).toList.Perm (i :: s.toList) := by
    refine (List.perm_ext_iff_of_nodup (nodup_toList _) ?_).mpr fun j => by simp
    exact List.nodup_cons.mpr ⟨by simpa using hi, s.nodup_toList⟩
  rw [card, hperm.length_eq, List.length_cons, card]

end IndexSet

-- ════════════════════════════════════════════════════════════════════════
-- The blocks that write a variable
-- ════════════════════════════════════════════════════════════════════════

namespace Function

section Collecting

variable (owners : Array (Option VarId)) (table : Array (List BlockId))

@[simp]
theorem size_noteWrite (b : BlockId) (i : Instr) : (noteWrite owners b table i).size = table.size := by
  unfold noteWrite
  split <;> simp

theorem size_foldl_noteWrite (b : BlockId) (instrs : List Instr) :
    (instrs.foldl (noteWrite owners b) table).size = table.size := by
  induction instrs generalizing table with
  | nil => rfl
  | cons i instrs ih => rw [List.foldl_cons, ih, size_noteWrite]

variable {owners table} {v : VarId}

theorem getD_modify (hv : v < table.size) (u : VarId) (change : List BlockId → List BlockId) :
    (table.modify u change).getD v [] =
      if u = v then change (table.getD v []) else table.getD v [] := by
  simp only [Array.getD_eq_getD_getElem?, Array.getElem?_modify, Array.getElem?_eq_getElem hv]
  split <;> rfl

/-- An instruction lists its block for the variable that it writes. -/
theorem mem_noteWrite (hv : v < table.size) {b c : BlockId} {i : Instr} :
    c ∈ (noteWrite owners b table i).getD v [] ↔
      c ∈ table.getD v [] ∨ c = b ∧ i.dst.owner? owners = some v := by
  unfold noteWrite
  cases howner : i.dst.owner? owners with
  | none => simp
  | some u =>
    dsimp only
    rw [getD_modify hv, Option.some.injEq]
    by_cases huv : u = v
    · rw [if_pos huv]
      by_cases hb : b ∈ table.getD v []
      · rw [if_pos hb]
        exact ⟨.inl, fun h => h.elim (fun hc => hc) fun hc => hc.1 ▸ hb⟩
      · rw [if_neg hb, List.mem_append, List.mem_singleton]
        exact or_congr_right (and_iff_left huv).symm
    · simp [huv]

/-- A block is listed for the variables that its instructions write. -/
theorem mem_foldl_noteWrite (hv : v < table.size) {b c : BlockId} {instrs : List Instr} :
    c ∈ (instrs.foldl (noteWrite owners b) table).getD v [] ↔
      c ∈ table.getD v [] ∨ c = b ∧ ∃ i ∈ instrs, i.dst.owner? owners = some v := by
  induction instrs generalizing table with
  | nil => simp
  | cons i instrs ih =>
    rw [List.foldl_cons, ih (by rwa [size_noteWrite]), mem_noteWrite hv]
    simp only [List.mem_cons, exists_eq_or_imp, and_or_left, or_assoc]

/-- All blocks are listed for the variables that their instructions write. -/
theorem mem_foldl_blocks (hv : v < table.size) {c : BlockId} {blocks : List Block} :
    c ∈ (blocks.foldl (fun table block => block.instrs.foldl (noteWrite owners block.id) table)
        table).getD v [] ↔
      c ∈ table.getD v [] ∨ ∃ block ∈ blocks, c = block.id ∧
        ∃ i ∈ block.instrs, i.dst.owner? owners = some v := by
  induction blocks generalizing table with
  | nil => simp
  | cons block blocks ih =>
    rw [List.foldl_cons, ih (by rwa [size_foldl_noteWrite]), mem_foldl_noteWrite hv]
    simp only [List.mem_cons, exists_eq_or_imp, or_assoc]

theorem size_foldl_blocks (blocks : List Block) :
    (blocks.foldl (fun table block => block.instrs.foldl (noteWrite owners block.id) table)
      table).size = table.size := by
  induction blocks generalizing table with
  | nil => rfl
  | cons block blocks ih => rw [List.foldl_cons, ih, size_foldl_noteWrite]

end Collecting

variable {f : Function}

/-- The blocks that are listed for a variable are those that write its register. -/
theorem exists_defBlocks (hnumbered : f.Numbered) (hvars : f.VarsApart) :
    ∃ table, f.defBlocks = .ok table ∧ table.size = f.vars.length ∧
      ∀ (v : VarId) (var : Variable), f.vars[v]? = some var →
        ∀ b, b ∈ table.getD v [] ↔ f.Writes b var.reg := by
  refine ⟨_, bind_eq_ok.mpr ⟨f.owners, varOfReg_eq hvars.lt, rfl⟩, ?_, fun v var hvar b => ?_⟩
  · rw [size_foldl_blocks, Array.size_replicate]
  have hv : v < (Array.replicate f.vars.length ([] : List BlockId)).size := by
    rw [Array.size_replicate]
    exact (List.getElem?_eq_some_iff.mp hvar).1
  have hnone : b ∉ (Array.replicate f.vars.length ([] : List BlockId)).getD v [] := by
    rw [Array.size_replicate] at hv
    simp [Array.getD, hv]
  -- With registers of their own, the owner of a register is the variable that has it.
  have howner : ∀ i : Instr, i.dst.owner? f.owners = some v ↔ i.def? = some var.reg := by
    intro i
    rw [owner?_eq_some_iff hvars, Instr.def?]
    constructor
    · rintro ⟨var', ty, hvar', hdst⟩
      obtain rfl := Option.some.inj (hvar'.symm.trans hvar)
      rw [hdst]
      rfl
    · intro hreg
      cases hdst : i.dst with
      | reg r ty =>
        rw [hdst] at hreg
        obtain rfl : r = var.reg := Option.some.inj hreg
        exact ⟨var, ty, hvar, rfl⟩
      | _ => rw [hdst] at hreg; cases hreg
  rw [mem_foldl_blocks hv]
  simp only [hnone, false_or, howner]
  constructor
  · rintro ⟨block, hblock, rfl, i, hi, hdef⟩
    exact ⟨block, hnumbered.getElem?_id hblock, List.mem_filterMap.mpr ⟨i, hi, hdef⟩⟩
  · rintro ⟨block, hblock, hr⟩
    obtain ⟨i, hi, hdef⟩ := List.mem_filterMap.mp hr
    exact ⟨block, Array.mem_toList_iff.mpr (Array.mem_iff_getElem?.mpr ⟨b, hblock⟩),
      (hnumbered b block hblock).symm, i, hi, hdef⟩

-- ════════════════════════════════════════════════════════════════════════
-- One more phi
-- ════════════════════════════════════════════════════════════════════════

/-- The given phis, and in front of them one for a variable in each block of a set. -/
def addPhis (f : Function) (phis : BlockId → List Instr) (v : VarId) (var : Variable) (s : IndexSet)
    (b : BlockId) : List Instr :=
  if b ∈ s then emptyPhi v var (f.preds b) :: phis b else phis b

/-- A phi that is put in front of the others of its block. -/
theorem setBlock_withPhis (phis : BlockId → List Instr) (v : VarId) (var : Variable) {s : IndexSet}
    {j : BlockId} {block : Block} (hblock : f.blocks[j]? = some block) (hj : j ∉ s) :
    (f.withPhis (f.addPhis phis v var s)).setBlock j
        (({ block with instrs := f.addPhis phis v var s j ++ block.instrs } : Block).prepend
          (emptyPhi v var block.preds)) =
      f.withPhis (f.addPhis phis v var (s.insert j)) := by
  have hblocks : ((f.withPhis (f.addPhis phis v var s)).setBlock j
      (({ block with instrs := f.addPhis phis v var s j ++ block.instrs } : Block).prepend
        (emptyPhi v var block.preds))).blocks =
      (f.withPhis (f.addPhis phis v var (s.insert j))).blocks := by
    refine Array.ext_getElem? fun b => ?_
    rw [setBlock, modifyBlock, Array.getElem?_modify, getElem?_withPhis, getElem?_withPhis]
    by_cases hb : j = b
    · subst hb
      simp [hblock, addPhis, hj, Block.prepend, preds]
    · have hmem : b ∈ s.insert j ↔ b ∈ s := by simp [Ne.symm hb]
      simp [hb, addPhis, hmem]
  simp only [setBlock, modifyBlock, withPhis] at hblocks ⊢
  rw [hblocks]

end Function

-- ════════════════════════════════════════════════════════════════════════
-- The work for one variable
-- ════════════════════════════════════════════════════════════════════════

namespace Placing

variable {f : Function} {phis : BlockId → List Instr} {count : Nat} {v : VarId} {var : Variable}

/-- What holds of the work for the variable `v` at every moment, when `phis` and `count` are the phis that
were placed before: only joins get a phi, one each, and the blocks that were ever on the worklist are those
that write the variable and those that have a phi for it. -/
structure Sound (f : Function) (phis : BlockId → List Instr) (count : Nat) (v : VarId) (var : Variable)
    (s : Placing) : Prop where
  fn_eq : s.fn = f.withPhis (f.addPhis phis v var s.hasPhi)
  inserted_eq : s.inserted = count + s.hasPhi.card
  joins : ∀ b ∈ s.hasPhi, b ∈ f.joinsOf var
  listed_iff : ∀ b, b ∈ s.listed ↔ f.Writes b var.reg ∨ b ∈ s.hasPhi
  worklist : ∀ b ∈ s.worklist, b ∈ s.listed

/-- What the work does not undo: phis stay, no block leaves the worklist, and a block is listed only when it
comes onto the worklist. -/
structure Advances (s t : Placing) : Prop where
  hasPhi : ∀ b ∈ s.hasPhi, b ∈ t.hasPhi
  worklist : ∀ b ∈ s.worklist, b ∈ t.worklist
  listed : ∀ b ∈ t.listed, b ∈ s.listed ∨ b ∈ t.worklist

/-- Each block that was ever on the worklist is still there, or all of its frontier has phis. -/
def Covered (f : Function) (s : Placing) : Prop :=
  ∀ b ∈ s.listed, b ∈ s.worklist ∨ ∀ j ∈ f.frontier b, j ∈ s.hasPhi

namespace Advances

theorem refl (s : Placing) : s.Advances s := ⟨fun _ h => h, fun _ h => h, fun _ => .inl⟩

theorem trans {s t u : Placing} (h : s.Advances t) (h' : t.Advances u) : s.Advances u where
  hasPhi b hb := h'.hasPhi b (h.hasPhi b hb)
  worklist b hb := h'.worklist b (h.worklist b hb)
  listed b hb := (h'.listed b hb).elim (fun hb => (h.listed b hb).imp_right (h'.worklist b)) .inr

end Advances

namespace Sound

variable {s : Placing}

theorem getElem?_fn (h : s.Sound f phis count v var) (b : BlockId) : s.fn.blocks[b]? =
    f.blocks[b]?.map fun block =>
      { block with instrs := f.addPhis phis v var s.hasPhi b ++ block.instrs } := by
  rw [h.fn_eq, Function.getElem?_withPhis]

theorem frontier_eq (h : s.Sound f phis count v var) {b : BlockId} {block : Block}
    (hb : s.fn.blocks[b]? = some block) : block.frontier = f.frontier b := by
  rw [h.getElem?_fn] at hb
  obtain ⟨old, hold, rfl⟩ := Option.map_eq_some_iff.mp hb
  simp [Function.frontier, hold]

/-- The blocks that were ever on the worklist exist. -/
theorem lt_of_listed (h : s.Sound f phis count v var) {b : BlockId} (hb : b ∈ s.listed) :
    b < f.blockCount := by
  rcases (h.listed_iff b).mp hb with hwrites | hphi
  · exact hwrites.lt_blockCount
  · exact (Function.mem_joinsOf.mp (h.joins b hphi)).1

/-- Placing a phi in a join: afterwards it has one. -/
theorem placeAt (h : s.Sound f phis count v var) (hvar : f.vars[v]? = some var) {j : BlockId}
    (hj : j ∈ f.joinsOf var) : ∃ t, Placing.placeAt v s j = .ok t ∧ t.Sound f phis count v var ∧
      s.Advances t ∧ j ∈ t.hasPhi := by
  obtain ⟨block, hblock⟩ := Function.exists_getElem?_blocks (Function.mem_joinsOf.mp hj).1
  have hfn : s.fn.block j =
      .ok { block with instrs := f.addPhis phis v var s.hasPhi j ++ block.instrs } := by
    rw [Function.block, require_eq_ok_iff, h.getElem?_fn, hblock]
    rfl
  have hvarAt : s.fn.var v = .ok var := by
    rw [Function.var, require_eq_ok_iff, h.fn_eq]
    exact hvar
  unfold Placing.placeAt
  rw [hfn, ok_bind]
  by_cases hphi : j ∈ s.hasPhi
  · rw [if_pos hphi]
    exact ⟨s, rfl, h, .refl s, hphi⟩
  rw [if_neg hphi, hvarAt, ok_bind]
  -- With its phi, the join belongs to the blocks that were ever on the worklist, whether it was there or not.
  have hfn' := h.fn_eq ▸ Function.setBlock_withPhis phis v var hblock hphi
  have hinserted : s.inserted + 1 = count + (s.hasPhi.insert j).card := by
    rw [IndexSet.card_insert hphi, h.inserted_eq, Nat.add_assoc]
  have hjoins : ∀ b ∈ s.hasPhi.insert j, b ∈ f.joinsOf var := by
    intro b hb
    rcases IndexSet.mem_insert.mp hb with rfl | hb
    · exact hj
    · exact h.joins b hb
  have hgrow : ∀ b ∈ s.hasPhi, b ∈ s.hasPhi.insert j := fun b hb => IndexSet.mem_insert.mpr (.inr hb)
  have hin : j ∈ s.hasPhi.insert j := IndexSet.mem_insert.mpr (.inl rfl)
  by_cases hlisted : j ∈ s.listed
  · rw [if_pos hlisted]
    refine ⟨_, rfl, ⟨hfn', hinserted, hjoins, fun b => ?_, h.worklist⟩,
      ⟨hgrow, fun _ hb => hb, fun _ => .inl⟩, hin⟩
    rw [IndexSet.mem_insert, or_left_comm, ← h.listed_iff]
    exact ⟨.inr, fun hb => hb.elim (fun hbj => hbj ▸ hlisted) fun hb => hb⟩
  · rw [if_neg hlisted]
    refine ⟨_, rfl, ⟨hfn', hinserted, hjoins, fun b => ?_, fun b hb => ?_⟩,
      ⟨hgrow, fun b hb => List.mem_cons_of_mem j hb, fun b hb => ?_⟩, hin⟩
    · rw [IndexSet.mem_insert, IndexSet.mem_insert, or_left_comm, ← h.listed_iff]
    · rcases List.mem_cons.mp hb with rfl | hb
      · exact IndexSet.mem_insert.mpr (.inl rfl)
      · exact IndexSet.mem_insert.mpr (.inr (h.worklist b hb))
    · rcases IndexSet.mem_insert.mp hb with rfl | hb
      · exact .inr List.mem_cons_self
      · exact .inl hb

/-- Looking at a block that was on the worklist: afterwards all of its frontier has phis. -/
theorem visit (h : s.Sound f phis count v var) (hvar : f.vars[v]? = some var)
    (hfrontier : ∀ b, ∀ j ∈ f.frontier b, j < f.blockCount) {b : BlockId} (hb : b ∈ s.listed) :
    ∃ t, Placing.visit v s b = .ok t ∧ t.Sound f phis count v var ∧ s.Advances t ∧
      ∀ j ∈ f.frontier b, j ∈ t.hasPhi := by
  have hlt : b < s.fn.blockCount := by
    rw [h.fn_eq, Function.blockCount_withPhis]
    exact h.lt_of_listed hb
  obtain ⟨block, hblock⟩ := Function.exists_getElem?_blocks hlt
  have hjoin : ∀ j ∈ f.frontier b, j ∈ f.joinsOf var := fun j hj =>
    f.joinsOf_closed var (((h.listed_iff b).mp hb).imp_right (h.joins b)) hj (hfrontier b j hj)
  obtain ⟨t, ht, hsound, hadvances, hall⟩ := foldlM_induction (Placing.placeAt v)
    (fun pre t => t.Sound f phis count v var ∧ s.Advances t ∧ ∀ j ∈ pre, j ∈ t.hasPhi)
    (f.frontier b) s ⟨h, .refl s, by simp⟩ fun pre j post t hsplit ⟨hsound, hadvances, hpre⟩ => by
      obtain ⟨u, hu, hsound', hadvances', hj⟩ := hsound.placeAt hvar (hjoin j (by simp [hsplit]))
      refine ⟨u, hu, hsound', hadvances.trans hadvances', fun k hk => ?_⟩
      rcases List.mem_append.mp hk with hk | hk
      · exact hadvances'.hasPhi k (hpre k hk)
      · exact List.mem_singleton.mp hk ▸ hj
  refine ⟨t, bind_eq_ok.mpr ⟨block, require_eq_ok_iff.mpr hblock, ?_⟩, hsound, hadvances, hall⟩
  rw [h.frontier_eq hblock, ht]

/-- What is left when a block is taken off the worklist. -/
theorem pop (h : s.Sound f phis count v var) {b : BlockId} {rest : List BlockId}
    (hlist : s.worklist = b :: rest) : ({ s with worklist := rest } : Placing).Sound f phis count v var :=
  ⟨h.fn_eq, h.inserted_eq, h.joins, h.listed_iff, fun c hc =>
    h.worklist c (hlist ▸ List.mem_cons_of_mem b hc)⟩

/-- If all frontiers that were looked at have phis and none is left to be looked at, the joins of the variable
are the blocks that have a phi for it. -/
theorem hasPhi_eq (h : s.Sound f phis count v var) (hcovered : s.Covered f) (hnil : s.worklist = []) :
    s.hasPhi = f.joinsOf var := by
  have hclosed : ∀ b ∈ s.listed, ∀ j ∈ f.frontier b, j ∈ s.hasPhi := fun b hb =>
    (hcovered b hb).resolve_left (by simp [hnil])
  have hall : ∀ j, f.InIteratedFrontier var.reg j → j ∈ s.hasPhi := by
    intro j hj
    induction hj with
    | of_writes hwrites hj => exact hclosed _ ((h.listed_iff _).mpr (.inl hwrites)) _ hj
    | of_mem _ hj ih => exact hclosed _ ((h.listed_iff _).mpr (.inr ih)) _ hj
  exact IndexSet.ext fun j => ⟨h.joins j, fun hj => hall j (Function.mem_joinsOf.mp hj).2⟩

/-- The work for one variable ends, and then the joins of the variable have phis. -/
theorem drain (h : s.Sound f phis count v var) (hvar : f.vars[v]? = some var)
    (hfrontier : ∀ b, ∀ j ∈ f.frontier b, j < f.blockCount) (hcovered : s.Covered f) :
    ∃ t, Placing.drain v s = .ok t ∧ t.Sound f phis count v var ∧ t.hasPhi = f.joinsOf var := by
  fun_induction Placing.drain v s with
  | case1 s hnil => exact ⟨s, rfl, h, h.hasPhi_eq hcovered hnil⟩
  | case2 s b rest hlist e hvisit =>
    obtain ⟨t, ht, _⟩ := (h.pop hlist).visit hvar hfrontier
      (h.worklist b (hlist ▸ List.mem_cons_self))
    rw [hvisit] at ht
    cases ht
  | case3 s b rest hlist t hvisit ih =>
    obtain ⟨t', ht, hsound, hadvances, hlooked⟩ := (h.pop hlist).visit hvar hfrontier
      (h.worklist b (hlist ▸ List.mem_cons_self))
    obtain rfl := Except.ok.inj (hvisit.symm.trans ht)
    refine ih hsound fun c hc => ?_
    rcases hadvances.listed c hc with hc | hc
    · rcases hcovered c hc with hwait | hphis
      · rcases List.mem_cons.mp (hlist ▸ hwait) with rfl | hwait
        · exact .inr hlooked
        · exact .inl (hadvances.worklist c hwait)
      · exact .inr fun j hj => hadvances.hasPhi j (hphis j hj)
    · exact .inl hc

end Sound

end Placing

-- ════════════════════════════════════════════════════════════════════════
-- All variables
-- ════════════════════════════════════════════════════════════════════════

namespace Function

variable {f : Function}

/-- The phis for one more variable. -/
theorem phisFor_append (f : Function) (vars : List (Variable × VarId)) (var : Variable) (v : VarId) :
    f.phisFor (vars ++ [(var, v)]) = f.addPhis (f.phisFor vars) v var (f.joinsOf var) := by
  funext b
  by_cases hb : b ∈ f.joinsOf var <;> simp [phisFor, addPhis, hb]

/-- The function with the phis for the given variables, and how many these are. -/
noncomputable def placedFor (f : Function) (vars : List (Variable × VarId)) : Nat × Function :=
  ((vars.map fun entry => (f.joinsOf entry.1).card).sum, f.withPhis (f.phisFor vars))

theorem placedFor_nil (f : Function) : f.placedFor [] = (0, f) := by
  rw [placedFor, withPhis_of_nil f _ fun b => by simp [phisFor]]
  rfl

/-- Where no variable has a join, there is nothing to place. -/
theorem placedFor_of_quiet {vars : List (Variable × VarId)} (h : ∀ entry ∈ vars, f.joinsOf entry.1 = ∅) :
    f.placedFor vars = (0, f) := by
  have hphis : ∀ b, f.phisFor vars b = [] := by
    intro b
    have hnone : (vars.filter fun entry => b ∈ f.joinsOf entry.1) = [] :=
      List.filter_eq_nil_iff.mpr fun entry hentry => by simp [h entry hentry]
    rw [phisFor, hnone]
    rfl
  rw [placedFor, withPhis_of_nil f _ hphis,
    List.map_congr_left fun entry hentry => by rw [h entry hentry, IndexSet.card_empty]]
  simp

/-- The phis for one variable are placed, one for each of its joins. -/
theorem placePhis_eq (hfrontier : ∀ b, ∀ j ∈ f.frontier b, j < f.blockCount)
    (vars : List (Variable × VarId)) {v : VarId} {var : Variable} {defs : List BlockId}
    (hvar : f.vars[v]? = some var) (hdefs : ∀ b, b ∈ defs ↔ f.Writes b var.reg) :
    (f.placedFor vars).2.placePhis (f.placedFor vars).1 v defs =
      .ok (f.placedFor (vars ++ [(var, v)])) := by
  let s : Placing :=
    { fn := (f.placedFor vars).2
      inserted := (f.placedFor vars).1
      worklist := defs.reverse
      listed := .ofList defs }
  have hcheck : (f.placedFor vars).2.checkBlocks defs = .ok () :=
    checkBlocks_eq_ok_iff.mpr fun b hb => by
      rw [placedFor, blockCount_withPhis]
      exact ((hdefs b).mp hb).lt_blockCount
  have hnone : f.addPhis (f.phisFor vars) v var ∅ = f.phisFor vars := funext fun b => if_neg (by simp)
  have hsound : s.Sound f (f.phisFor vars) (f.placedFor vars).1 v var :=
    { fn_eq := congrArg f.withPhis hnone.symm
      inserted_eq := by simp [s]
      joins := by simp [s]
      listed_iff := by simp [s, hdefs]
      worklist := by simp [s] }
  have hcovered : s.Covered f := fun b hb => .inl (by simpa [s] using hb)
  obtain ⟨t, ht, hend, hphis⟩ := hsound.drain hvar hfrontier hcovered
  refine bind_eq_ok.mpr ⟨(), hcheck, bind_eq_ok.mpr ⟨t, ht, ?_⟩⟩
  rw [hend.inserted_eq, hend.fn_eq, hphis, ← phisFor_append]
  simp [placedFor, pure, Except.pure]

/-- The phis of all variables are placed, one for each join, and nothing else changes. -/
theorem insertPhis_eq (hnumbered : f.Numbered) (hvars : f.VarsApart)
    (hfrontier : ∀ b, ∀ j ∈ f.frontier b, j < f.blockCount) :
    f.insertPhis = .ok (f.placedFor f.vars.zipIdx) := by
  unfold insertPhis
  split
  · rename_i hempty
    refine congrArg Except.ok (placedFor_of_quiet fun entry hentry => ?_).symm
    rcases Bool.or_eq_true_iff.mp hempty with hnil | hnil
    · rw [List.isEmpty_iff.mp hnil] at hentry
      cases hentry
    · have hcount : f.blockCount = 0 := by simpa [blockCount] using hnil
      exact IndexSet.ext fun b => by simp [mem_joinsOf, hcount]
  · obtain ⟨table, htable, hsize, hdefs⟩ := exists_defBlocks hnumbered hvars
    rw [htable, ok_bind]
    -- The variables before the current one have their phis.
    obtain ⟨_, hall, rfl⟩ := foldlM_induction
      (fun (acc : Nat × Function) (entry : List BlockId × VarId) =>
        acc.2.placePhis acc.1 entry.2 entry.1)
      (fun pre acc => acc = f.placedFor (f.vars.zipIdx.take pre.length)) table.toList.zipIdx (0, f)
      (f.placedFor_nil).symm fun pre entry post acc hsplit hacc => by
        obtain ⟨listed, v⟩ := entry
        have hentry : table.toList.zipIdx[pre.length]? = some (listed, v) := by simp [hsplit]
        simp only [List.getElem?_zipIdx, Nat.zero_add, Option.map_eq_some_iff, Prod.mk.injEq,
          Array.getElem?_toList] at hentry
        obtain ⟨defs, hlisted, rfl, rfl⟩ := hentry
        have hlt : pre.length < f.vars.length := hsize ▸ (Array.getElem?_eq_some_iff.mp hlisted).1
        have hvar : f.vars[pre.length]? = some f.vars[pre.length] := List.getElem?_eq_getElem hlt
        have hwrites : ∀ b, b ∈ defs ↔ f.Writes b f.vars[pre.length].reg := by
          intro b
          rw [← hdefs _ _ hvar, Array.getD_eq_getD_getElem?, hlisted]
          rfl
        have htake : f.vars.zipIdx.take (pre.length + 1) =
            f.vars.zipIdx.take pre.length ++ [(f.vars[pre.length], pre.length)] := by
          rw [List.take_add_one, List.getElem?_zipIdx, hvar]
          simp
        rw [hacc, List.length_append, List.length_singleton, htake]
        exact ⟨_, placePhis_eq hfrontier _ hvar hwrites, rfl⟩
    rw [List.take_of_length_le (by simp [hsize])] at hall
    exact hall

end Function

end MiddleEnd
