import MiddleEnd.Proofs.SSA.Walk
import MiddleEnd.Proofs.SSA.Worklist
import MiddleEnd.SSA.Construction

/-!
# Conversion into single assignment form

The four steps of the conversion succeed one after the other on every function whose edges agree and
whose variables have registers of their own.

## Main definitions

* `Function.Plain`: what a function has to be like before the conversion.
* `Conversion`: what the steps of a conversion find out.
* `Conversion.Succeeds`: the steps and what each of them answers.
* `Conversion.tree`, `Conversion.framed`, `Conversion.placed`: the function after each of the first
  three steps.

## Main statements

* `Function.Plain.exists_conversion`, `Function.constructSsa_eq`: the conversion succeeds.
* `Conversion.stack_of_quiet`: where nothing writes or joins a variable, its versions pass on.
-/

namespace MiddleEnd

namespace Function

/-- What a function has to be like before the conversion: its blocks carry their positions, its edges agree,
its variables have registers of their own, and no phi joins a variable yet. -/
structure Plain (f : Function) : Prop where
  numbered : f.Numbered
  linked : f.Linked
  entry_lt : f.entry < f.blockCount
  vars : f.VarsApart
  phis : ∀ (b : BlockId) block, f.blocks[b]? = some block → ∀ i ∈ block.instrs, i.phiVar? = none

end Function

-- ════════════════════════════════════════════════════════════════════════
-- The steps
-- ════════════════════════════════════════════════════════════════════════

/-- What the steps of a conversion find out: the immediate dominators, the order of the blocks, the
frontiers, and the versions at the start of each block. -/
structure Conversion (f : Function) where
  guesses : Guesses
  order : List BlockId
  table : BlockId → List BlockId
  start : BlockId → Versions

namespace Conversion

variable {f : Function}

/-- The function with its immediate dominators. -/
def tree (c : Conversion f) : Function := f.recordIdoms c.guesses

/-- The function with its frontiers. -/
def framed (c : Conversion f) : Function := c.tree.recordFrontiers c.table

/-- The function with its phis in place. -/
noncomputable def placed (c : Conversion f) : Function := c.framed.withPhis c.framed.joinPhis

/-- The versions in force at the end of a block. -/
noncomputable def fin (c : Conversion f) (b : BlockId) : Versions := c.placed.after b (c.start b)

/-- The variables that have a phi in a block, in the order of the phis. -/
noncomputable def joinVars (c : Conversion f) (b : BlockId) : List (Variable × VarId) :=
  (f.vars.zipIdx.filter fun entry => b ∈ c.framed.joinsOf entry.1).reverse

theorem linked_tree (c : Conversion f) (h : f.Linked) : c.tree.Linked := h.recordIdoms c.guesses

/-- What a conversion finds out is right, and leads to the function `g`. -/
structure Valid (c : Conversion f) (g : Function) : Prop where
  forest : c.tree.Forest c.order
  table : ∀ j x, j ∈ c.table x ↔ j < c.tree.blockCount ∧ c.tree.Joins j x
  renamed : c.placed.RenamedTo c.start g

theorem sameTree (c : Conversion f) : c.tree.SameTree c.placed where
  entry := rfl
  blockCount := by simp [placed, framed]
  succs := funext fun b => by simp [placed, framed]
  preds := funext fun b => by simp [placed, framed]
  id? := funext fun b => by simp [placed, framed]
  idom := funext fun b => by simp [placed, framed]

theorem blockCount_placed (c : Conversion f) : c.placed.blockCount = f.blockCount := by
  simp [placed, framed, tree]

theorem lt_placed (c : Conversion f) {b : BlockId} (hb : b < f.blockCount) : b < c.placed.blockCount := by
  rwa [c.blockCount_placed]

theorem succs_placed (c : Conversion f) (b : BlockId) : c.placed.succs b = f.succs b := by
  simp [placed, framed, tree]

theorem preds_placed (c : Conversion f) (b : BlockId) : c.placed.preds b = f.preds b := by
  simp [placed, framed, tree]

theorem joinPhis_eq (c : Conversion f) (b : BlockId) : c.framed.joinPhis b =
    (c.joinVars b).map fun entry => emptyPhi entry.2 entry.1 (f.preds b) := by
  have hpreds : c.framed.preds b = f.preds b := by simp [framed, tree]
  rw [Function.joinPhis, Function.phisFor, hpreds, joinVars, List.map_reverse]
  rfl

theorem mem_joinVars {c : Conversion f} {b : BlockId} {var : Variable} {v : VarId} :
    (var, v) ∈ c.joinVars b ↔ f.vars[v]? = some var ∧ b ∈ c.framed.joinsOf var := by
  simp [joinVars, List.mem_zipIdx_iff_getElem?]

/-- A block with its phis in place. -/
noncomputable def placedBlock (c : Conversion f) (b : BlockId) (block : Block) : Block :=
  { block with
    idom := c.guesses.get? b
    frontier := c.table b
    instrs := c.framed.joinPhis b ++ block.instrs }

theorem getElem?_placed (c : Conversion f) (b : BlockId) :
    c.placed.blocks[b]? = f.blocks[b]?.map (c.placedBlock b) := by
  rw [placed, Function.getElem?_withPhis, framed, Function.getElem?_recordFrontiers, tree,
    Function.getElem?_recordIdoms]
  cases f.blocks[b]? <;> rfl

theorem isPhi_of_mem_joinPhis {c : Conversion f} {b : BlockId} {i : Instr}
    (hi : i ∈ c.framed.joinPhis b) : i.isPhi = true := by
  rw [joinPhis_eq] at hi
  obtain ⟨entry, _, rfl⟩ := List.mem_map.mp hi
  rfl

@[simp]
theorem phis_placedBlock (c : Conversion f) (b : BlockId) (block : Block) :
    (c.placedBlock b block).phis = c.framed.joinPhis b ++ block.phis :=
  List.takeWhile_append_of_pos fun _ => isPhi_of_mem_joinPhis

@[simp]
theorem body_placedBlock (c : Conversion f) (b : BlockId) (block : Block) :
    (c.placedBlock b block).body = block.body :=
  List.dropWhile_append_of_pos fun _ => isPhi_of_mem_joinPhis

/-- The phis in place are what renaming expects. -/
theorem joined (c : Conversion f) (h : f.Plain) : c.placed.Joined where
  vars := ⟨h.vars.lt, h.vars.nodup⟩
  joins b block' hb phi hphi v hv := by
    rw [getElem?_placed] at hb
    obtain ⟨block, hblock, rfl⟩ := Option.map_eq_some_iff.mp hb
    rw [phis_placedBlock, List.mem_append] at hphi
    rcases hphi with hphi | hphi
    · rw [joinPhis_eq] at hphi
      obtain ⟨⟨var, u⟩, hmem, rfl⟩ := List.mem_map.mp hphi
      obtain rfl : u = v := by simpa [emptyPhi, Instr.phi, Instr.phiVar?] using hv
      have hargs : (emptyPhi u var (f.preds b)).phiArgs.map (·.pred) = f.preds b := by
        simp [emptyPhi, Instr.phi, Instr.phiArgs, List.map_map, Function.comp_def]
      refine ⟨(List.getElem?_eq_some_iff.mp (mem_joinVars.mp hmem).1).1, ⟨_, _, rfl⟩, ?_, ?_⟩
      · rw [hargs]
        exact h.linked.preds_nodup b
      · intro arg harg
        rw [preds_placed, ← hargs]
        exact List.mem_map.mpr ⟨arg, harg, rfl⟩
    · have hnone := h.phis b block hblock phi (List.takeWhile_subset _ hphi)
      rw [hnone] at hv
      cases hv

/-- A block that gets a version of a variable joins it or writes it. -/
theorem mem_versionedIn {c : Conversion f} (h : f.Plain) {b : BlockId} {v : VarId}
    (hv : v ∈ c.placed.versionedIn b) :
    ∃ var, f.vars[v]? = some var ∧ (b ∈ c.framed.joinsOf var ∨ c.tree.Writes b var.reg) := by
  rw [Function.versionedIn, getElem?_placed] at hv
  cases hb : f.blocks[b]? with
  | none => rw [hb] at hv; cases hv
  | some block =>
    rw [hb] at hv
    simp only [Option.map_some, Block.joinedVars, Block.writtenVars, phis_placedBlock,
      body_placedBlock, List.mem_append, List.mem_filterMap, List.filterMap_append] at hv
    rcases hv with (⟨phi, hphi, hv⟩ | ⟨phi, hphi, hv⟩) | ⟨i, hi, hv⟩
    · rw [joinPhis_eq] at hphi
      obtain ⟨⟨var, u⟩, hmem, rfl⟩ := List.mem_map.mp hphi
      obtain rfl : u = v := by simpa [emptyPhi, Instr.phi, Instr.phiVar?] using hv
      obtain ⟨hvar, hjoin⟩ := mem_joinVars.mp hmem
      exact ⟨var, hvar, .inl hjoin⟩
    · rw [h.phis b block hb phi (List.takeWhile_subset _ hphi)] at hv
      cases hv
    · obtain ⟨var, ty, hvar, hdst⟩ := (Function.owner?_eq_some_iff (f := c.placed)
        (c.joined h).vars).mp hv
      refine ⟨var, hvar, .inr ⟨{ block with idom := c.guesses.get? b }, ?_, ?_⟩⟩
      · rw [tree, Function.getElem?_recordIdoms, hb]
        rfl
      · exact List.mem_filterMap.mpr ⟨i, List.dropWhile_subset _ hi, by
          rw [Instr.def?, hdst]; rfl⟩

end Conversion

/-- The steps of a conversion succeed, where `t` is the tree that renaming walks over and `w` is the state at the
end of the walk. -/
structure Conversion.Succeeds {f : Function} (c : Conversion f) (t : DomTree) (w : Renamer) : Prop where
  dominators : f.withDominators = .ok c.tree
  frontiers : c.tree.withFrontiers = .ok c.framed
  phis : ∃ count, c.framed.insertPhis = .ok (count, c.placed)
  tree : DomTree.ofFunction c.placed = .ok t
  toured : c.placed.Toured c.order t
  renames : c.placed.renameVariables t = .ok w.fn
  walk : c.placed.WalksTo t c.start w

namespace Function

/-- The steps of the conversion of a plain function succeed. -/
theorem Plain.exists_conversion {f : Function} (h : f.Plain) :
    ∃ (c : Conversion f) (t : DomTree) (w : Renamer), c.Succeeds t w ∧ c.Valid w.fn := by
  obtain ⟨guesses, order, table, hdom, horder, hforest, hfront, _, htable⟩ :=
    h.linked.withFrontiers_forest h.entry_lt
  have hjoins : ∀ b, ∀ j ∈ ((f.recordIdoms guesses).recordFrontiers table).frontier b,
      j < ((f.recordIdoms guesses).recordFrontiers table).blockCount := by
    intro b j hj
    by_cases hb : b < (f.recordIdoms guesses).blockCount
    · rw [frontier_recordFrontiers _ _ _ hb, htable] at hj
      exact (blockCount_recordFrontiers _ table).symm ▸ hj.1
    · rw [frontier_of_le (by simpa using hb)] at hj
      cases hj
  let c₀ : Conversion f := ⟨guesses, order, table, fun _ => { nextReg := 0, versionStacks := #[] }⟩
  have hlinked := c₀.linked_tree h.linked
  have hentry : c₀.placed.entry < c₀.placed.blockCount := by
    rw [Conversion.blockCount_placed]
    exact h.entry_lt
  have horder' : c₀.placed.reversePostorder = .ok order :=
    (reversePostorder_congr h.linked h.entry_lt (c₀.sameTree.linked hlinked) rfl c₀.blockCount_placed
      (funext c₀.succs_placed)).trans horder
  obtain ⟨t, htree, htoured⟩ := (c₀.sameTree.forest hforest).ofFunction_toured
    (c₀.sameTree.linked hlinked) hentry horder'
  obtain ⟨w, start, hrename, hwalk⟩ := renameVariables_walksTo (c₀.joined h) htoured
  have hnumbered : c₀.framed.Numbered := h.numbered.congr fun b => by simp [Conversion.framed, Conversion.tree]
  exact ⟨⟨guesses, order, table, start⟩, t, w,
    ⟨hdom, hfront, ⟨_, insertPhis_eq hnumbered ⟨h.vars.lt, h.vars.nodup⟩ hjoins⟩, htree, htoured, hrename, hwalk⟩,
    hforest, htable, hwalk.renamed⟩

/-- The conversion of a plain function succeeds. -/
theorem constructSsa_eq {f : Function} (h : f.Plain) :
    ∃ (c : Conversion f) (g : Function), f.constructSsa = .ok { g with isSsa := true } ∧
      c.Valid g := by
  obtain ⟨c, t, w, hsucceeds, hvalid⟩ := h.exists_conversion
  obtain ⟨count, hphis⟩ := hsucceeds.phis
  refine ⟨c, w.fn, ?_, hvalid⟩
  have hne : f.blocks.isEmpty = false := by
    rw [Array.isEmpty_eq_false_iff_exists_mem]
    exact ⟨_, Array.getElem_mem h.entry_lt⟩
  rw [constructSsa, hne]
  refine bind_eq_ok.mpr ⟨_, hsucceeds.dominators, bind_eq_ok.mpr ⟨_, hsucceeds.frontiers,
    bind_eq_ok.mpr ⟨_, hphis, ?_⟩⟩⟩
  exact bind_eq_ok.mpr ⟨t, hsucceeds.tree, bind_eq_ok.mpr ⟨w.fn, hsucceeds.renames, rfl⟩⟩

end Function

namespace Conversion.Valid

variable {f g : Function} {c : Conversion f}

theorem name_eq (h : c.Valid g) : g.name = f.name := by
  rw [h.renamed.eq]
  rfl

theorem entry_eq (h : c.Valid g) : g.entry = f.entry := by
  rw [h.renamed.eq]
  rfl

theorem id?_eq (h : c.Valid g) (b : BlockId) : g.id? b = f.id? b := by
  rw [h.renamed.eq, Function.id?, Function.getElem?_assembled, getElem?_placed, Option.map_map, Option.map_map]
  rfl

theorem params_eq (h : c.Valid g) : g.params = f.params := by
  rw [h.renamed.eq]
  rfl

theorem vars_eq (h : c.Valid g) : g.vars = f.vars := by
  rw [h.renamed.eq]
  rfl

/-- The entry versions are chosen before the walk. -/
theorem paramVersions_eq (h : c.Valid g) : g.paramVersions = f.withEntryVersions.paramVersions := by
  rw [h.renamed.eq]
  rfl

/-- A variable that a block neither joins nor writes keeps its versions. -/
theorem stack_fin_of_quiet (hplain : f.Plain) {x : BlockId} {v : VarId} {var : Variable}
    (hvar : f.vars[v]? = some var) (hwrites : ¬ c.tree.Writes x var.reg)
    (hjoins : x ∉ c.framed.joinsOf var) : (c.fin x).stack v = (c.start x).stack v := by
  refine Versions.stack_pushAll_of_not_mem _ fun hmem => ?_
  obtain ⟨var', hvar', hor⟩ := mem_versionedIn hplain hmem
  obtain rfl := Option.some.inj (hvar.symm.trans hvar')
  rcases hor with hjoin | hwrite
  · exact hjoins hjoin
  · exact hwrites hwrite

/-- The versions at the start of a block are those at the end of its parent. -/
theorem stack_start_of_idom (h : c.Valid g) {b d : BlockId} (hd : c.tree.idom? b = some d)
    (v : VarId) : (c.start b).stack v = (c.fin d).stack v := by
  rw [← c.sameTree.idom] at hd
  rw [Versions.stack, h.renamed.child b d hd]
  rfl

/-- Where no block on the way up from `p` to `d` writes or joins a variable, its versions at the end of
both are the same. -/
theorem stack_of_quiet (h : c.Valid g) (hplain : f.Plain) {d p : BlockId}
    (habove : Above c.tree.idom? d p) {v : VarId} {var : Variable} (hvar : f.vars[v]? = some var)
    (hquiet : ∀ x, Above c.tree.idom? x p → ¬ Above c.tree.idom? x d →
      ¬ c.tree.Writes x var.reg ∧ x ∉ c.framed.joinsOf var) :
    (c.fin p).stack v = (c.fin d).stack v := by
  induction habove with
  | refl => rfl
  | @step p q hup hdq ih =>
    have hpd : ¬ Above c.tree.idom? p d := fun hpd =>
      h.forest.not_above_parent hup (hpd.trans hdq)
    obtain ⟨hwrites, hjoins⟩ := hquiet p .refl hpd
    rw [stack_fin_of_quiet hplain hvar hwrites hjoins, h.stack_start_of_idom hup]
    exact ih fun x hx => hquiet x (.step hup hx)

/-- At an edge into a block without a phi for a variable, the versions of the variable pass on. -/
theorem stack_start_of_edge (h : c.Valid g) (hplain : f.Plain) {p b : BlockId}
    (hp : f.Reachable p) (hedge : b ∈ f.succs p) (hne : b ≠ f.entry) {v : VarId} {var : Variable}
    (hvar : f.vars[v]? = some var) (hb : b ∉ c.framed.joinsOf var) :
    (c.start b).stack v = (c.fin p).stack v := by
  have hsuccs : ∀ b, c.tree.succs b = f.succs b := fun b => Function.succs_recordIdoms f c.guesses b
  have hp' : c.tree.Reachable p := Function.Reachable.congr (f := f) rfl (fun b => (hsuccs b).symm) hp
  have hedge' : b ∈ c.tree.succs p := by rw [hsuccs]; exact hedge
  obtain ⟨d, hd, _⟩ := h.forest.idom_reachable b (hp'.succ hedge') hne
  rw [h.stack_start_of_idom hd, h.stack_of_quiet hplain (h.forest.edge p b d hp' hedge' hd) hvar]
  intro x hx hxd
  have hentry : c.tree.entry < c.tree.blockCount := by
    rw [tree, Function.blockCount_recordIdoms]
    exact hplain.entry_lt
  exact h.forest.quiet_edge (c.linked_tree hplain.linked) hentry h.table hp' hedge' hd hb hx hxd

/-- The entry has no phis for variables when control cannot come back to it. -/
theorem joinVars_entry (h : c.Valid g) (hentry : f.preds f.entry = []) :
    c.joinVars f.entry = [] := by
  refine List.eq_nil_iff_forall_not_mem.mpr fun ⟨var, v⟩ hmem => ?_
  obtain ⟨_, hjoin⟩ := mem_joinVars.mp hmem
  obtain ⟨b, hb⟩ := (Function.mem_joinsOf.mp hjoin).2.exists_frontier
  by_cases hlt : b < c.tree.blockCount
  · rw [framed, Function.frontier_recordFrontiers _ _ _ hlt, h.table] at hb
    have hmany := hb.2.1
    have hpreds : c.tree.preds f.entry = [] := by
      rw [tree, Function.preds_recordIdoms, hentry]
    simp [hpreds] at hmany
  · have hnone : c.framed.blocks[b]? = none :=
      Array.getElem?_eq_none (by simpa [framed, Function.recordFrontiers, Function.blockCount] using hlt)
    rw [Function.frontier, hnone] at hb
    cases hb

end Conversion.Valid

-- ════════════════════════════════════════════════════════════════════════
-- The blocks afterwards
-- ════════════════════════════════════════════════════════════════════════

namespace Conversion

variable {f g : Function}

/-- The phi for a variable in the block `b` that writes the version `r`. -/
noncomputable def joinPhi (c : Conversion f) (b : BlockId) (entry : Variable × VarId) (r : Reg) : Instr :=
  .phi (.reg r entry.1.ty) (some entry.2)
    ((f.preds b).map fun p => { value := (c.fin p).reading entry.2 entry.1.ty, pred := p }) 0

/-- The phis for variables, whose versions are counted from `r`. -/
noncomputable def joinCode (c : Conversion f) (b : BlockId) : List (Variable × VarId) → Reg → List Instr
  | [], _ => []
  | entry :: entries, r => c.joinPhi b entry r :: c.joinCode b entries (r + 1)

/-- The versions in force after the phis at the head of a block. -/
noncomputable def mid (c : Conversion f) (b : BlockId) : Versions := (c.start b).pushAll ((c.joinVars b).map (·.2))

theorem threaded_emptyPhi (c : Conversion f) {b : BlockId} {entries : List (Variable × VarId)}
    (hvars : ∀ entry ∈ entries, f.vars[entry.2]? = some entry.1) (s : Versions) :
    (threaded renamedPhi
        (entries.map fun entry => emptyPhi entry.2 entry.1 (f.preds b)) s).1.map
      (fillFrom f.vars fun p => some (c.fin p)) = c.joinCode b entries s.nextReg ∧
    (threaded renamedPhi (entries.map fun entry => emptyPhi entry.2 entry.1 (f.preds b)) s).2 =
      s.pushAll (entries.map (·.2)) := by
  induction entries generalizing s with
  | nil => exact ⟨rfl, rfl⟩
  | cons entry entries ih =>
    have hvar := hvars entry List.mem_cons_self
    have hnext : renamedPhi (emptyPhi entry.2 entry.1 (f.preds b)) s =
        ({ emptyPhi entry.2 entry.1 (f.preds b) with dst := .reg s.nextReg entry.1.ty },
          s.push entry.2) := rfl
    have hfill : fillFrom f.vars (fun p => some (c.fin p))
        { emptyPhi entry.2 entry.1 (f.preds b) with dst := .reg s.nextReg entry.1.ty } =
        c.joinPhi b entry s.nextReg := by
      refine (fillFrom_detail _ _ _ rfl).trans ?_
      simp only [joinPhi, emptyPhi, Instr.phi, List.map_map, Instr.mk.injEq, true_and,
        Detail.phi.injEq]
      refine List.map_congr_left fun p _ => ?_
      simp [PhiArg.fill, hvar]
    obtain ⟨ih₁, ih₂⟩ := ih (fun e he => hvars e (List.mem_cons_of_mem _ he)) (s.push entry.2)
    constructor
    · rw [List.map_cons, threaded, hnext, List.map_cons, hfill, ih₁]
      rfl
    · rw [List.map_cons, threaded, hnext, ih₂]
      rfl

/-- Renaming does not change phis that join no variable. -/
theorem threaded_plainPhis {phis : List Instr} (h : ∀ phi ∈ phis, phi.phiVar? = none)
    (s : Versions) : threaded renamedPhi phis s = (phis, s) := by
  induction phis with
  | nil => rfl
  | cons phi phis ih =>
    have hnone := h phi List.mem_cons_self
    simp [threaded, renamedPhi, hnone, Operand.redirected,
      ih fun q hq => h q (List.mem_cons_of_mem _ hq)]

theorem threaded_append {α β σ : Type} (step : α → σ → β × σ) (xs ys : List α) (s : σ) :
    threaded step (xs ++ ys) s = ((threaded step xs s).1 ++
      (threaded step ys (threaded step xs s).2).1, (threaded step ys (threaded step xs s).2).2) := by
  induction xs generalizing s with
  | nil => rfl
  | cons x xs ih => simp [threaded, ih]

/-- The variables that get a version in a block: those with a phi there, then those that are written. -/
theorem versionedIn_placed (c : Conversion f) (hplain : f.Plain) {b : BlockId} {block : Block}
    (hb : f.blocks[b]? = some block) : c.placed.versionedIn b =
      (c.joinVars b).map (·.2) ++ block.body.filterMap (·.dst.owner? f.owners) := by
  have howners : c.placed.owners = f.owners := rfl
  have hold : ∀ phi ∈ block.phis, phi.phiVar? = none := fun phi hphi =>
    hplain.phis b block hb phi (List.takeWhile_subset _ hphi)
  rw [Function.versionedIn, c.getElem?_placed, hb]
  simp only [Option.map_some, Block.joinedVars, Block.writtenVars, phis_placedBlock,
    body_placedBlock, List.filterMap_append, howners, List.filterMap_eq_nil_iff.mpr hold,
    List.append_nil, joinPhis_eq, List.filterMap_map]
  congr 1
  exact congrFun (List.filterMap_eq_map' (f := fun entry : Variable × VarId => entry.2)) _

/-- The block `b` after the conversion: phis for variables, the phis from before, and the other
instructions renamed. -/
theorem Valid.getElem?_eq (c : Conversion f) (h : c.Valid g) (hplain : f.Plain) {b : BlockId}
    {block : Block} (hb : f.blocks[b]? = some block) :
    ∃ block', g.blocks[b]? = some block' ∧
      block'.phis = c.joinCode b (c.joinVars b) (c.start b).nextReg ++ block.phis ∧
      block'.body = (threaded (renamedInstr f.owners) block.body (c.mid b)).1 ∧
      c.fin b = (threaded (renamedInstr f.owners) block.body (c.mid b)).2 ∧
      block'.preds = block.preds ∧ block'.succs = block.succs := by
  have hplaced := c.getElem?_placed b
  rw [hb] at hplaced
  have howners : c.placed.owners = f.owners := rfl
  have hvars : ∀ entry ∈ c.joinVars b, f.vars[entry.2]? = some entry.1 :=
    fun entry hentry => (mem_joinVars.mp hentry).1
  obtain ⟨hcode, hstate⟩ := c.threaded_emptyPhi (b := b) hvars (c.start b)
  have hold : ∀ phi ∈ block.phis, phi.phiVar? = none := fun phi hphi =>
    hplain.phis b block hb phi (List.takeWhile_subset _ hphi)
  have hphis : threaded renamedPhi (c.placedBlock b block).phis (c.start b) =
      ((threaded renamedPhi (c.framed.joinPhis b) (c.start b)).1 ++ block.phis, c.mid b) := by
    rw [phis_placedBlock, threaded_append, threaded_plainPhis hold, joinPhis_eq, hstate]
    rfl
  refine ⟨c.placed.blockAt (some (c.start b)) (fun p => some (c.fin p)) (c.placedBlock b block),
    ?_, ?_, ?_, ?_, rfl, rfl⟩
  · rw [h.renamed.eq, Function.getElem?_assembled, hplaced]
    rfl
  · rw [Function.phis_blockAt, Function.phisAt, hphis, List.map_append, joinPhis_eq, ← hcode,
      List.map_congr_left fun phi hphi => fillFrom_of_none _ _ phi (hold phi hphi), List.map_id']
    rfl
  · rw [Function.body_blockAt, Function.bodyAt, hphis, body_placedBlock, howners]
  · rw [threaded_renamedInstr_snd, fin, Function.after, c.versionedIn_placed hplain hb,
      Versions.pushAll_append]
    rfl

end Conversion

end MiddleEnd
