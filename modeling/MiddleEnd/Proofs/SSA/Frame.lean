import MiddleEnd.Proofs.Dominance.Tour
import MiddleEnd.SSA.Construction

/-!
# The conversion keeps the edges

Whatever function is brought into single assignment form, no step of the conversion touches the numbers that
its blocks carry, nor their successors and predecessors.

## Main statements

* `Function.sameEdges_of_blocks`: what is to be shown of each step.
* `Function.sameEdges_constructSsa`: a function and its single assignment form have the same edges.
-/

namespace MiddleEnd

/-- The number that a block carries and the edges that it records. -/
def Block.frame (block : Block) : BlockId × List BlockId × List BlockId :=
  (block.id, block.succs, block.preds)

namespace Function

-- ════════════════════════════════════════════════════════════════════════
-- Changes of blocks
-- ════════════════════════════════════════════════════════════════════════

/-- Two functions have the same edges if their blocks do, one by one, and carry the same numbers. -/
theorem sameEdges_of_blocks {f g : Function} (hentry : g.entry = f.entry)
    (h : ∀ b : BlockId, g.blocks[b]?.map Block.frame = f.blocks[b]?.map Block.frame) : SameEdges f g where
  entry := hentry
  blockCount := by
    have hblocks : g.blocks.map Block.frame = f.blocks.map Block.frame :=
      Array.ext_getElem? fun b => by simpa only [Array.getElem?_map] using h b
    simpa only [blockCount, Array.size_map] using congrArg Array.size hblocks
  succs := funext fun b => by
    have hsuccs := congrArg (Option.map (·.2.1)) (h b)
    simp only [Option.map_map] at hsuccs
    exact congrArg (Option.getD · []) hsuccs
  preds := funext fun b => by
    have hpreds := congrArg (Option.map (·.2.2)) (h b)
    simp only [Option.map_map] at hpreds
    exact congrArg (Option.getD · []) hpreds
  id? := funext fun b => by
    have hid := congrArg (Option.map (·.1)) (h b)
    simp only [Option.map_map] at hid
    exact hid

/-- Replacing a block by one with the same number and the same edges. -/
theorem sameEdges_setBlock {f : Function} {b : BlockId} {old block : Block} (hold : f.blocks[b]? = some old)
    (hframe : block.frame = old.frame) : SameEdges f (f.setBlock b block) := by
  refine sameEdges_of_blocks rfl fun x => ?_
  simp only [setBlock, modifyBlock, Array.getElem?_modify]
  split
  · rename_i hx
    subst hx
    simp [hold, hframe]
  · rfl

/-- Changing each block without its number and its edges. -/
theorem sameEdges_mapIdx (f : Function) (change : BlockId → Block → Block)
    (h : ∀ b block, (change b block).frame = block.frame) :
    SameEdges f { f with blocks := f.blocks.mapIdx change } := by
  refine sameEdges_of_blocks rfl fun b => ?_
  rw [Array.getElem?_mapIdx, Option.map_map]
  exact congrArg (f.blocks[b]?.map ·) (funext (h b))

-- ════════════════════════════════════════════════════════════════════════
-- The steps of the conversion
-- ════════════════════════════════════════════════════════════════════════

variable {f g : Function}

theorem sameEdges_withDominators (h : f.withDominators = .ok g) : SameEdges f g := by
  obtain ⟨_, _, hg⟩ := bind_eq_ok.mp h
  obtain rfl := Except.ok.inj hg
  exact f.sameEdges_mapIdx _ fun _ _ => rfl

theorem sameEdges_addFrontier (f : Function) (join b : BlockId) : SameEdges f (addFrontier join f b) := by
  refine sameEdges_of_blocks rfl fun x => ?_
  simp only [addFrontier, modifyBlock, Array.getElem?_modify]
  split
  · rw [Option.map_map]
    refine congrArg (f.blocks[x]?.map ·) (funext fun block => ?_)
    simp only [Function.comp_apply]
    split <;> rfl
  · rfl

theorem sameEdges_spreadJoin {join : BlockId} (h : f.spreadJoin join = .ok g) : SameEdges f g := by
  unfold spreadJoin at h
  split at h
  · obtain rfl := Except.ok.inj h
    exact .refl f
  · obtain ⟨paths, _, hg⟩ := bind_eq_ok.mp h
    obtain rfl := Except.ok.inj hg
    exact List.foldlRecOn paths.flatten (addFrontier join) (.refl f)
      fun g hsame b _ => hsame.trans (g.sameEdges_addFrontier join b)

theorem sameEdges_withFrontiers (h : f.withFrontiers = .ok g) : SameEdges f g := by
  have hcleared : SameEdges f (f.mapBlocks fun block => { block with frontier := [] }) :=
    sameEdges_of_blocks rfl fun b => by
      rw [mapBlocks, Array.getElem?_map, Option.map_map]
      rfl
  exact foldlM_keeps (fun _ _ _ _ hsame hstep => hsame.trans (sameEdges_spreadJoin hstep)) hcleared h

theorem sameEdges_placeAt {v : VarId} {s s' : Placing} {join : BlockId} (h : s.placeAt v join = .ok s') :
    SameEdges s.fn s'.fn := by
  obtain ⟨block, hblock, h⟩ := bind_eq_ok.mp h
  split at h
  · obtain rfl := Except.ok.inj h
    exact .refl s.fn
  · obtain ⟨var, _, h⟩ := bind_eq_ok.mp h
    dsimp only at h
    split at h <;>
    · obtain rfl := Except.ok.inj h
      exact sameEdges_setBlock (require_eq_ok_iff.mp hblock) rfl

theorem sameEdges_drain {v : VarId} {s s' : Placing} (h : s.drain v = .ok s') : SameEdges s.fn s'.fn := by
  fun_induction Placing.drain v s with
  | case1 s _ =>
    obtain rfl := Except.ok.inj h
    exact .refl s.fn
  | case2 => cases h
  | case3 s b rest _ t hvisit ih =>
    obtain ⟨block, _, hfold⟩ := bind_eq_ok.mp hvisit
    exact (foldlM_keeps (P := fun t => SameEdges s.fn t.fn)
      (fun _ _ _ _ hsame hstep => hsame.trans (sameEdges_placeAt hstep)) (.refl s.fn) hfold).trans (ih h)

theorem sameEdges_insertPhis {n : Nat} (h : f.insertPhis = .ok (n, g)) : SameEdges f g := by
  unfold insertPhis at h
  split at h
  · obtain ⟨_, rfl⟩ := Prod.mk.inj (Except.ok.inj h)
    exact .refl f
  · obtain ⟨table, _, h⟩ := bind_eq_ok.mp h
    refine foldlM_keeps (P := fun acc : Nat × Function => SameEdges f acc.2) ?_ (.refl f) h
    rintro ⟨defs, v⟩ _ ⟨count, fn⟩ acc hsame hplace
    obtain ⟨_, _, hplace⟩ := bind_eq_ok.mp hplace
    obtain ⟨s, hdrain, hacc⟩ := bind_eq_ok.mp hplace
    obtain rfl := Except.ok.inj hacc
    exact hsame.trans (sameEdges_drain hdrain)

theorem sameEdges_fillPhis {s : Versions} {pred b : BlockId} (h : fillPhis s pred f b = .ok g) :
    SameEdges f g := by
  obtain ⟨block, hblock, hrest⟩ := bind_eq_ok.mp h
  obtain ⟨phis, _, hg⟩ := bind_eq_ok.mp hrest
  obtain rfl := Except.ok.inj hg
  exact sameEdges_setBlock (require_eq_ok_iff.mp hblock) rfl

theorem sameEdges_enter {owners : Array (Option VarId)} {w w' : Renamer} {b : BlockId}
    (h : w.enter owners b = .ok w') : SameEdges w.fn w'.fn := by
  obtain ⟨block, hblock, hrest⟩ := bind_eq_ok.mp h
  obtain ⟨⟨instrs, s⟩, _, hrest⟩ := bind_eq_ok.mp hrest
  obtain ⟨fn, hfill, hw⟩ := bind_eq_ok.mp hrest
  obtain rfl := Except.ok.inj hw
  have hset : SameEdges w.fn (w.fn.setBlock b { block with instrs }) :=
    sameEdges_setBlock (require_eq_ok_iff.mp hblock) rfl
  refine foldlM_keeps (P := SameEdges w.fn)
    (fun _ _ _ _ hsame hstep => hsame.trans (sameEdges_fillPhis hstep)) ?_ hfill
  exact ⟨hset.entry, hset.blockCount, hset.succs, hset.preds, hset.id?⟩

theorem sameEdges_renameVariables {t : DomTree} (h : f.renameVariables t = .ok g) : SameEdges f g := by
  have hentered : SameEdges f f.withEntryVersions := ⟨rfl, rfl, rfl, rfl, rfl⟩
  unfold renameVariables at h
  split at h
  · obtain rfl := Except.ok.inj h
    exact hentered
  · obtain ⟨owners, _, h⟩ := bind_eq_ok.mp h
    obtain ⟨w, hwalk, hg⟩ := bind_eq_ok.mp h
    obtain rfl := Except.ok.inj hg
    refine foldlM_keeps (P := fun w => SameEdges f w.fn) (fun visit _ w w' hsame hstep => ?_) hentered hwalk
    cases visit with
    | enter b => exact hsame.trans (sameEdges_enter hstep)
    | leave b =>
      obtain rfl := Except.ok.inj hstep
      have hfn : w.leave.fn = w.fn := by
        unfold Renamer.leave
        split <;> rfl
      rw [hfn]
      exact hsame

/-- A function and its single assignment form have the same edges. -/
theorem sameEdges_constructSsa (h : f.constructSsa = .ok g) : SameEdges f g := by
  unfold constructSsa at h
  split at h
  · obtain rfl := Except.ok.inj h
    exact ⟨rfl, rfl, rfl, rfl, rfl⟩
  · obtain ⟨f₁, hdominators, h⟩ := bind_eq_ok.mp h
    obtain ⟨f₂, hfrontiers, h⟩ := bind_eq_ok.mp h
    obtain ⟨⟨n, f₃⟩, hphis, h⟩ := bind_eq_ok.mp h
    obtain ⟨t, _, h⟩ := bind_eq_ok.mp h
    obtain ⟨f₄, hrename, h⟩ := bind_eq_ok.mp h
    obtain rfl := Except.ok.inj h
    have hsame := (sameEdges_withDominators hdominators).trans
      ((sameEdges_withFrontiers hfrontiers).trans
        ((sameEdges_insertPhis hphis).trans (sameEdges_renameVariables hrename)))
    exact ⟨hsame.entry, hsame.blockCount, hsame.succs, hsame.preds, hsame.id?⟩

end Function

end MiddleEnd
