import MiddleEnd.IR.Function

/-!
# Blocks that carry their position

What is found out about a block is kept at the number that the block carries, and read at its position. The
two are the same in a function that grew block by block, and they stay the same while its blocks are
changed in place.

## Main definitions

* `Function.id?`: the number that a block carries.
* `Function.Numbered`: every block carries its position.

## Main statements

* `Function.Numbered.congr`: what is to be shown of a change.
* `Function.Numbered.getElem?_id`: a block is found at the number that it carries.
-/

namespace MiddleEnd

namespace Function

/-- The number that a block carries. -/
def id? (f : Function) (b : BlockId) : Option BlockId := f.blocks[b]?.map (·.id)

/-- Every block carries its position. -/
def Numbered (f : Function) : Prop :=
  ∀ (b : BlockId) (block : Block), f.blocks[b]? = some block → block.id = b

variable {f g : Function}

theorem exists_getElem?_blocks {b : BlockId} (h : b < f.blockCount) :
    ∃ block, f.blocks[b]? = some block :=
  ⟨_, Array.getElem?_eq_getElem h⟩

theorem numbered_iff : f.Numbered ↔ f.blocks.toList.map (·.id) = f.blockIds := by
  constructor
  · intro h
    refine List.ext_getElem (by simp [blockIds]) fun b hb _ => ?_
    rw [List.length_map, Array.length_toList] at hb
    simpa [blockIds] using h b f.blocks[b] (Array.getElem?_eq_getElem hb)
  · intro h b block hblock
    have hid : (f.blocks.toList.map (·.id))[b]? = some block.id := by
      rw [List.getElem?_map, Array.getElem?_toList, hblock, Option.map_some]
    rw [h, blockIds, List.getElem?_eq_some_iff] at hid
    obtain ⟨_, hid⟩ := hid
    rw [← hid, List.getElem_range]

instance (f : Function) : Decidable f.Numbered := decidable_of_iff _ numbered_iff.symm

namespace Numbered

/-- A change that leaves the numbers of the blocks alone. -/
theorem congr (h : f.Numbered) (hid : ∀ b, g.id? b = f.id? b) : g.Numbered := by
  intro b block hblock
  have hb := hid b
  rw [id?, hblock, Option.map_some, id?, eq_comm, Option.map_eq_some_iff] at hb
  obtain ⟨old, hold, heq⟩ := hb
  rw [← heq, h b old hold]

theorem mapBlocks (h : f.Numbered) {change : Block → Block} (hid : ∀ block, (change block).id = block.id) :
    (f.mapBlocks change).Numbered :=
  h.congr fun b => by
    rw [id?, Function.mapBlocks, Array.getElem?_map, Option.map_map]
    exact congrArg (f.blocks[b]?.map ·) (funext hid)

theorem modifyBlock (h : f.Numbered) (b : BlockId) {change : Block → Block}
    (hid : ∀ block, (change block).id = block.id) : (f.modifyBlock b change).Numbered :=
  h.congr fun c => by
    rw [id?, Function.modifyBlock, Array.getElem?_modify]
    split
    · rw [Option.map_map]
      exact congrArg (f.blocks[c]?.map ·) (funext hid)
    · rfl

/-- A new block carries its position. -/
theorem newBlock (h : f.Numbered) (label : Option String) : (f.newBlock label).2.Numbered := by
  intro b block hblock
  rw [Function.newBlock, Array.getElem?_push] at hblock
  split at hblock
  · rename_i hb
    rw [← Option.some.inj hblock, hb]
  · exact h b block hblock

/-- A block is found at the number that it carries. -/
theorem getElem?_id (h : f.Numbered) {block : Block} (hblock : block ∈ f.blocks.toList) :
    f.blocks[block.id]? = some block := by
  obtain ⟨b, hb⟩ := Array.mem_iff_getElem?.mp (Array.mem_toList_iff.mp hblock)
  rw [h b block hb, hb]

end Numbered

end Function

end MiddleEnd
