import MiddleEnd.IR.Edges
import MiddleEnd.Proofs.Dominance.Paths
import MiddleEnd.Proofs.IR.Numbered
import Mathlib.Data.List.Nodup

/-!
# What the derived edges are

Deriving the edges of a function changes nothing but the edges that its blocks record and the order
of the arguments of its phis. The edges are those that the ends of the blocks ask for, as far as they
stay inside the function, each recorded once at both of its ends.

## Main definitions

* `EdgeTables`: the successors and predecessors of all blocks.
* `Function.recordEdges`: the function with given edges.
* `Function.edgeTables`: the edges that the ends of its blocks ask for.

## Main statements

* `Function.buildEdges_eq`: the derived edges, and what they are.
* `Function.linked_buildEdges`: successors and predecessors agree afterwards.
-/

namespace MiddleEnd

/-- The edges of a function as two tables. -/
structure EdgeTables where
  preds : BlockId → List BlockId
  succs : BlockId → List BlockId

namespace EdgeTables

/-- The tables with an edge added, unless it is there already or leads out of the function. -/
def link (count : Nat) (t : EdgeTables) (edge : BlockId × BlockId) : EdgeTables :=
  if count ≤ edge.2 ∨ edge.2 ∈ t.succs edge.1 then t
  else
    { preds := fun b => if b = edge.2 then t.preds b ++ [edge.1] else t.preds b
      succs := fun b => if b = edge.1 then t.succs b ++ [edge.2] else t.succs b }

/-- The tables hold the given edges as far as they stay inside the function, each once at both of its
ends. -/
structure Holds (count : Nat) (t : EdgeTables) (edges : List (BlockId × BlockId)) : Prop where
  mem_succs : ∀ b c, c ∈ t.succs b ↔ (b, c) ∈ edges ∧ c < count
  mem_preds : ∀ b c, b ∈ t.preds c ↔ c ∈ t.succs b
  preds_nodup : ∀ b, (t.preds b).Nodup
  succs_nodup : ∀ b, (t.succs b).Nodup

section Extend

variable {table : BlockId → List BlockId} {b key c new : BlockId}

theorem mem_extend : c ∈ (if b = key then table b ++ [new] else table b) ↔
    c ∈ table b ∨ b = key ∧ c = new := by
  by_cases hb : b = key <;> simp [hb]

theorem nodup_extend (hnodup : ∀ b, (table b).Nodup) (hnew : new ∉ table key) (b : BlockId) :
    (if b = key then table b ++ [new] else table b).Nodup := by
  by_cases hb : b = key
  · rw [if_pos hb, List.nodup_append]
    refine ⟨hnodup b, List.nodup_singleton _, fun p hp q hq => ?_⟩
    rintro rfl
    rw [List.mem_singleton.mp hq, hb] at hp
    exact hnew hp
  · rw [if_neg hb]
    exact hnodup b

end Extend

variable {count : Nat} {t : EdgeTables} {edges : List (BlockId × BlockId)} {source target : BlockId}

/-- An edge that leads out of the function or is there already changes nothing. -/
theorem Holds.link_skip (h : t.Holds count edges) (hskip : count ≤ target ∨ target ∈ t.succs source) :
    (t.link count (source, target)).Holds count (edges ++ [(source, target)]) := by
  rw [EdgeTables.link, if_pos hskip]
  refine ⟨fun b c => ?_, h.mem_preds, h.preds_nodup, h.succs_nodup⟩
  rw [h.mem_succs, List.mem_append, List.mem_singleton]
  constructor
  · exact fun hc => ⟨.inl hc.1, hc.2⟩
  · rintro ⟨hc | hc, hlt⟩
    · exact ⟨hc, hlt⟩
    · obtain ⟨rfl, rfl⟩ := Prod.mk.inj hc
      rcases hskip with hge | hmem
      · exact absurd hlt (Nat.not_lt.mpr hge)
      · exact (h.mem_succs b c).mp hmem

/-- Any other edge is added at both of its ends. -/
theorem Holds.link_new (h : t.Holds count edges) (hskip : ¬ (count ≤ target ∨ target ∈ t.succs source)) :
    (t.link count (source, target)).Holds count (edges ++ [(source, target)]) := by
  obtain ⟨hlt, hnew⟩ := not_or.mp hskip
  rw [EdgeTables.link, if_neg hskip]
  refine ⟨fun b c => ?_, fun b c => ?_, nodup_extend h.preds_nodup ((h.mem_preds _ _).not.mpr hnew),
    nodup_extend h.succs_nodup hnew⟩
  · rw [mem_extend, h.mem_succs, List.mem_append, List.mem_singleton, Prod.mk.injEq]
    constructor
    · rintro (⟨hc, hc'⟩ | ⟨rfl, rfl⟩)
      · exact ⟨.inl hc, hc'⟩
      · exact ⟨.inr ⟨rfl, rfl⟩, Nat.not_le.mp hlt⟩
    · rintro ⟨hc | hc, hc'⟩
      · exact .inl ⟨hc, hc'⟩
      · exact .inr hc
  · rw [mem_extend, mem_extend, h.mem_preds, and_comm (a := c = target)]

/-- Adding an edge adds it to what the tables hold. -/
theorem Holds.link (h : t.Holds count edges) (edge : BlockId × BlockId) :
    (t.link count edge).Holds count (edges ++ [edge]) := by
  obtain ⟨source, target⟩ := edge
  by_cases hskip : count ≤ target ∨ target ∈ t.succs source
  · exact h.link_skip hskip
  · exact h.link_new hskip

theorem Holds.foldl (h : t.Holds count edges) (more : List (BlockId × BlockId)) :
    (more.foldl (EdgeTables.link count) t).Holds count (edges ++ more) := by
  induction more generalizing t edges with
  | nil => simpa using h
  | cons edge more ih => simpa using ih (h.link edge)

end EdgeTables

namespace Function

/-- The function with each block recording the edges that the tables give it. -/
def recordEdges (f : Function) (t : EdgeTables) : Function :=
  { f with blocks := f.blocks.mapIdx fun b block =>
      { block with preds := t.preds b, succs := t.succs b } }

theorem getElem?_recordEdges (f : Function) (t : EdgeTables) (b : BlockId) :
    (f.recordEdges t).blocks[b]? =
      f.blocks[b]?.map fun block => { block with preds := t.preds b, succs := t.succs b } := by
  simp [recordEdges]

/-- Adding an edge to recorded edges. -/
theorem link_recordEdges (f : Function) (t : EdgeTables) (source target : BlockId)
    (hsource : source < f.blockCount) :
    (f.recordEdges t).link source target =
      f.recordEdges (t.link f.blockCount (source, target)) := by
  have hsource' : f.blocks[source]? = some f.blocks[source] := Array.getElem?_eq_getElem hsource
  have hsuccs : (f.recordEdges t).succs source = t.succs source := by
    simp [succs, getElem?_recordEdges, hsource']
  have hsize : (f.recordEdges t).blocks.size = f.blockCount := by simp [recordEdges, blockCount]
  simp only [link, EdgeTables.link, hsuccs, hsize]
  split
  · rfl
  · have hblocks : ((f.recordEdges t).blocks.modify source fun b =>
          { b with succs := b.succs ++ [target] }).modify target
            (fun b => { b with preds := b.preds ++ [source] }) =
        (f.recordEdges {
          preds := fun b => if b = target then t.preds b ++ [source] else t.preds b
          succs := fun b => if b = source then t.succs b ++ [target] else t.succs b }).blocks := by
      refine Array.ext_getElem? fun x => ?_
      simp only [Array.getElem?_modify, getElem?_recordEdges]
      cases f.blocks[x]? with
      | none => simp
      | some block =>
        by_cases hs : source = x <;> by_cases ht : target = x <;>
          simp [hs, ht, Eq.comm (a := x)]
    simp only [modifyBlock]
    rw [hblocks]
    rfl

theorem foldl_link_recordEdges (f : Function) (edges : List (BlockId × BlockId))
    (hedges : ∀ edge ∈ edges, edge.1 < f.blockCount) (t : EdgeTables) :
    edges.foldl (fun g edge => g.link edge.1 edge.2) (f.recordEdges t) =
      f.recordEdges (edges.foldl (EdgeTables.link f.blockCount) t) := by
  induction edges generalizing t with
  | nil => rfl
  | cons edge edges ih =>
    rw [List.foldl_cons, link_recordEdges f t edge.1 edge.2 (hedges edge List.mem_cons_self),
      ih (fun e he => hedges e (List.mem_cons_of_mem _ he)), List.foldl_cons]

theorem mem_edges {f : Function} {b c : BlockId} :
    (b, c) ∈ f.edges ↔ b < f.blockCount ∧ c ∈ f.targets b := by
  simp only [edges, blockIds, List.mem_flatMap, List.mem_range, List.mem_map, Prod.mk.injEq]
  constructor
  · rintro ⟨b, hb, c, hc, rfl, rfl⟩
    exact ⟨hb, hc⟩
  · exact fun h => ⟨b, h.1, c, h.2, rfl, rfl⟩

/-- The edges that the ends of the blocks ask for, added one after the other. -/
def edgeTables (f : Function) : EdgeTables :=
  f.edges.foldl (EdgeTables.link f.blockCount) ⟨fun _ => [], fun _ => []⟩

theorem holds_edgeTables (f : Function) : f.edgeTables.Holds f.blockCount f.edges := by
  have hempty : EdgeTables.Holds f.blockCount ⟨fun _ => [], fun _ => []⟩ [] := by
    constructor <;> simp
  exact hempty.foldl f.edges

/-- Deriving the edges records the edges that the ends of the blocks ask for, and aligns the phis. -/
theorem buildEdges_eq_edgeTables (f : Function) :
    f.buildEdges = (f.recordEdges f.edgeTables).mapBlocks (·.alignPhis) := by
  have hclear : f.clearEdges = f.recordEdges ⟨fun _ => [], fun _ => []⟩ := by
    simp only [clearEdges, mapBlocks, recordEdges, Function.mk.injEq, true_and, and_true]
    exact Array.ext_getElem? fun b => by simp
  rw [buildEdges, hclear, foldl_link_recordEdges]
  · rfl
  · rintro ⟨b, c⟩ hedge
    exact (mem_edges.mp hedge).1

theorem buildEdges_eq (f : Function) :
    ∃ t : EdgeTables, t.Holds f.blockCount f.edges ∧
      f.buildEdges = (f.recordEdges t).mapBlocks (·.alignPhis) :=
  ⟨f.edgeTables, f.holds_edgeTables, f.buildEdges_eq_edgeTables⟩

/-- A block after its edges were derived. -/
theorem getElem?_buildEdges {f : Function} {t : EdgeTables}
    (h : f.buildEdges = (f.recordEdges t).mapBlocks (·.alignPhis)) (b : BlockId) :
    f.buildEdges.blocks[b]? = f.blocks[b]?.map fun block =>
      Block.alignPhis { block with preds := t.preds b, succs := t.succs b } := by
  rw [h]
  simp only [mapBlocks, Array.getElem?_map, getElem?_recordEdges, Option.map_map]
  rfl

theorem Numbered.buildEdges {f : Function} (h : f.Numbered) : f.buildEdges.Numbered := by
  obtain ⟨_, _, heq⟩ := f.buildEdges_eq
  refine h.congr fun b => ?_
  rw [id?, getElem?_buildEdges heq, Option.map_map]
  rfl

theorem entry_buildEdges (f : Function) : f.buildEdges.entry = f.entry := by
  obtain ⟨_, _, heq⟩ := f.buildEdges_eq
  rw [heq]
  rfl

/-- After the edges were derived, successors and predecessors agree. -/
theorem linked_buildEdges (f : Function) :
    f.buildEdges.Linked ∧ f.buildEdges.blockCount = f.blockCount ∧
      ∀ b c, c ∈ f.buildEdges.succs b ↔
        b < f.blockCount ∧ c ∈ f.targets b ∧ c < f.blockCount := by
  obtain ⟨t, ht, heq⟩ := f.buildEdges_eq
  have hcount : f.buildEdges.blockCount = f.blockCount := by
    simp [heq, blockCount, mapBlocks, recordEdges]
  have hlt : ∀ b c, c ∈ t.succs b → b < f.blockCount ∧ c < f.blockCount := fun b c hc =>
    ⟨(mem_edges.mp ((ht.mem_succs b c).mp hc).1).1, ((ht.mem_succs b c).mp hc).2⟩
  have htables : ∀ b, f.buildEdges.succs b = t.succs b ∧ f.buildEdges.preds b = t.preds b := by
    intro b
    simp only [succs, preds, getElem?_buildEdges heq b]
    cases hb : f.blocks[b]? with
    | some block => exact ⟨rfl, rfl⟩
    | none =>
      -- The tables hold nothing for a block that does not exist.
      have hge : ¬ b < f.blockCount := by simpa [blockCount] using hb
      have hsuccs : t.succs b = [] := List.eq_nil_iff_forall_not_mem.mpr fun c hc => hge (hlt b c hc).1
      have hpreds : t.preds b = [] := List.eq_nil_iff_forall_not_mem.mpr fun p hp =>
        hge (hlt p b ((ht.mem_preds p b).mp hp)).2
      exact ⟨hsuccs.symm, hpreds.symm⟩
  have hsuccs := fun b => (htables b).1
  have hpreds := fun b => (htables b).2
  refine ⟨⟨?_, ?_, ?_, ?_⟩, hcount, ?_⟩
  · intro b c hc
    rw [hsuccs] at hc
    rw [hcount]
    exact (hlt b c hc).2
  · intro p b
    rw [hsuccs, hpreds, ht.mem_preds]
  · exact fun b => hpreds b ▸ ht.preds_nodup b
  · exact fun b => hsuccs b ▸ ht.succs_nodup b
  · intro b c
    rw [hsuccs, ht.mem_succs, mem_edges, and_assoc]

end Function

end MiddleEnd
