import MiddleEnd.Proofs.Dominance.Forest

/-!
# The reverse postorder and the recursive search

The search that computes the order works with a stack. Here the same search is written as a recursion: it
goes through a list of blocks, searches from each block that was not seen yet before it goes on, and names a
block when everything below it was searched. The search with the stack does what the recursion does for the
innermost unfinished block and then goes on with the rest of its stack, so the order is the postorder of the
recursion, turned around.

## Main definitions

* `depthFirst`: the recursive search, with the blocks it has seen and the blocks it has finished.
* `Function.postorder`: the blocks that control can reach, in the order in which the recursion finishes them.

## Main statements

* `explore_eq_depthFirst`: the search with the stack finishes what the recursion finishes.
* `depthFirst_edge`: an edge leads to a block that was seen before, was finished earlier, or leads back.
* `Function.reversePostorder_exact`: the order is the reversed postorder, lists every block that control can
  reach once, the entry first, and respects edges and dominance.
-/

namespace MiddleEnd

/-- What a search has seen and finished when it started with the blocks of `before` seen. -/
structure Visited (before : IndexSet) where
  seen : IndexSet
  /-- The first block that was finished comes first. -/
  finished : List BlockId
  grows : ∀ b ∈ before, b ∈ seen

/-- Searches depth first from the blocks of a list, one after the other. A block is finished when the search
from its successors has ended. Blocks that do not exist or were seen before are passed over. -/
def depthFirst (succs : BlockId → List BlockId) (count : Nat) (seen : IndexSet) (blocks : List BlockId) :
    Visited seen :=
  match blocks with
  | [] => ⟨seen, [], fun _ hb => hb⟩
  | b :: later =>
    if b < count ∧ b ∉ seen then
      let below := depthFirst succs count (seen.insert b) (succs b)
      let rest := depthFirst succs count below.seen later
      ⟨rest.seen, below.finished ++ b :: rest.finished, fun c hc =>
        rest.grows c (below.grows c (IndexSet.mem_insert.mpr (.inr hc)))⟩
    else
      depthFirst succs count seen later
termination_by ((seen.absent count).length, blocks.length)
decreasing_by
  · rename_i h
    exact Prod.Lex.left _ _ (IndexSet.length_absent_insert_lt h.1 h.2)
  · rename_i h
    have hle : (below.seen.absent count).length ≤ ((seen.insert b).absent count).length :=
      IndexSet.length_absent_le below.grows
    have hlt := IndexSet.length_absent_insert_lt h.1 h.2
    exact Prod.Lex.left _ _ (Nat.lt_of_le_of_lt hle hlt)
  · exact Prod.Lex.right _ (by simp)

/-- The blocks that control can reach, the first one that is finished first. -/
def Function.postorder (f : Function) : List BlockId :=
  (depthFirst f.succs f.blockCount ∅ [f.entry]).finished

-- ════════════════════════════════════════════════════════════════════════
-- The two searches
-- ════════════════════════════════════════════════════════════════════════

section DepthFirst

variable {succs : BlockId → List BlockId} {count : Nat} {seen : IndexSet} {blocks : List BlockId}

/-- With successors still to be followed, the search with the stack does what the recursion does from them,
finishes the block they belong to and goes on with the rest of the stack. -/
theorem explore_eq_depthFirst (b : BlockId) (rest : List (BlockId × List BlockId)) (order : List BlockId) :
    explore succs count seen ((b, blocks) :: rest) order =
      explore succs count (depthFirst succs count seen blocks).seen rest
        (b :: ((depthFirst succs count seen blocks).finished.reverse ++ order)) := by
  fun_induction depthFirst succs count seen blocks generalizing b rest order with
  | case1 seen => rw [explore]; rfl
  | case2 seen next later hnext below outer ihBelow ihOuter =>
    rw [explore, if_pos hnext, ihBelow, ihOuter]
    simp [below, outer]
  | case3 seen next later hnext ih =>
    rw [explore, if_neg hnext, ih]

/-- The search has seen what was seen before and what it has finished. -/
theorem mem_seen_depthFirst {c : BlockId} : c ∈ (depthFirst succs count seen blocks).seen ↔
    c ∈ seen ∨ c ∈ (depthFirst succs count seen blocks).finished := by
  fun_induction depthFirst succs count seen blocks with
  | case1 seen => simp
  | case2 seen next later hnext below outer ihBelow ihOuter =>
    rw [ihOuter, ihBelow, IndexSet.mem_insert, List.mem_append, List.mem_cons]
    rw [or_assoc, or_assoc, or_left_comm, or_left_comm (b := c ∈ below.finished)]
  | case3 seen next later hnext ih => exact ih

/-- The blocks of the list were all seen at the end. -/
theorem mem_seen_of_mem {c : BlockId} (hc : c ∈ blocks) (hlt : c < count) :
    c ∈ (depthFirst succs count seen blocks).seen := by
  fun_induction depthFirst succs count seen blocks with
  | case1 seen => simp at hc
  | case2 seen next later hnext below outer ihBelow ihOuter =>
    obtain rfl | hc := List.mem_cons.mp hc
    · exact outer.grows c (below.grows c (IndexSet.mem_insert.mpr (.inl rfl)))
    · exact ihOuter hc
  | case3 seen next later hnext ih =>
    obtain rfl | hc := List.mem_cons.mp hc
    · refine (depthFirst succs count seen later).grows c ?_
      exact Decidable.not_not.mp fun hout => hnext ⟨hlt, hout⟩
    · exact ih hc

end DepthFirst

section Paths

variable {f : Function} {seen : IndexSet} {blocks : List BlockId}

/-- The search finishes only blocks that can be reached from the list. -/
theorem exists_path_of_finished {c : BlockId}
    (hc : c ∈ (depthFirst f.succs f.blockCount seen blocks).finished) : ∃ b ∈ blocks, ∃ l, f.Path b c l := by
  fun_induction depthFirst f.succs f.blockCount seen blocks with
  | case1 seen => simp at hc
  | case2 seen next later hnext below outer ihBelow ihOuter =>
    obtain hc | rfl | hc : c ∈ below.finished ∨ c = next ∨ c ∈ outer.finished := by simpa using hc
    · obtain ⟨b, hb, l, hl⟩ := ihBelow hc
      obtain ⟨l', hl', -⟩ := (Function.Path.nil.snoc hb).append hl
      exact ⟨next, List.mem_cons_self, l', hl'⟩
    · exact ⟨c, List.mem_cons_self, [c], .nil⟩
    · obtain ⟨b, hb, hpath⟩ := ihOuter hc
      exact ⟨b, List.mem_cons_of_mem _ hb, hpath⟩
  | case3 seen next later hnext ih =>
    obtain ⟨b, hb, hpath⟩ := ih hc
    exact ⟨b, List.mem_cons_of_mem _ hb, hpath⟩

/-- An edge from a finished block leads to a block that was seen before the search, that was finished
earlier, or that leads back. -/
theorem depthFirst_edge {u v : BlockId} (hu : u ∈ (depthFirst f.succs f.blockCount seen blocks).finished)
    (hedge : v ∈ f.succs u) (hv : v < f.blockCount) :
    v ∈ seen ∨ [v, u].Sublist (depthFirst f.succs f.blockCount seen blocks).finished ∨
      ∃ l, f.Path v u l := by
  fun_induction depthFirst f.succs f.blockCount seen blocks with
  | case1 seen => simp at hu
  | case2 seen next later hnext below outer ihBelow ihOuter =>
    have hbelow : [v, u].Sublist below.finished →
        [v, u].Sublist (below.finished ++ next :: outer.finished) := fun h =>
      h.trans (List.sublist_append_left _ _)
    -- A block that is finished below the first one, followed by one that is finished later.
    have hacross : v ∈ below.finished → u ∈ next :: outer.finished →
        [v, u].Sublist (below.finished ++ next :: outer.finished) := fun hv hu =>
      (List.singleton_sublist.mpr hv).append (List.singleton_sublist.mpr hu)
    obtain hu | rfl | hu : u ∈ below.finished ∨ u = next ∨ u ∈ outer.finished := by simpa using hu
    · obtain hseen | hsub | hpath := ihBelow hu
      · obtain rfl | hseen := IndexSet.mem_insert.mp hseen
        · obtain ⟨b, hb, l, hl⟩ := exists_path_of_finished hu
          obtain ⟨l', hl', -⟩ := (Function.Path.nil.snoc hb).append hl
          exact .inr (.inr ⟨l', hl'⟩)
        · exact .inl hseen
      · exact .inr (.inl (hbelow hsub))
      · exact .inr (.inr hpath)
    · have hseen : v ∈ below.seen := mem_seen_of_mem hedge hv
      obtain hseen | hfinished := mem_seen_depthFirst.mp hseen
      · obtain rfl | hseen := IndexSet.mem_insert.mp hseen
        · exact .inr (.inr ⟨[v], .nil⟩)
        · exact .inl hseen
      · exact .inr (.inl (hacross hfinished List.mem_cons_self))
    · obtain hseen | hsub | hpath := ihOuter hu
      · obtain hseen | hfinished := mem_seen_depthFirst.mp hseen
        · obtain rfl | hseen := IndexSet.mem_insert.mp hseen
          · refine .inr (.inl ?_)
            exact ((List.singleton_sublist.mpr hu).cons_cons v).trans (List.sublist_append_right _ _)
          · exact .inl hseen
        · exact .inr (.inl (hacross hfinished (List.mem_cons_of_mem _ hu)))
      · exact .inr (.inl (hsub.trans ((List.sublist_cons_self _ _).trans (List.sublist_append_right _ _))))
      · exact .inr (.inr hpath)
  | case3 seen next later hnext ih => exact ih hu

end Paths

-- ════════════════════════════════════════════════════════════════════════
-- The order
-- ════════════════════════════════════════════════════════════════════════

namespace Function

variable {f : Function} {order : List BlockId} {a b : BlockId}

/-- The search with the stack lists the postorder of the recursion, turned around. -/
theorem explore_eq_postorder (hentry : f.entry < f.blockCount) :
    explore f.succs f.blockCount (IndexSet.insert ∅ f.entry) [(f.entry, f.succs f.entry)] [] =
      f.postorder.reverse := by
  have hsearch : f.entry < f.blockCount ∧ f.entry ∉ (∅ : IndexSet) := ⟨hentry, IndexSet.not_mem_empty _⟩
  rw [explore_eq_depthFirst, explore, postorder, depthFirst, if_pos hsearch]
  simp [depthFirst]

/-- Every dominator of a block of the order stands at its place or before it. -/
theorem Ordered.idxOf_le_of_dominates (h : f.Ordered order) (hb : b ∈ order) (hab : f.Dominates a b) :
    order.idxOf a ≤ order.idxOf b := by
  -- The block that the order lists as a predecessor has the same dominators, but the block itself.
  induction hplace : order.idxOf b using Nat.strongRecOn generalizing b with
  | ind place ih =>
    subst hplace
    by_cases hne : a = b
    · exact hne ▸ Nat.le_refl _
    obtain rfl | ⟨p, hedge, hsub⟩ := h.parent b hb
    · obtain rfl := List.mem_singleton.mp (hab.mem .nil)
      exact absurd rfl hne
    · have hp : p ∈ order := hsub.subset List.mem_cons_self
      have hlt : order.idxOf p < order.idxOf b := idxOf_lt_of_sublist h.nodup hsub
      have hdom : f.Dominates a p := hab.pred hne ((h.mem_iff p).mp hp) hedge
      exact Nat.le_of_lt (Nat.lt_of_le_of_lt (ih _ hlt hp hdom rfl) hlt)

/-- In a function whose entry and successors exist, the reverse postorder is the postorder of the recursive
depth-first search turned around. It starts with the entry and lists exactly the blocks that control can
reach, each once. Along an edge it goes forward unless there is a path back, and no block comes before one of
its dominators. -/
theorem reversePostorder_exact (f : Function) (hentry : f.entry < f.blockCount)
    (hsuccs : ∀ b, ∀ c ∈ f.succs b, c < f.blockCount) :
    ∃ order, f.reversePostorder = .ok order ∧ order = f.postorder.reverse ∧
      (∃ rest, order = f.entry :: rest) ∧ order.Nodup ∧ (∀ b, b ∈ order ↔ f.Reachable b) ∧
      (∀ u v, f.Reachable u → v ∈ f.succs u →
        order.idxOf u < order.idxOf v ∨ ∃ l, f.Path v u l) ∧
      ∀ a b, f.Reachable b → f.Dominates a b → order.idxOf a ≤ order.idxOf b := by
  have hordered := (Search.start f).explore hsuccs
  have horder := reversePostorder_eq hentry hsuccs
  rw [explore_eq_postorder hentry] at hordered horder
  refine ⟨_, horder, rfl, hordered.head, hordered.nodup, hordered.mem_iff, fun u v hu hedge => ?_,
    fun a b hb hab => hordered.idxOf_le_of_dominates ((hordered.mem_iff b).mpr hb) hab⟩
  have hmem : u ∈ f.postorder := List.mem_reverse.mp ((hordered.mem_iff u).mpr hu)
  obtain hseen | hsub | hpath := depthFirst_edge hmem hedge (hsuccs u v hedge)
  · exact absurd hseen (IndexSet.not_mem_empty v)
  · exact .inl (idxOf_lt_of_sublist hordered.nodup hsub.reverse)
  · exact .inr hpath

end Function

/-- A block that names one successor twice, two blocks that lead to each other with one of them also leading to
itself, an edge back to the entry, and a block that nothing leads to. -/
def repeats : Function where
  name := 0
  line := 1
  blocks := #[
    { id := 0, label := "entry", succs := [1, 2, 1] },
    { id := 1, label := "left", succs := [3, 1] },
    { id := 2, label := "right", succs := [3, 0] },
    { id := 3, label := "exit", succs := [1] },
    { id := 4, label := "dead", succs := [0] }]

/-- The branch that is taken second comes first in the order, and the edge from the exit goes back in it. -/
theorem repeats_order : repeats.entry < repeats.blockCount ∧
    (∀ b, ∀ c ∈ repeats.succs b, c < repeats.blockCount) ∧
    repeats.reversePostorder = .ok [0, 2, 1, 3] ∧ ∃ l, repeats.Path 1 3 l := by
  have hentry : repeats.entry < repeats.blockCount := by decide
  have hsuccs : ∀ b, ∀ c ∈ repeats.succs b, c < repeats.blockCount := fun b c hc =>
    Function.checkBlocks_eq_ok_iff.mp (by decide) c (Function.mem_allSuccs.mpr ⟨b, hc⟩)
  obtain ⟨order, horder, hpost, -, -, hmem, hedge, -⟩ := repeats.reversePostorder_exact hentry hsuccs
  have hlist : repeats.postorder.reverse = [0, 2, 1, 3] := by cbv
  rw [hlist] at hpost
  subst hpost
  have hback := hedge 3 1 ((hmem 3).mp (by decide)) (by decide)
  exact ⟨hentry, hsuccs, horder, hback.resolve_left (by decide)⟩

end MiddleEnd
