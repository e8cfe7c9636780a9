import MiddleEnd.Dominance.Order
import MiddleEnd.Proofs.Dominance.Paths
import MiddleEnd.Proofs.Success

/-!
# What the reverse postorder lists

The search keeps its unfinished blocks on a stack and its finished ones in a list. Read the stack
from its bottom, followed by the finished blocks, as one line: finishing a block leaves the line as
it is, and entering a block inserts it right behind the block it was entered from. All that is said
here about the order is said about this line first.

## Main definitions

* `Search`: what holds of the line at every moment of the search.
* `Function.Ordered`: what is known about the finished order.

## Main statements

* `Search.explore`: the search keeps `Search` to its end.
* `Function.reversePostorder_ordered`: the reverse postorder lists the blocks that control can reach,
  each once, the entry first, and each later block behind one of its predecessors.
-/

namespace MiddleEnd

namespace Function

/-- What is known about an order of the blocks of a function: it starts with the entry, lists the
blocks that control can reach once each, and every later block stands behind one of its
predecessors. -/
structure Ordered (f : Function) (order : List BlockId) : Prop where
  head : ∃ rest, order = f.entry :: rest
  nodup : order.Nodup
  mem_iff : ∀ b, b ∈ order ↔ f.Reachable b
  parent : ∀ b ∈ order, b = f.entry ∨ ∃ p, b ∈ f.succs p ∧ [p, b].Sublist order

end Function

/-- What holds of the search for the order of `f` at every moment. The line is the stack read from
its bottom, followed by the finished blocks. -/
structure Search (f : Function) (seen : IndexSet) (stack : List (BlockId × List BlockId))
    (order : List BlockId) : Prop where
  head : ∃ rest, (stack.map Prod.fst).reverse ++ order = f.entry :: rest
  nodup : ((stack.map Prod.fst).reverse ++ order).Nodup
  seen_iff : ∀ b, b ∈ seen ↔ b ∈ (stack.map Prod.fst).reverse ++ order
  reachable : ∀ b ∈ seen, f.Reachable b
  parent : ∀ b ∈ (stack.map Prod.fst).reverse ++ order, b = f.entry ∨
    ∃ p, b ∈ f.succs p ∧ [p, b].Sublist ((stack.map Prod.fst).reverse ++ order)
  /-- The successors of a finished block were all entered. -/
  finished : ∀ b ∈ order, ∀ c ∈ f.succs b, c ∈ seen
  /-- The successors of an unfinished block were entered or are still to be followed. -/
  pending : ∀ entry ∈ stack, ∀ c ∈ f.succs entry.1, c ∈ seen ∨ c ∈ entry.2
  /-- What is still to be followed are successors. -/
  later : ∀ entry ∈ stack, ∀ c ∈ entry.2, c ∈ f.succs entry.1

section Line

/-- A line with a block inserted right behind another one has that block in addition. -/
theorem perm_behind (before : List BlockId) (b next : BlockId) (order : List BlockId) :
    (before ++ b :: next :: order).Perm (next :: (before ++ b :: order)) := by
  have hmiddle : (before ++ [b] ++ next :: order).Perm (next :: (before ++ [b] ++ order)) :=
    List.perm_middle
  simpa using hmiddle

/-- It starts with the same block. -/
theorem head_behind {before : List BlockId} {b next first : BlockId} {order : List BlockId}
    (h : ∃ tail, before ++ b :: order = first :: tail) :
    ∃ tail, before ++ b :: next :: order = first :: tail := by
  obtain ⟨tail, htail⟩ := h
  cases before with
  | nil =>
    obtain ⟨rfl, _⟩ := List.cons.inj htail
    exact ⟨next :: order, rfl⟩
  | cons x before =>
    obtain ⟨rfl, _⟩ := List.cons.inj htail
    exact ⟨before ++ b :: next :: order, rfl⟩

end Line

namespace Search

variable {f : Function} {seen : IndexSet} {order : List BlockId}

/-- Before the first step only the entry was entered. -/
theorem start (f : Function) :
    Search f (IndexSet.insert ∅ f.entry) [(f.entry, f.succs f.entry)] [] where
  head := ⟨[], rfl⟩
  nodup := by simp
  seen_iff := by simp
  reachable := by
    intro b hb
    obtain rfl : b = f.entry := by simpa using hb
    exact f.reachable_entry
  parent := by
    intro b hb
    exact .inl (by simpa using hb)
  finished := by simp
  pending := by
    intro entry hentry c hc
    obtain rfl := List.mem_singleton.mp hentry
    exact .inr hc
  later := by
    intro entry hentry c hc
    obtain rfl := List.mem_singleton.mp hentry
    exact hc

/-- Finishing a block leaves the line as it is. -/
theorem finish {b : BlockId} {rest : List (BlockId × List BlockId)}
    (h : Search f seen ((b, []) :: rest) order) : Search f seen rest (b :: order) := by
  have hline : (((b, ([] : List BlockId)) :: rest).map Prod.fst).reverse ++ order =
      (rest.map Prod.fst).reverse ++ b :: order := by simp
  obtain ⟨hhead, hnodup, hseen, hreach, hparent, hfinished, hpending, hlater⟩ := h
  rw [hline] at hhead hnodup hparent
  refine ⟨hhead, hnodup, fun c => hline ▸ hseen c, hreach, hparent, ?_, ?_, ?_⟩
  · intro c hc d hd
    rcases List.mem_cons.mp hc with rfl | hc
    · exact (hpending _ List.mem_cons_self d hd).resolve_right (by simp)
    · exact hfinished c hc d hd
  · exact fun entry hentry => hpending entry (List.mem_cons_of_mem _ hentry)
  · exact fun entry hentry => hlater entry (List.mem_cons_of_mem _ hentry)

/-- Passing over a successor that was entered before changes nothing. -/
theorem skip {b next : BlockId} {later : List BlockId} {rest : List (BlockId × List BlockId)}
    (h : Search f seen ((b, next :: later) :: rest) order) (hnext : next ∈ seen) :
    Search f seen ((b, later) :: rest) order := by
  obtain ⟨hhead, hnodup, hseen, hreach, hparent, hfinished, hpending, hlater⟩ := h
  refine ⟨hhead, hnodup, hseen, hreach, hparent, hfinished, ?_, ?_⟩
  · intro entry hentry c hc
    rcases List.mem_cons.mp hentry with rfl | hentry
    · rcases hpending _ List.mem_cons_self c hc with hc | hc
      · exact .inl hc
      · rcases List.mem_cons.mp hc with rfl | hc
        · exact .inl hnext
        · exact .inr hc
    · exact hpending entry (List.mem_cons_of_mem _ hentry) c hc
  · intro entry hentry c hc
    rcases List.mem_cons.mp hentry with rfl | hentry
    · exact hlater _ List.mem_cons_self c (List.mem_cons_of_mem _ hc)
    · exact hlater entry (List.mem_cons_of_mem _ hentry) c hc

/-- Entering a block inserts it right behind the block it was entered from. -/
theorem enter {b next : BlockId} {later : List BlockId} {rest : List (BlockId × List BlockId)}
    (h : Search f seen ((b, next :: later) :: rest) order) (hnext : next ∉ seen) :
    Search f (seen.insert next) ((next, f.succs next) :: (b, later) :: rest) order := by
  obtain ⟨hhead, hnodup, hseen, hreach, hparent, hfinished, hpending, hlater⟩ := h
  have hedge : next ∈ f.succs b := hlater _ List.mem_cons_self next List.mem_cons_self
  have hold : (((b, next :: later) :: rest).map Prod.fst).reverse ++ order =
      (rest.map Prod.fst).reverse ++ b :: order := by simp
  have hnew : (((next, f.succs next) :: (b, later) :: rest).map Prod.fst).reverse ++ order =
      (rest.map Prod.fst).reverse ++ b :: next :: order := by simp
  rw [hold] at hhead hnodup hparent
  simp only [hold] at hseen
  have hgrow : ((rest.map Prod.fst).reverse ++ b :: order).Sublist
      ((rest.map Prod.fst).reverse ++ b :: next :: order) :=
    (List.Sublist.refl _).append (((List.sublist_cons_self next order)).cons_cons b)
  have hpair : [b, next].Sublist ((rest.map Prod.fst).reverse ++ b :: next :: order) := by
    refine List.Sublist.trans ?_ (List.sublist_append_right _ _)
    exact ((List.nil_sublist order).cons_cons next).cons_cons b
  have hperm := perm_behind (rest.map Prod.fst).reverse b next order
  have hkeep : ∀ {c}, c ∈ seen → c ∈ seen.insert next := fun hc => IndexSet.mem_insert.mpr (.inr hc)
  refine ⟨?_, ?_, ?_, ?_, ?_, ?_, ?_, ?_⟩
  · rw [hnew]
    exact head_behind hhead
  · rw [hnew, hperm.nodup_iff]
    exact List.nodup_cons.mpr ⟨fun hc => hnext ((hseen next).mpr hc), hnodup⟩
  · intro c
    rw [hnew, hperm.mem_iff, List.mem_cons, IndexSet.mem_insert, hseen]
  · intro c hc
    rcases IndexSet.mem_insert.mp hc with rfl | hc
    · have hb : b ∈ seen := (hseen b).mpr (by simp)
      exact (hreach b hb).succ hedge
    · exact hreach c hc
  · rw [hnew]
    intro c hc
    rcases List.mem_cons.mp (hperm.mem_iff.mp hc) with rfl | hc
    · exact .inr ⟨b, hedge, hpair⟩
    · exact (hparent c hc).imp id fun ⟨p, hp, hsub⟩ => ⟨p, hp, hsub.trans hgrow⟩
  · exact fun c hc d hd => hkeep (hfinished c hc d hd)
  · intro entry hentry c hc
    rcases List.mem_cons.mp hentry with rfl | hentry
    · exact .inr hc
    rcases List.mem_cons.mp hentry with rfl | hentry
    · rcases hpending _ List.mem_cons_self c hc with hc | hc
      · exact .inl (hkeep hc)
      · rcases List.mem_cons.mp hc with rfl | hc
        · exact .inl (IndexSet.mem_insert.mpr (.inl rfl))
        · exact .inr hc
    · exact (hpending entry (List.mem_cons_of_mem _ hentry) c hc).imp hkeep id
  · intro entry hentry c hc
    rcases List.mem_cons.mp hentry with rfl | hentry
    · exact hc
    rcases List.mem_cons.mp hentry with rfl | hentry
    · exact hlater _ List.mem_cons_self c (List.mem_cons_of_mem _ hc)
    · exact hlater entry (List.mem_cons_of_mem _ hentry) c hc

/-- When the stack is empty, the finished blocks are in order. -/
theorem ordered (h : Search f seen [] order) : f.Ordered order := by
  obtain ⟨hhead, hnodup, hseen, hreach, hparent, hfinished, _, _⟩ := h
  simp only [List.map_nil, List.reverse_nil, List.nil_append] at hhead hnodup hseen hparent
  refine ⟨hhead, hnodup, fun b => ⟨fun hb => hreach b ((hseen b).mpr hb), fun hb => ?_⟩, hparent⟩
  refine hb.induction ?_ fun p q _ hp hq => (hseen q).mp (hfinished p hp q hq)
  obtain ⟨rest, rfl⟩ := hhead
  exact List.mem_cons_self

/-- The search keeps its invariant to the end. -/
theorem explore {stack : List (BlockId × List BlockId)}
    (hsuccs : ∀ b, ∀ c ∈ f.succs b, c < f.blockCount) (h : Search f seen stack order) :
    f.Ordered (explore f.succs f.blockCount seen stack order) := by
  fun_induction MiddleEnd.explore f.succs f.blockCount seen stack order with
  | case1 => exact h.ordered
  | case2 seen order b rest ih => exact ih h.finish
  | case3 seen order b next later rest hnext ih => exact ih (h.enter hnext.2)
  | case4 seen order b next later rest hnext ih =>
    refine ih (h.skip ?_)
    have hlt := hsuccs b next (h.later _ List.mem_cons_self next List.mem_cons_self)
    exact Decidable.not_not.mp fun hout => hnext ⟨hlt, hout⟩

end Search

namespace Function

/-- What any block names as a successor is a successor of some block. -/
theorem mem_allSuccs {f : Function} {c : BlockId} : c ∈ f.allSuccs ↔ ∃ b, c ∈ f.succs b := by
  constructor
  · intro h
    obtain ⟨block, hblock, hc⟩ := List.mem_flatMap.mp h
    obtain ⟨b, hb⟩ := Array.mem_iff_getElem?.mp (Array.mem_toList_iff.mp hblock)
    exact ⟨b, succs_of_getElem? hb ▸ hc⟩
  · rintro ⟨b, hc⟩
    have hlt : b < f.blocks.size := lt_of_mem_succs hc
    have hb : f.blocks[b]? = some f.blocks[b] := Array.getElem?_eq_getElem hlt
    rw [succs_of_getElem? hb] at hc
    exact List.mem_flatMap.mpr ⟨_, Array.getElem_mem_toList hlt, hc⟩

/-- Blocks are checked successfully exactly when they all exist. -/
theorem checkBlocks_eq_ok_iff {f : Function} {ids : List BlockId} :
    f.checkBlocks ids = .ok () ↔ ∀ b ∈ ids, b < f.blockCount := by
  unfold checkBlocks
  cases hfind : ids.find? (f.blocks.size ≤ ·) with
  | none =>
    simp only [List.find?_eq_none, decide_eq_true_eq, Nat.not_le] at hfind
    exact iff_of_true rfl hfind
  | some b =>
    have hmem := List.mem_of_find?_eq_some hfind
    have hle : f.blocks.size ≤ b := by simpa using List.find?_some hfind
    refine iff_of_false (by simp) fun h => ?_
    exact absurd (h b hmem) (Nat.not_lt.mpr hle)

/-- What any block of a function with edges that agree names as a predecessor exists. -/
theorem Linked.checkBlocks_allPreds {f : Function} (h : f.Linked) : f.checkBlocks f.allPreds = .ok () := by
  refine checkBlocks_eq_ok_iff.mpr fun p hp => ?_
  obtain ⟨block, hblock, hp⟩ := List.mem_flatMap.mp hp
  obtain ⟨b, hb⟩ := Array.mem_iff_getElem?.mp (Array.mem_toList_iff.mp hblock)
  rw [← preds_of_getElem? hb] at hp
  exact lt_of_mem_succs ((h.mem_preds p b).mp hp)

/-- In a function with an entry and edges that stay inside it, the search can be made. -/
theorem reversePostorder_eq {f : Function} (hentry : f.entry < f.blockCount)
    (hsuccs : ∀ b, ∀ c ∈ f.succs b, c < f.blockCount) : f.reversePostorder = .ok (explore f.succs f.blockCount
      (IndexSet.insert ∅ f.entry) [(f.entry, f.succs f.entry)] []) := by
  have hne : f.blocks.isEmpty = false := by
    rw [Array.isEmpty_eq_false_iff_exists_mem]
    exact ⟨_, Array.getElem_mem hentry⟩
  have hcheck : f.checkBlocks (f.entry :: f.allSuccs) = .ok () := by
    refine checkBlocks_eq_ok_iff.mpr fun c hc => ?_
    rcases List.mem_cons.mp hc with rfl | hc
    · exact hentry
    · obtain ⟨b, hb⟩ := mem_allSuccs.mp hc
      exact hsuccs b c hb
  rw [reversePostorder, hne, hcheck]
  rfl

/-- The reverse postorder depends on the blocks and the edges between them alone. -/
theorem reversePostorder_congr {f g : Function} (hlinked : f.Linked) (hentry : f.entry < f.blockCount)
    (hlinked' : g.Linked) (hsame : g.entry = f.entry) (hcount : g.blockCount = f.blockCount)
    (hsuccs : g.succs = f.succs) : g.reversePostorder = f.reversePostorder := by
  rw [reversePostorder_eq (by rw [hsame, hcount]; exact hentry) hlinked'.succs_lt,
    reversePostorder_eq hentry hlinked.succs_lt, hsame, hcount, hsuccs]

/-- A function with blocks and an order has its entry among the blocks. -/
theorem entry_lt_of_reversePostorder {f : Function} {order : List BlockId}
    (h : f.reversePostorder = .ok order) (hne : 0 < f.blockCount) : f.entry < f.blockCount := by
  have hempty : f.blocks.isEmpty = false := by
    rw [Array.isEmpty_eq_false_iff_exists_mem]
    exact ⟨_, Array.getElem_mem hne⟩
  rw [reversePostorder, hempty] at h
  obtain ⟨_, hcheck, _⟩ := bind_eq_ok.mp h
  exact checkBlocks_eq_ok_iff.mp hcheck _ List.mem_cons_self

/-- The reverse postorder exists and is what its name says. -/
theorem reversePostorder_ordered {f : Function} (hentry : f.entry < f.blockCount)
    (hlinked : f.Linked) : ∃ order, f.reversePostorder = .ok order ∧ f.Ordered order :=
  ⟨_, reversePostorder_eq hentry hlinked.succs_lt, (Search.start f).explore hlinked.succs_lt⟩

end Function

end MiddleEnd
