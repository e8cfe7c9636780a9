import MiddleEnd.Proofs.SSA.Erasure

/-!
# Deriving the edges again

The derived edges are a function of the ends of the blocks: the successors are the targets inside the
function, each where it is named first, and the predecessors ascend. Deriving the edges changes neither
the ends of the blocks nor the order of arguments that are in order already. So deriving them a second
time changes nothing, and neither does deriving them after the conversion, which keeps the ends of all
blocks and puts the arguments of its phis in the order of the predecessors.

## Main definitions

* `groupArgs`: the arguments of a phi, one predecessor after the other.
* `Function.Derived`: the recorded edges are those that deriving them gives.

## Main statements

* `alignArgs_eq_groupArgs`: aligning the arguments groups them by predecessor.
* `Function.derived_buildEdges`: the edges after deriving them.
* `Function.Derived.buildEdges_eq`: when deriving the edges changes nothing.
* `Conversion.Valid.targets_eq`: the conversion keeps where the blocks lead.
* `Function.buildEdges_exact`: what deriving the edges does.
-/

namespace MiddleEnd

-- ════════════════════════════════════════════════════════════════════════
-- The order of the arguments
-- ════════════════════════════════════════════════════════════════════════

section StableSort

variable {α : Type} {key : α → Nat} {xs : List α}

/-- A list that is sorted by a key holds the elements with small keys first. -/
theorem eq_filter_append_of_sorted (h : xs.Pairwise fun x y => key x ≤ key y) (bound : Nat) :
    xs = xs.filter (key · < bound) ++ xs.filter (bound ≤ key ·) := by
  induction xs with
  | nil => rfl
  | cons x xs ih =>
    obtain ⟨hx, hxs⟩ := List.pairwise_cons.mp h
    by_cases hlt : key x < bound
    · simpa [hlt, Nat.not_le.mpr hlt] using ih hxs
    · have hge : ∀ y ∈ xs, bound ≤ key y := fun y hy => Nat.le_trans (Nat.not_lt.mp hlt) (hx y hy)
      have hnone : xs.filter (key · < bound) = [] :=
        List.filter_eq_nil_iff.mpr fun y hy => by simpa using hge y hy
      have hall : xs.filter (bound ≤ key ·) = xs :=
        List.filter_eq_self.mpr fun y hy => by simpa using hge y hy
      simp [hlt, Nat.not_lt.mp hlt, hnone, hall]

/-- A list that is sorted by a key holds the elements with each key one after the other. -/
theorem eq_flatMap_of_sorted (h : xs.Pairwise fun x y => key x ≤ key y) (bound : Nat)
    (hbound : ∀ x ∈ xs, key x < bound) :
    xs = (List.range bound).flatMap fun k => xs.filter (key · = k) := by
  induction bound generalizing xs with
  | zero =>
    have hnil : xs = [] := List.eq_nil_iff_forall_not_mem.mpr fun x hx => Nat.not_lt_zero _ (hbound x hx)
    rw [hnil]
    rfl
  | succ bound ih =>
    have hsmall := ih (h.filter (key · < bound)) fun x hx => by simpa using (List.mem_filter.mp hx).2
    have hkeep : ∀ k ∈ List.range bound,
        (xs.filter (key · < bound)).filter (key · = k) = xs.filter (key · = k) := by
      intro k hk
      rw [List.filter_filter]
      refine List.filter_congr fun x _ => ?_
      have hlt := List.mem_range.mp hk
      by_cases hx : key x = k <;> simp [hx, hlt]
    have hlast : xs.filter (bound ≤ key ·) = xs.filter (key · = bound) := by
      refine List.filter_congr fun x hx => ?_
      have hlt := hbound x hx
      simp only [decide_eq_decide]
      omega
    rw [List.range_succ, List.flatMap_append, ← List.flatMap_congr hkeep, ← hsmall]
    simpa [hlast] using eq_filter_append_of_sorted h bound

/-- The order by a key is transitive. -/
theorem keyLe_trans (key : α → Nat) (x y z : α) (hxy : decide (key x ≤ key y) = true)
    (hyz : decide (key y ≤ key z) = true) : decide (key x ≤ key z) = true :=
  decide_eq_true ((of_decide_eq_true hxy).trans (of_decide_eq_true hyz))

/-- The order by a key compares any two elements. -/
theorem keyLe_total (key : α → Nat) (x y : α) :
    (decide (key x ≤ key y) || decide (key y ≤ key x)) = true := by
  rw [Bool.or_eq_true, decide_eq_true_eq, decide_eq_true_eq]
  exact Nat.le_total _ _

/-- Sorting by a key keeps the order of the elements with one key. -/
theorem filter_mergeSort (key : α → Nat) (xs : List α) (k : Nat) :
    (xs.mergeSort fun x y => key x ≤ key y).filter (key · = k) = xs.filter (key · = k) := by
  have hequal : (xs.filter (key · = k)).Pairwise fun x y => decide (key x ≤ key y) = true := by
    refine List.pairwise_of_forall_mem_list fun x hx y hy => ?_
    have hkx := of_decide_eq_true (List.mem_filter.mp hx).2
    have hky := of_decide_eq_true (List.mem_filter.mp hy).2
    exact decide_eq_true (by omega)
  have hsub := List.sublist_mergeSort (keyLe_trans key) (keyLe_total key) hequal List.filter_sublist
  have hsub' := hsub.filter fun x => decide (key x = k)
  rw [List.filter_filter] at hsub'
  simp only [Bool.and_self] at hsub'
  exact (hsub'.eq_of_length ((List.mergeSort_perm xs _).filter _).length_eq.symm).symm

end StableSort

/-- The arguments of a phi from each predecessor in turn, then those from elsewhere, each in the order in
which they stood. -/
def groupArgs (preds : List BlockId) (args : List PhiArg) : List PhiArg :=
  preds.flatMap (fun pred => args.filter (·.pred = pred)) ++ args.filter (·.pred ∉ preds)

theorem pairwise_alignArgs (preds : List BlockId) (args : List PhiArg) :
    (alignArgs preds args).Pairwise fun a b => preds.idxOf a.pred ≤ preds.idxOf b.pred := by
  have hsort := List.pairwise_mergeSort (keyLe_trans fun a : PhiArg => preds.idxOf a.pred)
    (keyLe_total _) args
  exact hsort.imp of_decide_eq_true

/-- Aligning the arguments of a phi groups them by predecessor. -/
theorem alignArgs_eq_groupArgs {preds : List BlockId} (hnodup : preds.Nodup) (args : List PhiArg) :
    alignArgs preds args = groupArgs preds args := by
  have hgroups := eq_flatMap_of_sorted (pairwise_alignArgs preds args) (preds.length + 1)
    fun a _ => Nat.lt_succ_of_le List.idxOf_le_length
  have hstable : ∀ k, (alignArgs preds args).filter (preds.idxOf ·.pred = k) =
      args.filter (preds.idxOf ·.pred = k) := filter_mergeSort _ args
  have hplaces : List.range preds.length = preds.map preds.idxOf := by
    refine List.ext_getElem (by simp) fun i hi _ => ?_
    simp [hnodup.idxOf_getElem]
  have hpreds : (List.range preds.length).flatMap (fun k => args.filter (preds.idxOf ·.pred = k)) =
      preds.flatMap fun pred => args.filter (·.pred = pred) := by
    rw [hplaces, List.flatMap_map]
    refine List.flatMap_congr fun pred hpred => List.filter_congr fun a _ => ?_
    rw [decide_eq_decide, eq_comm, List.idxOf_inj hpred, eq_comm]
  have hothers : args.filter (preds.idxOf ·.pred = preds.length) = args.filter (·.pred ∉ preds) :=
    List.filter_congr fun a _ => by simp [List.idxOf_eq_length_iff]
  rw [hgroups, List.range_succ, List.flatMap_append]
  simp only [hstable, hpreds, hothers, List.flatMap_singleton, groupArgs]

-- ════════════════════════════════════════════════════════════════════════
-- The derived edges
-- ════════════════════════════════════════════════════════════════════════

theorem eraseDups_concat (xs : List Nat) (x : Nat) :
    (xs ++ [x]).eraseDups = if x ∈ xs then xs.eraseDups else xs.eraseDups ++ [x] := by
  rw [List.eraseDups_append]
  by_cases hx : x ∈ xs <;> simp [hx, List.removeAll, List.eraseDups_cons]

namespace EdgeTables

/-- The successors of a block are the targets of its edges inside the function, each where it comes
first. -/
theorem succs_foldl_link (count : Nat) (edges : List (BlockId × BlockId)) (b : BlockId) :
    (edges.foldl (EdgeTables.link count) ⟨fun _ => [], fun _ => []⟩).succs b =
      (((edges.filter (·.1 = b)).map (·.2)).filter (· < count)).eraseDups := by
  induction edges using List.reverseRecOn generalizing b with
  | nil => rfl
  | append_singleton edges edge ih =>
    obtain ⟨source, target⟩ := edge
    have hmem : target ∈ (edges.foldl (EdgeTables.link count) ⟨fun _ => [], fun _ => []⟩).succs source ↔
        target ∈ (((edges.filter (·.1 = source)).map (·.2)).filter (· < count)) := by
      rw [ih, List.mem_eraseDups]
    rw [List.foldl_append, List.foldl_cons, List.foldl_nil, link]
    by_cases hb : source = b
    · subst hb
      by_cases hge : count ≤ target
      · simp [hge, ih]
      · rw [List.filter_append, List.map_append, List.filter_append]
        have hlast : ((([(source, target)].filter (·.1 = source)).map (·.2)).filter (· < count)) =
            [target] := by simp [Nat.not_le.mp hge]
        rw [hlast, eraseDups_concat]
        by_cases hold : target ∈ (((edges.filter (·.1 = source)).map (·.2)).filter (· < count))
        · rw [if_pos (.inr (hmem.mpr hold)), if_pos hold, ih]
        · rw [if_neg (by rw [hmem]; exact not_or.mpr ⟨hge, hold⟩), if_neg hold]
          simp [ih]
    · have hskip : [(source, target)].filter (·.1 = b) = [] := by simp [hb]
      rw [List.filter_append, hskip, List.append_nil, ← ih]
      split
      · rfl
      · exact if_neg (Ne.symm hb)

/-- Each edge adds at most its source to the predecessors of a block. -/
theorem preds_foldl_link_sublist (count : Nat) (edges : List (BlockId × BlockId)) (t : EdgeTables)
    (b : BlockId) :
    ((edges.foldl (EdgeTables.link count) t).preds b).Sublist (t.preds b ++ edges.map (·.1)) := by
  induction edges generalizing t with
  | nil => simp
  | cons edge edges ih =>
    have hstep : ((t.link count edge).preds b).Sublist (t.preds b ++ [edge.1]) := by
      unfold link
      split
      · exact List.sublist_append_left _ _
      · dsimp only
        split
        · exact List.Sublist.refl _
        · exact List.sublist_append_left _ _
    rw [List.foldl_cons, List.map_cons, ← List.singleton_append, ← List.append_assoc]
    exact (ih (t.link count edge)).trans (hstep.append_right _)

end EdgeTables

theorem Instr.mapPhiArgs_eq_self {change : List PhiArg → List PhiArg} {i : Instr}
    (h : change i.phiArgs = i.phiArgs) : i.mapPhiArgs change = i := by
  unfold mapPhiArgs
  unfold phiArgs at h
  split
  · rename_i var args hdetail
    rw [hdetail] at h
    rw [show change args = args from h, ← hdetail]
  · rfl

theorem Block.phis_alignPhis (block : Block) :
    block.alignPhis.phis = block.phis.map (·.mapPhiArgs (alignArgs block.preds)) := by
  refine (phis_append ?_ block.isPhi_head_body).1
  intro phi hphi
  obtain ⟨old, hold, rfl⟩ := List.mem_map.mp hphi
  simpa [Instr.isPhi] using Block.isPhi_of_mem_phis hold

/-- Aligning the phis of a block keeps its terminator. -/
theorem Block.terminator?_alignPhis (block : Block) : block.alignPhis.terminator? = block.terminator? := by
  have hsplit : block.instrs = block.phis ++ block.body := List.takeWhile_append_dropWhile.symm
  have hlast : block.last? = block.body.getLast?.or block.phis.getLast? := by
    rw [last?, hsplit, List.getLast?_append]
  have hlast' : block.alignPhis.last? = block.body.getLast?.or
      (block.phis.getLast?.map (·.mapPhiArgs (alignArgs block.preds))) := by
    rw [last?, alignPhis, mapPhis, List.getLast?_append, List.getLast?_map]
  rw [terminator?, terminator?, hlast, hlast']
  cases block.body.getLast? with
  | some last => rfl
  | none =>
    -- Then the last instruction is a phi, if there is any.
    have hphi : ∀ phi ∈ block.phis.getLast?, phi.isTerminator = false := by
      intro phi hphi
      have hisPhi := Block.isPhi_of_mem_phis (List.mem_of_mem_getLast? hphi)
      have hopcode : phi.opcode = .phi := by simpa [Instr.isPhi] using hisPhi
      rw [Instr.isTerminator, hopcode]
      rfl
    rw [Option.none_or, Option.none_or, Option.filter_eq_none_iff.mpr, Option.filter_eq_none_iff.mpr]
    · intro phi hmem
      simp [hphi phi hmem]
    · intro phi hmem
      obtain ⟨old, hold, rfl⟩ := Option.map_eq_some_iff.mp hmem
      simpa [Instr.isTerminator] using hphi old hold

namespace Function

variable {f g : Function}

/-- The edges that a block asks for lead where the block leads. -/
theorem map_snd_filter_edges {b : BlockId} (hb : b < f.blockCount) :
    (f.edges.filter (·.1 = b)).map (·.2) = f.targets b := by
  have hown : ∀ a, (((f.targets a).map fun target => (a, target)).filter (·.1 = b)).map (·.2) =
      if a = b then f.targets a else [] := by
    intro a
    by_cases hab : a = b <;> simp [hab, List.filter_map, Function.comp_def]
  obtain ⟨before, after, hsplit⟩ := List.append_of_mem (List.mem_range.mpr hb)
  have hnodup : (before ++ b :: after).Nodup := hsplit ▸ List.nodup_range
  rw [List.nodup_middle, List.nodup_cons, List.mem_append, not_or] at hnodup
  have hnone : ∀ others : List BlockId, b ∉ others →
      others.flatMap (fun a => if a = b then f.targets a else []) = [] := by
    intro others hothers
    refine List.flatMap_eq_nil_iff.mpr fun a ha => if_neg ?_
    rintro rfl
    exact hothers ha
  rw [edges, blockIds, List.filter_flatMap, List.map_flatMap]
  simp only [hown]
  rw [show List.range f.blocks.size = before ++ b :: after from hsplit, List.flatMap_append,
    List.flatMap_cons, hnone before hnodup.1.1, hnone after hnodup.1.2]
  simp

/-- The sources of the edges ascend. -/
theorem pairwise_map_fst_edges (f : Function) : (f.edges.map (·.1)).Pairwise (· ≤ ·) := by
  rw [edges, List.map_flatMap, List.pairwise_flatMap]
  simp only [List.map_map, List.mem_map, Function.comp_apply]
  refine ⟨fun a _ => ?_, ?_⟩
  · refine List.pairwise_of_forall_mem_list ?_
    simp only [List.mem_map, Function.comp_apply]
    rintro x ⟨_, _, rfl⟩ y ⟨_, _, rfl⟩
    exact Nat.le_refl a
  · refine List.pairwise_lt_range.imp fun hlt => ?_
    rintro x ⟨_, _, rfl⟩ y ⟨_, _, rfl⟩
    exact Nat.le_of_lt hlt

/-- The edges that the blocks record are those that the ends of the blocks ask for: the successors in the
order of the targets, the predecessors in ascending order. -/
structure Derived (f : Function) : Prop where
  succs : ∀ b < f.blockCount, f.succs b = ((f.targets b).filter (· < f.blockCount)).eraseDups
  preds : ∀ b, (f.preds b).Pairwise (· < ·)
  mem_preds : ∀ a b, a ∈ f.preds b ↔ b ∈ f.succs a

/-- Two functions that record the same edges and whose blocks lead to the same targets. -/
theorem Derived.of_sameEdges (h : f.Derived) (hsame : SameEdges f g)
    (htargets : ∀ b < f.blockCount, g.targets b = f.targets b) : g.Derived := by
  refine ⟨fun b hb => ?_, ?_, ?_⟩
  · rw [hsame.blockCount] at hb ⊢
    rw [hsame.succs, htargets b hb]
    exact h.succs b hb
  · rw [hsame.preds]
    exact h.preds
  · rw [hsame.preds, hsame.succs]
    exact h.mem_preds

/-- A block that ends in a terminator leads where the terminator says. -/
theorem targets_of_getLast? {b : BlockId} {block : Block} (hblock : f.blocks[b]? = some block)
    {last : Instr} (hlast : block.instrs.getLast? = some last) (hterm : last.isTerminator = true) :
    f.targets b = last.targets := by
  have hterminator : block.terminator? = some last := by
    rw [Block.terminator?, Block.last?, hlast, Option.filter_some, if_pos hterm]
  rw [targets, hblock, Option.bind_some, hterminator]

/-- A block that does not end in a terminator leads to the next one. -/
theorem targets_of_open {b : BlockId} {block : Block} (hblock : f.blocks[b]? = some block)
    (hopen : ∀ last, block.instrs.getLast? = some last → last.isTerminator = false) :
    f.targets b = if b + 1 < f.blockCount then [b + 1] else [] := by
  have hnone : block.terminator? = none := by
    rw [Block.terminator?, Option.filter_eq_none_iff]
    intro last hlast
    simp [hopen last hlast]
  rw [targets, hblock, Option.bind_some, hnone]
  rfl

/-- Deriving the edges changes only blocks. -/
theorem buildEdges_blocks (f : Function) : f.buildEdges = { f with blocks := f.buildEdges.blocks } := by
  rw [f.buildEdges_eq_edgeTables]
  rfl

/-- Deriving the edges keeps where the blocks lead. -/
theorem targets_buildEdges (f : Function) (b : BlockId) : f.buildEdges.targets b = f.targets b := by
  have hsize : f.buildEdges.blocks.size = f.blocks.size := f.linked_buildEdges.2.1
  rw [targets, targets, getElem?_buildEdges f.buildEdges_eq_edgeTables, hsize]
  cases f.blocks[b]? with
  | none => rfl
  | some block =>
    simp only [Option.map_some, Option.bind_some, Block.terminator?_alignPhis]
    rfl

/-- What the edges are after deriving them. -/
theorem derived_buildEdges (f : Function) : f.buildEdges.Derived := by
  obtain ⟨hlinked, hcount, _⟩ := f.linked_buildEdges
  refine ⟨fun b hb => ?_, fun b => ?_, fun a b => hlinked.mem_preds a b⟩
  · rw [hcount] at hb ⊢
    obtain ⟨block, hblock⟩ := f.exists_getElem?_blocks hb
    rw [targets_buildEdges, ← map_snd_filter_edges hb, ← EdgeTables.succs_foldl_link]
    rw [Function.succs, getElem?_buildEdges f.buildEdges_eq_edgeTables, hblock]
    rfl
  · have hle : (f.buildEdges.preds b).Pairwise (· ≤ ·) := by
      rw [Function.preds, getElem?_buildEdges f.buildEdges_eq_edgeTables]
      cases f.blocks[b]? with
      | none => exact List.Pairwise.nil
      | some block =>
        exact f.pairwise_map_fst_edges.sublist
          (EdgeTables.preds_foldl_link_sublist f.blockCount f.edges ⟨fun _ => [], fun _ => []⟩ b)
    exact (hle.and (hlinked.preds_nodup b)).imp fun h => Nat.lt_of_le_of_ne h.1 h.2

/-- Each block is the old one, with the derived edges and the arguments of the phis at its head grouped by
predecessor. -/
theorem buildEdges_eq_groupArgs (f : Function) :
    f.buildEdges = { f with blocks := f.blocks.mapIdx fun b block =>
      { block with
        preds := f.buildEdges.preds b
        succs := f.buildEdges.succs b
        instrs := block.phis.map (·.mapPhiArgs (groupArgs (f.buildEdges.preds b))) ++ block.body } } := by
  have hblocks : f.buildEdges.blocks = f.blocks.mapIdx fun b block =>
      { block with
        preds := f.buildEdges.preds b
        succs := f.buildEdges.succs b
        instrs := block.phis.map (·.mapPhiArgs (groupArgs (f.buildEdges.preds b))) ++ block.body } := by
    refine Array.ext_getElem? fun b => ?_
    have hnodup := f.linked_buildEdges.1.preds_nodup b
    rw [Array.getElem?_mapIdx, ← funext (alignArgs_eq_groupArgs hnodup), Function.preds, Function.succs,
      getElem?_buildEdges f.buildEdges_eq_edgeTables]
    cases f.blocks[b]? <;> rfl
  exact f.buildEdges_blocks.trans (congrArg (fun blocks => { f with blocks }) hblocks)

-- ════════════════════════════════════════════════════════════════════════
-- Deriving them again
-- ════════════════════════════════════════════════════════════════════════

/-- Ascending predecessors are determined by the successors. -/
theorem Derived.preds_eq (hf : f.Derived) (hg : g.Derived) (hsuccs : ∀ b, f.succs b = g.succs b)
    (b : BlockId) : f.preds b = g.preds b := by
  have hnodup : ∀ {k : Function}, k.Derived → (k.preds b).Nodup := fun hk =>
    (hk.preds b).imp Nat.ne_of_lt
  have hperm : (f.preds b).Perm (g.preds b) :=
    (List.perm_ext_iff_of_nodup (hnodup hf) (hnodup hg)).mpr fun a => by
      rw [hf.mem_preds, hg.mem_preds, hsuccs]
  exact hperm.eq_of_pairwise (fun a c _ _ hac hca => absurd hac (Nat.lt_asymm hca)) (hf.preds b)
    (hg.preds b)

/-- Deriving the edges changes nothing if the recorded edges are the derived ones and the arguments of
the phis are in order. -/
theorem Derived.buildEdges_eq (h : f.Derived)
    (haligned : ∀ (b : BlockId) block, f.blocks[b]? = some block → ∀ phi ∈ block.phis,
      alignArgs block.preds phi.phiArgs = phi.phiArgs) : f.buildEdges = f := by
  have hcount : f.buildEdges.blockCount = f.blockCount := f.linked_buildEdges.2.1
  have hsuccs : ∀ b, f.buildEdges.succs b = f.succs b := by
    intro b
    by_cases hb : b < f.blockCount
    · rw [f.derived_buildEdges.succs b (hcount ▸ hb), targets_buildEdges, hcount, h.succs b hb]
    · have hnone : f.blocks[b]? = none := Array.getElem?_eq_none (Nat.not_lt.mp hb)
      rw [Function.succs, Function.succs, getElem?_buildEdges f.buildEdges_eq_edgeTables, hnone]
      rfl
  have hpreds := f.derived_buildEdges.preds_eq h hsuccs
  have hblocks : f.buildEdges.blocks = f.blocks := by
    refine Array.ext_getElem? fun b => ?_
    have hrecorded := getElem?_buildEdges f.buildEdges_eq_edgeTables b
    have hpb := hpreds b
    have hsb := hsuccs b
    rw [hrecorded]
    cases hblock : f.blocks[b]? with
    | none => rfl
    | some block =>
      rw [Function.preds, hrecorded, preds_of_getElem? hblock, hblock] at hpb
      rw [Function.succs, hrecorded, succs_of_getElem? hblock, hblock] at hsb
      have hpb' : f.edgeTables.preds b = block.preds := hpb
      have hsb' : f.edgeTables.succs b = block.succs := hsb
      have hphis : block.phis.map (·.mapPhiArgs (alignArgs block.preds)) = block.phis := by
        refine (List.map_congr_left fun phi hphi => ?_).trans (List.map_id _)
        exact Instr.mapPhiArgs_eq_self (haligned b block hblock phi hphi)
      have hself : block.alignPhis = block := by
        rw [Block.alignPhis, Block.mapPhis, hphis, Block.phis, Block.body, List.takeWhile_append_dropWhile]
      rw [hpb', hsb', Option.map_some]
      exact congrArg some hself
  rw [f.buildEdges_blocks, hblocks]

/-- That a function is marked as converted makes no difference to its edges. -/
theorem buildEdges_mark (g : Function) :
    buildEdges { g with isSsa := true } = { g.buildEdges with isSsa := true } := by
  rw [buildEdges_eq_edgeTables, buildEdges_eq_edgeTables]
  rfl

/-- Deriving the edges a second time changes nothing. -/
theorem buildEdges_buildEdges (f : Function) : f.buildEdges.buildEdges = f.buildEdges := by
  refine f.derived_buildEdges.buildEdges_eq fun b block hblock phi hphi => ?_
  rw [getElem?_buildEdges f.buildEdges_eq_edgeTables, Option.map_eq_some_iff] at hblock
  obtain ⟨old, _, rfl⟩ := hblock
  obtain ⟨oldPhi, _, rfl⟩ := List.mem_map.mp (Block.phis_alignPhis _ ▸ hphi)
  rw [Instr.phiArgs_mapPhiArgs _ _ (alignArgs_nil _)]
  exact List.mergeSort_of_pairwise ((pairwise_alignArgs _ _).imp decide_eq_true)

end Function

-- ════════════════════════════════════════════════════════════════════════
-- After the conversion
-- ════════════════════════════════════════════════════════════════════════

/-- Arguments that belong to the predecessors in order stay where they are. -/
theorem alignArgs_eq_self {preds : List BlockId} {args : List PhiArg} (hnodup : preds.Nodup)
    (hargs : args.map (·.pred) = preds) : alignArgs preds args = args := by
  have hplaces : preds.Pairwise fun p q => preds.idxOf p ≤ preds.idxOf q := by
    refine List.pairwise_iff_getElem.mpr fun i j hi hj hlt => ?_
    rw [hnodup.idxOf_getElem, hnodup.idxOf_getElem]
    exact Nat.le_of_lt hlt
  refine List.mergeSort_of_pairwise ?_
  rw [← hargs, List.pairwise_map] at hplaces
  exact hargs ▸ hplaces.imp decide_eq_true

namespace Conversion.Valid

variable {f g : Function} {c : Conversion f} {avail : Lowering.Avail}

/-- The conversion keeps where the blocks lead. -/
theorem targets_eq (h : c.Valid g) (hlow : f.Lowered avail) {b : BlockId} (hb : b < f.blockCount) :
    g.targets b = f.targets b := by
  have hblock := Array.getElem?_eq_getElem hb
  have hb' : b < g.blockCount := h.blockCount_eq ▸ hb
  have hblock' := Array.getElem?_eq_getElem hb'
  obtain ⟨origin, horigin⟩ := h.exists_origin
  obtain ⟨joins, rest, hcode, _, _, _, hforall⟩ := h.exists_code_eq hlow horigin hblock
  -- The last instruction is a terminator before and after, and leads to the same blocks.
  obtain ⟨front, last, hsplit, hterm, _⟩ := hlow.ends b hb
  have hreverse := List.forall₂_reverse_iff.mpr hforall
  rw [hsplit, List.reverse_append] at hreverse
  obtain ⟨last', front', hversioned, _, hrest⟩ := List.forall₂_cons_left_iff.mp hreverse
  have hterm' : last'.isTerminator = true := by
    rw [Instr.isTerminator, hversioned.opcode]
    exact hterm
  rw [Function.code_of_getElem? hblock] at hsplit
  rw [Function.code_of_getElem? hblock', List.reverse_eq_cons_iff.mp hrest, ← List.append_assoc] at hcode
  have hlast : f.blocks[b].instrs.getLast? = some last := by rw [hsplit, List.getLast?_concat]
  have hlast' : g.blocks[b].instrs.getLast? = some last' := by rw [hcode, List.getLast?_concat]
  rw [Function.targets_of_getLast? hblock hlast hterm, Function.targets_of_getLast? hblock' hlast' hterm',
    hversioned.targets]

/-- Deriving the edges after the conversion changes nothing. -/
theorem buildEdges_eq (h : c.Valid g) (hlow : f.Lowered avail) (hderived : f.Derived) :
    g.buildEdges = g := by
  have hplain := hlow.runnable.toPlain
  have hsame : Function.SameEdges f g := ⟨h.entry_eq, h.blockCount_eq, funext (h.succs_eq hplain),
    funext (h.preds_eq hplain), funext h.id?_eq⟩
  refine (hderived.of_sameEdges hsame fun b hb => h.targets_eq hlow hb).buildEdges_eq ?_
  intro b block' hblock' phi hphi
  refine alignArgs_eq_self ?_ (h.map_pred_phiArgs hlow hblock' hphi)
  rw [← Function.preds_of_getElem? hblock', h.preds_eq hplain]
  exact hlow.linked.preds_nodup b

end Conversion.Valid

/-- Every lowered function records the edges that the ends of its blocks ask for. -/
theorem SourceUnit.derived_lowerFunction (unit : SourceUnit) {texts texts' : Interner}
    {decl : FunctionDecl} {f : Function} (h : unit.lowerFunction texts decl = .ok (some f, texts')) :
    f.Derived := by
  obtain ⟨_, _, _, _, _, _, _, _, _, _, rfl, _⟩ := unit.exists_lowerBody h
  exact Function.derived_buildEdges _

/-- Deriving the edges of a lowered function after the conversion changes nothing. -/
theorem SourceUnit.exists_constructSsa_derived (unit : SourceUnit) {texts texts' : Interner}
    {decl : FunctionDecl} {f : Function} (h : unit.lowerFunction texts decl = .ok (some f, texts')) :
    ∃ g, f.constructSsa = .ok g ∧ g.buildEdges = g := by
  obtain ⟨avail, hlowered⟩ := unit.lowered_lowerFunction h
  obtain ⟨c, g, hconstruct, hvalid⟩ := f.constructSsa_eq hlowered.runnable.toPlain
  refine ⟨_, hconstruct, ?_⟩
  rw [Function.buildEdges_mark, hvalid.buildEdges_eq hlowered (unit.derived_lowerFunction h)]

namespace Function

/-- Deriving the edges of a function records where its blocks lead, inside the function and each target
once: a block that ends in a terminator leads where the terminator says, any other to the next one.
Predecessors ascend and agree with the successors, the arguments of the phis at the head of a block are
grouped by predecessor, and all else stays. Doing it again changes nothing, also after the conversion of a
lowered function. -/
theorem buildEdges_exact (f : Function) :
    (∀ (b : BlockId) block, f.blocks[b]? = some block →
      (∀ last, block.instrs.getLast? = some last → last.isTerminator = true →
        f.buildEdges.succs b = (last.targets.filter (· < f.blockCount)).eraseDups ∧
          (last.opcode = .ret → f.buildEdges.succs b = [])) ∧
      ((∀ last, block.instrs.getLast? = some last → last.isTerminator = false) →
        f.buildEdges.succs b = if b + 1 < f.blockCount then [b + 1] else [])) ∧
    (∀ b, (f.buildEdges.preds b).Pairwise (· < ·)) ∧
    (∀ a b, a ∈ f.buildEdges.preds b ↔ b ∈ f.buildEdges.succs a) ∧
    f.buildEdges = { f with blocks := f.blocks.mapIdx fun b block =>
      { block with
        preds := f.buildEdges.preds b
        succs := f.buildEdges.succs b
        instrs := block.phis.map (·.mapPhiArgs (groupArgs (f.buildEdges.preds b))) ++ block.body } } ∧
    (∀ b args, (groupArgs (f.buildEdges.preds b) args).Perm args) ∧
    f.buildEdges.buildEdges = f.buildEdges ∧
    ∀ (unit : SourceUnit) (texts texts' : Interner) (decl : FunctionDecl),
      unit.lowerFunction texts decl = .ok (some f, texts') →
        ∃ g, f.constructSsa = .ok g ∧ g.buildEdges = g := by
  have hderived := f.derived_buildEdges
  obtain ⟨hlinked, hcount, _⟩ := f.linked_buildEdges
  refine ⟨fun b block hblock => ?_, hderived.preds, hderived.mem_preds, f.buildEdges_eq_groupArgs,
    fun b args => ?_, f.buildEdges_buildEdges, fun unit _ _ _ => unit.exists_constructSsa_derived⟩
  · have hb : b < f.buildEdges.blockCount := hcount ▸ (Array.getElem?_eq_some_iff.mp hblock).1
    rw [hderived.succs b hb, targets_buildEdges, hcount]
    refine ⟨fun last hlast hterm => ?_, fun hopen => ?_⟩
    · rw [targets_of_getLast? hblock hlast hterm]
      refine ⟨rfl, fun hret => ?_⟩
      rw [Instr.targets, hret]
      rfl
    · rw [targets_of_open hblock hopen]
      split
      · rename_i hnext
        simp [hnext, List.eraseDups_cons]
      · rfl
  · rw [← alignArgs_eq_groupArgs (hlinked.preds_nodup b)]
    exact List.mergeSort_perm _ _

end Function

/-- The edges of the countdown are derived when it is lowered, and deriving them again, before or after
the conversion, changes nothing. -/
theorem countdown_edges : ∃ f texts g,
    countdownUnit.lowerFunction {} countdownDecl = .ok (some f, texts) ∧
      f.buildEdges.buildEdges = f.buildEdges ∧ f.constructSsa = .ok g ∧ g.buildEdges = g := by
  obtain ⟨f, texts, hlower⟩ := countdown_lowers
  obtain ⟨_, _, _, _, _, hagain, hconverted⟩ := f.buildEdges_exact
  obtain ⟨g, hg, hsame⟩ := hconverted countdownUnit {} texts countdownDecl hlower
  exact ⟨f, texts, g, hlower, hagain, hg, hsame⟩

end MiddleEnd
