import MiddleEnd.Dominance.Frontier
import MiddleEnd.Proofs.Dominance.Forest
import MiddleEnd.Proofs.Success

/-!
# The recorded frontiers

Recording the frontiers changes nothing else in a function. A block with several predecessors is in
the frontier of exactly the blocks that a way up from one of its predecessors passes before it comes
to the parent of the block.

## Main definitions

* `Function.recordFrontiers`: the function with given frontiers.
* `Function.Passes`: a way up passes a block before it stops.

## Main statements

* `Function.withFrontiers_eq`: the frontiers are recorded, and what they hold.
* `Function.Forest.passes_of_above`: a way up passes all that is not above the block where it stops.
-/

namespace MiddleEnd

namespace Function

/-- The function with each block recording the frontier that `table` gives it. -/
def recordFrontiers (f : Function) (table : BlockId → List BlockId) : Function :=
  { f with blocks := f.blocks.mapIdx fun b block => { block with frontier := table b } }

section Record

variable (f : Function) (table : BlockId → List BlockId) (b : BlockId)

theorem getElem?_recordFrontiers : (f.recordFrontiers table).blocks[b]? =
    f.blocks[b]?.map fun block => { block with frontier := table b } := by
  simp [recordFrontiers]

@[simp]
theorem succs_recordFrontiers : (f.recordFrontiers table).succs b = f.succs b := by
  simp only [succs, getElem?_recordFrontiers, Option.map_map]
  rfl

@[simp]
theorem preds_recordFrontiers : (f.recordFrontiers table).preds b = f.preds b := by
  simp only [preds, getElem?_recordFrontiers, Option.map_map]
  rfl

@[simp]
theorem id?_recordFrontiers : (f.recordFrontiers table).id? b = f.id? b := by
  simp only [id?, getElem?_recordFrontiers, Option.map_map]
  rfl

@[simp]
theorem idom?_recordFrontiers : (f.recordFrontiers table).idom? b = f.idom? b := by
  simp only [idom?, getElem?_recordFrontiers, Option.bind_map]
  rfl

@[simp]
theorem blockCount_recordFrontiers : (f.recordFrontiers table).blockCount = f.blockCount := by
  simp [recordFrontiers, blockCount]

theorem frontier_recordFrontiers (hb : b < f.blockCount) :
    (f.recordFrontiers table).frontier b = table b := by
  have hb' : f.blocks[b]? = some f.blocks[b] := Array.getElem?_eq_getElem hb
  simp [frontier, getElem?_recordFrontiers, hb']

end Record

-- ════════════════════════════════════════════════════════════════════════
-- Ways up
-- ════════════════════════════════════════════════════════════════════════

/-- The way up from `p` passes `x` within the given number of steps, and before it comes to `stop`. -/
def Passes (f : Function) (stop : Option BlockId) : Nat → BlockId → BlockId → Prop
  | 0, _, _ => False
  | steps + 1, p, x =>
    some p ≠ stop ∧ (x = p ∨ ∃ parent, f.idom? p = some parent ∧ f.Passes stop steps parent x)

/-- If all parents exist, every way up can be followed, and lists what it passes. -/
theorem pathUp_eq_ok {f : Function} (hparents : ∀ b d, f.idom? b = some d → d < f.blockCount)
    (stop : Option BlockId) (steps : Nat) (p : BlockId) (hp : p < f.blockCount) :
    ∃ path, f.pathUp stop steps p = .ok path ∧ ∀ x, x ∈ path ↔ f.Passes stop steps p x := by
  induction steps generalizing p with
  | zero => exact ⟨[], rfl, by simp [Passes]⟩
  | succ steps ih =>
    by_cases hstop : some p = stop
    · exact ⟨[], by simp [pathUp, hstop], by simp [Passes, hstop]⟩
    · have hblock : f.blocks[p]? = some f.blocks[p] := Array.getElem?_eq_getElem hp
      have hidom : f.idom? p = f.blocks[p].idom := by simp [idom?, hblock]
      cases hup : f.blocks[p].idom with
      | none =>
        refine ⟨[p], ?_, fun x => ?_⟩
        · simp [pathUp, hstop, block, hblock, hup, bind, Except.bind, pure, Except.pure]
        · simp [Passes, hstop, hidom, hup]
      | some parent =>
        obtain ⟨path, hpath, hmem⟩ := ih parent (hparents p parent (hidom.trans hup))
        refine ⟨p :: path, ?_, fun x => ?_⟩
        · simp [pathUp, hstop, block, hblock, hup, hpath, bind, Except.bind, pure, Except.pure]
        · simp [Passes, hstop, hidom, hup, hmem]

/-- What the way up of a table passes does not depend on recorded frontiers. -/
theorem pathUp_recordFrontiers (f : Function) (table : BlockId → List BlockId)
    (stop : Option BlockId) (steps : Nat) (p : BlockId) :
    (f.recordFrontiers table).pathUp stop steps p = f.pathUp stop steps p := by
  induction steps generalizing p with
  | zero => rfl
  | succ steps ih =>
    simp only [pathUp, block, getElem?_recordFrontiers]
    cases f.blocks[p]? with
    | none => rfl
    | some block => simp only [Option.map_some, require_some, ok_bind, ih]

namespace Forest

variable {f : Function} {order : List BlockId} {p x : BlockId} {steps : Nat}

/-- In a forest, the way up from a block passes everything above it that is not also above the block
where it stops. -/
theorem passes_of_above (h : f.Forest order) {stop : Option BlockId} (hsteps : order.idxOf p < steps)
    (hx : Above f.idom? x p) (hstop : ∀ d ∈ stop, ¬ Above f.idom? x d) : f.Passes stop steps p x := by
  induction steps generalizing p with
  | zero => omega
  | succ steps ih =>
    refine ⟨fun heq => hstop p heq.symm hx, ?_⟩
    cases hx with
    | refl => exact .inl rfl
    | step hup hx =>
      have hlt := (h.of_idom hup).2.2.2
      exact .inr ⟨_, hup, ih (by omega) hx⟩

/-- The way up from a block below `d` stops before it comes to anything above `d`. -/
theorem not_above_of_passes (h : f.Forest order) {d : BlockId} (hpass : f.Passes (some d) steps p x)
    (hdp : Above f.idom? d p) : ¬ Above f.idom? x d := by
  induction steps generalizing p with
  | zero => exact hpass.elim
  | succ steps ih =>
    obtain ⟨hstop, rfl | ⟨parent, hup, hpass⟩⟩ := hpass
    · exact fun hxd => hstop (congrArg some (h.above_antisymm hxd hdp))
    · refine ih hpass ((hdp.parent hup).resolve_left ?_)
      rintro rfl
      exact hstop rfl

end Forest

/-- Everything that the way up from a block passes is above it. -/
theorem Passes.above {f : Function} {stop : Option BlockId} {steps : Nat} {p x : BlockId}
    (h : f.Passes stop steps p x) : Above f.idom? x p := by
  induction steps generalizing p with
  | zero => exact h.elim
  | succ steps ih =>
    obtain ⟨_, rfl | ⟨parent, hup, hpass⟩⟩ := h
    · exact .refl
    · exact .step hup (ih hpass)

-- ════════════════════════════════════════════════════════════════════════
-- Spreading joins
-- ════════════════════════════════════════════════════════════════════════

/-- The table with a join added to the frontier of a block. -/
def extend (join : BlockId) (table : BlockId → List BlockId) (b : BlockId) :
    BlockId → List BlockId :=
  fun x => if x = b ∧ join ∉ table x then table x ++ [join] else table x

theorem addFrontier_recordFrontiers (f : Function) (join : BlockId)
    (table : BlockId → List BlockId) (b : BlockId) :
    addFrontier join (f.recordFrontiers table) b =
      f.recordFrontiers (extend join table b) := by
  have hblocks : (addFrontier join (f.recordFrontiers table) b).blocks =
      (f.recordFrontiers (extend join table b)).blocks := by
    refine Array.ext_getElem? fun x => ?_
    simp only [addFrontier, modifyBlock, Array.getElem?_modify, getElem?_recordFrontiers]
    by_cases hx : b = x
    · subst hx
      cases f.blocks[b]? with
      | none => simp
      | some block => by_cases hj : join ∈ table b <;> simp [extend, hj]
    · have hx' : ¬ x = b := fun h => hx h.symm
      simp [hx, extend, hx']
  simp only [addFrontier, modifyBlock] at hblocks ⊢
  simp only [recordFrontiers] at hblocks ⊢
  rw [hblocks]

theorem foldl_addFrontier_recordFrontiers (f : Function) (join : BlockId) (blocks : List BlockId)
    (table : BlockId → List BlockId) :
    blocks.foldl (addFrontier join) (f.recordFrontiers table) =
      f.recordFrontiers (blocks.foldl (extend join) table) := by
  induction blocks generalizing table with
  | nil => rfl
  | cons b blocks ih => rw [List.foldl_cons, addFrontier_recordFrontiers, ih, List.foldl_cons]

/-- What is in a frontier after a join was added to several. -/
theorem mem_foldl_extend {join j x : BlockId} {blocks : List BlockId}
    {table : BlockId → List BlockId} :
    j ∈ blocks.foldl (extend join) table x ↔ j ∈ table x ∨ j = join ∧ x ∈ blocks := by
  induction blocks generalizing table with
  | nil => simp
  | cons b blocks ih =>
    have hextend : j ∈ extend join table b x ↔ j ∈ table x ∨ j = join ∧ x = b := by
      unfold extend
      split
      · rename_i h
        simp [h.1]
      · rename_i h
        constructor
        · exact .inl
        · rintro (hj | ⟨rfl, rfl⟩)
          · exact hj
          · exact Decidable.not_not.mp fun hno => h ⟨rfl, hno⟩
    rw [List.foldl_cons, ih, hextend, List.mem_cons]
    tauto

/-- Adding a join to frontiers that are ascending up to it keeps them so. -/
theorem ascending_foldl_extend {join : BlockId} {blocks : List BlockId} {table : BlockId → List BlockId}
    (h : ∀ x, (table x).Pairwise (· < ·) ∧ ∀ j ∈ table x, j ≤ join) (x : BlockId) :
    (blocks.foldl (extend join) table x).Pairwise (· < ·) := by
  induction blocks generalizing table with
  | nil => exact (h x).1
  | cons b blocks ih =>
    refine ih fun x => ?_
    obtain ⟨hsorted, hle⟩ := h x
    unfold extend
    split
    · rename_i hnew
      refine ⟨List.pairwise_append.mpr ⟨hsorted, List.pairwise_singleton _ _, fun j hj k hk => ?_⟩,
        fun j hj => ?_⟩
      · rw [List.mem_singleton.mp hk]
        exact Nat.lt_of_le_of_ne (hle j hj) fun heq => hnew.2 (heq ▸ hj)
      · obtain hj | hj := List.mem_append.mp hj
        · exact hle j hj
        · exact Nat.le_of_eq (List.mem_singleton.mp hj)
    · exact ⟨hsorted, hle⟩

/-- `x` is passed on the way up from a predecessor of the join `j`. -/
def Joins (f : Function) (j x : BlockId) : Prop :=
  2 ≤ (f.preds j).length ∧ ∃ p ∈ f.preds j, f.Passes (f.idom? j) (f.blockCount + 1) p x

/-- Spreading a join adds it to the frontiers of the blocks that the ways up pass. -/
theorem spreadJoin_eq {f : Function} (hparents : ∀ b d, f.idom? b = some d → d < f.blockCount)
    (hpreds : ∀ b, ∀ p ∈ f.preds b, p < f.blockCount) {table : BlockId → List BlockId} {join : BlockId}
    (hsorted : ∀ x, (table x).Pairwise (· < ·) ∧ ∀ j ∈ table x, j ≤ join) :
    ∃ table', (f.recordFrontiers table).spreadJoin join = .ok (f.recordFrontiers table') ∧
      (∀ x, (table' x).Pairwise (· < ·)) ∧
      ∀ j x, j ∈ table' x ↔ j ∈ table x ∨ j = join ∧ f.Joins join x := by
  by_cases hfew : (f.preds join).length < 2
  · refine ⟨table, by simp [spreadJoin, hfew], fun x => (hsorted x).1, fun j x => ?_⟩
    have hno : ¬ f.Joins join x := fun h => absurd h.1 (Nat.not_le.mpr hfew)
    simp [hno]
  · have hpath := fun p (hp : p ∈ f.preds join) =>
      pathUp_eq_ok hparents (f.idom? join) (f.blockCount + 1) p (hpreds join p hp)
    let path (p : BlockId) : List BlockId :=
      (f.pathUp (f.idom? join) (f.blockCount + 1) p).toOption.getD []
    have hok : ∀ p ∈ f.preds join,
        f.pathUp (f.idom? join) (f.blockCount + 1) p = .ok (path p) := by
      intro p hp
      obtain ⟨l, hl, _⟩ := hpath p hp
      simp [path, hl, Except.toOption]
    refine ⟨((f.preds join).map path).flatten.foldl (extend join) table, ?_,
      ascending_foldl_extend hsorted, fun j x => ?_⟩
    · simp only [spreadJoin, preds_recordFrontiers, idom?_recordFrontiers,
        blockCount_recordFrontiers, if_neg hfew]
      rw [funext (pathUp_recordFrontiers f table (f.idom? join) (f.blockCount + 1)),
        mapM_eq_ok hok, ok_bind, foldl_addFrontier_recordFrontiers]
      rfl
    · have hmem : x ∈ ((f.preds join).map path).flatten ↔ f.Joins join x := by
        simp only [List.mem_flatten, List.mem_map, exists_exists_and_eq_and, Joins]
        constructor
        · rintro ⟨p, hp, hx⟩
          obtain ⟨l, hl, hpasses⟩ := hpath p hp
          have hlp : path p = l := by simp [path, hl, Except.toOption]
          exact ⟨by omega, p, hp, (hpasses x).mp (hlp ▸ hx)⟩
        · rintro ⟨_, p, hp, hx⟩
          obtain ⟨l, hl, hpasses⟩ := hpath p hp
          have hlp : path p = l := by simp [path, hl, Except.toOption]
          exact ⟨p, hp, hlp ▸ (hpasses x).mpr hx⟩
      rw [mem_foldl_extend, hmem]

/-- The frontiers of a function are recorded, and the frontier of a block holds the joins whose ways
up pass the block, in ascending order. -/
theorem withFrontiers_eq {f : Function} (hparents : ∀ b d, f.idom? b = some d → d < f.blockCount)
    (hpreds : ∀ b, ∀ p ∈ f.preds b, p < f.blockCount) :
    ∃ table, f.withFrontiers = .ok (f.recordFrontiers table) ∧ (∀ x, (table x).Pairwise (· < ·)) ∧
      ∀ j x, j ∈ table x ↔ j < f.blockCount ∧ f.Joins j x := by
  have hempty : (f.mapBlocks fun block => { block with frontier := [] }) =
      f.recordFrontiers fun _ => [] := by
    simp only [mapBlocks, recordFrontiers, Function.mk.injEq, true_and, and_true]
    exact Array.ext_getElem? fun b => by simp
  have hfold := foldlM_induction spreadJoin
    (fun done g => ∃ table, g = f.recordFrontiers table ∧ (∀ x, (table x).Pairwise (· < ·)) ∧
      ∀ j x, j ∈ table x ↔ j ∈ done ∧ f.Joins j x) f.blockIds (f.recordFrontiers fun _ => [])
    ⟨fun _ => [], rfl, by simp, by simp⟩
    (by
      rintro done join rest g hsplit ⟨table, rfl, hsorted, htable⟩
      -- The joins are visited in ascending order.
      have hbefore : ∀ j ∈ done, j ≤ join := by
        have hpairwise : f.blockIds.Pairwise (· < ·) := List.pairwise_lt_range
        rw [hsplit, List.pairwise_append] at hpairwise
        exact fun j hj => Nat.le_of_lt (hpairwise.2.2 j hj join List.mem_cons_self)
      have hascending : ∀ x, (table x).Pairwise (· < ·) ∧ ∀ j ∈ table x, j ≤ join := fun x =>
        ⟨hsorted x, fun j hj => hbefore j ((htable j x).mp hj).1⟩
      obtain ⟨table', heq, hsorted', htable'⟩ := spreadJoin_eq hparents hpreds hascending
      refine ⟨_, heq, table', rfl, hsorted', fun j x => ?_⟩
      rw [htable', htable, List.mem_append, List.mem_singleton]
      constructor
      · rintro (⟨hj, hx⟩ | ⟨rfl, hx⟩)
        · exact ⟨.inl hj, hx⟩
        · exact ⟨.inr rfl, hx⟩
      · rintro ⟨hj | rfl, hx⟩
        · exact .inl ⟨hj, hx⟩
        · exact .inr ⟨rfl, hx⟩)
  obtain ⟨g, hg, table, rfl, hsorted, htable⟩ := hfold
  refine ⟨table, by rw [withFrontiers, hempty, hg], hsorted, fun j x => ?_⟩
  rw [htable, blockIds, List.mem_range, blockCount]

/-- Dominators and frontiers of a function whose edges agree can be computed, one after the other. -/
theorem Linked.withFrontiers_forest {f : Function} (hlinked : f.Linked) (hentry : f.entry < f.blockCount) :
    ∃ guesses order table, f.withDominators = .ok (f.recordIdoms guesses) ∧
      f.reversePostorder = .ok order ∧ (f.recordIdoms guesses).Forest order ∧
      (f.recordIdoms guesses).withFrontiers = .ok ((f.recordIdoms guesses).recordFrontiers table) ∧
      (∀ x, (table x).Pairwise (· < ·)) ∧
      ∀ j x, j ∈ table x ↔ j < (f.recordIdoms guesses).blockCount ∧ (f.recordIdoms guesses).Joins j x := by
  obtain ⟨guesses, order, hdom, horder, hforest⟩ := withDominators_forest hlinked hentry
  have hlinkedDom := hlinked.recordIdoms guesses
  have hentryDom : (f.recordIdoms guesses).entry < (f.recordIdoms guesses).blockCount :=
    (f.blockCount_recordIdoms guesses).symm ▸ hentry
  obtain ⟨table, hfront, hsorted, htable⟩ := withFrontiers_eq (f := f.recordIdoms guesses)
    (fun b d hd => (hforest.of_idom hd).2.2.1.lt_blockCount hlinkedDom hentryDom)
    (fun b p hp => lt_of_mem_succs ((hlinkedDom.mem_preds p b).mp hp))
  exact ⟨guesses, order, table, hdom, horder, hforest, hfront, hsorted, htable⟩

/-- A block that does not exist has no frontier. -/
theorem frontier_of_le {f : Function} {b : BlockId} (hb : f.blockCount ≤ b) : f.frontier b = [] := by
  have hnone : f.blocks[b]? = none := Array.getElem?_eq_none hb
  rw [frontier, hnone]
  rfl

end Function

end MiddleEnd
