import MiddleEnd.Proofs.Dominance.Order
import MiddleEnd.Proofs.Dominance.Sweep
import MiddleEnd.Proofs.IR.Numbered
import MiddleEnd.Proofs.Success

/-!
# The recorded dominators

The immediate dominators that the iteration leaves in the blocks of a function form a tree over the
blocks that control can reach, and every edge respects it: the parent of the block that an edge leads
to is above the block that it comes from. That alone makes the blocks above a block dominate it.

## Main definitions

* `Function.Forest`: what is known about the recorded immediate dominators.
* `Function.lastGuesses`: what the iteration on a function ends in.

## Main statements

* `Function.withDominators_eq`, `Function.Ordered.forest_recordIdoms`: the iteration succeeds and leaves a
  `Forest`.
* `Function.Forest.dominates_of_above`: the blocks above a block dominate it.
-/

namespace MiddleEnd

/-- In a list without repetitions, the first of two elements in this order has the smaller index. -/
theorem idxOf_lt_of_sublist {l : List BlockId} {a b : BlockId} (hnodup : l.Nodup)
    (h : [a, b].Sublist l) : l.idxOf a < l.idxOf b := by
  induction l with
  | nil => exact absurd h (by simp)
  | cons x l ih =>
    rw [List.nodup_cons] at hnodup
    cases h with
    | cons _ h =>
      have ha : a ∈ l := h.subset (by simp)
      have hb : b ∈ l := h.subset (by simp)
      have hax : x ≠ a := by rintro rfl; exact hnodup.1 ha
      have hbx : x ≠ b := by rintro rfl; exact hnodup.1 hb
      rw [List.idxOf_cons_ne _ hax, List.idxOf_cons_ne _ hbx]
      have hlt := ih hnodup.2 h
      omega
    | cons_cons _ h =>
      have hb : b ∈ l := List.singleton_sublist.mp h
      have hab : a ≠ b := by rintro rfl; exact hnodup.1 hb
      rw [List.idxOf_cons_self, List.idxOf_cons_ne _ hab]
      omega

namespace Function

/-- What is known about the immediate dominators that the blocks of a function record, given the order
of the blocks that control can reach. -/
structure Forest (f : Function) (order : List BlockId) : Prop where
  ordered : f.Ordered order
  idom_entry : f.idom? f.entry = none
  idom_unreachable : ∀ b, ¬ f.Reachable b → f.idom? b = none
  idom_reachable : ∀ b, f.Reachable b → b ≠ f.entry → ∃ d, f.idom? b = some d ∧ f.Reachable d ∧
    order.idxOf d < order.idxOf b
  /-- The parent of the block that an edge leads to is above the block that it comes from. -/
  edge : ∀ p b d, f.Reachable p → b ∈ f.succs p → f.idom? b = some d → Above f.idom? d p
  /-- The parent is below everything else that is above all predecessors. -/
  nearest : ∀ b d e, f.idom? b = some d →
    (∀ p, f.Reachable p → b ∈ f.succs p → Above f.idom? e p) → Above f.idom? e d

namespace Forest

variable {f : Function} {order : List BlockId} {a b : BlockId}

/-- A block with a parent can be reached and is not the entry, and its parent can be reached and comes
before it. -/
theorem of_idom (h : f.Forest order) {d : BlockId} (hd : f.idom? b = some d) :
    f.Reachable b ∧ b ≠ f.entry ∧ f.Reachable d ∧ order.idxOf d < order.idxOf b := by
  have hreach : f.Reachable b := by
    by_contra hno
    simp [h.idom_unreachable b hno] at hd
  have hne : b ≠ f.entry := by
    rintro rfl
    simp [h.idom_entry] at hd
  obtain ⟨d', hd', hreach', hlt⟩ := h.idom_reachable b hreach hne
  obtain rfl := Option.some.inj (hd.symm.trans hd')
  exact ⟨hreach, hne, hreach', hlt⟩

theorem reachable_of_above (h : f.Forest order) (hab : Above f.idom? a b) (hb : f.Reachable b) :
    f.Reachable a := by
  induction hab with
  | refl => exact hb
  | step hup _ ih => exact ih (h.of_idom hup).2.2.1

/-- The way up leads to earlier places. -/
theorem idxOf_le_of_above (h : f.Forest order) (hab : Above f.idom? a b) :
    order.idxOf a ≤ order.idxOf b := by
  induction hab with
  | refl => exact Nat.le_refl _
  | step hup _ ih =>
    have hlt := (h.of_idom hup).2.2.2
    omega

/-- No block is above its parent. -/
theorem not_above_parent (h : f.Forest order) {d : BlockId} (hd : f.idom? b = some d) :
    ¬ Above f.idom? b d := by
  intro hab
  have hle := h.idxOf_le_of_above hab
  have hlt := (h.of_idom hd).2.2.2
  omega

/-- Two blocks that are above each other are the same. -/
theorem above_antisymm (h : f.Forest order) (hab : Above f.idom? a b) (hba : Above f.idom? b a) :
    a = b := by
  cases hab with
  | refl => rfl
  | step hup hac => exact absurd (hba.trans hac) (h.not_above_parent hup)

/-- The only predecessor of a block is its parent. -/
theorem idom_eq_of_single (h : f.Forest order) {p d : BlockId} (hp : f.Reachable p)
    (hedge : b ∈ f.succs p) (honly : ∀ q, b ∈ f.succs q → q = p) (hd : f.idom? b = some d) :
    d = p := by
  refine h.above_antisymm (h.edge p b d hp hedge hd) (h.nearest b d p hd fun q _ hq => ?_)
  rw [honly q hq]
  exact .refl

/-- The entry is above every block that control can reach. -/
theorem entry_above (h : f.Forest order) (hb : f.Reachable b) : Above f.idom? f.entry b := by
  induction hn : order.idxOf b using Nat.strongRecOn generalizing b with
  | ind n ih =>
    subst hn
    by_cases hne : b = f.entry
    · subst hne
      exact .refl
    · obtain ⟨d, hd, hreach, hlt⟩ := h.idom_reachable b hb hne
      exact .step hd (ih _ hlt hreach rfl)

/-- A block on the way up from the end of a path is on the path. -/
theorem mem_path_of_above (h : f.Forest order) {l : List BlockId} (hl : f.Path f.entry b l)
    (hab : Above f.idom? a b) : a ∈ l := by
  induction hl with
  | nil =>
    cases hab with
    | refl => exact List.mem_cons_self
    | step hup _ => simp [h.idom_entry] at hup
  | @snoc p b l hpath hedge ih =>
    cases hab with
    | refl => exact List.mem_cons_self
    | step hup hab =>
      exact List.mem_cons_of_mem _ (ih (hab.trans (h.edge p b _ ⟨l, hpath⟩ hedge hup)))

/-- The blocks above a block that control can reach dominate it. -/
theorem dominates_of_above (h : f.Forest order) (hb : f.Reachable b) (hab : Above f.idom? a b) :
    f.Dominates a b :=
  .inr ⟨hb, fun _ hl => h.mem_path_of_above hl hab⟩

end Forest

-- ════════════════════════════════════════════════════════════════════════
-- The iteration on a function
-- ════════════════════════════════════════════════════════════════════════

/-- The function with each block recording what a table says about it. -/
def recordIdoms (f : Function) (guesses : Guesses) : Function :=
  { f with blocks := f.blocks.mapIdx fun b block => { block with idom := guesses.get? b } }

section Record

variable (f : Function) (guesses : Guesses) (b : BlockId)

theorem getElem?_recordIdoms : (f.recordIdoms guesses).blocks[b]? =
    f.blocks[b]?.map fun block => { block with idom := guesses.get? b } := by
  simp [recordIdoms]

@[simp]
theorem succs_recordIdoms : (f.recordIdoms guesses).succs b = f.succs b := by
  simp only [succs, getElem?_recordIdoms, Option.map_map]
  rfl

@[simp]
theorem preds_recordIdoms : (f.recordIdoms guesses).preds b = f.preds b := by
  simp only [preds, getElem?_recordIdoms, Option.map_map]
  rfl

@[simp]
theorem id?_recordIdoms : (f.recordIdoms guesses).id? b = f.id? b := by
  simp only [id?, getElem?_recordIdoms, Option.map_map]
  rfl

@[simp]
theorem blockCount_recordIdoms : (f.recordIdoms guesses).blockCount = f.blockCount := by
  simp [recordIdoms, blockCount]

theorem idom?_recordIdoms (hb : b < f.blockCount) :
    (f.recordIdoms guesses).idom? b = guesses.get? b := by
  have hb' : f.blocks[b]? = some f.blocks[b] := Array.getElem?_eq_getElem hb
  simp [idom?, getElem?_recordIdoms, hb']

end Record

theorem Linked.recordIdoms {f : Function} (h : f.Linked) (guesses : Guesses) :
    (f.recordIdoms guesses).Linked := by
  refine ⟨?_, ?_, ?_, ?_⟩ <;>
    simp only [succs_recordIdoms, preds_recordIdoms, blockCount_recordIdoms]
  exacts [h.succs_lt, h.mem_preds, h.preds_nodup, h.succs_nodup]

/-- Reachability depends on the entry and the successors alone. -/
theorem Reachable.congr {f g : Function} {b : BlockId} (hentry : f.entry = g.entry)
    (hsuccs : ∀ b, f.succs b = g.succs b) (h : f.Reachable b) : g.Reachable b := by
  obtain ⟨l, hl⟩ := h
  exact ⟨l, hentry ▸ hl.congr hsuccs⟩

theorem Dominates.congr {f g : Function} {a b : BlockId} (hentry : f.entry = g.entry)
    (hsuccs : ∀ b, f.succs b = g.succs b) (h : f.Dominates a b) : g.Dominates a b := by
  rcases h with rfl | ⟨hreach, hall⟩
  · exact .inl rfl
  · refine .inr ⟨hreach.congr hentry hsuccs, fun l hl => hall l ?_⟩
    rw [← hentry] at hl
    exact hl.congr fun b => (hsuccs b).symm

theorem Ordered.lt_blockCount {f : Function} {order : List BlockId} (hlinked : f.Linked)
    (hentry : f.entry < f.blockCount) (h : f.Ordered order) {b : BlockId} (hb : b ∈ order) :
    b < f.blockCount :=
  ((h.mem_iff b).mp hb).lt_blockCount hlinked hentry

/-- The order lists no more blocks than there are. -/
theorem Ordered.length_le {f : Function} {order : List BlockId} (hlinked : f.Linked)
    (hentry : f.entry < f.blockCount) (h : f.Ordered order) : order.length ≤ f.blockCount := by
  have hsub : order.Subperm (List.range f.blockCount) :=
    List.subperm_of_subset h.nodup fun x hx =>
      List.mem_range.mpr (h.lt_blockCount hlinked hentry hx)
  have hle := List.Subperm.length_le hsub
  rwa [List.length_range] at hle

/-- No place in the order is beyond the number of blocks. -/
theorem Ordered.idxOf_lt_blockCount {f : Function} {order : List BlockId} (hlinked : f.Linked)
    (hentry : f.entry < f.blockCount) (h : f.Ordered order) {b : BlockId} (hb : f.Reachable b) :
    order.idxOf b < f.blockCount :=
  Nat.lt_of_lt_of_le (List.idxOf_lt_length_of_mem ((h.mem_iff b).mpr hb)) (h.length_le hlinked hentry)

/-- The place of a block in an order. -/
def placeIn (f : Function) (order : List BlockId) (b : BlockId) : Nat :=
  (orderNumbers f.blockCount order)[b]?.join.getD 0

/-- Before the first sweep only the entry has a guess. -/
def firstGuesses (f : Function) : Guesses :=
  (Array.replicate f.blockCount none).setIfInBounds f.entry (some f.entry)

/-- What the sweeps over the blocks after the entry end in. -/
def lastGuesses (f : Function) (rest : List BlockId) : Guesses :=
  descend (Guesses.distance (f.placeIn (f.entry :: rest)) f.blockCount)
    (Guesses.sweep (f.placeIn (f.entry :: rest)) f.preds rest) f.firstGuesses

/-- The order of a function and its predecessors are what a sweep needs. -/
theorem Ordered.course {f : Function} {rest : List BlockId} (hlinked : f.Linked)
    (hentry : f.entry < f.blockCount) (h : f.Ordered (f.entry :: rest)) :
    Guesses.Course (f.placeIn (f.entry :: rest)) f.preds f.entry rest f.blockCount := by
  have hplace : ∀ b ∈ f.entry :: rest,
      f.placeIn (f.entry :: rest) b = (f.entry :: rest).idxOf b := by
    intro b hb
    have hlt := h.lt_blockCount hlinked hentry hb
    obtain ⟨i, hi⟩ := Option.isSome_iff_exists.mp (List.isSome_idxOf?.mpr hb)
    rw [List.idxOf_eq_getD_idxOf?, hi]
    simp [placeIn, orderNumbers, hlt, hi]
  refine ⟨h.nodup, hplace, fun b => h.lt_blockCount hlinked hentry, fun b hb => ?_⟩
  have hb' : b ∈ f.entry :: rest := List.mem_cons_of_mem _ hb
  have hne : b ≠ f.entry := by
    rintro rfl
    exact (List.nodup_cons.mp h.nodup).1 hb
  obtain ⟨p, hp, hsub⟩ := (h.parent b hb').resolve_left hne
  have hpmem : p ∈ f.entry :: rest := hsub.subset (by simp)
  refine ⟨p, (hlinked.mem_preds p b).mpr hp, hpmem, ?_⟩
  rw [hplace p hpmem, hplace b hb']
  exact idxOf_lt_of_sublist h.nodup hsub

theorem get?_firstGuesses {f : Function} (hentry : f.entry < f.blockCount) {b c : BlockId} :
    f.firstGuesses.get? b = some c ↔ b = f.entry ∧ c = f.entry := by
  have hself : f.firstGuesses.get? f.entry = some f.entry :=
    Guesses.get?_setIfInBounds_self (by simpa using hentry) _
  constructor
  · intro hc
    have hb : b = f.entry := by
      by_contra hne
      rw [firstGuesses, Guesses.get?_setIfInBounds_ne hne] at hc
      simp only [Guesses.get?, Array.getElem?_replicate] at hc
      split at hc <;> simp at hc
    subst hb
    exact ⟨rfl, Option.some.inj (hc.symm.trans hself)⟩
  · rintro ⟨rfl, rfl⟩
    exact hself

/-- Before the first sweep the guesses are settled. -/
theorem settled_firstGuesses {f : Function} {rest : List BlockId} (hlinked : f.Linked)
    (hentry : f.entry < f.blockCount) (h : f.Ordered (f.entry :: rest)) :
    f.firstGuesses.Settled (f.placeIn (f.entry :: rest)) f.preds f.entry rest := by
  have hcourse := h.course hlinked hentry
  have honly : ∀ b, (f.firstGuesses.get? b).isSome → b = f.entry := by
    intro b hb
    obtain ⟨c, hc⟩ := Option.isSome_iff_exists.mp hb
    exact ((get?_firstGuesses hentry).mp hc).1
  refine ⟨⟨(get?_firstGuesses hentry).mpr ⟨rfl, rfl⟩, ?_, ?_, ?_⟩, ?_, ?_, ?_⟩
  · intro b
    rw [hcourse.place_entry]
    exact Nat.zero_le _
  · exact fun b c hc hne => absurd ((get?_firstGuesses hentry).mp hc).1 hne
  · exact fun a b ha hb _ => (honly a ha).trans (honly b hb).symm
  · exact fun b hb => honly b hb ▸ List.mem_cons_self
  · exact fun b c hc hne => absurd ((get?_firstGuesses hentry).mp hc).1 hne
  · exact fun b c hc hne => absurd ((get?_firstGuesses hentry).mp hc).1 hne

theorem size_firstGuesses (f : Function) : f.firstGuesses.size = f.blockCount := by
  simp [firstGuesses]

/-- The iteration on a function whose edges agree succeeds. -/
theorem withDominators_eq {f : Function} {rest : List BlockId} (hlinked : f.Linked)
    (horder : f.reversePostorder = .ok (f.entry :: rest)) : f.withDominators =
      .ok (f.recordIdoms ((f.lastGuesses rest).setIfInBounds f.entry none)) := by
  simp only [withDominators, immediateDominators, horder, hlinked.checkBlocks_allPreds, ok_bind,
    List.tail_cons]
  rfl

/-- Forgetting that the entry is its own guess changes no way up. -/
theorem above_setIfInBounds_entry {guesses : Guesses} {place : BlockId → Nat} {entry a b : BlockId}
    (hroot : guesses.Rooted place entry) (hentry : entry < guesses.size) :
    Above (Guesses.get? (guesses.setIfInBounds entry none)) a b ↔ Above guesses.get? a b := by
  constructor
  · intro h
    induction h with
    | refl => exact .refl
    | @step b c hup _ ih =>
      have hb : b ≠ entry := by
        rintro rfl
        rw [Guesses.get?_setIfInBounds_self hentry] at hup
        cases hup
      rw [Guesses.get?_setIfInBounds_ne hb] at hup
      exact .step hup ih
  · intro h
    induction h with
    | refl => exact .refl
    | @step b c hup hac ih =>
      by_cases hb : b = entry
      · subst hb
        obtain rfl := Option.some.inj (hroot.root.symm.trans hup)
        exact ih
      · refine .step ?_ ih
        rw [Guesses.get?_setIfInBounds_ne hb, hup]

/-- The dominators that the blocks record are the guesses, without the guess for the entry. -/
theorem idom?_recorded {f : Function} {guesses : Guesses} (hsize : guesses.size = f.blockCount) :
    (f.recordIdoms (guesses.setIfInBounds f.entry none)).idom? =
      Guesses.get? (guesses.setIfInBounds f.entry none) := by
  funext b
  by_cases hb : b < f.blockCount
  · exact idom?_recordIdoms f _ b hb
  · have hnone : f.blocks[b]? = none := Array.getElem?_eq_none (Nat.not_lt.mp hb)
    have hnone' : (guesses.setIfInBounds f.entry none)[b]? = none :=
      Array.getElem?_eq_none (by simpa [hsize] using hb)
    simp [idom?, getElem?_recordIdoms, hnone, Guesses.get?, hnone']

/-- The ways up along the recorded dominators are those along the guesses. -/
theorem above_recorded_iff {f : Function} {guesses : Guesses} {place : BlockId → Nat}
    (hroot : guesses.Rooted place f.entry) (hentry : f.entry < f.blockCount)
    (hsize : guesses.size = f.blockCount) {a b : BlockId} :
    Above (f.recordIdoms (guesses.setIfInBounds f.entry none)).idom? a b ↔ Above guesses.get? a b := by
  rw [idom?_recorded hsize]
  exact above_setIfInBounds_entry hroot (hsize ▸ hentry)

/-- A block records its guess, but the entry records none. -/
theorem idom?_recorded_eq_some_iff {f : Function} {guesses : Guesses} (hentry : f.entry < f.blockCount)
    (hsize : guesses.size = f.blockCount) {b d : BlockId} :
    (f.recordIdoms (guesses.setIfInBounds f.entry none)).idom? b = some d ↔
      b ≠ f.entry ∧ guesses.get? b = some d := by
  rw [idom?_recorded hsize]
  by_cases hb : b = f.entry
  · subst hb
    simp [Guesses.get?_setIfInBounds_self (hsize ▸ hentry)]
  · simp [Guesses.get?_setIfInBounds_ne hb, hb]

/-- Recording the dominators that the sweeps over the blocks in order end in leaves a forest. -/
theorem Ordered.forest_recordIdoms {f : Function} {rest : List BlockId} (hordered : f.Ordered (f.entry :: rest))
    (hlinked : f.Linked) (hentry : f.entry < f.blockCount) :
    (f.recordIdoms ((f.lastGuesses rest).setIfInBounds f.entry none)).Forest (f.entry :: rest) := by
  have hcourse := hordered.course hlinked hentry
  have hstart := settled_firstGuesses hlinked hentry hordered
  obtain ⟨hsettled, hsize, hfixed⟩ := hstart.descend_fixed hcourse f.size_firstGuesses
  rw [← lastGuesses] at hsettled hsize hfixed
  generalize f.lastGuesses rest = final at hsettled hsize hfixed ⊢
  have hidom := fun b d => idom?_recorded_eq_some_iff hentry hsize (b := b) (d := d)
  have hsame : ∀ b, (f.recordIdoms (final.setIfInBounds f.entry none)).Reachable b ↔
      f.Reachable b := fun b =>
    ⟨.congr rfl fun b => succs_recordIdoms f _ b, .congr rfl fun b => (succs_recordIdoms f _ b).symm⟩
  -- Every block of the order has a guess, the nearest block above its predecessors.
  have hguess := fun b (hb : b ∈ rest) => hsettled.nearest_of_sweep_eq hcourse hsize hfixed hb
  have hmem : ∀ b, f.Reachable b → b ≠ f.entry → b ∈ rest := fun b hb hne =>
    (List.mem_cons.mp ((hordered.mem_iff b).mpr hb)).resolve_left hne
  have hsome : ∀ b, (final.get? b).isSome ↔ f.Reachable b := by
    refine fun b => ⟨fun hb => (hordered.mem_iff b).mp (hsettled.mem b hb), fun hb => ?_⟩
    by_cases hne : b = f.entry
    · simp [hne, hsettled.rooted.root]
    · obtain ⟨c, hc, _⟩ := hguess b (hmem b hb hne)
      simp [hc]
  have habove : ∀ a b, Above (f.recordIdoms (final.setIfInBounds f.entry none)).idom? a b ↔
      Above final.get? a b := fun a b => above_recorded_iff hsettled.rooted hentry hsize
  -- What a block records is the nearest block above its predecessors.
  have hnearest : ∀ b d, (f.recordIdoms (final.setIfInBounds f.entry none)).idom? b = some d →
      Guesses.Rooted.Nearest final (f.preds b) d := by
    intro b d hd
    obtain ⟨hne, hd⟩ := (hidom b d).mp hd
    obtain ⟨c, hc, hnearest⟩ := hguess b (hmem b ((hsome b).mp (by simp [hd])) hne)
    obtain rfl := Option.some.inj (hd.symm.trans hc)
    exact hnearest
  exact {
    ordered := ⟨⟨rest, rfl⟩, hordered.nodup, fun b => (hordered.mem_iff b).trans (hsame b).symm, by
      simp only [succs_recordIdoms]
      exact hordered.parent⟩
    idom_entry := Option.eq_none_iff_forall_ne_some.mpr fun d hd => ((hidom f.entry d).mp hd).1 rfl
    idom_unreachable b hb := by
      refine Option.eq_none_iff_forall_ne_some.mpr fun d hd => ?_
      exact hb ((hsame b).mpr ((hsome b).mp (by simp [((hidom b d).mp hd).2])))
    idom_reachable b hb hne := by
      rw [hsame] at hb
      obtain ⟨c, hc, _⟩ := hguess b (hmem b hb hne)
      obtain ⟨hlt, hcsome⟩ := hsettled.rooted.up b c hc hne
      rw [hcourse.place_eq c (hsettled.mem c hcsome), hcourse.place_eq b ((hordered.mem_iff b).mpr hb)] at hlt
      exact ⟨c, (hidom b c).mpr ⟨hne, hc⟩, (hsame c).mpr ((hsome c).mp hcsome), hlt⟩
    edge p b d hp hedge hd := by
      rw [hsame] at hp
      rw [succs_recordIdoms] at hedge
      exact (habove d p).mpr ((hnearest b d hd).above p ((hlinked.mem_preds p b).mpr hedge) ((hsome p).mpr hp))
    nearest b d e hd he := by
      refine (habove e d).mpr ((hnearest b d hd).nearest e fun p hp hp' => (habove e p).mp ?_)
      exact he p ((hsame p).mpr ((hsome p).mp hp')) (by simpa using (hlinked.mem_preds p b).mp hp) }

/-- The immediate dominators of a function whose edges agree can be computed, and recording them
leaves a forest. -/
theorem withDominators_forest {f : Function} (hlinked : f.Linked)
    (hentry : f.entry < f.blockCount) :
    ∃ guesses order, f.withDominators = .ok (f.recordIdoms guesses) ∧
      f.reversePostorder = .ok order ∧ (f.recordIdoms guesses).Forest order := by
  obtain ⟨order, horder, hordered⟩ := reversePostorder_ordered hentry hlinked
  obtain ⟨rest, rfl⟩ := hordered.head
  refine ⟨_, f.entry :: rest, withDominators_eq hlinked horder, horder, ?_⟩
  exact hordered.forest_recordIdoms hlinked hentry

end Function

end MiddleEnd
