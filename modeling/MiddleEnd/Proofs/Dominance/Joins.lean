import MiddleEnd.Proofs.Dominance.Exact
import MiddleEnd.Proofs.Dominance.Frontier

/-!
# Frontiers are where dominance ends

The recorded frontier of a block holds the joins at which its dominance ends: the block dominates a
predecessor of the join, but not the join strictly. Only a block with several predecessors counts as a join;
among the others the definition singles out none but the entry and the blocks that control cannot reach.

## Main statements

* `Function.Forest.joins_iff`: what the ways up from the predecessors of a block pass.
* `Function.frontiers_exact`: the frontiers can be computed, and match the definition.
-/

namespace MiddleEnd

namespace Function

variable {f : Function} {order : List BlockId}

/-- Something in a list is accompanied, or it is all that the list has. -/
theorem two_le_length_or {p : BlockId} {preds : List BlockId} (hp : p ∈ preds) :
    2 ≤ preds.length ∨ preds = [p] := by
  match preds with
  | [q] => exact .inr (by rw [List.mem_singleton.mp hp])
  | _ :: _ :: _ => exact .inl (by simp)

/-- The parent of a block with a single predecessor that control can reach is that predecessor. -/
theorem Forest.idom_of_preds (h : f.Forest order) (hlinked : f.Linked) {j p : BlockId}
    (hpreds : f.preds j = [p]) (hreach : f.Reachable j) (hne : j ≠ f.entry) : f.idom? j = some p := by
  have honly : ∀ q, j ∈ f.succs q → q = p := by
    intro q hq
    have hmem := (hlinked.mem_preds q j).mpr hq
    rw [hpreds] at hmem
    exact List.mem_singleton.mp hmem
  obtain ⟨l, hl⟩ := hreach
  cases hl with
  | nil => exact absurd rfl hne
  | @snoc q _ l hpath hedge =>
    obtain rfl := honly q hedge
    obtain ⟨d, hd, _⟩ := h.idom_reachable j (Reachable.succ ⟨l, hpath⟩ hedge) hne
    rw [hd, h.idom_eq_of_single ⟨l, hpath⟩ hedge honly hd]

/-- The ways up from the predecessors of a block pass what is above one of them and not strictly above the
block. -/
theorem Forest.joins_iff (h : f.Forest order) (hlinked : f.Linked) (hentry : f.entry < f.blockCount)
    {j : BlockId} (hj : ¬ ((f.preds j).length = 1 ∧ (j = f.entry ∨ ¬ f.Reachable j))) (x : BlockId) :
    f.Joins j x ↔ (∃ p ∈ f.preds j, Above f.idom? x p) ∧ ¬ (x ≠ j ∧ Above f.idom? x j) := by
  constructor
  · rintro ⟨_, p, hp, hpass⟩
    refine ⟨⟨p, hp, hpass.above⟩, ?_⟩
    rintro ⟨hne, habove⟩
    obtain ⟨d, hd, hxd⟩ : ∃ d, f.idom? j = some d ∧ Above f.idom? x d := by
      cases habove with
      | refl => exact absurd rfl hne
      | step hd hxd => exact ⟨_, hd, hxd⟩
    have hreach := h.reachable_of_above habove (h.of_idom hd).1
    have hpreach : f.Reachable p := by
      by_contra hdead
      -- The way up from a block that control cannot reach is that block alone.
      cases hpass.above with
      | refl => exact hdead hreach
      | step hup _ => exact hdead (h.of_idom hup).1
    rw [hd] at hpass
    exact h.not_above_of_passes hpass (h.edge p j d hpreach ((hlinked.mem_preds p j).mp hp) hd) hxd
  · rintro ⟨⟨p, hp, hxp⟩, hstrict⟩
    have hbelow : ∀ d ∈ f.idom? j, ¬ Above f.idom? x d := by
      intro d hd hxd
      have hxj : Above f.idom? x j := .step hd hxd
      by_cases hne : x = j
      · rw [hne] at hxd
        exact h.not_above_parent hd hxd
      · exact hstrict ⟨hne, hxj⟩
    have hmany : 2 ≤ (f.preds j).length := by
      refine (two_le_length_or hp).resolve_right fun hpreds => ?_
      have hside : ¬ (j = f.entry ∨ ¬ f.Reachable j) := fun hside => hj ⟨by rw [hpreds]; rfl, hside⟩
      have hreach : f.Reachable j := by
        by_contra hdead
        exact hside (.inr hdead)
      exact hbelow p (h.idom_of_preds hlinked hpreds hreach fun heq => hside (.inl heq)) hxp
    refine ⟨hmany, p, hp, h.passes_of_above ?_ hxp hbelow⟩
    exact Nat.lt_succ_of_le (Nat.le_trans List.idxOf_le_length (h.ordered.length_le hlinked hentry))

/-- Recording frontiers keeps the tree. -/
theorem sameTree_recordFrontiers (f : Function) (table : BlockId → List BlockId) :
    SameTree f (f.recordFrontiers table) where
  entry := rfl
  blockCount := f.blockCount_recordFrontiers table
  succs := funext (f.succs_recordFrontiers table)
  preds := funext (f.preds_recordFrontiers table)
  id? := funext (f.id?_recordFrontiers table)
  idom := funext (f.idom?_recordFrontiers table)

/-- In a function with edges that agree, the frontiers are recorded in ascending order, and match the
definition as far as the tree of the dominators can tell. -/
theorem Linked.frontiers (hlinked : f.Linked) (hentry : f.entry < f.blockCount) :
    ∃ h h' t, f.withDominators = .ok h ∧ h.withFrontiers = .ok h' ∧ DomTree.ofFunction h' = .ok t ∧
      (∀ b < f.blockCount, ∀ j < f.blockCount,
        ¬ ((f.preds j).length = 1 ∧ (j = f.entry ∨ ¬ f.Reachable j)) →
          (j ∈ h'.frontier b ↔
            (∃ p ∈ f.preds j, t.dominates b p = .ok true) ∧ t.strictlyDominates b j = .ok false)) ∧
      ∀ b, (h'.frontier b).Pairwise (· < ·) := by
  obtain ⟨guesses, order, table, hdom, horder, hforest, hfront, hsorted, htable⟩ :=
    hlinked.withFrontiers_forest hentry
  have hcount := f.blockCount_recordIdoms guesses
  have hlinkedDom := hlinked.recordIdoms guesses
  have hentryDom : (f.recordIdoms guesses).entry < (f.recordIdoms guesses).blockCount :=
    hcount.symm ▸ hentry
  have hreach : ∀ b, (f.recordIdoms guesses).Reachable b ↔ f.Reachable b := fun b =>
    ⟨.congr rfl (f.succs_recordIdoms guesses), .congr rfl fun b => (f.succs_recordIdoms guesses b).symm⟩
  have hsame := (f.recordIdoms guesses).sameTree_recordFrontiers table
  have hcount' := (f.recordIdoms guesses).blockCount_recordFrontiers table
  obtain ⟨t, htree, htoured⟩ := (hsame.forest hforest).ofFunction_toured (hsame.linked hlinkedDom)
    (hcount'.symm ▸ hentryDom)
    ((reversePostorder_congr hlinked hentry (hsame.linked hlinkedDom) rfl (hcount'.trans hcount)
      (hsame.succs.trans (funext (f.succs_recordIdoms guesses)))).trans horder)
  have hdominates : ∀ a, ∀ b < f.blockCount, ∃ answer, t.dominates a b = .ok answer ∧
      (answer = true ↔ Above (f.recordIdoms guesses).idom? a b) := by
    intro a b hb
    have h := htoured.dominates_eq a (b := b) (by rw [hcount', hcount]; exact hb)
    rwa [hsame.idom] at h
  refine ⟨_, _, t, hdom, hfront, htree, fun b hb j hj hside => ?_, fun b => ?_⟩
  · have hjoins := hforest.joins_iff hlinkedDom hentryDom (j := j)
      (by rw [f.preds_recordIdoms, hreach]; exact hside) b
    rw [frontier_recordFrontiers _ _ _ (hcount.symm ▸ hb), htable, and_iff_right (hcount.symm ▸ hj),
      hjoins, f.preds_recordIdoms]
    refine and_congr (exists_congr fun p => and_congr_right fun hp => ?_) ?_
    · obtain ⟨answer, hanswer, hiff⟩ := hdominates b p (lt_of_mem_succs ((hlinked.mem_preds p j).mp hp))
      rw [hanswer, ← hiff, Except.ok.injEq]
    · obtain ⟨answer, hanswer, hiff⟩ := hdominates b j hj
      rw [DomTree.strictlyDominates, hanswer, ← hiff]
      by_cases hbj : b = j <;> simp [hbj]
  · by_cases hb : b < (f.recordIdoms guesses).blockCount
    · rw [frontier_recordFrontiers _ _ _ hb]
      exact hsorted b
    · rw [frontier_of_le (by rw [hcount']; exact Nat.not_lt.mp hb)]
      exact .nil

-- Without blocks there is nothing to compute.

theorem withDominators_empty (h : f.blocks = #[]) : f.withDominators = .ok f := by
  cases f
  subst h
  rfl

theorem withFrontiers_empty (h : f.blocks = #[]) : f.withFrontiers = .ok f := by
  cases f
  subst h
  simp [withFrontiers, blockIds, mapBlocks, pure, Except.pure]

theorem ofFunction_empty (h : f.blocks = #[]) : DomTree.ofFunction f =
    .ok { parents := #[], children := #[], order := [], entry := f.entry } := by
  cases f
  subst h
  simp [DomTree.ofFunction, blockIds, domParents, reversePostorder, checkBlocks, bind, Except.bind, pure,
    Except.pure]

/-- Without an entry to start from there are no dominators, unless there are no blocks either. -/
theorem entry_lt_of_withDominators (h : Succeeds f.withDominators) (hne : 0 < f.blockCount) :
    f.entry < f.blockCount := by
  obtain ⟨_, hdom⟩ := h
  obtain ⟨_, hguesses, _⟩ := bind_eq_ok.mp hdom
  obtain ⟨_, horder, _⟩ := bind_eq_ok.mp hguesses
  exact entry_lt_of_reversePostorder horder hne

/-- In a function whose edges were derived, the dominators can be computed exactly when the entry is a block or
there are no blocks. Behind them the frontiers can be computed, and the frontier of a block holds exactly the
blocks of which it dominates a predecessor and which it does not dominate strictly, in ascending order. Blocks
with a single predecessor that are the entry or that control cannot reach are left open. -/
theorem frontiers_exact (g : Function) :
    (Succeeds g.buildEdges.withDominators ↔ (0 < g.blockCount → g.entry < g.blockCount)) ∧
    ∀ h, g.buildEdges.withDominators = .ok h →
      ∃ h' t, h.withFrontiers = .ok h' ∧ DomTree.ofFunction h' = .ok t ∧
        (∀ b < g.blockCount, ∀ j < g.blockCount,
          ¬ ((g.buildEdges.preds j).length = 1 ∧ (j = g.entry ∨ ¬ g.buildEdges.Reachable j)) →
            (j ∈ h'.frontier b ↔ (∃ p ∈ g.buildEdges.preds j, t.dominates b p = .ok true) ∧
              t.strictlyDominates b j = .ok false)) ∧
        ∀ b, (h'.frontier b).Pairwise (· < ·) := by
  obtain ⟨hlinked, hcount, _⟩ := g.linked_buildEdges
  have hsame : g.buildEdges.entry = g.entry := g.entry_buildEdges
  obtain hnone | hsome := Nat.eq_zero_or_pos g.blockCount
  · have hempty : g.buildEdges.blocks = #[] := Array.eq_empty_of_size_eq_zero (hcount.trans hnone)
    have hdom := withDominators_empty hempty
    refine ⟨iff_of_true ⟨_, hdom⟩ fun hpos => absurd hnone (Nat.ne_of_gt hpos), fun h hh => ?_⟩
    obtain rfl := Except.ok.inj (hdom.symm.trans hh)
    refine ⟨_, _, withFrontiers_empty hempty, ofFunction_empty hempty, ?_, ?_⟩
    · intro b hb
      omega
    · intro b
      rw [frontier_of_le (by omega)]
      exact .nil
  · have hentry (hdom : Succeeds g.buildEdges.withDominators) : g.entry < g.blockCount := by
      have hlt := entry_lt_of_withDominators hdom (hcount.symm ▸ hsome)
      rwa [hsame, hcount] at hlt
    have hfrontiers (hlt : g.entry < g.blockCount) := hlinked.frontiers (by rw [hsame, hcount]; exact hlt)
    refine ⟨⟨fun hdom _ => hentry hdom, fun hlt => ?_⟩, fun h hh => ?_⟩
    · obtain ⟨_, _, _, hdom, _⟩ := hfrontiers (hlt hsome)
      exact ⟨_, hdom⟩
    · obtain ⟨_, h', t, hdom, hfront, htree, hmem, hsorted⟩ := hfrontiers (hentry ⟨h, hh⟩)
      obtain rfl := Except.ok.inj (hdom.symm.trans hh)
      rw [hcount, hsame] at hmem
      exact ⟨h', t, hfront, htree, hmem, hsorted⟩

end Function

/-- The exit leads to itself and is entered from elsewhere, so it is in its own frontier. -/
theorem tangle_frontiers : ∃ h h' t, tangle.buildEdges.withDominators = .ok h ∧ h.withFrontiers = .ok h' ∧
    DomTree.ofFunction h' = .ok t ∧ 3 ∈ h'.frontier 3 ∧ (h'.frontier 3).Pairwise (· < ·) := by
  have hpreds : tangle.buildEdges.preds 3 = [2, 3, 4] := by decide +kernel
  obtain ⟨hsucceeds, hexact⟩ := tangle.frontiers_exact
  obtain ⟨h, hdom⟩ := hsucceeds.mpr fun _ => by decide
  obtain ⟨h', t, hfront, htree, hmem, hsorted⟩ := hexact h hdom
  refine ⟨h, h', t, hdom, hfront, htree, ?_, hsorted 3⟩
  refine (hmem 3 (by decide) 3 (by decide) (by simp [hpreds])).mpr ⟨⟨3, by simp [hpreds], ?_⟩, ?_⟩
  · exact if_pos rfl
  · exact if_pos rfl

end MiddleEnd
