import MiddleEnd.Proofs.Dominance.Tour
import MiddleEnd.Proofs.IR.Edges

/-!
# The recorded dominators are all dominators

That the blocks above a block dominate it holds of many trees; the iteration finds the one in which nothing
else dominates it. Throughout the iteration no dominator is missing on any way up. What carries this from
one guess to the next is that a guess leads to its block without passing an earlier place: so a dominator
above a block whose guess changes dominates that block as well, and is found among its predecessors.

## Main definitions

* `Function.Tight`: what holds of the guesses throughout the iteration.

## Main statements

* `Function.Tight.renew`: renewing a guess keeps it.
* `Function.Ordered.above_of_dominates`: in the end every dominator is above.
* `Function.Toured.dominates_eq`: the tree answers whether a block is above another.
* `Function.withDominators_toured`: a block is above another exactly when it dominates it.
* `Function.dominators_exact`: the iteration finds exactly the dominators.
-/

namespace MiddleEnd

namespace Function

/-- What holds of the guesses throughout the iteration: a guess leads to its block without passing an
earlier place, and no dominator of a block with a guess is missing on its way up. -/
structure Tight (f : Function) (place : BlockId → Nat) (guesses : Guesses) : Prop where
  leads : ∀ b c, guesses.get? b = some c → ∃ l, f.Path c b l ∧ ∀ x ∈ l, place c ≤ place x
  complete : ∀ b, (guesses.get? b).isSome → ∀ a, f.Dominates a b → Above guesses.get? a b

variable {f : Function} {rest : List BlockId}

-- ════════════════════════════════════════════════════════════════════════
-- The iteration
-- ════════════════════════════════════════════════════════════════════════

namespace Tight

variable {place : BlockId → Nat} {guesses old : Guesses}

/-- A block leads to everything below it without passing an earlier place. -/
theorem leads_of_above (h : f.Tight place guesses) (hroot : guesses.Rooted place f.entry)
    {a b : BlockId} (hab : Above guesses.get? a b) :
    ∃ l, f.Path a b l ∧ ∀ x ∈ l, place a ≤ place x := by
  induction hab with
  | refl => exact ⟨[a], .nil, fun x hx => Nat.le_of_eq (congrArg place (List.mem_singleton.mp hx)).symm⟩
  | @step b c hup hac ih =>
    obtain ⟨l, hl, hlate⟩ := ih
    obtain ⟨l', hl', hlate'⟩ := h.leads b c hup
    obtain ⟨l'', hl'', hmem⟩ := hl.append hl'
    refine ⟨l'', hl'', fun x hx => ?_⟩
    rcases hmem x hx with hx | hx
    · exact hlate x hx
    · exact Nat.le_trans (hroot.place_le_of_above hac) (hlate' x hx)

/-- Before the first sweep only the entry has a guess, and nothing else dominates it. -/
theorem firstGuesses (hentry : f.entry < f.blockCount) : f.Tight place f.firstGuesses where
  leads b c hc := by
    obtain ⟨rfl, rfl⟩ := (get?_firstGuesses hentry).mp hc
    exact ⟨[f.entry], .nil, fun x hx => Nat.le_of_eq (congrArg place (List.mem_singleton.mp hx)).symm⟩
  complete b hb a hab := by
    obtain ⟨c, hc⟩ := Option.isSome_iff_exists.mp hb
    obtain ⟨rfl, _⟩ := (get?_firstGuesses hentry).mp hc
    rw [List.mem_singleton.mp (hab.mem .nil)]
    exact .refl

/-- Renewing a guess loses no dominator from any way up. -/
theorem renew (h : f.Tight (f.placeIn (f.entry :: rest)) guesses) (hlinked : f.Linked)
    (hentry : f.entry < f.blockCount) (hordered : f.Ordered (f.entry :: rest))
    (hcount : old.size = f.blockCount) {x : BlockId} (hx : x ∈ rest)
    (hsweep : Guesses.Sweeping (f.placeIn (f.entry :: rest)) f.preds f.entry rest old guesses
      (f.placeIn (f.entry :: rest) x)) :
    f.Tight (f.placeIn (f.entry :: rest))
      (Guesses.renew (f.placeIn (f.entry :: rest)) f.preds guesses x) := by
  have hcourse := hordered.course hlinked hentry
  have hroot := hsweep.rooted
  have hxmem : x ∈ f.entry :: rest := List.mem_cons_of_mem _ hx
  have hxsize := hsweep.lt_size hcourse hcount hx
  have hreach : ∀ b, (guesses.get? b).isSome → f.Reachable b := fun b hb =>
    (hordered.mem_iff b).mp (hsweep.mem b hb)
  obtain ⟨c, hrenew, _, hc, q, hq, hqsome, hcq, hqx⟩ := hsweep.renew_eq hcourse hx
  rw [hrenew]
  generalize f.placeIn (f.entry :: rest) = place at *
  have hcx : ¬ Above guesses.get? x c := hroot.not_above_of_place_lt (Nat.lt_of_le_of_lt hcq hqx)
  have hself : Guesses.get? (guesses.setIfInBounds x (some c)) x = some c :=
    Guesses.get?_setIfInBounds_self hxsize _
  have hother : ∀ b, b ≠ x → Guesses.get? (guesses.setIfInBounds x (some c)) b = guesses.get? b :=
    fun b hb => Guesses.get?_setIfInBounds_ne hb _
  -- A dominator of the renewed block dominates its predecessors, so it is above the new guess.
  have hkey : ∀ a, f.Dominates a x → Above (Guesses.get? (guesses.setIfInBounds x (some c))) a x := by
    intro a hax
    by_cases hne : a = x
    · subst hne
      exact .refl
    · refine .step hself ((Guesses.above_set_iff hcx).mpr (hc.nearest a fun p hp hsome => ?_))
      exact h.complete p hsome a (hax.pred hne (hreach p hsome) ((hlinked.mem_preds p x).mp hp))
  refine ⟨fun b d hd => ?_, fun b hb a hab => ?_⟩
  · by_cases hbx : b = x
    · subst hbx
      obtain rfl := Option.some.inj (hself.symm.trans hd)
      obtain ⟨l, hl, hlate⟩ := h.leads_of_above hroot (hc.above q hq hqsome)
      refine ⟨b :: l, hl.snoc ((hlinked.mem_preds q b).mp hq), fun y hy => ?_⟩
      rcases List.mem_cons.mp hy with rfl | hy
      · exact Nat.le_of_lt (Nat.lt_of_le_of_lt hcq hqx)
      · exact hlate y hy
    · rw [hother b hbx] at hd
      exact h.leads b d hd
  · by_cases hbx : b = x
    · subst hbx
      exact hkey a hab
    · rw [hother b hbx] at hb
      have hold := h.complete b hb a hab
      by_cases hxb : Above guesses.get? x b
      · have hxb' := Guesses.above_set_of_place_le (c := c) hroot (hcourse.ne_entry hx)
          (Nat.le_refl _) hxb
        by_cases hle : place x ≤ place a
        · exact Guesses.above_set_of_place_le hroot (hcourse.ne_entry hx) hle hold
        · -- The way from `x` to `b` stays behind the place of `x`, so it avoids `a`.
          obtain ⟨l, hl, hlate⟩ := h.leads_of_above hroot hxb
          have hax : f.Dominates a x :=
            hab.of_detour ((hordered.mem_iff x).mp hxmem) hl fun ha => hle (hlate a ha)
          exact (hkey a hax).trans hxb'
      · exact (Guesses.above_set_iff hxb).mpr hold

end Tight

/-- In the end every dominator of a block that control can reach is above it. -/
theorem Ordered.above_of_dominates (hordered : f.Ordered (f.entry :: rest)) (hlinked : f.Linked)
    (hentry : f.entry < f.blockCount) {a b : BlockId} (hb : f.Reachable b) (hab : f.Dominates a b) :
    Above (f.recordIdoms ((f.lastGuesses rest).setIfInBounds f.entry none)).idom? a b := by
  have hcourse := hordered.course hlinked hentry
  have hstart := settled_firstGuesses hlinked hentry hordered
  have htight : f.Tight (f.placeIn (f.entry :: rest)) (f.lastGuesses rest) :=
    hstart.descend_keeps hcourse f.size_firstGuesses
      (fun old new hcount x hx hsweep h => h.renew hlinked hentry hordered hcount hx hsweep)
      (.firstGuesses hentry)
  obtain ⟨hsettled, hsize, hfixed⟩ := hstart.descend_fixed hcourse f.size_firstGuesses
  rw [← lastGuesses] at hsettled hsize hfixed
  refine (above_recorded_iff hsettled.rooted hentry hsize).mpr (htight.complete b ?_ a hab)
  -- In the end every block that control can reach has a guess.
  rcases List.mem_cons.mp ((hordered.mem_iff b).mpr hb) with rfl | hb
  · simp [hsettled.rooted.root]
  · obtain ⟨c, hc, _⟩ := hsettled.nearest_of_sweep_eq hcourse hsize hfixed hb
    simp [hc]

-- ════════════════════════════════════════════════════════════════════════
-- The tree
-- ════════════════════════════════════════════════════════════════════════

namespace Toured

variable {order : List BlockId} {t : DomTree}

/-- Following the recorded dominators for long enough finds the blocks strictly above a block. -/
theorem hasAncestor_eq (h : f.Toured order t) (a : BlockId) {steps : Nat} {b : BlockId}
    (hb : f.Reachable b) (hsteps : order.idxOf b < steps) : ∃ x, t.hasAncestor a steps b = .ok x ∧
      (x = true ↔ ∃ d, f.idom? b = some d ∧ Above f.idom? a d) := by
  induction steps generalizing b with
  | zero => exact absurd hsteps (Nat.not_lt_zero _)
  | succ steps ih =>
    rw [DomTree.hasAncestor, h.parents b (h.lt_of_reachable hb), require_some, ok_bind]
    cases hd : f.idom? b with
    | none => exact ⟨false, rfl, by simp⟩
    | some d =>
      obtain ⟨_, _, hreach, hbefore⟩ := h.forest.of_idom hd
      by_cases hda : d = a
      · subst hda
        exact ⟨true, if_pos rfl, iff_of_true rfl ⟨d, rfl, .refl⟩⟩
      · obtain ⟨x, hx, hiff⟩ := ih hreach (by omega)
        refine ⟨x, (if_neg hda).trans hx, hiff.trans ?_⟩
        constructor
        · rintro ⟨e, he, hae⟩
          exact ⟨d, rfl, .step he hae⟩
        · rintro ⟨e, he, hae⟩
          obtain rfl := Option.some.inj he
          cases hae with
          | refl => exact absurd rfl hda
          | step he hae => exact ⟨_, he, hae⟩

/-- The tree answers whether a block is above another. -/
theorem dominates_eq (h : f.Toured order t) (a : BlockId) {b : BlockId} (hb : b < f.blockCount) :
    ∃ x, t.dominates a b = .ok x ∧ (x = true ↔ Above f.idom? a b) := by
  unfold DomTree.dominates
  by_cases hab : a = b
  · subst hab
    exact ⟨true, if_pos rfl, iff_of_true rfl .refl⟩
  · rw [if_neg hab, h.blockCount, if_neg (Nat.not_le.mpr hb)]
    have hmem : t.isReachable b = true ↔ f.Reachable b := by
      rw [DomTree.isReachable, h.order_eq, List.contains_iff_mem, h.forest.ordered.mem_iff]
    have hiff : Above f.idom? a b ↔ ∃ d, f.idom? b = some d ∧ Above f.idom? a d := by
      constructor
      · intro habove
        cases habove with
        | refl => exact absurd rfl hab
        | step hd had => exact ⟨_, hd, had⟩
      · rintro ⟨d, hd, had⟩
        exact .step hd had
    rw [hiff]
    by_cases hreach : f.Reachable b
    · rw [if_pos (hmem.mpr hreach)]
      have hlt := h.forest.ordered.idxOf_lt_blockCount h.linked h.entry_lt hreach
      exact h.hasAncestor_eq a hreach (Nat.lt_succ_of_lt hlt)
    · rw [if_neg (mt hmem.mp hreach)]
      refine ⟨false, rfl, iff_of_false Bool.false_ne_true ?_⟩
      rintro ⟨d, hd, _⟩
      rw [h.forest.idom_unreachable b hreach] at hd
      cases hd

end Toured

/-- The dominators of a function whose edges agree can be computed, and the tree that they form can be read
off. A block is above another in it exactly when it dominates that block. -/
theorem withDominators_toured (hlinked : f.Linked) (hentry : f.entry < f.blockCount) :
    ∃ h order t, f.withDominators = .ok h ∧ DomTree.ofFunction h = .ok t ∧ h.Toured order t ∧
      h.entry = f.entry ∧ h.blockCount = f.blockCount ∧ (∀ b, h.Reachable b ↔ f.Reachable b) ∧
      ∀ a b, Above h.idom? a b ↔ f.Dominates a b := by
  obtain ⟨order, horder, hordered⟩ := reversePostorder_ordered hentry hlinked
  obtain ⟨rest, rfl⟩ := hordered.head
  have hforest := hordered.forest_recordIdoms hlinked hentry
  have habove := fun a b => hordered.above_of_dominates hlinked hentry (a := a) (b := b)
  have hdom := withDominators_eq hlinked horder
  generalize (f.lastGuesses rest).setIfInBounds f.entry none = guesses at hforest habove hdom
  have hsuccs : ∀ b, (f.recordIdoms guesses).succs b = f.succs b := f.succs_recordIdoms guesses
  have hcount := f.blockCount_recordIdoms guesses
  have hentry' : (f.recordIdoms guesses).entry < (f.recordIdoms guesses).blockCount := hcount ▸ hentry
  have hreach : ∀ b, (f.recordIdoms guesses).Reachable b ↔ f.Reachable b := fun b =>
    ⟨.congr rfl hsuccs, .congr rfl fun b => (hsuccs b).symm⟩
  have horder' : (f.recordIdoms guesses).reversePostorder = .ok (f.entry :: rest) := by
    rw [reversePostorder_eq hentry' (hlinked.recordIdoms guesses).succs_lt, ← horder,
      reversePostorder_eq hentry hlinked.succs_lt, funext hsuccs, hcount]
    rfl
  obtain ⟨t, htree, htoured⟩ := hforest.ofFunction_toured (hlinked.recordIdoms guesses) hentry' horder'
  refine ⟨_, _, t, hdom, htree, htoured, rfl, hcount, hreach, fun a b => ⟨fun hab => ?_, ?_⟩⟩
  · by_cases hb : (f.recordIdoms guesses).Reachable b
    · exact (hforest.dominates_of_above hb hab).congr (f := f.recordIdoms guesses) rfl hsuccs
    · -- Nothing else is above a block that control cannot reach.
      cases hab with
      | refl => exact .refl f a
      | step hup _ => exact absurd (hforest.of_idom hup).1 hb
  · rintro (rfl | ⟨hb, hall⟩)
    · exact .refl
    · exact habove a b hb (.inr ⟨hb, hall⟩)

/-- In a function whose edges were derived and whose entry exists, the dominators can be computed, and the
tree that they form answers exactly whether a block dominates another, in the sense of the paths from the
entry. Every block that control can reach, but the entry, records its nearest strict dominator; the entry and
all other blocks record none. -/
theorem dominators_exact (g : Function) (hentry : g.entry < g.blockCount) :
    ∃ h t, g.buildEdges.withDominators = .ok h ∧ DomTree.ofFunction h = .ok t ∧
      (∀ a, ∀ b < g.blockCount, ∃ answer, t.dominates a b = .ok answer ∧
        (answer = true ↔ g.buildEdges.Dominates a b)) ∧
      (∀ b, g.buildEdges.Reachable b → b ≠ g.entry → ∃ d, h.idom? b = some d ∧
        g.buildEdges.StrictlyDominates d b ∧
        ∀ a, g.buildEdges.StrictlyDominates a b → g.buildEdges.Dominates a d) ∧
      h.idom? g.entry = none ∧ ∀ b, ¬ g.buildEdges.Reachable b → h.idom? b = none := by
  obtain ⟨hlinked, hcount, _⟩ := g.linked_buildEdges
  have hsame : g.buildEdges.entry = g.entry := g.entry_buildEdges
  obtain ⟨h, order, t, hdom, htree, htoured, hentry', hcount', hreach, habove⟩ :=
    withDominators_toured hlinked (by rw [hsame, hcount]; exact hentry)
  rw [hcount] at hcount'
  rw [hsame] at hentry'
  have hforest := htoured.forest
  refine ⟨h, t, hdom, htree, fun a b hb => ?_, fun b hb hne => ?_, ?_, fun b hb => ?_⟩
  · obtain ⟨answer, hanswer, hiff⟩ := htoured.dominates_eq a (b := b) (hcount' ▸ hb)
    exact ⟨answer, hanswer, hiff.trans (habove a b)⟩
  · obtain ⟨d, hd, _⟩ := hforest.idom_reachable b ((hreach b).mpr hb) (hentry' ▸ hne)
    refine ⟨d, hd, ⟨?_, (habove d b).mp (.step hd .refl)⟩, fun a ⟨hab, hdoms⟩ => ?_⟩
    · rintro rfl
      exact hforest.not_above_parent hd .refl
    · exact (habove a d).mp ((((habove a b).mpr hdoms).parent hd).resolve_left hab)
  · rw [← hentry']
    exact hforest.idom_entry
  · exact hforest.idom_unreachable b (mt (hreach b).mp hb)

end Function

/-- Two blocks that lead to each other and are both entered from outside, a block that leads to itself and
back to the entry, and a block that nothing leads to. -/
def tangle : Function where
  name := 0
  line := 1
  blocks := #[
    { id := 0, label := "entry", instrs := [.branch (.int 0) 1 2 1] },
    { id := 1, label := "left", instrs := [.jump 2 1] },
    { id := 2, label := "right", instrs := [.branch (.int 0) 1 3 1] },
    { id := 3, label := "exit", instrs := [.branch (.int 0) 3 0 1] },
    { id := 4, label := "dead", instrs := [.jump 3 1] }]

/-- The exit records a strict dominator, and the block that nothing leads to records none. -/
theorem tangle_dominators : tangle.entry < tangle.blockCount ∧
    ∃ h t, tangle.buildEdges.withDominators = .ok h ∧ DomTree.ofFunction h = .ok t ∧
      (∃ d, h.idom? 3 = some d ∧ tangle.buildEdges.StrictlyDominates d 3) ∧ h.idom? 4 = none := by
  have hentry : tangle.entry < tangle.blockCount := by decide
  have hreach : tangle.buildEdges.Reachable 3 :=
    ((tangle.buildEdges.reachable_entry).succ (c := 2) (by decide +kernel)).succ (by decide +kernel)
  have hdead : ¬ tangle.buildEdges.Reachable 4 := by
    intro hdead
    refine hdead.induction (P := (· ≠ 4)) (by decide +kernel) (fun p q _ _ hq => ?_) rfl
    rintro rfl
    have hnone : ∀ p < 5, 4 ∉ tangle.buildEdges.succs p := by decide +kernel
    have hcount : tangle.buildEdges.blockCount = 5 := tangle.linked_buildEdges.2.1
    exact hnone p (hcount ▸ Function.lt_of_mem_succs hq) hq
  obtain ⟨h, t, hdom, htree, _, hidom, _, hnone⟩ := tangle.dominators_exact hentry
  obtain ⟨d, hd, hstrict, _⟩ := hidom 3 hreach (by decide)
  exact ⟨hentry, h, t, hdom, htree, ⟨d, hd, hstrict⟩, hnone 4 hdead⟩

end MiddleEnd
