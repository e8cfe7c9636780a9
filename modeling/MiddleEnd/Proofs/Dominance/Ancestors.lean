import MiddleEnd.Dominance.Immediate
import Mathlib.Tactic.Common

/-!
# Ways up

A table that gives some blocks a parent defines for each block a way up: the block, its parent, the
parent of that, and so on. Two ways up that start at blocks with guesses meet, and `Guesses.meet`
finds the first block on both of them.

## Main definitions

* `Above`: a block is on the way up from another one.
* `Guesses.Rooted`: the guesses form a tree with the entry at its root.

## Main statements

* `Guesses.Rooted.above_of_place_le`: the blocks on one way up are lined up by their places.
* `Guesses.Rooted.meet_spec`: `meet` finds the nearest common ancestor of two blocks.
* `Guesses.Rooted.candidate_spec`: `candidate` finds that of all predecessors with a guess.
-/

namespace MiddleEnd

/-- `Above up a b` says that `a` is on the way up from `b`, which starts at `b` itself. -/
inductive Above (up : BlockId → Option BlockId) (a : BlockId) : BlockId → Prop where
  | refl : Above up a a
  | step {b c : BlockId} : up b = some c → Above up a c → Above up a b

namespace Above

variable {up : BlockId → Option BlockId} {a b c : BlockId}

theorem trans (hab : Above up a b) (hbc : Above up b c) : Above up a c := by
  induction hbc with
  | refl => exact hab
  | step hup _ ih => exact .step hup ih

/-- A block above another one is that block, or is above its parent. -/
theorem parent (h : Above up a b) (hup : up b = some c) : a = b ∨ Above up a c := by
  cases h with
  | refl => exact .inl rfl
  | step hup' h =>
    obtain rfl := Option.some.inj (hup.symm.trans hup')
    exact .inr h

/-- Of two blocks on one way up, one is above the other. -/
theorem total (ha : Above up a c) (hb : Above up b c) : Above up a b ∨ Above up b a := by
  induction ha with
  | refl => exact .inr hb
  | step hup ha ih =>
    rcases hb.parent hup with rfl | hb
    · exact .inl (.step hup ha)
    · exact ih hb

end Above

namespace Guesses

/-- The guesses form a tree: the entry is its own guess, and every other block with a guess comes
later in the order than its guess, which has a guess itself. -/
structure Rooted (place : BlockId → Nat) (entry : BlockId) (guesses : Guesses) : Prop where
  root : guesses.get? entry = some entry
  first : ∀ b, place entry ≤ place b
  up : ∀ b c, guesses.get? b = some c → b ≠ entry →
    place c < place b ∧ (guesses.get? c).isSome
  inj : ∀ a b, (guesses.get? a).isSome → (guesses.get? b).isSome → place a = place b → a = b

namespace Rooted

variable {place : BlockId → Nat} {entry : BlockId} {guesses : Guesses}

/-- The guess of a block has a guess. -/
theorem isSome_guess (h : guesses.Rooted place entry) {b c : BlockId}
    (hb : guesses.get? b = some c) : (guesses.get? c).isSome := by
  by_cases hroot : b = entry
  · subst hroot
    obtain rfl := Option.some.inj (h.root.symm.trans hb)
    simp [h.root]
  · exact (h.up b c hb hroot).2

theorem place_guess_le (h : guesses.Rooted place entry) {b c : BlockId}
    (hb : guesses.get? b = some c) : place c ≤ place b := by
  by_cases hroot : b = entry
  · subst hroot
    obtain rfl := Option.some.inj (h.root.symm.trans hb)
    exact Nat.le_refl _
  · exact Nat.le_of_lt (h.up b c hb hroot).1

/-- Every block on the way up from a block with a guess has a guess. -/
theorem isSome_of_above (h : guesses.Rooted place entry) {a b : BlockId}
    (hab : Above guesses.get? a b) (hb : (guesses.get? b).isSome) : (guesses.get? a).isSome := by
  induction hab with
  | refl => exact hb
  | step hup _ ih => exact ih (h.isSome_guess hup)

/-- The places do not grow on the way up. -/
theorem place_le_of_above (h : guesses.Rooted place entry) {a b : BlockId}
    (hab : Above guesses.get? a b) : place a ≤ place b := by
  induction hab with
  | refl => exact Nat.le_refl _
  | step hup _ ih => exact Nat.le_trans ih (h.place_guess_le hup)

/-- The blocks on one way up are lined up by their places. -/
theorem above_of_place_le (h : guesses.Rooted place entry) {a b c : BlockId}
    (hc : (guesses.get? c).isSome) (ha : Above guesses.get? a c) (hb : Above guesses.get? b c)
    (hle : place a ≤ place b) : Above guesses.get? a b := by
  rcases ha.total hb with hab | hba
  · exact hab
  · have hge := h.place_le_of_above hba
    obtain rfl := h.inj a b (h.isSome_of_above ha hc) (h.isSome_of_above hb hc) (by omega)
    exact .refl

/-- A block is not above one that comes before it. -/
theorem not_above_of_place_lt (h : guesses.Rooted place entry) {a b : BlockId}
    (hlt : place b < place a) : ¬ Above guesses.get? a b := fun hab =>
  absurd (h.place_le_of_above hab) (Nat.not_le.mpr hlt)

/-- The guess of a block that comes after another comes before it: only the entry is its own guess, and it
comes first. -/
theorem place_guess_lt (h : guesses.Rooted place entry) {a b parent : BlockId}
    (hup : guesses.get? a = some parent) (hlt : place b < place a) : place parent < place a := by
  refine (h.up a parent hup ?_).1
  rintro rfl
  exact absurd (h.first b) (Nat.not_le.mpr hlt)

/-- Of two blocks with guesses one comes before the other. -/
theorem place_lt (h : guesses.Rooted place entry) {a b : BlockId} (ha : (guesses.get? a).isSome)
    (hb : (guesses.get? b).isSome) (hne : a ≠ b) (hge : ¬ place b < place a) : place a < place b :=
  Nat.lt_of_le_of_ne (Nat.not_lt.mp hge) fun heq => hne (h.inj a b ha hb heq)

/-- The entry is above every block with a guess. -/
theorem entry_above (h : guesses.Rooted place entry) {b : BlockId} (hb : (guesses.get? b).isSome) :
    Above guesses.get? entry b := by
  induction hn : place b using Nat.strongRecOn generalizing b with
  | ind n ih =>
    subst hn
    by_cases hne : b = entry
    · exact hne ▸ .refl
    · obtain ⟨c, hc⟩ := Option.isSome_iff_exists.mp hb
      obtain ⟨hlt, hsome⟩ := h.up b c hc hne
      exact .step hc (ih _ hlt hsome rfl)

-- ════════════════════════════════════════════════════════════════════════
-- Nearest common ancestors
-- ════════════════════════════════════════════════════════════════════════

/-- `c` is the nearest block above all of the given blocks that have a guess. -/
structure Nearest (guesses : Guesses) (blocks : List BlockId) (c : BlockId) : Prop where
  above : ∀ p ∈ blocks, (guesses.get? p).isSome → Above guesses.get? c p
  nearest : ∀ e, (∀ p ∈ blocks, (guesses.get? p).isSome → Above guesses.get? e p) →
    Above guesses.get? e c

/-- `meet` is above both of its arguments, and below everything else that is. -/
theorem meet_spec (h : guesses.Rooted place entry) {a b : BlockId}
    (ha : (guesses.get? a).isSome) (hb : (guesses.get? b).isSome) :
    Above guesses.get? (guesses.meet place a b) a ∧
      Above guesses.get? (guesses.meet place a b) b ∧
      ∀ e, Above guesses.get? e a → Above guesses.get? e b →
        Above guesses.get? e (guesses.meet place a b) := by
  fun_induction Guesses.meet guesses place a b with
  | case1 b => exact ⟨.refl, .refl, fun e he _ => he⟩
  | case2 a b hne hlt parent hup hplace ih =>
    obtain ⟨h1, h2, h3⟩ := ih (h.isSome_guess hup) hb
    refine ⟨.step hup h1, h2, fun e hea heb => h3 e ?_ heb⟩
    rcases hea.parent hup with rfl | hea
    · exact absurd heb (h.not_above_of_place_lt hlt)
    · exact hea
  | case3 a b hne hlt parent hup hplace =>
    exact absurd (h.place_guess_lt hup hlt) hplace
  | case4 a b hne hlt hnone => simp [hnone] at ha
  | case5 a b hne hge parent hup hplace ih =>
    obtain ⟨h1, h2, h3⟩ := ih ha (h.isSome_guess hup)
    refine ⟨h1, .step hup h2, fun e hea heb => h3 e hea ?_⟩
    rcases heb.parent hup with rfl | heb
    · exact absurd hea (h.not_above_of_place_lt (h.place_lt ha hb hne hge))
    · exact heb
  | case6 a b hne hge parent hup hplace =>
    exact absurd (h.place_guess_lt hup (h.place_lt ha hb hne hge)) hplace
  | case7 a b hne hge hnone => simp [hnone] at hb

/-- What one predecessor does to the candidate. -/
def meetStep (guesses : Guesses) (place : BlockId → Nat) (best : Option BlockId)
    (pred : BlockId) : Option BlockId :=
  match guesses.get? pred, best with
  | none, best => best
  | some _, none => some pred
  | some _, some current => some (guesses.meet place current pred)

/-- The candidate for a list of blocks: nothing if none of them has a guess, and otherwise the
nearest block above all that have one. -/
def IsCandidate (guesses : Guesses) (blocks : List BlockId) : Option BlockId → Prop
  | none => ∀ p ∈ blocks, guesses.get? p = none
  | some c => (guesses.get? c).isSome ∧ Nearest guesses blocks c

/-- One more predecessor keeps the candidate what it should be. -/
theorem isCandidate_meetStep (h : guesses.Rooted place entry) {blocks : List BlockId}
    {best : Option BlockId} (hbest : IsCandidate guesses blocks best) (pred : BlockId) :
    IsCandidate guesses (blocks ++ [pred]) (meetStep guesses place best pred) := by
  cases hpred : guesses.get? pred with
  | none =>
    simp only [meetStep, hpred]
    cases best with
    | none =>
      intro p hp
      rcases List.mem_append.mp hp with hp | hp
      · exact hbest p hp
      · exact (List.mem_singleton.mp hp) ▸ hpred
    | some c =>
      refine ⟨hbest.1, ⟨fun p hp hsome => ?_, fun e he => ?_⟩⟩
      · rcases List.mem_append.mp hp with hp | hp
        · exact hbest.2.above p hp hsome
        · simp [List.mem_singleton.mp hp, hpred] at hsome
      · exact hbest.2.nearest e fun p hp => he p (List.mem_append_left _ hp)
  | some guess =>
    have hsome : (guesses.get? pred).isSome := by simp [hpred]
    simp only [meetStep, hpred]
    cases best with
    | none =>
      refine ⟨hsome, ⟨fun p hp hp' => ?_, fun e he => he pred (by simp) hsome⟩⟩
      rcases List.mem_append.mp hp with hp | hp
      · simp [hbest p hp] at hp'
      · exact (List.mem_singleton.mp hp) ▸ .refl
    | some c =>
      obtain ⟨hc, hpred', hnearest⟩ := h.meet_spec hbest.1 hsome
      refine ⟨h.isSome_of_above hc hbest.1, ⟨fun p hp hp' => ?_, fun e he => ?_⟩⟩
      · rcases List.mem_append.mp hp with hp | hp
        · exact hc.trans (hbest.2.above p hp hp')
        · exact (List.mem_singleton.mp hp) ▸ hpred'
      · refine hnearest e (hbest.2.nearest e fun p hp => he p (List.mem_append_left _ hp)) ?_
        exact he pred (by simp) hsome

/-- The candidate is the nearest block above all predecessors that have a guess. -/
theorem candidate_spec (h : guesses.Rooted place entry) (preds : List BlockId) :
    IsCandidate guesses preds (guesses.candidate place preds) := by
  have hfold : ∀ rest blocks best, IsCandidate guesses blocks best →
      IsCandidate guesses (blocks ++ rest) (rest.foldl (meetStep guesses place) best) := by
    intro rest
    induction rest with
    | nil => intro blocks best hbest; simpa using hbest
    | cons p rest ih =>
      intro blocks best hbest
      have hnext := ih _ _ (h.isCandidate_meetStep hbest p)
      simpa using hnext
  exact hfold preds [] none (by simp [IsCandidate])

/-- As soon as one predecessor has a guess there is a candidate. -/
theorem exists_candidate (h : guesses.Rooted place entry) {preds : List BlockId} {p : BlockId}
    (hp : p ∈ preds) (hsome : (guesses.get? p).isSome) :
    ∃ c, guesses.candidate place preds = some c ∧ (guesses.get? c).isSome ∧
      Nearest guesses preds c := by
  have hspec := h.candidate_spec preds
  cases hc : guesses.candidate place preds with
  | none =>
    rw [hc] at hspec
    simp [hspec p hp] at hsome
  | some c =>
    rw [hc] at hspec
    exact ⟨c, rfl, hspec⟩

end Rooted

end Guesses

end MiddleEnd
