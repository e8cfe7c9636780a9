import MiddleEnd.Descent
import Mathlib.Data.List.Forall2
import Mathlib.Logic.Function.Iterate

/-!
# Ranks that add up, and repetitions that end

A rank is a sum over the entries of a table. When each entry counts less than before or is the same as
before, the rank falls or nothing has changed.

## Main statements

* `total_lt_or_eq`: the sum falls, or nothing has changed.
* `exists_descend_eq_iterate`: a repetition makes some number of steps.
* `exists_iterate_fixed`: a repetition that ends in a fixed point gets there after some number of steps.
-/

namespace MiddleEnd

/-- If each entry of a list counts less than the entry at its place in another list, or is that
entry, then the list counts less in total, or is that list. -/
theorem total_lt_or_eq {α : Type} {f : α → Nat} {xs ys : List α}
    (h : List.Forall₂ (fun x y => f x < f y ∨ x = y) xs ys) :
    total (xs.map f) < total (ys.map f) ∨ xs = ys := by
  induction h with
  | nil => exact .inr rfl
  | @cons x y xs ys hxy _ ih =>
    simp only [List.map_cons, total]
    rcases hxy with hxy | rfl <;> rcases ih with ih | rfl
    · exact .inl (by omega)
    · exact .inl (by omega)
    · exact .inl (by omega)
    · exact .inr rfl

/-- A repetition answers what some number of steps leads to. -/
theorem exists_descend_eq_iterate {α : Type} (rank : α → Nat) (step : α → α) (x : α) :
    ∃ n, descend rank step x = step^[n] x := by
  fun_induction descend rank step x with
  | case1 x _ ih =>
    obtain ⟨n, hn⟩ := ih
    exact ⟨n + 1, by rw [hn, Function.iterate_succ_apply]⟩
  | case2 x _ => exact ⟨1, rfl⟩

/-- A repetition whose answer the step keeps reaches it after some number of steps. -/
theorem exists_iterate_fixed {α : Type} {rank : α → Nat} {step : α → α} {x : α}
    (hfix : step (descend rank step x) = descend rank step x) :
    ∃ n, descend rank step x = step^[n] x ∧ step^[n + 1] x = step^[n] x := by
  obtain ⟨n, hn⟩ := exists_descend_eq_iterate rank step x
  exact ⟨n, hn, by rw [Function.iterate_succ_apply', ← hn, hfix]⟩

end MiddleEnd
