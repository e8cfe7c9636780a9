/-!
# Repeating a step while a rank falls

The fixed points of the middle end (immediate dominators, live registers, reaching definitions) are
all found by repeating a sweep over the blocks until it changes nothing. Each of these sweeps lowers
a natural number whenever it changes its argument, and that number is what the repetition watches.

## Main definitions

* `descend`: repeats a step for as long as it lowers the rank.
* `total`: the sum of a list of numbers, of which ranks are made.

## Main statements

* `descend_induction`: what the step keeps, the repetition keeps.
* `step_descend_eq`: the answer is a fixed point when equal ranks mean that nothing changed.
-/

namespace MiddleEnd

/-- The sum of a list of numbers. The ranks below add up over the entries of a table. -/
def total : List Nat → Nat
  | [] => 0
  | n :: rest => n + total rest

/-- Repeats `step` from `x` for as long as it lowers `rank`, and answers the last value. -/
def descend {α : Type} (rank : α → Nat) (step : α → α) (x : α) : α :=
  if rank (step x) < rank x then descend rank step (step x) else step x
termination_by rank x

/-- What one step keeps, the whole repetition keeps. -/
theorem descend_induction {α : Type} {rank : α → Nat} {step : α → α} {P : α → Prop}
    (hstep : ∀ x, P x → P (step x)) (x : α) (hx : P x) : P (descend rank step x) := by
  fun_induction descend rank step x with
  | case1 x _ ih => exact ih (hstep x hx)
  | case2 x _ => exact hstep x hx

/-- If, on the values that satisfy an invariant, a step that does not lower the rank changes
nothing, then the answer is a fixed point of the step. -/
theorem step_descend_eq {α : Type} {rank : α → Nat} {step : α → α} {P : α → Prop}
    (hstep : ∀ x, P x → P (step x))
    (hstable : ∀ x, P x → ¬ rank (step x) < rank x → step x = x)
    (x : α) (hx : P x) : step (descend rank step x) = descend rank step x := by
  fun_induction descend rank step x with
  | case1 x _ ih => exact ih (hstep x hx)
  | case2 x h => rw [hstable x hx h, hstable x hx h]

end MiddleEnd
