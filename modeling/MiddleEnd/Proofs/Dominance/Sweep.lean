import MiddleEnd.Proofs.Descent
import MiddleEnd.Proofs.Dominance.Ancestors
import Mathlib.Data.List.Perm.Subperm

/-!
# Sweeps lower the guesses

A sweep renews the guesses in the order of the blocks. While it runs, the ways up of all blocks
change at once whenever one guess changes, so no block can be looked at alone. What holds
throughout is said in `Sweeping`, which compares the guesses `old` from before the sweep with the
guesses `new` that it has reached: every way up only ever loses blocks, and what remains of a way
up beyond a block is also on the way up from that block.

## Main definitions

* `Guesses.Course`: the order, the places and the predecessors that a sweep works with.
* `Guesses.Settled`: what holds between two sweeps.
* `Guesses.Sweeping`: what holds during a sweep.

## Main statements

* `Guesses.Sweeping.renew`: renewing the next block keeps `Sweeping`.
* `Guesses.Settled.sweep`: a sweep keeps `Settled`, and a guess that changes moves to an earlier place.
* `Guesses.Settled.sweep_eq_of_distance`: a sweep that does not lower the distance changes nothing.
* `Guesses.Settled.descend_fixed`: the iteration ends in a fixed point.
* `Guesses.Settled.descend_keeps`: the iteration keeps what each renewal keeps.
* `Guesses.Settled.nearest_of_sweep_eq`: there each guess is the nearest common ancestor of the
  predecessors.
-/

namespace MiddleEnd

namespace Guesses

/-- What a sweep works with: an order that starts with the entry, the places of the blocks in it, and
the predecessors of each block. Every block of the order but the first has a predecessor before
it. -/
structure Course (place : BlockId → Nat) (preds : BlockId → List BlockId) (entry : BlockId)
    (rest : List BlockId) (count : Nat) : Prop where
  nodup : (entry :: rest).Nodup
  place_eq : ∀ b ∈ entry :: rest, place b = (entry :: rest).idxOf b
  lt_count : ∀ b ∈ entry :: rest, b < count
  parent : ∀ b ∈ rest, ∃ p ∈ preds b, p ∈ entry :: rest ∧ place p < place b

/-- What holds between two sweeps: the guesses form a tree over blocks of the order, a guess is above
all predecessors that come before its block, and nothing that is above all predecessors comes after
the guess. -/
structure Settled (place : BlockId → Nat) (preds : BlockId → List BlockId) (entry : BlockId)
    (rest : List BlockId) (g : Guesses) : Prop where
  rooted : g.Rooted place entry
  mem : ∀ b, (g.get? b).isSome → b ∈ entry :: rest
  forward : ∀ b c, g.get? b = some c → b ≠ entry → ∀ q ∈ preds b, q ∈ entry :: rest →
    place q < place b → (g.get? q).isSome ∧ Above g.get? c q
  lowest : ∀ b c, g.get? b = some c → b ≠ entry → ∀ e,
    (∀ p ∈ preds b, (g.get? p).isSome → Above g.get? e p) → place e ≤ place c

/-- What holds during a sweep that started from `old`, has reached `new`, and has renewed the blocks
whose place is below `n`. -/
structure Sweeping (place : BlockId → Nat) (preds : BlockId → List BlockId) (entry : BlockId)
    (rest : List BlockId) (old new : Guesses) (n : Nat) : Prop where
  rooted : new.Rooted place entry
  mem : ∀ b, (new.get? b).isSome → b ∈ entry :: rest
  size : new.size = old.size
  /-- Ways up only lose blocks. -/
  shrink : ∀ b e, (old.get? b).isSome → Above new.get? e b → Above old.get? e b
  undone : ∀ b, n ≤ place b → new.get? b = old.get? b
  /-- Blocks that are still to be renewed have not been lost from any way up. -/
  undone_above : ∀ q b, (old.get? q).isSome → n ≤ place b → Above old.get? b q →
    Above new.get? b q
  /-- What remains of a way up beyond a block is on the way up from that block. -/
  beyond : ∀ q b e, (old.get? q).isSome → Above old.get? b q → Above new.get? e q →
    place e ≤ place b → Above new.get? e b
  lowest : ∀ b c, new.get? b = some c → b ≠ entry → ∀ e,
    (∀ p ∈ preds b, (new.get? p).isSome → Above new.get? e p) → place e ≤ place c
  done : ∀ b ∈ entry :: rest, b ≠ entry → place b < n → ∃ c, new.get? b = some c ∧
    ∀ q ∈ preds b, q ∈ entry :: rest → place q < place b →
      (new.get? q).isSome ∧ Above new.get? c q
  lowered : ∀ b c, old.get? b = some c → ∃ c', new.get? b = some c' ∧ place c' ≤ place c

variable {place : BlockId → Nat} {preds : BlockId → List BlockId} {entry : BlockId}
  {rest : List BlockId} {count : Nat}

-- ════════════════════════════════════════════════════════════════════════
-- Changing one guess
-- ════════════════════════════════════════════════════════════════════════

theorem get?_setIfInBounds_self {g : Guesses} {x : BlockId} (hx : x < g.size)
    (guess : Option BlockId) : Guesses.get? (g.setIfInBounds x guess) x = guess := by
  simp [Guesses.get?, hx]

theorem get?_setIfInBounds_ne {g : Guesses} {x b : BlockId} (hne : b ≠ x)
    (guess : Option BlockId) : Guesses.get? (g.setIfInBounds x guess) b = g.get? b := by
  simp [Guesses.get?, Array.getElem?_setIfInBounds_ne (Ne.symm hne)]

section Change

variable {g : Guesses} {x c : BlockId}

/-- The way up from a block that `x` is not above does not notice a change at `x`. -/
theorem above_set_iff {b e : BlockId} (hx : ¬ Above g.get? x b) :
    Above (Guesses.get? (g.setIfInBounds x (some c))) e b ↔ Above g.get? e b := by
  constructor
  · intro h
    induction h with
    | refl => exact .refl
    | @step b d hup _ ih =>
      have hne : b ≠ x := by rintro rfl; exact hx .refl
      rw [get?_setIfInBounds_ne hne] at hup
      exact .step hup (ih fun hd => hx (.step hup hd))
  · intro h
    induction h with
    | refl => exact .refl
    | @step b d hup _ ih =>
      have hne : b ≠ x := by rintro rfl; exact hx .refl
      refine .step ?_ (ih fun hd => hx (.step hup hd))
      rw [get?_setIfInBounds_ne hne, hup]

/-- If the new guess at `x` is above the old one, no way up gains a block. -/
theorem above_of_above_set {b e : BlockId} (hroot : g.Rooted place entry) (hx : x < g.size)
    (hc : ¬ Above g.get? x c) (hold : ∀ d, g.get? x = some d → Above g.get? c d)
    (hb : (g.get? b).isSome)
    (h : Above (Guesses.get? (g.setIfInBounds x (some c))) e b) : Above g.get? e b := by
  induction h with
  | refl => exact .refl
  | @step b d hup hed ih =>
    by_cases hbx : b = x
    · subst hbx
      rw [get?_setIfInBounds_self hx] at hup
      obtain rfl := Option.some.inj hup
      obtain ⟨d, hd⟩ := Option.isSome_iff_exists.mp hb
      exact .step hd (((above_set_iff hc).mp hed).trans (hold d hd))
    · rw [get?_setIfInBounds_ne hbx] at hup
      exact .step hup (ih (hroot.isSome_guess hup))

/-- The part of a way up that comes no earlier than `x` does not notice a change at `x`. -/
theorem above_set_of_place_le {b e : BlockId} (hroot : g.Rooted place entry) (hx : x ≠ entry)
    (hle : place x ≤ place e) (h : Above g.get? e b) :
    Above (Guesses.get? (g.setIfInBounds x (some c))) e b := by
  induction h with
  | refl => exact .refl
  | @step b d hup hed ih =>
    by_cases hbx : b = x
    · subst hbx
      have hlt := (hroot.up b d hup hx).1
      have hle' := hroot.place_le_of_above hed
      omega
    · refine .step ?_ ih
      rw [get?_setIfInBounds_ne hbx, hup]

/-- A change takes no guess away. -/
theorem isSome_get?_set {b : BlockId} (hx : x < g.size) (hb : (g.get? b).isSome) :
    (Guesses.get? (g.setIfInBounds x (some c)) b).isSome := by
  by_cases hbx : b = x
  · simp [hbx, get?_setIfInBounds_self hx]
  · rwa [get?_setIfInBounds_ne hbx]

/-- A new guess that comes before its block keeps the tree. -/
theorem Rooted.set (h : g.Rooted place entry) (hx : x < g.size) (hne : x ≠ entry)
    (hlt : place c < place x) (hc : (g.get? c).isSome)
    (hinj : ∀ b, (g.get? b).isSome → place b = place x → b = x) :
    Rooted place entry (g.setIfInBounds x (some c)) where
  root := by rw [get?_setIfInBounds_ne (Ne.symm hne), h.root]
  first := h.first
  up b d hbd hb := by
    by_cases hbx : b = x
    · subst hbx
      obtain rfl := Option.some.inj ((get?_setIfInBounds_self hx _).symm.trans hbd)
      exact ⟨hlt, isSome_get?_set hx hc⟩
    · rw [get?_setIfInBounds_ne hbx] at hbd
      exact (h.up b d hbd hb).imp id (isSome_get?_set hx)
  inj a b ha hb hab := by
    by_cases hax : a = x
    · subst hax
      by_cases hba : b = a
      · exact hba.symm
      · rw [get?_setIfInBounds_ne hba] at hb
        exact (hinj b hb hab.symm).symm
    · rw [get?_setIfInBounds_ne hax] at ha
      by_cases hbx : b = x
      · subst hbx
        exact hinj a ha hab
      · rw [get?_setIfInBounds_ne hbx] at hb
        exact h.inj a b ha hb hab

end Change

/-- Renewing the guess of one block leaves the others alone. -/
theorem getElem?_renew_ne (g : Guesses) {x b : BlockId} (hne : b ≠ x) :
    (renew place preds g x)[b]? = g[b]? := by
  unfold renew
  split
  · exact Array.getElem?_setIfInBounds_ne (Ne.symm hne)
  · rfl

theorem getElem?_foldl_renew {blocks : List BlockId} (g : Guesses) {b : BlockId} (hb : b ∉ blocks) :
    (blocks.foldl (renew place preds) g)[b]? = g[b]? := by
  induction blocks generalizing g with
  | nil => rfl
  | cons x blocks ih =>
    obtain ⟨hne, hb⟩ := not_or.mp (mt List.mem_cons.mpr hb)
    rw [List.foldl_cons, ih _ hb, getElem?_renew_ne g hne]

/-- If no block is renewed twice, renewals that change nothing in total change nothing one by one. -/
theorem foldl_renew_eq_iff {blocks : List BlockId} {x : BlockId} (hx : x ∉ blocks) (g : Guesses) :
    blocks.foldl (renew place preds) (renew place preds g x) = g ↔
      renew place preds g x = g ∧
        blocks.foldl (renew place preds) (renew place preds g x) = renew place preds g x := by
  constructor
  · intro hsame
    have hstill : renew place preds g x = g := by
      refine Array.ext_getElem? fun b => ?_
      by_cases hb : b = x
      · rw [hb, ← getElem?_foldl_renew _ hx, hsame]
      · exact getElem?_renew_ne g hb
    exact ⟨hstill, hsame.trans hstill.symm⟩
  · rintro ⟨hstill, hsame⟩
    exact hsame.trans hstill

/-- So each of them changes nothing. -/
theorem renew_eq_of_foldl {blocks : List BlockId} (hnodup : blocks.Nodup) {g : Guesses}
    (hsame : blocks.foldl (renew place preds) g = g) : ∀ x ∈ blocks, renew place preds g x = g := by
  induction blocks with
  | nil => exact nofun
  | cons x blocks ih =>
    obtain ⟨hx, hnodup⟩ := List.nodup_cons.mp hnodup
    obtain ⟨hstill, hrest⟩ := (foldl_renew_eq_iff hx g).mp hsame
    rw [hstill] at hrest
    intro y hy
    rcases List.mem_cons.mp hy with rfl | hy
    · exact hstill
    · exact ih hnodup hrest y hy

-- ════════════════════════════════════════════════════════════════════════
-- Places
-- ════════════════════════════════════════════════════════════════════════

namespace Course

theorem place_entry (hcourse : Course place preds entry rest count) : place entry = 0 := by
  rw [hcourse.place_eq entry List.mem_cons_self, List.idxOf_cons_self]

theorem place_inj (hcourse : Course place preds entry rest count) {a b : BlockId}
    (ha : a ∈ entry :: rest) (hb : b ∈ entry :: rest) (h : place a = place b) : a = b := by
  rw [hcourse.place_eq a ha, hcourse.place_eq b hb] at h
  exact (List.idxOf_inj ha).mp h

theorem ne_entry (hcourse : Course place preds entry rest count) {b : BlockId} (hb : b ∈ rest) :
    b ≠ entry := by
  rintro rfl
  exact (List.nodup_cons.mp hcourse.nodup).1 hb

/-- The place of a block is the number of blocks before it. -/
theorem place_of_split (hcourse : Course place preds entry rest count) {pre post : List BlockId}
    {x : BlockId} (hsplit : entry :: rest = pre ++ x :: post) (hpre : pre ≠ []) :
    x ∈ rest ∧ place x = pre.length := by
  have hx : x ∈ rest := by
    obtain ⟨first, pre', rfl⟩ := List.exists_cons_of_ne_nil hpre
    obtain ⟨-, htail⟩ := List.cons.inj hsplit
    rw [htail]
    simp
  have hfresh : x ∉ pre := by
    intro hmem
    have hnodup := hcourse.nodup
    rw [hsplit] at hnodup
    exact (List.nodup_append.mp hnodup).2.2 x hmem x List.mem_cons_self rfl
  refine ⟨hx, ?_⟩
  rw [hcourse.place_eq x (List.mem_cons_of_mem _ hx), hsplit, List.idxOf_append_of_notMem hfresh,
    List.idxOf_cons_self, Nat.add_zero]

theorem place_lt_length (hcourse : Course place preds entry rest count) {b : BlockId}
    (hb : b ∈ entry :: rest) : place b < (entry :: rest).length := by
  rw [hcourse.place_eq b hb]
  exact List.idxOf_lt_length_of_mem hb

theorem place_lt_count (hcourse : Course place preds entry rest count) {b : BlockId}
    (hb : b ∈ entry :: rest) : place b < count := by
  have hlt := hcourse.place_lt_length hb
  have hsub : (entry :: rest).Subperm (List.range count) :=
    List.subperm_of_subset hcourse.nodup fun a ha => List.mem_range.mpr (hcourse.lt_count a ha)
  have hle := List.Subperm.length_le hsub
  rw [List.length_range] at hle
  omega

end Course

-- ════════════════════════════════════════════════════════════════════════
-- One sweep
-- ════════════════════════════════════════════════════════════════════════

namespace Sweeping

/-- Before the first block is renewed nothing has changed. -/
theorem start (hcourse : Course place preds entry rest count) {g : Guesses}
    (hg : g.Settled place preds entry rest) : Sweeping place preds entry rest g g 1 where
  rooted := hg.rooted
  mem := hg.mem
  size := rfl
  shrink _ _ _ h := h
  undone _ _ := rfl
  undone_above _ _ _ _ h := h
  beyond q b e hq hb he hle := hg.rooted.above_of_place_le hq he hb hle
  lowest := hg.lowest
  done b hb hne hlt := by
    refine absurd (hcourse.place_inj hb List.mem_cons_self ?_) hne
    rw [hcourse.place_entry]
    omega
  lowered b c hc := ⟨c, hc, Nat.le_refl _⟩

variable {old new : Guesses} {x : BlockId}

theorem lt_size {n : Nat} (hcourse : Course place preds entry rest count) (hcount : old.size = count)
    (h : Sweeping place preds entry rest old new n) (hx : x ∈ rest) : x < new.size :=
  h.size ▸ hcount ▸ hcourse.lt_count x (List.mem_cons_of_mem _ hx)

/-- A predecessor that comes before the block to be renewed has a guess. -/
theorem isSome_forward (h : Sweeping place preds entry rest old new (place x))
    {q : BlockId} (hq : q ∈ entry :: rest) (hlt : place q < place x) : (new.get? q).isSome := by
  by_cases hroot : q = entry
  · simp [hroot, h.rooted.root]
  · obtain ⟨c, hc, _⟩ := h.done q hq hroot hlt
    simp [hc]

/-- The renewed guess is above the old one. Some predecessor `q` comes before the block: the old
guess was above `q`, the new one is above `q`, and the new one does not come later. -/
theorem above_old_guess (hcourse : Course place preds entry rest count)
    (hold : old.Settled place preds entry rest)
    (h : Sweeping place preds entry rest old new (place x)) (hx : x ∈ rest) {c d : BlockId}
    (hc : Rooted.Nearest new (preds x) c) (hd : new.get? x = some d) : Above new.get? c d := by
  have hdold : old.get? x = some d := (h.undone x (Nat.le_refl _)) ▸ hd
  obtain ⟨q, hq, hqmem, hqlt⟩ := hcourse.parent x hx
  obtain ⟨hqold, hdq⟩ := hold.forward x d hdold (hcourse.ne_entry hx) q hq hqmem hqlt
  have hcq : Above new.get? c q := hc.above q hq (h.isSome_forward hqmem hqlt)
  have hle : place c ≤ place d := h.lowest x d hd (hcourse.ne_entry hx) c hc.above
  exact h.beyond q d c hqold hdq hcq hle

/-- What renewing the next block does: its guess becomes the nearest block above its predecessors with a
guess, one of which comes before it. -/
theorem renew_eq (hcourse : Course place preds entry rest count)
    (h : Sweeping place preds entry rest old new (place x)) (hx : x ∈ rest) :
    ∃ c, Guesses.renew place preds new x = new.setIfInBounds x (some c) ∧ (new.get? c).isSome ∧
      Rooted.Nearest new (preds x) c ∧
      ∃ q ∈ preds x, (new.get? q).isSome ∧ place c ≤ place q ∧ place q < place x := by
  obtain ⟨q, hq, hqmem, hqlt⟩ := hcourse.parent x hx
  have hqsome := h.isSome_forward hqmem hqlt
  obtain ⟨c, hcand, hcsome, hc⟩ := h.rooted.exists_candidate hq hqsome
  refine ⟨c, by simp [Guesses.renew, hcand], hcsome, hc, q, hq, hqsome, ?_, hqlt⟩
  exact h.rooted.place_le_of_above (hc.above q hq hqsome)

/-- Every block that had a guess before the sweep has one. -/
theorem isSome_of_old {n : Nat} (h : Sweeping place preds entry rest old new n) {b : BlockId}
    (hb : (old.get? b).isSome) : (new.get? b).isSome := by
  obtain ⟨d, hd⟩ := Option.isSome_iff_exists.mp hb
  obtain ⟨d', hd', _⟩ := h.lowered b d hd
  simp [hd']

/-- What remains of a way up beyond a block is still on the way up from that block when the guess of the
next block has moved up. -/
theorem beyond_set (hold : old.Settled place preds entry rest)
    (h : Sweeping place preds entry rest old new (place x)) (hx : x < new.size) (hne : x ≠ entry)
    {c : BlockId} (hrooted : Rooted place entry (new.setIfInBounds x (some c)))
    {p b e : BlockId} (hp : (old.get? p).isSome) (hbp : Above old.get? b p)
    (hep : Above (Guesses.get? (new.setIfInBounds x (some c))) e p) (hep' : Above new.get? e p)
    (hle : place e ≤ place b) : Above (Guesses.get? (new.setIfInBounds x (some c))) e b := by
  have heb := h.beyond p b e hp hbp hep' hle
  have hlate : ∀ {q a}, place x ≤ place a → Above new.get? a q →
      Above (Guesses.get? (new.setIfInBounds x (some c))) a q :=
    fun hle hab => above_set_of_place_le h.rooted hne hle hab
  by_cases hxb : Above new.get? x b
  · by_cases hxe : place x ≤ place e
    · exact hlate hxe heb
    · -- The change is between `e` and `b`, and so between `e` and `p`.
      have hbold := hold.rooted.isSome_of_above hbp hp
      have hxp : Above old.get? x p := (h.shrink b x hbold hxb).trans hbp
      have hxp' := hlate (Nat.le_refl _) (h.undone_above p x hp (Nat.le_refl _) hxp)
      have hpsome := isSome_get?_set (c := c) hx (h.isSome_of_old hp)
      have hex := hrooted.above_of_place_le hpsome hep hxp' (by omega)
      exact hex.trans (hlate (Nat.le_refl _) hxb)
  · exact (above_set_iff hxb).mpr heb

/-- Renewing the next block keeps the invariant. -/
theorem renew (hcourse : Course place preds entry rest count) (hcount : old.size = count)
    (hold : old.Settled place preds entry rest)
    (h : Sweeping place preds entry rest old new (place x)) (hx : x ∈ rest) :
    Sweeping place preds entry rest old (Guesses.renew place preds new x) (place x + 1) := by
  have hxmem : x ∈ entry :: rest := List.mem_cons_of_mem _ hx
  have hxne : x ≠ entry := hcourse.ne_entry hx
  have hxsize := h.lt_size hcourse hcount hx
  obtain ⟨c, hrenew, hcsome, hc, q, _, _, hcq, hqx⟩ := h.renew_eq hcourse hx
  have hclt : place c < place x := Nat.lt_of_le_of_lt hcq hqx
  have hcx : ¬ Above new.get? x c := h.rooted.not_above_of_place_lt hclt
  have habove : ∀ d, new.get? x = some d → Above new.get? c d := fun d hd =>
    h.above_old_guess hcourse hold hx hc hd
  have hrooted : Rooted place entry (new.setIfInBounds x (some c)) :=
    h.rooted.set hxsize hxne hclt hcsome fun b hb hplace => hcourse.place_inj (h.mem b hb) hxmem hplace
  rw [hrenew]
  -- The ways up after the change, compared with those before it.
  have hself : Guesses.get? (new.setIfInBounds x (some c)) x = some c :=
    get?_setIfInBounds_self hxsize _
  have hother : ∀ b, b ≠ x → Guesses.get? (new.setIfInBounds x (some c)) b = new.get? b :=
    fun b hb => get?_setIfInBounds_ne hb _
  have hback : ∀ b e, (new.get? b).isSome →
      Above (Guesses.get? (new.setIfInBounds x (some c))) e b → Above new.get? e b :=
    fun b e hb => above_of_above_set h.rooted hxsize hcx habove hb
  have hfar : ∀ b e, place b < place x →
      (Above (Guesses.get? (new.setIfInBounds x (some c))) e b ↔ Above new.get? e b) :=
    fun b e hb => above_set_iff (h.rooted.not_above_of_place_lt hb)
  exact {
    rooted := hrooted
    mem b hb := by
      by_cases hbx : b = x
      · exact hbx ▸ hxmem
      · exact h.mem b (by rwa [hother b hbx] at hb)
    size := by simp [h.size]
    shrink b e hb he := h.shrink b e hb (hback b e (h.isSome_of_old hb) he)
    undone b hb := by
      rw [hother b (by rintro rfl; omega), h.undone b (by omega)]
    undone_above p b hp hb hbp :=
      above_set_of_place_le h.rooted hxne (by omega) (h.undone_above p b hp (by omega) hbp)
    beyond p b e hp hbp hep hle :=
      h.beyond_set hold hxsize hxne hrooted hp hbp hep (hback p e (h.isSome_of_old hp) hep) hle
    lowest b d hbd hne e he := by
      have he' : ∀ p ∈ preds b, (new.get? p).isSome → Above new.get? e p := fun p hp hsome =>
        hback p e hsome (he p hp (isSome_get?_set hxsize hsome))
      by_cases hbx : b = x
      · subst hbx
        obtain rfl := Option.some.inj (hself.symm.trans hbd)
        exact h.rooted.place_le_of_above (hc.nearest e he')
      · rw [hother b hbx] at hbd
        exact h.lowest b d hbd hne e he'
    done b hb hne hlt := by
      by_cases hbx : b = x
      · subst hbx
        refine ⟨c, hself, fun p hp hpmem hplt => ?_⟩
        have hpsome := h.isSome_forward hpmem hplt
        exact ⟨isSome_get?_set hxsize hpsome, (hfar p c hplt).mpr (hc.above p hp hpsome)⟩
      · have hneplace : place b ≠ place x := fun heq => hbx (hcourse.place_inj hb hxmem heq)
        obtain ⟨d, hd, hforward⟩ := h.done b hb hne (by omega)
        refine ⟨d, by rw [hother b hbx, hd], fun p hp hpmem hplt => ?_⟩
        obtain ⟨hpsome, hdp⟩ := hforward p hp hpmem hplt
        exact ⟨isSome_get?_set hxsize hpsome, (hfar p d (by omega)).mpr hdp⟩
    lowered b d hd := by
      by_cases hbx : b = x
      · subst hbx
        have hd' : new.get? b = some d := by rw [h.undone b (Nat.le_refl _), hd]
        exact ⟨c, hself, h.rooted.place_le_of_above (habove d hd')⟩
      · rw [hother b hbx]
        exact h.lowered b d hd }

/-- Renewing all remaining blocks brings the invariant to the end of the order, and keeps whatever else
each renewal keeps. -/
theorem foldl (hcourse : Course place preds entry rest count) (hcount : old.size = count)
    (hold : old.Settled place preds entry rest) {P : Guesses → Prop}
    (hstep : ∀ new, ∀ x ∈ rest, Sweeping place preds entry rest old new (place x) → P new →
      P (Guesses.renew place preds new x)) (pre post : List BlockId)
    (hsplit : entry :: rest = pre ++ post) (hpre : pre ≠ []) (new : Guesses)
    (h : Sweeping place preds entry rest old new pre.length) (hnew : P new) :
    Sweeping place preds entry rest old (post.foldl (Guesses.renew place preds) new)
      (entry :: rest).length ∧ P (post.foldl (Guesses.renew place preds) new) := by
  induction post generalizing pre new with
  | nil =>
    have hlen : (entry :: rest).length = pre.length := by rw [hsplit, List.append_nil]
    rw [hlen]
    exact ⟨h, hnew⟩
  | cons x post ih =>
    obtain ⟨hx, hplace⟩ := hcourse.place_of_split hsplit hpre
    rw [← hplace] at h
    have hnext := h.renew hcourse hcount hold hx
    rw [hplace] at hnext
    refine ih (pre ++ [x]) (by simp [hsplit]) (by simp) _ ?_ (hstep new x hx h hnew)
    simpa using hnext

/-- A block that was renewed has a guess. -/
theorem isSome_done (h : Sweeping place preds entry rest old new (entry :: rest).length)
    (hcourse : Course place preds entry rest count) {b : BlockId} (hb : b ∈ entry :: rest) :
    (new.get? b).isSome := by
  by_cases hroot : b = entry
  · simp [hroot, h.rooted.root]
  · obtain ⟨c, hc, _⟩ := h.done b hb hroot (hcourse.place_lt_length hb)
    simp [hc]

/-- At the end of a sweep the guesses are settled again. -/
theorem settled (h : Sweeping place preds entry rest old new (entry :: rest).length)
    (hcourse : Course place preds entry rest count) : new.Settled place preds entry rest := by
  refine ⟨h.rooted, h.mem, fun b c hc hne => ?_, h.lowest⟩
  have hb : b ∈ entry :: rest := h.mem b (by simp [hc])
  obtain ⟨c', hc', hforward⟩ := h.done b hb hne (hcourse.place_lt_length hb)
  obtain rfl := Option.some.inj (hc.symm.trans hc')
  exact hforward

end Sweeping

-- ════════════════════════════════════════════════════════════════════════
-- The iteration
-- ════════════════════════════════════════════════════════════════════════

namespace Settled

variable {g : Guesses}

/-- What each renewal keeps, a sweep keeps. -/
theorem sweep_induction (hcourse : Course place preds entry rest count) (hcount : g.size = count)
    (hg : g.Settled place preds entry rest) {P : Guesses → Prop}
    (hstep : ∀ new, ∀ x ∈ rest, Sweeping place preds entry rest g new (place x) → P new →
      P (Guesses.renew place preds new x)) (hP : P g) :
    Sweeping place preds entry rest g (Guesses.sweep place preds rest g)
      (entry :: rest).length ∧ P (Guesses.sweep place preds rest g) :=
  Sweeping.foldl hcourse hcount hg hstep [entry] rest rfl (by simp) g (.start hcourse hg) hP

/-- What a sweep that started from settled guesses has reached at its end. -/
theorem sweeping (hcourse : Course place preds entry rest count) (hcount : g.size = count)
    (hg : g.Settled place preds entry rest) :
    Sweeping place preds entry rest g (Guesses.sweep place preds rest g)
      (entry :: rest).length :=
  (hg.sweep_induction hcourse hcount (P := fun _ => True) (fun _ _ _ _ _ => trivial) trivial).1

/-- A sweep leaves settled guesses settled. -/
theorem sweep (hcourse : Course place preds entry rest count) (hcount : g.size = count)
    (hg : g.Settled place preds entry rest) :
    (Guesses.sweep place preds rest g).Settled place preds entry rest :=
  (hg.sweeping hcourse hcount).settled hcourse

/-- A sweep that does not lower the distance changes nothing: each guess that changes comes to an
earlier place, and a block that gets its first guess counted as much as possible before. -/
theorem sweep_eq_of_distance (hcourse : Course place preds entry rest count)
    (hcount : g.size = count) (hg : g.Settled place preds entry rest)
    (hstill : ¬ distance place count (Guesses.sweep place preds rest g) < distance place count g) :
    Guesses.sweep place preds rest g = g := by
  have h := hg.sweeping hcourse hcount
  refine Array.toList_inj.mp ((total_lt_or_eq ?_).resolve_left hstill)
  rw [List.forall₂_iff_get]
  refine ⟨by simpa using h.size, fun b h₁ h₂ => ?_⟩
  have hlt₁ : b < (Guesses.sweep place preds rest g).size := by simpa using h₁
  have hlt₂ : b < g.size := by simpa using h₂
  have hnew : (Guesses.sweep place preds rest g).get? b =
      (Guesses.sweep place preds rest g).toList.get ⟨b, h₁⟩ := by
    simp [Guesses.get?, hlt₁]
  have hold : g.get? b = g.toList.get ⟨b, h₂⟩ := by
    simp [Guesses.get?, hlt₂]
  rw [← hnew, ← hold]
  cases hb : g.get? b with
  | some c =>
    obtain ⟨c', hc', hle⟩ := h.lowered b c hb
    rw [hc']
    rcases Nat.lt_or_eq_of_le hle with hlt | heq
    · exact .inl hlt
    · have hmem' : c' ∈ entry :: rest := h.mem c' (h.rooted.isSome_guess hc')
      have hmem : c ∈ entry :: rest := hg.mem c (hg.rooted.isSome_guess hb)
      exact .inr (congrArg some (hcourse.place_inj hmem' hmem heq))
  | none =>
    cases hb' : (Guesses.sweep place preds rest g).get? b with
    | none => exact .inr rfl
    | some c' =>
      exact .inl (hcourse.place_lt_count (h.mem c' (h.rooted.isSome_guess hb')))

/-- The iteration ends in settled guesses that a further sweep does not change. -/
theorem descend_fixed (hcourse : Course place preds entry rest count) (hcount : g.size = count)
    (hg : g.Settled place preds entry rest) :
    let final := descend (distance place count) (Guesses.sweep place preds rest) g
    final.Settled place preds entry rest ∧ final.size = count ∧
      Guesses.sweep place preds rest final = final := by
  have hkeep : ∀ x : Guesses, x.Settled place preds entry rest ∧ x.size = count →
      (Guesses.sweep place preds rest x).Settled place preds entry rest ∧
        (Guesses.sweep place preds rest x).size = count := fun x hx =>
    ⟨hx.1.sweep hcourse hx.2, (hx.1.sweeping hcourse hx.2).size.trans hx.2⟩
  intro final
  have hfinal : final.Settled place preds entry rest ∧ final.size = count :=
    descend_induction hkeep g ⟨hg, hcount⟩
  refine ⟨hfinal.1, hfinal.2, ?_⟩
  exact step_descend_eq hkeep
    (fun x hx hstill => hx.1.sweep_eq_of_distance hcourse hx.2 hstill) g ⟨hg, hcount⟩

/-- What each renewal keeps, the iteration keeps. -/
theorem descend_keeps (hcourse : Course place preds entry rest count) (hcount : g.size = count)
    (hg : g.Settled place preds entry rest) {P : Guesses → Prop}
    (hstep : ∀ old new : Guesses, old.size = count → ∀ x ∈ rest,
      Sweeping place preds entry rest old new (place x) → P new → P (Guesses.renew place preds new x))
    (hP : P g) : P (descend (distance place count) (Guesses.sweep place preds rest) g) := by
  have hkeep : ∀ x : Guesses, (x.Settled place preds entry rest ∧ x.size = count) ∧ P x →
      ((Guesses.sweep place preds rest x).Settled place preds entry rest ∧
        (Guesses.sweep place preds rest x).size = count) ∧ P (Guesses.sweep place preds rest x) := by
    rintro x ⟨⟨hx, hsize⟩, hPx⟩
    obtain ⟨hend, hPend⟩ := hx.sweep_induction hcourse hsize (fun new => hstep x new hsize) hPx
    exact ⟨⟨hx.sweep hcourse hsize, hend.size.trans hsize⟩, hPend⟩
  exact (descend_induction hkeep g ⟨⟨hg, hcount⟩, hP⟩).2

/-- Guesses that a sweep does not change agree with all predecessors: each guess is the nearest block
above the predecessors that have one. -/
theorem nearest_of_sweep_eq (hcourse : Course place preds entry rest count) (hcount : g.size = count)
    (hg : g.Settled place preds entry rest) (hfix : Guesses.sweep place preds rest g = g)
    {b : BlockId} (hb : b ∈ rest) :
    ∃ c, g.get? b = some c ∧ Rooted.Nearest g (preds b) c := by
  have hrenew := renew_eq_of_foldl (List.nodup_cons.mp hcourse.nodup).2 hfix b hb
  have hbsize : b < g.size := hcount ▸ hcourse.lt_count b (List.mem_cons_of_mem _ hb)
  obtain ⟨q, hq, hqmem, hqlt⟩ := hcourse.parent b hb
  -- Every block of the order has a guess after a sweep, so there is a candidate.
  have hqsome : (g.get? q).isSome := by
    have h := hg.sweeping hcourse hcount
    rw [hfix] at h
    exact h.isSome_done hcourse hqmem
  obtain ⟨c, hcand, _, hc⟩ := hg.rooted.exists_candidate hq hqsome
  refine ⟨c, ?_, hc⟩
  rw [← hrenew]
  simp only [Guesses.renew, hcand]
  exact get?_setIfInBounds_self hbsize _

end Settled

end Guesses

end MiddleEnd
