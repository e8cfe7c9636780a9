import MiddleEnd.IR.Function
import Mathlib.Tactic.Common

/-!
# Paths and dominance

What control can do in a function, said with the paths along its successors and without the
algorithms that compute it.

## Main definitions

* `Function.Path`: a path between two blocks, as the list of its blocks.
* `Function.Reachable`: the blocks that control can reach from the entry.
* `Function.Dominates`, `Function.StrictlyDominates`: dominance.
* `Function.Linked`: successors and predecessors agree.

## Main statements

* `Function.Path.cut`: a path can be cut off at any of its blocks.
* `Function.Dominates.trans`: dominance is transitive.
* `Function.strictlyDominates_of_before`: a block that stands before the end of every path to another
  block dominates it strictly.
-/

namespace MiddleEnd

namespace Function

/-- `f.Path a b l` says that `l` lists the blocks of a path from `a` to `b` along successors, the
last block first. Both ends are listed. -/
inductive Path (f : Function) (a : BlockId) : BlockId → List BlockId → Prop where
  | nil : f.Path a a [a]
  | snoc {b c : BlockId} {l : List BlockId} :
    f.Path a b l → c ∈ f.succs b → f.Path a c (c :: l)

/-- Control can reach the block from the entry. -/
def Reachable (f : Function) (b : BlockId) : Prop := ∃ l, f.Path f.entry b l

/-- `a` dominates `b`: they are the same block, or control can reach `b` and cannot do so without
passing `a`. A block that control cannot reach is dominated by itself alone. -/
def Dominates (f : Function) (a b : BlockId) : Prop :=
  a = b ∨ f.Reachable b ∧ ∀ l, f.Path f.entry b l → a ∈ l

/-- `a` dominates `b` and differs from it. -/
def StrictlyDominates (f : Function) (a b : BlockId) : Prop := a ≠ b ∧ f.Dominates a b

/-- The edges of a function stay inside it, are recorded at both of their ends, and are recorded
once. -/
structure Linked (f : Function) : Prop where
  succs_lt : ∀ b, ∀ c ∈ f.succs b, c < f.blockCount
  mem_preds : ∀ p b, p ∈ f.preds b ↔ b ∈ f.succs p
  preds_nodup : ∀ b, (f.preds b).Nodup
  succs_nodup : ∀ b, (f.succs b).Nodup

-- ════════════════════════════════════════════════════════════════════════
-- Paths
-- ════════════════════════════════════════════════════════════════════════

variable {f : Function} {a b c : BlockId} {l : List BlockId}

/-- The last block of a path is the first in its list. -/
theorem Path.eq_cons (h : f.Path a b l) : ∃ rest, l = b :: rest := by
  cases h with
  | nil => exact ⟨[], rfl⟩
  | snoc _ _ => exact ⟨_, rfl⟩

theorem Path.last_mem (h : f.Path a b l) : b ∈ l := by
  obtain ⟨rest, rfl⟩ := h.eq_cons
  exact List.mem_cons_self

/-- A path can be cut off at any of its blocks. -/
theorem Path.cut (h : f.Path a b l) (hc : c ∈ l) : ∃ l', f.Path a c l' ∧ l' <:+ l := by
  induction h with
  | nil =>
    obtain rfl := List.mem_singleton.mp hc
    exact ⟨[c], .nil, List.suffix_rfl⟩
  | @snoc b d l hpath hedge ih =>
    rcases List.mem_cons.mp hc with rfl | hc
    · exact ⟨c :: l, hpath.snoc hedge, List.suffix_rfl⟩
    · obtain ⟨l', hl', hsuffix⟩ := ih hc
      exact ⟨l', hl', hsuffix.trans (List.suffix_cons d l)⟩

/-- Two paths can be put together. -/
theorem Path.append {l' : List BlockId} (h : f.Path a b l) (h' : f.Path b c l') :
    ∃ l'', f.Path a c l'' ∧ ∀ x ∈ l'', x ∈ l ∨ x ∈ l' := by
  induction h' with
  | nil => exact ⟨l, h, fun x hx => .inl hx⟩
  | @snoc c d l' _ hedge ih =>
    obtain ⟨l'', hpath, hmem⟩ := ih
    refine ⟨d :: l'', hpath.snoc hedge, fun x hx => ?_⟩
    rcases List.mem_cons.mp hx with rfl | hx
    · exact .inr List.mem_cons_self
    · exact (hmem x hx).imp id (List.mem_cons_of_mem _)

/-- Paths depend on the successors alone. -/
theorem Path.congr {g : Function} (hsuccs : ∀ b, f.succs b = g.succs b) (h : f.Path a b l) :
    g.Path a b l := by
  induction h with
  | nil => exact .nil
  | snoc _ hedge ih => exact ih.snoc (hsuccs _ ▸ hedge)

-- ════════════════════════════════════════════════════════════════════════
-- Edges
-- ════════════════════════════════════════════════════════════════════════

theorem succs_of_getElem? {block : Block} (h : f.blocks[b]? = some block) :
    f.succs b = block.succs := by
  simp [succs, h]

theorem preds_of_getElem? {block : Block} (h : f.blocks[b]? = some block) :
    f.preds b = block.preds := by
  simp [preds, h]

/-- Only a block that exists has successors. -/
theorem lt_of_mem_succs (h : c ∈ f.succs b) : b < f.blockCount := by
  by_contra hge
  have hnone : f.blocks[b]? = none := Array.getElem?_eq_none (Nat.not_lt.mp hge)
  simp [succs, hnone] at h

-- ════════════════════════════════════════════════════════════════════════
-- Reachability
-- ════════════════════════════════════════════════════════════════════════

theorem reachable_entry (f : Function) : f.Reachable f.entry := ⟨[f.entry], .nil⟩

theorem Reachable.succ (h : f.Reachable b) (hc : c ∈ f.succs b) : f.Reachable c := by
  obtain ⟨l, hl⟩ := h
  exact ⟨c :: l, hl.snoc hc⟩

/-- What holds of the entry and passes along edges holds of every block that control can reach. -/
theorem Reachable.induction {P : BlockId → Prop} (hentry : P f.entry)
    (hstep : ∀ p q, f.Reachable p → P p → q ∈ f.succs p → P q) (h : f.Reachable b) : P b := by
  obtain ⟨l, hl⟩ := h
  induction hl with
  | nil => exact hentry
  | @snoc p q l hpath hedge ih => exact hstep p q ⟨l, hpath⟩ ih hedge

/-- A block that control can reach exists. -/
theorem Reachable.lt_blockCount (h : f.Reachable b) (hlinked : f.Linked) (hentry : f.entry < f.blockCount) :
    b < f.blockCount :=
  h.induction (P := (· < f.blockCount)) hentry fun p q _ _ hq => hlinked.succs_lt p q hq

-- ════════════════════════════════════════════════════════════════════════
-- Dominance
-- ════════════════════════════════════════════════════════════════════════

theorem Dominates.refl (f : Function) (b : BlockId) : f.Dominates b b := .inl rfl

theorem Dominates.mem (h : f.Dominates a b) (hl : f.Path f.entry b l) : a ∈ l := by
  rcases h with rfl | ⟨_, h⟩
  · exact hl.last_mem
  · exact h l hl

theorem Dominates.trans (hab : f.Dominates a b) (hbc : f.Dominates b c) : f.Dominates a c := by
  rcases hbc with rfl | ⟨hreach, hbc⟩
  · exact hab
  · refine .inr ⟨hreach, fun l hl => ?_⟩
    obtain ⟨l', hl', hsuffix⟩ := hl.cut (hbc l hl)
    exact hsuffix.subset (hab.mem hl')

/-- A strict dominator of a block dominates its predecessors. -/
theorem Dominates.pred (hab : f.Dominates a b) (hne : a ≠ b) (hc : f.Reachable c) (hedge : b ∈ f.succs c) :
    f.Dominates a c := by
  refine .inr ⟨hc, fun l hl => ?_⟩
  exact (List.mem_cons.mp (hab.mem (hl.snoc hedge))).resolve_left hne

/-- A dominator that some path from `b` to `c` avoids dominates the start of that path. -/
theorem Dominates.of_detour (hac : f.Dominates a c) (hb : f.Reachable b) (hl : f.Path b c l)
    (ha : a ∉ l) : f.Dominates a b := by
  refine .inr ⟨hb, fun l' hl' => ?_⟩
  obtain ⟨l'', hpath, hmem⟩ := hl'.append hl
  exact (hmem a (hac.mem hpath)).resolve_right ha

/-- A block that stands before the end of every path to `b` dominates `b` strictly: a shortest path
to `b` does not pass `b` before its end. -/
theorem strictlyDominates_of_before (hb : f.Reachable b)
    (h : ∀ l, f.Path f.entry b l → a ∈ l.tail) : f.StrictlyDominates a b := by
  refine ⟨?_, .inr ⟨hb, fun l hl => List.mem_of_mem_tail (h l hl)⟩⟩
  rintro rfl
  -- Each path to `a` passes `a` earlier, so there is a shorter one, without end.
  have hnone : ∀ n l, l.length = n → ¬ f.Path f.entry a l := by
    intro n
    induction n using Nat.strongRecOn with
    | ind n ih =>
      rintro l rfl hl
      obtain ⟨rest, rfl⟩ := hl.eq_cons
      cases hl with
      | nil => simpa using h _ .nil
      | snoc hpath hedge =>
        obtain ⟨l', hl', hsuffix⟩ := hpath.cut (h _ (hpath.snoc hedge))
        have hlen := hsuffix.length_le
        exact ih l'.length (by simp only [List.length_cons]; omega) l' rfl hl'
  obtain ⟨l, hl⟩ := hb
  exact hnone _ l rfl hl

end Function

end MiddleEnd
