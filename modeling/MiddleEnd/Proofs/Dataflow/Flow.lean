import MiddleEnd.Dataflow.Flow
import MiddleEnd.Proofs.Descent

/-!
# Solutions of flow equations

Sweeping from nothing, the sets of facts only grow, and every fact in them has a derivation: some block
added it, and no block on the way dropped it. When nothing grows any more, everything with a derivation
is there.

## Main definitions

* `Flow.Regular`: the sweep visits all blocks, and all blocks and facts exist.
* `Flow.Passes`: a block passes a fact on.
* `Flow.Underway`: what holds of the sets while the equations are solved.

## Main statements

* `Flow.Underway.renew`: renewing the sets of a block keeps what holds.
* `Flow.Regular.sweep_solve`: the solution is a fixed point of the sweep.
* `Flow.Regular.mem_result`, `Flow.Regular.mem_gathered`: the solution holds exactly what is passed on.
-/

namespace MiddleEnd

namespace Flow

/-- The sweep visits all blocks and no others, facts come from blocks that exist, and blocks add facts
that exist. -/
structure Regular (flow : Flow) : Prop where
  mem_order : ∀ b, b ∈ flow.order ↔ b < flow.blockCount
  sources_lt : ∀ b, ∀ a ∈ flow.sources b, a < flow.blockCount
  gen_lt : ∀ b, ∀ fact ∈ factsAt flow.gen b, fact < flow.factCount

/-- The block passes the fact on: it adds the fact, or it gathers it from a block that passes it on and
does not drop it. -/
inductive Passes (flow : Flow) (fact : Nat) : BlockId → Prop where
  | gen {b : BlockId} : fact ∈ factsAt flow.gen b → flow.Passes fact b
  | carry {a b : BlockId} : a ∈ flow.sources b → flow.Passes fact a → fact ∉ factsAt flow.kill b →
    flow.Passes fact b

/-- Only facts that exist are passed on. -/
theorem Regular.lt_of_passes {flow : Flow} (h : flow.Regular) {fact : Nat} {b : BlockId}
    (hpass : flow.Passes fact b) : fact < flow.factCount := by
  induction hpass with
  | gen hgen => exact h.gen_lt _ _ hgen
  | carry _ _ _ ih => exact ih

end Flow

-- ════════════════════════════════════════════════════════════════════════
-- Tables of sets
-- ════════════════════════════════════════════════════════════════════════

theorem factsAt_setIfInBounds_self {table : Array IndexSet} {b : BlockId} (hb : b < table.size)
    (facts : IndexSet) : factsAt (table.setIfInBounds b facts) b = facts := by
  simp [factsAt, hb]

theorem factsAt_setIfInBounds_ne {table : Array IndexSet} {b c : BlockId} (hne : c ≠ b)
    (facts : IndexSet) : factsAt (table.setIfInBounds b facts) c = factsAt table c := by
  simp [factsAt, Array.getElem?_setIfInBounds_ne (Ne.symm hne)]

theorem getElem?_eq_some_factsAt {table : Array IndexSet} {b : BlockId} (hb : b < table.size) :
    table[b]? = some (factsAt table b) := by
  simp [factsAt, hb]

theorem factsAt_replicate_empty (n : Nat) (b : BlockId) :
    factsAt (Array.replicate n ∅) b = ∅ := by
  rw [factsAt, Array.getElem?_replicate]
  split <;> rfl

theorem factsAt_toArray_map {count : Nat} (facts : BlockId → IndexSet) {b : BlockId} (hb : b < count) :
    factsAt ((List.range count).map facts).toArray b = facts b := by
  simp [factsAt, hb]

/-- A table that is made block by block holds facts only for the blocks it was made for. -/
theorem mem_factsAt_toArray_map {count : Nat} {facts : BlockId → IndexSet} {b : BlockId} {fact : Nat} :
    fact ∈ factsAt ((List.range count).map facts).toArray b ↔ b < count ∧ fact ∈ facts b := by
  by_cases hb : b < count
  · rw [factsAt_toArray_map facts hb, and_iff_right hb]
  · have hnone : ((List.range count).map facts).toArray[b]? = none := by simpa using hb
    rw [factsAt, hnone]
    simp [hb]

/-- A table that is made from another one holds the facts of its entries. -/
theorem mem_factsAt_map {α : Type} {table : Array α} {facts : α → IndexSet} {b : BlockId} {fact : Nat} :
    fact ∈ factsAt (table.map facts) b ↔ ∃ a, table[b]? = some a ∧ fact ∈ facts a := by
  rw [factsAt, Array.getElem?_map]
  cases table[b]? <;> simp

/-- Two tables of the same length that hold the same facts everywhere are equal. -/
theorem eq_of_factsAt {s t : Array IndexSet} (hsize : s.size = t.size)
    (h : ∀ b, factsAt s b = factsAt t b) : s = t := by
  refine Array.ext hsize fun b hs ht => ?_
  simpa [factsAt, hs, ht] using h b

-- ════════════════════════════════════════════════════════════════════════
-- Growth
-- ════════════════════════════════════════════════════════════════════════

namespace FlowSets

/-- Both tables hold at least as much, and have the same length. -/
structure Grows (s t : FlowSets) : Prop where
  gathered_size : t.gathered.size = s.gathered.size
  result_size : t.result.size = s.result.size
  gathered : ∀ b, ∀ fact ∈ factsAt s.gathered b, fact ∈ factsAt t.gathered b
  result : ∀ b, ∀ fact ∈ factsAt s.result b, fact ∈ factsAt t.result b

theorem Grows.refl (s : FlowSets) : Grows s s :=
  ⟨rfl, rfl, fun _ _ => id, fun _ _ => id⟩

theorem Grows.trans {s t u : FlowSets} (h : Grows s t) (h' : Grows t u) : Grows s u where
  gathered_size := h'.gathered_size.trans h.gathered_size
  result_size := h'.result_size.trans h.result_size
  gathered b fact hfact := h'.gathered b fact (h.gathered b fact hfact)
  result b fact hfact := h'.result b fact (h.result b fact hfact)

/-- What has grown both ways is the same. -/
theorem Grows.antisymm {s t : FlowSets} (h : Grows s t) (h' : Grows t s) : s = t := by
  have hgathered : s.gathered = t.gathered := eq_of_factsAt h'.gathered_size fun b =>
    IndexSet.ext fun fact => ⟨h.gathered b fact, h'.gathered b fact⟩
  have hresult : s.result = t.result := eq_of_factsAt h'.result_size fun b =>
    IndexSet.ext fun fact => ⟨h.result b fact, h'.result b fact⟩
  cases s
  cases t
  simp_all

end FlowSets

namespace Flow

variable {flow : Flow} {sets more : FlowSets}

theorem mem_gather {b : BlockId} {fact : Nat} : fact ∈ flow.gather sets b ↔
    ∃ a ∈ flow.sources b, fact ∈ factsAt sets.result a := by
  simp [gather]

theorem mem_transfer {b : BlockId} {facts : IndexSet} {fact : Nat} : fact ∈ flow.transfer b facts ↔
    fact ∈ facts ∧ fact ∉ factsAt flow.kill b ∨ fact ∈ factsAt flow.gen b := by
  simp [transfer]

/-- More facts are gathered where more are passed on. -/
theorem gather_mono (h : sets.Grows more) {b : BlockId} {fact : Nat}
    (hfact : fact ∈ flow.gather sets b) : fact ∈ flow.gather more b := by
  obtain ⟨a, ha, hmem⟩ := mem_gather.mp hfact
  exact mem_gather.mpr ⟨a, ha, h.result a fact hmem⟩

theorem transfer_mono {b : BlockId} {facts facts' : IndexSet}
    (h : ∀ fact ∈ facts, fact ∈ facts') {fact : Nat} (hfact : fact ∈ flow.transfer b facts) :
    fact ∈ flow.transfer b facts' := by
  rw [mem_transfer] at hfact ⊢
  exact hfact.imp (fun hmem => ⟨h fact hmem.1, hmem.2⟩) id

/-- What holds of the sets while the equations are solved: every fact has a derivation, and renewing the
sets of a block would keep what is there. -/
structure Underway (flow : Flow) (sets : FlowSets) : Prop where
  gathered_size : sets.gathered.size = flow.blockCount
  result_size : sets.result.size = flow.blockCount
  passes : ∀ b, ∀ fact ∈ factsAt sets.result b, flow.Passes fact b
  gathered_le : ∀ b, ∀ fact ∈ factsAt sets.gathered b, fact ∈ flow.gather sets b
  result_le : ∀ b, ∀ fact ∈ factsAt sets.result b, fact ∈ flow.transfer b (flow.gather sets b)

theorem underway_start (flow : Flow) : flow.Underway flow.start where
  gathered_size := by simp [start]
  result_size := by simp [start]
  passes b fact hfact := by simp [start, factsAt_replicate_empty] at hfact
  gathered_le b fact hfact := by simp [start, factsAt_replicate_empty] at hfact
  result_le b fact hfact := by simp [start, factsAt_replicate_empty] at hfact

namespace Underway

/-- What a block gathers has a derivation at one of its sources. -/
theorem passes_gather (h : flow.Underway sets) {b : BlockId} {fact : Nat}
    (hfact : fact ∈ flow.gather sets b) : ∃ a ∈ flow.sources b, flow.Passes fact a := by
  obtain ⟨a, ha, hmem⟩ := mem_gather.mp hfact
  exact ⟨a, ha, h.passes a fact hmem⟩

theorem passes_transfer (h : flow.Underway sets) {b : BlockId} {fact : Nat}
    (hfact : fact ∈ flow.transfer b (flow.gather sets b)) : flow.Passes fact b := by
  rcases mem_transfer.mp hfact with ⟨hmem, hkill⟩ | hgen
  · obtain ⟨a, ha, hpass⟩ := h.passes_gather hmem
    exact .carry ha hpass hkill
  · exact .gen hgen

/-- Renewing the sets of a block only adds facts. -/
theorem grows_renew (h : flow.Underway sets) {b : BlockId} (hb : b < flow.blockCount) :
    sets.Grows (flow.renew sets b) := by
  have hgathered : b < sets.gathered.size := h.gathered_size ▸ hb
  have hresult : b < sets.result.size := h.result_size ▸ hb
  refine ⟨by simp [renew], by simp [renew], fun c fact hfact => ?_, fun c fact hfact => ?_⟩
  · by_cases hc : c = b
    · subst hc
      rw [renew, factsAt_setIfInBounds_self hgathered]
      exact h.gathered_le c fact hfact
    · rwa [renew, factsAt_setIfInBounds_ne hc]
  · by_cases hc : c = b
    · subst hc
      rw [renew, factsAt_setIfInBounds_self hresult]
      exact h.result_le c fact hfact
    · rwa [renew, factsAt_setIfInBounds_ne hc]

/-- Renewing the sets of a block keeps what holds while the equations are solved. -/
theorem renew (h : flow.Underway sets) {b : BlockId} (hb : b < flow.blockCount) :
    flow.Underway (flow.renew sets b) := by
  have hgrows := h.grows_renew hb
  have hgathered : b < sets.gathered.size := h.gathered_size ▸ hb
  have hresult : b < sets.result.size := h.result_size ▸ hb
  have hmore : ∀ c, ∀ fact ∈ flow.transfer c (flow.gather sets c),
      fact ∈ flow.transfer c (flow.gather (flow.renew sets b) c) := fun c _ =>
    transfer_mono fun _ => gather_mono hgrows
  refine ⟨hgrows.gathered_size.trans h.gathered_size, hgrows.result_size.trans h.result_size,
    fun c fact hfact => ?_, fun c fact hfact => ?_, fun c fact hfact => ?_⟩
  · by_cases hc : c = b
    · subst hc
      rw [Flow.renew, factsAt_setIfInBounds_self hresult] at hfact
      exact h.passes_transfer hfact
    · rw [Flow.renew, factsAt_setIfInBounds_ne hc] at hfact
      exact h.passes c fact hfact
  · refine gather_mono hgrows ?_
    by_cases hc : c = b
    · subst hc
      rwa [Flow.renew, factsAt_setIfInBounds_self hgathered] at hfact
    · rw [Flow.renew, factsAt_setIfInBounds_ne hc] at hfact
      exact h.gathered_le c fact hfact
  · refine hmore c fact ?_
    by_cases hc : c = b
    · subst hc
      rwa [Flow.renew, factsAt_setIfInBounds_self hresult] at hfact
    · rw [Flow.renew, factsAt_setIfInBounds_ne hc] at hfact
      exact h.result_le c fact hfact

/-- Renewing the sets of several blocks in turn. -/
theorem foldl_renew (h : flow.Underway sets) {blocks : List BlockId}
    (hblocks : ∀ b ∈ blocks, b < flow.blockCount) :
    flow.Underway (blocks.foldl flow.renew sets) ∧ sets.Grows (blocks.foldl flow.renew sets) := by
  induction blocks generalizing sets with
  | nil => exact ⟨h, .refl sets⟩
  | cons b blocks ih =>
    have hb := hblocks b List.mem_cons_self
    obtain ⟨hunderway, hgrows⟩ := ih (h.renew hb) fun c hc => hblocks c (List.mem_cons_of_mem _ hc)
    exact ⟨hunderway, (h.grows_renew hb).trans hgrows⟩

theorem sweep (h : flow.Underway sets) (hflow : flow.Regular) :
    flow.Underway (flow.sweep sets) ∧ sets.Grows (flow.sweep sets) :=
  h.foldl_renew fun b hb => (hflow.mem_order b).mp hb

/-- Where a sweep changes nothing, neither does the renewal of any block: the sets could not shrink again
afterwards. -/
theorem renew_eq_of_foldl (h : flow.Underway sets) {blocks : List BlockId}
    (hblocks : ∀ b ∈ blocks, b < flow.blockCount) (hfix : blocks.foldl flow.renew sets = sets) :
    ∀ b ∈ blocks, flow.renew sets b = sets := by
  induction blocks with
  | nil => exact fun b hb => nomatch hb
  | cons c blocks ih =>
    have hc := hblocks c List.mem_cons_self
    have hrest : ∀ b ∈ blocks, b < flow.blockCount := fun b hb => hblocks b (List.mem_cons_of_mem _ hb)
    rw [List.foldl_cons] at hfix
    have hgrows := ((h.renew hc).foldl_renew hrest).2
    rw [hfix] at hgrows
    have hsame : flow.renew sets c = sets := hgrows.antisymm (h.grows_renew hc)
    rw [hsame] at hfix
    intro b hb
    rcases List.mem_cons.mp hb with rfl | hb
    · exact hsame
    · exact ih hrest hfix b hb

end Underway

-- ════════════════════════════════════════════════════════════════════════
-- The end of the repetition
-- ════════════════════════════════════════════════════════════════════════

/-- A table that holds more, within the facts there are, leaves less room, or is the same. -/
theorem forall₂_room {count : Nat} {s t : Array IndexSet} (hsize : t.size = s.size)
    (hsub : ∀ b, ∀ fact ∈ factsAt s b, fact ∈ factsAt t b)
    (hbound : ∀ b, ∀ fact ∈ factsAt t b, fact < count) :
    List.Forall₂ (fun x y : IndexSet => x.room count < y.room count ∨ x = y) t.toList s.toList := by
  rw [List.forall₂_iff_get]
  refine ⟨by simpa using hsize, fun b ht hs => ?_⟩
  have ht' : factsAt t b = t.toList.get ⟨b, ht⟩ := by
    rw [Array.length_toList] at ht
    simp [factsAt, ht]
  have hs' : factsAt s b = s.toList.get ⟨b, hs⟩ := by
    rw [Array.length_toList] at hs
    simp [factsAt, hs]
  rw [← ht', ← hs']
  by_cases heq : factsAt t b = factsAt s b
  · exact .inr heq
  · exact .inl (IndexSet.room_lt_of_ssubset (hsub b) (Ne.symm heq) (hbound b))

namespace Regular

variable (h : flow.Regular)
include h

/-- A sweep that leaves as much room as there was changes nothing. -/
theorem sweep_eq_of_room (hsets : flow.Underway sets)
    (hroom : ¬ flow.room (flow.sweep sets) < flow.room sets) : flow.sweep sets = sets := by
  obtain ⟨hunderway, hgrows⟩ := hsets.sweep h
  have hresult := forall₂_room hgrows.result_size hgrows.result fun b fact hfact =>
    h.lt_of_passes (hunderway.passes b fact hfact)
  have hgathered := forall₂_room hgrows.gathered_size hgrows.gathered fun b fact hfact => by
    obtain ⟨a, _, hpass⟩ := hunderway.passes_gather (hunderway.gathered_le b fact hfact)
    exact h.lt_of_passes hpass
  have hsame := (total_lt_or_eq (List.rel_append hgathered hresult)).resolve_left hroom
  have hlength : (flow.sweep sets).gathered.toList.length = sets.gathered.toList.length := by
    simpa using hgrows.gathered_size
  obtain ⟨hleft, hright⟩ := List.append_inj hsame hlength
  generalize flow.sweep sets = swept at hleft hright ⊢
  cases swept
  cases sets
  simp_all

theorem underway_solve : flow.Underway flow.solve :=
  descend_induction (P := flow.Underway) (fun _ hsets => (Underway.sweep hsets h).1) _
    flow.underway_start

/-- The solution is a fixed point of the sweep. -/
theorem sweep_solve : flow.sweep flow.solve = flow.solve :=
  step_descend_eq (P := flow.Underway) (fun _ hsets => (Underway.sweep hsets h).1)
    (fun _ hsets hroom => h.sweep_eq_of_room hsets hroom) _ flow.underway_start

/-- The solution satisfies the equations of each block. -/
theorem solve_eq {b : BlockId} (hb : b < flow.blockCount) :
    factsAt flow.solve.gathered b = flow.gather flow.solve b ∧
      factsAt flow.solve.result b = flow.transfer b (flow.gather flow.solve b) := by
  have hunderway := h.underway_solve
  have hfix := hunderway.renew_eq_of_foldl (fun c hc => (h.mem_order c).mp hc) h.sweep_solve b
    ((h.mem_order b).mpr hb)
  have hgathered := congrArg (fun sets => factsAt sets.gathered b) hfix
  have hresult := congrArg (fun sets => factsAt sets.result b) hfix
  simp only [Flow.renew] at hgathered hresult
  rw [factsAt_setIfInBounds_self (hunderway.gathered_size ▸ hb)] at hgathered
  rw [factsAt_setIfInBounds_self (hunderway.result_size ▸ hb)] at hresult
  exact ⟨hgathered.symm, hresult.symm⟩

/-- The facts that a block passes on are those with a derivation. -/
theorem mem_result {b : BlockId} (hb : b < flow.blockCount) {fact : Nat} :
    fact ∈ factsAt flow.solve.result b ↔ flow.Passes fact b := by
  refine ⟨h.underway_solve.passes b fact, fun hpass => ?_⟩
  induction hpass with
  | @gen b hgen =>
    rw [(h.solve_eq hb).2, mem_transfer]
    exact .inr hgen
  | @carry a b ha _ hkill ih =>
    rw [(h.solve_eq hb).2, mem_transfer]
    exact .inl ⟨mem_gather.mpr ⟨a, ha, ih (h.sources_lt b a ha)⟩, hkill⟩

/-- The facts that a block gathers are those that one of its sources passes on. -/
theorem mem_gathered {b : BlockId} (hb : b < flow.blockCount) {fact : Nat} :
    fact ∈ factsAt flow.solve.gathered b ↔ ∃ a ∈ flow.sources b, flow.Passes fact a := by
  rw [(h.solve_eq hb).1, mem_gather]
  refine exists_congr fun a => and_congr_right fun ha => ?_
  exact h.mem_result (h.sources_lt b a ha)

end Regular

end Flow

end MiddleEnd
