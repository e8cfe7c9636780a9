import MiddleEnd.Dataflow.Reaching
import MiddleEnd.Proofs.Dataflow.Liveness
import MiddleEnd.Proofs.SSA.Frame

/-!
# Definitions reach what paths lead to

A definition reaches the start of a block if it is the last of its register in its own block and control can go
from there to the block without passing another block that writes the register. The analysis finds exactly
these definitions, although it only compares the positions of definitions in a list.

## Main definitions

* `Function.DefinedAt`: an instruction of the function writes a register at a given place.
* `Function.Survives`: a definition is the last of its register in its block.
* `Function.ReachesStart`, `Function.ReachesEnd`: a definition reaches an end of a block.

## Main statements

* `Function.mem_defPoints`, `Function.pairwise_defPoints`: what the list of definitions holds, and in what
  order.
* `Function.mem_genSet_defPoints`, `Function.mem_killSet_defPoints`: what the analysis knows about a block.
* `Function.passes_reachingFlow`: the derivations of the flow equations are paths.
* `Function.reachingDefs_exact`: the analysis succeeds and finds what reaches each block.
-/

namespace MiddleEnd

/-- The definition stands before the other one, in block and instruction order. -/
def DefPoint.Before (d e : DefPoint) : Prop := d.block < e.block ∨ d.block = e.block ∧ d.index < e.index

theorem DefPoint.Before.asymm {d e : DefPoint} (h : d.Before e) : ¬ e.Before d := by
  rintro (hblock | ⟨heq, hindex⟩)
  · obtain hblock' | ⟨heq, _⟩ := h
    · exact Nat.lt_asymm hblock hblock'
    · exact Nat.lt_irrefl _ (heq ▸ hblock)
  · obtain hblock | ⟨_, hindex'⟩ := h
    · exact Nat.lt_irrefl _ (heq ▸ hblock)
    · exact Nat.lt_asymm hindex hindex'

namespace Function

variable {f : Function} {d e : DefPoint} {b : BlockId} {idx : Nat}

/-- The instruction at the place of the definition writes its register. -/
def DefinedAt (f : Function) (d : DefPoint) : Prop :=
  ∃ i, (f.code d.block)[d.index]? = some i ∧ i.def? = some d.reg

theorem DefinedAt.mem_defsOf (h : f.DefinedAt d) : d.reg ∈ defsOf (f.code d.block) := by
  obtain ⟨i, hi, hdef⟩ := h
  exact MiddleEnd.mem_defsOf.mpr ⟨i, List.mem_of_getElem? hi, hdef⟩

/-- No later instruction in the block of the definition writes its register. -/
def Survives (f : Function) (d : DefPoint) : Prop :=
  ∀ n i, d.index < n → (f.code d.block)[n]? = some i → i.def? ≠ some d.reg

/-- The definition survives its block, and a path leads from there to a predecessor of `b`, on which no block
after the first writes the register. -/
def ReachesStart (f : Function) (d : DefPoint) (b : BlockId) : Prop :=
  f.Survives d ∧ ∃ p l, f.Path d.block p l ∧ b ∈ f.succs p ∧
    ∀ x ∈ l.dropLast, d.reg ∉ defsOf (f.code x)

/-- The definition survives in its own block, or it reaches the start of a block that does not write the
register. -/
def ReachesEnd (f : Function) (d : DefPoint) (b : BlockId) : Prop :=
  b = d.block ∧ f.Survives d ∨ f.ReachesStart d b ∧ d.reg ∉ defsOf (f.code b)

/-- Extending a path changes nothing but its end. -/
theorem Path.dropLast_cons {a : BlockId} {l : List BlockId} (h : f.Path a b l) (c : BlockId) :
    (c :: l).dropLast = c :: l.dropLast := by
  obtain ⟨rest, rfl⟩ := h.eq_cons
  exact List.dropLast_cons_of_ne_nil (List.cons_ne_nil _ _)

/-- What reaches the start of a block reaches the end of a predecessor. -/
theorem reachesStart_iff : f.ReachesStart d b ↔ ∃ p, b ∈ f.succs p ∧ f.ReachesEnd d p := by
  constructor
  · rintro ⟨hlast, p, l, hpath, hedge, hfree⟩
    refine ⟨p, hedge, ?_⟩
    cases hpath with
    | nil => exact .inl ⟨rfl, hlast⟩
    | @snoc q _ l hpath hedge' =>
      rw [hpath.dropLast_cons] at hfree
      exact .inr ⟨⟨hlast, q, _, hpath, hedge', fun x hx => hfree x (List.mem_cons_of_mem _ hx)⟩,
        hfree p List.mem_cons_self⟩
  · rintro ⟨p, hedge, ⟨rfl, hlast⟩ | ⟨⟨hlast, q, l, hpath, hedge', hfree⟩, hp⟩⟩
    · exact ⟨hlast, _, _, .nil, hedge, by simp⟩
    · refine ⟨hlast, p, p :: l, hpath.snoc hedge', hedge, fun x hx => ?_⟩
      rw [hpath.dropLast_cons] at hx
      obtain rfl | hx := List.mem_cons.mp hx
      · exact hp
      · exact hfree x hx

-- ════════════════════════════════════════════════════════════════════════
-- The list of definitions
-- ════════════════════════════════════════════════════════════════════════

section Numbered

variable (hnumbered : f.Numbered)
include hnumbered

/-- The list holds all definitions. -/
theorem mem_defPoints : d ∈ f.defPoints ↔ f.DefinedAt d := by
  obtain ⟨b, r, n⟩ := d
  simp only [defPoints, DefinedAt, List.mem_flatMap, List.mem_filterMap, Prod.exists,
    List.mem_zipIdx_iff_getElem?, Option.map_eq_some_iff, DefPoint.mk.injEq]
  constructor
  · rintro ⟨block, hmem, i, _, hi, _, hdef, rfl, rfl, rfl⟩
    exact ⟨i, by rw [code_of_getElem? (hnumbered.getElem?_id hmem)]; exact hi, hdef⟩
  · rintro ⟨i, hi, hdef⟩
    obtain ⟨block, hblock, _⟩ := exists_of_mem_code (List.mem_of_getElem? hi)
    rw [code_of_getElem? hblock] at hi
    exact ⟨block, Array.mem_toList_iff.mpr (Array.mem_of_getElem? hblock), i, n, hi, r, hdef,
      hnumbered b block hblock, rfl, rfl⟩

/-- The list is in block and instruction order. -/
theorem pairwise_defPoints : f.defPoints.Pairwise DefPoint.Before := by
  have hblocks : f.blocks.toList.Pairwise fun x y => x.id < y.id := by
    rw [← List.pairwise_map, numbered_iff.mp hnumbered]
    exact List.pairwise_lt_range
  have hpositions : ∀ {α : Type} (xs : List α), xs.zipIdx.Pairwise fun x y => x.2 < y.2 := by
    intro α xs
    rw [← List.pairwise_map, List.zipIdx_map_snd]
    exact List.pairwise_lt_range'
  refine List.pairwise_flatMap.mpr
    ⟨fun block _ => ?_, hblocks.imp fun {x y} hxy d hd e he => ?_⟩
  · refine List.pairwise_filterMap.mpr ((hpositions _).imp fun {x y} hxy d hd e he => ?_)
    obtain ⟨_, _, rfl⟩ := Option.map_eq_some_iff.mp hd
    obtain ⟨_, _, rfl⟩ := Option.map_eq_some_iff.mp he
    exact .inr ⟨rfl, hxy⟩
  · obtain ⟨_, _, hd⟩ := List.mem_filterMap.mp hd
    obtain ⟨_, _, he⟩ := List.mem_filterMap.mp he
    obtain ⟨_, _, rfl⟩ := Option.map_eq_some_iff.mp hd
    obtain ⟨_, _, rfl⟩ := Option.map_eq_some_iff.mp he
    exact .inl hxy

section Positions

variable {j : Nat} (hd : f.defPoints[idx]? = some d) (he : f.defPoints[j]? = some e)
include hd he

/-- The list is ordered. -/
theorem before_of_lt (h : idx < j) : d.Before e := by
  obtain ⟨hidx, rfl⟩ := List.getElem?_eq_some_iff.mp hd
  obtain ⟨hj, rfl⟩ := List.getElem?_eq_some_iff.mp he
  exact List.pairwise_iff_getElem.mp (pairwise_defPoints hnumbered) idx j hidx hj h

/-- A definition that comes before another one stands before it in the list. -/
theorem lt_of_before (h : d.Before e) : idx < j := by
  obtain hlt | rfl | hgt := Nat.lt_trichotomy idx j
  · exact hlt
  · obtain rfl := Option.some.inj (hd.symm.trans he)
    exact absurd h h.asymm
  · exact absurd h (before_of_lt hnumbered he hd hgt).asymm

/-- Each definition is listed once. -/
theorem position_unique (h : d = e) : idx = j := by
  subst h
  obtain hlt | heq | hgt := Nat.lt_trichotomy idx j
  · exact absurd (before_of_lt hnumbered hd he hlt) (before_of_lt hnumbered hd he hlt).asymm
  · exact heq
  · exact absurd (before_of_lt hnumbered he hd hgt) (before_of_lt hnumbered he hd hgt).asymm

end Positions

end Numbered

-- ════════════════════════════════════════════════════════════════════════
-- Single blocks
-- ════════════════════════════════════════════════════════════════════════

end Function

/-- A block adds the definitions behind which it has no other one of the same register. -/
theorem mem_genSet {defs : List DefPoint} {b : BlockId} {idx : Nat} {d : DefPoint}
    (hd : defs[idx]? = some d) : idx ∈ genSet defs b ↔ d.block = b ∧
      ∀ (e : DefPoint) (j : Nat), defs[j]? = some e → e.block = b → e.reg = d.reg → j ≤ idx := by
  simp only [genSet, defsIn, IndexSet.mem_ofList, List.mem_map, List.mem_filter, List.all_eq_true,
    Prod.exists, Prod.forall, List.mem_zipIdx_iff_getElem?, hd, exists_eq_right, beq_iff_eq,
    Bool.or_eq_true, bne_iff_ne, decide_eq_true_eq]
  constructor
  · rintro ⟨_, ⟨hd', hblock⟩, hlast⟩
    obtain rfl := Option.some.inj hd'
    exact ⟨hblock, fun e j he hb hr => (hlast e j ⟨he, hb⟩).resolve_left (absurd hr)⟩
  · rintro ⟨hblock, hlast⟩
    refine ⟨d, ⟨rfl, hblock⟩, fun e j he => ?_⟩
    by_cases hr : e.reg = d.reg
    · exact .inr (hlast e j he.1 he.2 hr)
    · exact .inl hr

/-- A block drops the definitions that share a register with another definition, which is in the block. -/
theorem mem_killSet {defs : List DefPoint} {b : BlockId} {idx : Nat} {d : DefPoint}
    (hd : defs[idx]? = some d) : idx ∈ killSet defs b ↔
      ∃ (e : DefPoint) (j : Nat), defs[j]? = some e ∧ e.block = b ∧ e.reg = d.reg ∧ j ≠ idx := by
  simp only [killSet, defsIn, IndexSet.mem_ofList, List.mem_map, List.mem_filter, List.any_eq_true,
    Prod.exists, List.mem_zipIdx_iff_getElem?, beq_iff_eq, Bool.and_eq_true, bne_iff_ne]
  constructor
  · rintro ⟨_, _, ⟨hd', e, j, ⟨he, hb⟩, hr, hne⟩, rfl⟩
    obtain rfl := Option.some.inj (hd.symm.trans hd')
    exact ⟨e, j, he, hb, hr, hne⟩
  · rintro ⟨e, j, he, hb, hr, hne⟩
    exact ⟨d, idx, ⟨hd, e, j, ⟨he, hb⟩, hr, hne⟩, rfl⟩

namespace Function

variable {f : Function} {d e : DefPoint} {b : BlockId} {idx : Nat}

section Numbered

variable (hnumbered : f.Numbered)
include hnumbered

/-- The block of a definition adds it if it survives there. -/
theorem mem_genSet_defPoints (hd : f.defPoints[idx]? = some d) :
    idx ∈ genSet f.defPoints b ↔ b = d.block ∧ f.Survives d := by
  rw [mem_genSet hd]
  constructor
  · rintro ⟨rfl, hlast⟩
    refine ⟨rfl, fun n i hlt hi hdef => ?_⟩
    have hlater : (⟨d.block, d.reg, n⟩ : DefPoint) ∈ f.defPoints :=
      (mem_defPoints hnumbered).mpr ⟨i, hi, hdef⟩
    obtain ⟨j, hj⟩ := List.mem_iff_getElem?.mp hlater
    exact Nat.not_lt.mpr (hlast _ j hj rfl rfl) (lt_of_before hnumbered hd hj (.inr ⟨rfl, hlt⟩))
  · rintro ⟨rfl, hlast⟩
    refine ⟨rfl, fun e j he hblock hreg => ?_⟩
    obtain ⟨i, hi, hdef⟩ := (mem_defPoints hnumbered).mp (List.mem_of_getElem? he)
    by_contra hlt
    rcases before_of_lt hnumbered hd he (Nat.not_le.mp hlt) with hblock' | ⟨_, hindex⟩
    · exact Nat.lt_irrefl _ (hblock ▸ hblock')
    · exact hlast e.index i hindex (hblock ▸ hi) (hreg ▸ hdef)

/-- A block drops a definition if it holds another one of the same register. -/
theorem mem_killSet_defPoints (hd : f.defPoints[idx]? = some d) : idx ∈ killSet f.defPoints b ↔
    ∃ e, f.DefinedAt e ∧ e ≠ d ∧ e.block = b ∧ e.reg = d.reg := by
  rw [mem_killSet hd]
  constructor
  · rintro ⟨e, j, he, hblock, hreg, hne⟩
    exact ⟨e, (mem_defPoints hnumbered).mp (List.mem_of_getElem? he),
      fun heq => hne (position_unique hnumbered he hd heq),
      hblock, hreg⟩
  · rintro ⟨e, hdef, hne, hblock, hreg⟩
    obtain ⟨j, hj⟩ := List.mem_iff_getElem?.mp ((mem_defPoints hnumbered).mpr hdef)
    refine ⟨e, j, hj, hblock, hreg, ?_⟩
    rintro rfl
    exact hne (Option.some.inj (hj.symm.trans hd))

/-- A block that does not write the register of a definition does not drop it. -/
theorem not_mem_killSet (hd : f.defPoints[idx]? = some d) (hfree : d.reg ∉ defsOf (f.code b)) :
    idx ∉ killSet f.defPoints b := by
  rw [mem_killSet_defPoints hnumbered hd]
  rintro ⟨e, hdef, _, rfl, hreg⟩
  exact hfree (hreg ▸ hdef.mem_defsOf)

/-- Another block that writes the register of a definition drops it. -/
theorem mem_killSet_of_mem_defsOf (hd : f.defPoints[idx]? = some d) (hne : b ≠ d.block)
    (hr : d.reg ∈ defsOf (f.code b)) : idx ∈ killSet f.defPoints b := by
  obtain ⟨i, hi, hdef⟩ := mem_defsOf.mp hr
  obtain ⟨n, hn⟩ := List.mem_iff_getElem?.mp hi
  exact (mem_killSet_defPoints hnumbered hd).mpr ⟨⟨b, d.reg, n⟩, ⟨i, hn, hdef⟩,
    fun heq => hne (congrArg DefPoint.block heq), rfl, rfl⟩

end Numbered

-- ════════════════════════════════════════════════════════════════════════
-- The equations
-- ════════════════════════════════════════════════════════════════════════

theorem regular_reachingFlow (hlinked : f.Linked) : f.reachingFlow.Regular where
  mem_order b := by simp [reachingFlow, blockIds, blockCount]
  sources_lt b p hp := lt_of_mem_succs ((hlinked.mem_preds p b).mp hp)
  gen_lt b fact hfact := by
    obtain ⟨_, hgen⟩ := mem_factsAt_toArray_map.mp hfact
    obtain ⟨⟨d, i⟩, hi, rfl⟩ := List.mem_map.mp (IndexSet.mem_ofList.mp hgen)
    have hmem := List.mem_of_mem_filter (List.mem_of_mem_filter hi)
    exact (List.getElem?_eq_some_iff.mp (List.mem_zipIdx_iff_getElem?.mp hmem)).1

/-- The derivations of the flow equations are the paths from a definition. -/
theorem passes_reachingFlow (hnumbered : f.Numbered) (hlinked : f.Linked)
    (hd : f.defPoints[idx]? = some d) (hb : b < f.blockCount) : f.reachingFlow.Passes idx b ↔ f.ReachesEnd d b := by
  constructor
  · intro hpass
    induction hpass with
    | @gen b hgen =>
      exact .inl ((mem_genSet_defPoints hnumbered hd).mp (mem_factsAt_toArray_map.mp hgen).2)
    | @carry p b hp _ hkill ih =>
      have hedge : b ∈ f.succs p := (hlinked.mem_preds p b).mp hp
      have hstart : f.ReachesStart d b := reachesStart_iff.mpr ⟨p, hedge, ih (lt_of_mem_succs hedge)⟩
      have hkeeps : idx ∉ killSet f.defPoints b := fun hmem =>
        hkill (mem_factsAt_toArray_map.mpr ⟨hb, hmem⟩)
      by_cases hwrites : d.reg ∈ defsOf (f.code b)
      · -- Only the definition itself writes the register here.
        refine .inl ⟨?_, hstart.1⟩
        by_contra hne
        exact hkeeps (mem_killSet_of_mem_defsOf hnumbered hd hne hwrites)
      · exact .inr ⟨hstart, hwrites⟩
  · have hpath : ∀ {p l}, f.Survives d → f.Path d.block p l → p < f.blockCount →
        (∀ x ∈ l.dropLast, d.reg ∉ defsOf (f.code x)) → f.reachingFlow.Passes idx p := by
      intro p l hlast hpath
      induction hpath with
      | nil =>
        have hgen := (mem_genSet_defPoints hnumbered hd).mpr ⟨rfl, hlast⟩
        exact fun hp _ => .gen (mem_factsAt_toArray_map.mpr ⟨hp, hgen⟩)
      | @snoc p q l hpath hedge ih =>
        intro hq hfree
        rw [hpath.dropLast_cons] at hfree
        refine .carry ((hlinked.mem_preds p q).mpr hedge)
          (ih (lt_of_mem_succs hedge) fun x hx => hfree x (List.mem_cons_of_mem _ hx)) fun hkill => ?_
        exact not_mem_killSet hnumbered hd (hfree q List.mem_cons_self) (mem_factsAt_toArray_map.mp hkill).2
    rintro (⟨rfl, hlast⟩ | ⟨⟨hlast, p, l, hl, hedge, hfree⟩, hwrites⟩)
    · exact hpath hlast .nil hb (by simp)
    · refine hpath hlast (hl.snoc hedge) hb fun x hx => ?_
      rw [hl.dropLast_cons] at hx
      obtain rfl | hx := List.mem_cons.mp hx
      · exact hwrites
      · exact hfree x hx

-- ════════════════════════════════════════════════════════════════════════
-- The analysis
-- ════════════════════════════════════════════════════════════════════════

/-- The analysis succeeds when every block carries its position and edges agree. -/
theorem reachingDefs_eq (hnumbered : f.Numbered) (hlinked : f.Linked) : f.reachingDefs = .ok {
    defs := f.defPoints
    gen := f.reachingFlow.gen
    kill := f.reachingFlow.kill
    reachIn := f.reachingFlow.solve.gathered
    reachOut := f.reachingFlow.solve.result } := by
  have hcheck : f.checkBlocks (f.defPoints.map (·.block) ++ f.allPreds) = .ok () := by
    refine checkBlocks_eq_ok_iff.mpr fun b hb => ?_
    obtain hb | hb := List.mem_append.mp hb
    · obtain ⟨d, hd, rfl⟩ := List.mem_map.mp hb
      obtain ⟨i, hi, _⟩ := (mem_defPoints hnumbered).mp hd
      exact lt_of_mem_code (List.mem_of_getElem? hi)
    · exact checkBlocks_eq_ok_iff.mp hlinked.checkBlocks_allPreds b hb
  rw [reachingDefs, hcheck, ok_bind]
  rfl

end Function

/-- The elements of a list at the positions in a set, in the order of the list. -/
theorem sublist_filterMap_toList {α : Type} (xs : List α) (s : IndexSet) :
    (s.toList.filterMap (xs[·]?)).Sublist xs := by
  have hrange : ∀ n, (List.range n).filterMap (xs[·]?) = xs.take n := by
    intro n
    induction n with
    | zero => rfl
    | succ n ih =>
      rw [List.range_succ, List.filterMap_append, ih, List.take_add_one]
      rfl
  have hsub := (List.filter_sublist (p := s.contains) (l := List.range (s.bits.log2 + 1))).filterMap (xs[·]?)
  rw [hrange] at hsub
  exact hsub.trans (List.take_sublist _ _)

/-- The definitions of a register that reach a block that the analysis covers. -/
theorem ReachingDefs.definitionsOf_of_lt {r : ReachingDefs} {b : BlockId} (hb : b < r.reachIn.size)
    (reg : Reg) : ∃ ds, r.definitionsOf b reg = .ok ds ∧ ds.Sublist r.defs ∧ ∀ d, d ∈ ds ↔
      d.reg = reg ∧ ∃ idx, r.defs[idx]? = some d ∧ idx ∈ factsAt r.reachIn b := by
  refine ⟨((factsAt r.reachIn b).toList.filterMap (r.defs[·]?)).filter (·.reg == reg), ?_,
    List.filter_sublist.trans (sublist_filterMap_toList r.defs (factsAt r.reachIn b)), fun d => ?_⟩
  · rw [definitionsOf, getElem?_eq_some_factsAt hb, require_some, ok_bind]
    rfl
  · simp only [List.mem_filter, List.mem_filterMap, IndexSet.mem_toList, beq_iff_eq]
    constructor
    · rintro ⟨⟨idx, hidx, hd⟩, hreg⟩
      exact ⟨hreg, idx, hd, hidx⟩
    · rintro ⟨hreg, idx, hd, hidx⟩
      exact ⟨⟨idx, hidx, hd⟩, hreg⟩

/-- What the analysis says about a function is right: it lists every definition of the function once and in
order, and its sets cover all blocks and hold exactly the definitions that reach their ends. -/
structure ReachingDefs.Exact (f : Function) (reaching : ReachingDefs) : Prop where
  mem_defs : ∀ d, d ∈ reaching.defs ↔ f.DefinedAt d
  ordered : reaching.defs.Pairwise DefPoint.Before
  size_reachIn : reaching.reachIn.size = f.blockCount
  size_reachOut : reaching.reachOut.size = f.blockCount
  mem_reachIn : ∀ b < f.blockCount, ∀ idx, idx ∈ factsAt reaching.reachIn b ↔
    ∃ d, reaching.defs[idx]? = some d ∧ f.ReachesStart d b
  mem_reachOut : ∀ b < f.blockCount, ∀ idx, idx ∈ factsAt reaching.reachOut b ↔
    ∃ d, reaching.defs[idx]? = some d ∧ f.ReachesEnd d b
  definitionsOf : ∀ b < f.blockCount, ∀ reg, ∃ ds, reaching.definitionsOf b reg = .ok ds ∧
    ds.Sublist reaching.defs ∧ ∀ d, d ∈ ds ↔ f.DefinedAt d ∧ d.reg = reg ∧ f.ReachesStart d b

namespace Function

variable {f : Function}

/-- The analysis finds what reaches each block of a function whose blocks carry their positions and whose
edges agree. -/
theorem Linked.exact_reachingDefs (hlinked : f.Linked) (hnumbered : f.Numbered) : ReachingDefs.Exact f {
    defs := f.defPoints
    gen := f.reachingFlow.gen
    kill := f.reachingFlow.kill
    reachIn := f.reachingFlow.solve.gathered
    reachOut := f.reachingFlow.solve.result } := by
  have hregular := regular_reachingFlow hlinked
  have hunderway := hregular.underway_solve
  have hlisted : ∀ {idx c}, f.reachingFlow.Passes idx c → ∃ d, f.defPoints[idx]? = some d := fun hpass =>
    ⟨_, List.getElem?_eq_getElem (hregular.lt_of_passes hpass)⟩
  have hstart : ∀ b < f.blockCount, ∀ idx, idx ∈ factsAt f.reachingFlow.solve.gathered b ↔
      ∃ d, f.defPoints[idx]? = some d ∧ f.ReachesStart d b := by
    intro b hb idx
    rw [hregular.mem_gathered hb]
    constructor
    · rintro ⟨p, hp, hpass⟩
      obtain ⟨d, hd⟩ := hlisted hpass
      have hedge := (hlinked.mem_preds p b).mp hp
      exact ⟨d, hd, reachesStart_iff.mpr
        ⟨p, hedge, (passes_reachingFlow hnumbered hlinked hd (lt_of_mem_succs hedge)).mp hpass⟩⟩
    · rintro ⟨d, hd, hreaches⟩
      obtain ⟨p, hedge, hend⟩ := reachesStart_iff.mp hreaches
      exact ⟨p, (hlinked.mem_preds p b).mpr hedge,
        (passes_reachingFlow hnumbered hlinked hd (lt_of_mem_succs hedge)).mpr hend⟩
  refine ⟨fun d => mem_defPoints hnumbered, pairwise_defPoints hnumbered, hunderway.gathered_size, hunderway.result_size,
    hstart, fun b hb idx => ?_, fun b hb reg => ?_⟩
  · rw [hregular.mem_result hb]
    constructor
    · intro hpass
      obtain ⟨d, hd⟩ := hlisted hpass
      exact ⟨d, hd, (passes_reachingFlow hnumbered hlinked hd hb).mp hpass⟩
    · rintro ⟨d, hd, hreaches⟩
      exact (passes_reachingFlow hnumbered hlinked hd hb).mpr hreaches
  · obtain ⟨ds, hds, hsub, hmem⟩ := ReachingDefs.definitionsOf_of_lt (r := {
      defs := f.defPoints, gen := f.reachingFlow.gen, kill := f.reachingFlow.kill,
      reachIn := f.reachingFlow.solve.gathered, reachOut := f.reachingFlow.solve.result })
      (Nat.lt_of_lt_of_eq hb hunderway.gathered_size.symm) reg
    refine ⟨ds, hds, hsub, fun d => (hmem d).trans ⟨?_, ?_⟩⟩
    · rintro ⟨hreg, idx, hd, hidx⟩
      obtain ⟨d', hd', hreaches⟩ := (hstart b hb idx).mp hidx
      obtain rfl := Option.some.inj (hd.symm.trans hd')
      exact ⟨(mem_defPoints hnumbered).mp (List.mem_of_getElem? hd), hreg, hreaches⟩
    · rintro ⟨hdef, hreg, hreaches⟩
      obtain ⟨idx, hd⟩ := List.mem_iff_getElem?.mp ((mem_defPoints hnumbered).mpr hdef)
      exact ⟨hreg, idx, hd, (hstart b hb idx).mpr ⟨d, hd, hreaches⟩⟩

/-- In a function whose blocks carry their positions and whose edges were derived, before and after it is
brought into single assignment form, some number of sweeps reaches sets that a further sweep does not change, and these are the answer: it lists every
definition once and in order, and a definition reaches an end of a block exactly when a path leads there that
does not overwrite it. -/
theorem reachingDefs_exact (g f : Function) (hnumbered : g.Numbered) (hf : f = g.buildEdges ∨ g.buildEdges.constructSsa = .ok f) :
    ∃ reaching rounds, f.reachingDefs = .ok reaching ∧
      (reaching.reachIn = (f.reachingFlow.sweep^[rounds] f.reachingFlow.start).gathered ∧
        reaching.reachOut = (f.reachingFlow.sweep^[rounds] f.reachingFlow.start).result ∧
        f.reachingFlow.sweep^[rounds + 1] f.reachingFlow.start =
          f.reachingFlow.sweep^[rounds] f.reachingFlow.start) ∧
      reaching.Exact f := by
  obtain ⟨hlinked, hnumbered⟩ : f.Linked ∧ f.Numbered := by
    rcases hf with rfl | hssa
    · exact ⟨g.linked_buildEdges.1, hnumbered.buildEdges⟩
    · have hsame := sameEdges_constructSsa hssa
      exact ⟨hsame.linked g.linked_buildEdges.1, hsame.numbered hnumbered.buildEdges⟩
  obtain ⟨rounds, hrounds, hfixed⟩ := exists_iterate_fixed (regular_reachingFlow hlinked).sweep_solve
  rw [← Flow.solve] at hrounds
  exact ⟨_, rounds, reachingDefs_eq hnumbered hlinked, ⟨by rw [hrounds], by rw [hrounds], hfixed⟩,
    hlinked.exact_reachingDefs hnumbered⟩

end Function

/-- A loop that counts down the register that it also tests. -/
def countingDown : Function where
  name := 0
  line := 1
  blocks := #[
    { id := 0, label := "entry", instrs := [.unary .copy (.reg 0 none) (.int 3) 1, .jump 1 1] },
    { id := 1, label := "loop", instrs := [
        .binary .sub (.reg 0 none) (.reg 0 none) (.int 1) 1, .branch (.reg 0 none) 1 2 1] },
    { id := 2, label := "exit", instrs := [.ret (.reg 0 none) 1] }]
  regCount := 1

/-- Both definitions of the register reach the loop, also the one that the loop itself holds. -/
theorem countingDown_reaching : countingDown.Numbered ∧
    (countingDown.buildEdges = countingDown.buildEdges ∨
      countingDown.buildEdges.constructSsa = .ok countingDown.buildEdges) ∧
    ∃ reaching ds, countingDown.buildEdges.reachingDefs = .ok reaching ∧
      reaching.definitionsOf 1 0 = .ok ds ∧ ⟨0, 0, 0⟩ ∈ ds ∧ ⟨1, 0, 0⟩ ∈ ds := by
  have hf : countingDown.buildEdges = countingDown.buildEdges ∨
    countingDown.buildEdges.constructSsa = .ok countingDown.buildEdges := .inl rfl
  have hnumbered : countingDown.Numbered := by decide
  obtain ⟨reaching, _, hreaching, _, hexact⟩ := countingDown.reachingDefs_exact _ hnumbered hf
  obtain ⟨ds, hds, _, hmem⟩ := hexact.definitionsOf 1 (by decide +kernel) 0
  have hentry : countingDown.buildEdges.code 0 =
      [.unary .copy (.reg 0 none) (.int 3) 1, .jump 1 1] := by decide +kernel
  have hloop : countingDown.buildEdges.code 1 =
      [.binary .sub (.reg 0 none) (.reg 0 none) (.int 1) 1, .branch (.reg 0 none) 1 2 1] := by decide +kernel
  refine ⟨hnumbered, hf, reaching, ds, hreaching, hds, (hmem _).mpr ⟨?_, rfl, ?_, 0, [0], .nil, ?_, by simp⟩,
    (hmem _).mpr ⟨?_, rfl, ?_, 1, [1], .nil, ?_, by simp⟩⟩
  · exact ⟨_, by rw [hentry]; rfl, rfl⟩
  · rintro (_ | _ | n) i hlt hi
    · exact absurd hlt (Nat.lt_irrefl 0)
    · rw [hentry] at hi
      obtain rfl := Option.some.inj hi
      decide
    · simp [hentry] at hi
  · decide +kernel
  · exact ⟨_, by rw [hloop]; rfl, rfl⟩
  · rintro (_ | _ | n) i hlt hi
    · exact absurd hlt (Nat.lt_irrefl 0)
    · rw [hloop] at hi
      obtain rfl := Option.some.inj hi
      decide
    · simp [hloop] at hi
  · decide +kernel

end MiddleEnd
