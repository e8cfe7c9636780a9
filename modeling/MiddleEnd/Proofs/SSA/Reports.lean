import Mathlib.Data.Prod.Lex
import MiddleEnd.IR.Editing
import MiddleEnd.Proofs.SSA.Validity

/-!
# What the check reports

The check for single assignment form makes one report for each place at which a function falls short,
in the order of the places, and no other. A predicate that says which report is made at which place
determines the whole list.

## Main definitions

* `Enumerates`: a list holds one element for each place of a predicate, in the order of the places.
* `Function.writers`: how many instructions write a register.
* `Function.Unwritten`: nothing gives a register a value.
* `Function.ReadFails`, `Function.JoinFails`: the reports on what is read and on phis, by place.

## Main statements

* `Enumerates.unique`: a predicate has at most one enumeration.
* `Function.violations_exact`: the check enumerates the registers that are written more than once, the
  reads of unwritten registers and the phis that do not match.
-/

namespace MiddleEnd

-- ════════════════════════════════════════════════════════════════════════
-- Enumerations
-- ════════════════════════════════════════════════════════════════════════

/-- The list holds one element for each place of the predicate, in the order of the places. -/
def Enumerates {σ β : Type} (before : σ → σ → Prop) (P : σ → β → Prop) (xs : List β) : Prop :=
  ∃ places : List (σ × β), places.Pairwise (fun p q => before p.1 q.1) ∧
    (∀ s v, (s, v) ∈ places ↔ P s v) ∧ xs = places.map (·.2)

namespace Enumerates

variable {σ τ α β : Type} {before : σ → σ → Prop} {R : τ → τ → Prop} {P Q : σ → β → Prop}
  {xs ys : List β}

theorem congr (h : Enumerates before P xs) (hiff : ∀ s v, P s v ↔ Q s v) : Enumerates before Q xs := by
  obtain ⟨places, hpairwise, hmem, heq⟩ := h
  exact ⟨places, hpairwise, fun s v => (hmem s v).trans (hiff s v), heq⟩

theorem nil (h : ∀ s v, ¬ P s v) : Enumerates before P [] :=
  ⟨[], .nil, fun s v => by simp [h s v], rfl⟩

theorem singleton (s : σ) (v : β) : Enumerates before (fun t w => t = s ∧ w = v) [v] :=
  ⟨[(s, v)], List.pairwise_singleton _ _, by simp, rfl⟩

/-- The places of the first list come before those of the second. -/
theorem append (hxs : Enumerates before P xs) (hys : Enumerates before Q ys)
    (hbefore : ∀ s v t w, P s v → Q t w → before s t) :
    Enumerates before (fun s v => P s v ∨ Q s v) (xs ++ ys) := by
  obtain ⟨places, hpairwise, hmem, rfl⟩ := hxs
  obtain ⟨places', hpairwise', hmem', rfl⟩ := hys
  refine ⟨places ++ places', List.pairwise_append.mpr ⟨hpairwise, hpairwise', ?_⟩, ?_, by simp⟩
  · rintro ⟨s, v⟩ hp ⟨t, w⟩ hq
    exact hbefore s v t w ((hmem s v).mp hp) ((hmem' t w).mp hq)
  · intro s v
    rw [List.mem_append, hmem, hmem']

/-- The places may be numbered differently in the same order. -/
theorem reindex (h : Enumerates before P xs) (g : σ → τ)
    (hg : ∀ s t, before s t → R (g s) (g t)) :
    Enumerates R (fun t v => ∃ s, g s = t ∧ P s v) xs := by
  obtain ⟨places, hpairwise, hmem, rfl⟩ := h
  refine ⟨places.map (Prod.map g id), ?_, fun t v => ?_, by simp⟩
  · exact List.pairwise_map.mpr (hpairwise.imp fun hbefore => hg _ _ hbefore)
  · simp only [List.mem_map, Prod.map, Prod.mk.injEq, Prod.exists, id_eq]
    constructor
    · rintro ⟨s, w, hp, rfl, rfl⟩
      exact ⟨s, rfl, (hmem s w).mp hp⟩
    · rintro ⟨s, rfl, hp⟩
      exact ⟨s, v, (hmem s v).mpr hp, rfl, rfl⟩

/-- What is enumerated one element after the other is enumerated by position first. -/
theorem flatMap {Q : ℕ × σ → β → Prop} (g : α → List β) (xs : List α)
    (h : ∀ n a, xs[n]? = some a → Enumerates before (fun s => Q (n, s)) (g a)) :
    Enumerates (Prod.Lex (· < ·) before) (fun p v => p.1 < xs.length ∧ Q p v) (xs.flatMap g) := by
  -- Lists grow at their ends here, so that the elements keep their positions.
  induction xs using List.reverseRecOn with
  | nil => exact .nil (by simp)
  | append_singleton xs a ih =>
    have hfront := ih fun n b hb => h n b (by
      rw [List.getElem?_append_left (List.getElem?_eq_some_iff.mp hb).1, hb])
    have hlast : Enumerates (Prod.Lex (· < ·) before)
        (fun p v => ∃ s, (xs.length, s) = p ∧ Q (xs.length, s) v) (g a) :=
      (h xs.length a (by simp)).reindex _ fun s t hst => Prod.Lex.right _ hst
    rw [List.flatMap_append, List.flatMap_singleton]
    refine (hfront.append hlast ?_).congr ?_
    · rintro ⟨n, s⟩ v _ w ⟨hn, _⟩ ⟨t, rfl, _⟩
      exact Prod.Lex.left _ _ hn
    · rintro ⟨n, s⟩ v
      rw [List.length_append, List.length_singleton]
      constructor
      · rintro (⟨hn, hq⟩ | ⟨t, heq, hq⟩)
        · exact ⟨Nat.lt_succ_of_lt hn, hq⟩
        · obtain ⟨rfl, rfl⟩ := Prod.mk.inj heq
          exact ⟨Nat.lt_succ_self _, hq⟩
      · rintro ⟨hn, hq⟩
        rcases Nat.lt_succ_iff_lt_or_eq.mp hn with hlt | rfl
        · exact .inl ⟨hlt, hq⟩
        · exact .inr ⟨s, rfl, hq⟩

/-- The elements that give a report, by position. -/
theorem filterMap (g : α → Option β) (xs : List α) :
    Enumerates (· < ·) (fun (n : ℕ) v => ∃ a, xs[n]? = some a ∧ g a = some v) (xs.filterMap g) := by
  induction xs using List.reverseRecOn with
  | nil => exact .nil (by simp)
  | append_singleton xs a ih =>
    have hlast : Enumerates (· < ·) (fun n v => n = xs.length ∧ g a = some v) ([a].filterMap g) := by
      cases ha : g a with
      | none =>
        rw [List.filterMap_cons_none ha]
        exact .nil fun _ _ h => by cases h.2
      | some w =>
        rw [List.filterMap_cons_some ha]
        exact (singleton xs.length w).congr fun n v => by simp [eq_comm]
    rw [List.filterMap_append]
    refine (ih.append hlast ?_).congr fun n v => ?_
    · rintro n v m w ⟨b, hb, _⟩ ⟨rfl, _⟩
      exact (List.getElem?_eq_some_iff.mp hb).1
    · rw [List.getElem?_append]
      by_cases hlt : n < xs.length
      · have hne : n ≠ xs.length := Nat.ne_of_lt hlt
        simp [hlt, hne]
      · have hnone : xs[n]? = none := List.getElem?_eq_none (Nat.not_lt.mp hlt)
        rw [if_neg hlt, hnone]
        by_cases heq : n = xs.length
        · simp [heq]
        · have hpast : [a][n - xs.length]? = none := List.getElem?_eq_none (by simp; omega)
          simp [heq, hpast]

/-- A predicate has at most one enumeration. -/
theorem unique (hasymm : ∀ s t, before s t → ¬ before t s) (hxs : Enumerates before P xs)
    (hys : Enumerates before P ys) : xs = ys := by
  obtain ⟨places, hpairwise, hmem, rfl⟩ := hxs
  obtain ⟨places', hpairwise', hmem', rfl⟩ := hys
  have hnodup : ∀ {ps : List (σ × β)}, ps.Pairwise (fun p q => before p.1 q.1) → ps.Nodup := by
    intro ps hps
    refine hps.imp fun {p q} hpq heq => ?_
    rw [heq] at hpq
    exact hasymm _ _ hpq hpq
  have hperm : places.Perm places' := by
    refine (List.perm_ext_iff_of_nodup (hnodup hpairwise) (hnodup hpairwise')).mpr ?_
    rintro ⟨s, v⟩
    rw [hmem, hmem']
  rw [hperm.eq_of_pairwise (fun p q _ _ hpq hqp => absurd hqp (hasymm _ _ hpq)) hpairwise hpairwise']

theorem eq_nil_iff (h : Enumerates before P xs) : xs = [] ↔ ∀ s v, ¬ P s v := by
  obtain ⟨places, _, hmem, rfl⟩ := h
  rw [List.map_eq_nil_iff]
  constructor
  · rintro rfl s v hp
    cases (hmem s v).mpr hp
  · intro hnone
    refine List.eq_nil_iff_forall_not_mem.mpr ?_
    rintro ⟨s, v⟩ hp
    exact hnone s v ((hmem s v).mp hp)

end Enumerates

/-- A block, a position in its code, and a number that tells the parts of the instruction there apart. -/
abbrev Site := BlockId × ℕ × ℕ

/-- The order of blocks, then of instructions, then of their parts. -/
def Site.Before : Site → Site → Prop := Prod.Lex (· < ·) (Prod.Lex (· < ·) (· < ·))

theorem getElem?_takeWhile_eq_some_iff {α : Type} {p : α → Bool} {xs : List α} {k : ℕ} {x : α} :
    (xs.takeWhile p)[k]? = some x ↔ xs[k]? = some x ∧ ∀ y ∈ xs.take (k + 1), p y = true := by
  induction xs generalizing k with
  | nil => simp
  | cons a xs ih =>
    cases ha : p a with
    | false => simp [ha]
    | true =>
      cases k with
      | zero => simp [ha]
      | succ k => simp [ha, ih]

-- ════════════════════════════════════════════════════════════════════════
-- Places that fall short
-- ════════════════════════════════════════════════════════════════════════

namespace Function

variable {f : Function}

/-- How many instructions write the register. -/
def writers (f : Function) (r : Reg) : ℕ :=
  (f.blocks.toList.flatMap (·.instrs)).countP (·.def? = some r)

/-- The register was handed out, but no instruction of any block writes it, and it holds no argument on
entry. -/
def Unwritten (f : Function) (r : Reg) : Prop :=
  r < f.regCount ∧ (∀ b, ∀ i ∈ f.code b, i.def? ≠ some r) ∧ some r ∉ f.paramVersions

/-- The reports on what is read. The sources of an instruction are its parts 0 and 1, the arguments of
a phi the ones after them. A report names the number that the block carries. -/
inductive ReadFails (f : Function) : Site → Violation → Prop
  | src1 {b k i r id} (hid : f.id? b = some id) (hi : (f.code b)[k]? = some i)
    (hr : i.src1.reg? = some r) (hf : f.Unwritten r) : f.ReadFails (b, k, 0) (.undefinedUse r id)
  | src2 {b k i r id} (hid : f.id? b = some id) (hi : (f.code b)[k]? = some i)
    (hr : i.src2.reg? = some r) (hf : f.Unwritten r) : f.ReadFails (b, k, 1) (.undefinedUse r id)
  | arg {b k i n arg r id} (hid : f.id? b = some id) (hi : (f.code b)[k]? = some i)
    (harg : i.phiArgs[n]? = some arg) (hr : arg.value.reg? = some r) (hf : f.Unwritten r) :
    f.ReadFails (b, k, n + 2) (.undefinedPhiArg r id arg.pred)

/-- The instruction is a phi, and so are all before it in its block. -/
def LeadingPhi (f : Function) (b : BlockId) (k : ℕ) (phi : Instr) : Prop :=
  (f.code b)[k]? = some phi ∧ ∀ i ∈ (f.code b).take (k + 1), i.isPhi = true

/-- The reports on phis. The number of its arguments is part 0 of a phi, its arguments are the parts
after that. -/
inductive JoinFails (f : Function) : Site → Violation → Prop
  | arity {b k phi id} (hid : f.id? b = some id) (hphi : f.LeadingPhi b k phi)
    (hlength : phi.phiArgs.length ≠ (f.preds b).length) :
    f.JoinFails (b, k, 0) (.phiArityMismatch id phi.phiArgs.length (f.preds b).length)
  | stranger {b k phi n arg id} (hid : f.id? b = some id) (hphi : f.LeadingPhi b k phi)
    (harg : phi.phiArgs[n]? = some arg) (hpred : arg.pred ∉ f.preds b) :
    f.JoinFails (b, k, n + 1) (.phiPredNotPredecessor id arg.pred)

-- ════════════════════════════════════════════════════════════════════════
-- Registers
-- ════════════════════════════════════════════════════════════════════════

theorem defCount_eq_writers (f : Function) (r : Reg) : f.defCount r = f.writers r := by
  have hdefs : f.blocks.toList.flatMap (·.defs) =
      (f.blocks.toList.flatMap (·.instrs)).filterMap (·.def?) := by
    rw [List.filterMap_flatMap]
    rfl
  rw [defCount, writers, hdefs, List.count_filterMap]
  refine List.countP_congr fun i _ => ?_
  simp

theorem gives_iff {r : Reg} :
    f.Gives r ↔ some r ∈ f.paramVersions ∨ ∃ b, ∃ i ∈ f.code b, i.def? = some r := by
  simp [Gives, entryRegs, Defines, mem_defsOf, List.mem_filterMap]

theorem mem_instrs {i : Instr} : i ∈ f.blocks.toList.flatMap (·.instrs) ↔ ∃ b, i ∈ f.code b := by
  rw [List.mem_flatMap]
  constructor
  · rintro ⟨block, hblock, hi⟩
    obtain ⟨b, hb⟩ := List.mem_iff_getElem?.mp hblock
    rw [Array.getElem?_toList] at hb
    exact ⟨b, (code_of_getElem? hb).symm ▸ hi⟩
  · rintro ⟨b, hi⟩
    obtain ⟨block, hb, hi⟩ := exists_of_mem_code hi
    exact ⟨block, Array.mem_toList_iff.mpr (Array.mem_of_getElem? hb), hi⟩

theorem mem_definedRegs {r : Reg} : r ∈ f.definedRegs ↔ r < f.regCount ∧ f.Gives r := by
  have hwritten : r ∈ f.blocks.toList.flatMap (·.defs) ↔ ∃ b, ∃ i ∈ f.code b, i.def? = some r := by
    simp only [Block.defs, ← List.filterMap_flatMap, List.mem_filterMap, mem_instrs]
    constructor
    · rintro ⟨i, ⟨b, hi⟩, hr⟩
      exact ⟨b, i, hi, hr⟩
    · rintro ⟨b, i, hi, hr⟩
      exact ⟨i, ⟨b, hi⟩, hr⟩
  rw [definedRegs, IndexSet.mem_ofList, List.mem_filter, List.mem_append, decide_eq_true_eq, and_comm,
    hwritten, gives_iff, or_comm]
  simp

theorem undefinedReg?_eq_some_iff {operand : Operand} {r : Reg} :
    f.undefinedReg? f.definedRegs operand = some r ↔ operand.reg? = some r ∧ f.Unwritten r := by
  rw [undefinedReg?, Option.filter_eq_some_iff, decide_eq_true_eq, mem_definedRegs, gives_iff, Unwritten]
  refine and_congr_right fun _ => and_congr_right fun hr => ?_
  simp only [hr, true_and, not_or, not_exists, not_and]
  exact and_comm

-- ════════════════════════════════════════════════════════════════════════
-- The three parts of the report
-- ════════════════════════════════════════════════════════════════════════

theorem definitionViolations_enumerates (f : Function) :
    Enumerates (· < ·) (fun r v => r < f.regCount ∧ 1 < f.writers r ∧
      v = .multipleDefinitions r (f.writers r)) f.definitionViolations := by
  refine (Enumerates.filterMap _ _).congr fun r v => ?_
  simp only [defCount_eq_writers, Option.ite_none_right_eq_some, Option.some.injEq]
  constructor
  · rintro ⟨r', hr', hcount, rfl⟩
    obtain ⟨_, rfl⟩ := List.getElem?_eq_some_iff.mp hr'
    rw [List.getElem_range] at hr' hcount ⊢
    exact ⟨List.mem_range.mp (List.mem_of_getElem? hr'), hcount, rfl⟩
  · rintro ⟨hr, hcount, rfl⟩
    exact ⟨r, List.getElem?_range hr, hcount, rfl⟩

/-- The reports on what one instruction reads. -/
theorem instrViolations_enumerates {b id : BlockId} {k : ℕ} {i : Instr} (hid : f.id? b = some id)
    (hi : (f.code b)[k]? = some i) :
    Enumerates (· < ·) (fun n => f.ReadFails (b, k, n)) (f.instrViolations f.definedRegs id i) := by
  have hsources := Enumerates.filterMap (fun operand => (f.undefinedReg? f.definedRegs operand).map
    fun r => Violation.undefinedUse r id) [i.src1, i.src2]
  have hargs := (Enumerates.filterMap (fun arg => (f.undefinedReg? f.definedRegs arg.value).map
    fun r => Violation.undefinedPhiArg r id arg.pred) i.phiArgs).reindex (R := (· < ·)) (· + 2)
    fun _ _ h => Nat.add_lt_add_right h 2
  refine (hsources.append hargs ?_).congr fun n v => ?_
  · rintro n v _ w ⟨a, ha, _⟩ ⟨m, rfl, _⟩
    have hn : n < 2 := (List.getElem?_eq_some_iff.mp ha).1
    change n < m + 2
    omega
  · simp only [Option.map_eq_some_iff, undefinedReg?_eq_some_iff]
    constructor
    · rintro (⟨a, ha, r, ⟨hr, hf⟩, rfl⟩ | ⟨m, rfl, arg, harg, r, ⟨hr, hf⟩, rfl⟩)
      · match n, ha with
        | 0, rfl => exact .src1 hid hi hr hf
        | 1, rfl => exact .src2 hid hi hr hf
      · exact .arg hid hi harg hr hf
    · intro h
      cases h with
      | src1 hid' hi' hr hf =>
        obtain rfl := Option.some.inj (hid.symm.trans hid')
        obtain rfl := Option.some.inj (hi.symm.trans hi')
        exact .inl ⟨_, rfl, _, ⟨hr, hf⟩, rfl⟩
      | src2 hid' hi' hr hf =>
        obtain rfl := Option.some.inj (hid.symm.trans hid')
        obtain rfl := Option.some.inj (hi.symm.trans hi')
        exact .inl ⟨_, rfl, _, ⟨hr, hf⟩, rfl⟩
      | arg hid' hi' harg hr hf =>
        obtain rfl := Option.some.inj (hid.symm.trans hid')
        obtain rfl := Option.some.inj (hi.symm.trans hi')
        exact .inr ⟨_, rfl, _, harg, _, ⟨hr, hf⟩, rfl⟩

/-- What is enumerated block by block is enumerated by blocks first. -/
theorem enumerates_blocks {σ β : Type} {R : σ → σ → Prop} {Q : ℕ × σ → β → Prop} (g : Block → List β)
    (h : ∀ (b : BlockId) block, f.blocks[b]? = some block → Enumerates R (fun s => Q (b, s)) (g block)) :
    Enumerates (Prod.Lex (· < ·) R) (fun p v => p.1 < f.blockCount ∧ Q p v)
      (f.blocks.toList.flatMap g) := by
  refine (Enumerates.flatMap (Q := Q) g f.blocks.toList fun n block hn => ?_).congr fun p v => ?_
  · exact h n block (by rw [← hn, Array.getElem?_toList])
  · rw [Array.length_toList, blockCount]

theorem id?_of_getElem? {b : BlockId} {block : Block} (hblock : f.blocks[b]? = some block) :
    f.id? b = some block.id := by
  rw [id?, hblock, Option.map_some]

theorem useViolations_enumerates (f : Function) :
    Enumerates Site.Before f.ReadFails f.useViolations := by
  refine (enumerates_blocks (R := Prod.Lex (· < ·) (· < ·))
    (Q := fun p v => p.2.1 < (f.code p.1).length ∧ f.ReadFails p v) _ ?_).congr ?_
  · intro b block hblock
    have hcode := code_of_getElem? hblock
    dsimp only
    rw [← hcode]
    exact Enumerates.flatMap _ _ fun k i hi => instrViolations_enumerates (id?_of_getElem? hblock) hi
  · rintro ⟨b, k, n⟩ v
    refine ⟨fun h => h.2.2, fun h => ?_⟩
    obtain ⟨i, hi⟩ : ∃ i, (f.code b)[k]? = some i := by
      cases h with
      | src1 _ hi => exact ⟨_, hi⟩
      | src2 _ hi => exact ⟨_, hi⟩
      | arg _ hi => exact ⟨_, hi⟩
    exact ⟨lt_of_mem_code (List.mem_of_getElem? hi), (List.getElem?_eq_some_iff.mp hi).1, h⟩

theorem getElem?_phis {b : BlockId} {block : Block} (hblock : f.blocks[b]? = some block) {k : ℕ}
    {phi : Instr} : block.phis[k]? = some phi ↔ f.LeadingPhi b k phi := by
  rw [LeadingPhi, code_of_getElem? hblock, Block.phis]
  exact getElem?_takeWhile_eq_some_iff

/-- The reports on one phi. -/
theorem phiViolations_enumerates {b : BlockId} {block : Block} (hblock : f.blocks[b]? = some block)
    {k : ℕ} {phi : Instr} (hphi : f.LeadingPhi b k phi) :
    Enumerates (· < ·) (fun n => f.JoinFails (b, k, n)) (block.phiViolations phi) := by
  have hid := id?_of_getElem? hblock
  have harity : Enumerates (· < ·)
      (fun n v => n = 0 ∧ phi.phiArgs.length ≠ (f.preds b).length ∧
        v = .phiArityMismatch block.id phi.phiArgs.length (f.preds b).length)
      (if phi.phiArgs.length = block.preds.length then []
        else [Violation.phiArityMismatch block.id phi.phiArgs.length block.preds.length]) := by
    rw [← preds_of_getElem? hblock]
    split
    · rename_i heq
      exact .nil fun n v h => h.2.1 heq
    · rename_i hne
      exact (Enumerates.singleton 0 _).congr fun n v => by simp [hne]
  have hstrangers := (Enumerates.filterMap (fun arg => if decide (arg.pred ∉ block.preds) = true then
    some (Violation.phiPredNotPredecessor block.id arg.pred) else none) phi.phiArgs).reindex
    (R := (· < ·)) (· + 1) fun _ _ h => Nat.add_lt_add_right h 1
  rw [Block.phiViolations, ← List.filterMap_eq_map, List.filterMap_filter]
  refine (harity.append hstrangers ?_).congr fun n v => ?_
  · rintro _ v _ w ⟨rfl, _⟩ ⟨m, rfl, _⟩
    exact Nat.succ_pos m
  · simp only [decide_eq_true_eq, Option.ite_none_right_eq_some, Option.some.injEq,
      ← preds_of_getElem? hblock]
    constructor
    · rintro (⟨rfl, hlength, rfl⟩ | ⟨m, rfl, arg, harg, hpred, rfl⟩)
      · exact .arity hid hphi hlength
      · exact .stranger hid hphi harg hpred
    · intro h
      cases h with
      | arity hid' hphi' hlength =>
        obtain rfl := Option.some.inj (hid.symm.trans hid')
        obtain rfl := Option.some.inj (hphi.1.symm.trans hphi'.1)
        exact .inl ⟨rfl, hlength, rfl⟩
      | stranger hid' hphi' harg hpred =>
        obtain rfl := Option.some.inj (hid.symm.trans hid')
        obtain rfl := Option.some.inj (hphi.1.symm.trans hphi'.1)
        exact .inr ⟨_, rfl, _, harg, hpred, rfl⟩

theorem joinViolations_enumerates (f : Function) :
    Enumerates Site.Before f.JoinFails f.joinViolations := by
  refine (enumerates_blocks (R := Prod.Lex (· < ·) (· < ·))
    (Q := fun p v => (∃ block, f.blocks[p.1]? = some block ∧ p.2.1 < block.phis.length) ∧
      f.JoinFails p v) _ ?_).congr ?_
  · intro b block hblock
    refine (Enumerates.flatMap (Q := fun p => f.JoinFails (b, p)) _ block.phis fun k phi hphi =>
      phiViolations_enumerates hblock ((getElem?_phis hblock).mp hphi)).congr fun p v => ?_
    simp [hblock]
  · rintro ⟨b, k, n⟩ v
    refine ⟨fun h => h.2.2, fun h => ?_⟩
    obtain ⟨phi, hphi⟩ : ∃ phi, f.LeadingPhi b k phi := by
      cases h with
      | arity _ hphi => exact ⟨_, hphi⟩
      | stranger _ hphi => exact ⟨_, hphi⟩
    have hb := lt_of_mem_code (List.mem_of_getElem? hphi.1)
    obtain ⟨block, hblock⟩ := exists_getElem?_blocks hb
    exact ⟨hb, ⟨block, hblock, (List.getElem?_eq_some_iff.mp ((getElem?_phis hblock).mpr hphi)).1⟩, h⟩

-- ════════════════════════════════════════════════════════════════════════
-- A copy of an instruction
-- ════════════════════════════════════════════════════════════════════════

/-- A function in the form is valid if nothing falls short anywhere. -/
theorem isValidSsa_iff (hssa : f.isSsa = true) : f.isValidSsa = true ↔
    (∀ r < f.regCount, f.writers r ≤ 1) ∧ (∀ p v, ¬ f.ReadFails p v) ∧ ∀ p v, ¬ f.JoinFails p v := by
  rw [isValidSsa, List.isEmpty_iff, violations, if_pos hssa, List.append_assoc, List.append_eq_nil_iff,
    List.append_eq_nil_iff, f.definitionViolations_enumerates.eq_nil_iff,
    f.useViolations_enumerates.eq_nil_iff, f.joinViolations_enumerates.eq_nil_iff]
  refine and_congr_left fun _ => ⟨fun h r hr => ?_, fun h r v hv => ?_⟩
  · by_contra hcount
    exact h r _ ⟨hr, Nat.not_le.mp hcount, rfl⟩
  · exact absurd hv.2.1 (Nat.not_lt.mpr (h r hv.1))

theorem isSsa_of_isValidSsa (h : f.isValidSsa = true) : f.isSsa = true := by
  by_contra hssa
  rw [isValidSsa, violations, if_neg hssa] at h
  cases h

/-- The function with a copy of an instruction right after it. -/
def withCopy (f : Function) (b : BlockId) (k : ℕ) (i : Instr) : Function :=
  f.modifyBlock b fun block => { block with instrs := block.instrs.insertIdx (k + 1) i }

section Copy

variable {b : BlockId} {k : ℕ} {i : Instr}

theorem setBlock_eq_modifyBlock {block : Block} (hblock : f.blocks[b]? = some block) (g : Block → Block) :
    f.setBlock b (g block) = f.modifyBlock b g := by
  rw [setBlock, modifyBlock, modifyBlock, Function.mk.injEq]
  refine ⟨rfl, rfl, rfl, rfl, Array.ext_getElem? fun c => ?_, rfl, rfl, rfl, rfl, rfl⟩
  rw [Array.getElem?_modify, Array.getElem?_modify]
  split
  · rename_i heq
    rw [← heq, hblock]
    rfl
  · rfl

theorem duplicateInstr_eq (hi : (f.code b)[k]? = some i) :
    f.duplicateInstr b k (k + 1) = .ok (f.withCopy b k i) := by
  obtain ⟨block, hblock⟩ := exists_getElem?_blocks (lt_of_mem_code (List.mem_of_getElem? hi))
  rw [code_of_getElem? hblock] at hi
  have hk : ¬ block.instrs.length < k + 1 := Nat.not_lt.mpr (List.getElem?_eq_some_iff.mp hi).1
  rw [withCopy, ← setBlock_eq_modifyBlock hblock]
  have hb : f.block b = .ok block := by
    rw [Function.block, hblock]
    rfl
  have hget : f.instr b k = .ok i := by
    rw [instr, hb]
    change require _ block.instrs[k]? = .ok i
    rw [hi]
    rfl
  rw [duplicateInstr, hget]
  change f.insertInstr b (k + 1) i = _
  simp only [insertInstr, hb, bind, Except.bind, if_neg hk]
  rfl

theorem code_withCopy (hi : (f.code b)[k]? = some i) (c : BlockId) : (f.withCopy b k i).code c =
    if b = c then (f.code b).insertIdx (k + 1) i else f.code c := by
  have hb := lt_of_mem_code (List.mem_of_getElem? hi)
  rw [withCopy, modifyBlock, code, Array.getElem?_modify]
  split
  · rename_i heq
    subst heq
    simp [code, Array.getElem?_eq_getElem hb]
  · rfl

theorem preds_withCopy (c : BlockId) : (f.withCopy b k i).preds c = f.preds c := by
  rw [withCopy, modifyBlock, preds, Array.getElem?_modify]
  split
  · simp [preds, Option.map_map, Function.comp_def, *]
  · rfl

theorem id?_withCopy (c : BlockId) : (f.withCopy b k i).id? c = f.id? c := by
  rw [withCopy, modifyBlock, id?, Array.getElem?_modify]
  split
  · rw [Option.map_map]
    rfl
  · rfl

theorem mem_code_withCopy (hi : (f.code b)[k]? = some i) {c : BlockId} {j : Instr} :
    j ∈ (f.withCopy b k i).code c ↔ j ∈ f.code c := by
  rw [code_withCopy hi]
  split
  · rename_i heq
    subst heq
    rw [List.mem_insertIdx (List.getElem?_eq_some_iff.mp hi).1]
    exact or_iff_right_of_imp fun hj => hj ▸ List.mem_of_getElem? hi
  · rfl

theorem writers_withCopy (hi : (f.code b)[k]? = some i) (r : Reg) :
    (f.withCopy b k i).writers r = f.writers r + if i.def? = some r then 1 else 0 := by
  obtain ⟨front, block, back, hblocks, hlength, hmodify⟩ := List.exists_of_modify
    (fun block : Block => { block with instrs := block.instrs.insertIdx (k + 1) i })
    (l := f.blocks.toList) (i := b) (by simpa [blockCount] using lt_of_mem_code (List.mem_of_getElem? hi))
  have hblock : f.blocks[b]? = some block := by
    rw [← Array.getElem?_toList, hblocks, ← hlength]
    simp
  rw [code_of_getElem? hblock] at hi
  have hperm : (block.instrs.insertIdx (k + 1) i).Perm (i :: block.instrs) :=
    List.perm_insertIdx i block.instrs (List.getElem?_eq_some_iff.mp hi).1
  simp only [writers, withCopy, modifyBlock, Array.toList_modify, hmodify]
  simp only [hblocks, List.flatMap_append, List.flatMap_cons, List.countP_append, hperm.countP_eq,
    List.countP_cons, decide_eq_true_eq]
  omega

theorem leadingPhi_withCopy (hi : (f.code b)[k]? = some i) (hphi : i.isPhi = false) {c : BlockId}
    {n : ℕ} {phi : Instr} (h : (f.withCopy b k i).LeadingPhi c n phi) : f.LeadingPhi c n phi := by
  rw [LeadingPhi, code_withCopy hi] at h
  split at h
  · rename_i heq
    subst heq
    have hn : n < k := by
      by_contra hge
      have hmem : i ∈ ((f.code b).insertIdx (k + 1) i).take (n + 1) := by
        refine List.mem_of_getElem? (i := k) ?_
        rw [List.getElem?_take_of_lt (by omega), List.getElem?_insertIdx_of_lt (Nat.lt_succ_self k), hi]
      rw [h.2 i hmem] at hphi
      cases hphi
    rw [List.getElem?_insertIdx_of_lt (by omega), List.take_insertIdx_eq_take_of_le _ _ _ _ (by omega)] at h
    exact h
  · exact h

theorem unwritten_withCopy (hi : (f.code b)[k]? = some i) {r : Reg}
    (h : (f.withCopy b k i).Unwritten r) : f.Unwritten r :=
  ⟨h.1, fun c j hj => h.2.1 c j ((mem_code_withCopy hi).mpr hj), h.2.2⟩

/-- What fails to be read with the copy failed to be read before, if perhaps at another place. -/
theorem readFails_withCopy (hi : (f.code b)[k]? = some i) {p : Site} {v : Violation}
    (h : (f.withCopy b k i).ReadFails p v) : ∃ q, f.ReadFails q v := by
  have hold : ∀ {c n j}, ((f.withCopy b k i).code c)[n]? = some j → ∃ m : ℕ, (f.code c)[m]? = some j :=
    fun hj => List.mem_iff_getElem?.mp ((mem_code_withCopy hi).mp (List.mem_of_getElem? hj))
  cases h with
  | src1 hid hj hr hf =>
    obtain ⟨m, hm⟩ := hold hj
    exact ⟨_, .src1 (id?_withCopy _ ▸ hid) hm hr (unwritten_withCopy hi hf)⟩
  | src2 hid hj hr hf =>
    obtain ⟨m, hm⟩ := hold hj
    exact ⟨_, .src2 (id?_withCopy _ ▸ hid) hm hr (unwritten_withCopy hi hf)⟩
  | arg hid hj harg hr hf =>
    obtain ⟨m, hm⟩ := hold hj
    exact ⟨_, .arg (id?_withCopy _ ▸ hid) hm harg hr (unwritten_withCopy hi hf)⟩

theorem joinFails_withCopy (hi : (f.code b)[k]? = some i) (hphi : i.isPhi = false) {p : Site}
    {v : Violation} (h : (f.withCopy b k i).JoinFails p v) : f.JoinFails p v := by
  cases h with
  | arity hid hlead hlength =>
    rw [preds_withCopy] at hlength ⊢
    exact .arity (id?_withCopy _ ▸ hid) (leadingPhi_withCopy hi hphi hlead) hlength
  | stranger hid hlead harg hpred =>
    rw [preds_withCopy] at hpred
    exact .stranger (id?_withCopy _ ▸ hid) (leadingPhi_withCopy hi hphi hlead) harg hpred

/-- A copy of an instruction that is no phi makes nothing else fall short. -/
theorem violations_withCopy (hvalid : f.isValidSsa = true) (hi : (f.code b)[k]? = some i)
    (hphi : i.isPhi = false) {r : Reg} (hdef : i.def? = some r) (hr : r < f.regCount) :
    (f.withCopy b k i).violations = [.multipleDefinitions r 2] := by
  have hssa : f.isSsa = true := isSsa_of_isValidSsa hvalid
  obtain ⟨hsingle, hread, hjoin⟩ := (isValidSsa_iff hssa).mp hvalid
  have hone : f.writers r = 1 := by
    refine Nat.le_antisymm (hsingle r hr) (List.countP_pos_iff.mpr ⟨i, ?_, decide_eq_true hdef⟩)
    exact mem_instrs.mpr ⟨b, List.mem_of_getElem? hi⟩
  have hdefinitions : (f.withCopy b k i).definitionViolations = [.multipleDefinitions r 2] := by
    refine Enumerates.unique (fun _ _ => Nat.lt_asymm)
      (f.withCopy b k i).definitionViolations_enumerates
      ((Enumerates.singleton r _).congr fun q v => ?_)
    simp only [writers_withCopy hi, hdef, Option.some.injEq]
    change _ ↔ q < f.regCount ∧ _
    by_cases hq : r = q
    · subst hq
      simp [hone, hr]
    · have hle : q < f.regCount → f.writers q ≤ 1 := hsingle q
      simp only [hq, if_false, Nat.add_zero]
      constructor
      · rintro ⟨rfl, _⟩
        exact absurd rfl hq
      · rintro ⟨hlt, hcount, _⟩
        exact absurd hcount (Nat.not_lt.mpr (hle hlt))
  have huses : (f.withCopy b k i).useViolations = [] := by
    refine (f.withCopy b k i).useViolations_enumerates.eq_nil_iff.mpr fun p v h => ?_
    obtain ⟨q, hq⟩ := readFails_withCopy hi h
    exact hread q v hq
  have hjoins : (f.withCopy b k i).joinViolations = [] :=
    (f.withCopy b k i).joinViolations_enumerates.eq_nil_iff.mpr fun p v h =>
      hjoin p v (joinFails_withCopy hi hphi h)
  rw [violations, show (f.withCopy b k i).isSsa = true from hssa, if_pos rfl, hdefinitions, huses, hjoins]
  rfl

end Copy

-- ════════════════════════════════════════════════════════════════════════
-- The whole report
-- ════════════════════════════════════════════════════════════════════════

/-- The check of a function in single assignment form reports, in this order and nothing else: each
register that several instructions write, with their number, in ascending order; each read of a register
that nothing writes, in the order of blocks and instructions; and each phi at the head of a block whose
arguments are not as many as the predecessors, or belong to other blocks. Each report on a block names the
number that the block carries. So a function is valid if
nothing falls short anywhere, and if an instruction of a valid function that is no phi is copied right
after itself, then the one report is that its register has two writers. -/
theorem violations_exact (f : Function) (hssa : f.isSsa = true) :
    (∃ definitions reads joins, f.violations = definitions ++ reads ++ joins ∧
      Enumerates (· < ·) (fun r v => r < f.regCount ∧ 1 < f.writers r ∧
        v = .multipleDefinitions r (f.writers r)) definitions ∧
      Enumerates Site.Before f.ReadFails reads ∧
      Enumerates Site.Before f.JoinFails joins) ∧
    (f.isValidSsa = true ↔ (∀ r < f.regCount, f.writers r ≤ 1) ∧
      (∀ p v, ¬ f.ReadFails p v) ∧ ∀ p v, ¬ f.JoinFails p v) ∧
    (f.isValidSsa = true → ∀ b k i r, (f.code b)[k]? = some i → i.isPhi = false → i.def? = some r →
      r < f.regCount → f.duplicateInstr b k (k + 1) = .ok (f.withCopy b k i) ∧
        (f.withCopy b k i).violations = [.multipleDefinitions r 2]) := by
  refine ⟨⟨f.definitionViolations, f.useViolations, f.joinViolations, ?_,
    f.definitionViolations_enumerates, f.useViolations_enumerates, f.joinViolations_enumerates⟩,
    isValidSsa_iff hssa, fun hvalid b k i r hi hphi hdef hr => ?_⟩
  · rw [violations, if_pos hssa]
  · exact ⟨duplicateInstr_eq hi, violations_withCopy hvalid hi hphi hdef hr⟩

end Function

/-- A function that falls short in every way: a register with two writers, one without any, and a phi
with an argument too many, for a block that is no predecessor. -/
def straying : Function where
  name := 0
  line := 1
  isSsa := true
  paramVersions := [some 1]
  regCount := 3
  blocks := #[
    { id := 0, label := "entry", succs := [1]
      instrs := [.unary .copy (.reg 0 none) (.reg 1 none) 1,
        .binary .add (.reg 0 none) (.reg 0 none) (.reg 2 none) 2, .jump 1 2] },
    { id := 1, label := "exit", preds := [0]
      instrs := [.phi (.reg 4 none) none [⟨.reg 2 none, 3⟩, ⟨.reg 0 none, 0⟩] 3, .ret .none 3] }]

/-- The same function put right. -/
def steady : Function where
  name := 0
  line := 1
  isSsa := true
  paramVersions := [some 1]
  regCount := 3
  blocks := #[
    { id := 0, label := "entry", succs := [1]
      instrs := [.unary .copy (.reg 0 none) (.reg 1 none) 1, .jump 1 2] },
    { id := 1, label := "exit", preds := [0]
      instrs := [.phi (.reg 2 none) none [⟨.reg 0 none, 0⟩] 3, .ret (.reg 2 none) 3] }]

/-- The check lists all that is wrong with the first function, and a copy in the second one is the one
thing wrong with it. -/
theorem straying_reports :
    (straying.isSsa = true ∧ ∃ definitions reads joins,
      straying.violations = definitions ++ reads ++ joins ∧
      definitions ++ reads ++ joins = [.multipleDefinitions 0 2, .undefinedUse 2 0,
        .undefinedPhiArg 2 1 3, .phiArityMismatch 1 2 1, .phiPredNotPredecessor 1 3] ∧
      Enumerates Site.Before straying.ReadFails reads ∧
      Enumerates Site.Before straying.JoinFails joins) ∧
    steady.isSsa = true ∧ steady.isValidSsa = true ∧ ∃ g,
      steady.duplicateInstr 0 0 1 = .ok g ∧ g.violations = [.multipleDefinitions 0 2] := by
  obtain ⟨definitions, reads, joins, heq, _, hreads, hjoins⟩ := (straying.violations_exact rfl).1
  obtain ⟨_, _, hcopy⟩ := steady.violations_exact rfl
  have hvalid : steady.isValidSsa = true := by decide +kernel
  refine ⟨⟨rfl, definitions, reads, joins, heq, ?_, hreads, hjoins⟩, rfl, hvalid, _,
    hcopy hvalid 0 0 _ 0 rfl rfl rfl (by decide)⟩
  rw [← heq]
  decide +kernel

end MiddleEnd
