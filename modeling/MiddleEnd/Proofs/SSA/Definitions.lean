import MiddleEnd.Proofs.Lowering.Function

/-!
# What is written after the conversion

The conversion leaves registers of no variable alone, and gives each write of a variable and each phi
for one a register of its own. The new registers of a block are consecutive, and those of different
blocks are apart.

## Main definitions

* `plainDefs`: the registers that instructions write and that belong to no variable.

## Main statements

* `Conversion.Valid.code_eq`: the instructions of a block after the conversion.
* `Conversion.Valid.perm_defs`: the registers that a block writes after the conversion.
* `Conversion.Valid.defCount_le_one`: no register is written twice.
-/

namespace MiddleEnd

-- ════════════════════════════════════════════════════════════════════════
-- Renamed instructions
-- ════════════════════════════════════════════════════════════════════════

/-- The registers that instructions write and that belong to no variable. -/
def plainDefs (owners : Array (Option VarId)) (code : List Instr) : List Reg :=
  code.filterMap fun i => if (i.dst.owner? owners).isNone then i.def? else none

theorem plainDefs_cons (owners : Array (Option VarId)) (i : Instr) (code : List Instr) :
    plainDefs owners (i :: code) =
      (if (i.dst.owner? owners).isNone then i.def? else none).toList ++ plainDefs owners code := by
  rw [plainDefs, List.filterMap_cons]
  cases (if (i.dst.owner? owners).isNone then i.def? else none) <;> rfl

theorem plainDefs_append (owners : Array (Option VarId)) (xs ys : List Instr) :
    plainDefs owners (xs ++ ys) = plainDefs owners xs ++ plainDefs owners ys := by
  simp [plainDefs]

theorem mem_plainDefs {f : Function} (hvars : f.VarsApart) {code : List Instr} {r : Reg} :
    r ∈ plainDefs f.owners code ↔ r ∈ defsOf code ∧ ¬ f.IsVarReg r := by
  have howner : ∀ i : Instr, i.def? = some r →
      ((i.dst.owner? f.owners).isNone = true ↔ ¬ f.IsVarReg r) := by
    intro i hi
    have hdst : ∃ ty, i.dst = .reg r ty := by
      cases hdst : i.dst with
      | reg q ty =>
        rw [Instr.def?, hdst] at hi
        exact ⟨ty, by rw [Option.some.inj hi]⟩
      | _ => rw [Instr.def?, hdst] at hi; cases hi
    obtain ⟨ty, hdst⟩ := hdst
    rw [Option.isNone_iff_eq_none, hdst]
    exact Function.owner?_reg_eq_none_iff hvars
  simp only [plainDefs, defsOf, List.mem_filterMap]
  constructor
  · rintro ⟨i, hi, hdef⟩
    split at hdef
    · rename_i hnone
      exact ⟨⟨i, hi, hdef⟩, (howner i hdef).mp hnone⟩
    · cases hdef
  · rintro ⟨⟨i, hi, hdef⟩, hr⟩
    exact ⟨i, hi, by rw [if_pos ((howner i hdef).mpr hr), hdef]⟩

theorem count_plainDefs {f : Function} (hvars : f.VarsApart) {r : Reg} (hr : ¬ f.IsVarReg r)
    (code : List Instr) : (plainDefs f.owners code).count r = (defsOf code).count r := by
  induction code with
  | nil => rfl
  | cons i code ih =>
    have hone : (plainDefs f.owners [i]).count r = (defsOf [i]).count r := by
      by_cases hmem : r ∈ defsOf [i]
      · have hplain := (mem_plainDefs hvars).mpr ⟨hmem, hr⟩
        have hdef := mem_defsOf_singleton.mp hmem
        have hsame : plainDefs f.owners [i] = [r] := by
          rw [plainDefs_cons] at hplain ⊢
          cases howner : (i.dst.owner? f.owners).isNone with
          | true => simp [hdef, plainDefs]
          | false => simp [howner, plainDefs] at hplain
        simp [hsame, defsOf, hdef]
      · rw [List.count_eq_zero.mpr hmem]
        exact List.count_eq_zero.mpr fun hplain => hmem ((mem_plainDefs hvars).mp hplain).1
    rw [show i :: code = [i] ++ code from rfl, plainDefs_append, defsOf_append, List.count_append,
      List.count_append, hone, ih]

/-- What renamed instructions write: the registers of no variable as before, and a new register for each
write of a variable. -/
theorem perm_defsOf_renamed (owners : Array (Option VarId)) (body : List Instr) (s : Versions) :
    (defsOf (threaded (renamedInstr owners) body s).1).Perm (plainDefs owners body ++
      List.range' s.nextReg (body.filterMap (·.dst.owner? owners)).length) := by
  induction body generalizing s with
  | nil => exact .refl _
  | cons i body ih =>
    have hcons : ∀ (j : Instr) code, defsOf (j :: code) = j.def?.toList ++ defsOf code := by
      intro j code
      rw [defsOf, List.filterMap_cons]
      cases j.def? <;> rfl
    rw [threaded, hcons, plainDefs_cons]
    have hrest := ih (renamedInstr owners i s).2
    have hwrites : ((i :: body).filterMap (·.dst.owner? owners)).length =
        (i.dst.owner? owners).toList.length + (body.filterMap (·.dst.owner? owners)).length := by
      rw [List.filterMap_cons]
      cases i.dst.owner? owners <;> simp [Nat.add_comm]
    rw [hwrites]
    cases howner : i.dst.owner? owners with
    | none =>
      have hdef : (renamedInstr owners i s).1.def? = i.def? := by
        simp [renamedInstr, Instr.def?, Operand.redirected, howner]
      have hnext : (renamedInstr owners i s).2.nextReg = s.nextReg := by
        simp [renamedInstr, howner]
      rw [hnext] at hrest
      rw [hdef, List.append_assoc]
      simpa using hrest.append_left i.def?.toList
    | some v =>
      have hdef : (renamedInstr owners i s).1.def? = some s.nextReg := by
        simp [renamedInstr, Instr.def?, Operand.redirected, howner, Operand.reg?]
      have hnext : (renamedInstr owners i s).2.nextReg = s.nextReg + 1 := by
        simp [renamedInstr, howner, Versions.push]
      rw [hnext] at hrest
      rw [hdef, show (some v).toList.length = 1 from rfl, Nat.add_comm 1, List.range'_succ]
      simpa using (hrest.cons s.nextReg).trans List.perm_middle.symm

/-- An instruction among the renamed ones, and the state in which it was renamed. -/
theorem threaded_eq_append {α β σ : Type} {step : α → σ → β × σ} {xs : List α} {s : σ}
    {pre : List β} {b : β} {post : List β} (h : (threaded step xs s).1 = pre ++ b :: post) :
    ∃ pre' a post', xs = pre' ++ a :: post' ∧ pre = (threaded step pre' s).1 ∧
      b = (step a (threaded step pre' s).2).1 := by
  induction xs generalizing s pre with
  | nil => simp [threaded] at h
  | cons x xs ih =>
    rw [threaded] at h
    cases pre with
    | nil =>
      obtain ⟨rfl, _⟩ := List.cons_eq_cons.mp h
      exact ⟨[], x, xs, rfl, rfl, rfl⟩
    | cons c pre =>
      obtain ⟨rfl, hrest⟩ := List.cons_eq_cons.mp h
      obtain ⟨pre', a, post', rfl, rfl, rfl⟩ := ih hrest
      exact ⟨x :: pre', a, post', rfl, rfl, rfl⟩

-- ════════════════════════════════════════════════════════════════════════
-- Blocks
-- ════════════════════════════════════════════════════════════════════════

namespace Conversion

variable {f g : Function} {c : Conversion f}

theorem defsOf_joinCode (b : BlockId) (entries : List (Variable × VarId)) (r : Reg) :
    defsOf (c.joinCode b entries r) = List.range' r entries.length := by
  induction entries generalizing r with
  | nil => rfl
  | cons entry entries ih =>
    rw [joinCode, List.length_cons, List.range'_succ, ← ih (r + 1)]
    rfl

namespace Valid

/-- The instructions of a block after the conversion. -/
theorem code_eq (h : c.Valid g) (hplain : f.Plain) {b : BlockId} {block : Block}
    (hb : f.blocks[b]? = some block) : g.code b =
      c.joinCode b (c.joinVars b) (c.start b).nextReg ++ block.phis ++
        (threaded (renamedInstr f.owners) block.body (c.mid b)).1 := by
  obtain ⟨block', hblock', hphis, hbody, _⟩ := h.getElem?_eq c hplain hb
  rw [Function.code_eq_append hblock', hphis, hbody]

theorem blockCount_eq (h : c.Valid g) : g.blockCount = f.blockCount := by
  rw [h.renamed.eq, ← c.blockCount_placed]
  simp [Function.assembled, Function.blockCount]

theorem succs_eq (h : c.Valid g) (hplain : f.Plain) (b : BlockId) : g.succs b = f.succs b := by
  cases hb : f.blocks[b]? with
  | some block =>
    obtain ⟨block', hblock', _, _, _, _, hsuccs⟩ := h.getElem?_eq c hplain hb
    rw [Function.succs_of_getElem? hblock', Function.succs_of_getElem? hb, hsuccs]
  | none =>
    have hge : f.blockCount ≤ b := by simpa [Function.blockCount] using hb
    have hb' : g.blocks[b]? = none := Array.getElem?_eq_none (by
      rw [← Function.blockCount, h.blockCount_eq]
      exact hge)
    rw [Function.succs, Function.succs, hb, hb']

theorem preds_eq (h : c.Valid g) (hplain : f.Plain) (b : BlockId) : g.preds b = f.preds b := by
  cases hb : f.blocks[b]? with
  | some block =>
    obtain ⟨block', hblock', _, _, _, hpreds, _⟩ := h.getElem?_eq c hplain hb
    rw [Function.preds_of_getElem? hblock', Function.preds_of_getElem? hb, hpreds]
  | none =>
    have hge : f.blockCount ≤ b := by simpa [Function.blockCount] using hb
    have hb' : g.blocks[b]? = none := Array.getElem?_eq_none (by
      rw [← Function.blockCount, h.blockCount_eq]
      exact hge)
    rw [Function.preds, Function.preds, hb, hb']

/-- How many new registers a block gets. -/
theorem nextReg_fin (h : c.Valid g) (hplain : f.Plain) {b : BlockId} {block : Block}
    (hb : f.blocks[b]? = some block) : (c.fin b).nextReg = (c.start b).nextReg +
      ((c.joinVars b).length + (block.body.filterMap (·.dst.owner? f.owners)).length) := by
  obtain ⟨_, _, _, _, hfin, _⟩ := h.getElem?_eq c hplain hb
  rw [hfin, threaded_renamedInstr_snd, Versions.nextReg_pushAll, mid, Versions.nextReg_pushAll,
    List.length_map, Nat.add_assoc]

/-- What a block writes after the conversion: the registers of no variable that it wrote before, and the
registers that the counter went through. -/
theorem perm_defs (h : c.Valid g) (hrun : f.Runnable) {b : BlockId} (hb : b < f.blockCount) :
    (defsOf (g.code b)).Perm (plainDefs f.owners (f.code b) ++
      List.range' (c.start b).nextReg ((c.fin b).nextReg - (c.start b).nextReg)) := by
  obtain ⟨block, hblock⟩ := Function.exists_getElem?_blocks hb
  have hphis : plainDefs f.owners block.phis = defsOf block.phis := by
    refine List.filterMap_congr fun phi hphi => ?_
    rw [(hrun.phi b block hblock phi hphi).1]
    rfl
  have hcode : plainDefs f.owners (f.code b) = defsOf block.phis ++ plainDefs f.owners block.body := by
    rw [Function.code_eq_append hblock, plainDefs_append, hphis]
  have hmid : (c.mid b).nextReg = (c.start b).nextReg + (c.joinVars b).length := by
    rw [mid, Versions.nextReg_pushAll, List.length_map]
  have hbody := perm_defsOf_renamed f.owners block.body (c.mid b)
  rw [hmid] at hbody
  rw [h.code_eq hrun.toPlain hblock, defsOf_append, defsOf_append, defsOf_joinCode, hcode,
    h.nextReg_fin hrun.toPlain hblock, Nat.add_sub_cancel_left, ← List.range'_append_1]
  generalize List.range' (c.start b).nextReg (c.joinVars b).length = joins
  simp only [List.append_assoc]
  refine ((hbody.append_left _).append_left _).trans ?_
  refine (List.perm_append_comm_assoc joins _ _).trans (List.Perm.append_left _ ?_)
  exact List.perm_append_comm_assoc joins _ _

/-- The registers that a block writes after the conversion. -/
theorem mem_defs (h : c.Valid g) (hrun : f.Runnable) {b : BlockId} (hb : b < f.blockCount) {r : Reg} :
    r ∈ defsOf (g.code b) ↔ (r ∈ defsOf (f.code b) ∧ ¬ f.IsVarReg r) ∨
      (c.start b).nextReg ≤ r ∧ r < (c.fin b).nextReg := by
  rw [(h.perm_defs hrun hb).mem_iff, List.mem_append, mem_plainDefs hrun.vars, List.mem_range'_1]
  have hle : (c.start b).nextReg ≤ (c.fin b).nextReg := by
    obtain ⟨block, hblock⟩ := Function.exists_getElem?_blocks hb
    rw [h.nextReg_fin hrun.toPlain hblock]
    exact Nat.le_add_right _ _
  rw [Nat.add_sub_cancel' hle]

end Valid

end Conversion

/-- In a list of lists, an element occurs at most once if it does in each of them and occurs in no two. -/
theorem count_flatMap_le_one {α : Type} {xs : List α} {code : α → List Reg} {r : Reg}
    (hnodup : xs.Nodup) (hone : ∀ x ∈ xs, (code x).count r ≤ 1)
    (hapart : ∀ x ∈ xs, ∀ y ∈ xs, r ∈ code x → r ∈ code y → x = y) :
    (xs.flatMap code).count r ≤ 1 := by
  induction xs with
  | nil => simp
  | cons x xs ih =>
    rw [List.nodup_cons] at hnodup
    rw [List.flatMap_cons, List.count_append]
    by_cases hr : r ∈ code x
    · have hrest : (xs.flatMap code).count r = 0 := by
        refine List.count_eq_zero.mpr fun hmem => ?_
        obtain ⟨y, hy, hry⟩ := List.mem_flatMap.mp hmem
        obtain rfl := hapart x List.mem_cons_self y (List.mem_cons_of_mem _ hy) hr hry
        exact hnodup.1 hy
      rw [hrest]
      exact hone x List.mem_cons_self
    · rw [List.count_eq_zero.mpr hr, Nat.zero_add]
      exact ih hnodup.2 (fun y hy => hone y (List.mem_cons_of_mem _ hy))
        fun y hy z hz => hapart y (List.mem_cons_of_mem _ hy) z (List.mem_cons_of_mem _ hz)

/-- In a list of lists, an element that occurs at most once occurs in one of them only. -/
theorem eq_of_count_flatMap {α : Type} {xs : List α} {code : α → List Reg} {r : Reg}
    (hone : (xs.flatMap code).count r ≤ 1) {x y : α} (hx : x ∈ xs) (hy : y ∈ xs)
    (hrx : r ∈ code x) (hry : r ∈ code y) : x = y := by
  have hpos : ∀ {z : α} {zs : List α}, z ∈ zs → r ∈ code z → 0 < (zs.flatMap code).count r :=
    fun hz hr => List.count_pos_iff.mpr (List.mem_flatMap.mpr ⟨_, hz, hr⟩)
  induction xs with
  | nil => cases hx
  | cons z xs ih =>
    rw [List.flatMap_cons, List.count_append] at hone
    rcases List.mem_cons.mp hx with rfl | hx' <;> rcases List.mem_cons.mp hy with rfl | hy'
    · rfl
    · have h₁ := List.count_pos_iff.mpr hrx
      have h₂ := hpos hy' hry
      omega
    · have h₁ := List.count_pos_iff.mpr hry
      have h₂ := hpos hx' hrx
      omega
    · exact ih (by omega) hx' hy'

/-- Two blocks that write a register are the same if it is written once. -/
theorem Function.eq_of_defCount {f : Function} {r : Reg} (hone : f.defCount r ≤ 1) {a b : BlockId}
    (ha : r ∈ defsOf (f.code a)) (hb : r ∈ defsOf (f.code b)) : a = b := by
  rw [defCount_eq_code] at hone
  exact eq_of_count_flatMap hone (List.mem_range.mpr (lt_of_mem_defsOf ha))
    (List.mem_range.mpr (lt_of_mem_defsOf hb)) ha hb

namespace Conversion.Valid

variable {f g : Function} {c : Conversion f}

/-- The new registers of a block come after all registers of the function and the entry versions of the
parameters. -/
theorem regCount_le_start (h : c.Valid g) {b : BlockId} (hb : b < f.blockCount) :
    f.regCount ≤ f.withEntryVersions.regCount ∧
      f.withEntryVersions.regCount ≤ (c.start b).nextReg :=
  ⟨f.regCount_le_withEntryVersions, h.renamed.low b (c.lt_placed hb)⟩

/-- No register is handed out in two blocks. -/
theorem eq_of_handed (h : c.Valid g) {a b : BlockId} (ha : a < f.blockCount) (hb : b < f.blockCount) {r : Reg}
    (hra : (c.start a).nextReg ≤ r ∧ r < (c.fin a).nextReg)
    (hrb : (c.start b).nextReg ≤ r ∧ r < (c.fin b).nextReg) : a = b := by
  by_contra hne
  rcases h.renamed.apart a (c.lt_placed ha) b (c.lt_placed hb) hne with hle | hle
  · exact Nat.lt_irrefl r (Nat.lt_of_lt_of_le hra.2 (Nat.le_trans hle hrb.1))
  · exact Nat.lt_irrefl r (Nat.lt_of_lt_of_le hrb.2 (Nat.le_trans hle hra.1))

theorem count_defs (h : c.Valid g) (hrun : f.Runnable) {b : BlockId} (hb : b < f.blockCount) (r : Reg) :
    (defsOf (g.code b)).count r = (plainDefs f.owners (f.code b)).count r +
      (List.range' (c.start b).nextReg ((c.fin b).nextReg - (c.start b).nextReg)).count r := by
  rw [(h.perm_defs hrun hb).count_eq, List.count_append]

/-- An old register is written where it was written before, unless it belongs to a variable. -/
theorem defCount_of_lt (h : c.Valid g) (hrun : f.Runnable) {r : Reg} (hlt : r < f.regCount) :
    g.defCount r =
      ((List.range f.blockCount).flatMap fun b => plainDefs f.owners (f.code b)).count r := by
  rw [Function.defCount_eq_code, h.blockCount_eq, List.count_flatMap, List.count_flatMap]
  congr 1
  refine List.map_congr_left fun b hb => ?_
  have hb' := List.mem_range.mp hb
  have hnone : (List.range' (c.start b).nextReg
      ((c.fin b).nextReg - (c.start b).nextReg)).count r = 0 := by
    refine List.count_eq_zero.mpr fun hr => Nat.not_lt.mpr ?_ hlt
    obtain ⟨hlow, hstart⟩ := h.regCount_le_start hb'
    exact Nat.le_trans (Nat.le_trans hlow hstart) (List.mem_range'_1.mp hr).1
  rw [Function.comp_apply, Function.comp_apply, h.count_defs hrun hb', hnone, Nat.add_zero]

/-- A register that belongs to no variable is written as often as before. -/
theorem count_plainDefs_eq_defCount (hvars : f.VarsApart) {r : Reg} (hvar : ¬ f.IsVarReg r) :
    ((List.range f.blockCount).flatMap fun b => plainDefs f.owners (f.code b)).count r = f.defCount r := by
  rw [Function.defCount_eq_code, List.count_flatMap, List.count_flatMap]
  congr 1
  exact List.map_congr_left fun b _ => count_plainDefs hvars hvar (f.code b)

/-- After the conversion no register is written twice. -/
theorem defCount_le_one (h : c.Valid g) (hrun : f.Runnable)
    (hbelow : ∀ b, ∀ i ∈ f.code b, i.Below f.regCount)
    (hsingle : ∀ r, ¬ f.IsVarReg r → f.defCount r ≤ 1) (r : Reg) : g.defCount r ≤ 1 := by
  have hold : ∀ b, r ∈ plainDefs f.owners (f.code b) → r < f.regCount ∧ ¬ f.IsVarReg r := by
    intro b hr
    obtain ⟨hdef, hvar⟩ := (mem_plainDefs hrun.vars).mp hr
    obtain ⟨i, hi, hdef⟩ := mem_defsOf.mp hdef
    exact ⟨(hbelow b i hi).dst r hdef, hvar⟩
  by_cases hlt : r < f.regCount
  · rw [h.defCount_of_lt hrun hlt]
    by_cases hvar : f.IsVarReg r
    · rw [List.count_eq_zero.mpr fun hr => ?_]
      · exact Nat.zero_le _
      · obtain ⟨b, _, hr⟩ := List.mem_flatMap.mp hr
        exact (hold b hr).2 hvar
    · rw [count_plainDefs_eq_defCount hrun.vars hvar]
      exact hsingle r hvar
  · -- A new register belongs to one block.
    have hbounds : ∀ x ∈ List.range f.blockCount, r ∈ defsOf (g.code x) →
        (c.start x).nextReg ≤ r ∧ r < (c.fin x).nextReg := by
      intro x hx hr
      refine ((h.mem_defs hrun (List.mem_range.mp hx)).mp hr).resolve_left fun ⟨hdef, hvar⟩ => hlt ?_
      exact (hold x ((mem_plainDefs hrun.vars).mpr ⟨hdef, hvar⟩)).1
    rw [Function.defCount_eq_code, h.blockCount_eq]
    refine count_flatMap_le_one List.nodup_range (fun b hb => ?_) fun a ha b hb hra hrb => ?_
    · rw [h.count_defs hrun (List.mem_range.mp hb), List.count_eq_zero.mpr fun hr => hlt (hold b hr).1,
        Nat.zero_add]
      exact List.nodup_iff_count_le_one.mp List.nodup_range' r
    · exact h.eq_of_handed (List.mem_range.mp ha) (List.mem_range.mp hb) (hbounds a ha hra) (hbounds b hb hrb)

end Conversion.Valid

end MiddleEnd
