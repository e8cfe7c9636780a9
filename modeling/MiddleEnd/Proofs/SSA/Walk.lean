import MiddleEnd.Proofs.Dominance.Tour
import MiddleEnd.Proofs.SSA.Versions

/-!
# The renaming walk

The walk over the dominator tree succeeds and enters every block once. What it makes of a block
depends only on the versions in force when the block is entered, and these are the ones that its parent
in the tree leaves, or those of the parameters when it has no parent.

## Main definitions

* `Function.after`: the versions in force at the end of a block.
* `fillFrom`: a phi with the arguments that are known.
* `Function.assembled`: the function with some blocks renamed and some arguments filled in.
* `Renamer.Open`: what the stacks hold when some blocks were entered and not left.
* `Renamer.Enters`: the states of the walk before and after it enters a block.
* `Function.RenamedTo`: what is known about the function after renaming.
* `Function.WalksTo`: what is known about the walk that renames it.

## Main statements

* `Renamer.Walked.enter`, `Renamer.Walked.run`: one visit, and all visits that follow the tree.
* `Function.renameVariables_walksTo`: renaming a function succeeds.
-/

namespace MiddleEnd

-- ════════════════════════════════════════════════════════════════════════
-- Parameters
-- ════════════════════════════════════════════════════════════════════════

/-- The versions on entry: the parameters are counted from `next`. -/
theorem getElem?_entryVersions (vars : List Variable) (next : Reg) (v : VarId) :
    (entryVersions vars next).1[v]? = vars[v]?.map fun var =>
      if var.isParam then some (next + (vars.take v).countP (·.isParam)) else none := by
  induction vars generalizing next v with
  | nil => simp [entryVersions]
  | cons var vars ih =>
    cases v with
    | zero => by_cases hparam : var.isParam <;> simp [entryVersions, hparam]
    | succ v =>
      by_cases hparam : var.isParam
      · simp only [entryVersions, hparam, if_true, List.getElem?_cons_succ, ih, List.take_succ_cons,
          List.countP_cons_of_pos]
        congr 1
        funext var
        split
        · congr 1
          lia
        · rfl
      · simp [entryVersions, hparam, ih]

theorem entryVersions_snd (vars : List Variable) (next : Reg) :
    (entryVersions vars next).2 = next + vars.countP (·.isParam) := by
  induction vars generalizing next with
  | nil => rfl
  | cons var vars ih =>
    by_cases hparam : var.isParam
    · simp only [entryVersions, hparam, if_true, ih, List.countP_cons_of_pos]
      lia
    · simp [entryVersions, hparam, ih]

theorem length_entryVersions (vars : List Variable) (next : Reg) :
    (entryVersions vars next).1.length = vars.length := by
  induction vars generalizing next with
  | nil => rfl
  | cons var vars ih => by_cases hparam : var.isParam <;> simp [entryVersions, hparam, ih]

namespace Function

/-- The register that holds the argument of the variable `v` on entry. -/
def paramVersion? (f : Function) (v : VarId) : Option Reg := f.paramVersions[v]?.join

theorem paramVersion?_eq_some_iff (f : Function) {v : VarId} {r : Reg} :
    f.withEntryVersions.paramVersion? v = some r ↔ ∃ var, f.vars[v]? = some var ∧
      var.isParam = true ∧ r = f.regCount + (f.vars.take v).countP (·.isParam) := by
  simp only [paramVersion?, withEntryVersions, getElem?_entryVersions]
  cases hvar : f.vars[v]? with
  | none => simp
  | some var =>
    by_cases hparam : var.isParam
    · simp only [hparam, if_true, Option.map_some, Option.join_some, Option.some.injEq]
      exact ⟨fun h => ⟨var, rfl, hparam, h.symm⟩, fun ⟨_, _, _, h⟩ => h.symm⟩
    · simp [hparam]

theorem regCount_le_withEntryVersions (f : Function) : f.regCount ≤ f.withEntryVersions.regCount := by
  simp only [withEntryVersions, entryVersions_snd]
  exact Nat.le_add_right _ _

/-- The entry versions are new. -/
theorem paramVersion?_bounds (f : Function) {v : VarId} {r : Reg}
    (h : f.withEntryVersions.paramVersion? v = some r) :
    f.regCount ≤ r ∧ r < f.withEntryVersions.regCount := by
  obtain ⟨var, hvar, hparam, rfl⟩ := f.paramVersion?_eq_some_iff.mp h
  obtain ⟨hlt, rfl⟩ := List.getElem?_eq_some_iff.mp hvar
  refine ⟨Nat.le_add_right _ _, ?_⟩
  simp only [withEntryVersions, entryVersions_snd]
  refine Nat.add_lt_add_left ?_ _
  have hsplit := congrArg (List.countP (·.isParam)) (List.take_append_drop v f.vars)
  rw [List.countP_append, List.drop_eq_getElem_cons hlt, List.countP_cons_of_pos hparam] at hsplit
  omega

/-- Different variables have different entry versions. -/
theorem paramVersion?_inj (f : Function) {u v : VarId} {r : Reg}
    (hu : f.withEntryVersions.paramVersion? u = some r)
    (hv : f.withEntryVersions.paramVersion? v = some r) : u = v := by
  have hless : ∀ {u v : VarId}, u < v → f.withEntryVersions.paramVersion? u = some r →
      f.withEntryVersions.paramVersion? v ≠ some r := by
    intro u v huv hu hv
    obtain ⟨varU, hvarU, hparam, hrU⟩ := f.paramVersion?_eq_some_iff.mp hu
    obtain ⟨varV, hvarV, _, hrV⟩ := f.paramVersion?_eq_some_iff.mp hv
    obtain ⟨hltU, rfl⟩ := List.getElem?_eq_some_iff.mp hvarU
    have hsub : (f.vars.take (u + 1)).Sublist (f.vars.take v) :=
      (List.take_prefix_take_left huv).sublist
    have hcount := hsub.countP_le (p := fun var : Variable => var.isParam)
    rw [List.take_succ_eq_append_getElem hltU, List.countP_append,
      List.countP_singleton, if_pos hparam] at hcount
    simp only [Reg] at hrU hrV
    omega
  rcases Nat.lt_trichotomy u v with h | h | h
  · exact absurd hv (hless h hu)
  · exact h
  · exact absurd hu (hless h hv)

/-- The stacks on entry hold the versions of the parameters. -/
def entryStacks (f : Function) : Array (List Reg) :=
  (f.withEntryVersions.paramVersions.map Option.toList).toArray

theorem size_entryStacks (f : Function) : f.entryStacks.size = f.vars.length := by
  simp [entryStacks, withEntryVersions, length_entryVersions]

theorem getD_entryStacks (f : Function) (v : VarId) :
    f.entryStacks[v]?.getD [] = (f.withEntryVersions.paramVersion? v).toList := by
  simp only [entryStacks, List.getElem?_toArray, List.getElem?_map, paramVersion?]
  cases f.withEntryVersions.paramVersions[v]? <;> simp

end Function

-- ════════════════════════════════════════════════════════════════════════
-- Filling in arguments
-- ════════════════════════════════════════════════════════════════════════

/-- What a phi for the variable `v` takes from a block: the version in force at its end. -/
def PhiArg.fill (vars : List Variable) (known : BlockId → Option Versions) (v : VarId)
    (arg : PhiArg) : PhiArg :=
  match known arg.pred with
  | some s => { arg with value := s.reading v (vars[v]?.bind (·.ty)) }
  | none => arg

/-- A phi with the arguments that come from blocks whose versions are known. -/
def fillFrom (vars : List Variable) (known : BlockId → Option Versions) (phi : Instr) : Instr :=
  match phi.phiVar? with
  | none => phi
  | some v => phi.mapPhiArgs (List.map (PhiArg.fill vars known v))

section Fill

variable (vars : List Variable) (known : BlockId → Option Versions) (phi : Instr)

@[simp]
theorem PhiArg.fill_pred (v : VarId) (arg : PhiArg) : (arg.fill vars known v).pred = arg.pred := by
  unfold PhiArg.fill
  split <;> rfl

@[simp]
theorem fillFrom_opcode : (fillFrom vars known phi).opcode = phi.opcode := by
  unfold fillFrom Instr.mapPhiArgs
  split
  · rfl
  · split <;> rfl

@[simp]
theorem fillFrom_dst : (fillFrom vars known phi).dst = phi.dst := by
  unfold fillFrom Instr.mapPhiArgs
  split
  · rfl
  · split <;> rfl

@[simp]
theorem fillFrom_isPhi : (fillFrom vars known phi).isPhi = phi.isPhi := by
  simp [Instr.isPhi]

theorem fillFrom_of_none (h : phi.phiVar? = none) : fillFrom vars known phi = phi := by
  simp [fillFrom, h]

theorem fillFrom_detail {v : VarId} {args : List PhiArg} (h : phi.detail = .phi (some v) args) :
    fillFrom vars known phi =
      { phi with detail := .phi (some v) (args.map (PhiArg.fill vars known v)) } := by
  simp [fillFrom, Instr.phiVar?, Instr.mapPhiArgs, h]

/-- A phi that joins a variable carries its arguments. -/
theorem Instr.detail_of_phiVar? {phi : Instr} {v : VarId} (h : phi.phiVar? = some v) :
    phi.detail = .phi (some v) phi.phiArgs := by
  unfold Instr.phiVar? at h
  unfold Instr.phiArgs
  split at h
  · subst h
    simp [*]
  · cases h

/-- Renaming a phi and filling in its arguments do not interfere. -/
theorem renamedPhi_fillFrom (s : Versions) : renamedPhi (fillFrom vars known phi) s =
    (fillFrom vars known (renamedPhi phi s).1, (renamedPhi phi s).2) := by
  cases hvar : phi.phiVar? with
  | none =>
    have hrenamed : (renamedPhi phi s).1.phiVar? = none := hvar
    rw [fillFrom_of_none vars known phi hvar, fillFrom_of_none vars known _ hrenamed]
  | some v =>
    have hdetail := Instr.detail_of_phiVar? hvar
    rw [fillFrom_detail vars known phi hdetail, fillFrom_detail vars known _
      (show (renamedPhi phi s).1.detail = .phi (some v) phi.phiArgs from hdetail)]
    simp [renamedPhi, Instr.phiVar?, hdetail]

theorem threaded_renamedPhi_map (phis : List Instr) (s : Versions) :
    threaded renamedPhi (phis.map (fillFrom vars known)) s =
      ((threaded renamedPhi phis s).1.map (fillFrom vars known), (threaded renamedPhi phis s).2) := by
  induction phis generalizing s with
  | nil => rfl
  | cons phi phis ih => simp [threaded, renamedPhi_fillFrom, ih]

end Fill

/-- Among arguments from different blocks, the first one from `pred` is the only one. -/
theorem setArgFrom_map {g : PhiArg → PhiArg} (hg : ∀ arg, (g arg).pred = arg.pred) (pred : BlockId)
    (value : Operand) {args : List PhiArg} (hnodup : (args.map (·.pred)).Nodup) :
    setArgFrom pred value (args.map g) =
      args.map fun arg => if arg.pred = pred then { g arg with value } else g arg := by
  induction args with
  | nil => rfl
  | cons arg args ih =>
    rw [List.map_cons, List.nodup_cons] at hnodup
    rw [List.map_cons, setArgFrom, hg]
    by_cases hpred : arg.pred = pred
    · have hrest : ∀ other ∈ args, other.pred ≠ pred := by
        intro other hother heq
        exact hnodup.1 (List.mem_map.mpr ⟨other, hother, heq.trans hpred.symm⟩)
      simp only [hpred, if_true, List.map_cons, List.cons.injEq, hg, true_and]
      refine List.map_congr_left fun other hother => ?_
      rw [if_neg (hrest other hother)]
    · simp [hpred, ih hnodup.2]

/-- What is known, with the versions at the end of `b` besides. -/
def learn (known : BlockId → Option Versions) (b : BlockId) (s : Versions) :
    BlockId → Option Versions :=
  fun p => if p = b then some s else known p

section Learn

variable {known : BlockId → Option Versions} {b c : BlockId} {s s' : Versions}

@[simp]
theorem learn_self : learn known b s b = some s := if_pos rfl

theorem learn_ne (h : c ≠ b) : learn known b s c = known c := if_neg h

/-- Learning about a new block keeps what is known. -/
theorem learn_of_some (hnew : known b = none) (hc : known c = some s') : learn known b s c = some s' := by
  refine (learn_ne ?_).trans hc
  rintro rfl
  exact Option.some_ne_none _ (hc.symm.trans hnew)

/-- What is known afterwards was learned, or was known before about another block. -/
theorem learn_eq_some (h : learn known b s c = some s') : c = b ∧ s = s' ∨ c ≠ b ∧ known c = some s' := by
  by_cases hc : c = b
  · subst hc
    exact .inl ⟨rfl, Option.some.inj (learn_self.symm.trans h)⟩
  · exact .inr ⟨hc, (learn_ne hc).symm.trans h⟩

end Learn

/-- Filling in what a phi takes from `b` adds it to what is known. -/
theorem fillPhi_eq {vars : List Variable} {known : BlockId → Option Versions} {s : Versions}
    {b : BlockId} {phi : Instr}
    (hphi : ∀ v, phi.phiVar? = some v → v < vars.length ∧ (phi.phiArgs.map (·.pred)).Nodup)
    (hs : s.versionStacks.size = vars.length) :
    fillPhi vars s b (fillFrom vars known phi) = .ok (fillFrom vars (learn known b s) phi) := by
  cases hvar : phi.phiVar? with
  | none => rw [fillFrom_of_none vars _ phi hvar, fillFrom_of_none vars _ phi hvar, fillPhi, hvar]
  | some v =>
    obtain ⟨hv, hnodup⟩ := hphi v hvar
    have hdetail := Instr.detail_of_phiVar? hvar
    have hfill : ∀ arg : PhiArg,
        (if arg.pred = b then
          { arg.fill vars known v with value := s.reading v (vars[v]?.bind (·.ty)) }
        else arg.fill vars known v) = arg.fill vars (learn known b s) v := by
      intro arg
      by_cases hpred : arg.pred = b
      · simp only [PhiArg.fill, learn, hpred, if_true]
        cases known b <;> simp [hpred]
      · simp [PhiArg.fill, learn, hpred]
    have hset := setArgFrom_map (PhiArg.fill_pred vars known v) b
      (s.reading v (vars[v]?.bind (·.ty))) hnodup
    rw [funext hfill] at hset
    have hget : vars[v]? = some vars[v] := List.getElem?_eq_getElem hv
    rw [fillFrom_detail vars _ phi hdetail, fillFrom_detail vars _ phi hdetail, ← hset]
    simp only [fillPhi, Instr.phiVar?, Versions.current_eq (hs ▸ hv), ok_bind, Versions.reading]
    cases (s.stack v).head? with
    | none => rfl
    | some r => simp only [hget, require_some, ok_bind]; rfl

-- ════════════════════════════════════════════════════════════════════════
-- The function during the walk
-- ════════════════════════════════════════════════════════════════════════

/-- Instructions that are all phis, followed by some that do not start with a phi. -/
theorem phis_append {phis body : List Instr} (hphis : ∀ i ∈ phis, i.isPhi = true)
    (hbody : ∀ i ∈ body.head?, i.isPhi = false) :
    (phis ++ body).takeWhile (·.isPhi) = phis ∧ (phis ++ body).dropWhile (·.isPhi) = body := by
  have hnil : body.takeWhile (·.isPhi) = [] ∧ body.dropWhile (·.isPhi) = body := by
    cases body with
    | nil => exact ⟨rfl, rfl⟩
    | cons i body => simp [hbody i (by simp)]
  rw [List.takeWhile_append_of_pos hphis, List.dropWhile_append_of_pos hphis, hnil.1, hnil.2]
  simp

theorem Block.isPhi_of_mem_phis {block : Block} {i : Instr} (h : i ∈ block.phis) :
    i.isPhi = true :=
  List.all_eq_true.mp List.all_takeWhile i h

theorem Block.isPhi_head_body (block : Block) : ∀ i ∈ block.body.head?, i.isPhi = false := by
  intro i hi
  have hnot := List.head?_dropWhile_not (fun i : Instr => i.isPhi) block.instrs
  rw [show block.instrs.dropWhile (·.isPhi) = block.body from rfl, Option.mem_def.mp hi] at hnot
  simpa using hnot

namespace Function

/-- What renaming needs to know about a function whose phis are in place: its variables have registers
of their own, and each phi for a variable has at most one argument for each predecessor. -/
structure Joined (f : Function) : Prop where
  vars : f.VarsApart
  joins : ∀ b block, f.blocks[b]? = some block → ∀ phi ∈ block.phis, ∀ v, phi.phiVar? = some v →
    v < f.vars.length ∧ (∃ r ty, phi.dst = .reg r ty) ∧ (phi.phiArgs.map (·.pred)).Nodup ∧
      ∀ arg ∈ phi.phiArgs, arg.pred ∈ f.preds b

/-- The variables that get a version in a block. -/
def versionedIn (f : Function) (b : BlockId) : List VarId :=
  match f.blocks[b]? with
  | some block => block.joinedVars ++ block.writtenVars f.owners
  | none => []

/-- The versions in force at the end of a block, given those at its start. -/
def after (f : Function) (b : BlockId) (s : Versions) : Versions := s.pushAll (f.versionedIn b)

/-- The phis of a block, renamed if the versions at its start are known. -/
def phisAt (start : Option Versions) (block : Block) : List Instr :=
  match start with
  | some s => (threaded renamedPhi block.phis s).1
  | none => block.phis

/-- The other instructions of a block, renamed if the versions at its start are known. -/
def bodyAt (f : Function) (start : Option Versions) (block : Block) : List Instr :=
  match start with
  | some s => (threaded (renamedInstr f.owners) block.body (threaded renamedPhi block.phis s).2).1
  | none => block.body

/-- A block during the walk: renamed if the versions at its start are known, and with the arguments
filled in that come from blocks with known versions at the end. -/
def blockAt (f : Function) (start : Option Versions) (known : BlockId → Option Versions)
    (block : Block) : Block :=
  { block with
    instrs := (phisAt start block).map (fillFrom f.vars known) ++ f.bodyAt start block }

/-- The function during the walk. -/
def assembled (f : Function) (starts : BlockId → Option Versions)
    (known : BlockId → BlockId → Option Versions) (count : Nat) : Function :=
  { f.withEntryVersions with
    blocks := f.blocks.mapIdx fun b block => f.blockAt (starts b) (known b) block
    regCount := count }

end Function

/-- Each element of the result comes from an element of the list. -/
theorem mem_threaded {α β σ : Type} {step : α → σ → β × σ} {xs : List α} {s : σ} {b : β}
    (h : b ∈ (threaded step xs s).1) : ∃ a ∈ xs, ∃ s', b = (step a s').1 := by
  induction xs generalizing s with
  | nil => cases h
  | cons a xs ih =>
    rcases List.mem_cons.mp h with rfl | h
    · exact ⟨a, List.mem_cons_self, s, rfl⟩
    · obtain ⟨a', ha', s', rfl⟩ := ih h
      exact ⟨a', List.mem_cons_of_mem _ ha', s', rfl⟩

theorem head?_threaded {α β σ : Type} (step : α → σ → β × σ) (xs : List α) (s : σ) :
    (threaded step xs s).1.head? = xs.head?.map fun a => (step a s).1 := by
  cases xs <;> rfl

namespace Function

section Assembled

variable (f : Function) (starts : BlockId → Option Versions)
  (known : BlockId → BlockId → Option Versions) (count : Nat) (b : BlockId)

/-- The phis of a block, renamed or not, come from phis with the same variable and arguments. -/
theorem mem_phisAt {start : Option Versions} {block : Block} {phi' : Instr}
    (h : phi' ∈ phisAt start block) :
    ∃ phi ∈ block.phis, phi'.opcode = phi.opcode ∧ phi'.detail = phi.detail := by
  cases start with
  | none => exact ⟨phi', h, rfl, rfl⟩
  | some s =>
    obtain ⟨phi, hphi, s', rfl⟩ := mem_threaded h
    exact ⟨phi, hphi, rfl, rfl⟩

theorem isPhi_of_mem_phisAt {start : Option Versions} {block : Block} {phi : Instr}
    (h : phi ∈ phisAt start block) : phi.isPhi = true := by
  obtain ⟨phi', hphi', hopcode, _⟩ := mem_phisAt h
  rw [Instr.isPhi, hopcode]
  exact Block.isPhi_of_mem_phis hphi'

theorem isPhi_head_bodyAt (start : Option Versions) (block : Block) :
    ∀ i ∈ (f.bodyAt start block).head?, i.isPhi = false := by
  intro i hi
  cases start with
  | none => exact block.isPhi_head_body i hi
  | some s =>
    rw [bodyAt, head?_threaded] at hi
    obtain ⟨j, hj, rfl⟩ := Option.map_eq_some_iff.mp hi
    exact block.isPhi_head_body j hj

theorem getElem?_assembled : (f.assembled starts known count).blocks[b]? =
    f.blocks[b]?.map (f.blockAt (starts b) (known b)) := by
  simp [assembled]

theorem blockAt_split (start : Option Versions) (known : BlockId → Option Versions)
    (block : Block) :
    (f.blockAt start known block).phis = (phisAt start block).map (fillFrom f.vars known) ∧
      (f.blockAt start known block).body = f.bodyAt start block := by
  refine phis_append (fun i hi => ?_) (f.isPhi_head_bodyAt start block)
  obtain ⟨phi, hphi, rfl⟩ := List.mem_map.mp hi
  rw [fillFrom_isPhi]
  exact isPhi_of_mem_phisAt hphi

@[simp]
theorem phis_blockAt (start : Option Versions) (known : BlockId → Option Versions) (block : Block) :
    (f.blockAt start known block).phis = (phisAt start block).map (fillFrom f.vars known) :=
  (f.blockAt_split start known block).1

@[simp]
theorem body_blockAt (start : Option Versions) (known : BlockId → Option Versions) (block : Block) :
    (f.blockAt start known block).body = f.bodyAt start block :=
  (f.blockAt_split start known block).2

end Assembled

variable {f : Function} {starts : BlockId → Option Versions}
  {known : BlockId → BlockId → Option Versions} {count : Nat} {b c : BlockId} {s : Versions}

/-- A function with the blocks that it has during the walk is the function during the walk. -/
theorem eq_assembled {g : Function}
    (hblocks : ∀ b, g.blocks[b]? = f.blocks[b]?.map (f.blockAt (starts b) (known b)))
    (hrest : { g with blocks := f.blocks } = { f.withEntryVersions with regCount := count }) :
    g = f.assembled starts known count := by
  have heq : g.blocks = (f.assembled starts known count).blocks :=
    Array.ext_getElem? fun b => (hblocks b).trans (f.getElem?_assembled starts known count b).symm
  calc g = { { g with blocks := f.blocks } with blocks := g.blocks } := rfl
    _ = f.assembled starts known count := by rw [hrest, heq]; rfl

/-- Two functions are the same if they differ only in what they know about blocks from which no
argument comes. -/
theorem assembled_congr (hjoined : f.Joined) (known' : BlockId → BlockId → Option Versions)
    (h : ∀ b, ∀ p ∈ f.preds b, known b p = known' b p) :
    f.assembled starts known count = f.assembled starts known' count := by
  refine eq_assembled (fun b => ?_) rfl
  rw [getElem?_assembled]
  cases hb : f.blocks[b]? with
  | none => rfl
  | some block =>
    have hphis : (phisAt (starts b) block).map (fillFrom f.vars (known b)) =
        (phisAt (starts b) block).map (fillFrom f.vars (known' b)) := by
      refine List.map_congr_left fun phi hphi => ?_
      obtain ⟨phi', hphi', _, hdetail⟩ := mem_phisAt hphi
      cases hvar : phi.phiVar? with
      | none => rw [fillFrom_of_none _ _ _ hvar, fillFrom_of_none _ _ _ hvar]
      | some v =>
        have hphi := Instr.detail_of_phiVar? hvar
        rw [fillFrom_detail _ _ _ hphi, fillFrom_detail _ _ _ hphi]
        have hvar' : phi'.phiVar? = some v := by
          rw [Instr.phiVar?, ← hdetail, hphi]
        have hargs : phi.phiArgs = phi'.phiArgs := by
          rw [Instr.phiArgs, Instr.phiArgs, hdetail]
        have hmap : phi.phiArgs.map (PhiArg.fill f.vars (known b) v) =
            phi.phiArgs.map (PhiArg.fill f.vars (known' b) v) := by
          refine List.map_congr_left fun arg harg => ?_
          have hpred := (hjoined.joins b block hb phi' hphi' v hvar').2.2.2 arg (hargs ▸ harg)
          rw [PhiArg.fill, PhiArg.fill, h b arg.pred hpred]
        rw [hmap]
    simp [blockAt, hphis]

/-- Filling in the phis of one block. -/
theorem fillPhis_assembled (hjoined : f.Joined) (hs : s.versionStacks.size = f.vars.length)
    (hc : c < f.blockCount) :
    fillPhis s b (f.assembled starts known count) c =
      .ok (f.assembled starts (fun j => if j = c then learn (known c) b s else known j) count) := by
  have hc' : f.blocks[c]? = some f.blocks[c] := Array.getElem?_eq_getElem hc
  have hblock : (f.assembled starts known count).block c =
      .ok (f.blockAt (starts c) (known c) f.blocks[c]) := by
    rw [block, getElem?_assembled, hc']
    rfl
  have hfill : ((phisAt (starts c) f.blocks[c]).map (fillFrom f.vars (known c))).mapM
      (fillPhi f.vars s b) =
        .ok ((phisAt (starts c) f.blocks[c]).map (fillFrom f.vars (learn (known c) b s))) := by
    rw [List.mapM_map]
    refine mapM_eq_ok fun phi hphi => fillPhi_eq (fun v hv => ?_) hs
    obtain ⟨phi', hphi', _, hdetail⟩ := mem_phisAt hphi
    have hargs : phi.phiArgs = phi'.phiArgs := by rw [Instr.phiArgs, Instr.phiArgs, hdetail]
    have hvar' : phi'.phiVar? = some v := by rw [← hv, Instr.phiVar?, Instr.phiVar?, hdetail]
    obtain ⟨hlt, _, hnodup, _⟩ := hjoined.joins c _ hc' phi' hphi' v hvar'
    exact ⟨hlt, hargs ▸ hnodup⟩
  have hvars : (f.assembled starts known count).vars = f.vars := rfl
  simp only [fillPhis, hblock, ok_bind, phis_blockAt, body_blockAt, hvars, hfill]
  refine congrArg Except.ok (eq_assembled (fun j => ?_) rfl)
  change ((f.assembled starts known count).setBlock c
    (f.blockAt (starts c) (learn (known c) b s) f.blocks[c])).blocks[j]? = _
  simp only [setBlock, modifyBlock, Array.getElem?_modify, getElem?_assembled]
  by_cases hj : c = j
  · subst hj
    simp [hc']
  · simp [hj, Ne.symm hj]

/-- Filling in the phis of all successors of a block. -/
theorem foldlM_fillPhis (b : BlockId) (starts : BlockId → Option Versions)
    (known : BlockId → BlockId → Option Versions) (count : Nat) (hjoined : f.Joined)
    (hs : s.versionStacks.size = f.vars.length)
    {targets : List BlockId} (htargets : ∀ c ∈ targets, c < f.blockCount) :
    targets.foldlM (fillPhis s b) (f.assembled starts known count) =
      .ok (f.assembled starts (fun j => if j ∈ targets then learn (known j) b s else known j)
        count) := by
  obtain ⟨g, hg, heq⟩ := foldlM_induction (fillPhis s b)
    (fun done g => g = f.assembled starts
      (fun j => if j ∈ done then learn (known j) b s else known j) count) targets
    (f.assembled starts known count) (by simp)
    (by
      rintro pre c post g hsplit rfl
      have hc : c < f.blockCount := htargets c (by simp [hsplit])
      refine ⟨_, fillPhis_assembled hjoined hs hc, congrArg (f.assembled starts · count) ?_⟩
      funext j p
      by_cases hj : j = c
      · subst hj
        by_cases hp : p = b <;> by_cases hpre : j ∈ pre <;> simp [hp, hpre, learn]
      · simp [hj])
  rw [hg, heq]

end Function

-- ════════════════════════════════════════════════════════════════════════
-- Visits
-- ════════════════════════════════════════════════════════════════════════

namespace Renamer

/-- The versions with which a block is entered. -/
def start (w : Renamer) : Versions := { nextReg := w.fn.regCount, versionStacks := w.versionStacks }

/-- What is known about a stay of the walk in the block `b`, which started with the versions `s`. -/
structure Stay (f : Function) (starts : BlockId → Option Versions) (count : Nat) (b : BlockId)
    (s : Versions) : Prop where
  lt : b < f.blockCount
  size : s.versionStacks.size = f.vars.length
  low : f.withEntryVersions.regCount ≤ s.nextReg
  high : (f.after b s).nextReg ≤ count
  bounded : ∀ v, ∀ r ∈ s.stack v, f.regCount ≤ r ∧ r < s.nextReg
  /-- The walk comes from the parent of the block. -/
  child : ∀ d, f.idom? b = some d →
    ∃ s', starts d = some s' ∧ s.versionStacks = (f.after d s').versionStacks
  root : f.idom? b = none → s.versionStacks = f.entryStacks

/-- What is known during the walk, where `starts` tells the versions at the start of each block that
was entered. -/
structure Walked (f : Function) (starts : BlockId → Option Versions) (w : Renamer) : Prop where
  fn : w.fn = f.assembled starts (fun _ p => (starts p).map (f.after p)) w.fn.regCount
  size : w.versionStacks.size = f.vars.length
  low : f.withEntryVersions.regCount ≤ w.fn.regCount
  bounded : ∀ v, ∀ r ∈ w.start.stack v, f.regCount ≤ r ∧ r < w.fn.regCount
  stay : ∀ b s, starts b = some s → Stay f starts w.fn.regCount b s
  /-- No two stays hand out the same register. -/
  apart : ∀ b c s s', b ≠ c → starts b = some s → starts c = some s' →
    (f.after b s).nextReg ≤ s'.nextReg ∨ (f.after c s').nextReg ≤ s.nextReg
  /-- Every register after those of the parameters was handed out during a stay. -/
  covered : ∀ r, f.withEntryVersions.regCount ≤ r → r < w.fn.regCount →
    ∃ b s, starts b = some s ∧ s.nextReg ≤ r ∧ r < (f.after b s).nextReg

/-- The walk comes to the block `b` from its parent, or with the versions of the parameters. -/
structure Comes (f : Function) (starts : BlockId → Option Versions) (w : Renamer) (b : BlockId) :
    Prop where
  lt : b < f.blockCount
  child : ∀ d, f.idom? b = some d →
    ∃ s, starts d = some s ∧ w.versionStacks = (f.after d s).versionStacks
  root : f.idom? b = none → w.versionStacks = f.entryStacks

variable {f : Function} {starts : BlockId → Option Versions} {w : Renamer} {b : BlockId}

/-- Renaming the block that is entered, before the phis of its successors are filled in. -/
theorem Walked.rename (h : Walked f starts w) (hjoined : f.Joined) (hb : b < f.blockCount)
    (hnew : starts b = none) :
    ∃ block instrs, w.fn.block b = .ok block ∧ block.succs = f.succs b ∧
      renameInstrs f.owners block w.start = .ok (instrs, f.after b w.start) ∧
      { w.fn.setBlock b { block with instrs } with
          regCount := (f.after b w.start).nextReg } =
        f.assembled (learn starts b w.start) (fun _ p => (starts p).map (f.after p))
          (f.after b w.start).nextReg := by
  have hb' : f.blocks[b]? = some f.blocks[b] := Array.getElem?_eq_getElem hb
  let known : BlockId → Option Versions := fun p => (starts p).map (f.after p)
  have hblock : w.fn.blocks[b]? = some (f.blockAt none known f.blocks[b]) := by
    rw [h.fn, Function.getElem?_assembled, hb', hnew]
    rfl
  have hjoins : f.JoinsVars (f.blockAt none known f.blocks[b]) := by
    intro phi hphi v hv
    rw [Function.phis_blockAt] at hphi
    obtain ⟨phi', hphi', rfl⟩ := List.mem_map.mp hphi
    have hv' : phi'.phiVar? = some v := by
      cases hvar : phi'.phiVar? with
      | none => rw [fillFrom_of_none _ _ _ hvar, hvar] at hv; cases hv
      | some u =>
        rw [fillFrom_detail _ _ _ (Instr.detail_of_phiVar? hvar)] at hv
        exact hv
    obtain ⟨hlt, hdst, _⟩ := hjoined.joins b _ hb' phi' hphi' v hv'
    exact ⟨hlt, by rw [fillFrom_dst]; exact hdst⟩
  refine ⟨f.blockAt none known f.blocks[b],
    (f.blockAt (some w.start) known f.blocks[b]).instrs, ?_, ?_, ?_, ?_⟩
  · rw [Function.block, hblock]
    rfl
  · rw [Function.succs, hb']
    rfl
  · rw [renameInstrs_eq hjoined.vars hjoins h.size, renamedCode, Function.phis_blockAt,
      Function.body_blockAt, Function.phisAt, threaded_renamedPhi_map]
    refine congrArg Except.ok (Prod.ext rfl ?_)
    rw [Function.after, Function.versionedIn, hb', Versions.pushAll_append,
      threaded_renamedInstr_snd, threaded_renamedPhi_snd]
    rfl
  · refine Function.eq_assembled (fun j => ?_) (by rw [h.fn]; rfl)
    change (w.fn.setBlock b (f.blockAt (some w.start) known f.blocks[b])).blocks[j]? = _
    simp only [Function.setBlock, Function.modifyBlock, Array.getElem?_modify]
    rw [h.fn, Function.getElem?_assembled]
    by_cases hj : b = j
    · subst hj
      simp [hb', learn, known]
    · simp [hj, learn, Ne.symm hj]

/-- A stay is not affected by what is learned about other blocks. -/
theorem Stay.learn {count count' : Nat} {c : BlockId} {s s' : Versions}
    (h : Stay f starts count c s) (hnew : starts b = none) (hcount : count ≤ count') :
    Stay f (learn starts b s') count' c s where
  lt := h.lt
  size := h.size
  low := h.low
  high := Nat.le_trans h.high hcount
  bounded := h.bounded
  child d hd := by
    obtain ⟨s'', hs'', heq⟩ := h.child d hd
    exact ⟨s'', learn_of_some hnew hs'', heq⟩
  root := h.root

/-- The state of the walk once the block `b` has been entered. -/
def entered (f : Function) (starts : BlockId → Option Versions) (w : Renamer) (b : BlockId) : Renamer where
  fn := f.assembled (learn starts b w.start) (fun _ p => (learn starts b w.start p).map (f.after p))
    (f.after b w.start).nextReg
  versionStacks := (f.after b w.start).versionStacks
  frames := (f.after b w.start).pushed :: w.frames

theorem Walked.size_after (h : Walked f starts w) (b : BlockId) :
    (f.after b w.start).versionStacks.size = f.vars.length := by
  rw [Function.after, Versions.size_pushAll]
  exact h.size

/-- Entering a block succeeds. -/
theorem Walked.enter_eq (h : Walked f starts w) (hjoined : f.Joined) (hlinked : f.Linked)
    (hb : b < f.blockCount) (hnew : starts b = none) :
    w.enter f.owners b = .ok (entered f starts w b) := by
  obtain ⟨block, instrs, hblock, hsuccs, hrename, hfn⟩ := h.rename hjoined hb hnew
  have hfill := Function.foldlM_fillPhis b (learn starts b w.start)
    (fun _ p => (starts p).map (f.after p)) (f.after b w.start).nextReg hjoined (h.size_after b)
    (hlinked.succs_lt b)
  have hknown : f.assembled (learn starts b w.start)
      (fun j => if j ∈ f.succs b then
        learn (fun p => (starts p).map (f.after p)) b (f.after b w.start)
      else fun p => (starts p).map (f.after p)) (f.after b w.start).nextReg =
      (entered f starts w b).fn := by
    refine Function.assembled_congr hjoined _ fun j p hp => ?_
    by_cases hpb : p = b
    · subst hpb
      simp [(hlinked.mem_preds p j).mp hp]
    · by_cases hj : j ∈ f.succs b <;> simp [hj, learn_ne hpb]
  have hfold := hfill.trans (congrArg Except.ok hknown)
  rw [← hsuccs, ← hfn] at hfold
  exact bind_eq_ok.mpr ⟨block, hblock, bind_eq_ok.mpr ⟨_, hrename, bind_eq_ok.mpr ⟨_, hfold, rfl⟩⟩⟩

/-- A stay in the block that is entered starts with the versions in force. -/
theorem Walked.stay_start (h : Walked f starts w) (hcomes : Comes f starts w b) (hnew : starts b = none) :
    Stay f (learn starts b w.start) (f.after b w.start).nextReg b w.start where
  lt := hcomes.lt
  size := h.size
  low := h.low
  high := Nat.le_refl _
  bounded := h.bounded
  child d hd := by
    obtain ⟨s, hs, heq⟩ := hcomes.child d hd
    exact ⟨s, learn_of_some hnew hs, heq⟩
  root := hcomes.root

/-- Once a block has been entered, the walk knows the versions at its start. -/
theorem Walked.entered (h : Walked f starts w) (hcomes : Comes f starts w b) (hnew : starts b = none) :
    Walked f (learn starts b w.start) (Renamer.entered f starts w b) := by
  have hgrow : w.fn.regCount ≤ (f.after b w.start).nextReg := by
    rw [Function.after, Versions.nextReg_pushAll]
    exact Nat.le_add_right _ _
  -- The new stay starts where all others have ended.
  have hlast : ∀ c s, starts c = some s → (f.after c s).nextReg ≤ w.start.nextReg :=
    fun c s hs => (h.stay c s hs).high
  exact {
    fn := rfl
    size := h.size_after b
    low := Nat.le_trans h.low hgrow
    bounded v r hr := by
      rcases Versions.mem_stack_pushAll w.start hr with hr | ⟨hge, hlt⟩
      · have hbound := h.bounded v r hr
        exact ⟨hbound.1, Nat.lt_of_lt_of_le hbound.2 hgrow⟩
      · exact ⟨Nat.le_trans f.regCount_le_withEntryVersions (Nat.le_trans h.low hge), hlt⟩
    stay c s hs := by
      rcases learn_eq_some hs with ⟨rfl, rfl⟩ | ⟨_, hold⟩
      · exact h.stay_start hcomes hnew
      · exact (h.stay c s hold).learn hnew hgrow
    apart c d s s' hne hs hs' := by
      rcases learn_eq_some hs with ⟨rfl, rfl⟩ | ⟨_, hold⟩ <;>
        rcases learn_eq_some hs' with ⟨rfl, rfl⟩ | ⟨_, hold'⟩
      · exact absurd rfl hne
      · exact .inr (hlast d s' hold')
      · exact .inl (hlast c s hold)
      · exact h.apart c d s s' hne hold hold'
    covered r hge hlt := by
      by_cases hold : r < w.fn.regCount
      · obtain ⟨c, s, hs, hbounds⟩ := h.covered r hge hold
        exact ⟨c, s, learn_of_some hnew hs, hbounds⟩
      · exact ⟨b, w.start, learn_self, Nat.not_lt.mp hold, hlt⟩ }

/-- Entering a block succeeds. Afterwards the versions at its end are in force, and the walk knows
those at its start. -/
theorem Walked.enter (h : Walked f starts w) (hjoined : f.Joined) (hlinked : f.Linked)
    (hcomes : Comes f starts w b) (hnew : starts b = none) :
    ∃ w', w.enter f.owners b = .ok w' ∧ Walked f (learn starts b w.start) w' ∧
      w'.versionStacks = (f.after b w.start).versionStacks ∧
      w'.frames = (f.after b w.start).pushed :: w.frames :=
  ⟨_, h.enter_eq hjoined hlinked hcomes.lt hnew, h.entered hcomes hnew, rfl, rfl⟩

/-- Leaving a block takes back its versions. -/
theorem leave_eq {s : Versions} {frames : List (List VarId)} {vs : List VarId}
    (hstacks : w.versionStacks = (s.pushAll vs).versionStacks) (hpushed : s.pushed = [])
    (hframes : w.frames = (s.pushAll vs).pushed :: frames) :
    w.leave = { w with versionStacks := s.versionStacks, frames } := by
  obtain ⟨new, hnew, hpop⟩ := s.pop_pushAll vs
  rw [hpushed, List.append_nil] at hnew
  simp only [leave, hframes, hnew, hstacks, hpop]

/-- What a walk may not change. -/
theorem Walked.restore (h : Walked f starts w) {table : Array (List Reg)}
    {frames : List (List VarId)} (hsize : table.size = f.vars.length)
    (hbounded : ∀ v : VarId, ∀ r ∈ table[v]?.getD [], f.regCount ≤ r ∧ r < w.fn.regCount) :
    Walked f starts { w with versionStacks := table, frames } where
  fn := h.fn
  size := hsize
  low := h.low
  bounded := hbounded
  stay := h.stay
  apart := h.apart
  covered := h.covered

/-- What the stacks hold when the blocks on a path were entered and not left, the last one first: the versions of
each block lie on top of those that were there when it was entered, and at the bottom lie those of the
parameters. -/
inductive Open (f : Function) (starts : BlockId → Option Versions) :
    List BlockId → Array (List Reg) → List (List VarId) → Prop
  | outside : Open f starts [] f.entryStacks []
  | inside {b : BlockId} {path : List BlockId} {s : Versions} {frames : List (List VarId)}
    (hs : starts b = some s) (hpushed : s.pushed = []) (h : Open f starts path s.versionStacks frames) :
    Open f starts (b :: path) (f.after b s).versionStacks ((f.after b s).pushed :: frames)

namespace Open

variable {path : List BlockId} {table : Array (List Reg)} {frames : List (List VarId)}

theorem mono {starts' : BlockId → Option Versions} (h : Open f starts path table frames)
    (hkeep : ∀ b s, starts b = some s → starts' b = some s) : Open f starts' path table frames := by
  induction h with
  | outside => exact .outside
  | inside hs hpushed _ ih => exact .inside (hkeep _ _ hs) hpushed ih

/-- The walk comes to a block from the block that was entered last. -/
theorem comes (h : Open f starts path table frames) (hstacks : w.versionStacks = table)
    (hb : b < f.blockCount) (hup : f.idom? b = path.head?) : Comes f starts w b := by
  cases h with
  | outside => exact ⟨hb, fun d hd => (Option.some_ne_none d (hd.symm.trans hup)).elim, fun _ => hstacks⟩
  | inside hs _ _ =>
    refine ⟨hb, fun d hd => ?_, fun hroot => (Option.some_ne_none _ (hup.symm.trans hroot)).elim⟩
    obtain rfl := Option.some.inj (hup.symm.trans hd)
    exact ⟨_, hs, hstacks⟩

end Open

/-- The state of the walk before and after it enters the block `b`, among visits that start with `w`. -/
def Enters (owners : Array (Option VarId)) (w : Renamer) (visits : List Visit) (b : BlockId)
    (w₁ w₂ : Renamer) : Prop :=
  ∃ pre post, visits = pre ++ .enter b :: post ∧ pre.foldlM (visit owners) w = .ok w₁ ∧
    w₁.enter owners b = .ok w₂

/-- A block is entered by the first visit or by a later one. -/
theorem Enters.of_cons {owners : Array (Option VarId)} {w' w₁ w₂ : Renamer} {first : Visit}
    {visits : List Visit} (hfirst : w.visit owners first = .ok w')
    (h : Enters owners w (first :: visits) b w₁ w₂) :
    first = .enter b ∧ w₁ = w ∧ w₂ = w' ∨ Enters owners w' visits b w₁ w₂ := by
  obtain ⟨pre, post, hsplit, hrun, henter⟩ := h
  cases pre with
  | nil =>
    obtain ⟨rfl, rfl⟩ := List.cons.inj hsplit
    obtain rfl := Except.ok.inj hrun
    exact .inl ⟨rfl, rfl, Except.ok.inj (henter.symm.trans hfirst)⟩
  | cons _ pre =>
    obtain ⟨rfl, rfl⟩ := List.cons.inj hsplit
    rw [List.foldlM_cons, hfirst] at hrun
    exact .inr ⟨pre, post, rfl, hrun, henter⟩

/-- Visits that succeed come to each block that they enter. -/
theorem exists_enters {owners : Array (Option VarId)} {w' : Renamer} {visits : List Visit}
    (hrun : visits.foldlM (visit owners) w = .ok w') (hb : b ∈ Visit.entered visits) :
    ∃ w₁ w₂, Enters owners w visits b w₁ w₂ := by
  obtain ⟨pre, post, rfl⟩ := List.append_of_mem (Visit.mem_entered.mp hb)
  rw [List.foldlM_append] at hrun
  obtain ⟨w₁, hpre, hrun⟩ := bind_eq_ok.mp hrun
  rw [List.foldlM_cons] at hrun
  obtain ⟨w₂, henter, _⟩ := bind_eq_ok.mp hrun
  exact ⟨w₁, w₂, pre, post, rfl, hpre, henter⟩

/-- Visits that follow the tree and enter new blocks succeed. They learn the versions with which each block is
entered. -/
theorem Walked.run {path path' : List BlockId} {visits : List Visit} (hjoined : f.Joined)
    (hlinked : f.Linked) (hfollows : Visit.Follows f.idom? path visits path') (h : Walked f starts w)
    (hopen : Open f starts path w.versionStacks w.frames)
    (hlt : ∀ b ∈ Visit.entered visits, b < f.blockCount) (hnodup : (Visit.entered visits).Nodup)
    (hnew : ∀ b ∈ Visit.entered visits, starts b = none) :
    ∃ starts' w', visits.foldlM (visit f.owners) w = .ok w' ∧ Walked f starts' w' ∧
      Open f starts' path' w'.versionStacks w'.frames ∧
      (∀ b, b ∉ Visit.entered visits → starts' b = starts b) ∧
      ∀ b w₁ w₂, Enters f.owners w visits b w₁ w₂ → starts' b = some w₁.start ∧
        w₂.versionStacks = (f.after b w₁.start).versionStacks := by
  -- By induction on the visits, where `starts` takes up each block that is entered.
  induction hfollows generalizing starts w with
  | nil =>
    exact ⟨starts, w, rfl, h, hopen, fun _ _ => rfl, fun _ _ _ ⟨pre, _, hsplit, _⟩ => by simp at hsplit⟩
  | @enter b path path' visits hup _ ih =>
    rw [Visit.entered_enter_cons] at hlt hnodup hnew
    obtain ⟨hfresh, hnodup⟩ := List.nodup_cons.mp hnodup
    have hnone := hnew b List.mem_cons_self
    obtain ⟨w₁, henter, hw₁, hstacks₁, hframes₁⟩ :=
      h.enter hjoined hlinked (hopen.comes rfl (hlt b List.mem_cons_self) hup) hnone
    have hopen₁ : Open f (learn starts b w.start) (b :: path) w₁.versionStacks w₁.frames := by
      rw [hstacks₁, hframes₁]
      exact .inside learn_self rfl (hopen.mono fun c s hs => learn_of_some hnone hs)
    have hnew₁ : ∀ c ∈ Visit.entered visits, learn starts b w.start c = none := by
      intro c hc
      have hne : c ≠ b := by
        rintro rfl
        exact hfresh hc
      exact (learn_ne hne).trans (hnew c (List.mem_cons_of_mem _ hc))
    obtain ⟨starts', w', hrun, hw', hopen', hkept, henters⟩ := ih hw₁ hopen₁
      (fun c hc => hlt c (List.mem_cons_of_mem _ hc)) hnodup hnew₁
    refine ⟨starts', w', ?_, hw', hopen', fun c hc => ?_, fun c w₂ w₃ hc => ?_⟩
    · simp only [List.foldlM_cons, visit, henter, ok_bind, hrun]
    · rw [Visit.entered_enter_cons, List.mem_cons, not_or] at hc
      exact (hkept c hc.2).trans (learn_ne hc.1)
    · have hvisit : w.visit f.owners (.enter b) = .ok w₁ := henter
      obtain ⟨heq, rfl, rfl⟩ | hlater := hc.of_cons hvisit
      · obtain rfl := Visit.enter.inj heq
        exact ⟨(hkept b hfresh).trans learn_self, hstacks₁⟩
      · exact henters c w₂ w₃ hlater
  | @leave b path path' visits _ ih =>
    rw [Visit.entered_leave_cons] at hlt hnodup hnew
    generalize hstacks : w.versionStacks = table, hframes : w.frames = frames at hopen
    cases hopen with
    | @inside _ _ s frames hs hpushed hopen =>
      have hleave : w.leave = { w with versionStacks := s.versionStacks, frames } :=
        leave_eq hstacks hpushed hframes
      have hstay := h.stay b s hs
      have hgrow : s.nextReg ≤ w.fn.regCount := by
        have hhigh := hstay.high
        rw [Function.after, Versions.nextReg_pushAll] at hhigh
        exact Nat.le_trans (Nat.le_add_right _ _) hhigh
      have hrestored : Walked f starts { w with versionStacks := s.versionStacks, frames } :=
        h.restore hstay.size fun v r hr =>
          ⟨(hstay.bounded v r hr).1, Nat.lt_of_lt_of_le (hstay.bounded v r hr).2 hgrow⟩
      rw [← hleave] at hrestored
      obtain ⟨starts', w', hrun, hw', hopen', hkept, henters⟩ :=
        ih hrestored (by rw [hleave]; exact hopen) hlt hnodup hnew
      refine ⟨starts', w', hrun, hw', hopen', hkept, fun c w₁ w₂ hc => ?_⟩
      exact henters c w₁ w₂ ((hc.of_cons rfl).resolve_left fun heq => Visit.noConfusion heq.1)

end Renamer

-- ════════════════════════════════════════════════════════════════════════
-- Functions
-- ════════════════════════════════════════════════════════════════════════

namespace Function

/-- What is known about the function `g` that renaming makes of `f`, where `start` tells the versions
at the start of each block. -/
structure RenamedTo (f : Function) (start : BlockId → Versions) (g : Function) : Prop where
  eq : g = f.assembled (fun b => some (start b)) (fun _ p => some (f.after p (start p))) g.regCount
  size : ∀ b < f.blockCount, (start b).versionStacks.size = f.vars.length
  low : ∀ b < f.blockCount, f.withEntryVersions.regCount ≤ (start b).nextReg
  high : ∀ b < f.blockCount, (f.after b (start b)).nextReg ≤ g.regCount
  bounded : ∀ b < f.blockCount, ∀ v, ∀ r ∈ (start b).stack v,
    f.regCount ≤ r ∧ r < (start b).nextReg
  child : ∀ b d, f.idom? b = some d →
    (start b).versionStacks = (f.after d (start d)).versionStacks
  root : ∀ b < f.blockCount, f.idom? b = none → (start b).versionStacks = f.entryStacks
  apart : ∀ b < f.blockCount, ∀ c < f.blockCount, b ≠ c →
    (f.after b (start b)).nextReg ≤ (start c).nextReg ∨
      (f.after c (start c)).nextReg ≤ (start b).nextReg
  low_count : f.withEntryVersions.regCount ≤ g.regCount
  covered : ∀ r, f.withEntryVersions.regCount ≤ r → r < g.regCount →
    ∃ b < f.blockCount, (start b).nextReg ≤ r ∧ r < (f.after b (start b)).nextReg

/-- At the start of the walk nothing is renamed. -/
theorem assembled_none (f : Function) :
    f.assembled (fun _ => none) (fun _ _ => none) f.withEntryVersions.regCount =
      f.withEntryVersions := by
  have hfill : ∀ phi : Instr, fillFrom f.vars (fun _ => none) phi = phi := by
    intro phi
    cases hvar : phi.phiVar? with
    | none => exact fillFrom_of_none _ _ _ hvar
    | some v =>
      have hdetail := Instr.detail_of_phiVar? hvar
      have hargs : phi.phiArgs.map (PhiArg.fill f.vars (fun _ => none) v) = phi.phiArgs :=
        List.map_id' phi.phiArgs
      rw [fillFrom_detail _ _ _ hdetail, hargs, ← hdetail]
  refine (eq_assembled (fun b => ?_) rfl).symm
  change f.blocks[b]? = _
  cases f.blocks[b]? with
  | none => rfl
  | some block =>
    simp only [Option.map_some, blockAt, phisAt, bodyAt, List.map_congr_left fun i _ => hfill i,
      List.map_id']
    simp [Block.phis, Block.body]

/-- The state of the walk before the first visit. -/
def renamer (f : Function) : Renamer := { fn := f.withEntryVersions, versionStacks := f.entryStacks }

/-- What is known about the walk over all trees, where `start` tells the versions at the start of each block
and `w` is the state at the end. -/
structure WalksTo (f : Function) (t : DomTree) (start : BlockId → Versions) (w : Renamer) : Prop where
  run : t.fullTour.foldlM (Renamer.visit f.owners) f.renamer = .ok w
  renamed : f.RenamedTo start w.fn
  restored : w.versionStacks = f.entryStacks
  enters : ∀ b w₁ w₂, Renamer.Enters f.owners f.renamer t.fullTour b w₁ w₂ →
    w₁.versionStacks = (start b).versionStacks ∧ w₂.versionStacks = (f.after b (start b)).versionStacks

/-- The walk over all trees renames the function. -/
theorem exists_walksTo {f : Function} {order : List BlockId} {t : DomTree} (hjoined : f.Joined)
    (h : f.Toured order t) : ∃ w start, f.WalksTo t start w := by
  have hstart : Renamer.Walked f (fun _ => none) f.renamer := by
    refine ⟨f.assembled_none.symm, f.size_entryStacks, Nat.le_refl _, fun v r hr => ?_,
      fun b s hs => (Option.some_ne_none s hs.symm).elim,
      fun b c s s' _ hs => (Option.some_ne_none s hs.symm).elim,
      fun r hge hlt => absurd hge (Nat.not_le.mpr hlt)⟩
    rw [Renamer.start, renamer, Versions.stack, getD_entryStacks, Option.mem_toList] at hr
    exact f.paramVersion?_bounds hr
  obtain ⟨starts, w, hrun, hw, hopen, -, henters⟩ := hstart.run hjoined h.linked h.follows_fullTour
    .outside (fun b hb => h.mem_entered_iff.mp hb) h.nodup_entered fun _ _ => rfl
  have hstacks : w.versionStacks = f.entryStacks := by
    generalize w.versionStacks = table, w.frames = frames at hopen
    cases hopen
    rfl
  have hentered : ∀ b, b < f.blockCount → ∃ s, starts b = some s := by
    intro b hb
    obtain ⟨w₁, w₂, henter⟩ := Renamer.exists_enters hrun (h.mem_entered_iff.mpr hb)
    exact ⟨_, (henters b w₁ w₂ henter).1⟩
  let start : BlockId → Versions := fun b => (starts b).getD { nextReg := 0, versionStacks := #[] }
  have hget : ∀ b, b < f.blockCount → starts b = some (start b) := by
    intro b hb
    obtain ⟨s, hs⟩ := hentered b hb
    simp [start, hs]
  have hstay := fun b hb => hw.stay b (start b) (hget b hb)
  refine ⟨w, start, hrun, ?_, hstacks, fun b w₁ w₂ henter => ?_⟩
  swap
  · obtain ⟨hb, hafter⟩ := henters b w₁ w₂ henter
    have heq : start b = w₁.start := by simp [start, hb]
    rw [heq]
    exact ⟨rfl, hafter⟩
  refine ⟨?_, fun b hb => (hstay b hb).size, fun b hb => (hstay b hb).low,
    fun b hb => (hstay b hb).high, fun b hb => (hstay b hb).bounded, fun b d hd => ?_,
    fun b hb => (hstay b hb).root, fun b hb c hc hne => ?_, hw.low, fun r hge hlt => ?_⟩
  · refine hw.fn.trans ?_
    rw [assembled_congr hjoined fun _ p => some (f.after p (start p))]
    · refine eq_assembled (fun b => ?_) rfl
      rw [getElem?_assembled]
      by_cases hb : b < f.blockCount
      · rw [hget b hb]
      · rw [Array.getElem?_eq_none (Nat.not_lt.mp hb)]
        rfl
    · intro b p hp
      rw [hget p (lt_of_mem_succs ((h.linked.mem_preds p b).mp hp))]
      rfl
  · obtain ⟨hb, hd'⟩ := h.lt_of_idom hd
    obtain ⟨s, hs, heq⟩ := (hstay b hb).child d hd
    rw [hget d hd', Option.some.injEq] at hs
    exact hs ▸ heq
  · exact hw.apart b c (start b) (start c) hne (hget b hb) (hget c hc)
  · obtain ⟨b, s, hs, hbounds⟩ := hw.covered r hge hlt
    have hb := (hw.stay b s hs).lt
    obtain rfl := Option.some.inj (hs.symm.trans (hget b hb))
    exact ⟨b, hb, hbounds⟩

/-- Without variables no register belongs to one. -/
theorem owner?_of_isEmpty {f : Function} (hvars : f.VarsApart) (hnil : f.vars = []) (operand : Operand) :
    operand.owner? f.owners = none := by
  refine Option.eq_none_iff_forall_ne_some.mpr fun v hv => ?_
  have hlt := lt_of_owner? hvars hv
  simp [hnil] at hlt

/-- Without variables no phi is for one. -/
theorem Joined.phiVar?_of_isEmpty {f : Function} (hjoined : f.Joined) (hnil : f.vars = []) {b : BlockId}
    {block : Block} (hb : f.blocks[b]? = some block) : ∀ phi ∈ block.phis, phi.phiVar? = none := by
  intro phi hphi
  refine Option.eq_none_iff_forall_ne_some.mpr fun v hv => ?_
  have hlt := (hjoined.joins b block hb phi hphi v hv).1
  simp [hnil] at hlt

theorem threaded_renamedPhi_of_none {phis : List Instr} (h : ∀ phi ∈ phis, phi.phiVar? = none)
    (s : Versions) : threaded renamedPhi phis s = (phis, s) := by
  induction phis with
  | nil => rfl
  | cons phi phis ih =>
    have hnone := h phi List.mem_cons_self
    simp [threaded, renamedPhi, hnone, Operand.redirected,
      ih fun q hq => h q (List.mem_cons_of_mem _ hq)]

theorem threaded_renamedInstr_of_none {owners : Array (Option VarId)}
    (h : ∀ operand : Operand, operand.owner? owners = none) (body : List Instr) (s : Versions) :
    threaded (renamedInstr owners) body s = (body, s) := by
  induction body with
  | nil => rfl
  | cons i body ih => simp [threaded, renamedInstr, h, Operand.redirected, Operand.renamed, ih]

/-- Without variables no block makes a version. -/
theorem Joined.versionedIn_of_isEmpty {f : Function} (hjoined : f.Joined) (hnil : f.vars = []) (b : BlockId) :
    f.versionedIn b = [] := by
  rw [versionedIn]
  cases hb : f.blocks[b]? with
  | none => rfl
  | some block =>
    have hjoin : block.joinedVars = [] :=
      List.filterMap_eq_nil_iff.mpr (hjoined.phiVar?_of_isEmpty hnil hb)
    have hwritten : block.writtenVars f.owners = [] :=
      List.filterMap_eq_nil_iff.mpr fun i _ => owner?_of_isEmpty hjoined.vars hnil i.dst
    simp [hjoin, hwritten]

/-- Without variables there is nothing to rename. -/
theorem RenamedTo.eq_of_isEmpty {f g : Function} {start : BlockId → Versions} (h : f.RenamedTo start g)
    (hjoined : f.Joined) (hvars : f.vars = []) : g = f.withEntryVersions := by
  -- No block makes a version, so no register was handed out.
  have hcount : g.regCount = f.withEntryVersions.regCount := by
    refine Nat.le_antisymm (Nat.not_lt.mp fun hlt => ?_) h.low_count
    obtain ⟨b, _, hge, hlt⟩ := h.covered _ (Nat.le_refl _) hlt
    rw [after, hjoined.versionedIn_of_isEmpty hvars] at hlt
    exact Nat.not_lt.mpr hge hlt
  refine h.eq.trans (eq_assembled (fun b => ?_) (by rw [hcount]; rfl)).symm
  change f.blocks[b]? = _
  cases hb : f.blocks[b]? with
  | none => rfl
  | some block =>
    have hnone := hjoined.phiVar?_of_isEmpty hvars hb
    have hfill : block.phis.map (fillFrom f.vars (fun p => some (f.after p (start p)))) = block.phis := by
      rw [List.map_congr_left fun phi hmem => fillFrom_of_none _ _ phi (hnone phi hmem), List.map_id']
    simp only [Option.map_some, blockAt, phisAt, bodyAt, threaded_renamedPhi_of_none hnone,
      threaded_renamedInstr_of_none (owner?_of_isEmpty hjoined.vars hvars), hfill]
    simp [Block.phis, Block.body]

/-- Renaming a function whose phis are in place succeeds. -/
theorem renameVariables_walksTo {f : Function} {order : List BlockId} {t : DomTree}
    (hjoined : f.Joined) (h : f.Toured order t) :
    ∃ w start, f.renameVariables t = .ok w.fn ∧ f.WalksTo t start w := by
  obtain ⟨w, start, hwalk⟩ := exists_walksTo hjoined h
  refine ⟨w, start, ?_, hwalk⟩
  by_cases hvars : f.vars.isEmpty
  · rw [hwalk.renamed.eq_of_isEmpty hjoined (List.isEmpty_iff.mp hvars)]
    simp [renameVariables, hvars]
  · simp only [renameVariables, hvars]
    refine bind_eq_ok.mpr ⟨f.owners, varOfReg_eq hjoined.vars.lt, ?_⟩
    exact bind_eq_ok.mpr ⟨w, hwalk.run, rfl⟩

end Function

end MiddleEnd
