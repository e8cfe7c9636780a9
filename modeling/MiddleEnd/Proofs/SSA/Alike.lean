import MiddleEnd.Proofs.IR.Alike
import MiddleEnd.SSA.Construction

/-!
# The conversion does not look at string literals

The conversion of a function to single assignment form depends on its edges, on the registers that its
instructions write and on its variables. So functions that differ only in the numbers of string literals are
converted alike.

## Main definitions

* `Renamer.Alike`: two states of the walk that differ in such numbers alone.

## Main statements

* `Function.Alike.insertPhis`, `Function.Alike.renameVariables`: the steps of the conversion.
* `Function.Alike.constructSsa`: both conversions give alike functions, or stop with the same fault.
-/

namespace MiddleEnd

variable {texts texts' : Interner}

-- ════════════════════════════════════════════════════════════════════════
-- Dominators and frontiers
-- ════════════════════════════════════════════════════════════════════════

namespace Function.Alike

variable {f f' : Function}

theorem checkBlocks_eq (h : f.Alike texts texts' f') (ids : List BlockId) :
    f'.checkBlocks ids = f.checkBlocks ids := by
  rw [checkBlocks, checkBlocks, h.size]

/-- What the blocks name, one after the other. -/
theorem flatMap_eq {γ : Type} (h : f.Alike texts texts' f') {view : Block → List γ}
    (hview : ∀ b b', b.Alike texts texts' b' → view b' = view b) :
    f'.blocks.toList.flatMap view = f.blocks.toList.flatMap view := by
  rw [List.flatMap_def, List.flatMap_def, ← Array.toList_map, ← Array.toList_map, h.map_eq hview]

theorem reversePostorder_eq (h : f.Alike texts texts' f') : f'.reversePostorder = f.reversePostorder := by
  have hsuccs : f'.allSuccs = f.allSuccs := h.flatMap_eq fun _ _ hb => hb.succs
  rw [reversePostorder, reversePostorder, Array.isEmpty, Array.isEmpty, h.size, h.checkBlocks_eq, h.entry,
    hsuccs, h.succs, h.blockCount]

theorem immediateDominators_eq (h : f.Alike texts texts' f') :
    f'.immediateDominators = f.immediateDominators := by
  have hpreds : f'.allPreds = f.allPreds := h.flatMap_eq fun _ _ hb => hb.preds
  simp only [immediateDominators, h.reversePostorder_eq, h.checkBlocks_eq, hpreds, h.blockCount, h.entry,
    h.preds]

theorem withDominators (h : f.Alike texts texts' f') :
    Agree (Function.Alike texts texts') f.withDominators f'.withDominators := by
  refine (agree_eq_iff.mpr h.immediateDominators_eq.symm).bind ?_
  rintro guesses _ rfl
  exact h.mapIdx fun _ _ _ hb => ⟨by rw [hb.rest], hb.instrs⟩

theorem idom?_eq (h : f.Alike texts texts' f') : f'.idom? = f.idom? := by
  funext b
  obtain ⟨hb, hb'⟩ | ⟨block, block', hb, hb', hblock⟩ := rel_cases (h.blocks b)
  · rw [idom?, idom?, hb, hb']
  · rw [idom?, idom?, hb, hb', hblock.rest]
    rfl

theorem pathUp_eq (h : f.Alike texts texts' f') (stop : Option BlockId) (steps : Nat) (b : BlockId) :
    f'.pathUp stop steps b = f.pathUp stop steps b := by
  induction steps generalizing b with
  | zero => rfl
  | succ steps ih =>
    unfold pathUp
    split
    · rfl
    · refine (agree_eq_iff.mp ((h.block b).bind fun block block' hblock => ?_)).symm
      rw [hblock.rest]
      simp only [ih]
      exact agree_eq_iff.mpr rfl

theorem addFrontier (h : f.Alike texts texts' f') (join b : BlockId) :
    (addFrontier join f b).Alike texts texts' (addFrontier join f' b) := by
  refine h.modifyBlock b fun block block' hblock => ?_
  have hfrontier : block'.frontier = block.frontier := by rw [hblock.rest]
  rw [hfrontier]
  split
  · exact hblock
  · exact ⟨by rw [hblock.rest], hblock.instrs⟩

theorem spreadJoin (h : f.Alike texts texts' f') (join : BlockId) :
    Agree (Function.Alike texts texts') (f.spreadJoin join) (f'.spreadJoin join) := by
  unfold Function.spreadJoin
  rw [h.preds, h.idom?_eq, h.blockCount]
  split
  · exact h
  · have hpaths : f'.pathUp (f.idom? join) (f.blockCount + 1) = f.pathUp (f.idom? join) (f.blockCount + 1) :=
      funext (h.pathUp_eq _ _)
    rw [hpaths]
    refine (agree_eq_iff.mpr rfl).bind ?_
    rintro paths _ rfl
    exact List.foldl_rel (r := Function.Alike texts texts') h fun b _ g g' hg => hg.addFrontier join b

theorem withFrontiers (h : f.Alike texts texts' f') :
    Agree (Function.Alike texts texts') f.withFrontiers f'.withFrontiers := by
  have hclear : Function.Alike texts texts' (f.mapBlocks fun block => { block with frontier := [] })
      (f'.mapBlocks fun block => { block with frontier := [] }) :=
    h.mapBlocks fun _ _ hb => ⟨by rw [hb.rest], hb.instrs⟩
  unfold Function.withFrontiers
  rw [h.blockIds]
  exact agree_foldlM (fun join _ g g' hg => hg.spreadJoin join) hclear

-- ════════════════════════════════════════════════════════════════════════
-- Phis
-- ════════════════════════════════════════════════════════════════════════

/-- The blocks that write a variable do not depend on string literals. -/
theorem defBlocks_eq (h : f.Alike texts texts' f') : f'.defBlocks = f.defBlocks := by
  have howners : f'.varOfReg = f.varOfReg := by rw [varOfReg, varOfReg, h.vars, h.regCount]
  rw [defBlocks, defBlocks, howners, h.vars]
  refine congrArg _ (funext fun owners => congrArg Except.ok ?_)
  -- Alike instructions write the same register, and alike blocks carry the same number.
  refine (List.rel_foldl (P := Eq) ?_ rfl (forall₂_toList h.blocks)).symm
  rintro table _ rfl block block' hblock
  have hid : block'.id = block.id := by rw [hblock.rest]
  dsimp only
  rw [hid]
  refine List.rel_foldl (P := Eq) ?_ rfl hblock.instrs
  rintro table _ rfl i j hi
  have howner : j.dst.owner? owners = i.dst.owner? owners := congrArg (·.bind (owners[·]?.join)) hi.def?
  rw [noteWrite, noteWrite, howner]

end Function.Alike

/-- Two states of the work for a variable are equal, except for the numbers of string literals. -/
structure Placing.Alike (texts texts' : Interner) (s s' : Placing) : Prop where
  rest : s' = { s with fn := s'.fn }
  fn : s.fn.Alike texts texts' s'.fn

theorem wordless_emptyPhi (v : VarId) (var : Variable) (preds : List BlockId) :
    (emptyPhi v var preds).Wordless := by
  refine Instr.wordless_of (Operand.wordless_reg _ _) Operand.wordless_none Operand.wordless_none ?_
  intro arg harg
  obtain ⟨pred, _, rfl⟩ := List.mem_map.mp harg
  exact Operand.wordless_none

namespace Placing.Alike

variable {s s' : Placing}

theorem placeAt (h : s.Alike texts texts' s') (v : VarId) (join : BlockId) :
    Agree (Placing.Alike texts texts') (s.placeAt v join) (s'.placeAt v join) := by
  obtain ⟨g', rfl⟩ : ∃ g', s' = { s with fn := g' } := ⟨_, h.rest⟩
  refine (h.fn.block join).bind fun block block' hblock => ?_
  split
  · exact h
  · have hvar : Agree Eq (s.fn.var v) (g'.var v) := by
      rw [Function.var, Function.var, h.fn.vars]
      exact agree_eq_iff.mpr rfl
    refine hvar.bind ?_
    rintro var _ rfl
    have hphi := hblock.withInstrs
      (.cons (.same (wordless_emptyPhi v var block.preds)) hblock.instrs)
    rw [hblock.preds]
    have hset := h.fn.setBlock join hphi
    dsimp only
    split
    · exact ⟨rfl, hset⟩
    · exact ⟨rfl, hset⟩

theorem visit (h : s.Alike texts texts' s') (v : VarId) (b : BlockId) :
    Agree (Placing.Alike texts texts') (s.visit v b) (s'.visit v b) := by
  refine (h.fn.block b).bind fun block block' hblock => ?_
  obtain ⟨instrs, rfl⟩ : ∃ instrs, block' = { block with instrs := instrs } := ⟨_, hblock.rest⟩
  exact agree_foldlM (fun join _ t t' ht => ht.placeAt v join) h

theorem pop (h : s.Alike texts texts' s') (rest : List BlockId) :
    Placing.Alike texts texts' { s with worklist := rest } { s' with worklist := rest } :=
  ⟨by rw [h.rest], h.fn⟩

theorem drain (h : s.Alike texts texts' s') (v : VarId) :
    Agree (Placing.Alike texts texts') (s.drain v) (s'.drain v) := by
  fun_induction Placing.drain v s generalizing s' with
  | case1 s hnil =>
    rw [Placing.drain_of_nil (by rw [h.rest, hnil])]
    exact h
  | case2 s b rest hlist e hvisit =>
    have hpop := (h.pop rest).visit v b
    rw [hvisit] at hpop
    have hlist' : s'.worklist = b :: rest := by rw [h.rest, hlist]
    rw [Placing.drain_of_cons hlist', hpop.eq_error]
    exact rfl
  | case3 s b rest hlist t hvisit ih =>
    obtain ⟨t', ht', halike⟩ := ((h.pop rest).visit v b).exists_of_ok hvisit
    have hlist' : s'.worklist = b :: rest := by rw [h.rest, hlist]
    rw [Placing.drain_of_cons hlist', ht']
    exact ih halike

end Placing.Alike

namespace Function.Alike

variable {f f' : Function}

theorem insertPhis (h : f.Alike texts texts' f') :
    Agree (fun (p q : Nat × Function) => p.1 = q.1 ∧ p.2.Alike texts texts' q.2) f.insertPhis
      f'.insertPhis := by
  unfold Function.insertPhis
  rw [h.vars, Array.isEmpty, Array.isEmpty, h.size, h.defBlocks_eq]
  split
  · exact ⟨rfl, h⟩
  · refine (agree_eq_iff.mpr rfl).bind ?_
    rintro table _ rfl
    refine agree_foldlM ?_ ⟨rfl, h⟩
    rintro ⟨defs, v⟩ _ ⟨count, g⟩ ⟨_, g'⟩ ⟨rfl, hg⟩
    change Agree _ (g.placePhis count v defs) (g'.placePhis count v defs)
    unfold Function.placePhis
    rw [Function.Alike.checkBlocks_eq hg]
    refine (agree_eq_iff.mpr rfl).bind ?_
    rintro _ _ rfl
    have hstart : Placing.Alike texts texts'
        { fn := g, inserted := count, worklist := defs.reverse, listed := .ofList defs }
        { fn := g', inserted := count, worklist := defs.reverse, listed := .ofList defs } := ⟨rfl, hg⟩
    refine (hstart.drain v).bind fun s s' hs => ⟨?_, hs.fn⟩
    rw [hs.rest]

/-- The dominator tree is read off the immediate dominators. -/
theorem ofFunction_eq (h : f.Alike texts texts' f') : DomTree.ofFunction f' = DomTree.ofFunction f := by
  have hparents : f'.domParents = f.domParents := by rw [domParents, domParents, h.blockIds, h.idom?_eq]
  have hchildren : f'.domChildren = f.domChildren := by
    funext b
    rw [domChildren, domChildren, h.blockIds, h.idom?_eq]
  have hidoms : f'.blocks.map (·.idom) = f.blocks.map (·.idom) := h.map_eq fun _ _ hb => by rw [hb.rest]
  rw [DomTree.ofFunction, DomTree.ofFunction, h.checkBlocks_eq, hparents, h.reversePostorder_eq, hidoms,
    h.blockIds, hchildren, h.entry]

end Function.Alike

-- ════════════════════════════════════════════════════════════════════════
-- Renaming instructions
-- ════════════════════════════════════════════════════════════════════════

/-- What holds of each answer of a computation relates it to itself. -/
theorem agree_self {ε α : Type} {R : α → α → Prop} {x : Except ε α} (h : ∀ a, x = .ok a → R a a) :
    Agree R x x := by
  cases x with
  | ok a => exact h a rfl
  | error e => exact rfl

/-- A step that treats related elements alike treats related lists alike. -/
theorem agree_threadMap {α β α' β' σ : Type} {R : α → α' → Prop} {S : β → β' → Prop}
    {step : α → σ → Except Fault (β × σ)} {step' : α' → σ → Except Fault (β' × σ)}
    (hstep : ∀ a a' s, R a a' → Agree (fun p q => S p.1 q.1 ∧ p.2 = q.2) (step a s) (step' a' s))
    {as : List α} {as' : List α'} (has : List.Forall₂ R as as') (s : σ) :
    Agree (fun p q => List.Forall₂ S p.1 q.1 ∧ p.2 = q.2) (threadMap step as s) (threadMap step' as' s) := by
  induction has generalizing s with
  | nil => exact ⟨.nil, rfl⟩
  | cons ha _ ih =>
    refine (hstep _ _ s ha).bind ?_
    rintro ⟨b, s₁⟩ ⟨b', _⟩ ⟨hb, rfl⟩
    refine (ih s₁).bind ?_
    rintro ⟨bs, s₂⟩ ⟨bs', _⟩ ⟨hbs, rfl⟩
    exact ⟨.cons hb hbs, rfl⟩

/-- Only registers can be renamed. -/
theorem Operand.wordless_of_rename {operand renamed : Operand} {r : Reg} (h : operand.rename r = .ok renamed) :
    renamed.Wordless := by
  cases operand with
  | reg old ty =>
    obtain rfl := Except.ok.inj h
    exact wordless_reg r ty
  | _ => cases h

theorem Versions.wordless_of_define {s s' : Versions} {v : VarId} {operand renamed : Operand}
    (h : s.define v operand = .ok (renamed, s')) : renamed.Wordless := by
  obtain ⟨other, hother, h⟩ := bind_eq_ok.mp h
  obtain ⟨stack, _, h⟩ := bind_eq_ok.mp h
  obtain ⟨rfl, _⟩ := Prod.mk.inj (Except.ok.inj h)
  exact Operand.wordless_of_rename hother

theorem wordless_of_renameUse {owners : Array (Option VarId)} {s : Versions} {operand renamed : Operand}
    (hoperand : operand.Wordless) (h : renameUse owners s operand = .ok renamed) : renamed.Wordless := by
  unfold renameUse at h
  split at h
  · obtain rfl := Except.ok.inj h
    exact hoperand
  · obtain ⟨current, _, h⟩ := bind_eq_ok.mp h
    split at h
    · exact Operand.wordless_of_rename h
    · obtain rfl := Except.ok.inj h
      exact Operand.wordless_int 0

theorem of_mem_setArgFrom {pred : BlockId} {value : Operand} {args : List PhiArg} {arg : PhiArg}
    (h : arg ∈ setArgFrom pred value args) : arg ∈ args ∨ arg.value = value := by
  induction args with
  | nil => exact .inl h
  | cons first rest ih =>
    unfold setArgFrom at h
    split at h
    · obtain rfl | h := List.mem_cons.mp h
      · exact .inr rfl
      · exact .inl (List.mem_cons_of_mem _ h)
    · obtain rfl | h := List.mem_cons.mp h
      · exact .inl List.mem_cons_self
      · exact (ih h).imp_left (List.mem_cons_of_mem _)

namespace Instr.Alike

variable {i j : Instr}

theorem renamePhi (h : Alike texts texts' i j) (s : Versions) :
    Agree (fun p q => Alike texts texts' p.1 q.1 ∧ p.2 = q.2) (renamePhi i s) (renamePhi j s) := by
  cases h with
  | literal h h' => exact ⟨.literal h h', rfl⟩
  | same h =>
    refine agree_self ?_
    rintro ⟨j, s'⟩ hrename
    refine ⟨.same ?_, rfl⟩
    unfold MiddleEnd.renamePhi at hrename
    split at hrename
    · obtain ⟨rfl, _⟩ := Prod.mk.inj (Except.ok.inj hrename)
      exact h
    · obtain ⟨⟨dst, s₁⟩, hdefine, hrename⟩ := bind_eq_ok.mp hrename
      obtain ⟨rfl, _⟩ := Prod.mk.inj (Except.ok.inj hrename)
      exact wordless_of (Versions.wordless_of_define hdefine) h.src1 h.src2 fun arg harg => h.arg harg

theorem renameInstr (h : Alike texts texts' i j) (owners : Array (Option VarId)) (s : Versions) :
    Agree (fun p q => Alike texts texts' p.1 q.1 ∧ p.2 = q.2) (renameInstr owners i s)
      (renameInstr owners j s) := by
  cases h with
  | @literal r ty id id' text line h h' =>
    -- A string literal is no variable.
    refine Agree.bind (R := fun o o' => o = .literal id ∧ o' = .literal id') ⟨rfl, rfl⟩ ?_
    rintro _ _ ⟨rfl, rfl⟩
    refine Agree.bind (R := fun o o' => o = .none ∧ o' = .none) ⟨rfl, rfl⟩ ?_
    rintro _ _ ⟨rfl, rfl⟩
    cases howner : (Operand.reg r ty).owner? owners with
    | none =>
      simp only [unary, howner]
      exact ⟨.literal h h', rfl⟩
    | some v =>
      simp only [unary, howner]
      have hdefine : Agree (fun p q => p = q ∧ ∃ fresh, p.1 = .reg fresh ty) (s.define v (.reg r ty))
          (s.define v (.reg r ty)) := by
        refine agree_self fun p hp => ⟨rfl, s.nextReg, ?_⟩
        obtain ⟨renamed, hrenamed, hp⟩ := bind_eq_ok.mp hp
        obtain ⟨stack, _, hp⟩ := bind_eq_ok.mp hp
        rw [← Except.ok.inj hp, ← Except.ok.inj hrenamed]
      refine hdefine.bind ?_
      rintro ⟨_, s₁⟩ _ ⟨rfl, fresh, rfl⟩
      exact ⟨.literal h h', rfl⟩
  | same h =>
    refine agree_self ?_
    rintro ⟨j, s'⟩ hrename
    refine ⟨.same ?_, rfl⟩
    obtain ⟨src1, hsrc1, hrename⟩ := bind_eq_ok.mp hrename
    obtain ⟨src2, hsrc2, hrename⟩ := bind_eq_ok.mp hrename
    have hsrc1 := wordless_of_renameUse h.src1 hsrc1
    have hsrc2 := wordless_of_renameUse h.src2 hsrc2
    split at hrename
    · obtain ⟨rfl, _⟩ := Prod.mk.inj (Except.ok.inj hrename)
      exact wordless_of h.dst hsrc1 hsrc2 fun arg harg => h.arg harg
    · obtain ⟨⟨dst, s₁⟩, hdefine, hrename⟩ := bind_eq_ok.mp hrename
      obtain ⟨rfl, _⟩ := Prod.mk.inj (Except.ok.inj hrename)
      exact wordless_of (Versions.wordless_of_define hdefine) hsrc1 hsrc2 fun arg harg => h.arg harg

/-- The version that a phi takes is no string literal. -/
theorem fillPhi (h : Alike texts texts' i j) (vars : List Variable) (s : Versions) (pred : BlockId) :
    Agree (Alike texts texts') (fillPhi vars s pred i) (fillPhi vars s pred j) := by
  cases h with
  | literal h h' => exact .literal h h'
  | same h =>
    refine agree_self fun filled hfill => .same ?_
    unfold MiddleEnd.fillPhi at hfill
    split at hfill
    · obtain rfl := Except.ok.inj hfill
      exact h
    · have hset : ∀ value : Operand, value.Wordless → (i.mapPhiArgs (setArgFrom pred value)).Wordless := by
        intro value hvalue
        refine h.mapPhiArgs rfl fun arg harg => ?_
        obtain hold | rfl := of_mem_setArgFrom harg
        · exact h.arg hold
        · exact hvalue
      obtain ⟨current, _, hfill⟩ := bind_eq_ok.mp hfill
      cases current with
      | some r =>
        obtain ⟨var, _, hfill⟩ := bind_eq_ok.mp hfill
        obtain rfl := Except.ok.inj hfill
        exact hset _ (Operand.wordless_reg r var.ty)
      | none =>
        obtain rfl := Except.ok.inj hfill
        exact hset _ (Operand.wordless_int 0)

end Instr.Alike

-- ════════════════════════════════════════════════════════════════════════
-- The walk
-- ════════════════════════════════════════════════════════════════════════

/-- Two states of the walk are equal, except for the numbers of string literals. -/
structure Renamer.Alike (texts texts' : Interner) (w w' : Renamer) : Prop where
  rest : w' = { w with fn := w'.fn }
  fn : w.fn.Alike texts texts' w'.fn

theorem Block.Alike.renameInstrs {b b' : Block} (h : b.Alike texts texts' b')
    (owners : Array (Option VarId)) (s : Versions) :
    Agree (fun p q => List.Forall₂ (Instr.Alike texts texts') p.1 q.1 ∧ p.2 = q.2)
      (renameInstrs owners b s) (renameInstrs owners b' s) := by
  refine (agree_threadMap (fun _ _ s hi => hi.renamePhi s) h.phis s).bind ?_
  rintro ⟨phis, s₁⟩ ⟨phis', _⟩ ⟨hphis, rfl⟩
  refine (agree_threadMap (fun _ _ s hi => hi.renameInstr owners s) h.body s₁).bind ?_
  rintro ⟨body, s₂⟩ ⟨body', _⟩ ⟨hbody, rfl⟩
  exact ⟨List.rel_append hphis hbody, rfl⟩

namespace Function.Alike

variable {f f' : Function}

theorem fillPhis (h : f.Alike texts texts' f') (s : Versions) (pred b : BlockId) :
    Agree (Function.Alike texts texts') (fillPhis s pred f b) (fillPhis s pred f' b) := by
  refine (h.block b).bind fun block block' hblock => ?_
  rw [h.vars]
  refine (agree_mapM hblock.phis fun _ _ hi => hi.fillPhi f.vars s pred).bind fun phis phis' hphis => ?_
  exact h.setBlock b (hblock.withInstrs (List.rel_append hphis hblock.body))

end Function.Alike

namespace Renamer.Alike

variable {w w' : Renamer}

theorem enter (h : w.Alike texts texts' w') (owners : Array (Option VarId)) (b : BlockId) :
    Agree (Renamer.Alike texts texts') (w.enter owners b) (w'.enter owners b) := by
  have hstacks : w'.versionStacks = w.versionStacks := by rw [h.rest]
  have hframes : w'.frames = w.frames := by rw [h.rest]
  refine (h.fn.block b).bind fun block block' hblock => ?_
  rw [h.fn.regCount, hstacks, hframes]
  refine (hblock.renameInstrs owners _).bind ?_
  rintro ⟨instrs, s⟩ ⟨instrs', _⟩ ⟨hinstrs, rfl⟩
  have hset := h.fn.setBlock b (hblock.withInstrs hinstrs)
  -- Both blocks have the same successors.
  obtain ⟨old', rfl⟩ : ∃ old', block' = { block with instrs := old' } := ⟨_, hblock.rest⟩
  refine (agree_foldlM (fun next _ g g' hg => hg.fillPhis s b next) ?_).bind fun fn fn' hfn => ⟨rfl, hfn⟩
  exact ⟨by rw [hset.rest], hset.blocks⟩

theorem leave (h : w.Alike texts texts' w') : w.leave.Alike texts texts' w'.leave := by
  have hstacks : w'.versionStacks = w.versionStacks := by rw [h.rest]
  have hframes : w'.frames = w.frames := by rw [h.rest]
  unfold Renamer.leave
  rw [hframes, hstacks]
  split
  · exact h
  · exact ⟨by rw [h.rest], h.fn⟩

theorem visit (h : w.Alike texts texts' w') (owners : Array (Option VarId)) (visit : Visit) :
    Agree (Renamer.Alike texts texts') (w.visit owners visit) (w'.visit owners visit) := by
  cases visit with
  | enter b => exact h.enter owners b
  | leave b => exact h.leave

end Renamer.Alike

-- ════════════════════════════════════════════════════════════════════════
-- The conversion
-- ════════════════════════════════════════════════════════════════════════

namespace Function.Alike

variable {f f' : Function}

theorem withEntryVersions (h : f.Alike texts texts' f') :
    f.withEntryVersions.Alike texts texts' f'.withEntryVersions := by
  unfold Function.withEntryVersions
  rw [h.vars, h.regCount]
  exact ⟨by rw [h.rest], h.blocks⟩

theorem renameVariables (h : f.Alike texts texts' f') (t : DomTree) :
    Agree (Function.Alike texts texts') (f.renameVariables t) (f'.renameVariables t) := by
  have hentered := h.withEntryVersions
  have hversions : f'.withEntryVersions.paramVersions = f.withEntryVersions.paramVersions := by
    rw [hentered.rest]
  have howners : f'.varOfReg = f.varOfReg := by rw [varOfReg, varOfReg, h.vars, h.regCount]
  unfold Function.renameVariables
  simp only [h.vars, hversions, howners]
  split
  · exact hentered
  · refine (agree_eq_iff.mpr rfl).bind ?_
    rintro owners _ rfl
    refine Agree.bind (agree_foldlM (P := Renamer.Alike texts texts')
      (fun visit _ w w' hw => hw.visit owners visit) ?_) fun w w' hw => hw.fn
    exact ⟨rfl, hentered⟩

/-- The conversions of alike functions give alike functions, or stop with the same fault. -/
theorem constructSsa (h : f.Alike texts texts' f') :
    Agree (Function.Alike texts texts') f.constructSsa f'.constructSsa := by
  unfold Function.constructSsa
  rw [Array.isEmpty, Array.isEmpty, h.size]
  split
  · exact ⟨by rw [h.rest], h.blocks⟩
  · refine h.withDominators.bind fun f₁ f₁' h₁ => h₁.withFrontiers.bind fun f₂ f₂' h₂ => h₂.insertPhis.bind ?_
    rintro ⟨n, f₃⟩ ⟨_, f₃'⟩ ⟨rfl, h₃⟩
    refine (agree_eq_iff.mpr h₃.ofFunction_eq.symm).bind ?_
    rintro t _ rfl
    refine (h₃.renameVariables t).bind fun f₄ f₄' h₄ => ?_
    exact ⟨by rw [h₄.rest], h₄.blocks⟩

end Function.Alike

end MiddleEnd
