import MiddleEnd.IR.Listing
import MiddleEnd.Proofs.Interner
import MiddleEnd.Proofs.Lowering.Extension
import MiddleEnd.Proofs.Lowering.Function

/-!
# The numbers of string literals

The number of a string literal depends on which literals were entered before. Two functions are alike if they
differ in such numbers alone, and corresponding numbers stand for the same text, each in its own table. A
literal occurs only as what a constant is set to; all other operands are the same.

## Main definitions

* `Operand.Wordless`, `Instr.Wordless`: no string literal occurs.
* `Instr.Alike`, `Block.Alike`, `Function.Alike`: equal except for the numbers of string literals.

## Main statements

* `Function.Alike.mono`: alike functions stay alike as the tables grow.
* `Function.Alike.map_eq`: what does not depend on string literals is the same in alike functions.
* `Function.Alike.buildEdges`: so are the functions that are finished with their edges.
* `Function.Alike.listing_eq`: alike functions have the same listing, each with its own table.
-/

namespace MiddleEnd

-- ════════════════════════════════════════════════════════════════════════
-- Related lists
-- ════════════════════════════════════════════════════════════════════════

section Related

variable {α β γ : Type} {R : α → β → Prop}

theorem forall₂_takeWhile {p : α → Bool} {q : β → Bool} {as : List α} {bs : List β}
    (h : List.Forall₂ R as bs) (hpq : ∀ a b, R a b → q b = p a) :
    List.Forall₂ R (as.takeWhile p) (bs.takeWhile q) := by
  induction h with
  | nil => exact .nil
  | cons hab _ ih =>
    rw [List.takeWhile_cons, List.takeWhile_cons, hpq _ _ hab]
    split
    · exact .cons hab ih
    · exact .nil

theorem forall₂_dropWhile {p : α → Bool} {q : β → Bool} {as : List α} {bs : List β}
    (h : List.Forall₂ R as bs) (hpq : ∀ a b, R a b → q b = p a) :
    List.Forall₂ R (as.dropWhile p) (bs.dropWhile q) := by
  induction h with
  | nil => exact .nil
  | cons hab hrest ih =>
    rw [List.dropWhile_cons, List.dropWhile_cons, hpq _ _ hab]
    split
    · exact ih
    · exact .cons hab hrest

theorem rel_cases {a : Option α} {b : Option β} (h : Option.Rel R a b) :
    (a = none ∧ b = none) ∨ ∃ x y, a = some x ∧ b = some y ∧ R x y := by
  cases h with
  | some hab => exact .inr ⟨_, _, rfl, rfl, hab⟩
  | none => exact .inl ⟨rfl, rfl⟩

theorem rel_map_eq {view : α → γ} {view' : β → γ} {a : Option α} {b : Option β} (h : Option.Rel R a b)
    (hview : ∀ a b, R a b → view' b = view a) : b.map view' = a.map view := by
  cases h with
  | some hab => exact congrArg some (hview _ _ hab)
  | none => rfl

theorem rel_map {γ' : Type} {S : γ → γ' → Prop} {g : α → γ} {g' : β → γ'} {a : Option α} {b : Option β}
    (h : Option.Rel R a b) (hg : ∀ a b, R a b → S (g a) (g' b)) : Option.Rel S (a.map g) (b.map g') := by
  cases h with
  | some hab => exact .some (hg _ _ hab)
  | none => exact .none

theorem rel_bind {γ' : Type} {S : γ → γ' → Prop} {g : α → Option γ} {g' : β → Option γ'} {a : Option α}
    {b : Option β} (h : Option.Rel R a b) (hg : ∀ a b, R a b → Option.Rel S (g a) (g' b)) :
    Option.Rel S (a.bind g) (b.bind g') := by
  cases h with
  | some hab => exact hg _ _ hab
  | none => exact .none

theorem rel_getLast? {as : List α} {bs : List β} (h : List.Forall₂ R as bs) :
    Option.Rel R as.getLast? bs.getLast? := by
  have hhead : ∀ {as : List α} {bs : List β}, List.Forall₂ R as bs → Option.Rel R as.head? bs.head? := by
    intro as bs h
    cases h with
    | nil => exact .none
    | cons hab _ => exact .some hab
  rw [List.getLast?_eq_head?_reverse, List.getLast?_eq_head?_reverse]
  exact hhead (List.rel_reverse h)

/-- Arrays whose entries are related have related lists of entries. -/
theorem forall₂_toList {as : Array α} {bs : Array β} (h : ∀ i : Nat, Option.Rel R as[i]? bs[i]?) :
    List.Forall₂ R as.toList bs.toList := by
  have hgen : ∀ (as : List α) (bs : List β), (∀ i : Nat, Option.Rel R as[i]? bs[i]?) →
      List.Forall₂ R as bs := by
    intro as
    induction as with
    | nil =>
      intro bs h
      cases bs with
      | nil => exact .nil
      | cons b bs => exact nomatch h 0
    | cons a as ih =>
      intro bs h
      cases bs with
      | nil => exact nomatch h 0
      | cons b bs =>
        cases h 0 with
        | some hab => exact .cons hab (ih bs fun i => h (i + 1))
  exact hgen as.toList bs.toList fun i => by simpa only [Array.getElem?_toList] using h i

/-- Related lists have the same text if related elements do. -/
theorem joinMap_eq {f : α → Except Fault String} {g : β → Except Fault String} {as : List α} {bs : List β}
    (h : List.Forall₂ R as bs) (htext : ∀ a b, R a b → f a = g b) : joinMap f as = joinMap g bs := by
  have hagree := agree_mapM h fun a b hab => agree_eq_iff.mpr (htext a b hab)
  rw [List.forall₂_eq_eq_eq] at hagree
  rw [joinMap, joinMap, agree_eq_iff.mp hagree]

end Related

-- ════════════════════════════════════════════════════════════════════════
-- Instructions
-- ════════════════════════════════════════════════════════════════════════

/-- The operand is no string literal. -/
def Operand.Wordless (operand : Operand) : Prop := ∀ id, operand ≠ .literal id

/-- No operand of the instruction is a string literal. -/
def Instr.Wordless (i : Instr) : Prop := ∀ operand ∈ i.operands, operand.Wordless

/-- Two instructions are equal, or set the same register to the same text. -/
inductive Instr.Alike (texts texts' : Interner) : Instr → Instr → Prop where
  | same {i : Instr} (h : i.Wordless) : Alike texts texts' i i
  | literal {r : Reg} {ty : Option TypeId} {id id' : TextId} {text : String} {line : Nat}
    (h : texts.get? id = some text) (h' : texts'.get? id' = some text) :
    Alike texts texts' (.unary .const (.reg r ty) (.literal id) line)
      (.unary .const (.reg r ty) (.literal id') line)

/-- Two blocks are equal, except for the numbers of string literals. -/
structure Block.Alike (texts texts' : Interner) (b b' : Block) : Prop where
  rest : b' = { b with instrs := b'.instrs }
  instrs : List.Forall₂ (Instr.Alike texts texts') b.instrs b'.instrs

/-- Two functions are equal, except for the numbers of string literals. -/
structure Function.Alike (texts texts' : Interner) (f f' : Function) : Prop where
  rest : f' = { f with blocks := f'.blocks }
  blocks : ∀ b : BlockId, Option.Rel (Block.Alike texts texts') f.blocks[b]? f'.blocks[b]?

variable {texts texts' later later' names : Interner}

namespace Operand

theorem wordless_none : Wordless .none := nofun

theorem wordless_reg (r : Reg) (ty : Option TypeId) : (Operand.reg r ty).Wordless := nofun

theorem wordless_int (n : Int) : (Operand.int n).Wordless := nofun

theorem wordless_float (x : Binary64) : (Operand.float x).Wordless := nofun

theorem wordless_label (b : BlockId) : (Operand.label b).Wordless := nofun

theorem wordless_field (name : Name) : (Operand.field name).Wordless := nofun

theorem wordless_func (name : Name) : (Operand.func name).Wordless := nofun

/-- The text of any other operand does not depend on the string literals. -/
theorem Wordless.text_eq {operand : Operand} (h : operand.Wordless) (names texts texts' : Interner) :
    operand.text ⟨names, texts⟩ = operand.text ⟨names, texts'⟩ := by
  cases operand with
  | literal id => exact absurd rfl (h id)
  | _ => rfl

end Operand

namespace Instr

theorem wordless_of {i : Instr} (hdst : i.dst.Wordless) (hsrc1 : i.src1.Wordless)
    (hsrc2 : i.src2.Wordless) (hargs : ∀ arg ∈ i.phiArgs, arg.value.Wordless) : i.Wordless := by
  intro operand hop
  obtain rfl | rfl | rfl | ⟨arg, harg, rfl⟩ := mem_operands.mp hop
  · exact hdst
  · exact hsrc1
  · exact hsrc2
  · exact hargs arg harg

/-- An instruction that is no phi. -/
theorem wordless_plain {i : Instr} (hdst : i.dst.Wordless) (hsrc1 : i.src1.Wordless)
    (hsrc2 : i.src2.Wordless) (hargs : i.phiArgs = []) : i.Wordless :=
  wordless_of hdst hsrc1 hsrc2 (by simp [hargs])

namespace Wordless

variable {i : Instr}

theorem dst (h : i.Wordless) : i.dst.Wordless :=
  h _ (mem_operands.mpr (.inl rfl))

theorem src1 (h : i.Wordless) : i.src1.Wordless :=
  h _ (mem_operands.mpr (.inr (.inl rfl)))

theorem src2 (h : i.Wordless) : i.src2.Wordless :=
  h _ (mem_operands.mpr (.inr (.inr (.inl rfl))))

theorem arg (h : i.Wordless) {arg : PhiArg} (harg : arg ∈ i.phiArgs) : arg.value.Wordless :=
  h _ (mem_operands.mpr (.inr (.inr (.inr ⟨arg, harg, rfl⟩))))

theorem mapPhiArgs (h : i.Wordless) {g : List PhiArg → List PhiArg} (hnil : g [] = [])
    (hg : ∀ arg ∈ g i.phiArgs, arg.value.Wordless) : (i.mapPhiArgs g).Wordless := by
  refine wordless_of ?_ ?_ ?_ ?_
  · rw [mapPhiArgs_dst]
    exact h.dst
  · rw [mapPhiArgs_src1]
    exact h.src1
  · rw [mapPhiArgs_src2]
    exact h.src2
  · rw [phiArgs_mapPhiArgs _ _ hnil]
    exact hg

/-- The text of an instruction without string literals does not depend on them. -/
theorem text_eq (h : i.Wordless) : i.text ⟨names, texts⟩ = i.text ⟨names, texts'⟩ := by
  have hdst := h.dst.text_eq names texts texts'
  have hsrc1 := h.src1.text_eq names texts texts'
  have hsrc2 := h.src2.text_eq names texts texts'
  have hargs : joinMap (·.text ⟨names, texts⟩) i.phiArgs = joinMap (·.text ⟨names, texts'⟩) i.phiArgs := by
    refine joinMap_eq (R := fun arg other => other = arg ∧ arg.value.Wordless)
      (List.forall₂_same.mpr fun arg harg => ⟨rfl, h.arg harg⟩) ?_
    rintro arg _ ⟨rfl, harg⟩
    rw [PhiArg.text, PhiArg.text, harg.text_eq names texts texts']
  unfold text dstText slotText
  rw [hdst, hsrc1, hsrc2, hargs]

end Wordless

namespace Alike

variable {i j : Instr}

theorem mono (h : Alike texts texts' i j) (hkeeps : texts.Keeps later) (hkeeps' : texts'.Keeps later') :
    Alike later later' i j := by
  cases h with
  | same h => exact .same h
  | literal h h' => exact .literal (hkeeps _ _ h) (hkeeps' _ _ h')

theorem isPhi (h : Alike texts texts' i j) : j.isPhi = i.isPhi := by cases h <;> rfl

theorem isTerminator (h : Alike texts texts' i j) : j.isTerminator = i.isTerminator := by
  cases h <;> rfl

theorem targets (h : Alike texts texts' i j) : j.targets = i.targets := by cases h <;> rfl

theorem def? (h : Alike texts texts' i j) : j.def? = i.def? := by cases h <;> rfl

/-- Other arguments for alike phis. -/
theorem mapPhiArgs (h : Alike texts texts' i j) {g : List PhiArg → List PhiArg} (hnil : g [] = [])
    (hg : ∀ args, (∀ arg ∈ args, arg.value.Wordless) → ∀ arg ∈ g args, arg.value.Wordless) :
    Alike texts texts' (i.mapPhiArgs g) (j.mapPhiArgs g) := by
  cases h with
  | same h => exact .same (h.mapPhiArgs hnil (hg i.phiArgs fun arg harg => h.arg harg))
  | literal h h' => exact .literal h h'

/-- Alike instructions have the same text, each with its own table. -/
theorem text_eq (h : Alike texts texts' i j) (names : Interner) :
    i.text ⟨names, texts⟩ = j.text ⟨names, texts'⟩ := by
  cases h with
  | same h => exact h.text_eq
  | @literal _ _ id id' _ _ h h' =>
    have hliteral : texts.literal id = texts'.literal id' := by
      rw [Interner.literal, Interner.literal, h, h', require_some, require_some]
    simp only [text, unary, dstText, slotText, Operand.text, hliteral]
    rfl

end Alike

end Instr

-- ════════════════════════════════════════════════════════════════════════
-- Blocks
-- ════════════════════════════════════════════════════════════════════════

namespace Block.Alike

variable {b b' : Block}

theorem mono (h : b.Alike texts texts' b') (hkeeps : texts.Keeps later) (hkeeps' : texts'.Keeps later') :
    b.Alike later later' b' where
  rest := h.rest
  instrs := h.instrs.imp fun _ _ hi => hi.mono hkeeps hkeeps'

/-- Alike instructions in alike blocks. -/
theorem withInstrs (h : b.Alike texts texts' b') {instrs instrs' : List Instr}
    (hinstrs : List.Forall₂ (Instr.Alike texts texts') instrs instrs') :
    Block.Alike texts texts' { b with instrs } { b' with instrs := instrs' } where
  rest := by rw [h.rest]
  instrs := hinstrs

theorem terminator? (h : b.Alike texts texts' b') :
    Option.Rel (Instr.Alike texts texts') b.terminator? b'.terminator? := by
  unfold Block.terminator? last?
  obtain ⟨hlast, hlast'⟩ | ⟨i, j, hlast, hlast', hi⟩ := rel_cases (rel_getLast? h.instrs)
  · rw [hlast, hlast']
    exact .none
  · rw [hlast, hlast', Option.filter_some, Option.filter_some, hi.isTerminator]
    split
    · exact .some hi
    · exact .none

theorem isTerminated (h : b.Alike texts texts' b') : b'.isTerminated = b.isTerminated := by
  unfold Block.isTerminated
  obtain ⟨hlast, hlast'⟩ | ⟨i, j, hlast, hlast', _⟩ := rel_cases h.terminator?
  · rw [hlast, hlast']
  · rw [hlast, hlast', Option.isSome_some, Option.isSome_some]

theorem preds (h : b.Alike texts texts' b') : b'.preds = b.preds := by rw [h.rest]

theorem succs (h : b.Alike texts texts' b') : b'.succs = b.succs := by rw [h.rest]

theorem phis (h : b.Alike texts texts' b') : List.Forall₂ (Instr.Alike texts texts') b.phis b'.phis :=
  forall₂_takeWhile h.instrs fun _ _ hi => hi.isPhi

theorem body (h : b.Alike texts texts' b') : List.Forall₂ (Instr.Alike texts texts') b.body b'.body :=
  forall₂_dropWhile h.instrs fun _ _ hi => hi.isPhi

theorem alignPhis (h : b.Alike texts texts' b') : b.alignPhis.Alike texts texts' b'.alignPhis := by
  refine h.withInstrs (List.rel_append (List.rel_map ?_ h.phis) h.body)
  intro i j hi
  rw [h.preds]
  refine hi.mapPhiArgs (alignArgs_nil _) fun args hargs arg harg => hargs arg ?_
  exact (List.mergeSort_perm _ _).mem_iff.mp harg

/-- Alike blocks have the same text, each with its own table. -/
theorem text_eq (h : b.Alike texts texts' b') (names : Interner) :
    b.text ⟨names, texts⟩ = b'.text ⟨names, texts'⟩ := by
  have hlines := joinMap_eq h.instrs (f := fun i => do return "    " ++ (← i.text ⟨names, texts⟩) ++ "\n")
    (g := fun i => do return "    " ++ (← i.text ⟨names, texts'⟩) ++ "\n") fun i j hi => by
      rw [hi.text_eq names]
  have hhead : b'.headLine = b.headLine := by rw [h.rest]; rfl
  rw [Block.text, Block.text, hlines, hhead, h.succs]

end Block.Alike

-- ════════════════════════════════════════════════════════════════════════
-- Functions
-- ════════════════════════════════════════════════════════════════════════

namespace Function.Alike

variable {f f' : Function}

theorem mono (h : f.Alike texts texts' f') (hkeeps : texts.Keeps later) (hkeeps' : texts'.Keeps later') :
    f.Alike later later' f' where
  rest := h.rest
  blocks b := by
    simpa only [Option.map_id'] using rel_map (h.blocks b) fun _ _ hb => hb.mono hkeeps hkeeps'

/-- What does not depend on string literals is the same in alike functions. -/
theorem map_eq {γ : Type} (h : f.Alike texts texts' f') {view : Block → γ}
    (hview : ∀ b b', b.Alike texts texts' b' → view b' = view b) : f'.blocks.map view = f.blocks.map view := by
  apply Array.ext_getElem?
  intro b
  rw [Array.getElem?_map, Array.getElem?_map]
  exact rel_map_eq (h.blocks b) hview

theorem name (h : f.Alike texts texts' f') : f'.name = f.name := by rw [h.rest]

theorem line (h : f.Alike texts texts' f') : f'.line = f.line := by rw [h.rest]

theorem entry (h : f.Alike texts texts' f') : f'.entry = f.entry := by rw [h.rest]

theorem vars (h : f.Alike texts texts' f') : f'.vars = f.vars := by rw [h.rest]

theorem params (h : f.Alike texts texts' f') : f'.params = f.params := by rw [h.rest]

theorem regCount (h : f.Alike texts texts' f') : f'.regCount = f.regCount := by rw [h.rest]

theorem isSsa (h : f.Alike texts texts' f') : f'.isSsa = f.isSsa := by rw [h.rest]

theorem size (h : f.Alike texts texts' f') : f'.blocks.size = f.blocks.size := by
  have hunits : f'.blocks.map (fun _ => ()) = f.blocks.map fun _ => () := h.map_eq fun _ _ _ => rfl
  simpa only [Array.size_map] using congrArg Array.size hunits

theorem blockCount (h : f.Alike texts texts' f') : f'.blockCount = f.blockCount := h.size

theorem blockIds (h : f.Alike texts texts' f') : f'.blockIds = f.blockIds := by
  rw [Function.blockIds, Function.blockIds, h.size]

theorem succs (h : f.Alike texts texts' f') : f'.succs = f.succs :=
  funext fun b => congrArg (Option.getD · []) (rel_map_eq (h.blocks b) fun _ _ hb => hb.succs)

theorem preds (h : f.Alike texts texts' f') : f'.preds = f.preds :=
  funext fun b => congrArg (Option.getD · []) (rel_map_eq (h.blocks b) fun _ _ hb => hb.preds)

theorem targets (h : f.Alike texts texts' f') (b : BlockId) : f'.targets b = f.targets b := by
  unfold Function.targets
  obtain ⟨hb, hb'⟩ | ⟨i, j, hb, hb', hi⟩ := rel_cases (rel_bind (h.blocks b) fun _ _ hb => hb.terminator?)
  · rw [hb, hb', h.size]
  · rw [hb, hb']
    exact hi.targets

/-- The same block in alike functions. -/
theorem block (h : f.Alike texts texts' f') (b : BlockId) :
    Agree (Block.Alike texts texts') (f.block b) (f'.block b) := by
  unfold Function.block
  obtain ⟨hb, hb'⟩ | ⟨block, block', hb, hb', hblock⟩ := rel_cases (h.blocks b)
  · rw [hb, hb']
    exact rfl
  · rw [hb, hb']
    exact hblock

/-- Blocks are changed alike. -/
theorem mapIdx (h : f.Alike texts texts' f') {change change' : BlockId → Block → Block}
    (hchange : ∀ i b b', b.Alike texts texts' b' → (change i b).Alike texts texts' (change' i b')) :
    Function.Alike texts texts' { f with blocks := f.blocks.mapIdx change }
      { f' with blocks := f'.blocks.mapIdx change' } where
  rest := by rw [h.rest]
  blocks b := by
    rw [Array.getElem?_mapIdx, Array.getElem?_mapIdx]
    exact rel_map (h.blocks b) (hchange b)

theorem mapBlocks (h : f.Alike texts texts' f') {change change' : Block → Block}
    (hchange : ∀ b b', b.Alike texts texts' b' → (change b).Alike texts texts' (change' b')) :
    (f.mapBlocks change).Alike texts texts' (f'.mapBlocks change') where
  rest := by rw [h.rest]; rfl
  blocks b := by
    rw [Function.mapBlocks, Function.mapBlocks, Array.getElem?_map, Array.getElem?_map]
    exact rel_map (h.blocks b) hchange

theorem modifyBlock (h : f.Alike texts texts' f') (b : BlockId) {change change' : Block → Block}
    (hchange : ∀ b b', b.Alike texts texts' b' → (change b).Alike texts texts' (change' b')) :
    (f.modifyBlock b change).Alike texts texts' (f'.modifyBlock b change') where
  rest := by rw [h.rest]; rfl
  blocks x := by
    rw [Function.modifyBlock, Function.modifyBlock, Array.getElem?_modify, Array.getElem?_modify]
    split
    · exact rel_map (h.blocks x) hchange
    · exact h.blocks x

theorem setBlock (h : f.Alike texts texts' f') (b : BlockId) {block block' : Block}
    (hblock : block.Alike texts texts' block') :
    (f.setBlock b block).Alike texts texts' (f'.setBlock b block') :=
  h.modifyBlock b fun _ _ _ => hblock

theorem newBlock (h : f.Alike texts texts' f') (label : Option String) :
    (f.newBlock label).2.Alike texts texts' (f'.newBlock label).2 where
  rest := by rw [h.rest]; rfl
  blocks b := by
    simp only [Function.newBlock, Array.getElem?_push, h.size]
    split
    · exact .some ⟨rfl, .nil⟩
    · exact h.blocks b

/-- Alike instructions are appended, or may not be. -/
theorem emit (h : f.Alike texts texts' f') (b : BlockId) {i j : Instr} (hi : i.Alike texts texts' j) :
    Agree (Function.Alike texts texts') (f.emit b i) (f'.emit b j) := by
  refine (h.block b).bind fun block block' hblock => ?_
  unfold Block.push
  rw [hblock.isTerminated]
  split
  · exact rfl
  · exact h.setBlock b (hblock.withInstrs (List.rel_append hblock.instrs (.cons hi .nil)))

/-- Alike functions hand out the same register. -/
theorem newReg (h : f.Alike texts texts' f') :
    f.newReg.1 = f'.newReg.1 ∧ f.newReg.2.Alike texts texts' f'.newReg.2 := by
  rw [Function.newReg, Function.newReg, h.regCount]
  exact ⟨rfl, by rw [h.rest], h.blocks⟩

/-- A variable has the same register in alike functions. -/
theorem varLookup (h : f.Alike texts texts' f') (name : Name) (ty : Option TypeId) :
    (f.varLookup name ty).1 = (f'.varLookup name ty).1 ∧
      (f.varLookup name ty).2.Alike texts texts' (f'.varLookup name ty).2 := by
  unfold Function.varLookup
  rw [h.vars]
  split
  · exact ⟨rfl, h⟩
  · simp only [Function.newReg, h.regCount, h.vars]
    exact ⟨trivial, by rw [h.rest], h.blocks⟩

-- ════════════════════════════════════════════════════════════════════════
-- Finishing
-- ════════════════════════════════════════════════════════════════════════

theorem closeBlocks (h : f.Alike texts texts' f') : f.closeBlocks.Alike texts texts' f'.closeBlocks := by
  refine h.mapBlocks fun b b' hb => ?_
  rw [hb.isTerminated, h.line]
  split
  · exact hb
  · refine hb.withInstrs (List.rel_append hb.instrs (.cons (.same ?_) .nil))
    exact Instr.wordless_plain Operand.wordless_none Operand.wordless_none Operand.wordless_none rfl

theorem link (h : f.Alike texts texts' f') (source target : BlockId) :
    (f.link source target).Alike texts texts' (f'.link source target) := by
  unfold Function.link
  rw [h.size, h.succs]
  split
  · exact h
  · refine (h.modifyBlock source fun b b' hb => ?_).modifyBlock target fun b b' hb => ?_
    · exact ⟨by rw [hb.rest], hb.instrs⟩
    · exact ⟨by rw [hb.rest], hb.instrs⟩

theorem edges (h : f.Alike texts texts' f') : f'.edges = f.edges := by
  unfold Function.edges
  simp only [h.blockIds, h.targets]

/-- Alike functions get the same edges, and their phis the same arguments. -/
theorem buildEdges (h : f.Alike texts texts' f') : f.buildEdges.Alike texts texts' f'.buildEdges := by
  have hclear : f.clearEdges.Alike texts texts' f'.clearEdges :=
    h.mapBlocks fun b b' hb => ⟨by rw [hb.rest], hb.instrs⟩
  rw [Function.buildEdges, Function.buildEdges, h.edges]
  refine Function.Alike.mapBlocks ?_ fun _ _ hb => hb.alignPhis
  exact List.foldl_rel (r := Function.Alike texts texts') hclear fun edge _ g g' hg => hg.link edge.1 edge.2

/-- Alike functions have the same listing, each with its own table. -/
theorem listing_eq (h : f.Alike texts texts' f') :
    f.listing ⟨names, texts⟩ = f'.listing ⟨names, texts'⟩ := by
  have hvars : f'.varsLine ⟨names, texts'⟩ = f.varsLine ⟨names, texts⟩ := by
    rw [Function.varsLine, Function.varsLine, h.vars]
  unfold Function.listing
  rw [hvars, h.name, h.params, h.isSsa, h.blockCount, h.regCount,
    joinMap_eq (forall₂_toList h.blocks) ?_]
  intro block block' hblock
  rw [hblock.text_eq names]

end Function.Alike

end MiddleEnd
