import MiddleEnd.IR.Listing
import MiddleEnd.Proofs.Lowering.Invariant

/-!
# Functions that can be listed

A listing writes out names and string literals, so it needs both tables to hold them.

## Main definitions

* `Operand.Listed`: the text behind an operand is in the tables.
* `Function.Listable`: so are all texts of a function.

## Main statements

* `Function.Listable.listing`: then the listing of the function succeeds.
-/

namespace MiddleEnd

/-- The text behind an operand is in the tables. -/
def Operand.Listed (tables : Tables) : Operand → Prop
  | .field name => name < tables.names.size
  | .func name => name < tables.names.size
  | .literal id => id < tables.texts.size
  | _ => True

/-- The texts behind all operands of an instruction are in the tables. -/
def Instr.Listed (tables : Tables) (i : Instr) : Prop :=
  ∀ operand ∈ i.operands, operand.Listed tables

/-- All texts of a function are in the tables. -/
structure Function.Listable (tables : Tables) (f : Function) : Prop where
  name : f.name < tables.names.size
  params : ∀ param ∈ f.params, param.name < tables.names.size
  vars : ∀ var ∈ f.vars, var.name < tables.names.size
  code : ∀ b, ∀ i ∈ f.code b, i.Listed tables

theorem Interner.succeeds_name {table : Interner} {id : Name} (h : id < table.size) :
    Succeeds (table.name id) := by
  refine ⟨table.texts[id], ?_⟩
  rw [name, get?, Array.getElem?_eq_getElem h]
  rfl

theorem Interner.succeeds_literal {table : Interner} {id : TextId} (h : id < table.size) :
    Succeeds (table.literal id) := by
  refine ⟨table.texts[id], ?_⟩
  rw [literal, get?, Array.getElem?_eq_getElem h]
  rfl

theorem succeeds_joinMap {α : Type} {f : α → Except Fault String} {xs : List α}
    (h : ∀ x ∈ xs, Succeeds (f x)) : Succeeds (joinMap f xs) := by
  obtain ⟨texts, htexts⟩ := succeeds_mapM h
  rw [joinMap, htexts]
  exact ⟨String.join texts, rfl⟩

variable {tables : Tables}

theorem Operand.succeeds_text {operand : Operand} (h : operand.Listed tables) :
    Succeeds (operand.text tables) := by
  cases operand with
  | field name =>
    apply (Interner.succeeds_name h).bind
    intro text _
    exact succeeds_ok ("%" ++ text)
  | func name =>
    apply (Interner.succeeds_name h).bind
    intro text _
    exact succeeds_ok ("@" ++ text)
  | literal id =>
    apply (Interner.succeeds_literal h).bind
    intro text _
    exact succeeds_ok (quote text)
  | _ => exact succeeds_ok _

namespace Instr

variable {i : Instr}

theorem succeeds_slotText {operand : Operand} (h : operand.Listed tables) (separator : String) :
    Succeeds (slotText tables separator operand) := by
  unfold slotText
  split
  · exact succeeds_ok ""
  · apply (Operand.succeeds_text h).bind
    intro text _
    exact succeeds_ok (separator ++ text)

theorem succeeds_dstText (h : i.dst.Listed tables) : Succeeds (i.dstText tables) := by
  unfold dstText
  split
  · exact succeeds_ok ""
  · apply (Operand.succeeds_text h).bind
    intro text _
    exact succeeds_ok (text ++ " = ")

theorem succeeds_text (h : i.Listed tables) : Succeeds (i.text tables) := by
  have hdst : i.dst.Listed tables := h i.dst (mem_operands.mpr (.inl rfl))
  have hsrc1 : i.src1.Listed tables := h i.src1 (mem_operands.mpr (.inr (.inl rfl)))
  have hsrc2 : i.src2.Listed tables := h i.src2 (mem_operands.mpr (.inr (.inr (.inl rfl))))
  have hargs : ∀ arg ∈ i.phiArgs, Succeeds (arg.text tables) := by
    intro arg harg
    have hvalue := h arg.value (mem_operands.mpr (.inr (.inr (.inr ⟨arg, harg, rfl⟩))))
    apply (Operand.succeeds_text hvalue).bind
    intro text _
    exact succeeds_ok _
  unfold text
  split
  · apply (Operand.succeeds_text hdst).bind
    intro dst _
    apply (succeeds_joinMap hargs).bind
    intro args _
    exact succeeds_ok _
  · apply (Operand.succeeds_text hsrc1).bind
    intro value _
    exact succeeds_ok _
  · apply (Operand.succeeds_text hsrc1).bind
    intro cond _
    apply (Operand.succeeds_text hsrc2).bind
    intro target _
    exact succeeds_ok _
  · apply (succeeds_dstText hdst).bind
    intro dst _
    apply (succeeds_slotText hsrc1 " ").bind
    intro src1 _
    apply (succeeds_slotText hsrc2 ", ").bind
    intro src2 _
    exact succeeds_ok _

end Instr

theorem Block.succeeds_text {block : Block} (h : ∀ i ∈ block.instrs, i.Listed tables) :
    Succeeds (block.text tables) := by
  have hlines : ∀ i ∈ block.instrs,
      Succeeds (do return "    " ++ (← i.text tables) ++ "\n" : Except Fault String) := by
    intro i hi
    apply (Instr.succeeds_text (h i hi)).bind
    intro text _
    exact succeeds_ok _
  apply (succeeds_joinMap hlines).bind
  intro lines _
  exact succeeds_ok _

namespace Function.Listable

variable {f : Function}

theorem succeeds_varsLine (h : f.Listable tables) : Succeeds (f.varsLine tables) := by
  unfold varsLine
  split
  · exact succeeds_ok ""
  · apply Succeeds.bind
    · apply succeeds_joinMap
      intro var hvar
      apply (Interner.succeeds_name (h.vars var hvar)).bind
      intro text _
      exact succeeds_ok _
    · intro vars _
      exact succeeds_ok _

/-- The listing of a function succeeds if all its texts are in the tables. -/
theorem listing (h : f.Listable tables) : Succeeds (f.listing tables) := by
  apply (Interner.succeeds_name h.name).bind
  intro name _
  apply (succeeds_mapM fun param hparam => Interner.succeeds_name (h.params param hparam)).bind
  intro params _
  apply h.succeeds_varsLine.bind
  intro vars _
  apply Succeeds.bind
  · apply succeeds_joinMap
    intro block hblock
    obtain ⟨b, hget⟩ := Array.mem_iff_getElem?.mp (Array.mem_toList_iff.mp hblock)
    have hcode : ∀ i ∈ block.instrs, i.Listed tables := by
      intro i hi
      apply h.code b
      rw [code_of_getElem? hget]
      exact hi
    apply (Block.succeeds_text hcode).bind
    intro text _
    exact succeeds_ok _
  · intro blocks _
    exact succeeds_ok _

end Function.Listable

end MiddleEnd
