import MiddleEnd.IR.Function
import Mathlib.Tactic.Common

/-!
# Running a function

A machine that executes functions block by block. What values are, and what the operations do to them
and to the world outside, is left open: a `Semantics` says it.

## Main definitions

* `Semantics`: what the operations mean.
* `Config`: where the machine is.
* `Function.step`, `Function.run`: executing one block, and several.
* `Function.visited`, `Function.events`: the blocks that were executed, and the instructions with the
  values of their operands.
* `Function.enter`, `Function.enterSsa`: the start of a call, before and after the conversion into
  single assignment form.

## Design notes

All phis at the head of a block take their arguments at once, before any of them is written. A use of
a register that nothing wrote reads zero. Control operations are executed by the machine itself; all
others, calls and stores included, are functions of the values of their operands and of the state of
the world outside.
-/

namespace MiddleEnd

-- ════════════════════════════════════════════════════════════════════════
-- Values
-- ════════════════════════════════════════════════════════════════════════

/-- What the operations mean, with values in `V` and the state of the world outside in `S`. -/
structure Semantics (V S : Type) where
  /-- The value of an operand that is not a register. -/
  constant : Operand → V
  /-- The value of an operation, given the type of its destination and the values of its sources. -/
  apply : Opcode → Option TypeId → V → V → S → V × S
  /-- Whether a branch takes a value for true. -/
  holds : V → Bool
  /-- Whether a value selects an entry of a switch. -/
  selects : V → Int → Bool

/-- The value of registers that nothing wrote. -/
def Semantics.zero {V S : Type} (sem : Semantics V S) : V := sem.constant (.int 0)

/-- The registers with another value in the given one. -/
def setReg {V : Type} (regs : Reg → V) (r : Reg) (x : V) : Reg → V :=
  fun q => if q = r then x else regs q

section

variable {V S : Type} (sem : Semantics V S)

/-- The value of an operand. -/
def Operand.value (regs : Reg → V) : Operand → V
  | .reg r _ => regs r
  | operand => sem.constant operand

/-- The registers after a value was written to an operand. Only a register can be written. -/
def Operand.write (regs : Reg → V) (x : V) : Operand → Reg → V
  | .reg r _ => setReg regs r x
  | _ => regs

-- ════════════════════════════════════════════════════════════════════════
-- Blocks
-- ════════════════════════════════════════════════════════════════════════

/-- How control leaves a block. -/
inductive Exit (V : Type) where
  | goto (target : BlockId)
  /-- The function returns. -/
  | leave (value : V)
  /-- The block does not end in a terminator. -/
  | fall
  /-- The terminator names no target. -/
  | nowhere

/-- Control goes to a target, if there is one. -/
def Exit.ofTarget : Option BlockId → Exit V
  | some target => .goto target
  | none => .nowhere

/-- How control leaves at a terminator. -/
def Instr.exit (regs : Reg → V) (i : Instr) : Exit V :=
  match i.opcode with
  | .jump => .ofTarget i.src1.label?
  | .branch => if sem.holds (i.src1.value sem regs) then .ofTarget i.src2.label?
      else .ofTarget i.falseTarget?
  | .switch =>
    match i.cases.find? fun entry => sem.selects (i.src1.value sem regs) entry.value with
    | some entry => .goto entry.target
    | none => .ofTarget i.fallback?
  | .ret => .leave (i.src1.value sem regs)
  | _ => .nowhere

/-- What an instruction that is no terminator computes. -/
def Instr.result (regs : Reg → V) (ext : S) (i : Instr) : V × S :=
  sem.apply i.opcode i.dst.ty? (i.src1.value sem regs) (i.src2.value sem regs) ext

/-- Executes instructions up to the first terminator. -/
def execute : List Instr → (Reg → V) → S → (Reg → V) × S × Exit V
  | [], regs, ext => (regs, ext, .fall)
  | i :: rest, regs, ext =>
    if i.isTerminator then (regs, ext, i.exit sem regs)
    else execute rest (i.dst.write regs (i.result sem regs ext).1) (i.result sem regs ext).2

/-- A terminator is no phi. -/
theorem Instr.isPhi_of_isTerminator (i : Instr) (h : i.isTerminator = true) : i.isPhi = false := by
  refine Bool.eq_false_iff.mpr fun hphi => ?_
  have hop : i.opcode = .phi := by simpa [Instr.isPhi] using hphi
  rw [Instr.isTerminator, hop] at h
  cases h

/-- Control goes from a terminator to one of its targets. -/
theorem Instr.mem_targets_of_exit {sem : Semantics V S} {regs : Reg → V} {i : Instr}
    {target : BlockId} (h : i.exit sem regs = .goto target) : target ∈ i.targets := by
  have hof : ∀ {o : Option BlockId}, (Exit.ofTarget o : Exit V) = .goto target → o = some target := by
    intro o ho
    cases o with
    | none => cases ho
    | some t => cases ho; rfl
  unfold Instr.exit at h
  unfold Instr.targets
  split at h
  · rename_i hop
    simp [hop, hof h]
  · rename_i hop
    split at h
    · simp [hop, hof h]
    · simp [hop, hof h]
  · rename_i hop
    rw [hop]
    split at h
    · rename_i entry hfind
      cases h
      exact List.mem_append_left _ (List.mem_map.mpr ⟨entry, List.mem_of_find?_eq_some hfind, rfl⟩)
    · simp [hof h]
  · cases h
  · cases h

/-- A terminator does not fall through. -/
theorem Instr.exit_ne_fall (regs : Reg → V) (i : Instr) : i.exit sem regs ≠ .fall := by
  have hof : ∀ o : Option BlockId, (Exit.ofTarget o : Exit V) ≠ .fall := by
    intro o
    cases o <;> simp [Exit.ofTarget]
  unfold Instr.exit
  split
  · exact hof _
  · split <;> exact hof _
  · split
    · simp
    · exact hof _
  · simp
  · simp

/-- Instructions before the terminator are executed one after the other, then the terminator decides
where control goes. -/
theorem execute_concat (front : List Instr) (last : Instr)
    (hfront : ∀ i ∈ front, i.isTerminator = false) (hlast : last.isTerminator = true)
    (regs : Reg → V) (ext : S) : (execute sem (front ++ [last]) regs ext).2.2 =
      last.exit sem (execute sem (front ++ [last]) regs ext).1 := by
  induction front generalizing regs ext with
  | nil => simp [execute, hlast]
  | cons i front ih =>
    have hi := hfront i List.mem_cons_self
    simp only [List.cons_append, execute, hi]
    exact ih (fun j hj => hfront j (List.mem_cons_of_mem _ hj)) _ _

/-- What a phi takes when control comes from `source`. -/
def Instr.incoming (regs : Reg → V) (source : Option BlockId) (phi : Instr) : V :=
  match source.bind fun p => phi.phiArgs.find? (·.pred = p) with
  | some arg => arg.value.value sem regs
  | none => sem.zero

/-- The registers after the phis at the head of a block, which all take their arguments from the
registers before. -/
def takePhis (phis : List Instr) (source : Option BlockId) (regs : Reg → V) : Reg → V :=
  phis.foldl (fun acc phi => phi.dst.write acc (phi.incoming sem regs source)) regs

-- ════════════════════════════════════════════════════════════════════════
-- Functions
-- ════════════════════════════════════════════════════════════════════════

/-- Where the machine is. -/
inductive Config (V S : Type) where
  /-- At the start of a block, coming from another one. -/
  | running (block : BlockId) (source : Option BlockId) (regs : Reg → V) (ext : S)
  | returned (value : V) (ext : S)
  /-- Control went where there is nothing. -/
  | stuck (ext : S)

namespace Config

/-- The state of the world outside. -/
def ext {V S : Type} : Config V S → S
  | running _ _ _ ext => ext
  | returned _ ext => ext
  | stuck ext => ext

/-- The block that comes next. -/
def block? {V S : Type} : Config V S → Option BlockId
  | running b _ _ _ => some b
  | _ => none

/-- The value that was returned. -/
def returned? {V S : Type} : Config V S → Option V
  | returned value _ => some value
  | _ => none

/-- Where the machine is after it left the block `b`. -/
def after {V S : Type} (b : BlockId) : (Reg → V) × S × Exit V → Config V S
  | (regs, ext, .goto target) => running target (some b) regs ext
  | (regs, ext, .fall) => running (b + 1) (some b) regs ext
  | (_, ext, .leave value) => returned value ext
  | (_, ext, .nowhere) => stuck ext

end Config

namespace Function

/-- Executes one block. -/
def step (f : Function) : Config V S → Config V S
  | .running b source regs ext =>
    match f.blocks[b]? with
    | none => .stuck ext
    | some block =>
      .after b (execute sem block.body (takePhis sem block.phis source regs) ext)
  | config => config

/-- Executes `n` blocks. -/
def run (f : Function) : Nat → Config V S → Config V S
  | 0, config => config
  | n + 1, config => f.run n (f.step sem config)

/-- The blocks among the next `n` that are executed. -/
def visited (f : Function) : Nat → Config V S → List BlockId
  | 0, _ => []
  | n + 1, config => config.block?.toList ++ f.visited n (f.step sem config)

end Function

-- ════════════════════════════════════════════════════════════════════════
-- Events
-- ════════════════════════════════════════════════════════════════════════

/-- An instruction that was executed, and the values that it read. -/
structure Event (V : Type) where
  opcode : Opcode
  line : Nat
  ty : Option TypeId
  values : List V

/-- The event of an instruction that is no phi. -/
def Instr.event (regs : Reg → V) (i : Instr) : Event V where
  opcode := i.opcode
  line := i.line
  ty := i.dst.ty?
  values := [i.src1.value sem regs, i.src2.value sem regs]

/-- The events of instructions up to the first terminator. -/
def executeEvents : List Instr → (Reg → V) → S → List (Event V)
  | [], _, _ => []
  | i :: rest, regs, ext =>
    i.event sem regs ::
      if i.isTerminator then []
      else executeEvents rest (i.dst.write regs (i.result sem regs ext).1)
        (i.result sem regs ext).2

/-- The events of the phis at the head of a block that join no variable. -/
def phiEvents (phis : List Instr) (source : Option BlockId) (regs : Reg → V) : List (Event V) :=
  (phis.filter (·.phiVar?.isNone)).map fun phi =>
    { opcode := phi.opcode, line := phi.line, ty := phi.dst.ty?
      values := [phi.incoming sem regs source] }

namespace Function

/-- The events of the block that comes next. -/
def blockEvents (f : Function) : Config V S → List (Event V)
  | .running b source regs ext =>
    match f.blocks[b]? with
    | none => []
    | some block => phiEvents sem block.phis source regs ++
        executeEvents sem block.body (takePhis sem block.phis source regs) ext
  | _ => []

/-- The events of the next `n` blocks. -/
def events (f : Function) : Nat → Config V S → List (Event V)
  | 0, _ => []
  | n + 1, config => f.blockEvents sem config ++ f.events n (f.step sem config)

-- ════════════════════════════════════════════════════════════════════════
-- Calls
-- ════════════════════════════════════════════════════════════════════════

/-- The registers at the start of a call: each of the given registers holds the argument of its name,
and every other register holds zero. -/
def initialRegs (homes : List (Reg × Name)) (args : Name → V) : Reg → V :=
  fun r => ((homes.find? (·.1 = r)).map fun home => args home.2).getD sem.zero

/-- A register that only one name is at home in holds the argument of that name. -/
theorem initialRegs_of_mem (args : Name → V) {homes : List (Reg × Name)} {r : Reg} {name : Name}
    (hmem : (r, name) ∈ homes) (hunique : ∀ other, (r, other) ∈ homes → other = name) :
    initialRegs sem homes args r = args name := by
  obtain ⟨⟨r', other⟩, hfind⟩ := Option.isSome_iff_exists.mp
    (List.find?_isSome (p := fun home : Reg × Name => decide (home.1 = r)) |>.mpr
      ⟨(r, name), hmem, by simp⟩)
  obtain rfl : r' = r := by simpa using List.find?_some hfind
  rw [initialRegs, hfind, hunique other (List.mem_of_find?_eq_some hfind)]
  rfl

/-- A register that no name is at home in holds zero. -/
theorem initialRegs_of_not_mem {homes : List (Reg × Name)} {args : Name → V} {r : Reg}
    (hnone : ∀ home ∈ homes, home.1 ≠ r) : initialRegs sem homes args r = sem.zero := by
  have hfind : homes.find? (·.1 = r) = none :=
    List.find?_eq_none.mpr fun home hhome => by simpa using hnone home hhome
  rw [initialRegs, hfind]
  rfl

/-- The start of a call. The register of each parameter holds its argument. -/
def enter (f : Function) (args : Name → V) (ext : S) : Config V S :=
  .running f.entry none
    (initialRegs sem ((f.vars.filter (·.isParam)).map fun var => (var.reg, var.name)) args) ext

/-- The start of a call of a function in single assignment form. The entry version of each parameter
holds its argument. -/
def enterSsa (f : Function) (args : Name → V) (ext : S) : Config V S :=
  .running f.entry none
    (initialRegs sem ((f.vars.zip f.paramVersions).filterMap fun entry =>
      entry.2.map fun r => (r, entry.1.name)) args) ext

end Function

end

end MiddleEnd
