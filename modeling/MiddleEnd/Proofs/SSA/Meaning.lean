import MiddleEnd.Proofs.Lowering.Function

/-!
# Single assignment form keeps the meaning of lowered functions

Whatever a lowered function computes, its single assignment form computes too, block by block and
instruction by instruction: for every meaning of the operations, every state of the world outside and
all arguments.

## Main statements

* `Function.run_congr`: what the machine does depends on the blocks of a function alone.
* `SourceUnit.constructSsa_meaning`: a lowered function and its single assignment form run in step.
-/

namespace MiddleEnd

namespace Function

variable {V S : Type} (sem : Semantics V S) {f g : Function}

theorem step_congr (h : g.blocks = f.blocks) (config : Config V S) :
    g.step sem config = f.step sem config := by
  cases config with
  | running b source regs ext => simp only [step, h]
  | returned | stuck => rfl

theorem blockEvents_congr (h : g.blocks = f.blocks) (config : Config V S) :
    g.blockEvents sem config = f.blockEvents sem config := by
  cases config with
  | running b source regs ext => simp only [blockEvents, h]
  | returned | stuck => rfl

/-- What the machine does depends on the blocks of a function alone. -/
theorem run_congr (h : g.blocks = f.blocks) (n : Nat) (config : Config V S) :
    g.run sem n config = f.run sem n config ∧ g.visited sem n config = f.visited sem n config ∧
      g.events sem n config = f.events sem n config := by
  induction n generalizing config with
  | zero => exact ⟨rfl, rfl, rfl⟩
  | succ n ih =>
    obtain ⟨hrun, hvisited, hevents⟩ := ih (f.step sem config)
    simp only [run, visited, events, step_congr sem h, blockEvents_congr sem h, hrun, hvisited,
      hevents, and_self]

/-- A runnable function and its single assignment form run in step. -/
theorem Runnable.constructSsa_inStep (h : f.Runnable) : ∃ g, f.constructSsa = .ok g ∧
    ∀ {V S : Type} (sem : Semantics V S) (args : Name → V) (ext : S) (n : Nat),
      g.visited sem n (g.enterSsa sem args ext) = f.visited sem n (f.enter sem args ext) ∧
      g.events sem n (g.enterSsa sem args ext) = f.events sem n (f.enter sem args ext) ∧
      (g.run sem n (g.enterSsa sem args ext)).ext = (f.run sem n (f.enter sem args ext)).ext ∧
      (g.run sem n (g.enterSsa sem args ext)).returned? =
        (f.run sem n (f.enter sem args ext)).returned? := by
  obtain ⟨c, g, hconstruct, hvalid⟩ := f.constructSsa_eq h.toPlain
  refine ⟨_, hconstruct, fun {V S} sem args ext n => ?_⟩
  obtain ⟨hmatch, hvisited, hevents⟩ := (hvalid.matches_enter h sem args ext).run hvalid h n
  obtain ⟨hrun', hvisited', hevents'⟩ := run_congr sem (g := { g with isSsa := true }) (f := g) rfl n
    (g.enterSsa sem args ext)
  refine ⟨hvisited'.trans hvisited, hevents'.trans hevents, ?_, ?_⟩
  · exact (congrArg Config.ext hrun').trans hmatch.ext_eq
  · exact (congrArg Config.returned? hrun').trans hmatch.returned_eq

end Function

/-- A lowered function and its single assignment form run in step, for every meaning of the operations:
after any number of blocks both have visited the same blocks, have executed the same instructions with
the same values and have left the world outside in the same state, and one has returned a value exactly
when the other has returned that value. -/
theorem SourceUnit.constructSsa_meaning (unit : SourceUnit) (texts texts' : Interner)
    (decl : FunctionDecl) (f : Function)
    (hlower : unit.lowerFunction texts decl = .ok (some f, texts')) :
    ∃ g, f.constructSsa = .ok g ∧
      ∀ {V S : Type} (sem : Semantics V S) (args : Name → V) (ext : S) (n : Nat),
        g.visited sem n (g.enterSsa sem args ext) = f.visited sem n (f.enter sem args ext) ∧
        g.events sem n (g.enterSsa sem args ext) = f.events sem n (f.enter sem args ext) ∧
        (g.run sem n (g.enterSsa sem args ext)).ext = (f.run sem n (f.enter sem args ext)).ext ∧
        ∀ value, (g.run sem n (g.enterSsa sem args ext)).returned? = some value ↔
          (f.run sem n (f.enter sem args ext)).returned? = some value := by
  obtain ⟨avail, hlowered⟩ := unit.lowered_lowerFunction hlower
  obtain ⟨g, hconstruct, hsame⟩ := hlowered.runnable.constructSsa_inStep
  refine ⟨g, hconstruct, fun sem args ext n => ?_⟩
  obtain ⟨hvisited, hevents, hext, hreturned⟩ := hsame sem args ext n
  exact ⟨hvisited, hevents, hext, fun value => by rw [hreturned]⟩

/-- A unit with the function `int countdown(int x) { while (x) x = x - 1; return x; }`. -/
def countdownUnit : SourceUnit where
  names := { texts := #["countdown", "x"] }
  exprs := #[
    { kind := .ident 1, ty := some TypeTable.int, line := 1 },
    { kind := .int 1, ty := some TypeTable.int, line := 1 },
    { kind := .binary .sub 0 1, ty := some TypeTable.int, line := 1 },
    { kind := .assign 0 2, ty := some TypeTable.int, line := 1 }]
  stmts := #[
    { kind := .expr 3, ty := none, line := 1 },
    { kind := .whileLoop 0 0, ty := none, line := 1 },
    { kind := .ret (some 0), ty := none, line := 1 },
    { kind := .block [1, 2], ty := none, line := 1 }]

/-- The declaration of that function. -/
def countdownDecl : FunctionDecl where
  name := 0
  returnType := TypeTable.int
  params := [{ name := some 1, ty := TypeTable.int }]
  body := some 3
  line := 1

/-- The function can be lowered. -/
theorem countdown_lowers : ∃ f texts, countdownUnit.lowerFunction {} countdownDecl = .ok (some f, texts) := by
  have hsome : ((countdownUnit.lowerFunction {} countdownDecl).toOption.bind (·.1)).isSome = true := by
    decide +kernel
  obtain ⟨f, hf⟩ := Option.isSome_iff_exists.mp hsome
  exact ⟨f, exists_of_toOption_bind hf⟩

/-- Operations on integers, of which only those that the function uses compute anything. -/
def wholeNumbers : Semantics Int Unit where
  constant operand := operand.int?.getD 0
  apply
    | .sub, _, a, b, ext => (a - b, ext)
    | _, _, a, _, ext => (a, ext)
  holds a := a ≠ 0
  selects a n := a = n

/-- Called with `3`, the function and its single assignment form run in step. -/
theorem countdown_meaning : ∃ f texts g,
    countdownUnit.lowerFunction {} countdownDecl = .ok (some f, texts) ∧ f.constructSsa = .ok g ∧
      ∀ n value,
        (g.run wholeNumbers n (g.enterSsa wholeNumbers (fun _ => 3) ())).returned? = some value ↔
        (f.run wholeNumbers n (f.enter wholeNumbers (fun _ => 3) ())).returned? = some value := by
  obtain ⟨f, texts, hlower⟩ := countdown_lowers
  obtain ⟨g, hg, hsame⟩ := countdownUnit.constructSsa_meaning {} texts countdownDecl f hlower
  exact ⟨f, texts, g, hlower, hg, fun n => (hsame wholeNumbers (fun _ => 3) () n).2.2.2⟩

end MiddleEnd
