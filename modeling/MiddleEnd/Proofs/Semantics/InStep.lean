import MiddleEnd.Proofs.Semantics.Resume
import MiddleEnd.Proofs.Semantics.Source

/-!
# Machine and interpreter in step

The machine executes a function while the interpreter executes the code that the function stands for.
They are in step when the registers of the variables hold what the variables hold, and the world outside
is in the same state.

## Main definitions

* `Place`: where the machine may be.
* `Function.At`: the machine is at a place, in step with the interpreter.
* `Function.Does`: from a place on, the machine does what the interpreter does.
* `Function.Ends`: where the machine is when a statement has ended.

## Main statements

* `Function.Does.bind`, `Function.Does.execList_cons`: one thing after the other.
* `Function.Does.execRounds`: loops.
-/

namespace MiddleEnd

variable {V S : Type}

theorem EvalM.bind_apply {α β : Type} {ev : EvalM V S α} {next : α → EvalM V S β} {mem mem' : Memory V S}
    {a : α} (h : ev mem = some (a, mem')) : (ev >>= next) mem = next a mem' := by
  change (ev mem).bind (fun result => next result.1 result.2) = _
  rw [h]
  rfl

/-- An operation that leaves the world outside alone. -/
theorem EvalM.apply_eq_some {sem : Semantics V S} {op : Opcode} {ty : Option TypeId} {mem : Memory V S}
    {x y z : V} (h : sem.apply op ty x y mem.ext = (z, mem.ext)) :
    EvalM.apply sem op ty x y mem = some (z, mem) := by
  rw [EvalM.apply, h]

-- ════════════════════════════════════════════════════════════════════════
-- Places
-- ════════════════════════════════════════════════════════════════════════

/-- Where the machine may be, with the registers and the state of the world outside. -/
abbrev Place (V S : Type) := (Reg → V) → S → Config V S → Prop

/-- The machine is about to enter a block, if there is one to enter. -/
def Place.block (target : Option BlockId) : Place V S :=
  fun regs ext c => ∃ b ∈ target, ∃ source, c = .running b source regs ext

/-- Where a statement may lead. -/
structure Exits (V S : Type) where
  normal : Place V S
  breaks : Place V S
  continues : Place V S

namespace Function

variable (f : Function) (sem : Semantics V S)

/-- The registers of the variables hold what the variables hold. -/
def Agrees (regs : Reg → V) (vars : Name → V) : Prop := ∀ var ∈ f.vars, regs var.reg = vars var.name

/-- The machine is at a place, in step with the interpreter. -/
def At (place : Place V S) (c : Config V S) (mem : Memory V S) : Prop :=
  ∃ regs, f.Agrees regs mem.vars ∧ place regs mem.ext c

/-- The machine gets from one place to another without a change to the registers and to the world
outside. -/
def Goes (start place : Place V S) : Prop :=
  ∀ regs ext c, start regs ext c → ∃ c', f.Leads sem c c' ∧ place regs ext c'

/-- Executing the next block starts at a place, if control has come to the given block. -/
def Enters (target : BlockId) (inside : Place V S) : Prop :=
  ∀ source regs ext, inside regs ext (f.step sem (.running target source regs ext))

/-- From a place on, the machine does what evaluation does. -/
def Does {β : Type} (start : Place V S) (ev : EvalM V S β) (ends : β → Config V S → Memory V S → Prop) :
    Prop :=
  ∀ c mem, f.At start c mem → ∃ b mem' c', ev mem = some (b, mem') ∧ f.Leads sem c c' ∧ ends b c' mem'

/-- Where the machine is when a statement has ended. If a loop has used up its rounds, the machine goes on
for at least `limit` blocks. -/
def Ends (limit : Nat) (exits : Exits V S) : Completion V → Config V S → Memory V S → Prop
  | .normal, c, mem => f.At exits.normal c mem
  | .breaks, c, mem => f.At exits.breaks c mem
  | .continues, c, mem => f.At exits.continues c mem
  | .returns value, c, mem => c = .returned value mem.ext
  | .unfinished, c, mem => ∃ n, limit ≤ n ∧ ∃ b source regs, f.run sem n c = .running b source regs mem.ext

-- ════════════════════════════════════════════════════════════════════════
-- One thing after the other
-- ════════════════════════════════════════════════════════════════════════

variable {f sem} {β γ : Type} {start mid place : Place V S} {ev : EvalM V S β}
  {ends ends' : β → Config V S → Memory V S → Prop}

theorem Goes.refl (place : Place V S) : f.Goes sem place place := fun _ _ c h => ⟨c, .refl c, h⟩

theorem Goes.trans (h : f.Goes sem start mid) (h' : f.Goes sem mid place) :
    f.Goes sem start place := by
  intro regs ext c hc
  obtain ⟨c₁, hleads, hc₁⟩ := h regs ext c hc
  obtain ⟨c₂, hleads', hc₂⟩ := h' regs ext c₁ hc₁
  exact ⟨c₂, hleads.trans hleads', hc₂⟩

theorem Enters.goes {target : BlockId} (h : f.Enters sem target place) :
    f.Goes sem (.block (some target)) place := by
  rintro regs ext _ ⟨_, ⟨⟩, source, rfl⟩
  exact ⟨_, .of_step rfl, h source regs ext⟩

theorem Goes.at (h : f.Goes sem start place) {c : Config V S} {mem : Memory V S}
    (hc : f.At start c mem) : ∃ c', f.Leads sem c c' ∧ f.At place c' mem := by
  obtain ⟨regs, hagrees, hc⟩ := hc
  obtain ⟨c', hleads, hc'⟩ := h regs mem.ext c hc
  exact ⟨c', hleads, regs, hagrees, hc'⟩

/-- A statement that ends after the next block has been executed takes one block more. -/
theorem Ends.later {n : Nat} {exits : Exits V S} {done : Completion V} {c c' : Config V S}
    {mem : Memory V S} (h : f.Ends sem n exits done c' mem) (hleads : f.Leads sem (f.step sem c) c') :
    ∃ c'', f.Leads sem c c'' ∧ f.Ends sem (n + 1) exits done c'' mem := by
  cases done with
  | normal | breaks | continues | returns => exact ⟨c', (Leads.of_step rfl).trans hleads, h⟩
  | unfinished =>
    obtain ⟨k, hk, hrun⟩ := h
    obtain ⟨m, hm⟩ := hleads
    refine ⟨c, .refl c, m + k + 1, by omega, ?_⟩
    rw [run, run_add, hm]
    exact hrun

namespace Does

theorem pure {b : β} (h : ∀ c mem, f.At start c mem → ∃ c', f.Leads sem c c' ∧ ends b c' mem) :
    f.Does sem start (Pure.pure b : EvalM V S β) ends := by
  intro c mem hc
  obtain ⟨c', hleads, hends⟩ := h c mem hc
  exact ⟨b, mem, c', rfl, hleads, hends⟩

theorem bind {next : β → EvalM V S γ} {mid : β → Place V S}
    {ends : γ → Config V S → Memory V S → Prop} (h : f.Does sem start ev fun b => f.At (mid b))
    (hnext : ∀ b, f.Does sem (mid b) (next b) ends) : f.Does sem start (ev >>= next) ends := by
  intro c mem hc
  obtain ⟨b, mem₁, c₁, hev, hleads, hc₁⟩ := h c mem hc
  obtain ⟨a, mem₂, c₂, hev', hleads', hc₂⟩ := hnext b c₁ mem₁ hc₁
  exact ⟨a, mem₂, c₂, (EvalM.bind_apply hev).trans hev', hleads.trans hleads', hc₂⟩

theorem of_goes (hstart : f.Goes sem start mid) (h : f.Does sem mid ev ends) :
    f.Does sem start ev ends := by
  intro c mem hc
  obtain ⟨c₁, hleads, hc₁⟩ := hstart.at hc
  obtain ⟨b, mem', c', hev, hleads', hends⟩ := h c₁ mem hc₁
  exact ⟨b, mem', c', hev, hleads.trans hleads', hends⟩

theorem imp (h : f.Does sem start ev ends)
    (himp : ∀ b c mem, ends b c mem → ∃ c', f.Leads sem c c' ∧ ends' b c' mem) :
    f.Does sem start ev ends' := by
  intro c mem hc
  obtain ⟨b, mem', c', hev, hleads, hends⟩ := h c mem hc
  obtain ⟨c'', hleads', hends'⟩ := himp b c' mem' hends
  exact ⟨b, mem', c'', hev, hleads.trans hleads', hends'⟩

-- ════════════════════════════════════════════════════════════════════════
-- Statements
-- ════════════════════════════════════════════════════════════════════════

variable {limit : Nat} {exits : Exits V S}

/-- Going on from where a statement leads. -/
theorem goes {ev : EvalM V S (Completion V)} (h : f.Does sem start ev (f.Ends sem limit exits))
    (hnormal : f.Goes sem exits.normal place) :
    f.Does sem start ev (f.Ends sem limit { exits with normal := place }) := by
  refine h.imp fun done c mem hends => ?_
  cases done with
  | normal => exact hnormal.at hends
  | breaks | continues | returns | unfinished => exact ⟨c, .refl c, hends⟩

theorem execList_nil {exec : StmtId → EvalM V S (Completion V)}
    (h : f.Goes sem start exits.normal) :
    f.Does sem start (execList exec []) (f.Ends sem limit exits) :=
  pure fun _ _ hc => h.at hc

/-- A statement, and those behind it if it ends normally. -/
theorem execList_cons {exec : StmtId → EvalM V S (Completion V)} {id : StmtId} {rest : List StmtId}
    (hfirst : f.Does sem start (exec id) (f.Ends sem limit { exits with normal := mid }))
    (hrest : f.Does sem mid (execList exec rest) (f.Ends sem limit exits)) :
    f.Does sem start (execList exec (id :: rest)) (f.Ends sem limit exits) := by
  intro c mem hc
  obtain ⟨done, mem₁, c₁, hev, hleads, hends⟩ := hfirst c mem hc
  have heval : execList exec (id :: rest) mem = _ := EvalM.bind_apply hev
  cases done with
  | normal =>
    obtain ⟨done', mem₂, c₂, hev', hleads', hends'⟩ := hrest c₁ mem₁ hends
    exact ⟨done', mem₂, c₂, heval.trans hev', hleads.trans hleads', hends'⟩
  | breaks => exact ⟨.breaks, mem₁, c₁, heval, hleads, hends⟩
  | continues => exact ⟨.continues, mem₁, c₁, heval, hleads, hends⟩
  | returns value => exact ⟨.returns value, mem₁, c₁, heval, hleads, hends⟩
  | unfinished => exact ⟨.unfinished, mem₁, c₁, heval, hleads, hends⟩

/-- A switch, which `break` leaves. -/
theorem leaveSwitch {ev : EvalM V S (Completion V)} {exit : BlockId}
    (h : f.Does sem start ev (f.Ends sem limit ⟨.block (some exit), .block (some exit), exits.continues⟩))
    (hexit : f.Goes sem (.block (some exit)) exits.normal) :
    f.Does sem start (do return (← ev).leaveSwitch) (f.Ends sem limit exits) := by
  intro c mem hc
  obtain ⟨done, mem₁, c₁, hev, hleads, hends⟩ := h c mem hc
  have heval : (do return (← ev).leaveSwitch : EvalM V S (Completion V)) mem = some (done.leaveSwitch, mem₁) :=
    EvalM.bind_apply hev
  have hleaves : f.At (.block (some exit)) c₁ mem₁ → done.leaveSwitch = .normal →
      ∃ c', f.Leads sem c c' ∧ f.Ends sem limit exits done.leaveSwitch c' mem₁ := by
    intro hat hnormal
    obtain ⟨c', hleads', hends'⟩ := hexit.at hat
    rw [hnormal]
    exact ⟨c', hleads.trans hleads', hends'⟩
  suffices hlast : ∃ c', f.Leads sem c c' ∧ f.Ends sem limit exits done.leaveSwitch c' mem₁ by
    obtain ⟨c', hleads', hends'⟩ := hlast
    exact ⟨_, mem₁, c', heval, hleads', hends'⟩
  cases done with
  | normal | breaks => exact hleaves hends rfl
  | continues | returns | unfinished => exact ⟨c₁, hleads, hends⟩

-- ════════════════════════════════════════════════════════════════════════
-- Loops
-- ════════════════════════════════════════════════════════════════════════

section Rounds

variable {body : EvalM V S (Completion V)} {again : EvalM V S Bool} {bodyBlock next exit : BlockId}
  {inside : Place V S}

/-- Rounds of a loop. Each takes the machine at least one block further. -/
theorem execRounds
    (henter : f.Enters sem bodyBlock inside)
    (hbody : f.Does sem inside body (f.Ends sem limit ⟨.block (some next), .block (some exit), .block (some next)⟩))
    (hagain : f.Does sem (.block (some next)) again fun goesOn =>
      f.At (.block (some (if goesOn then bodyBlock else exit))))
    (hexit : f.Goes sem (.block (some exit)) exits.normal) (n : Nat) (hn : n ≤ limit) :
    f.Does sem (.block (some bodyBlock)) (execRounds body again n) (f.Ends sem n exits) := by
  induction n with
  | zero =>
    rintro _ mem ⟨regs, _, _, ⟨⟩, source, rfl⟩
    exact ⟨.unfinished, mem, _, rfl, .refl _, 0, Nat.le_refl _, bodyBlock, source, regs, rfl⟩
  | succ n ih =>
    rintro _ mem ⟨regs, hagrees, _, ⟨⟩, source, rfl⟩
    obtain ⟨done, mem₁, c₁, hev, hleads, hends⟩ := hbody _ mem ⟨regs, hagrees, henter source regs mem.ext⟩
    have hleads₁ : f.Leads sem (.running bodyBlock source regs mem.ext) c₁ :=
      (Leads.of_step rfl).trans hleads
    have hleaves : ∀ c mem', f.Leads sem (.running bodyBlock source regs mem.ext) c →
        f.At (.block (some exit)) c mem' → ∃ c', f.Leads sem (.running bodyBlock source regs mem.ext) c' ∧
          f.Ends sem (n + 1) exits .normal c' mem' := by
      intro c mem' hc hat
      obtain ⟨c', hleads', hends'⟩ := hexit.at hat
      exact ⟨c', hc.trans hleads', hends'⟩
    -- The next round, after the body has ended normally or with `continue`.
    have hgoes : f.At (.block (some next)) c₁ mem₁ → ∃ done mem₂ c₂,
        (do if ← again then MiddleEnd.execRounds body again n else return .normal :
          EvalM V S (Completion V)) mem₁ = some (done, mem₂) ∧
        f.Leads sem (.running bodyBlock source regs mem.ext) c₂ ∧
        f.Ends sem (n + 1) exits done c₂ mem₂ := by
      intro hc₁
      obtain ⟨goesOn, mem₂, c₂, hev₂, hleads₂, hc₂⟩ := hagain c₁ mem₁ hc₁
      cases goesOn with
      | true =>
        obtain ⟨done, mem₃, c₃, hev₃, hleads₃, hends₃⟩ := ih (Nat.le_of_succ_le hn) c₂ mem₂ hc₂
        obtain ⟨c, hleads, hends⟩ := hends₃.later ((hleads.trans hleads₂).trans hleads₃)
        exact ⟨done, mem₃, c, (EvalM.bind_apply hev₂).trans hev₃, hleads, hends⟩
      | false =>
        obtain ⟨c, hleads, hends⟩ := hleaves c₂ mem₂ (hleads₁.trans hleads₂) hc₂
        exact ⟨.normal, mem₂, c, EvalM.bind_apply hev₂, hleads, hends⟩
    rw [MiddleEnd.execRounds, EvalM.bind_apply hev]
    cases done with
    | normal | continues => exact hgoes hends
    | breaks =>
      obtain ⟨c, hleads, hends⟩ := hleaves c₁ mem₁ hleads₁ hends
      exact ⟨.normal, mem₁, c, rfl, hleads, hends⟩
    | returns value => exact ⟨.returns value, mem₁, c₁, rfl, hleads₁, hends⟩
    | unfinished =>
      obtain ⟨k, hk, hrun⟩ := hends
      exact ⟨.unfinished, mem₁, c₁, rfl, hleads₁, k, Nat.le_trans hn hk, hrun⟩

/-- A loop that tests its condition before the first round. -/
theorem execLoop {test : EvalM V S Bool}
    (htest : f.Does sem start test fun holds => f.At (.block (some (if holds then bodyBlock else exit))))
    (henter : f.Enters sem bodyBlock inside)
    (hbody : f.Does sem inside body (f.Ends sem limit ⟨.block (some next), .block (some exit), .block (some next)⟩))
    (hagain : f.Does sem (.block (some next)) again fun goesOn =>
      f.At (.block (some (if goesOn then bodyBlock else exit))))
    (hexit : f.Goes sem (.block (some exit)) exits.normal) :
    f.Does sem start (do if ← test then MiddleEnd.execRounds body again limit else return .normal)
      (f.Ends sem limit exits) := by
  refine htest.bind fun holds => ?_
  cases holds with
  | true => exact execRounds henter hbody hagain hexit limit (Nat.le_refl _)
  | false => exact pure fun c mem hc => hexit.at hc

end Rounds

end Does

end Function

end MiddleEnd
