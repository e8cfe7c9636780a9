import MiddleEnd.Proofs.Lowering.Chains
import MiddleEnd.Proofs.Lowering.Graph
import Mathlib.Algebra.Order.Ring.Nat

/-!
# Arguments and calls

An argument is handed over as soon as it is computed, so the arguments of nested calls interleave, and those
of one call may stand in several blocks. On every path each call still takes exactly its own arguments.

## Main definitions

* `Instr.stack?`, `replay?`: what instructions do to the operands that wait for their call.
* `Function.Balanced`: in each block, calls take what was handed over for them.
* `Progress.Balanced`: the same while a function is lowered.

## Main statements

* `Progress.Run.balanced`: moves keep it so.
* `Function.Balanced.replay_path`: what waits at the start of a block is the same on every path.
* `SourceUnit.lowerFunction_balanced`: the paths through a lowered function.
-/

namespace MiddleEnd

open LowerM Lowering

-- ════════════════════════════════════════════════════════════════════════
-- Operands that wait
-- ════════════════════════════════════════════════════════════════════════

/-- What an instruction does to the operands that wait for their call, the latest last. A call takes as
many as it says, and there is no answer if fewer wait. -/
def Instr.stack? (i : Instr) (stack : List Operand) : Option (List Operand) :=
  match i.opcode with
  | .param => some (stack ++ [i.src1])
  | .call => do
    let count ← i.src2.int?
    guard (0 ≤ count ∧ count ≤ stack.length)
    return stack.take (stack.length - count.toNat)
  | _ => some stack

/-- What instructions do to the operands that wait, one after the other. -/
def replay? (stack : List Operand) (code : List Instr) : Option (List Operand) :=
  code.foldlM (fun stack i => i.stack? stack) stack

namespace Instr

variable {i : Instr}

theorem stack?_param (h : i.opcode = .param) (stack : List Operand) :
    i.stack? stack = some (stack ++ [i.src1]) := by
  simp [stack?, h]

theorem stack?_call {values : List Operand} (h : i.opcode = .call) (hsrc : i.src2 = .int values.length)
    (rest : List Operand) : i.stack? (rest ++ values) = some rest := by
  simp [stack?, h, hsrc, Operand.int?, guard]

theorem stack?_plain (hparam : i.opcode ≠ .param) (hcall : i.opcode ≠ .call) (stack : List Operand) :
    i.stack? stack = some stack := by
  unfold stack?
  split <;> first | contradiction | rfl

theorem stack?_of_isTerminator (h : i.isTerminator = true) (stack : List Operand) :
    i.stack? stack = some stack := by
  refine stack?_plain (fun hop => ?_) (fun hop => ?_) stack <;>
    (rw [isTerminator, hop] at h; cases h)

end Instr

theorem replay?_append (stack : List Operand) (xs ys : List Instr) :
    replay? stack (xs ++ ys) = (replay? stack xs).bind fun stack' => replay? stack' ys :=
  List.foldlM_append

theorem replay?_concat (stack : List Operand) (xs : List Instr) (i : Instr) :
    replay? stack (xs ++ [i]) = (replay? stack xs).bind i.stack? := by
  rw [replay?_append]
  refine congrArg _ (funext fun stack' => ?_)
  simp [replay?]

/-- Replaying depends on the operations and sources alone. -/
theorem replay?_map {g : Instr → Instr} (hg : ∀ i stack, (g i).stack? stack = i.stack? stack)
    (stack : List Operand) (code : List Instr) : replay? stack (code.map g) = replay? stack code := by
  simp [replay?, List.foldlM_map, hg]

-- ════════════════════════════════════════════════════════════════════════
-- Balance
-- ════════════════════════════════════════════════════════════════════════

/-- The operands that wait before an instruction are right for it: a call takes the arguments of its
expression, each successor expects what waits, and nothing is left when the function is left. -/
structure Instr.Suits (unit : SourceUnit) (f : Function) (starts : BlockId → List Operand) (b : BlockId)
    (k : Nat) (i : Instr) (stack : List Operand) : Prop where
  succeeds : ∃ stack', i.stack? stack = some stack'
  targets : ∀ t ∈ i.targets, t < f.blockCount ∧ starts t = stack
  call : i.opcode = .call → ∃ rest values, stack = rest ++ values ∧ i.src2 = .int values.length ∧
    CallSite unit f b k i values
  ret : i.opcode = .ret → stack = []

/-- With the given operands at the start of each block, those that wait are right for every instruction. -/
def Function.Balanced (unit : SourceUnit) (starts : BlockId → List Operand) (f : Function) : Prop :=
  ∀ (b : BlockId) (k : Nat) (i : Instr), (f.code b)[k]? = some i → ∃ stack,
    replay? (starts b) ((f.code b).take k) = some stack ∧ i.Suits unit f starts b k stack

/-- So far everything is balanced. Of each open block it is known what waits at its end: in the current
block the operands that are carried along, in another one those that wait at its start. -/
structure Lowering.Balanced (unit : SourceUnit) (starts : BlockId → List Operand) (s : Lowering)
    (waiting : Option (List Operand)) (known : Starts) : Prop where
  entry : starts 0 = []
  lt : s.current < s.fn.blockCount
  code : s.fn.Balanced unit starts
  closed : waiting = none → s.fn.Closed s.current
  current : ∀ stack, waiting = some stack → s.IsOpen →
    replay? (starts s.current) (s.fn.code s.current) = some stack
  others : ∀ b < s.fn.blockCount, b ≠ s.current → ¬ s.fn.Closed b →
    replay? (starts b) (s.fn.code b) = some (starts b) ∧ (starts b = [] ∨ (b, starts b) ∈ known)
  known : ∀ x ∈ known, x.1 < s.fn.blockCount ∧ starts x.1 = x.2

section Steps

variable {unit : SourceUnit} {starts starts' : BlockId → List Operand} {f g : Function} {b : BlockId}
  {k : Nat} {i : Instr} {stack : List Operand}

/-- What is right for an instruction stays right as the function grows. -/
theorem Instr.Suits.mono (h : i.Suits unit f starts b k stack) (hpart : f.PartOf g)
    (hcount : f.blockCount ≤ g.blockCount) (hstarts : ∀ t < f.blockCount, starts' t = starts t) :
    i.Suits unit g starts' b k stack where
  succeeds := h.succeeds
  targets t ht := by
    obtain ⟨hlt, heq⟩ := h.targets t ht
    exact ⟨Nat.lt_of_lt_of_le hlt hcount, (hstarts t hlt).trans heq⟩
  call hop := by
    obtain ⟨rest, values, heq, hsrc, hsite⟩ := h.call hop
    exact ⟨rest, values, heq, hsrc, hsite.mono hpart⟩
  ret := h.ret

theorem Function.Balanced.of_code (h : f.Balanced unit starts) (hcode : g.code = f.code)
    (hcount : f.blockCount ≤ g.blockCount) (hstarts : ∀ t < f.blockCount, starts' t = starts t) :
    g.Balanced unit starts' := by
  intro b k i hi
  rw [hcode] at hi ⊢
  obtain ⟨stack, hreplay, hsuits⟩ := h b k i hi
  rw [hstarts b (lt_of_mem_code (List.mem_of_getElem? hi))]
  exact ⟨stack, hreplay, hsuits.mono (fun _ _ _ hj _ => by rw [hcode]; exact hj) hcount hstarts⟩

variable {s s' : Lowering} {known known' : Starts} {waiting : Option (List Operand)}

/-- An instruction with a given effect is right for the operands that wait. -/
theorem Progress.Effect.suits (h : Effect unit s known i stack waiting)
    (hknown : ∀ x ∈ known, x.1 < s.fn.blockCount ∧ starts x.1 = x.2) :
    i.Suits unit s.fn starts s.current (s.fn.code s.current).length stack ∧
      (∀ stack', waiting = some stack' → i.stack? stack = some stack') ∧
      (waiting = none → i.isTerminator = true) := by
  have hstraight : i.isTerminator = false → ∀ t ∈ i.targets, t < s.fn.blockCount ∧ starts t = stack := by
    intro hterm t ht
    rw [targets_of_not_isTerminator hterm] at ht
    cases ht
  have hterm : ∀ {op : Opcode}, i.opcode = op → i.isTerminator = op.isTerminator := by
    rintro op rfl
    rfl
  cases h with
  | plain hplain hparam hcall =>
    have hstack := Instr.stack?_plain hparam hcall stack
    refine ⟨⟨⟨stack, hstack⟩, hstraight hplain, fun hop => absurd hop hcall, fun hop => ?_⟩, ?_, nofun⟩
    · rw [hterm hop] at hplain
      cases hplain
    · rintro _ ⟨⟩
      exact hstack
  | param hop =>
    have hstack := Instr.stack?_param hop stack
    refine ⟨⟨⟨_, hstack⟩, hstraight (hterm hop), fun hop' => ?_, fun hop' => ?_⟩, ?_, nofun⟩
    · cases hop.symm.trans hop'
    · cases hop.symm.trans hop'
    · rintro _ ⟨⟩
      exact hstack
  | @call rest values hop hsrc hsite =>
    have hstack := Instr.stack?_call hop hsrc rest
    refine ⟨⟨⟨_, hstack⟩, hstraight (hterm hop), fun _ => ⟨rest, values, rfl, hsrc, hsite⟩, fun hop' => ?_⟩,
      ?_, nofun⟩
    · cases hop.symm.trans hop'
    · rintro _ ⟨⟩
      exact hstack
  | leave hleave htargets hret =>
    refine ⟨⟨⟨stack, Instr.stack?_of_isTerminator hleave stack⟩, fun t ht => hknown _ (htargets t ht),
      fun hop => ?_, hret⟩, nofun, fun _ => hleave⟩
    rw [hterm hop] at hleave
    cases hleave

namespace Lowering.Balanced

theorem still (h : Balanced unit starts s waiting known) (hblocks : s'.fn.blocks = s.fn.blocks)
    (hcurrent : s'.current = s.current) : Balanced unit starts s' waiting known := by
  have hcode : s'.fn.code = s.fn.code := by
    funext b
    rw [Function.code, Function.code, hblocks]
  have hcount : s'.fn.blockCount = s.fn.blockCount := by rw [Function.blockCount, hblocks]; rfl
  obtain ⟨hentry, hlt, hbalanced, hclosed, hcur, hothers, hknown⟩ := h
  refine ⟨hentry, by simpa only [hcount, hcurrent] using hlt,
    hbalanced.of_code hcode hcount.ge fun _ _ => rfl, ?_, ?_, ?_, ?_⟩
  · simpa only [Function.Closed, hcode, hcurrent] using hclosed
  · simpa only [Lowering.IsOpen, Function.Closed, hcode, hcurrent] using hcur
  · simpa only [Function.Closed, hcode, hcurrent, hcount] using hothers
  · simpa only [hcount] using hknown

/-- Nobody leads to a new block yet, so anything may wait at its start. -/
theorem grown (h : Balanced unit starts s waiting known) (label : String) (stack : List Operand) :
    Balanced unit (Function.update starts s.fn.blockCount stack) (s.grown label) waiting
      ((s.fn.blockCount, stack) :: known) := by
  have hcode : (s.grown label).fn.code = s.fn.code := funext (s.fn.code_grown label)
  have hcount : (s.grown label).fn.blockCount = s.fn.blockCount + 1 := s.fn.blockCount_grown label
  have hold : ∀ b < s.fn.blockCount, Function.update starts s.fn.blockCount stack b = starts b :=
    fun b hb => Function.update_of_ne (Nat.ne_of_lt hb) _ _
  obtain ⟨hentry, hlt, hbalanced, hclosed, hcur, hothers, hknown⟩ := h
  have hle : s.fn.blockCount ≤ (s.grown label).fn.blockCount := hcount ▸ Nat.le_succ _
  refine ⟨(hold 0 (Nat.zero_lt_of_lt hlt)).trans hentry, Nat.lt_of_lt_of_le hlt hle,
    hbalanced.of_code hcode hle hold, fun hnone => ?_, fun stack' hsome hopen => ?_,
    fun b hb hne hopen => ?_, fun x hx => ?_⟩
  · rw [Function.Closed, hcode]
    exact hclosed hnone
  · rw [Lowering.IsOpen, Function.Closed, hcode] at hopen
    rw [hcode, show (s.grown label).current = s.current from rfl, hold _ hlt]
    exact hcur stack' hsome hopen
  · rw [Function.Closed, hcode] at hopen
    rw [hcode]
    obtain rfl | hne' := eq_or_ne b s.fn.blockCount
    · have hempty : s.fn.code s.fn.blockCount = [] := by simp [Function.code, Function.blockCount]
      rw [hempty, Function.update_self]
      exact ⟨rfl, .inr List.mem_cons_self⟩
    · have hb' : b < s.fn.blockCount := by omega
      rw [hold b hb']
      exact (hothers b hb' hne hopen).imp_right (Or.imp_right (List.mem_cons_of_mem _))
  · obtain rfl | hx := List.mem_cons.mp hx
    · exact ⟨hcount ▸ Nat.lt_succ_self _, Function.update_self _ _ _⟩
    · obtain ⟨hlt', heq⟩ := hknown x hx
      exact ⟨Nat.lt_of_lt_of_le hlt' hle, (hold _ hlt').trans heq⟩

/-- The appended instruction finds what it needs, and what waits after it is carried along. -/
theorem pushed (h : Balanced unit starts s (some stack) known) (hopen : s.IsOpen)
    (hpart : s.fn.PartOf (s.pushed i).fn) (heffect : Progress.Effect unit s known i stack waiting) :
    Balanced unit starts (s.pushed i) waiting known := by
  obtain ⟨hentry, hlt, hbalanced, hclosed, hcur, hothers, hknown⟩ := h
  have hcount : (s.pushed i).fn.blockCount = s.fn.blockCount := s.fn.blockCount_pushed s.current i
  have hself : (s.pushed i).fn.code s.current = s.fn.code s.current ++ [i] :=
    s.fn.code_pushed_self s.current i hlt
  have hne : ∀ b, b ≠ s.current → (s.pushed i).fn.code b = s.fn.code b :=
    fun b hb => s.fn.code_pushed_ne s.current i hb
  have hreplay := hcur stack rfl hopen
  obtain ⟨hsuits, hafter, hleaves⟩ := heffect.suits hknown
  have hmono : ∀ {b k j stack}, Instr.Suits unit s.fn starts b k j stack →
      j.Suits unit (s.pushed i).fn starts b k stack := fun hj => hj.mono hpart hcount.ge fun _ _ => rfl
  refine ⟨hentry, hcount ▸ hlt, fun b k j hj => ?_, fun hnone => ?_, fun stack' hsome _ => ?_,
    fun b hb hb' hopen' => ?_, fun x hx => ?_⟩
  · obtain rfl | hb := eq_or_ne b s.current
    · rw [hself] at hj ⊢
      obtain hk | hk := Nat.lt_or_ge k (s.fn.code s.current).length
      · -- An instruction that was there before.
        rw [List.getElem?_append_left hk] at hj
        obtain ⟨before, hbefore, hj⟩ := hbalanced _ k j hj
        rw [List.take_append_of_le_length (Nat.le_of_lt hk)]
        exact ⟨before, hbefore, hmono hj⟩
      · -- The new instruction.
        have hk' := (List.getElem?_eq_some_iff.mp hj).1
        obtain rfl : k = (s.fn.code s.current).length := by
          simp only [List.length_append, List.length_singleton] at hk'
          omega
        rw [List.getElem?_concat_length] at hj
        cases hj
        rw [List.take_left]
        exact ⟨stack, hreplay, hmono hsuits⟩
    · rw [hne b hb] at hj ⊢
      obtain ⟨before, hbefore, hj⟩ := hbalanced b k j hj
      exact ⟨before, hbefore, hmono hj⟩
  · exact (closed_pushed hlt i).mpr (hleaves hnone)
  · change replay? (starts s.current) ((s.pushed i).fn.code s.current) = some stack'
    rw [hself, replay?_concat, hreplay]
    exact hafter stack' hsome
  · rw [Function.Closed, hne b hb'] at hopen'
    rw [hne b hb']
    exact hothers b (hcount ▸ hb) hb' hopen'
  · rw [hcount]
    exact hknown x hx

/-- Control goes on where it is known what waits. -/
theorem enter (h : Balanced unit starts s none known) (hb : (b, stack) ∈ known) :
    Balanced unit starts { s with current := b } (some stack) known := by
  obtain ⟨hentry, hlt, hbalanced, hclosed, hcur, hothers, hknown⟩ := h
  have hleft := hclosed rfl
  have hne : ∀ c, ¬ s.fn.Closed c → c ≠ s.current := fun c hc heq => hc (heq ▸ hleft)
  obtain ⟨hlt', heq⟩ := hknown _ hb
  refine ⟨hentry, hlt', hbalanced, nofun, ?_, fun c hc _ hopen => hothers c hc (hne c hopen) hopen, hknown⟩
  rintro _ ⟨⟩ hopen
  obtain ⟨hreplay, _⟩ := hothers b hlt' (hne b hopen) hopen
  exact hreplay.trans (congrArg some heq)

theorem forget (h : Balanced unit starts s waiting known) (hsub : known' ⊆ known)
    (hrest : ∀ x ∈ known, x ∈ known' ∨ x.1 = s.current ∨ x.2 = []) :
    Balanced unit starts s waiting known' := by
  obtain ⟨hentry, hlt, hbalanced, hclosed, hcur, hothers, hknown⟩ := h
  refine ⟨hentry, hlt, hbalanced, hclosed, hcur, fun b hb hne hopen => ?_, fun x hx => hknown x (hsub hx)⟩
  obtain ⟨hreplay, hstart⟩ := hothers b hb hne hopen
  refine ⟨hreplay, hstart.elim .inl fun hmem => ?_⟩
  obtain hmem | heq | hnil := hrest _ hmem
  · exact .inr hmem
  · exact absurd heq hne
  · exact .inl hnil

end Lowering.Balanced

namespace Progress

/-- A move keeps everything balanced. -/
theorem Move.balanced {p q : Progress} (h : Move unit p q)
    (hp : p.state.Balanced unit starts p.stack p.starts) :
    ∃ starts', q.state.Balanced unit starts' q.stack q.starts := by
  have hext := h.extends
  cases h with
  | still _ hblocks hcurrent _ => exact ⟨starts, hp.still hblocks hcurrent⟩
  | grown label stack _ => exact ⟨_, hp.grown label stack⟩
  | labelled label id name => exact ⟨_, (hp.grown label []).still rfl rfl⟩
  | opened =>
    refine ⟨_, ((hp.grown "dead" []).enter List.mem_cons_self).forget (List.subset_cons_self _ _) fun x hx => ?_⟩
    obtain rfl | hx := List.mem_cons.mp hx
    · exact .inr (.inr rfl)
    · exact .inl hx
  | pushed hlt hopen _ _ heffect => exact ⟨starts, hp.pushed hopen hext.partOf heffect⟩
  | enter hb => exact ⟨starts, hp.enter hb⟩
  | closed hclosed => exact ⟨starts, { hp with
      closed := fun _ => hclosed
      current := nofun }⟩
  | idle stack => exact ⟨starts, { hp with
      closed := nofun
      current := fun _ _ hopen => absurd (hp.closed rfl) hopen }⟩
  | forget hsub hrest => exact ⟨starts, hp.forget hsub hrest⟩

/-- So does a chain of moves. -/
theorem Run.balanced {p q : Progress} (h : Run unit p q)
    (hp : p.state.Balanced unit starts p.stack p.starts) :
    ∃ starts', q.state.Balanced unit starts' q.stack q.starts := by
  induction h with
  | refl => exact ⟨starts, hp⟩
  | tail _ hmove ih =>
    obtain ⟨starts', hmid⟩ := ih
    exact hmove.balanced hmid

end Progress

end Steps

-- ════════════════════════════════════════════════════════════════════════
-- Paths
-- ════════════════════════════════════════════════════════════════════════

namespace Function

variable {unit : SourceUnit} {starts : BlockId → List Operand} {f : Function} {b : BlockId}

/-- The instructions on a path before its last block. A path lists its last block first. -/
def codeBefore (f : Function) (path : List BlockId) : List Instr := path.tail.reverse.flatMap f.code

/-- No instruction of a block takes more than there is. -/
theorem Balanced.exists_replay_take (h : f.Balanced unit starts) (b : BlockId) (k : Nat) :
    ∃ stack, replay? (starts b) ((f.code b).take k) = some stack := by
  induction k with
  | zero => exact ⟨starts b, rfl⟩
  | succ k ih =>
    rw [List.take_add_one]
    cases hi : (f.code b)[k]? with
    | none => rwa [Option.toList_none, List.append_nil]
    | some i =>
      obtain ⟨stack, hreplay, hsuits⟩ := h b k i hi
      obtain ⟨stack', hstack⟩ := hsuits.succeeds
      refine ⟨stack', ?_⟩
      rw [Option.toList_some, replay?_concat, hreplay]
      exact hstack

/-- What waits at the end of a block is what its successors expect. -/
theorem Balanced.replay_code (h : f.Balanced unit starts) (hf : f.Shaped) {c : BlockId}
    (hedge : c ∈ f.succs b) : replay? (starts b) (f.code b) = some (starts c) := by
  obtain ⟨last, hlast, ht⟩ := (hf.succs b c).mp hedge
  have hterm : last.isTerminator = true := by
    by_contra hnot
    rw [targets_of_not_isTerminator (Bool.eq_false_iff.mpr hnot)] at ht
    cases ht
  rw [List.getLast?_eq_getElem?] at hlast
  obtain ⟨stack, hreplay, hsuits⟩ := h b _ last hlast
  rw [← List.getLast?_eq_getElem?] at hlast
  rw [← List.dropLast_append_getLast? last hlast, replay?_concat, List.dropLast_eq_take, hreplay,
    (hsuits.targets c ht).2]
  exact Instr.stack?_of_isTerminator hterm stack

/-- What waits at the start of a block is the same on every path that leads there. -/
theorem Balanced.replay_path (h : f.Balanced unit starts) (hf : f.Shaped) (hentry : starts f.entry = [])
    {path : List BlockId} (hpath : f.Path f.entry b path) :
    replay? [] (f.codeBefore path) = some (starts b) := by
  induction hpath with
  | nil => exact congrArg some hentry.symm
  | @snoc b c path hpath hedge ih =>
    obtain ⟨rest, rfl⟩ := hpath.eq_cons
    have hbefore : f.codeBefore (c :: b :: rest) = f.codeBefore (b :: rest) ++ f.code b := by
      simp [codeBefore]
    rw [hbefore, replay?_append, ih]
    exact h.replay_code hf hedge

/-- The return that ends an open block is its only new instruction. -/
theorem eq_of_getElem?_closing {k : Nat} {i : Instr} (h : (f.closing b)[k]? = some i) :
    k = 0 ∧ b < f.blockCount ∧ ¬ f.Closed b ∧ i = .ret .none f.line := by
  have hi := mem_closing (List.mem_of_getElem? h)
  unfold closing at h
  split at h
  · rename_i block hblock
    split at h
    · simp at h
    · rename_i hopen
      obtain ⟨hk, _⟩ := List.getElem?_eq_some_iff.mp h
      refine ⟨Nat.lt_one_iff.mp hk, (Array.getElem?_eq_some_iff.mp hblock).1, fun hclosed => ?_, hi⟩
      exact hopen ((isTerminated_iff hblock).mpr hclosed)
  · simp at h

end Function

/-- Finishing a function keeps it balanced: nothing waits at the end of its open blocks. -/
theorem Lowering.Balanced.finished {unit : SourceUnit} {starts : BlockId → List Operand} {avail : Avail}
    {s : Lowering} (h : s.Balanced unit starts (some []) []) (hsound : s.Sound avail) :
    s.finished.Balanced unit starts := by
  have hfinal : s.Final := ⟨avail, hsound⟩
  have hstack : ∀ b i stack, (s.aligned b i).stack? stack = i.stack? stack :=
    fun b i stack => by simp [aligned, Instr.stack?]
  intro b k i hi
  rw [hsound.code_finished, List.getElem?_map, Function.code_closeBlocks] at hi
  obtain ⟨j, hj, rfl⟩ := Option.map_eq_some_iff.mp hi
  rw [hsound.code_finished, ← List.map_take, replay?_map (hstack b), Function.code_closeBlocks]
  obtain hk | hk := Nat.lt_or_ge k (s.fn.code b).length
  · rw [List.getElem?_append_left hk] at hj
    obtain ⟨stack, hreplay, hsuits⟩ := h.code b k j hj
    rw [List.take_append_of_le_length (Nat.le_of_lt hk)]
    refine ⟨stack, hreplay, ?_⟩
    cases hphi : j.isPhi with
    | false =>
      rw [hfinal.aligned_eq (List.mem_of_getElem? hj) hphi]
      exact hsuits.mono hfinal.partOf_finished s.blockCount_finished.ge fun _ _ => rfl
    | true =>
      -- A phi has other arguments now, and nothing to do with what waits.
      have hop : (s.aligned b j).opcode = .phi := by simpa [aligned, Instr.isPhi] using hphi
      refine ⟨by rw [hstack]; exact hsuits.succeeds, fun t ht => ?_, fun hcall => ?_, fun hret => ?_⟩
      · rw [Instr.targets_of_isPhi (by rw [Instr.isPhi, hop]; rfl)] at ht
        cases ht
      · cases hop.symm.trans hcall
      · cases hop.symm.trans hret
  · rw [List.getElem?_append_right hk] at hj
    obtain ⟨hzero, hlt, hopen, rfl⟩ := Function.eq_of_getElem?_closing hj
    obtain rfl : k = (s.fn.code b).length := by omega
    rw [List.take_left]
    refine ⟨[], ?_, ⟨⟨[], rfl⟩, List.forall_mem_nil _, by rintro ⟨⟩, fun _ => rfl⟩⟩
    obtain rfl | hne := eq_or_ne b s.current
    · exact h.current [] rfl hopen
    · obtain ⟨hreplay, hstart⟩ := h.others b hlt hne hopen
      rw [hreplay, hstart.resolve_right List.not_mem_nil]

/-- On every path from the entry of a lowered function the arguments match the calls. What waits at the start
of a block does not depend on the path, no call takes more than there is, and a call takes exactly what
lowering the arguments of its expression answered. Nothing waits where the function is left. -/
theorem SourceUnit.lowerFunction_balanced {unit : SourceUnit} {texts texts' : Interner} {decl : FunctionDecl}
    {f : Function} (h : unit.lowerFunction texts decl = .ok (some f, texts')) :
    ∃ starts : BlockId → List Operand, ∀ b path, f.Path f.entry b path →
      replay? [] (f.codeBefore path) = some (starts b) ∧
      ∀ k, ∃ stack, replay? [] (f.codeBefore path ++ (f.code b).take k) = some stack ∧
        ∀ i, (f.code b)[k]? = some i →
          (i.opcode = .call → ∃ rest values, stack = rest ++ values ∧ i.src2 = .int values.length ∧
            CallSite unit f b k i values) ∧
          (i.opcode = .ret → stack = []) := by
  obtain ⟨start, last, avail, rfl, hsound, hcurrent, hnonempty, hcode, hrun⟩ := exists_run_lowerFunction h
  -- Nothing waits in the beginning.
  have hstart : start.Balanced unit (fun _ => []) (some []) [] := by
    refine ⟨rfl, hcurrent ▸ hnonempty, fun b k i hi => ?_, nofun, fun stack hstack _ => ?_,
      fun b _ _ _ => ?_, nofun⟩
    · rw [hcode] at hi
      cases hi
    · rw [hcode]
      exact hstack
    · rw [hcode]
      exact ⟨rfl, .inl rfl⟩
  obtain ⟨starts, hlast⟩ := hrun.balanced hstart
  have hbalanced := hlast.finished hsound
  have hentry : starts last.finished.entry = [] := by
    rw [hsound.lowered.entry]
    exact hlast.entry
  refine ⟨starts, fun b path hpath => ?_⟩
  have hpath' := hbalanced.replay_path hsound.lowered.shaped hentry hpath
  refine ⟨hpath', fun k => ?_⟩
  obtain ⟨stack, hreplay⟩ := hbalanced.exists_replay_take b k
  refine ⟨stack, by rw [replay?_append, hpath']; exact hreplay, fun i hi => ?_⟩
  obtain ⟨_, hreplay', hsuits⟩ := hbalanced b k i hi
  cases hreplay.symm.trans hreplay'
  exact ⟨hsuits.call, hsuits.ret⟩

/-- A unit with the function `int outer(int a, int b) { return f(h(a), a && h(b)); }`. -/
def outerUnit : SourceUnit where
  names := { texts := #["f", "h", "a", "b", "outer"] }
  exprs := #[
    { kind := .ident 2, ty := some TypeTable.int, line := 1 },
    { kind := .call 1 [0], ty := some TypeTable.int, line := 1 },
    { kind := .ident 2, ty := some TypeTable.int, line := 1 },
    { kind := .ident 3, ty := some TypeTable.int, line := 1 },
    { kind := .call 1 [3], ty := some TypeTable.int, line := 1 },
    { kind := .binary .logicalAnd 2 4, ty := some TypeTable.int, line := 1 },
    { kind := .call 0 [1, 5], ty := some TypeTable.int, line := 1 }]
  stmts := #[
    { kind := .ret (some 6), ty := none, line := 1 },
    { kind := .block [0], ty := none, line := 1 }]

/-- The declaration of that function. -/
def outerDecl : FunctionDecl where
  name := 4
  returnType := TypeTable.int
  params := [⟨some 2, TypeTable.int⟩, ⟨some 3, TypeTable.int⟩]
  body := some 1
  line := 1

/-- The first argument of `f` waits where the sides of `&&` meet, whether or not `h(b)` was called on the
way, and the call of `f` takes two operands there. -/
theorem outer_balanced : ∃ f texts, outerUnit.lowerFunction {} outerDecl = .ok (some f, texts) ∧
    ∃ waiting call values, replay? [] (f.codeBefore [2, 0]) = some [waiting] ∧
      replay? [] (f.codeBefore [2, 1, 0]) = some [waiting] ∧ (f.code 2)[2]? = some call ∧
      replay? [] (f.codeBefore [2, 1, 0] ++ (f.code 2).take 2) = some values ∧ values.length = 2 ∧
      CallSite outerUnit f 2 2 call values := by
  have hedges : ((outerUnit.lowerFunction {} outerDecl).toOption.bind (·.1)).map (fun f =>
      (f.entry, f.succs 0, f.succs 1)) = some (0, [1, 2], [2]) := by
    decide +kernel
  have hcall : ((outerUnit.lowerFunction {} outerDecl).toOption.bind (·.1)).map (fun f =>
      ((f.code 2)[2]?).map fun i => (i.opcode, i.src2)) = some (some (.call, .int 2)) := by
    decide +kernel
  have hlengths : ((outerUnit.lowerFunction {} outerDecl).toOption.bind (·.1)).map (fun f =>
      ((replay? [] (f.codeBefore [2, 0])).map List.length,
        (replay? [] (f.codeBefore [2, 1, 0] ++ (f.code 2).take 2)).map List.length)) =
      some (some 1, some 2) := by
    decide +kernel
  obtain ⟨f, hf, hedges⟩ := Option.map_eq_some_iff.mp hedges
  obtain ⟨texts, hlower⟩ := exists_of_toOption_bind hf
  rw [hf] at hcall hlengths
  simp only [Option.map_some, Option.some.injEq, Prod.mk.injEq] at hedges hcall hlengths
  obtain ⟨hentry, hzero, hone⟩ := hedges
  obtain ⟨call, hget, hcall⟩ := Option.map_eq_some_iff.mp hcall
  obtain ⟨starts, hbalanced⟩ := SourceUnit.lowerFunction_balanced hlower
  have hshort : f.Path f.entry 2 [2, 0] := by
    rw [hentry]
    exact Function.Path.nil.snoc (by simp [hzero])
  have hlong : f.Path f.entry 2 [2, 1, 0] := by
    rw [hentry]
    exact (Function.Path.nil.snoc (by simp [hzero])).snoc (by simp [hone])
  obtain ⟨hstart, _⟩ := hbalanced 2 [2, 0] hshort
  obtain ⟨hstart', hplaces⟩ := hbalanced 2 [2, 1, 0] hlong
  obtain ⟨stack, hstack, hcalls⟩ := hplaces 2
  obtain ⟨rest, values, rfl, hsrc, hsite⟩ := (hcalls call hget).1 (Prod.mk.inj hcall).1
  rw [hstart, hstack, Option.map_some, Option.map_some, Option.some.injEq, Option.some.injEq] at hlengths
  -- The call takes all that waits.
  have hcount : values.length = 2 := by
    have hint : Operand.int values.length = .int 2 := hsrc.symm.trans (Prod.mk.inj hcall).2
    exact_mod_cast Operand.int.inj hint
  obtain rfl : rest = [] := by
    rw [List.length_append, hcount] at hlengths
    exact List.eq_nil_of_length_eq_zero (by omega)
  obtain ⟨waiting, hwaiting⟩ := List.length_eq_one_iff.mp hlengths.1
  rw [hwaiting] at hstart hstart'
  exact ⟨f, texts, hlower, waiting, call, values, hstart, hstart', hget, hstack, hcount, hsite⟩

end MiddleEnd
