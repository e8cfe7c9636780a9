import MiddleEnd.Proofs.Lowering.Expr

/-!
# In the middle of a statement

Statements hand no registers to each other, so nothing is available at the start of the blocks that they
make. The blocks that a statement sets aside stay empty until it comes to them, whatever its parts do.

## Main definitions

* `Lowering.Advances`: what may change while a statement is lowered.
* `Lowering.Stage`: a state in the middle of a statement, with the blocks that it has set aside.
* `Lowers`: a way to lower statements that keeps the invariant.

## Main statements

* `Lowering.Stage.advance`: the parts of a statement leave what it has set aside alone.
* `Lowering.Stage.ensures_newBlock`, `Lowering.Stage.ensures_fillBlock`,
  `Lowering.Stage.ensures_withLoop`: what the actions of a statement do to its stage.
-/

namespace MiddleEnd

open LowerM

namespace Lowering

-- ════════════════════════════════════════════════════════════════════════
-- Advances
-- ════════════════════════════════════════════════════════════════════════

/-- The blocks of the labels. -/
def labelled (s : Lowering) : List BlockId := s.labelBlocks.map (·.2)

/-- What may change while a statement is lowered, seen from a time when there were `m` blocks: of the
blocks from that time only the current one and those of labels get instructions, and these are no
phis. -/
structure Widens (m : Nat) (avail avail' : Avail) (s s' : Lowering) : Prop where
  blocks : s.fn.blockCount ≤ s'.fn.blockCount
  current : s'.current = s.current ∨ m ≤ s'.current ∨ s'.current ∈ s.labelled
  avail : ∀ b < m, avail' b = avail b
  kept : ∀ b < m, b ≠ s.current → b ∉ s.labelled → s'.fn.code b = s.fn.code b
  phi : ∀ b < m, ∀ i ∈ s'.fn.code b, i.isPhi = true → i ∈ s.fn.code b
  labels : s'.labelBlocks = s.labelBlocks

namespace Widens

variable {m : Nat} {avail avail' avail₁ avail₂ avail₃ : Avail} {s s' s₁ s₂ s₃ : Lowering}

theorem labelled_eq (h : Widens m avail avail' s s') : s'.labelled = s.labelled := by
  rw [labelled, labelled, h.labels]

theorem trans (h : Widens m avail₁ avail₂ s₁ s₂) (h' : Widens m avail₂ avail₃ s₂ s₃) :
    Widens m avail₁ avail₃ s₁ s₃ where
  blocks := Nat.le_trans h.blocks h'.blocks
  current := by
    rcases h'.current with heq | hge | hlabel
    · rw [heq]
      exact h.current
    · exact .inr (.inl hge)
    · exact .inr (.inr (h.labelled_eq ▸ hlabel))
  avail b hb := (h'.avail b hb).trans (h.avail b hb)
  kept b hb hne hlabel := by
    rw [h'.kept b hb ?_ (h.labelled_eq ▸ hlabel), h.kept b hb hne hlabel]
    rintro rfl
    rcases h.current with heq | hge | hmem
    · exact hne heq
    · exact Nat.not_lt.mpr hge hb
    · exact hlabel hmem
  phi b hb i hi hphi := h.phi b hb i (h'.phi b hb i hi hphi) hphi
  labels := h'.labels.trans h.labels

/-- What holds seen from a later time holds seen from an earlier one. -/
theorem weaken {m' : Nat} (h : Widens m avail avail' s s') (hm : m' ≤ m) :
    Widens m' avail avail' s s' where
  blocks := h.blocks
  current := h.current.imp id (Or.imp (Nat.le_trans hm) id)
  avail b hb := h.avail b (Nat.lt_of_lt_of_le hb hm)
  kept b hb := h.kept b (Nat.lt_of_lt_of_le hb hm)
  phi b hb := h.phi b (Nat.lt_of_lt_of_le hb hm)
  labels := h.labels

end Widens

variable {m k : Nat} {avail avail' avail₁ avail₂ avail₃ : Avail} {s s' s₁ s₂ s₃ : Lowering}

theorem Grows.widens (h : Grows m k avail avail' s s') : Widens m avail avail' s s' :=
  ⟨h.blocks, h.current.imp id .inl, h.avail, fun b hb hne _ => h.kept b hb hne, h.phi,
    h.scopes.labels⟩

/-- A change of what is current or in scope. -/
theorem widens_of_fn (hfn : s'.fn = s.fn)
    (hcurrent : s'.current = s.current ∨ m ≤ s'.current ∨ s'.current ∈ s.labelled)
    (hlabels : s'.labelBlocks = s.labelBlocks) : Widens m avail avail s s' :=
  ⟨Nat.le_of_eq (by rw [hfn]), hcurrent, fun _ _ => rfl, fun _ _ _ _ => by rw [hfn],
    fun _ _ _ hi _ => hfn ▸ hi, hlabels⟩

/-- From one state lowering comes to another, and jumps out of statements lead to the same blocks. -/
structure Advances (avail avail' : Avail) (s s' : Lowering) : Prop where
  sound : s'.Sound avail'
  widens : Widens s.fn.blockCount avail avail' s s'
  scopes : SameScopes s s'

theorem Advances.refl (h : s.Sound avail) : Advances avail avail s s :=
  ⟨h, widens_of_fn rfl (.inl rfl) rfl, .refl s⟩

theorem Advances.trans (h : Advances avail₁ avail₂ s₁ s₂) (h' : Advances avail₂ avail₃ s₂ s₃) :
    Advances avail₁ avail₃ s₁ s₃ :=
  ⟨h'.sound, h.widens.trans (h'.widens.weaken h.widens.blocks), h.scopes.trans h'.scopes⟩

theorem Reaches.advances (h : Reaches avail avail' s s') : Advances avail avail' s s' :=
  ⟨h.sound, h.grows.widens, h.grows.scopes⟩

theorem Alike.advances (halike : Alike s s₁) (h : Advances avail avail' s₁ s₂) (halike' : Alike s₂ s') :
    Advances avail avail' s s' := by
  have hwidens := h.widens
  rw [halike.fn] at hwidens
  have hfirst : Grows s.fn.blockCount 0 avail avail s s₁ := halike.grows
  have hlast : Grows s.fn.blockCount 0 avail' avail' s₂ s' := halike'.grows
  exact ⟨halike'.sound h.sound, (hfirst.widens.trans hwidens).trans hlast.widens,
    (halike.scopes.trans h.scopes).trans halike'.scopes⟩

theorem Free.advances {t : BlockId} (ht : s.Free avail t) (h : Advances avail avail' s s') :
    s'.Free avail' t where
  pos := ht.pos
  lt := Nat.lt_of_lt_of_le ht.lt h.widens.blocks
  avail r hr := by
    rw [h.widens.avail t ht.lt] at hr
    exact ht.avail r hr
  phi i hi := by
    refine Bool.eq_false_iff.mpr fun hphi => ?_
    have hfalse := ht.phi i (h.widens.phi t ht.lt i hi hphi)
    rw [hphi] at hfalse
    cases hfalse

/-- A terminator to blocks that may be entered from anywhere. -/
theorem Sound.leave (h : s.Sound avail) (hopen : s.IsOpen) {i : Instr}
    (hterm : i.isTerminator = true) (hdst : i.dst = .none)
    (hdetail : i.phiVar? = none ∧ i.phiArgs = []) (hsrc1 : s.Usable avail i.src1)
    (hsrc2 : i.src2.reg? = none) (htargets : ∀ t ∈ i.targets, s.Free avail t) :
    Advances avail avail s (s.pushed i) := by
  have hphi : i.isPhi = false := i.isPhi_of_isTerminator hterm
  have hsound : (s.pushed i).Sound avail := by
    refine h.push hopen ⟨⟨?_, fun r hr => (hsrc1 r hr).1, ?_, ?_⟩,
      ⟨hdetail.1, fun _ => hdst, fun _ => hdetail.2, by simp [hphi]⟩, fun r hr => .inr ?_,
      fun t ht => ?_, ?_, ?_⟩
    · simp [hdst, Operand.Below, Operand.reg?]
    · simp [Operand.Below, hsrc2]
    · simp [hdetail.2]
    · exact (hsrc1 r (by simpa [Instr.sources, hsrc2] using hr)).2
    · have hfree := htargets t ht
      exact ⟨hfree.pos, hfree.lt, fun r hr => absurd hr (hfree.avail r), hfree.phi⟩
    · simp [hphi]
    · simp [Instr.def?, hdst, Operand.reg?]
  refine ⟨hsound, ⟨Nat.le_of_eq (s.fn.blockCount_pushed s.current i).symm, .inl rfl,
    fun _ _ => rfl, fun b _ hne _ => s.fn.code_pushed_ne s.current i hne, fun b _ j hj hjphi => ?_,
    rfl⟩, ⟨rfl, rfl, rfl, rfl⟩⟩
  rcases s.fn.mem_code_pushed s.current i hj with hj | ⟨_, rfl⟩
  · exact hj
  · rw [hphi] at hjphi
    cases hjphi

theorem usable_of_reg? {operand : Operand} (h : operand.reg? = none) : s.Usable avail operand := by
  intro r hr
  rw [h] at hr
  cases hr

/-- A jump to a block that may be entered from anywhere. -/
theorem Sound.leave_jump (h : s.Sound avail) (hopen : s.IsOpen) {t : BlockId} (ht : s.Free avail t)
    (line : Nat) : Advances avail avail s (s.pushed (.jump t line)) := by
  refine h.leave hopen rfl rfl ⟨rfl, rfl⟩ (usable_of_reg? rfl) rfl fun x hx => ?_
  obtain rfl : x = t := by simpa [Instr.targets, Instr.jump, Operand.label?] using hx
  exact ht

/-- A branch to blocks that may be entered from anywhere. -/
theorem Sound.leave_branch (h : s.Sound avail) (hopen : s.IsOpen) {cond : Operand}
    (hcond : s.Usable avail cond) {t u : BlockId} (ht : s.Free avail t) (hu : s.Free avail u)
    (line : Nat) : Advances avail avail s (s.pushed (.branch cond t u line)) := by
  refine h.leave hopen rfl rfl ⟨rfl, rfl⟩ hcond rfl fun x hx => ?_
  have hx' : x = t ∨ x = u := by
    simpa [Instr.targets, Instr.branch, Operand.label?, Instr.falseTarget?] using hx
  rcases hx' with rfl | rfl
  · exact ht
  · exact hu

-- ════════════════════════════════════════════════════════════════════════
-- In the middle of a statement
-- ════════════════════════════════════════════════════════════════════════

/-- What a statement keeps track of while its parts are lowered. -/
structure Plan where
  /-- Where `break` and `continue` lead. -/
  breaks : List BlockId
  continues : List BlockId
  /-- The blocks of the statement to which edges may lead. -/
  free : List BlockId
  /-- Those among them that are still empty. -/
  reserved : List BlockId

/-- The plan with another block set aside. -/
def Plan.reserve (plan : Plan) (t : BlockId) : Plan :=
  { plan with free := t :: plan.free, reserved := t :: plan.reserved }

/-- A block of a statement that lowering has not come to. -/
structure Reserved (s : Lowering) (t : BlockId) : Prop where
  lt : t < s.fn.blockCount
  code : s.fn.code t = []
  ne : t ≠ s.current
  label : t ∉ s.labelled

/-- The state in the middle of a statement whose lowering began in the state `start`. -/
structure Stage (initial : Avail) (start : Lowering) (plan : Plan) (avail : Avail) (s : Lowering) :
    Prop where
  sound : s.Sound avail
  widens : Widens start.fn.blockCount initial avail start s
  gotos : s.gotoTargets = start.gotoTargets
  breaks : s.breakTargets = plan.breaks
  continues : s.continueTargets = plan.continues
  free : ∀ t ∈ plan.free, start.fn.blockCount ≤ t ∧ s.Free avail t
  reserved : ∀ t ∈ plan.reserved, t ∈ plan.free ∧ s.Reserved t

/-- The plan at the beginning of a statement. -/
def plan (s : Lowering) : Plan := ⟨s.breakTargets, s.continueTargets, [], []⟩

theorem Sound.stage (h : s.Sound avail) : Stage avail s s.plan avail s :=
  ⟨h, widens_of_fn rfl (.inl rfl) rfl, rfl, rfl, rfl, by simp [plan], by simp [plan]⟩

namespace Stage

variable {initial : Avail} {start : Lowering} {plan plan' : Plan}

/-- A block that the statement has made. -/
theorem free_of_mem (h : Stage initial start plan avail s) {t : BlockId} (ht : t ∈ plan.free) :
    s.Free avail t :=
  (h.free t ht).2

/-- What the statement has set aside stays as it is while one of its parts is lowered. -/
theorem advance (h : Stage initial start plan avail s) (hadv : Advances avail avail' s s') :
    Stage initial start plan avail' s' where
  sound := hadv.sound
  widens := h.widens.trans (hadv.widens.weaken h.widens.blocks)
  gotos := hadv.scopes.gotos.trans h.gotos
  breaks := hadv.scopes.breaks.trans h.breaks
  continues := hadv.scopes.continues.trans h.continues
  free t ht := ⟨(h.free t ht).1, (h.free t ht).2.advances hadv⟩
  reserved t ht := by
    obtain ⟨hfree, hres⟩ := h.reserved t ht
    refine ⟨hfree, Nat.lt_of_lt_of_le hres.lt hadv.widens.blocks, ?_, ?_, ?_⟩
    · rw [hadv.widens.kept t hres.lt hres.ne hres.label, hres.code]
    · rintro rfl
      rcases hadv.widens.current with heq | hge | hlabel
      · exact hres.ne heq
      · exact Nat.not_lt.mpr hge hres.lt
      · exact hres.label hlabel
    · rw [hadv.widens.labelled_eq]
      exact hres.label

/-- Lowering goes on in a block of the statement. -/
theorem switch (h : Stage initial start plan avail s) {t : BlockId} (ht : t ∈ plan.free)
    (hbreaks : plan'.breaks = plan.breaks) (hcontinues : plan'.continues = plan.continues)
    (hfree : ∀ u ∈ plan'.free, u ∈ plan.free)
    (hreserved : ∀ u ∈ plan'.reserved, u ∈ plan.reserved ∧ u ∈ plan'.free ∧ u ≠ t) :
    Stage initial start plan' avail { s with current := t } where
  sound := h.sound.switch (h.free t ht).2.lt
  widens := h.widens.trans (widens_of_fn rfl (.inr (.inl (h.free t ht).1)) rfl)
  gotos := h.gotos
  breaks := h.breaks.trans hbreaks.symm
  continues := h.continues.trans hcontinues.symm
  free u hu := by
    obtain ⟨hle, hpos, hlt, hav, hphi⟩ := h.free u (hfree u hu)
    exact ⟨hle, hpos, hlt, hav, hphi⟩
  reserved u hu := by
    obtain ⟨hmem, hfree', hne⟩ := hreserved u hu
    obtain ⟨_, hlt, hcode, _, hlabel⟩ := h.reserved u hmem
    exact ⟨hfree', hlt, hcode, hne, hlabel⟩

/-- A block that lowering has not come to is open when it does. -/
theorem isOpen_switch (h : Stage initial start plan avail s) {t : BlockId} (ht : t ∈ plan.reserved) :
    IsOpen { s with current := t } :=
  isOpen_of_code (h.reserved t ht).2.code

/-- A new block is set aside. -/
theorem reserve (h : Stage initial start plan avail s) (label : String) :
    Stage initial start (plan.reserve s.fn.blockCount) avail (s.grown label) := by
  have hcount : (s.grown label).fn.blockCount = s.fn.blockCount + 1 := s.fn.blockCount_grown label
  have hadv : Advances avail avail s (s.grown label) :=
    ⟨h.sound.grown label, (grows_grown (k := 0) label).widens, ⟨rfl, rfl, rfl, rfl⟩⟩
  have hold := h.advance hadv
  have hcode : (s.grown label).fn.code s.fn.blockCount = [] := by
    rw [show (s.grown label).fn.code s.fn.blockCount = _ from s.fn.code_grown label _,
      Function.code, Function.blockCount]
    simp
  have hscope : ∀ t ∈ s.scopes, t ≠ s.fn.blockCount :=
    fun t ht => Nat.ne_of_lt (h.sound.scopes t ht).lt
  refine ⟨hold.sound, hold.widens, hold.gotos, hold.breaks, hold.continues, ?_, ?_⟩
  · intro t ht
    rcases List.mem_cons.mp ht with rfl | ht
    · refine ⟨h.widens.blocks, Nat.lt_of_le_of_lt (Nat.zero_le _) h.sound.current, ?_, ?_, ?_⟩
      · rw [hcount]
        exact Nat.lt_succ_self _
      · exact fun r hr => Nat.lt_irrefl _ (h.sound.defined _ r hr).2.1
      · simp [hcode]
    · exact hold.free t ht
  · intro t ht
    rcases List.mem_cons.mp ht with rfl | ht
    · refine ⟨List.mem_cons_self, ?_, hcode, Nat.ne_of_gt h.sound.current, ?_⟩
      · rw [hcount]
        exact Nat.lt_succ_self _
      · intro hmem
        exact hscope _ (List.mem_append_right _ hmem) rfl
    · exact ⟨List.mem_cons_of_mem _ (hold.reserved t ht).1, (hold.reserved t ht).2⟩

/-- At the end of the statement jumps lead where they led at its beginning. -/
theorem finish (h : Stage initial start plan avail s) (hbreaks : plan.breaks = start.breakTargets)
    (hcontinues : plan.continues = start.continueTargets) : Advances initial avail start s :=
  ⟨h.sound, h.widens, ⟨h.breaks.trans hbreaks, h.continues.trans hcontinues, h.gotos,
    h.widens.labels⟩⟩

end Stage

/-- Other scopes, all of whose blocks may be entered from anywhere. -/
theorem Sound.rescope (h : s.Sound avail) (hfn : s'.fn = s.fn) (hcurrent : s'.current = s.current)
    (hscopes : ∀ t ∈ s'.scopes, s.Free avail t) : s'.Sound avail := by
  obtain ⟨h₀, h₁, h₂, h₃, h₄, h₅, h₆, h₇, h₈, h₉, h₁₀, h₁₁, h₁₂, h₁₃, h₁₄, _⟩ := h
  rw [← hfn] at h₀ h₁ h₂ h₃ h₄ h₅ h₆ h₇ h₈ h₉ h₁₀ h₁₁ h₁₂ h₁₃ h₁₄
  refine ⟨h₀, h₁, h₂, hcurrent ▸ h₃, h₄, h₅, h₆, h₇, h₈, h₉, h₁₀, h₁₁, h₁₂, h₁₃, h₁₄, fun t ht => ?_⟩
  obtain ⟨hpos, hlt, hav, hphi⟩ := hscopes t ht
  exact ⟨hpos, by rw [hfn]; exact hlt, hav, by rw [hfn]; exact hphi⟩

/-- Other targets for `break` and `continue`, taken from those that are there and from the blocks of the
statement. -/
theorem Stage.rescope {initial : Avail} {start : Lowering} {plan : Plan}
    (h : Stage initial start plan avail s) (breaks continues : List BlockId) (hfn : s'.fn = s.fn)
    (hcurrent : s'.current = s.current) (hgotos : s'.gotoTargets = s.gotoTargets)
    (hlabels : s'.labelBlocks = s.labelBlocks) (hbreaks : s'.breakTargets = breaks)
    (hcontinues : s'.continueTargets = continues) (hbreak : ∀ t ∈ breaks, t ∈ plan.breaks ∨ t ∈ plan.free)
    (hcontinue : ∀ t ∈ continues, t ∈ plan.continues ∨ t ∈ plan.free) :
    Stage initial start { plan with breaks, continues } avail s' where
  sound := by
    refine h.sound.rescope hfn hcurrent fun t ht => ?_
    have hold : ∀ u, u ∈ s.scopes → s.Free avail u := h.sound.scopes
    simp only [Lowering.scopes, List.mem_append, h.breaks, h.continues] at hold
    simp only [Lowering.scopes, List.mem_append, hbreaks, hcontinues, hgotos, hlabels] at ht
    rcases ht with ((ht | ht) | ht) | ht
    · exact (hbreak t ht).elim (fun ht => hold t (by simp [ht])) h.free_of_mem
    · exact (hcontinue t ht).elim (fun ht => hold t (by simp [ht])) h.free_of_mem
    · exact hold t (by simp [ht])
    · exact hold t (by simp [ht])
  widens := h.widens.trans (widens_of_fn hfn (.inl hcurrent) hlabels)
  gotos := hgotos.trans h.gotos
  breaks := hbreaks
  continues := hcontinues
  free t ht := by
    obtain ⟨hle, hpos, hlt, hav, hphi⟩ := h.free t ht
    exact ⟨hle, hpos, hfn ▸ hlt, hav, hfn ▸ hphi⟩
  reserved t ht := by
    obtain ⟨hfree, hlt, hcode, hne, hlabel⟩ := h.reserved t ht
    exact ⟨hfree, hfn ▸ hlt, hfn ▸ hcode, hcurrent ▸ hne, by rwa [labelled, hlabels]⟩

/-- A construct is entered that `break` leaves for a block of the statement. -/
theorem Stage.pushBreak {initial : Avail} {start : Lowering} {plan : Plan} {exit : BlockId}
    (h : Stage initial start plan avail s) (hexit : exit ∈ plan.free) :
    Stage initial start { plan with breaks := exit :: plan.breaks } avail (s.pushBreak exit) := by
  refine h.rescope (exit :: plan.breaks) plan.continues rfl rfl rfl rfl (congrArg (exit :: ·) h.breaks)
    h.continues (fun t ht => ?_) fun _ => .inl
  obtain rfl | ht := List.mem_cons.mp ht
  · exact .inr hexit
  · exact .inl ht

/-- The construct is left. -/
theorem Stage.popBreak {initial : Avail} {start : Lowering} {exit : BlockId}
    {breaks continues free reserved : List BlockId}
    (h : Stage initial start ⟨exit :: breaks, continues, free, reserved⟩ avail s) :
    Stage initial start ⟨breaks, continues, free, reserved⟩ avail s.popBreak :=
  h.rescope breaks continues rfl rfl rfl rfl (congrArg List.tail h.breaks) h.continues
    (fun _ ht => .inl (List.mem_cons_of_mem _ ht)) fun _ => .inl

/-- A loop is entered that `continue` repeats at a block of the statement. -/
theorem Stage.pushContinue {initial : Avail} {start : Lowering} {plan : Plan} {next : BlockId}
    (h : Stage initial start plan avail s) (hnext : next ∈ plan.free) :
    Stage initial start { plan with continues := next :: plan.continues } avail (s.pushContinue next) := by
  refine h.rescope plan.breaks (next :: plan.continues) rfl rfl rfl rfl h.breaks
    (congrArg (next :: ·) h.continues) (fun _ => .inl) fun t ht => ?_
  obtain rfl | ht := List.mem_cons.mp ht
  · exact .inr hnext
  · exact .inl ht

/-- The loop is left. -/
theorem Stage.popContinue {initial : Avail} {start : Lowering} {next : BlockId}
    {breaks continues free reserved : List BlockId}
    (h : Stage initial start ⟨breaks, next :: continues, free, reserved⟩ avail s) :
    Stage initial start ⟨breaks, continues, free, reserved⟩ avail s.popContinue :=
  h.rescope breaks continues rfl rfl rfl rfl h.breaks (congrArg List.tail h.continues) (fun _ => .inl)
    fun _ ht => .inl (List.mem_cons_of_mem _ ht)

end Lowering

-- ════════════════════════════════════════════════════════════════════════
-- Actions of a statement
-- ════════════════════════════════════════════════════════════════════════

open Lowering

/-- A way to lower statements that keeps the invariant. A statement that opens a block of its own may
come after a terminator. -/
def Lowers (unit : SourceUnit) (lower : StmtId → LowerM Unit) : Prop :=
  ∀ id avail s, s.Sound avail →
    (s.IsOpen ∨ ∀ node, unit.stmt id = .ok node → node.kind.opensBlock = true) →
    (lower id).Ensures s fun _ s' => ∃ avail', Advances avail avail' s s'

namespace Lowering.Stage

variable {β : Type} {unit : SourceUnit} {lower : StmtId → LowerM Unit} {initial avail : Avail}
  {start s : Lowering} {plan plan' : Plan} {Q : β → Lowering → Prop}

/-- Makes a block and sets it aside. -/
theorem ensures_newBlock (h : Stage initial start plan avail s) {label : String}
    {next : BlockId → LowerM β}
    (hnext : ∀ t s', Stage initial start (plan.reserve t) avail s' →
      (∀ u ∈ plan.free, u ≠ t) → (s.IsOpen → s'.IsOpen) → (next t).Ensures s' Q) :
    (newBlock label >>= next).Ensures s Q := by
  refine ensures_bind_of_eq (newBlock_apply label s) (hnext _ _ (h.reserve label) ?_ ?_)
  · intro u hu
    exact Nat.ne_of_lt (h.free u hu).2.lt
  · intro hopen
    exact (h.sound.reaches_grown hopen label).isOpen

/-- Lowers an expression. -/
theorem ensures_lowerExpr (h : Stage initial start plan avail s) (hopen : s.IsOpen) {id : ExprId}
    {next : Operand → LowerM β}
    (hnext : ∀ operand s₁ avail₁, Stage initial start plan avail₁ s₁ → s₁.IsOpen →
      s₁.Usable avail₁ operand → (next operand).Ensures s₁ Q) :
    (unit.lowerExpr id >>= next).Ensures s Q :=
  (unit.computes_lowerExpr id).ensures_bind h.sound hopen fun operand s₁ avail₁ hreach husable =>
    hnext operand s₁ avail₁ (h.advance hreach.advances) hreach.isOpen husable

/-- Ends the current block with a branch between two blocks of the statement. -/
theorem ensures_branch (h : Stage initial start plan avail s) (hopen : s.IsOpen) {cond : Operand}
    (hcond : s.Usable avail cond) {t u : BlockId} (ht : t ∈ plan.free) (hu : u ∈ plan.free)
    {next : Unit → LowerM β}
    (hnext : ∀ s', Stage initial start plan avail s' → (next ()).Ensures s' Q) :
    (emit (.branch cond t u) >>= next).Ensures s Q :=
  ensures_bind_of_eq (emit_apply h.sound.current hopen _) (hnext _ (h.advance
    (h.sound.leave_branch hopen hcond (h.free_of_mem ht) (h.free_of_mem hu) s.line)))

/-- Ends the current block with a jump to a block of the statement, if it is open. -/
theorem ensures_ensureJump (h : Stage initial start plan avail s) {t : BlockId} (ht : t ∈ plan.free) :
    (ensureJump t).Ensures s fun _ s' => Stage initial start plan avail s' := by
  by_cases hopen : s.IsOpen
  · exact ensures_of_eq (ensureJump_of_isOpen h.sound.current hopen t)
      (h.advance (h.sound.leave_jump hopen (h.free_of_mem ht) s.line))
  · exact ensures_of_eq (ensureJump_of_closed h.sound.current (not_not.mp hopen) t) h

/-- Goes on in a block that was set aside. -/
theorem ensures_enter (h : Stage initial start plan avail s) {t : BlockId} (reserved : List BlockId)
    (ht : t ∈ plan.reserved) (hreserved : ∀ u ∈ reserved, u ∈ plan.reserved ∧ u ≠ t)
    {next : Unit → LowerM β}
    (hnext : ∀ s', Stage initial start { plan with reserved } avail s' → s'.IsOpen →
      (next ()).Ensures s' Q) : (switchTo t >>= next).Ensures s Q := by
  refine ensures_bind_of_eq (t := { s with current := t }) rfl (hnext _ ?_ (h.isOpen_switch ht))
  refine h.switch (h.reserved t ht).1 rfl rfl (fun _ => id) fun u hu => ?_
  exact ⟨(hreserved u hu).1, (h.reserved u (hreserved u hu).1).1, (hreserved u hu).2⟩

/-- Goes on in a block of the statement. -/
theorem ensures_switchTo (h : Stage initial start plan avail s) {t : BlockId} (ht : t ∈ plan.free) :
    (switchTo t).Ensures s fun _ s' => Stage initial start { plan with reserved := [] } avail s' :=
  ensures_of_eq (t := { s with current := t }) rfl
    (h.switch ht rfl rfl (fun _ => id) (by simp))

/-- Lowers a part of the statement. -/
theorem ensures_lower (hlower : Lowers unit lower) (h : Stage initial start plan avail s)
    (hopen : s.IsOpen) (id : StmtId) :
    (lower id).Ensures s fun _ s' => ∃ avail', Stage initial start plan avail' s' := by
  refine (hlower id avail s h.sound (.inl hopen)).mono ?_
  rintro _ s' ⟨avail', hadv⟩
  exact ⟨avail', h.advance hadv⟩

/-- Fills a block that was set aside with a part of the statement. -/
theorem ensures_fillBlock (hlower : Lowers unit lower) (h : Stage initial start plan avail s)
    {t u : BlockId} {body : StmtId} (reserved : List BlockId) (ht : t ∈ plan.reserved)
    (hu : u ∈ plan.free) (hreserved : ∀ x ∈ reserved, x ∈ plan.reserved ∧ x ≠ t) :
    (fillBlock lower t body u).Ensures s fun _ s' =>
      ∃ avail', Stage initial start { plan with reserved } avail' s' := by
  refine h.ensures_enter reserved ht hreserved fun s₁ h₁ hopen₁ => ?_
  refine (ensures_lower hlower h₁ hopen₁ body).bind ?_
  rintro _ s₂ ⟨avail₂, h₂⟩
  exact (h₂.ensures_ensureJump hu).mono fun _ s₃ h₃ => ⟨avail₂, h₃⟩

/-- Lowers inside a construct that `break` leaves for a block of the statement. -/
theorem ensures_withBreak (h : Stage initial start plan avail s) {exit : BlockId}
    (hexit : exit ∈ plan.free) {act : LowerM Unit}
    (hact : ∀ s₁, Stage initial start { plan with breaks := exit :: plan.breaks } avail s₁ →
      (s.IsOpen → s₁.IsOpen) → act.Ensures s₁ fun _ s' => ∃ avail' free reserved,
        Stage initial start ⟨exit :: plan.breaks, plan.continues, free, reserved⟩ avail' s' ∧
          exit ∈ free) :
    (withBreak exit act).Ensures s fun _ s' => ∃ avail' free reserved,
      Stage initial start ⟨plan.breaks, plan.continues, free, reserved⟩ avail' s' ∧ exit ∈ free := by
  refine ensures_between ((hact _ (h.pushBreak hexit) fun hopen => hopen).mono ?_)
  rintro _ s₁ ⟨avail₁, free, reserved, h₁, hmem⟩
  exact ⟨avail₁, free, reserved, h₁.popBreak, hmem⟩

/-- Lowers inside a loop that `break` leaves for one block of the statement and `continue` repeats at
another. -/
theorem ensures_withLoop (h : Stage initial start plan avail s) {exit again : BlockId}
    (hexit : exit ∈ plan.free) (hagain : again ∈ plan.free) {act : LowerM Unit}
    (hact : ∀ s₁, Stage initial start
        ⟨exit :: plan.breaks, again :: plan.continues, plan.free, plan.reserved⟩ avail s₁ →
      (s.IsOpen → s₁.IsOpen) → act.Ensures s₁ fun _ s' => ∃ avail' reserved,
        Stage initial start ⟨exit :: plan.breaks, again :: plan.continues, plan.free, reserved⟩ avail'
          s') :
    (withLoop exit again act).Ensures s fun _ s' => ∃ avail' free reserved,
      Stage initial start ⟨plan.breaks, plan.continues, free, reserved⟩ avail' s' ∧ exit ∈ free := by
  refine h.ensures_withBreak hexit fun s₁ h₁ hopen₁ => ensures_between ?_
  refine (hact _ (h₁.pushContinue hagain) hopen₁).mono ?_
  rintro _ s₂ ⟨avail₂, reserved, h₂⟩
  exact ⟨avail₂, plan.free, reserved, h₂.popContinue, hexit⟩

/-- The end of a statement. -/
theorem ensures_exit {exit : BlockId} {free reserved : List BlockId}
    (h : Stage initial start ⟨start.breakTargets, start.continueTargets, free, reserved⟩ avail s)
    (hexit : exit ∈ free) :
    (switchTo exit).Ensures s fun _ s' => ∃ avail', Advances initial avail' start s' :=
  (h.ensures_switchTo hexit).mono fun _ _ h' => ⟨avail, h'.finish rfl rfl⟩

end Lowering.Stage

end MiddleEnd
