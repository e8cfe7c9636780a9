import MiddleEnd.Proofs.Lowering.Control

/-!
# Lowered switches select what switches select

The entries of a switch are blocks, and its statements are lowered from one entry to the next. So control
that comes to an entry executes the statements behind it, up to the end of the switch.

## Main definitions

* `SourceUnit.EntryOf`: the entry that was made for a statement of a switch.
* `SourceUnit.Leads`: what every entry leads to.

## Main statements

* `SourceUnit.Leads.selected`: the block that the machine selects leads to the statements that the value
  selects.
* `runs_lowerSwitch`: a lowered switch does what the switch does.
-/

namespace MiddleEnd

open LowerM Lowering

variable {V S : Type} {sem : Semantics V S} {last : Lowering} {unit : SourceUnit}

-- ════════════════════════════════════════════════════════════════════════
-- Entries
-- ════════════════════════════════════════════════════════════════════════

/-- The block that the machine selects. -/
def selectedBlock (sem : Semantics V S) (value : V) (entries : List (Option SwitchEntry))
    (exit : BlockId) : BlockId :=
  ((((switchCases entries).find? fun entry => sem.selects value entry.value).map (·.target)).or
    (switchDefault? entries)).getD exit

namespace SourceUnit

/-- The entry that was made for a statement of a switch. -/
inductive EntryOf (unit : SourceUnit) (id : StmtId) : Option SwitchEntry → Prop
  | case {value : Int} {block : BlockId} (h : unit.kind? id = some (.caseLabel value)) :
    EntryOf unit id (some ⟨some value, block⟩)
  | default {block : BlockId} (h : unit.kind? id = some .defaultLabel) :
    EntryOf unit id (some ⟨none, block⟩)
  | none (h : unit.isEntry id = false) : EntryOf unit id Option.none

theorem EntryOf.isEntry {id : StmtId} {entry : Option SwitchEntry} (h : unit.EntryOf id entry) :
    unit.isEntry id = entry.isSome := by
  cases h with
  | case h => rw [SourceUnit.isEntry, h, Option.isSome_some]
  | default h => rw [SourceUnit.isEntry, h, Option.isSome_some]
  | none h => exact h

/-- Every entry of a switch leads to the statements behind it. -/
inductive Leads (unit : SourceUnit) (leads : BlockId → List StmtId → Prop) :
    List StmtId → List (Option SwitchEntry) → Prop
  | nil : Leads unit leads [] []
  | cons {id : StmtId} {entry : Option SwitchEntry} {ids : List StmtId} {entries : List (Option SwitchEntry)}
    (hentry : unit.EntryOf id entry) (hleads : ∀ e ∈ entry, leads e.block ids)
    (hrest : Leads unit leads ids entries) : Leads unit leads (id :: ids) (entry :: entries)

theorem afterCase?_of_not_isEntry {id : StmtId} (h : unit.isEntry id = false) (sem : Semantics V S)
    (value : V) (rest : List StmtId) :
    unit.afterCase? sem value (id :: rest) = unit.afterCase? sem value rest := by
  rw [afterCase?]
  split
  · rename_i n hkind
    rw [isEntry, hkind] at h
    cases h
  · rfl

namespace Leads

variable {leads : BlockId → List StmtId → Prop} {ids : List StmtId} {entries : List (Option SwitchEntry)}

/-- The first case that a value selects. -/
theorem afterCase? (h : unit.Leads leads ids entries) (sem : Semantics V S) (value : V) :
    Option.Rel leads
      (((switchCases entries).find? fun entry => sem.selects value entry.value).map (·.target))
      (unit.afterCase? sem value ids) := by
  induction h with
  | nil => exact .none
  | @cons id entry ids entries hentry hleads hrest ih =>
    cases hentry with
    | @case n block hkind =>
      rw [SourceUnit.afterCase?, hkind]
      cases hselects : sem.selects value n with
      | true => simpa [switchCases, hselects] using Option.Rel.some (hleads _ rfl)
      | false => simpa [switchCases, hselects] using ih
    | default hkind =>
      rw [SourceUnit.afterCase?, hkind]
      simpa [switchCases] using ih
    | none hnone =>
      rw [afterCase?_of_not_isEntry hnone]
      exact ih

/-- The last default. -/
theorem afterDefault? (h : unit.Leads leads ids entries) :
    Option.Rel leads (switchDefault? entries) (unit.afterDefault? ids) := by
  induction h with
  | nil => exact .none
  | @cons id entry ids entries hentry hleads hrest ih =>
    rw [SourceUnit.afterDefault?]
    cases hentry with
    | @case n block hkind => simpa [switchDefault?, hkind] using ih
    | @default block hkind =>
      have hcons : switchDefault? (some ⟨none, block⟩ :: entries) =
          (switchDefault? entries).or (some block) := by
        simp [switchDefault?, List.getLast?_cons]
      rw [hcons, if_pos hkind]
      generalize switchDefault? entries = target, unit.afterDefault? ids = rest at ih
      cases ih with
      | some hlead => exact .some hlead
      | none => exact .some (hleads _ rfl)
    | none hnone =>
      have hkind : unit.kind? id ≠ some .defaultLabel := by
        intro hkind
        rw [isEntry, hkind] at hnone
        cases hnone
      rw [if_neg hkind, Option.or_none]
      exact ih

/-- The block that the machine selects leads to the statements that the value selects. -/
theorem selected (h : unit.Leads leads ids entries) (sem : Semantics V S) (value : V) {exit : BlockId}
    (hexit : leads exit []) : leads (selectedBlock sem value entries exit)
      (((unit.afterCase? sem value ids).or (unit.afterDefault? ids)).getD []) := by
  rw [selectedBlock]
  have hcase := h.afterCase? sem value
  have hdefault := h.afterDefault?
  generalize Option.map _ _ = target, unit.afterCase? sem value ids = rest at hcase
  generalize switchDefault? entries = target', unit.afterDefault? ids = rest' at hdefault
  cases hcase with
  | some hlead => exact hlead
  | none =>
    cases hdefault with
    | some hlead => exact hlead
    | none => exact hexit

end Leads

end SourceUnit

-- ════════════════════════════════════════════════════════════════════════
-- Making the entries
-- ════════════════════════════════════════════════════════════════════════

/-- The blocks of the entries. -/
def entryBlocks (entries : List (Option SwitchEntry)) : List BlockId :=
  (entries.filterMap id).map (·.block)

theorem eq_of_switchBody {body : StmtId} {ids : List StmtId} (h : switchBody unit body = .ok ids) :
    ids = unit.switchParts body := by
  obtain ⟨node, hnode, h⟩ := bind_eq_ok.mp h
  rw [SourceUnit.switchParts, SourceUnit.kind?, require_eq_ok_iff.mp hnode, Option.map_some]
  split at h
  · rename_i stmts hkind
    rw [hkind]
    exact (Except.ok.inj h).symm
  · rename_i hkind
    split
    · rename_i stmts hblock
      exact absurd (Option.some.inj hblock) (hkind stmts)
    · exact (Except.ok.inj h).symm

section Making

variable {m : Nat} {ts : List BlockId} {s₀ s s' : Lowering}

theorem begun_createEntry {id : StmtId} {entry : Option SwitchEntry} (hbegun : Begun m ts s₀ s)
    (h : createEntry unit id s = .ok (entry, s')) :
    unit.EntryOf id entry ∧ Begun m (ts ++ entryBlocks [entry]) s₀ s' := by
  rw [createEntry, lift_bind_apply] at h
  obtain ⟨node, hnode, h⟩ := bind_eq_ok.mp h
  have hkind : unit.kind? id = some node.kind := by
    rw [SourceUnit.kind?, require_eq_ok_iff.mp hnode]
    rfl
  generalize node.kind = kind at hkind h
  cases kind with
  | caseLabel value =>
    obtain ⟨_, _, hnew, ⟨⟩⟩ := exists_of_bind h
    obtain ⟨rfl, rfl⟩ := eq_of_newBlock hnew
    exact ⟨.case hkind, hbegun.grown (case_ne _ (by decide))⟩
  | defaultLabel =>
    obtain ⟨_, _, hnew, ⟨⟩⟩ := exists_of_bind h
    obtain ⟨rfl, rfl⟩ := eq_of_newBlock hnew
    exact ⟨.default hkind, hbegun.grown (by decide)⟩
  | _ =>
    cases h
    exact ⟨.none (by rw [SourceUnit.isEntry, hkind]), by simpa [entryBlocks] using hbegun⟩

/-- The blocks of the entries are made one after the other. -/
theorem begun_createEntries {ids : List StmtId} {entries : List (Option SwitchEntry)}
    (hbegun : Begun m ts s₀ s) (h : ids.mapM (createEntry unit) s = .ok (entries, s')) :
    List.Forall₂ unit.EntryOf ids entries ∧ Begun m (ts ++ entryBlocks entries) s₀ s' := by
  induction ids generalizing s ts entries with
  | nil =>
    cases h
    exact ⟨.nil, by simpa [entryBlocks] using hbegun⟩
  | cons id ids ih =>
    rw [List.mapM_cons] at h
    obtain ⟨entry, s₁, hentry, h⟩ := exists_of_bind h
    obtain ⟨rest, s₂, hrest, h⟩ := exists_of_bind h
    cases h
    obtain ⟨hof, hbegun₁⟩ := begun_createEntry hbegun hentry
    obtain ⟨hofs, hbegun₂⟩ := ih hbegun₁ hrest
    refine ⟨.cons hof hofs, ?_⟩
    rw [List.append_assoc] at hbegun₂
    have hblocks : entryBlocks (entry :: rest) = entryBlocks [entry] ++ entryBlocks rest := by
      cases entry <;> rfl
    rw [hblocks]
    exact hbegun₂

end Making

-- ════════════════════════════════════════════════════════════════════════
-- The statements of a switch
-- ════════════════════════════════════════════════════════════════════════

section Parts

variable {m limit : Nat} {ts : List BlockId} {exit : BlockId} {around : Surroundings}
  {lower : StmtId → LowerM Unit} {exec : StmtId → EvalM V S (Completion V)}

/-- The statements behind an entry, which are executed from the given place on. -/
def Lowering.Behind (last : Lowering) (sem : Semantics V S) (limit : Nat) (unit : SourceUnit)
    (exec : StmtId → EvalM V S (Completion V)) (exits : Exits V S) (start : Place V S) (ids : List StmtId) : Prop :=
  last.finished.Does sem start (execList exec (ids.filter (!unit.isEntry ·)))
    (last.finished.Ends sem limit exits)

/-- Where the statements of a switch lead that are lowered in the given state. -/
def Lowering.switchExits (s : Lowering) (exit : BlockId) : Exits V S :=
  ⟨.block (some exit), .block s.breakTargets.head?, .block s.continueTargets.head?⟩

theorem Lowering.switchExits_steps {s s' : Lowering} (h : Steps m s s') (exit : BlockId) :
    (s'.switchExits exit : Exits V S) = s.switchExits exit := by
  rw [switchExits, switchExits, h.scopes.breaks, h.scopes.continues]

/-- The statements of a switch are executed one after the other, from each entry on. -/
theorem segment_switchParts (hfinal : last.Final) {ids : List StmtId} {entries : List (Option SwitchEntry)}
    (hentries : List.Forall₂ unit.EntryOf ids entries)
    (hlower : ∀ id ∈ ids, (lower id).Runs last sem limit around (exec id)) {s s₁ s' : Lowering} {u u' : Unit}
    (hsite : s.Site m (entryBlocks entries ++ [exit])) (hinside : s.Inside around)
    (h : ((ids.zip entries).forM fun (id, entry) => lowerSwitchPart unit lower id entry : LowerM Unit) s =
      .ok (u, s₁))
    (hend : ensureJump exit s₁ = .ok (u', s')) :
    Segment last m [exit] s s' (
      last.Behind sem limit unit exec (s.switchExits exit) (s.ready last sem []) ids ∧
      unit.Leads (fun block => last.Behind sem limit unit exec (s.switchExits exit) (.block (some block)))
        ids entries) := by
  induction hentries generalizing s with
  | nil =>
    cases h
    obtain ⟨hsite', hsteps, hjump⟩ := segment_ensureJump sem hfinal hsite hend
    exact ⟨hsite', hsteps, fun hlast => ⟨.execList_nil (hjump hlast), .nil⟩⟩
  | @cons id entry ids entries hentry hentries ih =>
    replace ih := @ih fun other hother => hlower other (List.mem_cons_of_mem _ hother)
    obtain ⟨_, s₂, hpart, hrest⟩ := exists_of_bind h
    cases entry with
    | none =>
      obtain ⟨_, s₁, hopen, hpart⟩ := exists_of_bind hpart
      obtain ⟨hsteps₁, hgoes⟩ := segment_openDeadBlock hsite.tidy hopen
      obtain ⟨hsteps₂, hdoes⟩ := hlower id List.mem_cons_self s₁ _ s₂ hpart hsteps₁.tidy
        (hinside.steps hsteps₁)
      have hsteps := hsteps₁.andThen hsteps₂
      obtain ⟨hsite', hsteps', hfact⟩ := ih (hsite.steps hsteps) (hinside.steps hsteps) hrest
      refine ⟨hsite', (hsteps.weaken hsite.le).trans hsteps', fun hlast => ?_⟩
      obtain ⟨hbehind, hleads⟩ := hfact hlast
      rw [switchExits_steps hsteps] at hbehind hleads
      refine ⟨?_, .cons hentry (by simp) hleads⟩
      rw [Behind, List.filter_cons_of_pos (by simp [hentry.isEntry])]
      have hfirst := (hdoes (hsteps'.extendsLast hlast)).of_goes hgoes
      rw [exits_steps hsteps₁] at hfirst
      exact .execList_cons hfirst hbehind
    | some entry =>
      obtain ⟨_, s₁, hjump, hpart⟩ := exists_of_bind hpart
      cases hpart
      obtain ⟨hsite₁, hsteps₁, hjump⟩ := segment_ensureJump sem hfinal hsite hjump
      obtain ⟨hsite₂, hswitch⟩ := hsite₁.switch
      have hsteps := hsteps₁.trans hswitch
      obtain ⟨hsite', hsteps', hfact⟩ := ih hsite₂ (hinside.steps hsteps) hrest
      refine ⟨hsite', hsteps.trans hsteps', fun hlast => ?_⟩
      obtain ⟨hbehind, hleads⟩ := hfact hlast
      rw [switchExits_steps hsteps] at hbehind hleads
      have hlast₂ := hsteps'.extendsLast hlast
      have hentered : last.Behind sem limit unit exec (s.switchExits exit) (.block (some entry.block)) ids :=
        .of_goes (hsite₁.enters sem hfinal hlast₂).goes hbehind
      refine ⟨?_, .cons hentry (by simpa using hentered) hleads⟩
      rw [Behind, List.filter_cons_of_neg (by simp [hentry.isEntry])]
      exact hentered.of_goes (hjump (hswitch.extendsLast hlast₂))

-- ════════════════════════════════════════════════════════════════════════
-- Switches
-- ════════════════════════════════════════════════════════════════════════

/-- The machine goes to the entry that the value selects. -/
theorem goes_selectedBlock {s s' : Lowering} {u : Unit} (hfinal : last.Final) (hs : s.Tidy) {value : Operand}
    {entries : List (Option SwitchEntry)}
    (h : emit (.switch value (switchCases entries) ((switchDefault? entries).getD exit)) s = .ok (u, s'))
    (hlast : s'.Extends 0 last) (v : V) :
    last.finished.Goes sem (s.ready last sem (valueOf value v ++ []))
      (.block (some (selectedBlock sem v entries exit))) := by
  rw [eq_pushed_of_emit h] at hlast
  refine hfinal.goes_left hs.current hlast rfl fun regs hregs => ?_
  have hv : value.value sem regs = v := hregs (value, v) List.mem_cons_self
  rw [selectedBlock, Instr.exit, Instr.switch]
  simp only [hv, Instr.cases, Instr.fallback?]
  cases (switchCases entries).find? fun entry => sem.selects v entry.value with
  | some entry => rfl
  | none => cases switchDefault? entries <;> rfl

/-- A switch. -/
theorem runs_lowerSwitch {run : Surroundings → StmtId → EvalM V S (Completion V)} (hfinal : last.Final)
    (hmoves : sem.Moves) {cond : ExprId} {body : StmtId}
    (hlower : ∀ id ∈ unit.switchParts body, (lower id).Runs last sem limit { around with canBreak := true }
      (run { around with canBreak := true } id)) :
    (lowerSwitch unit lower cond body).Runs last sem limit around
      (execKind sem unit last.texts limit run around (.switch cond body)) := by
  intro s u s' hok hs hinside
  rw [lowerSwitch] at hok
  obtain ⟨exitBlock, s₁, hok, hbegun⟩ := (Begun.refl hs).newBlock hok (by decide)
  obtain ⟨_, s₂, hwith, ⟨⟩⟩ := exists_of_bind hok
  obtain ⟨t₆, hswitch, rfl⟩ := exists_of_between hwith
  obtain ⟨value, t₁, hvalue, hswitch⟩ := exists_of_bind hswitch
  have hsite : (s₁.scoped (exitBlock :: s₁.breakTargets) s₁.continueTargets).Site s.fn.blockCount [exitBlock] :=
    hbegun.site.scoped
  have hrefined := unit.refines_lowerExpr hfinal hmoves cond [] _ value t₁ hvalue hsite.tidy (by simp)
  rw [lift_bind_apply] at hswitch
  obtain ⟨ids, hids, hswitch⟩ := bind_eq_ok.mp hswitch
  obtain rfl := eq_of_switchBody hids
  obtain ⟨entries, t₂, hentries, hswitch⟩ := exists_of_bind hswitch
  obtain ⟨hentries, hbegun'⟩ := begun_createEntries (.of_site (hsite.steps hrefined.steps)) hentries
  obtain ⟨_, t₃, hemit, hswitch⟩ := exists_of_bind hswitch
  obtain ⟨_, t₄, hparts, hend⟩ := exists_of_bind hswitch
  have hemitted := steps_emit hbegun'.site.tidy (fun _ => rfl) hemit
  have hsteps₃ := ((hrefined.steps.weaken hsite.le).trans hbegun'.steps).trans
    (hemitted.weaken hbegun'.site.le)
  have hinside₀ : (s₁.scoped (exitBlock :: s₁.breakTargets) s₁.continueTargets).Inside
      { around with canBreak := true } := ⟨rfl, (hinside.steps hbegun.steps).continues⟩
  obtain ⟨hsite₆, hsteps₆, hfact⟩ := segment_switchParts hfinal hentries hlower
    ((hbegun'.site.steps hemitted).perm List.perm_append_comm) (hinside₀.steps hsteps₃) hparts hend
  have hall := hsteps₃.trans hsteps₆
  obtain ⟨hsteps, hleave⟩ := hbegun.leave sem hfinal hall hsite₆ hall.popBreak
  refine ⟨hsteps, fun hlast => ?_⟩
  obtain ⟨hlast₆, hexit⟩ := hleave hlast
  have hlast₃ := hsteps₆.extendsLast hlast₆
  have hlast₁ := hbegun'.steps.extendsLast (hemitted.extendsLast hlast₃)
  have hleads := (hfact hlast₆).2
  rw [switchExits_steps hsteps₃] at hleads
  have hstart := (hrefined.does_ready hlast₁).of_goes (hbegun.goes.trans (goes_ready rfl rfl))
  refine hstart.bind fun v => .leaveSwitch ?_ hexit
  refine .of_goes (hbegun'.goes.trans (goes_selectedBlock hfinal hbegun'.site.tidy hemit hlast₃ v)) ?_
  have hselected := hleads.selected sem v (.execList_nil (.refl _))
  rw [exits, ← hbegun.steps.scopes.continues]
  exact hselected

end Parts

end MiddleEnd
