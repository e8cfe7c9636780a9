import MiddleEnd.Proofs.Dataflow.Reaching
import MiddleEnd.Proofs.SSA.Validity
import Mathlib

/-!
# Live registers and reaching definitions agree

In strict single assignment form a register that is live somewhere was given its value on every way there: a
path that avoids its definition would lead from the entry to a use of the register. So exactly one definition
of a live register reaches a block, and none if the register holds an argument.

## Main statements

* `Function.StrictSsa.origin_of_liveAt`: where a live register gets its value.
* `Function.StrictSsa.reachesStart`: a definition reaches every block that it dominates strictly.
* `SourceUnit.analyses_agree`: the two analyses of a converted function agree.
-/

namespace MiddleEnd

namespace Function

variable {f : Function} {a b : BlockId} {l : List BlockId} {r : Reg} {d e : DefPoint}

/-- A path lists its first block. -/
theorem Path.first_mem (h : f.Path a b l) : a ∈ l := by
  induction h with
  | nil => exact List.mem_singleton_self a
  | snoc _ _ ih => exact List.mem_cons_of_mem _ ih

/-- A path can be cut off at the last visit of a block. -/
theorem Path.last_visit {c : BlockId} (h : f.Path a b l) (hc : c ∈ l) :
    ∃ l', f.Path c b l' ∧ c ∉ l'.dropLast := by
  induction h with
  | nil =>
    obtain rfl := List.mem_singleton.mp hc
    exact ⟨[c], .nil, by simp⟩
  | @snoc p q l hpath hedge ih =>
    by_cases hq : c = q
    · exact ⟨[c], hq ▸ .nil, by simp⟩
    · obtain ⟨l', hl', hfree⟩ := ih ((List.mem_cons.mp hc).resolve_left hq)
      refine ⟨q :: l', hl'.snoc hedge, ?_⟩
      rw [hl'.dropLast_cons, List.mem_cons, not_or]
      exact ⟨hq, hfree⟩

namespace StrictSsa

variable (h : f.StrictSsa)
include h

-- ════════════════════════════════════════════════════════════════════════
-- Where live registers come from
-- ════════════════════════════════════════════════════════════════════════

/-- A block finds the value that it needs: an argument, unless it is the entry, or what a strict dominator
writes. -/
theorem origin_of_needs (hb : f.Reachable b) (hr : f.Needs b r) :
    r ∈ f.entryRegs ∧ b ≠ f.entry ∨ ∃ d, f.StrictlyDominates d b ∧ r ∈ defsOf (f.code d) := by
  rcases hr with ⟨hentry, pre, i, post, hsplit, hphi, hr, hpre⟩ |
    ⟨hsets, t, ht, phi, hphi, arg, harg, rfl, hr⟩
  · have huse : r ∈ i.uses := List.mem_append_left _ hr
    rcases h.uses b hb pre i post hsplit hphi r huse with hmem | hmem | hdom
    · exact .inl ⟨hmem, fun heq => hentry ⟨heq, hmem⟩⟩
    · exact absurd hmem hpre
    · exact .inr hdom
  · have hisPhi : phi.isPhi = true := List.all_eq_true.mp List.all_takeWhile phi hphi
    have hphi' := List.takeWhile_subset _ hphi
    rcases h.phiUses t (hb.succ ht) phi hphi' hisPhi arg harg r hr with hmem | hmem | ⟨d, hdom, hd⟩
    · exact .inl ⟨hmem, fun heq => hsets (.inl ⟨heq, hmem⟩)⟩
    · exact absurd (.inr hmem) hsets
    · refine .inr ⟨d, ⟨?_, hdom⟩, hd⟩
      rintro rfl
      exact hsets (.inr hd)

/-- A live register holds an argument, which is never live at the entry, or is written by a strict
dominator. -/
theorem origin_of_liveAt (hb : f.Reachable b) (hr : f.LiveAt b r) :
    r ∈ f.entryRegs ∧ b ≠ f.entry ∨ ∃ d, f.StrictlyDominates d b ∧ r ∈ defsOf (f.code d) := by
  obtain ⟨last, l, hpath, hfree, hneeds⟩ := hr
  obtain ⟨rest, rfl⟩ := hpath.eq_cons
  obtain ⟨before, hbefore⟩ := hb
  have hlast : f.Reachable last := by
    obtain ⟨l', hl', _⟩ := hbefore.append hpath
    exact ⟨l', hl'⟩
  rcases h.origin_of_needs hlast hneeds with ⟨hmem, hne⟩ | ⟨d, ⟨hne, hdom⟩, hd⟩
  · refine .inl ⟨hmem, ?_⟩
    rintro rfl
    have hfirst := (List.mem_cons.mp hpath.first_mem).resolve_left (Ne.symm hne)
    exact hfree _ hfirst (.inl ⟨rfl, hmem⟩)
  · -- A dominator that the path passed would write the register again.
    have havoid : d ∉ last :: rest := by
      intro hmem
      exact hfree d ((List.mem_cons.mp hmem).resolve_left hne) (.inr hd)
    refine .inr ⟨d, ⟨?_, hdom.of_detour ⟨before, hbefore⟩ hpath havoid⟩, hd⟩
    rintro rfl
    exact havoid hpath.first_mem

-- ════════════════════════════════════════════════════════════════════════
-- Where definitions go
-- ════════════════════════════════════════════════════════════════════════

/-- Within a block, too, no register is written twice. -/
theorem not_def_of_lt {m n : Nat} {i j : Instr} (hlt : m < n) (hi : (f.code b)[m]? = some i)
    (hdef : i.def? = some r) (hj : (f.code b)[n]? = some j) : j.def? ≠ some r := by
  intro hdef'
  have hbefore : r ∈ defsOf ((f.code b).take n) :=
    mem_defsOf.mpr ⟨i, List.mem_of_getElem? (by rwa [List.getElem?_take_of_lt hlt]), hdef⟩
  have hafter : r ∈ defsOf ((f.code b).drop n) :=
    mem_defsOf.mpr ⟨j, List.mem_of_getElem? (i := 0) (by rwa [List.getElem?_drop]), hdef'⟩
  have hcount : (defsOf (f.code b)).count r ≤ 1 := by
    refine Nat.le_trans (List.Sublist.count_le r ?_) ((f.defCount_eq_code r).symm ▸ h.single r)
    refine List.sublist_flatten_of_mem (List.mem_map_of_mem (List.mem_range.mpr ?_))
    exact lt_of_mem_code (List.mem_of_getElem? hi)
  rw [← List.take_append_drop n (f.code b), defsOf_append, List.count_append] at hcount
  have hpos := List.count_pos_iff.mpr hbefore
  have hpos' := List.count_pos_iff.mpr hafter
  omega

/-- No register has two definitions. -/
theorem definition_unique (hd : f.DefinedAt d) (he : f.DefinedAt e) (hreg : d.reg = e.reg) : d = e := by
  have hblock : d.block = e.block :=
    eq_of_defCount (h.single d.reg) hd.mem_defsOf (hreg ▸ he.mem_defsOf)
  obtain ⟨i, hi, hdefd⟩ := hd
  obtain ⟨j, hj, hdefe⟩ := he
  obtain ⟨b, r, m⟩ := d
  obtain ⟨b', r', n⟩ := e
  obtain rfl : b = b' := hblock
  obtain rfl : r = r' := hreg
  obtain hlt | rfl | hgt := Nat.lt_trichotomy m n
  · exact absurd hdefe (h.not_def_of_lt hlt hi hdefd hj)
  · rfl
  · exact absurd hdefd (h.not_def_of_lt hgt hj hdefe hi)

/-- A definition reaches every block that its block dominates strictly. -/
theorem reachesStart (hd : f.DefinedAt d) (hdom : f.StrictlyDominates d.block b) : f.ReachesStart d b := by
  have hsurvives : f.Survives d := by
    intro n i hlt hi hdef
    have hsame := h.definition_unique (e := ⟨d.block, d.reg, n⟩) hd ⟨i, hi, hdef⟩ rfl
    exact absurd (congrArg DefPoint.index hsame) (Nat.ne_of_lt hlt)
  obtain ⟨hne, rfl | ⟨hb, hall⟩⟩ := hdom
  · exact absurd rfl hne
  · obtain ⟨before, hbefore⟩ := hb
    obtain ⟨l, hl, hlast⟩ := hbefore.last_visit (hall _ hbefore)
    cases hl with
    | nil => exact absurd rfl hne
    | @snoc p _ l hl hedge =>
      rw [hl.dropLast_cons, List.mem_cons, not_or] at hlast
      refine ⟨hsurvives, p, l, hl, hedge, fun x hx hwrites => ?_⟩
      rw [eq_of_defCount (h.single d.reg) hwrites hd.mem_defsOf] at hx
      exact hlast.2 hx

-- ════════════════════════════════════════════════════════════════════════
-- Agreement
-- ════════════════════════════════════════════════════════════════════════

/-- At the entry nothing is live. -/
theorem not_liveAt_entry : ¬ f.LiveAt f.entry r := by
  intro hr
  rcases h.origin_of_liveAt f.reachable_entry hr with ⟨_, hne⟩ | ⟨d, ⟨hne, hdom⟩, _⟩
  · exact hne rfl
  · exact hne (List.mem_singleton.mp (hdom.mem .nil))

/-- Nothing writes a register that holds an argument. -/
theorem not_definedAt (hr : d.reg ∈ f.entryRegs) : ¬ f.DefinedAt d := by
  intro hd
  have hlt : d.block < f.blockCount := by
    obtain ⟨i, hi, _⟩ := hd
    exact lt_of_mem_code (List.mem_of_getElem? hi)
  have hcount := h.entryUnwritten d.reg hr
  rw [defCount_eq_code] at hcount
  exact List.count_eq_zero.mp hcount
    (List.mem_flatMap.mpr ⟨d.block, List.mem_range.mpr hlt, hd.mem_defsOf⟩)

/-- Of a live register that holds no argument exactly one definition reaches the block. -/
theorem definition_reaches (hb : f.Reachable b) (hr : f.LiveAt b r) (hentry : r ∉ f.entryRegs) :
    ∃ d, f.DefinedAt d ∧ d.reg = r ∧ f.StrictlyDominates d.block b ∧
      ∀ e, f.DefinedAt e ∧ e.reg = r ∧ f.ReachesStart e b ↔ e = d := by
  rcases h.origin_of_liveAt hb hr with ⟨hmem, _⟩ | ⟨x, hdom, hx⟩
  · exact absurd hmem hentry
  · obtain ⟨i, hi, hdef⟩ := mem_defsOf.mp hx
    obtain ⟨n, hn⟩ := List.mem_iff_getElem?.mp hi
    have hd : f.DefinedAt ⟨x, r, n⟩ := ⟨i, hn, hdef⟩
    refine ⟨⟨x, r, n⟩, hd, rfl, hdom, fun e => ⟨fun ⟨he, hreg, _⟩ => ?_, ?_⟩⟩
    · exact h.definition_unique he hd hreg
    · rintro rfl
      exact ⟨hd, rfl, h.reachesStart hd hdom⟩

end StrictSsa

end Function

/-- A list without repetitions that holds a single element. -/
theorem eq_singleton_of_nodup {α : Type} {xs : List α} {a : α} (hnodup : xs.Nodup)
    (hmem : ∀ x, x ∈ xs ↔ x = a) : xs = [a] := by
  match xs with
  | [] => exact absurd ((hmem a).mpr rfl) List.not_mem_nil
  | [x] => rw [(hmem x).mp List.mem_cons_self]
  | x :: y :: _ =>
    have hx := (hmem x).mp List.mem_cons_self
    have hy := (hmem y).mp (List.mem_cons_of_mem _ List.mem_cons_self)
    exact absurd (hx.trans hy.symm ▸ List.mem_cons_self) (List.nodup_cons.mp hnodup).1

/-- Both analyses of a function in strict single assignment form succeed and agree. -/
theorem Function.StrictSsa.analyses {f : Function} (h : f.StrictSsa) (hnumbered : f.Numbered)
    (hlinked : f.Linked) (hstart : f.entry < f.blockCount) (hregs : f.RegsBelow) :
    ∃ live reaching, f.liveness = .ok live ∧ f.reachingDefs = .ok reaching ∧
      (∀ r, live.isLiveIn f.entry r = .ok false) ∧
      ∀ b, f.Reachable b → ∀ r, live.isLiveIn b r = .ok true →
        (r ∈ f.entryRegs → reaching.definitionsOf b r = .ok []) ∧
        (r ∉ f.entryRegs → ∃ d, reaching.definitionsOf b r = .ok [d] ∧
          (∀ e, f.DefinedAt e ∧ e.reg = r ↔ e = d) ∧ f.StrictlyDominates d.block b) := by
  obtain ⟨_, live, _, _, _, hlive, _, hlives⟩ := liveness_exact f hnumbered hlinked.succs_lt hregs
  have hexact := hlinked.exact_reachingDefs hnumbered
  refine ⟨live, _, hlive, reachingDefs_eq hnumbered hlinked, fun r => ?_, fun b hb r hr => ?_⟩
  · obtain ⟨⟨answer, hanswer⟩, _, hiff, _⟩ := hlives f.entry hstart r
    rw [hanswer, Except.ok.injEq] at hiff
    rw [hanswer, Bool.eq_false_of_not_eq_true fun htrue => h.not_liveAt_entry (hiff.mp htrue)]
  · have hlt := hb.lt_blockCount hlinked hstart
    have hliveAt : f.LiveAt b r := (hlives b hlt r).2.2.1.mp hr
    obtain ⟨ds, hds, hsub, hmem⟩ := hexact.definitionsOf b hlt r
    refine ⟨fun hentry => ?_, fun hentry => ?_⟩
    · have hnone : ds = [] := List.eq_nil_iff_forall_not_mem.mpr fun d hd => by
        obtain ⟨hdef, rfl, _⟩ := (hmem d).mp hd
        exact h.not_definedAt hentry hdef
      rw [hds, hnone]
    · obtain ⟨d, hdef, rfl, hdom, hreach⟩ := h.definition_reaches hb hliveAt hentry
      have hnodup : ds.Nodup := (hexact.ordered.sublist hsub).imp fun {x y} hxy heq => by
        rw [heq] at hxy
        exact hxy.asymm hxy
      rw [hds, eq_singleton_of_nodup hnodup fun e => (hmem e).trans (hreach e)]
      refine ⟨d, rfl, fun e => ⟨fun ⟨he, hreg⟩ => h.definition_unique he hdef hreg, ?_⟩, hdom⟩
      rintro rfl
      exact ⟨hdef, rfl⟩

/-- On the single assignment form of a lowered function both analyses succeed and agree. No register is live
at the start of the entry. Where a register is live in a block that control can reach, no definition of it
reaches the block if it holds an argument; otherwise its only definition does, and dominates the block
strictly. -/
theorem SourceUnit.analyses_agree (unit : SourceUnit) (texts texts' : Interner) (decl : FunctionDecl)
    (f : Function) (hlower : unit.lowerFunction texts decl = .ok (some f, texts')) :
    ∃ g live reaching, f.constructSsa = .ok g ∧ g.liveness = .ok live ∧ g.reachingDefs = .ok reaching ∧
      (∀ r, live.isLiveIn g.entry r = .ok false) ∧
      ∀ b, g.Reachable b → ∀ r, live.isLiveIn b r = .ok true →
        (r ∈ g.entryRegs → reaching.definitionsOf b r = .ok []) ∧
        (r ∉ g.entryRegs → ∃ d, reaching.definitionsOf b r = .ok [d] ∧
          (∀ e, g.DefinedAt e ∧ e.reg = r ↔ e = d) ∧ g.StrictlyDominates d.block b) := by
  obtain ⟨avail, hlowered⟩ := unit.lowered_lowerFunction hlower
  have hplain := hlowered.runnable.toPlain
  obtain ⟨c, g, hconstruct, hvalid⟩ := Function.constructSsa_eq hplain
  have hlinked := hvalid.linked hplain
  have hbelow := hvalid.regsBelow hlowered
  have hentry : g.entry < g.blockCount := by
    rw [hvalid.entry_eq, hvalid.blockCount_eq]
    exact hplain.entry_lt
  obtain ⟨live, reaching, hlive, hreaching, hagree⟩ := (hvalid.strictSsa hlowered).mark.analyses
    ((Function.sameEdges_constructSsa hconstruct).numbered hlowered.numbered) ⟨hlinked.succs_lt, hlinked.mem_preds, hlinked.preds_nodup, hlinked.succs_nodup⟩
    (hentry : g.entry < g.blockCount) ⟨hbelow.code, hbelow.entry⟩
  exact ⟨_, live, reaching, hconstruct, hlive, hreaching, hagree⟩

/-- In the function that counts down, the version of its variable that the head of the loop joins is live at the
exit. It holds no argument, so the phi in the head is the one definition of it that reaches the exit. -/
theorem countdown_analyses : ∃ f texts g live reaching,
    countdownUnit.lowerFunction {} countdownDecl = .ok (some f, texts) ∧ f.constructSsa = .ok g ∧
      g.liveness = .ok live ∧ g.reachingDefs = .ok reaching ∧ (∀ r, live.isLiveIn g.entry r = .ok false) ∧
      live.isLiveIn 3 7 = .ok true ∧ reaching.definitionsOf 3 7 = .ok [⟨1, 7, 0⟩] ∧
      (∀ e, g.DefinedAt e ∧ e.reg = 7 ↔ e = ⟨1, 7, 0⟩) ∧ g.StrictlyDominates 1 3 := by
  obtain ⟨f, texts, hlower⟩ := countdown_lowers
  obtain ⟨g, live, reaching, hg, hlive, hreaching, hentry, hagree⟩ :=
    countdownUnit.analyses_agree {} texts countdownDecl f hlower
  have hfacts : (((countdownUnit.lowerFunction {} countdownDecl).toOption.bind (·.1)).bind
      (·.constructSsa.toOption)).any (fun g => g.liveness.toOption.any fun live =>
        g.reachingDefs.toOption.any fun reaching => decide (live.isLiveIn 3 7 = .ok true ∧
          reaching.definitionsOf 3 7 = .ok [⟨1, 7, 0⟩] ∧ 7 ∉ g.entryRegs ∧ g.entry = 0 ∧ 1 ∈ g.succs 0 ∧
          3 ∈ g.succs 1)) = true := by cbv
  rw [hlower] at hfacts
  obtain ⟨hlive3, hdefs, hentry7, hstart, hhead, hexit⟩ : live.isLiveIn 3 7 = .ok true ∧
      reaching.definitionsOf 3 7 = .ok [⟨1, 7, 0⟩] ∧ 7 ∉ g.entryRegs ∧ g.entry = 0 ∧ 1 ∈ g.succs 0 ∧
      3 ∈ g.succs 1 := by
    simpa [Except.toOption, hg, hlive, hreaching] using hfacts
  have hpath : g.Path g.entry 3 [3, 1, 0] := .snoc (.snoc (hstart ▸ .nil) hhead) hexit
  obtain ⟨d, hd, honly, hdom⟩ := (hagree 3 ⟨_, hpath⟩ 7 hlive3).2 hentry7
  obtain rfl : (⟨1, 7, 0⟩ : DefPoint) = d := by simpa [hdefs] using hd
  exact ⟨f, texts, g, live, reaching, hlower, hg, hlive, hreaching, hentry, hlive3, hdefs, honly, hdom⟩

end MiddleEnd
