import MiddleEnd.Proofs.Dominance.Exact
import Mathlib.Logic.Relation

/-!
# The search for dominators ends

The immediate dominators are found in rounds. A round renews the guesses of all blocks but the entry in
reverse postorder and remembers whether one of them changed; if so, another round follows. Nothing in this
counts down, and looking for a common ancestor follows guesses for as long as two blocks differ. That all of
this ends rests on one invariant: the guesses form a tree at every moment, and each guess that changes moves to
an earlier place.

## Main definitions

* `Guesses.Climbs`: two blocks move up along their guesses until they meet.
* `Guesses.Compares`: the two blocks whose common ancestor is looked for.
* `Guesses.Moment`: how far the iteration has come, one renewal at a time.
* `Guesses.Moment.Underway`: what holds at every moment.

## Main statements

* `Guesses.Moment.Underway.next`, `Guesses.Moment.Underway.run`: one renewal keeps the invariant, and so do all.
* `Guesses.Moment.Underway.lowered`: a guess that changes moves to an earlier place.
* `Guesses.Settled.run_descend`: the rounds come to an end.
* `Function.dominators_terminate`: what holds throughout the iteration, and where it ends.
-/

namespace MiddleEnd

namespace Guesses

variable {place : BlockId → Nat} {preds : BlockId → List BlockId} {entry : BlockId}
  {rest : List BlockId} {count : Nat}

-- ════════════════════════════════════════════════════════════════════════
-- Moving up
-- ════════════════════════════════════════════════════════════════════════

/-- Two blocks move up until they meet. The one that comes later has a guess, which comes before it, and goes
there. -/
inductive Climbs (guesses : Guesses) (place : BlockId → Nat) : BlockId → BlockId → BlockId → Prop where
  | meet {a : BlockId} : Climbs guesses place a a a
  | left {a b c parent : BlockId} (hlt : place b < place a) (hup : guesses.get? a = some parent)
    (hdown : place parent < place a) (h : Climbs guesses place parent b c) : Climbs guesses place a b c
  | right {a b c parent : BlockId} (hlt : place a < place b) (hup : guesses.get? b = some parent)
    (hdown : place parent < place b) (h : Climbs guesses place a parent c) : Climbs guesses place a b c

/-- Two blocks with guesses meet: neither of them gets stuck, and they never come to one place without being
the same. -/
theorem Rooted.climbs_meet {guesses : Guesses} (h : guesses.Rooted place entry) {a b : BlockId}
    (ha : (guesses.get? a).isSome) (hb : (guesses.get? b).isSome) :
    guesses.Climbs place a b (guesses.meet place a b) := by
  fun_induction Guesses.meet guesses place a b with
  | case1 b => exact .meet
  | case2 a b hne hlt parent hup hplace ih => exact .left hlt hup hplace (ih (h.isSome_guess hup) hb)
  | case3 a b hne hlt parent hup hplace =>
    exact absurd (h.place_guess_lt hup hlt) hplace
  | case4 a b hne hlt hnone => simp [hnone] at ha
  | case5 a b hne hge parent hup hplace ih =>
    exact .right (h.place_lt ha hb hne hge) hup hplace (ih ha (h.isSome_guess hup))
  | case6 a b hne hge parent hup hplace =>
    exact absurd (h.place_guess_lt hup (h.place_lt ha hb hne hge)) hplace
  | case7 a b hne hge hnone => simp [hnone] at hb

/-- The blocks whose common ancestor is looked for: what the predecessors up to here have in common, and the
next one that has a guess. -/
def Compares (guesses : Guesses) (place : BlockId → Nat) (preds : List BlockId)
    (current pred : BlockId) : Prop :=
  ∃ before after, preds = before ++ pred :: after ∧ guesses.candidate place before = some current ∧
    (guesses.get? pred).isSome

/-- Both of them have a guess. -/
theorem Compares.isSome {guesses : Guesses} (h : guesses.Rooted place entry) {blocks : List BlockId}
    {current pred : BlockId} (hcompares : guesses.Compares place blocks current pred) :
    (guesses.get? current).isSome ∧ (guesses.get? pred).isSome := by
  obtain ⟨before, _, _, hcandidate, hpred⟩ := hcompares
  have hspec := h.candidate_spec before
  rw [hcandidate] at hspec
  exact ⟨hspec.1, hpred⟩

-- ════════════════════════════════════════════════════════════════════════
-- One renewal
-- ════════════════════════════════════════════════════════════════════════

theorem size_renew (g : Guesses) (x : BlockId) : (renew place preds g x).size = g.size := by
  unfold renew
  split
  · exact Array.size_setIfInBounds
  · rfl

/-- A renewal that leaves the guess of its block as it is changes nothing. -/
theorem get?_renew_eq_iff (g : Guesses) (x : BlockId) :
    (renew place preds g x).get? x = g.get? x ↔ renew place preds g x = g := by
  refine ⟨fun h => Array.ext (size_renew g x) fun b hb hb' => ?_, fun h => by rw [h]⟩
  by_cases hne : b = x
  · subst hne
    simpa [Guesses.get?, Array.getElem?_eq_getElem hb, Array.getElem?_eq_getElem hb'] using h
  · have hsame : (renew place preds g x)[b]? = g[b]? := getElem?_renew_ne g hne
    rw [Array.getElem?_eq_getElem hb, Array.getElem?_eq_getElem hb'] at hsame
    exact Option.some.inj hsame

/-- How far the iteration has come: the guesses, the blocks that this round has yet to renew, and whether it
has changed a guess. -/
structure Moment where
  guesses : Guesses
  later : List BlockId
  changed : Bool

namespace Moment

/-- What happens next. A round that has changed a guess is followed by another one. -/
def next? (place : BlockId → Nat) (preds : BlockId → List BlockId) (rest : List BlockId)
    (m : Moment) : Option Moment :=
  match m.later, m.changed with
  | b :: later, changed =>
    let guesses := renew place preds m.guesses b
    some ⟨guesses, later, changed || guesses.get? b != m.guesses.get? b⟩
  | [], true => some ⟨m.guesses, rest, false⟩
  | [], false => none

/-- The iteration ends with a round that has changed nothing. -/
theorem next?_eq_none_iff {m : Moment} :
    m.next? place preds rest = none ↔ m.later = [] ∧ m.changed = false := by
  obtain ⟨guesses, later, changed⟩ := m
  cases later <;> cases changed <;> simp [next?]

/-- The iteration comes from one moment to another. -/
def Leads (place : BlockId → Nat) (preds : BlockId → List BlockId) (rest : List BlockId) :
    Moment → Moment → Prop :=
  Relation.ReflTransGen fun m m' => m.next? place preds rest = some m'

/-- What holds at every moment: the round started from settled guesses, and has renewed the blocks before
those that are left. -/
def Underway (place : BlockId → Nat) (preds : BlockId → List BlockId) (entry : BlockId)
    (rest : List BlockId) (count : Nat) (m : Moment) : Prop :=
  ∃ old done, old.Settled place preds entry rest ∧ old.size = count ∧ done ≠ [] ∧
    entry :: rest = done ++ m.later ∧ Sweeping place preds entry rest old m.guesses done.length

namespace Underway

variable {m m' : Moment}

/-- A round starts with settled guesses. -/
theorem start (hcourse : Course place preds entry rest count) {g : Guesses}
    (hg : g.Settled place preds entry rest) (hcount : g.size = count) :
    Underway place preds entry rest count ⟨g, rest, false⟩ :=
  ⟨g, [entry], hg, hcount, by simp, rfl, .start hcourse hg⟩

theorem rooted (h : m.Underway place preds entry rest count) : m.guesses.Rooted place entry :=
  h.choose_spec.choose_spec.2.2.2.2.rooted

theorem mem (h : m.Underway place preds entry rest count) {b : BlockId}
    (hb : (m.guesses.get? b).isSome) : b ∈ entry :: rest :=
  h.choose_spec.choose_spec.2.2.2.2.mem b hb

/-- One renewal keeps the invariant, and so does the passage to the next round. -/
theorem next (hcourse : Course place preds entry rest count)
    (h : m.Underway place preds entry rest count) (hnext : m.next? place preds rest = some m') :
    m'.Underway place preds entry rest count := by
  obtain ⟨guesses, later, changed⟩ := m
  obtain ⟨old, done, hold, hcount, hdone, hsplit, hsweeping⟩ := h
  cases later with
  | cons x later =>
    obtain rfl := Option.some.inj hnext
    obtain ⟨hx, hplace⟩ := hcourse.place_of_split hsplit hdone
    rw [← hplace] at hsweeping
    have hrenewed := hsweeping.renew hcourse hcount hold hx
    rw [hplace] at hrenewed
    exact ⟨old, done ++ [x], hold, hcount, by simp, by simpa using hsplit, by simpa using hrenewed⟩
  | nil =>
    cases changed with
    | false => cases hnext
    | true =>
      obtain rfl := Option.some.inj hnext
      rw [List.append_nil] at hsplit
      rw [← hsplit] at hsweeping
      exact start hcourse (hsweeping.settled hcourse) (hsweeping.size.trans hcount)

/-- So it holds at every moment that the iteration comes to. -/
theorem run (hcourse : Course place preds entry rest count)
    (h : m.Underway place preds entry rest count) (hrun : m.Leads place preds rest m') :
    m'.Underway place preds entry rest count := by
  induction hrun with
  | refl => exact h
  | tail _ hnext ih => exact ih.next hcourse hnext

/-- A guess stays as it is or moves to an earlier place. -/
theorem lowered (hcourse : Course place preds entry rest count)
    (h : m.Underway place preds entry rest count) (hnext : m.next? place preds rest = some m')
    {b c : BlockId} (hb : m.guesses.get? b = some c) :
    ∃ c', m'.guesses.get? b = some c' ∧ (c' = c ∨ place c' < place c) := by
  have hnext' := h.next hcourse hnext
  obtain ⟨guesses, later, changed⟩ := m
  obtain ⟨old, done, hold, hcount, hdone, hsplit, hsweeping⟩ := h
  cases later with
  | nil =>
    cases changed with
    | false => cases hnext
    | true =>
      obtain rfl := Option.some.inj hnext
      exact ⟨c, hb, .inl rfl⟩
  | cons x later =>
    obtain rfl := Option.some.inj hnext
    obtain ⟨hx, hplace⟩ := hcourse.place_of_split hsplit hdone
    rw [← hplace] at hsweeping
    obtain ⟨d, hrenew, hd, hnearest, _⟩ := hsweeping.renew_eq hcourse hx
    by_cases hne : b = x
    · subst hne
      have hsize := hsweeping.lt_size hcourse hcount hx
      have hle := hsweeping.rooted.place_le_of_above
        (hsweeping.above_old_guess hcourse hold hx hnearest hb)
      refine ⟨d, by simp only [hrenew, get?_setIfInBounds_self hsize], ?_⟩
      rcases Nat.lt_or_eq_of_le hle with hlt | heq
      · exact .inr hlt
      · exact .inl (hsweeping.rooted.inj d c hd (hsweeping.rooted.isSome_guess hb) heq)
    · exact ⟨c, by simp only [hrenew, get?_setIfInBounds_ne hne, hb], .inl rfl⟩

end Underway

-- ════════════════════════════════════════════════════════════════════════
-- Rounds
-- ════════════════════════════════════════════════════════════════════════

/-- A round renews all its blocks, and remembers whether that changed the guesses. -/
theorem leads_round {blocks : List BlockId} (hnodup : blocks.Nodup) (g : Guesses) (changed : Bool) :
    Leads place preds rest ⟨g, blocks, changed⟩
      ⟨blocks.foldl (renew place preds) g, [],
        changed || !decide (blocks.foldl (renew place preds) g = g)⟩ := by
  induction blocks generalizing g changed with
  | nil =>
    rw [List.foldl_nil, decide_eq_true rfl, Bool.not_true, Bool.or_false]
    exact .refl
  | cons x blocks ih =>
    obtain ⟨hx, hnodup⟩ := List.nodup_cons.mp hnodup
    have hrest := ih hnodup (renew place preds g x) (changed || (renew place preds g x).get? x != g.get? x)
    have hflag : (changed || (renew place preds g x).get? x != g.get? x ||
        !decide (blocks.foldl (renew place preds) (renew place preds g x) = renew place preds g x)) =
        (changed || !decide (blocks.foldl (renew place preds) (renew place preds g x) = g)) := by
      rw [bne, Bool.beq_eq_decide_eq, decide_eq_decide.mpr (get?_renew_eq_iff g x),
        decide_eq_decide.mpr (foldl_renew_eq_iff hx g), Bool.decide_and, Bool.not_and, Bool.or_assoc]
    rw [hflag] at hrest
    exact .head rfl hrest

end Moment

/-- The rounds come to an end, with the guesses that the search for a fixed point answers. -/
theorem Settled.run_descend (hcourse : Course place preds entry rest count) {g : Guesses}
    (hcount : g.size = count) (hg : g.Settled place preds entry rest) :
    Moment.Leads place preds rest ⟨g, rest, false⟩
      ⟨descend (distance place count) (Guesses.sweep place preds rest) g, [], false⟩ := by
  have hround : ∀ g, Moment.Leads place preds rest ⟨g, rest, false⟩ ⟨rest.foldl (renew place preds) g, [],
      false || !decide (rest.foldl (renew place preds) g = g)⟩ :=
    fun g => Moment.leads_round (List.nodup_cons.mp hcourse.nodup).2 g false
  fun_induction descend (distance place count) (Guesses.sweep place preds rest) g with
  | case1 g hlower ih =>
    have hchanged : Guesses.sweep place preds rest g ≠ g := fun hsame => by
      rw [hsame] at hlower
      exact Nat.lt_irrefl _ hlower
    have hsize := (hg.sweeping hcourse hcount).size.trans hcount
    have hend := hround g
    rw [← Guesses.sweep, decide_eq_false hchanged] at hend
    exact hend.trans (.head rfl (ih hsize (hg.sweep hcourse hcount)))
  | case2 g hstill =>
    have hend := hround g
    rwa [← Guesses.sweep, decide_eq_true (hg.sweep_eq_of_distance hcourse hcount hstill)] at hend

end Guesses

-- ════════════════════════════════════════════════════════════════════════
-- Functions
-- ════════════════════════════════════════════════════════════════════════

namespace Function

open Guesses

/-- The iteration for the dominators of a function whose edges were derived and whose entry exists comes to an
end, and what it ends in is recorded. At every moment the blocks other than the entry that have a guess can be
reached, as can their guesses, which come before them. Whenever a common ancestor is looked for, the ways up from
both blocks lead to the entry, moving up never gets stuck, and it ends in the nearest block above both of them.
No block loses its guess, and a guess that changes moves to an earlier place. -/
theorem dominators_terminate (g : Function) (hentry : g.entry < g.blockCount) :
    let f := g.buildEdges
    ∃ rest, f.reversePostorder = .ok (f.entry :: rest) ∧
      let place := f.placeIn (f.entry :: rest)
      let start : Moment := ⟨f.firstGuesses, rest, false⟩
      (∀ m, start.Leads place f.preds rest m →
        (∀ b c, m.guesses.get? b = some c → b ≠ f.entry →
          f.Reachable b ∧ f.Reachable c ∧ place c < place b) ∧
        (∀ b later, m.later = b :: later → ∀ x y, m.guesses.Compares place (f.preds b) x y →
          Above m.guesses.get? f.entry x ∧ Above m.guesses.get? f.entry y ∧
            m.guesses.Climbs place x y (m.guesses.meet place x y) ∧
            Above m.guesses.get? (m.guesses.meet place x y) x ∧
            Above m.guesses.get? (m.guesses.meet place x y) y ∧
            ∀ e, Above m.guesses.get? e x → Above m.guesses.get? e y →
              Above m.guesses.get? e (m.guesses.meet place x y)) ∧
        ∀ m', m.next? place f.preds rest = some m' → ∀ b c, m.guesses.get? b = some c →
          ∃ c', m'.guesses.get? b = some c' ∧ (c' = c ∨ place c' < place c)) ∧
      ∃ last, start.Leads place f.preds rest last ∧ last.next? place f.preds rest = none ∧
        f.withDominators = .ok (f.recordIdoms (last.guesses.setIfInBounds f.entry none)) := by
  intro f
  obtain ⟨hlinked, hcount, _⟩ := g.linked_buildEdges
  have hentry' : f.entry < f.blockCount := by
    rw [g.entry_buildEdges, hcount]
    exact hentry
  obtain ⟨order, horder, hordered⟩ := reversePostorder_ordered hentry' hlinked
  obtain ⟨rest, rfl⟩ := hordered.head
  have hcourse := hordered.course hlinked hentry'
  have hfirst := settled_firstGuesses hlinked hentry' hordered
  have hreach : ∀ b ∈ f.entry :: rest, f.Reachable b := fun b => (hordered.mem_iff b).mp
  refine ⟨rest, horder, fun m hrun => ?_, ?_⟩
  · have hunder := (Moment.Underway.start hcourse hfirst f.size_firstGuesses).run hcourse hrun
    have hrooted := hunder.rooted
    refine ⟨fun b c hc hne => ?_, fun b _ _ x y hcompares => ?_, fun m' hnext b c hc =>
      hunder.lowered hcourse hnext hc⟩
    · exact ⟨hreach b (hunder.mem (by simp [hc])), hreach c (hunder.mem (hrooted.isSome_guess hc)),
        (hrooted.up b c hc hne).1⟩
    · obtain ⟨hx, hy⟩ := hcompares.isSome hrooted
      exact ⟨hrooted.entry_above hx, hrooted.entry_above hy, hrooted.climbs_meet hx hy,
        hrooted.meet_spec hx hy⟩
  · exact ⟨_, hfirst.run_descend hcourse f.size_firstGuesses, rfl, withDominators_eq hlinked horder⟩

end Function

/-- The iteration for the blocks that lead to each other ends, too. -/
theorem tangle_terminates : tangle.entry < tangle.blockCount ∧
    ∃ rest last, Guesses.Moment.Leads (tangle.buildEdges.placeIn (tangle.buildEdges.entry :: rest))
        tangle.buildEdges.preds rest ⟨tangle.buildEdges.firstGuesses, rest, false⟩ last ∧
      last.later = [] ∧ last.changed = false ∧ tangle.buildEdges.withDominators =
        .ok (tangle.buildEdges.recordIdoms
          (last.guesses.setIfInBounds tangle.buildEdges.entry none)) := by
  have hentry : tangle.entry < tangle.blockCount := by decide
  obtain ⟨rest, _, _, last, hrun, hlast, hdom⟩ := tangle.dominators_terminate hentry
  obtain ⟨hlater, hchanged⟩ := Guesses.Moment.next?_eq_none_iff.mp hlast
  exact ⟨hentry, rest, last, hrun, hlater, hchanged, hdom⟩

end MiddleEnd
