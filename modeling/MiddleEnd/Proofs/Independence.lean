import MiddleEnd.Proofs.Lowering.Uniform
import MiddleEnd.Proofs.Pipeline
import MiddleEnd.Proofs.SSA.Alike

/-!
# Functions are lowered independently

All functions of a unit share one table of string literals, and nothing else. The table decides only which
numbers the literals of a function get, so the listing of a function does not depend on the table that it was
lowered with, and not on the other items of the unit.

## Main definitions

* `Function.ListedAs`: how a function is listed before and after its conversion, with its own table or a
  later one.
* `Item.definition?`: the function that an item defines.

## Main statements

* `SourceUnit.agree_lowerFunction`: a function that is lowered with two tables.
* `SourceUnit.listings_independent`: each function of a unit has its own listing, whatever came before it.
-/

namespace MiddleEnd

-- ════════════════════════════════════════════════════════════════════════
-- Two tables
-- ════════════════════════════════════════════════════════════════════════

/-- A function without instructions is alike itself. -/
theorem Function.alike_self_of_code {f : Function} (hcode : ∀ b, f.code b = []) (texts texts' : Interner) :
    f.Alike texts texts' f where
  rest := rfl
  blocks b := by
    cases hb : f.blocks[b]? with
    | none => exact .none
    | some block =>
      have hempty : block.instrs = [] := code_of_getElem? hb ▸ hcode b
      exact .some ⟨rfl, by rw [hempty]; exact .nil⟩

namespace SourceUnit

variable {unit : SourceUnit}

/-- With two tables, lowering a function gives alike functions, or stops with the same fault. -/
theorem WellFormed.agree_lowerFunction (hunit : unit.WellFormed) {decl : FunctionDecl}
    (hdecl : unit.KnowsItem (.function decl)) {body : StmtId} (hbody : decl.body = some body)
    (texts texts' : Interner) :
    Agree (fun p q => ∃ f f', p.1 = some f ∧ q.1 = some f' ∧ f.Alike p.2 q.2 f' ∧ texts.Keeps p.2 ∧
      texts'.Keeps q.2) (unit.lowerFunction texts decl) (unit.lowerFunction texts' decl) := by
  rw [lowerFunction, lowerFunction, hbody]
  cases hfn : unit.enterFunction decl with
  | error fault => exact rfl
  | ok fn =>
    have hentered := unit.ensured_enterFunction decl texts decl.line
    rw [hfn] at hentered
    have hstart : Lowering.Parallel { fn, texts, current := fn.entry, line := decl.line }
        { fn, texts := texts', current := fn.entry, line := decl.line } :=
      ⟨rfl, fn.alike_self_of_code hentered.2 texts texts'⟩
    refine (hunit.uniform_lowerBody (hdecl.2.2 body hbody) _ _ hstart).bind ?_
    rintro ⟨_, s⟩ ⟨_, t⟩ ⟨_, _, hst, hkeeps, hkeeps'⟩
    exact ⟨_, _, rfl, rfl, hst.fn.closeBlocks.buildEdges, hkeeps, hkeeps'⟩

end SourceUnit

-- ════════════════════════════════════════════════════════════════════════
-- Listings
-- ════════════════════════════════════════════════════════════════════════

/-- With its table, or one that keeps it, the function has the listing `text`, and in single assignment form
the listing `ssaText`. -/
structure Function.ListedAs (names texts : Interner) (f : Function) (text ssaText : String) : Prop where
  lowered : ∀ later, texts.Keeps later → f.listing ⟨names, later⟩ = .ok text
  converted : ∃ g, f.constructSsa = .ok g ∧
    ∀ later, texts.Keeps later → g.listing ⟨names, later⟩ = .ok ssaText

namespace Function.ListedAs

variable {names texts texts' : Interner} {f f' : Function} {text ssaText : String}

theorem mono (h : f.ListedAs names texts text ssaText) (hkeeps : texts.Keeps texts') :
    f.ListedAs names texts' text ssaText where
  lowered later hlater := h.lowered later (hkeeps.trans hlater)
  converted := by
    obtain ⟨g, hg, hlisting⟩ := h.converted
    exact ⟨g, hg, fun later hlater => hlisting later (hkeeps.trans hlater)⟩

/-- What is alike a function is listed as it is. -/
theorem of_alike (halike : f.Alike texts texts' f') {g : Function} (hg : f.constructSsa = .ok g)
    (htext : f.listing ⟨names, texts⟩ = .ok text) (hssaText : g.listing ⟨names, texts⟩ = .ok ssaText) :
    f'.ListedAs names texts' text ssaText where
  lowered later hlater := by
    rw [← (halike.mono (.refl texts) hlater).listing_eq, htext]
  converted := by
    obtain ⟨g', hg', hgg'⟩ := halike.constructSsa.exists_of_ok hg
    refine ⟨g', hg', fun later hlater => ?_⟩
    rw [← (hgg'.mono (.refl texts) hlater).listing_eq, hssaText]

end Function.ListedAs

-- ════════════════════════════════════════════════════════════════════════
-- Other items
-- ════════════════════════════════════════════════════════════════════════

/-- The function that an item defines: one with a body. -/
def Item.definition? : Item → Option FunctionDecl
  | .function decl => if decl.body.isSome then some decl else none
  | .global _ => none

theorem Item.definition?_eq_some {item : Item} {decl : FunctionDecl} (h : item.definition? = some decl) :
    item = .function decl ∧ decl.body.isSome = true := by
  cases item with
  | global decl => cases h
  | function other =>
    obtain ⟨hsome, heq⟩ := Option.ite_none_right_eq_some.mp h
    obtain rfl := Option.some.inj heq
    exact ⟨rfl, hsome⟩

/-- The functions of a program have the listings that belong to their declarations. -/
def Program.ListedAs (names : Interner) (text ssaText : FunctionDecl → String) (decls : List FunctionDecl)
    (program : Program) : Prop :=
  List.Forall₂ (fun decl f => f.ListedAs names program.texts (text decl) (ssaText decl)) decls
    program.functions

theorem Program.ListedAs.mapM_listing {names : Interner} {text ssaText : FunctionDecl → String}
    {decls : List FunctionDecl} {program : Program} (h : program.ListedAs names text ssaText decls) :
    program.functions.mapM (·.listing ⟨names, program.texts⟩) = .ok (decls.map text) :=
  mapM_eq_ok_of_forall₂ (h.imp fun _ _ hf => hf.lowered program.texts (.refl _))

namespace SourceUnit

variable (unit : SourceUnit) (items : List Item)

theorem lowerExprWithin_items (depth : Nat) :
    { unit with items }.lowerExprWithin depth = unit.lowerExprWithin depth := by
  induction depth with
  | zero => rfl
  | succ depth ih =>
    funext id
    rw [lowerExprWithin, lowerExprWithin, ih]
    rfl

theorem lowerExpr_items : { unit with items }.lowerExpr = unit.lowerExpr :=
  unit.lowerExprWithin_items items _

theorem lowerStmtKind_items (lower : StmtId → LowerM Unit) (id : StmtId) (ty : Option TypeId)
    (kind : StmtKind Name) :
    lowerStmtKind { unit with items } lower id ty kind = lowerStmtKind unit lower id ty kind := by
  have hexpr := unit.lowerExpr_items items
  cases kind with
  | assertion cond => cases cond <;> simp only [lowerStmtKind, lowerAssertion, hexpr]
  | declare name init => simp only [lowerStmtKind, lowerDeclare, hexpr]
  | expr value => simp only [lowerStmtKind, hexpr]
  | ret value => simp only [lowerStmtKind, lowerReturn, hexpr]
  | conditional cond thenBody elseBody => simp only [lowerStmtKind, lowerConditional, hexpr]
  | whileLoop cond body => simp only [lowerStmtKind, lowerWhile, hexpr]
  | doLoop body cond => simp only [lowerStmtKind, lowerDo, hexpr]
  | forLoop init cond incr body => simp only [lowerStmtKind, lowerFor, hexpr]
  | switch cond body =>
    simp only [lowerStmtKind, lowerSwitch, hexpr]
    rfl
  | _ => rfl

theorem lowerStmtWithin_items (depth : Nat) :
    { unit with items }.lowerStmtWithin depth = unit.lowerStmtWithin depth := by
  induction depth with
  | zero => rfl
  | succ depth ih =>
    funext id
    rw [lowerStmtWithin, lowerStmtWithin, ih]
    simp only [lowerStmtKind_items]
    rfl

theorem createLabelsWithin_items (depth : Nat) :
    { unit with items }.createLabelsWithin depth = unit.createLabelsWithin depth := by
  induction depth with
  | zero => rfl
  | succ depth ih =>
    funext id
    rw [createLabelsWithin, createLabelsWithin, ih]
    rfl

/-- The items of a unit have no influence on how one of them is lowered. -/
theorem lowerItem_items : { unit with items }.lowerItem = unit.lowerItem := by
  have hbody : { unit with items }.lowerBody = unit.lowerBody := by
    funext body
    simp only [lowerBody, createLabels, lowerStmt, lowerStmtWithin_items, createLabelsWithin_items]
  funext program item
  cases item with
  | function decl =>
    simp only [lowerItem, lowerFunction, hbody]
    rfl
  | global decl => rfl

end SourceUnit

-- ════════════════════════════════════════════════════════════════════════
-- Whole units
-- ════════════════════════════════════════════════════════════════════════

namespace SourceUnit

variable {unit : SourceUnit}

/-- Whatever table it is lowered with, the function gets the same listings. -/
def Lists (unit : SourceUnit) (decl : FunctionDecl) (text ssaText : String) : Prop :=
  ∀ texts, ∃ f texts', unit.lowerFunction texts decl = .ok (some f, texts') ∧ texts.Keeps texts' ∧
    f.ListedAs unit.names texts' text ssaText

/-- Every function with a body gets the same listings, whatever table it is lowered with. -/
theorem WellFormed.exists_lists (hunit : unit.WellFormed) {decl : FunctionDecl}
    (hdecl : unit.KnowsItem (.function decl)) {body : StmtId} (hbody : decl.body = some body) :
    ∃ text ssaText, unit.Lists decl text ssaText := by
  -- The listings of the function that is lowered first in its program.
  obtain ⟨_, first, hfirst, _, hsent⟩ := hunit.lowerFunction_eq hdecl {}
  obtain ⟨_, _, f, _, hf, _, _⟩ := (hunit.agree_lowerFunction hdecl hbody {} {}).exists_of_ok hfirst
  obtain rfl : _ = some f := hf
  obtain ⟨text, htext⟩ := (hsent f rfl).listable.listing
  obtain ⟨hconvert, _, hlistable, _⟩ := (hsent f rfl).converted
  obtain ⟨ssaText, hssaText⟩ := hlistable.listing
  refine ⟨text, ssaText, fun texts => ?_⟩
  obtain ⟨⟨_, texts'⟩, hlower, _, f', hf, rfl, halike, _, hkeeps⟩ :=
    (hunit.agree_lowerFunction hdecl hbody {} texts).exists_of_ok hfirst
  obtain rfl := Option.some.inj hf
  exact ⟨f', texts', hlower, hkeeps, .of_alike halike hconvert htext hssaText⟩

/-- An item adds the listings of the function that it defines to those of a program. -/
theorem lowerItem_listed {text ssaText : FunctionDecl → String} {item : Item} (hitem : unit.KnowsItem item)
    (hlists : ∀ decl ∈ item.definition?, unit.Lists decl (text decl) (ssaText decl))
    {decls : List FunctionDecl} {program : Program}
    (hprogram : program.ListedAs unit.names text ssaText decls) : ∃ program',
      unit.lowerItem program item = .ok program' ∧
        program'.ListedAs unit.names text ssaText (decls ++ item.definition?.toList) := by
  cases item with
  | global decl =>
    obtain ⟨global, hglobal⟩ := WellFormed.succeeds_lowerGlobal hitem
    refine ⟨{ program with globals := program.globals ++ [global] }, by rw [lowerItem, hglobal]; rfl, ?_⟩
    rw [Item.definition?, Option.toList_none, List.append_nil]
    exact hprogram
  | function decl =>
    cases hbody : decl.body with
    | none =>
      refine ⟨program, ?_, ?_⟩
      · rw [lowerItem, lowerFunction, hbody]
        simp
      · rw [Item.definition?, hbody]
        simpa using hprogram
    | some body =>
      have hdefines : Item.definition? (.function decl) = some decl := by rw [Item.definition?, hbody]; rfl
      obtain ⟨f, texts, hlower, hkeeps, hf⟩ := hlists decl hdefines program.texts
      refine ⟨{ program with functions := program.functions ++ [f], texts }, by rw [lowerItem, hlower]; rfl, ?_⟩
      rw [hdefines]
      -- The functions so far keep their listings as the table grows.
      exact List.rel_append (hprogram.imp fun _ _ h => h.mono hkeeps) (.cons hf .nil)

/-- Each function of a unit that was built has a listing of its own, before and after its conversion to single
assignment form. With any two tables, lowering it gives functions that are equal except for the numbers of
string literals, where corresponding numbers stand for the same text, and both have that listing, with the
table behind them or any that keeps it. So they have it in every program, whatever other items come before and
after. -/
theorem listings_independent (unit : SourceUnit) (hunit : unit.Built) :
    ∃ text ssaText : FunctionDecl → String,
      (∀ decl, unit.KnowsItem (.function decl) → decl.body.isSome = true → ∀ texts texts' : Interner,
        ∃ f final f' final',
          unit.lowerFunction texts decl = .ok (some f, final) ∧
          unit.lowerFunction texts' decl = .ok (some f', final') ∧
          f.Alike final final' f' ∧
          Agree (Function.Alike final final') f.constructSsa f'.constructSsa ∧
          f.ListedAs unit.names final (text decl) (ssaText decl) ∧
          f'.ListedAs unit.names final' (text decl) (ssaText decl)) ∧
      ∀ items : List Item, (∀ item ∈ items, unit.KnowsItem item) →
        ∃ program, { unit with items }.lower = .ok program ∧
          program.ListedAs unit.names text ssaText (items.filterMap Item.definition?) := by
  have hlists : ∀ decl : FunctionDecl, ∃ text ssaText, unit.KnowsItem (.function decl) →
      decl.body.isSome = true → unit.Lists decl text ssaText := by
    intro decl
    by_cases hdecl : unit.KnowsItem (.function decl) ∧ decl.body.isSome = true
    · obtain ⟨body, hbody⟩ := Option.isSome_iff_exists.mp hdecl.2
      obtain ⟨text, ssaText, h⟩ := hunit.wellFormed.exists_lists hdecl.1 hbody
      exact ⟨text, ssaText, fun _ _ => h⟩
    · exact ⟨"", "", fun hknown hbody => absurd ⟨hknown, hbody⟩ hdecl⟩
  choose text ssaText hlists using hlists
  refine ⟨text, ssaText, fun decl hdecl hsome texts texts' => ?_, fun items hitems => ?_⟩
  · obtain ⟨body, hbody⟩ := Option.isSome_iff_exists.mp hsome
    obtain ⟨f, final, hlower, _, hf⟩ := hlists decl hdecl hsome texts
    obtain ⟨f', final', hlower', _, hf'⟩ := hlists decl hdecl hsome texts'
    obtain ⟨_, hother, _, _, hg, hg', halike, _, _⟩ :=
      (hunit.wellFormed.agree_lowerFunction hdecl hbody texts texts').exists_of_ok hlower
    obtain rfl := Option.some.inj hg
    obtain rfl := Except.ok.inj (hlower'.symm.trans hother)
    obtain rfl := Option.some.inj hg'
    exact ⟨f, final, f', final', hlower, hlower', halike, halike.constructSsa, hf, hf'⟩
  · rw [lower, unit.lowerItem_items items]
    refine foldlM_induction unit.lowerItem
      (fun pre program => program.ListedAs unit.names text ssaText (pre.filterMap Item.definition?)) items {}
      .nil ?_
    intro pre item post program hsplit hprogram
    have hitem : unit.KnowsItem item := hitems item (by rw [hsplit]; simp)
    have hone : [item].filterMap Item.definition? = item.definition?.toList := by
      cases hdefines : item.definition? <;> simp [hdefines]
    rw [List.filterMap_append, hone]
    refine lowerItem_listed hitem (fun decl hdefines => ?_) hprogram
    obtain ⟨rfl, hsome⟩ := Item.definition?_eq_some hdefines
    exact hlists decl hitem hsome

end SourceUnit

/-- A unit with two functions, each of which returns a string literal. -/
def greetingsUnit : SourceUnit :=
  let unit := (({} : SourceUnit).addExpr (.text "welcome") none 1).2
  let unit := (unit.addExpr (.text "farewell") none 2).2
  let unit := (unit.addStmt (.ret (some 0)) none 1).2
  let unit := (unit.addStmt (.ret (some 1)) none 2).2
  let unit := unit.addFunction "arrive" TypeTable.int [] (some 0) 1
  unit.addFunction "leave" TypeTable.int [] (some 1) 2

theorem greetingsUnit_built : greetingsUnit.Built := by
  have hwelcome := SourceUnit.Built.addExpr (.text "welcome") none 1 .empty ⟨nofun, nofun⟩ nofun
  have hfarewell := SourceUnit.Built.addExpr (.text "farewell") none 2 hwelcome ⟨nofun, nofun⟩ nofun
  have hfirst := SourceUnit.Built.addStmt (.ret (some 0)) none 1 hfarewell ⟨nofun, by decide +kernel⟩ nofun
  have hsecond := SourceUnit.Built.addStmt (.ret (some 1)) none 2 hfirst ⟨nofun, by decide +kernel⟩ nofun
  have harrive := SourceUnit.Built.addFunction "arrive" TypeTable.int [] (some 0) 1 hsecond
    (by decide +kernel) nofun (by decide +kernel)
  exact .addFunction "leave" TypeTable.int [] (some 1) 2 harrive (by decide +kernel) nofun
    (by decide +kernel)

/-- The listing of a function that returns a string literal. -/
def greetingListing (name word : String) : String :=
  "function @" ++ name ++ "() \x7b\n  ; 1 blocks, 1 vregs\n\n  entry (bb0):\n    t0 = const \"" ++ word ++
    "\"\n    ret t0\n\n\x7d\n\n"

/-- The two functions have the same listings in either order, although their literals are numbered
differently. -/
theorem greetings_listed : ∃ (program swapped : Program),
    greetingsUnit.lower = .ok program ∧
    { greetingsUnit with items := greetingsUnit.items.reverse }.lower = .ok swapped ∧
    program.texts ≠ swapped.texts ∧
    program.functions.mapM (·.listing ⟨greetingsUnit.names, program.texts⟩) =
      .ok [greetingListing "arrive" "welcome", greetingListing "leave" "farewell"] ∧
    swapped.functions.mapM (·.listing ⟨greetingsUnit.names, swapped.texts⟩) =
      .ok [greetingListing "leave" "farewell", greetingListing "arrive" "welcome"] := by
  have hitems := greetingsUnit_built.wellFormed.items
  obtain ⟨text, ssaText, _, hprograms⟩ := greetingsUnit.listings_independent greetingsUnit_built
  obtain ⟨program, hlower, hlisted⟩ := hprograms greetingsUnit.items hitems
  obtain ⟨swapped, hlower', hlisted'⟩ := hprograms greetingsUnit.items.reverse fun item hitem =>
    hitems item (List.mem_reverse.mp hitem)
  have hdefines : greetingsUnit.items.filterMap Item.definition? =
      [⟨0, TypeTable.int, [], some 0, 1⟩, ⟨1, TypeTable.int, [], some 1, 2⟩] := by decide +kernel
  have htexts : greetingsUnit.lower.toOption.map Program.texts ≠
      { greetingsUnit with items := greetingsUnit.items.reverse }.lower.toOption.map Program.texts := by
    decide +kernel
  have hfacts : (do
      let program ← greetingsUnit.lower
      program.functions.mapM (Function.listing ⟨greetingsUnit.names, program.texts⟩)).toOption =
      some [greetingListing "arrive" "welcome", greetingListing "leave" "farewell"] := by decide +kernel
  change greetingsUnit.lower = .ok program at hlower
  rw [hlower, hlower'] at htexts
  rw [hlower, ok_bind] at hfacts
  have hlistings := hlisted.mapM_listing
  have hlistings' := hlisted'.mapM_listing
  rw [hdefines] at hlistings
  rw [List.filterMap_reverse, hdefines] at hlistings'
  -- The first order tells the texts, and they are the same in the second.
  obtain ⟨harrive, hleave⟩ : text ⟨0, TypeTable.int, [], some 0, 1⟩ = greetingListing "arrive" "welcome" ∧
      text ⟨1, TypeTable.int, [], some 1, 2⟩ = greetingListing "leave" "farewell" := by
    rw [hlistings] at hfacts
    simpa [Except.toOption] using hfacts
  rw [← harrive, ← hleave]
  exact ⟨program, swapped, hlower, hlower', fun heq => htexts (congrArg some heq), hlistings, hlistings'⟩

end MiddleEnd
