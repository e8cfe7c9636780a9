import MiddleEnd.Interner
import Mathlib.Data.Finset.Card
import Mathlib.Tactic.Common

/-!
# Numbers of texts

A table of texts hands out the numbers from zero on, one to each text, in the order in which the texts
first come up. A number keeps its meaning while the table grows. Names and string literals are kept in such
tables, so both can be told apart by their numbers.

## Main definitions

* `Interner.Keeps`: what one table holds, another holds under the same number.
* `Interner.Distinct`: no text is in the table twice.
* `Interner.internAll`: enters texts one after the other.

## Main statements

* `Interner.Distinct.intern`, `Interner.Distinct.internAll`: no text is entered twice.
* `Interner.Distinct.intern_of_get?`: entering a text that is there answers its number and changes nothing.
* `Interner.numbering_bijective`: the numbers that a list of texts gets.
-/

namespace MiddleEnd

namespace Interner

-- ════════════════════════════════════════════════════════════════════════
-- Looking up
-- ════════════════════════════════════════════════════════════════════════

/-- Looking up a text finds its first place. -/
theorem lookup_eq_findIdx? (table : Interner) (text : String) :
    table.lookup text = table.texts.toList.findIdx? (· == text) :=
  table.coherent text

/-- A text has a number exactly when it is in the table. -/
theorem lookup_eq_none_iff (table : Interner) (text : String) :
    table.lookup text = none ↔ text ∉ table.texts.toList := by
  rw [lookup_eq_findIdx?, List.findIdx?_eq_none_iff]
  constructor
  · intro h hmem
    simpa using h text hmem
  · rintro h other hother
    exact beq_false_of_ne fun heq => h (heq ▸ hother)

/-- A number that was looked up stands for the text. -/
theorem get?_of_lookup {table : Interner} {text : String} {id : Nat} (h : table.lookup text = some id) :
    table.get? id = some text := by
  rw [lookup_eq_findIdx?] at h
  obtain ⟨hlt, heq, _⟩ := List.findIdx?_eq_some_iff_getElem.mp h
  rw [get?, ← Array.getElem?_toList, List.getElem?_eq_getElem hlt, eq_of_beq heq]

/-- Entering a new text changes no number. -/
theorem lookup_enter (table : Interner) (other text : String) :
    (table.enter other).lookup text =
      (table.lookup text).or (if other = text then some table.size else none) := by
  rw [lookup, enter, List.lookup_append, lookup_entry]
  rfl

/-- A text has a number after it was entered. -/
theorem lookup_intern_self (table : Interner) (text : String) :
    (table.intern text).2.lookup text = some (table.intern text).1 := by
  rw [intern]
  cases hlookup : table.lookup text with
  | some id => exact hlookup
  | none => rw [lookup_enter, hlookup, if_pos rfl, Option.none_or]

/-- Entering a text changes no number. -/
theorem lookup_intern {table : Interner} {text : String} {id : Nat} (other : String)
    (h : table.lookup text = some id) : (table.intern other).2.lookup text = some id := by
  rw [intern]
  cases table.lookup other with
  | some _ => exact h
  | none => rw [lookup_enter, h, Option.some_or]

/-- The number of a text that was entered stands for the text. -/
theorem get?_intern (table : Interner) (text : String) :
    (table.intern text).2.get? (table.intern text).1 = some text :=
  get?_of_lookup (table.lookup_intern_self text)

/-- What has a number is in the table. -/
theorem mem_of_get? {table : Interner} {text : String} {id : Nat} (h : table.get? id = some text) :
    text ∈ table.texts.toList := by
  rw [get?, ← Array.getElem?_toList] at h
  exact List.mem_of_getElem? h

theorem lt_of_get? {table : Interner} {text : String} {id : Nat} (h : table.get? id = some text) :
    id < table.size :=
  (Array.getElem?_eq_some_iff.mp h).1

/-- The number of a text that was entered is a number of the table, which has not become smaller. -/
theorem intern_lt (table : Interner) (text : String) :
    (table.intern text).1 < (table.intern text).2.size ∧ table.size ≤ (table.intern text).2.size := by
  refine ⟨lt_of_get? (table.get?_intern text), ?_⟩
  rw [intern]
  cases table.lookup text with
  | some _ => exact Nat.le_refl _
  | none => simp [size]

-- ════════════════════════════════════════════════════════════════════════
-- Growing tables
-- ════════════════════════════════════════════════════════════════════════

/-- Every text of the first table has the same number in the second. -/
def Keeps (table later : Interner) : Prop :=
  ∀ id text, table.get? id = some text → later.get? id = some text

theorem Keeps.refl (table : Interner) : table.Keeps table := fun _ _ => id

theorem Keeps.trans {a b c : Interner} (hab : a.Keeps b) (hbc : b.Keeps c) : a.Keeps c :=
  fun id text h => hbc id text (hab id text h)

/-- Entering a text keeps the others. -/
theorem keeps_intern (table : Interner) (text : String) : table.Keeps (table.intern text).2 := by
  intro id other h
  unfold intern
  split
  · exact h
  · have hlt : id < table.texts.size := (Array.getElem?_eq_some_iff.mp h).1
    rw [get?, texts_enter, Array.getElem?_push_lt hlt, ← h, get?, Array.getElem?_eq_getElem hlt]

theorem mem_intern {table : Interner} {text other : String} :
    other ∈ (table.intern text).2.texts.toList ↔ other ∈ table.texts.toList ∨ other = text := by
  rw [intern]
  cases hlookup : table.lookup text with
  | none => simp
  | some id =>
    refine ⟨.inl, fun h => ?_⟩
    rcases h with h | rfl
    · exact h
    · exact mem_of_get? (get?_of_lookup hlookup)

/-- A new text gets the next number. -/
theorem intern_of_notMem {table : Interner} {text : String} (h : text ∉ table.texts.toList) :
    (table.intern text).1 = table.size := by
  rw [intern, (table.lookup_eq_none_iff text).mpr h]

-- ════════════════════════════════════════════════════════════════════════
-- One number for each text
-- ════════════════════════════════════════════════════════════════════════

/-- No text is in the table twice. -/
def Distinct (table : Interner) : Prop := table.texts.toList.Nodup

namespace Distinct

variable {table : Interner} {text : String} {id : Nat}

theorem empty : Distinct {} := List.nodup_nil

theorem intern (h : table.Distinct) (text : String) : (table.intern text).2.Distinct := by
  rw [Interner.intern]
  cases hlookup : table.lookup text with
  | some _ => exact h
  | none =>
    have hnew : text ∉ table.texts.toList := (table.lookup_eq_none_iff text).mp hlookup
    rw [Distinct, texts_enter, Array.toList_push]
    exact List.nodup_append.mpr ⟨h, List.nodup_singleton text, fun a ha b hb heq =>
      hnew (List.mem_singleton.mp hb ▸ heq ▸ ha)⟩

/-- A text has one number. -/
theorem eq_of_get? (h : table.Distinct) {other : Nat} (hid : table.get? id = some text)
    (hother : table.get? other = some text) : id = other := by
  have hlt : id < table.texts.toList.length := lt_of_get? hid
  rw [get?, ← Array.getElem?_toList] at hid hother
  exact (List.getElem?_inj hlt h).mp (hid.trans hother.symm)

/-- Looking up finds the number under which a text is there. -/
theorem lookup_eq_some_iff (h : table.Distinct) :
    table.lookup text = some id ↔ table.get? id = some text := by
  refine ⟨get?_of_lookup, fun hid => ?_⟩
  cases hlookup : table.lookup text with
  | none => exact absurd (mem_of_get? hid) ((table.lookup_eq_none_iff text).mp hlookup)
  | some other => rw [h.eq_of_get? (get?_of_lookup hlookup) hid]

/-- Entering a text that is there answers its number and changes nothing. -/
theorem intern_of_get? (h : table.Distinct) (hid : table.get? id = some text) :
    table.intern text = (id, table) := by
  rw [Interner.intern, h.lookup_eq_some_iff.mpr hid]

end Distinct

-- ════════════════════════════════════════════════════════════════════════
-- Runs
-- ════════════════════════════════════════════════════════════════════════

/-- Enters texts one after the other: the numbers that they get, and the table afterwards. -/
def internAll (table : Interner) : List String → List Nat × Interner
  | [] => ([], table)
  | text :: rest =>
    let (id, table) := table.intern text
    let (ids, table) := table.internAll rest
    (id :: ids, table)

theorem internAll_append (table : Interner) (calls later : List String) :
    table.internAll (calls ++ later) =
      ((table.internAll calls).1 ++ ((table.internAll calls).2.internAll later).1,
        ((table.internAll calls).2.internAll later).2) := by
  induction calls generalizing table with
  | nil => rfl
  | cons text calls ih => simp only [List.cons_append, internAll, ih]

theorem length_internAll (table : Interner) (calls : List String) :
    (table.internAll calls).1.length = calls.length := by
  induction calls generalizing table with
  | nil => rfl
  | cons text calls ih => simp only [internAll, List.length_cons, ih]

theorem Distinct.internAll {table : Interner} (h : table.Distinct) (calls : List String) :
    (table.internAll calls).2.Distinct := by
  induction calls generalizing table with
  | nil => exact h
  | cons text calls ih => exact ih (h.intern text)

theorem keeps_internAll (table : Interner) (calls : List String) :
    table.Keeps (table.internAll calls).2 := by
  induction calls generalizing table with
  | nil => exact .refl table
  | cons text calls ih => exact (table.keeps_intern text).trans (ih _)

theorem mem_internAll {table : Interner} {calls : List String} {text : String} :
    text ∈ (table.internAll calls).2.texts.toList ↔ text ∈ table.texts.toList ∨ text ∈ calls := by
  induction calls generalizing table with
  | nil => simp [internAll]
  | cons first calls ih =>
    simp only [internAll, ih, mem_intern, List.mem_cons, or_assoc]

/-- The number that a text got stands for it at the end. -/
theorem get?_of_mem_zip {table : Interner} {calls : List String} {text : String} {id : Nat}
    (h : (text, id) ∈ calls.zip (table.internAll calls).1) :
    (table.internAll calls).2.get? id = some text := by
  induction calls generalizing table with
  | nil => cases h
  | cons first calls ih =>
    rcases List.mem_cons.mp h with heq | h
    · obtain ⟨rfl, rfl⟩ := Prod.mk.inj heq
      exact keeps_internAll _ calls _ _ (table.get?_intern _)
    · exact ih h

/-- Every text that was entered got a number. -/
theorem exists_mem_zip (table : Interner) {calls : List String} {text : String} (h : text ∈ calls) :
    ∃ id, (text, id) ∈ calls.zip (table.internAll calls).1 := by
  have hmap : (calls.zip (table.internAll calls).1).map Prod.fst = calls :=
    List.map_fst_zip (Nat.le_of_eq (table.length_internAll calls).symm)
  rw [← hmap] at h
  obtain ⟨⟨_, id⟩, hmem, rfl⟩ := List.mem_map.mp h
  exact ⟨id, hmem⟩

/-- A table that was empty in the beginning is as large as there were different texts. -/
theorem size_internAll (calls : List String) :
    (internAll {} calls).2.size = calls.toFinset.card := by
  have hsame : (internAll {} calls).2.texts.toList.toFinset = calls.toFinset := by
    ext text
    rw [List.mem_toFinset, List.mem_toFinset, mem_internAll]
    exact or_iff_right List.not_mem_nil
  rw [← hsame, List.toFinset_card_of_nodup (Distinct.empty.internAll calls)]
  rfl

/-- A text gets as its number how many different texts came up before it. -/
theorem mem_zip_of_first {pre post : List String} {text : String} (hnew : text ∉ pre) :
    (text, pre.toFinset.card) ∈ (pre ++ text :: post).zip (internAll {} (pre ++ text :: post)).1 := by
  have hfresh : text ∉ (internAll {} pre).2.texts.toList := fun h =>
    hnew ((mem_internAll.mp h).resolve_left List.not_mem_nil)
  rw [internAll_append, List.zip_append (length_internAll {} pre).symm, ← size_internAll,
    ← intern_of_notMem hfresh]
  exact List.mem_append_right _ List.mem_cons_self

/-- Entering texts into an empty table numbers them without gaps: two texts get the same number exactly
when they are equal, the numbers in use are those below the number of different texts, and each text is
numbered by how many others came up before it. The number of a text reads back as the text, at once and after
whatever is entered later. Looking a text up answers its number exactly when the text was entered, and entering
it again changes nothing. -/
theorem numbering_bijective (calls later : List String) :
    (internAll {} calls).1.length = calls.length ∧
      (∀ text id, (text, id) ∈ calls.zip (internAll {} calls).1 →
        (internAll {} (calls ++ later)).2.name id = .ok text ∧
          (internAll {} (calls ++ later)).2.literal id = .ok text) ∧
      (∀ text id other id', (text, id) ∈ calls.zip (internAll {} calls).1 →
        (other, id') ∈ calls.zip (internAll {} calls).1 → (id = id' ↔ text = other)) ∧
      (∀ id, id ∈ (internAll {} calls).1 ↔ id < calls.toFinset.card) ∧
      (internAll {} calls).2.size = calls.toFinset.card ∧
      (∀ pre text post, calls = pre ++ text :: post → text ∉ pre →
        (text, pre.toFinset.card) ∈ calls.zip (internAll {} calls).1) ∧
      (∀ text id, (internAll {} calls).2.lookup text = some id ↔
        text ∈ calls ∧ ((internAll {} calls).2.intern text).1 = id) ∧
      ∀ text ∈ calls, ((internAll {} calls).2.intern text).2 = (internAll {} calls).2 := by
  have hsize : (internAll {} calls).2.size = calls.toFinset.card := size_internAll calls
  have hlength := length_internAll {} calls
  have hdistinct : (internAll {} calls).2.Distinct := Distinct.empty.internAll calls
  have hread : ∀ text id, (text, id) ∈ calls.zip (internAll {} calls).1 →
      (internAll {} calls).2.get? id = some text := fun _ _ => get?_of_mem_zip
  have hknown : ∀ text ∈ calls, ∃ id ∈ (internAll {} calls).1,
      (internAll {} calls).2.get? id = some text := by
    intro text htext
    obtain ⟨id, hid⟩ := exists_mem_zip {} htext
    exact ⟨id, (List.of_mem_zip hid).2, hread text id hid⟩
  have hentered : ∀ text ∈ (internAll {} calls).2.texts.toList, text ∈ calls := fun text h =>
    (mem_internAll.mp h).resolve_left List.not_mem_nil
  have hafter : (internAll {} (calls ++ later)).2 = ((internAll {} calls).2.internAll later).2 := by
    rw [internAll_append]
  have hfirst : ∀ pre text post, calls = pre ++ text :: post → text ∉ pre →
      (text, pre.toFinset.card) ∈ calls.zip (internAll {} calls).1 := by
    rintro pre text post rfl hnew
    exact mem_zip_of_first hnew
  -- What follows depends on the run only through these facts.
  generalize (internAll {} calls).1 = ids at hlength hread hknown hfirst ⊢
  generalize (internAll {} calls).2 = table at hdistinct hsize hread hknown hentered hafter ⊢
  refine ⟨hlength, fun text id h => ?_, fun text id other id' h h' => ?_, fun id => ⟨fun h => ?_, fun h => ?_⟩,
    hsize, hfirst, fun text id => ⟨fun h => ?_, ?_⟩, fun text htext => ?_⟩
  · have hkept := table.keeps_internAll later id text (hread text id h)
    rw [hafter, name, literal, hkept]
    exact ⟨rfl, rfl⟩
  · constructor
    · rintro rfl
      exact Option.some.inj ((hread text id h).symm.trans (hread other id h'))
    · rintro rfl
      exact hdistinct.eq_of_get? (hread text id h) (hread text id' h')
  · obtain ⟨text, htext⟩ : ∃ text, (text, id) ∈ calls.zip ids := by
      have hmap : (calls.zip ids).map Prod.snd = ids := List.map_snd_zip (Nat.le_of_eq hlength)
      rw [← hmap] at h
      obtain ⟨⟨text, _⟩, hmem, rfl⟩ := List.mem_map.mp h
      exact ⟨text, hmem⟩
    exact hsize ▸ lt_of_get? (hread text id htext)
  · rw [← hsize] at h
    have hget : table.get? id = some table.texts[id] := Array.getElem?_eq_getElem h
    obtain ⟨id', hid', hget'⟩ := hknown _ (hentered _ (mem_of_get? hget))
    exact hdistinct.eq_of_get? hget' hget ▸ hid'
  · have hget := get?_of_lookup h
    exact ⟨hentered _ (mem_of_get? hget), congrArg Prod.fst (hdistinct.intern_of_get? hget)⟩
  · rintro ⟨htext, rfl⟩
    obtain ⟨id, _, hget⟩ := hknown text htext
    rw [hdistinct.intern_of_get? hget]
    exact hdistinct.lookup_eq_some_iff.mpr hget
  · obtain ⟨id, _, hget⟩ := hknown text htext
    rw [hdistinct.intern_of_get? hget]

end Interner

end MiddleEnd
