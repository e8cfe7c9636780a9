import MiddleEnd.Fault

/-!
# Interned texts

A table of distinct texts in which each text is known by its position. The names of a program and
its string literals are both kept this way, so that later stages compare numbers and not texts.

## Main definitions

* `Interner`: the table.
* `Interner.enter`: the table with one more text.
* `Interner.intern`: the number of a text, which is entered at the end when it is new.
* `Interner.lookup`: the number of a text, if it has one.
* `Interner.get?`: the text of a number.

## Design notes

The table keeps its numbering twice: the texts in the order of their numbers, which is what reading
goes by, and a map from texts to numbers, which is what looking up goes by. The map is the list of its
entries. A table comes with the proof that the two agree, so `Interner.enter` has to change both alike.
-/

namespace MiddleEnd

/-- The number of an interned name. -/
abbrev Name := Nat

/-- The number of an interned string literal. -/
abbrev TextId := Nat

/-- Numbering texts by their places and looking one up finds its first place. -/
theorem lookup_zipIdx (texts : List String) (text : String) :
    texts.zipIdx.lookup text = texts.idxOf? text := by
  have hfrom : ∀ n, (texts.zipIdx n).lookup text = (texts.idxOf? text).map (· + n) := by
    induction texts with
    | nil => intro n; rfl
    | cons other texts ih =>
      intro n
      rw [List.zipIdx_cons, List.lookup_cons, List.idxOf?_cons, BEq.comm]
      cases other == text with
      | true => simp
      | false => simp [ih, Function.comp_def, Nat.add_right_comm, Nat.add_assoc]
  simpa using hfrom 0

/-- Where no text has a place, no text has a number. -/
theorem lookup_zipIdx_empty (text : String) :
    (#[] : Array String).toList.zipIdx.lookup text = (#[] : Array String).toList.idxOf? text := rfl

/-- A map with one entry knows one text. -/
theorem lookup_entry (other text : String) (id : Nat) :
    [(other, id)].lookup text = if other = text then some id else none := by
  rw [List.lookup_cons, BEq.comm]
  by_cases heq : other = text
  · rw [if_pos heq, beq_iff_eq.mpr heq]
  · rw [if_neg heq, beq_false_of_ne heq]
    rfl

/-- A table of texts, numbered from zero in the order in which they were entered. -/
structure Interner where
  /-- The texts in the order of their numbers. -/
  texts : Array String := #[]
  /-- The numbers of the texts: the entries of a map that is kept beside the texts. -/
  numbers : List (String × Nat) := texts.toList.zipIdx
  /-- The number of a text is the first place at which it stands. -/
  coherent : ∀ text, numbers.lookup text = texts.toList.idxOf? text := by
    first | exact lookup_zipIdx_empty | exact lookup_zipIdx _
  deriving DecidableEq, Repr

namespace Interner

instance : Inhabited Interner := ⟨{}⟩

/-- How many texts the table holds. -/
def size (table : Interner) : Nat := table.texts.size

/-- Whether no text was entered yet. -/
def isEmpty (table : Interner) : Bool := table.texts.isEmpty

/-- The number of `text`, if it was entered. -/
def lookup (table : Interner) (text : String) : Option Nat := table.numbers.lookup text

/-- The text with the number `id`. -/
def get? (table : Interner) (id : Nat) : Option String := table.texts[id]?

/-- The table with `text` at its end. -/
def enter (table : Interner) (text : String) : Interner where
  texts := table.texts.push text
  numbers := table.numbers ++ [(text, table.size)]
  coherent other := by
    rw [List.lookup_append, table.coherent other, lookup_entry, Array.toList_push, List.idxOf?,
      List.findIdx?_append]
    simp [size]

@[simp]
theorem texts_enter (table : Interner) (text : String) :
    (table.enter text).texts = table.texts.push text := rfl

/-- The number of `text` and the table that holds it: a known text keeps its number, a new one
takes the next. -/
def intern (table : Interner) (text : String) : Nat × Interner :=
  match table.lookup text with
  | some id => (id, table)
  | none => (table.size, table.enter text)

/-- The text of a name. -/
def name (table : Interner) (id : Name) : Except Fault String :=
  require (.missingName id) (table.get? id)

/-- The text of a string literal. -/
def literal (table : Interner) (id : TextId) : Except Fault String :=
  require (.missingText id) (table.get? id)

end Interner

end MiddleEnd
