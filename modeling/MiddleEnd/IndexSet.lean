/-!
# Sets of small numbers

Registers, blocks and definition points are numbered from zero, and the analyses keep sets of them.
A set is one natural number whose bit `i` says whether `i` is a member.

## Main definitions

* `IndexSet`: the sets, with `∅`, `∪`, `\`, `insert` and a decidable `∈`.
* `IndexSet.toList`: the members in ascending order.
* `IndexSet.card`: how many members there are.
* `IndexSet.absent`: the numbers below a bound that are missing.
* `IndexSet.room`: how far a set is from the bound, as one number.

## Main statements

* `IndexSet.ext`: a set is determined by its members.
* `IndexSet.mem_insert`, `IndexSet.mem_union`, `IndexSet.mem_diff`, `IndexSet.mem_ofList`,
  `IndexSet.mem_unions`: membership after each operation.
* `IndexSet.mem_toList`: the list holds exactly the members.
* `IndexSet.length_absent_insert_lt`, `IndexSet.room_lt_of_ssubset`: a set below a bound cannot grow
  forever.
-/

namespace MiddleEnd

/-- A finite set of natural numbers. -/
structure IndexSet where
  /-- Bit `i` is set exactly when `i` is a member. -/
  bits : Nat
  deriving DecidableEq, Repr

namespace IndexSet

-- ════════════════════════════════════════════════════════════════════════
-- Operations
-- ════════════════════════════════════════════════════════════════════════

instance : EmptyCollection IndexSet := ⟨⟨0⟩⟩

instance : Inhabited IndexSet := ⟨∅⟩

/-- Whether `i` is a member. -/
def contains (s : IndexSet) (i : Nat) : Bool := s.bits.testBit i

instance : Membership Nat IndexSet where
  mem s i := s.contains i = true

instance (i : Nat) (s : IndexSet) : Decidable (i ∈ s) :=
  inferInstanceAs (Decidable (s.contains i = true))

/-- The set with `i` added. -/
def insert (s : IndexSet) (i : Nat) : IndexSet := ⟨s.bits ||| (1 <<< i)⟩

/-- The members of either set. -/
def union (s t : IndexSet) : IndexSet := ⟨s.bits ||| t.bits⟩

instance : Union IndexSet := ⟨union⟩

/-- The members of `s` that are not in `t`. -/
def diff (s t : IndexSet) : IndexSet := ⟨s.bits ^^^ (s.bits &&& t.bits)⟩

instance : SDiff IndexSet := ⟨diff⟩

/-- The members in ascending order. -/
def toList (s : IndexSet) : List Nat :=
  (List.range (s.bits.log2 + 1)).filter s.contains

/-- The set of the numbers in a list. -/
def ofList (xs : List Nat) : IndexSet := xs.foldl insert ∅

/-- The numbers below `bound` that satisfy `p`. -/
def below (bound : Nat) (p : Nat → Bool) : IndexSet := ofList ((List.range bound).filter p)

/-- How many members there are. -/
def card (s : IndexSet) : Nat := s.toList.length

/-- The numbers below `bound` that are not members. -/
def absent (bound : Nat) (s : IndexSet) : List Nat :=
  (List.range bound).filter fun i => !s.contains i

/-- What is left between the set, read as a number, and the first set that is too large for
`bound`. A set that grows is a greater number, so this falls. -/
def room (bound : Nat) (s : IndexSet) : Nat := (1 <<< bound) - s.bits

/-- The union of the sets in a list. -/
def unions (sets : List IndexSet) : IndexSet := sets.foldl union ∅

-- ════════════════════════════════════════════════════════════════════════
-- Membership
-- ════════════════════════════════════════════════════════════════════════

theorem mem_iff {s : IndexSet} {i : Nat} : i ∈ s ↔ s.bits.testBit i = true :=
  Iff.rfl

theorem contains_iff {s : IndexSet} {i : Nat} : s.contains i = true ↔ i ∈ s :=
  Iff.rfl

/-- A set is determined by its members. -/
theorem ext {s t : IndexSet} (h : ∀ i, i ∈ s ↔ i ∈ t) : s = t := by
  obtain ⟨a⟩ := s
  obtain ⟨b⟩ := t
  congr
  refine Nat.eq_of_testBit_eq fun i => ?_
  exact Bool.eq_iff_iff.mpr (h i)

@[simp]
theorem not_mem_empty (i : Nat) : i ∉ (∅ : IndexSet) := by
  rw [mem_iff]
  show ¬ (0 : Nat).testBit i = true
  simp

@[simp]
theorem mem_insert {s : IndexSet} {i j : Nat} : j ∈ s.insert i ↔ j = i ∨ j ∈ s := by
  simp only [mem_iff, insert, Nat.one_shiftLeft, Nat.testBit_or, Bool.or_eq_true, Nat.testBit_two_pow,
    decide_eq_true_eq]
  rw [or_comm, eq_comm]

@[simp]
theorem mem_union {s t : IndexSet} {i : Nat} : i ∈ s ∪ t ↔ i ∈ s ∨ i ∈ t := by
  show (s.bits ||| t.bits).testBit i = true ↔ _
  simp [mem_iff, Nat.testBit_or]

@[simp]
theorem mem_diff {s t : IndexSet} {i : Nat} : i ∈ s \ t ↔ i ∈ s ∧ i ∉ t := by
  show (s.bits ^^^ (s.bits &&& t.bits)).testBit i = true ↔ _
  simp only [mem_iff, Nat.testBit_xor, Nat.testBit_and]
  cases s.bits.testBit i <;> cases t.bits.testBit i <;> simp

/-- Insertions one after the other. -/
theorem mem_foldl_insert {xs : List Nat} {s : IndexSet} {i : Nat} :
    i ∈ xs.foldl insert s ↔ i ∈ s ∨ i ∈ xs := by
  induction xs generalizing s with
  | nil => simp
  | cons x xs ih =>
    rw [List.foldl_cons, ih, mem_insert, List.mem_cons, or_assoc, or_left_comm]

/-- The set of a list holds exactly its elements. -/
@[simp]
theorem mem_ofList {xs : List Nat} {i : Nat} : i ∈ ofList xs ↔ i ∈ xs := by
  rw [ofList, mem_foldl_insert]
  simp

/-- Unions one after the other. -/
theorem mem_foldl_union {sets : List IndexSet} {s : IndexSet} {i : Nat} :
    i ∈ sets.foldl union s ↔ i ∈ s ∨ ∃ t ∈ sets, i ∈ t := by
  induction sets generalizing s with
  | nil => simp
  | cons t sets ih =>
    rw [List.foldl_cons, ih, show s.union t = s ∪ t from rfl, mem_union, or_assoc]
    simp

@[simp]
theorem mem_unions {sets : List IndexSet} {i : Nat} : i ∈ unions sets ↔ ∃ s ∈ sets, i ∈ s := by
  rw [unions, mem_foldl_union]
  simp

/-- The list holds exactly the members. -/
@[simp]
theorem mem_toList {s : IndexSet} {i : Nat} : i ∈ s.toList ↔ i ∈ s := by
  simp only [toList, List.mem_filter, List.mem_range, contains_iff, and_iff_right_iff_imp]
  intro h
  have hle := Nat.ge_two_pow_of_testBit h
  have hne : s.bits ≠ 0 := by
    have := Nat.two_pow_pos i
    omega
  exact Nat.lt_succ_of_le ((Nat.le_log2 hne).mpr hle)

/-- A larger set misses no more of the numbers in a list. -/
theorem length_missing_le {s t : IndexSet} (h : ∀ i, i ∈ s → i ∈ t) (xs : List Nat) :
    (xs.filter fun i => !t.contains i).length ≤ (xs.filter fun i => !s.contains i).length := by
  rw [← List.countP_eq_length_filter, ← List.countP_eq_length_filter]
  refine List.countP_mono_left fun i _ hi => ?_
  simp only [Bool.not_eq_true', ← Bool.not_eq_true, contains_iff] at hi ⊢
  exact fun hs => hi (h i hs)

/-- A larger set leaves no more numbers below the bound to add. -/
theorem length_absent_le {bound : Nat} {s t : IndexSet} (h : ∀ i, i ∈ s → i ∈ t) :
    (t.absent bound).length ≤ (s.absent bound).length :=
  length_missing_le h (List.range bound)

/-- Adding a number below the bound leaves fewer numbers below the bound to add. -/
theorem length_absent_insert_lt {bound : Nat} {s : IndexSet} {i : Nat} (hi : i < bound)
    (hs : i ∉ s) : ((s.insert i).absent bound).length < (s.absent bound).length := by
  have hsub : ∀ xs : List Nat, i ∈ xs →
      (xs.filter fun j => !(s.insert i).contains j).length <
        (xs.filter fun j => !s.contains j).length := by
    have hgrow : ∀ j, j ∈ s → j ∈ s.insert i := fun j hj => mem_insert.mpr (.inr hj)
    intro xs
    induction xs with
    | nil => simp
    | cons x xs ih =>
      intro hmem
      have hrest := length_missing_le hgrow xs
      by_cases hx : x = i
      · subst hx
        have hin : (s.insert x).contains x = true := contains_iff.mpr (mem_insert.mpr (.inl rfl))
        have hout : s.contains x = false := by
          simpa only [← Bool.not_eq_true, contains_iff] using hs
        simp [hin, hout]
        omega
      · have htail := ih ((List.mem_cons.mp hmem).resolve_left (Ne.symm hx))
        have hsame : (s.insert i).contains x = s.contains x := by
          rw [Bool.eq_iff_iff, contains_iff, contains_iff, mem_insert]
          simp [hx]
        cases hc : s.contains x <;> simp [hsame, hc] <;> omega
  exact hsub _ (List.mem_range.mpr hi)

-- ════════════════════════════════════════════════════════════════════════
-- Growth
-- ════════════════════════════════════════════════════════════════════════

/-- A set with more members is a greater number. -/
theorem bits_le_of_subset {s t : IndexSet} (h : ∀ i, i ∈ s → i ∈ t) : s.bits ≤ t.bits := by
  have heq : s ∪ t = t := ext fun i => by
    rw [mem_union]
    exact ⟨fun hi => hi.elim (h i) id, .inr⟩
  have hbits : s.bits ||| t.bits = t.bits := congrArg bits heq
  exact hbits ▸ Nat.left_le_or

/-- A set below a bound is a number below the power of two. -/
theorem bits_lt_of_bounded {bound : Nat} {s : IndexSet} (h : ∀ i, i ∈ s → i < bound) :
    s.bits < 1 <<< bound := by
  rw [Nat.one_shiftLeft]
  refine Nat.lt_pow_two_of_testBit _ fun i hi => ?_
  rw [← Bool.not_eq_true]
  exact fun hmem => absurd (h i hmem) (Nat.not_lt.mpr hi)

/-- A set that gains a member and stays below the bound has less room. -/
theorem room_lt_of_ssubset {bound : Nat} {s t : IndexSet} (hsub : ∀ i, i ∈ s → i ∈ t)
    (hne : s ≠ t) (hbound : ∀ i, i ∈ t → i < bound) : t.room bound < s.room bound := by
  have hle : s.bits ≤ t.bits := bits_le_of_subset hsub
  have hne' : s.bits ≠ t.bits := fun h => hne (by cases s; cases t; simp_all)
  have hlt : t.bits < 1 <<< bound := bits_lt_of_bounded hbound
  simp only [room]
  omega

end IndexSet

end MiddleEnd
