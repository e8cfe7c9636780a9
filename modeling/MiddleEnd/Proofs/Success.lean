import MiddleEnd.Fault
import Mathlib.Tactic.Common

/-!
# Steps that succeed

Facts about computations that may stop with a fault: a sequence of steps succeeds when each step
does, and a success can be taken apart into the successes of its steps. Two sequences agree when their
steps do.
-/

namespace MiddleEnd

variable {ε α β σ : Type}

/-- A sequence of two steps succeeds exactly when both do. -/
theorem bind_eq_ok {x : Except ε α} {f : α → Except ε β} {b : β} :
    (x >>= f) = .ok b ↔ ∃ a, x = .ok a ∧ f a = .ok b := by
  cases x with
  | error e => simp [bind, Except.bind]
  | ok a => simp [bind, Except.bind]

theorem exists_of_toOption_map {x : Except ε α} {f : α → β} {b : β}
    (h : x.toOption.map f = some b) : ∃ a, x = .ok a ∧ f a = b := by
  cases x with
  | error e => cases h
  | ok a => exact ⟨a, rfl, Option.some.inj h⟩

/-- A computation that may answer nothing has answered something if its answer can be looked up. -/
theorem exists_of_toOption_bind {x : Except ε (Option α × β)} {a : α}
    (h : x.toOption.bind (·.1) = some a) : ∃ b, x = .ok (some a, b) := by
  cases x with
  | error e => cases h
  | ok answer => exact ⟨answer.2, congrArg Except.ok (Prod.ext h rfl)⟩

/-- A step that follows a success. -/
theorem ok_bind (a : α) (f : α → Except ε β) : (Except.ok a >>= f) = f a := rfl

/-- A map over a list whose steps only answer something. -/
theorem mapM_eq_pure {m : Type → Type} [Monad m] [LawfulMonad m] {f : α → m β} {g : α → β}
    {xs : List α} (h : ∀ a ∈ xs, f a = pure (g a)) : xs.mapM f = pure (xs.map g) := by
  induction xs with
  | nil => rfl
  | cons a xs ih =>
    rw [List.mapM_cons, h a List.mem_cons_self, pure_bind,
      ih fun b hb => h b (List.mem_cons_of_mem _ hb), pure_bind]
    rfl

/-- A map over a list succeeds when each of its steps does. -/
theorem mapM_eq_ok {f : α → Except ε β} {g : α → β} {xs : List α}
    (h : ∀ a ∈ xs, f a = .ok (g a)) : xs.mapM f = .ok (xs.map g) :=
  mapM_eq_pure h

/-- A map over a list succeeds when each of its steps does with what belongs to the element. -/
theorem mapM_eq_ok_of_forall₂ {γ : Type} {f : α → Except ε β} {g : γ → β} {cs : List γ} {xs : List α}
    (h : List.Forall₂ (fun c a => f a = .ok (g c)) cs xs) : xs.mapM f = .ok (cs.map g) := by
  induction h with
  | nil => rfl
  | cons ha _ ih =>
    rw [List.mapM_cons, ha, ih]
    rfl

/-- The computation answers something. -/
def Succeeds (x : Except ε α) : Prop := ∃ a, x = .ok a

theorem succeeds_ok (a : α) : Succeeds (.ok a : Except ε α) := ⟨a, rfl⟩

theorem Succeeds.bind {x : Except ε α} {f : α → Except ε β} (h : Succeeds x)
    (hnext : ∀ a, x = .ok a → Succeeds (f a)) : Succeeds (x >>= f) := by
  obtain ⟨a, ha⟩ := h
  obtain ⟨b, hb⟩ := hnext a ha
  exact ⟨b, bind_eq_ok.mpr ⟨a, ha, hb⟩⟩

theorem succeeds_mapM {f : α → Except ε β} {xs : List α} (h : ∀ a ∈ xs, Succeeds (f a)) :
    Succeeds (xs.mapM f) := by
  induction xs with
  | nil => exact ⟨[], rfl⟩
  | cons a xs ih =>
    rw [List.mapM_cons]
    apply (h a List.mem_cons_self).bind
    intro b _
    apply (ih fun c hc => h c (List.mem_cons_of_mem _ hc)).bind
    intro bs _
    exact succeeds_ok (b :: bs)

/-- A fold over a list succeeds when its steps keep an invariant and succeed as long as it holds. -/
theorem foldlM_induction (f : σ → α → Except ε σ) (P : List α → σ → Prop) (xs : List α) (s : σ)
    (hs : P [] s)
    (hstep : ∀ pre a post t, xs = pre ++ a :: post → P pre t →
      ∃ t', f t a = .ok t' ∧ P (pre ++ [a]) t') :
    ∃ t, xs.foldlM f s = .ok t ∧ P xs t := by
  have hgen : ∀ post pre s, xs = pre ++ post → P pre s →
      ∃ t, post.foldlM f s = .ok t ∧ P xs t := by
    intro post
    induction post with
    | nil =>
      intro pre s hsplit hpre
      rw [List.append_nil] at hsplit
      exact ⟨s, rfl, hsplit ▸ hpre⟩
    | cons a post ih =>
      intro pre s hsplit hpre
      obtain ⟨t, ht, hpost⟩ := hstep pre a post s hsplit hpre
      obtain ⟨t', ht', hall⟩ := ih (pre ++ [a]) t (by simp [hsplit]) hpost
      exact ⟨t', by rw [List.foldlM_cons, ht, ok_bind, ht'], hall⟩
  exact hgen xs [] s rfl hs

/-- A fold whose steps succeed, as long as they find what they leave, is a plain fold. -/
theorem foldlM_eq_ok {f : σ → α → Except ε σ} {g : σ → α → σ} {P : σ → Prop} {xs : List α}
    (hstep : ∀ a ∈ xs, ∀ s, P s → f s a = .ok (g s a) ∧ P (g s a)) {s : σ} (hs : P s) :
    xs.foldlM f s = .ok (xs.foldl g s) := by
  induction xs generalizing s with
  | nil => rfl
  | cons a xs ih =>
    obtain ⟨ha, hs'⟩ := hstep a List.mem_cons_self s hs
    rw [List.foldlM_cons, ha, ok_bind, List.foldl_cons]
    exact ih (fun b hb => hstep b (List.mem_cons_of_mem _ hb)) hs'

/-- What the steps of a fold keep, a fold that succeeds keeps. -/
theorem foldlM_keeps {f : σ → α → Except ε σ} {P : σ → Prop} {xs : List α}
    (hstep : ∀ a ∈ xs, ∀ s t, P s → f s a = .ok t → P t) {s t : σ} (hs : P s)
    (h : xs.foldlM f s = .ok t) : P t := by
  induction xs generalizing s with
  | nil =>
    obtain rfl := Except.ok.inj h
    exact hs
  | cons a xs ih =>
    rw [List.foldlM_cons] at h
    obtain ⟨u, hu, hrest⟩ := bind_eq_ok.mp h
    exact ih (fun b hb => hstep b (List.mem_cons_of_mem _ hb)) (hstep a List.mem_cons_self s u hs hu) hrest

-- ════════════════════════════════════════════════════════════════════════
-- Side by side
-- ════════════════════════════════════════════════════════════════════════

/-- Two computations agree if both answer, and their answers are related, or both stop with the same
fault. -/
def Agree {α' : Type} (R : α → α' → Prop) : Except ε α → Except ε α' → Prop
  | .ok a, .ok a' => R a a'
  | .error e, .error e' => e = e'
  | _, _ => False

section Agree

variable {α' β' σ' : Type} {R : α → α' → Prop} {S : β → β' → Prop} {x : Except ε α} {x' : Except ε α'}

theorem agree_eq_iff {x y : Except ε α} : Agree Eq x y ↔ x = y := by
  cases x <;> cases y <;> simp [Agree]

theorem Agree.mono {T : α → α' → Prop} (h : Agree R x x') (himp : ∀ a a', R a a' → T a a') :
    Agree T x x' := by
  match x, x', h with
  | .ok a, .ok a', h => exact himp a a' h
  | .error _, .error _, h => exact h

theorem Agree.exists_of_ok {a : α} (h : Agree R x x') (hx : x = .ok a) : ∃ a', x' = .ok a' ∧ R a a' := by
  subst hx
  match x', h with
  | .ok a', h => exact ⟨a', rfl, h⟩

theorem Agree.eq_error {e : ε} (h : Agree R (.error e) x') : x' = .error e := by
  match x', h with
  | .error _, h => exact congrArg Except.error h.symm

theorem Agree.bind {f : α → Except ε β} {f' : α' → Except ε β'} (h : Agree R x x')
    (hnext : ∀ a a', R a a' → Agree S (f a) (f' a')) : Agree S (x >>= f) (x' >>= f') := by
  match x, x', h with
  | .ok a, .ok a', h => exact hnext a a' h
  | .error _, .error _, h => exact h

/-- Two maps agree over lists that are related element by element. -/
theorem agree_mapM {f : α → Except ε β} {f' : α' → Except ε β'} {as : List α} {as' : List α'}
    (has : List.Forall₂ R as as') (h : ∀ a a', R a a' → Agree S (f a) (f' a')) :
    Agree (List.Forall₂ S) (as.mapM f) (as'.mapM f') := by
  induction has with
  | nil => exact List.Forall₂.nil
  | cons ha _ ih =>
    rw [List.mapM_cons, List.mapM_cons]
    exact (h _ _ ha).bind fun b b' hb => ih.bind fun bs bs' hbs => List.Forall₂.cons hb hbs

/-- Two folds over the same list agree when their steps do. -/
theorem agree_foldlM {P : σ → σ' → Prop} {f : σ → α → Except ε σ} {f' : σ' → α → Except ε σ'}
    {as : List α} (h : ∀ a ∈ as, ∀ s s', P s s' → Agree P (f s a) (f' s' a)) {s : σ} {s' : σ'}
    (hs : P s s') : Agree P (as.foldlM f s) (as.foldlM f' s') := by
  induction as generalizing s s' with
  | nil => exact hs
  | cons a as ih =>
    rw [List.foldlM_cons, List.foldlM_cons]
    exact (h a List.mem_cons_self s s' hs).bind fun t t' ht =>
      ih (fun b hb => h b (List.mem_cons_of_mem _ hb)) ht

end Agree

end MiddleEnd
