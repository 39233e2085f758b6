import Mathlib

/-!
# Runs of a step function

Invariant rules for `List.foldlM` in `Except`, used both for sequences of
operations and for the `for` loops of the models: what one step keeps, a whole
run keeps. The rules are about total correctness: a step from a good state has
to come back, so a run from a good state comes back.

`Follows R x x'` compares two computations: what `x'` returns, `x` returns up to
`R`. Its rules follow the structure of a `do` block. The results of a run over a list
are a list that is related to it, element by element.
-/

namespace RaspiKernel.Lib

/-- A sequence of two calls comes back exactly if both do. -/
theorem bind_eq_ok {ε α β : Type} {x : Except ε α} {f : α → Except ε β} {b : β} :
    (x >>= f) = .ok b ↔ ∃ a, x = .ok a ∧ f a = .ok b := by
  cases x with
  | error e => simp [bind, Except.bind]
  | ok a => simp [bind, Except.bind]

theorem map_eq_ok {ε α β : Type} {x : Except ε α} {f : α → β} {b : β} :
    x.map f = .ok b ↔ ∃ a, x = .ok a ∧ f a = b := by
  cases x <;> simp [Except.map]

theorem mapError_eq_ok {ε ε' α : Type} {f : ε → ε'} {x : Except ε α} {a : α} :
    x.mapError f = .ok a ↔ x = .ok a := by
  cases x <;> simp [Except.mapError]

variable {σ ε α : Type*}

/-- Steps that succeed on good states and keep them good make the run succeed. -/
theorem foldlM_ok {f : σ → α → Except ε σ} {P : σ → Prop} {l : List α}
    (hstep : ∀ a ∈ l, ∀ s, P s → ∃ s', f s a = .ok s' ∧ P s') (s : σ) (hs : P s) :
    ∃ s', l.foldlM f s = .ok s' ∧ P s' := by
  induction l generalizing s with
  | nil => exact ⟨s, rfl, hs⟩
  | cons a l ih =>
    obtain ⟨s₁, h₁, hs₁⟩ := hstep a List.mem_cons_self s hs
    obtain ⟨s', h', hs'⟩ := ih (fun b hb => hstep b (List.mem_cons_of_mem _ hb)) s₁ hs₁
    exact ⟨s', by rw [List.foldlM_cons, h₁]; exact h', hs'⟩

/-- What every step that comes back keeps, a run that comes back keeps. -/
theorem foldlM_keep {f : σ → α → Except ε σ} {P : σ → Prop} {l : List α} {s s' : σ}
    (hstep : ∀ a ∈ l, ∀ s s', P s → f s a = .ok s' → P s') (hrun : l.foldlM f s = .ok s')
    (hs : P s) : P s' := by
  induction l generalizing s with
  | nil =>
    cases hrun
    exact hs
  | cons a l ih =>
    rw [List.foldlM_cons] at hrun
    cases ha : f s a with
    | error e => simp [ha, bind, Except.bind] at hrun
    | ok s₁ =>
      rw [ha] at hrun
      exact ih (fun b hb => hstep b (List.mem_cons_of_mem _ hb)) hrun
        (hstep a List.mem_cons_self s s₁ hs ha)

/-- The rule for `for (i = 0; i < n; i++)`: `P i` holds before round `i`. -/
theorem foldlM_range_ok {f : σ → ℕ → Except ε σ} {P : ℕ → σ → Prop} {n : ℕ}
    (hstep : ∀ i < n, ∀ s, P i s → ∃ s', f s i = .ok s' ∧ P (i + 1) s') (s : σ) (hs : P 0 s) :
    ∃ s', (List.range n).foldlM f s = .ok s' ∧ P n s' := by
  induction n with
  | zero => exact ⟨s, rfl, hs⟩
  | succ n ih =>
    obtain ⟨s₁, h₁, hs₁⟩ := ih fun i hi => hstep i (by omega)
    obtain ⟨s', h', hs'⟩ := hstep n (by omega) s₁ hs₁
    refine ⟨s', ?_, hs'⟩
    rw [List.range_succ, List.foldlM_append, h₁]
    simp only [List.foldlM_cons, List.foldlM_nil]
    change (f s₁ n >>= fun s => pure s) = _
    rw [h']
    rfl

/-! ## Two runs -/

section Follows

variable {ε ε' α α' β β' : Type} {R : α → α' → Prop} {Q : β → β' → Prop}

/-- Whenever `x'` comes back, `x` comes back with a related result. -/
def Follows (R : α → α' → Prop) (x : Except ε α) (x' : Except ε' α') : Prop :=
  ∀ b, x' = .ok b → ∃ a, x = .ok a ∧ R a b

theorem Follows.ok {a : α} {b : α'} (h : R a b) :
    Follows R (.ok a : Except ε α) (.ok b : Except ε' α') := by
  intro c hc
  obtain rfl := Except.ok.inj hc
  exact ⟨a, rfl, h⟩

theorem Follows.error {x : Except ε α} {e : ε'} : Follows R x (.error e) := by
  intro b hb
  cases hb

theorem Follows.bind {x : Except ε α} {x' : Except ε' α'} {f : α → Except ε β}
    {f' : α' → Except ε' β'} (hx : Follows R x x') (hf : ∀ a b, R a b → Follows Q (f a) (f' b)) :
    Follows Q (x >>= f) (x' >>= f') := by
  intro c hc
  obtain ⟨b, hb, hc⟩ := bind_eq_ok.mp hc
  obtain ⟨a, ha, hab⟩ := hx b hb
  obtain ⟨d, hd, hdc⟩ := hf a b hab c hc
  exact ⟨d, bind_eq_ok.mpr ⟨a, ha, hd⟩, hdc⟩

end Follows

/-! ## Related lists -/

theorem forall₂_mem_right {α β : Type} {R : α → β → Prop} {l : List α} {l' : List β}
    (h : List.Forall₂ R l l') {b : β} (hb : b ∈ l') : ∃ a ∈ l, R a b := by
  induction h with
  | nil => cases hb
  | cons hab _ ih =>
    rcases List.mem_cons.mp hb with rfl | hb
    · exact ⟨_, List.mem_cons_self, hab⟩
    · obtain ⟨a, ha, hr⟩ := ih hb
      exact ⟨a, List.mem_cons_of_mem _ ha, hr⟩

theorem exists_forall₂ {α β : Type} {R : α → β → Prop} {l : List α} (h : ∀ a ∈ l, ∃ b, R a b) :
    ∃ l', List.Forall₂ R l l' := by
  induction l with
  | nil => exact ⟨[], .nil⟩
  | cons a l ih =>
    obtain ⟨b, hb⟩ := h a List.mem_cons_self
    obtain ⟨l', hl'⟩ := ih fun a ha => h a (List.mem_cons_of_mem _ ha)
    exact ⟨b :: l', .cons hb hl'⟩

theorem forall₂_mem_left {α β : Type} {R : α → β → Prop} {l : List α} {l' : List β}
    (h : List.Forall₂ R l l') {a : α} (ha : a ∈ l) : ∃ b ∈ l', R a b :=
  forall₂_mem_right h.flip ha

theorem forall₂_and_iff {α β : Type} {R S : α → β → Prop} {l : List α} {u : List β} :
    List.Forall₂ R l u ∧ List.Forall₂ S l u ↔ List.Forall₂ (fun a b => R a b ∧ S a b) l u := by
  constructor
  · rintro ⟨hR, hS⟩
    induction hR with
    | nil => exact .nil
    | cons hab _ ih =>
      cases hS with
      | cons hab' hS => exact .cons ⟨hab, hab'⟩ (ih hS)
  · exact fun h => ⟨h.imp fun _ _ h => h.1, h.imp fun _ _ h => h.2⟩

end RaspiKernel.Lib
