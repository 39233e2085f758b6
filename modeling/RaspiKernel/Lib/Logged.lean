import RaspiKernel.Lib.Run

/-!
# Computations with a log

A `Logged ι ε α` is a computation in `Except ε` together with what it has logged
until it came back or stopped. Forgetting the log (`val`) turns a sequence of
logged computations into the sequence of plain ones, so a program with a log
computes what the program without it does.

Results:
* `val_bind`, `val_foldlM`: the value of a sequence and of a run.
* `mem_log_bind`, `mem_log_foldlM`: what is in the log of a sequence and of a run.
* `all_bind`: when everything that a sequence logs has a property.
-/

namespace RaspiKernel.Lib

/-- A result, and the log of the computation in order. -/
@[ext] structure Logged (ι ε α : Type) where
  log : List ι
  val : Except ε α

namespace Logged

variable {ι ε α β σ : Type}

/-- Log `i` and come back with `a`. -/
def emit (i : ι) (a : α) : Logged ι ε α := ⟨[i], .ok a⟩

/-- Stop with an error. -/
def stop (e : ε) : Logged ι ε α := ⟨[], .error e⟩

/-- Behind a computation that stopped nothing is run. -/
instance : Monad (Logged ι ε) where
  pure a := ⟨[], .ok a⟩
  bind m f := match m.val with
    | .error e => ⟨m.log, .error e⟩
    | .ok a => ⟨m.log ++ (f a).log, (f a).val⟩

@[simp] theorem log_emit (i : ι) (a : α) : (emit i a : Logged ι ε α).log = [i] := rfl

@[simp] theorem val_emit (i : ι) (a : α) : (emit i a : Logged ι ε α).val = .ok a := rfl

@[simp] theorem log_stop (e : ε) : (stop e : Logged ι ε α).log = [] := rfl

@[simp] theorem val_stop (e : ε) : (stop e : Logged ι ε α).val = .error e := rfl

@[simp] theorem log_pure (a : α) : (pure a : Logged ι ε α).log = [] := rfl

@[simp] theorem val_pure (a : α) : (pure a : Logged ι ε α).val = .ok a := rfl

@[simp] theorem log_emit_bind (i : ι) (a : α) (f : α → Logged ι ε β) :
    (emit i a >>= f).log = i :: (f a).log := rfl

@[simp] theorem val_emit_bind (i : ι) (a : α) (f : α → Logged ι ε β) :
    (emit i a >>= f).val = (f a).val := rfl

theorem bind_of_ok {m : Logged ι ε α} {a : α} (h : m.val = .ok a) (f : α → Logged ι ε β) :
    m >>= f = ⟨m.log ++ (f a).log, (f a).val⟩ := by
  obtain ⟨log, val⟩ := m
  cases h
  rfl

theorem bind_of_error {m : Logged ι ε α} {e : ε} (h : m.val = .error e) (f : α → Logged ι ε β) :
    m >>= f = ⟨m.log, .error e⟩ := by
  obtain ⟨log, val⟩ := m
  cases h
  rfl

/-- The value of a sequence is the sequence of the values. -/
theorem val_bind (m : Logged ι ε α) (f : α → Logged ι ε β) :
    (m >>= f).val = m.val >>= fun a => (f a).val := by
  cases h : m.val with
  | error e => rw [bind_of_error h]; rfl
  | ok a => rw [bind_of_ok h]; rfl

theorem mem_log_bind {m : Logged ι ε α} {f : α → Logged ι ε β} {i : ι} :
    i ∈ (m >>= f).log ↔ i ∈ m.log ∨ ∃ a, m.val = .ok a ∧ i ∈ (f a).log := by
  cases h : m.val with
  | error e => simp [bind_of_error h]
  | ok a => simp [bind_of_ok h]

instance : LawfulMonad (Logged ι ε) := LawfulMonad.mk' (Logged ι ε)
  (by
    intro α m
    cases h : m.val with
    | error e => exact (bind_of_error h _).trans (Logged.ext rfl h.symm)
    | ok a => exact (bind_of_ok h _).trans (Logged.ext (List.append_nil _) h.symm))
  (fun a f => rfl)
  (by
    intro α β γ m f g
    cases h : m.val with
    | error e => rw [bind_of_error h, bind_of_error h, bind_of_error rfl]
    | ok a =>
      rw [bind_of_ok h, bind_of_ok h]
      cases hf : (f a).val with
      | error e => rw [bind_of_error hf, bind_of_error rfl]
      | ok b => rw [bind_of_ok hf, bind_of_ok rfl, List.append_assoc])

/-! ## Everything in the log -/

/-- Everything that is logged has a property. -/
def All (p : ι → Prop) (m : Logged ι ε α) : Prop := ∀ i ∈ m.log, p i

variable {p : ι → Prop}

@[simp] theorem all_pure (a : α) : (pure a : Logged ι ε α).All p := nofun

@[simp] theorem all_stop (e : ε) : (stop e : Logged ι ε α).All p := nofun

@[simp] theorem all_emit (i : ι) (a : α) : (emit i a : Logged ι ε α).All p ↔ p i :=
  List.forall_mem_singleton

theorem all_bind {m : Logged ι ε α} {f : α → Logged ι ε β} :
    (m >>= f).All p ↔ m.All p ∧ ∀ a, m.val = .ok a → (f a).All p := by
  constructor
  · intro h
    exact ⟨fun i hi => h i (mem_log_bind.mpr (Or.inl hi)),
      fun a ha i hi => h i (mem_log_bind.mpr (Or.inr ⟨a, ha, hi⟩))⟩
  · rintro ⟨hm, hf⟩ i hi
    rcases mem_log_bind.mp hi with hi | ⟨a, ha, hi⟩
    · exact hm i hi
    · exact hf a ha i hi

/-- Behind a computation that comes back. -/
theorem all_bind_of_ok {m : Logged ι ε α} {a : α} (h : m.val = .ok a) {f : α → Logged ι ε β} :
    (m >>= f).All p ↔ m.All p ∧ (f a).All p := by
  rw [all_bind, h]
  simp

/-- In front of a computation whose messages all have the property. -/
theorem all_bind_of_forall {m : Logged ι ε α} {f : α → Logged ι ε β} (h : ∀ a, (f a).All p) :
    (m >>= f).All p ↔ m.All p := by
  rw [all_bind]
  exact and_iff_left fun a _ => h a

/-! ## Runs -/

/-- The value of a run is the run of the values. -/
theorem val_foldlM (f : σ → α → Logged ι ε σ) (l : List α) (s : σ) :
    (l.foldlM f s).val = l.foldlM (fun s a => (f s a).val) s := by
  induction l generalizing s with
  | nil => rfl
  | cons a l ih =>
    rw [List.foldlM_cons, List.foldlM_cons, val_bind]
    congr 1
    funext s'
    exact ih s'

/-- What a run logs, it logs in one of its steps, and the steps before that come back. -/
theorem mem_log_foldlM {f : σ → α → Logged ι ε σ} {l : List α} {s : σ} {i : ι} :
    i ∈ (l.foldlM f s).log ↔ ∃ pre a post s', l = pre ++ a :: post ∧
      (pre.foldlM f s).val = .ok s' ∧ i ∈ (f s' a).log := by
  induction l generalizing s with
  | nil => simp
  | cons a l ih =>
    rw [List.foldlM_cons, mem_log_bind]
    constructor
    · rintro (hi | ⟨s₁, hs₁, hi⟩)
      · exact ⟨[], a, l, s, rfl, rfl, hi⟩
      · obtain ⟨pre, b, post, s', rfl, hpre, hi⟩ := ih.mp hi
        refine ⟨a :: pre, b, post, s', rfl, ?_, hi⟩
        rw [List.foldlM_cons, bind_of_ok hs₁]
        exact hpre
    · rintro ⟨pre, b, post, s', heq, hpre, hi⟩
      cases pre with
      | nil =>
        obtain ⟨rfl, rfl⟩ := List.cons.inj heq
        cases hpre
        exact Or.inl hi
      | cons c pre =>
        obtain ⟨rfl, rfl⟩ := List.cons.inj heq
        rw [List.foldlM_cons, val_bind, bind_eq_ok] at hpre
        obtain ⟨s₁, hs₁, hpre⟩ := hpre
        exact Or.inr ⟨s₁, hs₁, ih.mpr ⟨pre, b, post, s', rfl, hpre, hi⟩⟩

end Logged

end RaspiKernel.Lib
