import Mathlib.Logic.Function.Iterate

/-!
# Devices behind registers

A device is known by what a load from one of its registers gives, and by what loads and stores make of
it. A driver that waits for it loads one register again and again, and may give up.

Results:
* `poll_cases`: either a load has passed the test, or none of them has.
* `poll_until`: what every load keeps until the test is passed.
-/

namespace RaspiKernel.Lib

/-- Hardware in a state `σ`, with registers `R` that hold words `W`. -/
structure Device (R W σ : Type) where
  get : R → σ → W × σ
  set : R → W → σ → σ

namespace Device

variable {R W σ : Type} (d : Device R W σ) (r : R) (p : W → Bool)

/-- What a load gives. -/
def value (s : σ) : W := (d.get r s).1

/-- What a load leaves. -/
def look (s : σ) : σ := (d.get r s).2

/-- Load the register until the test is passed, `n` times at most: whether it has been passed. -/
def poll : ℕ → σ → Bool × σ
  | 0, s => (false, s)
  | n + 1, s => if p (d.value r s) then (true, d.look r s) else poll n (d.look r s)

variable {d r p} {n : ℕ} {s : σ}

theorem poll_succ_of_pass (h : p (d.value r s)) : d.poll r p (n + 1) s = (true, d.look r s) := if_pos h

theorem poll_succ_of_fail (h : ¬ p (d.value r s)) : d.poll r p (n + 1) s = d.poll r p n (d.look r s) :=
  if_neg h

/-- Either one of the loads has passed the test, and it was the last one, or none of them has. -/
theorem poll_cases (d : Device R W σ) (r : R) (p : W → Bool) (n : ℕ) (s : σ) :
    (∃ k < n, p (d.value r ((d.look r)^[k] s)) ∧ d.poll r p n s = (true, (d.look r)^[k + 1] s)) ∨
      (∀ k < n, ¬ p (d.value r ((d.look r)^[k] s))) ∧ d.poll r p n s = (false, (d.look r)^[n] s) := by
  induction n generalizing s with
  | zero => exact .inr ⟨by simp, rfl⟩
  | succ n ih =>
    by_cases hp : p (d.value r s)
    · exact .inl ⟨0, n.succ_pos, hp, poll_succ_of_pass hp⟩
    · rw [poll_succ_of_fail hp]
      rcases ih (d.look r s) with ⟨k, hk, hpass, heq⟩ | ⟨hfail, heq⟩
      · exact .inl ⟨k + 1, by omega, hpass, heq⟩
      · refine .inr ⟨fun k hk => ?_, heq⟩
        cases k with
        | zero => exact hp
        | succ k => exact hfail k (by omega)

/-- A test that is passed in time. -/
theorem poll_of_exists (h : ∃ k < n, p (d.value r ((d.look r)^[k] s))) : (d.poll r p n s).1 = true := by
  rcases poll_cases d r p n s with ⟨_, -, -, heq⟩ | ⟨hfail, -⟩
  · rw [heq]
  · obtain ⟨k, hk, hp⟩ := h
    exact absurd hp (hfail k hk)

/-- However often it may look, it stops at the first load that passes the test. -/
theorem poll_of_first {k : ℕ} (hk : k < n) (hp : p (d.value r ((d.look r)^[k] s)))
    (hfirst : ∀ j < k, ¬ p (d.value r ((d.look r)^[j] s))) : d.poll r p n s = (true, (d.look r)^[k + 1] s) := by
  induction k generalizing n s with
  | zero =>
    cases n with
    | zero => omega
    | succ n => exact poll_succ_of_pass hp
  | succ k ih =>
    cases n with
    | zero => omega
    | succ n =>
      have hs : ¬ p (d.value r s) := hfirst 0 k.succ_pos
      rw [poll_succ_of_fail hs]
      exact ih (by omega) hp (fun j hj => hfirst (j + 1) (by omega))

/-- What every load keeps, any number of them keeps. -/
theorem iterate_look {P : σ → Prop} (hkeep : ∀ s, P s → P (d.look r s)) (hs : P s) (k : ℕ) :
    P ((d.look r)^[k] s) := by
  induction k generalizing s with
  | zero => exact hs
  | succ k ih => exact ih (hkeep s hs)

/-- Every load keeps `P`, and the one that passes the test makes `Q` of it. -/
theorem poll_until {P Q : σ → Prop} (hkeep : ∀ s, P s → P (d.look r s))
    (hpass : ∀ s, P s → p (d.value r s) → Q (d.look r s)) (hs : P s) :
    if (d.poll r p n s).1 then Q (d.poll r p n s).2 else P (d.poll r p n s).2 := by
  rcases poll_cases d r p n s with ⟨k, -, hp, heq⟩ | ⟨-, heq⟩
  · rw [heq, Function.iterate_succ_apply']
    exact hpass _ (iterate_look hkeep hs k) hp
  · rw [heq]
    exact iterate_look hkeep hs n

end Device

end RaspiKernel.Lib
