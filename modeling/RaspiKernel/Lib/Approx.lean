import Mathlib.Data.List.Basic

/-!
# Bounded computations

A computation that may use up its bound gives the error `e` then. `Approx e x x'`
says that `x'` is what `x` becomes with a larger bound: `x` has used up its bound,
or they are the same. The rules follow the structure of a `do` block.
-/

namespace RaspiKernel.Lib

variable {ε α β σ : Type} {e : ε}

/-- `x` has used up its bound, or `x'` is the same. -/
def Approx (e : ε) (x x' : Except ε α) : Prop := x = .error e ∨ x' = x

theorem Approx.refl (x : Except ε α) : Approx e x x := Or.inr rfl

theorem Approx.bot (x' : Except ε α) : Approx e (.error e) x' := Or.inl rfl

/-- What uses up a larger bound uses up a smaller one. -/
theorem Approx.eq_error {x x' : Except ε α} (h : Approx e x x') (hx' : x' = .error e) :
    x = .error e := by
  rcases h with hx | heq
  · exact hx
  · rw [← heq, hx']

theorem Approx.bind {x x' : Except ε α} {f f' : α → Except ε β} (hx : Approx e x x')
    (hf : ∀ a, Approx e (f a) (f' a)) : Approx e (x >>= f) (x' >>= f') := by
  rcases hx with rfl | rfl
  · exact Or.inl rfl
  · cases x' with
    | error d => exact Or.inr rfl
    | ok a => exact hf a

theorem Approx.foldlM {f f' : σ → α → Except ε σ} (hf : ∀ s a, Approx e (f s a) (f' s a))
    (l : List α) (s : σ) : Approx e (l.foldlM f s) (l.foldlM f' s) := by
  induction l generalizing s with
  | nil => exact .refl _
  | cons a l ih =>
    rw [List.foldlM_cons, List.foldlM_cons]
    exact (hf s a).bind ih

end RaspiKernel.Lib
