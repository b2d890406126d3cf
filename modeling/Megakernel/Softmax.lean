import Mathlib.Algebra.BigOperators.Field
import Mathlib.Algebra.BigOperators.Ring.Finset
import Mathlib.Analysis.SpecialFunctions.Exp

/-!
# Softmax, piece by piece

A softmax attention over many positions is computed in pieces, every piece with its
sums relative to a reference point (usually its greatest score), to keep the
exponentials small. `Stands m a A` says that `a` is the sum `A` relative to `m`. Such
values are moved to another reference point by an exponential factor, added when the
reference points agree, and the reference point drops out of a quotient
(`Stands.div`), so every way to combine the pieces yields the attention
(`attention_of_stands`).
-/

namespace Softmax

open Real

/-! ## Sums relative to a reference point -/

/-- `a` is the sum `A` relative to `m`: times `exp m` it is `A`. The point `m` has to be the same
for what is added, and nothing else about it matters. -/
def Stands (m a A : ℝ) : Prop := a * exp m = A

variable {m m' a b A B : ℝ}

theorem Stands.zero (m : ℝ) : Stands m 0 0 := zero_mul _

theorem Stands.exp_sub (x m : ℝ) : Stands m (exp (x - m)) (exp x) := by
  rw [Stands, ← exp_add, sub_add_cancel]

theorem Stands.add (ha : Stands m a A) (hb : Stands m b B) : Stands m (a + b) (A + B) := by
  rw [Stands] at *
  rw [add_mul, ha, hb]

theorem Stands.mul_right (ha : Stands m a A) (c : ℝ) : Stands m (a * c) (A * c) := by
  rw [Stands] at *
  rw [mul_right_comm, ha]

/-- To another reference point. -/
theorem Stands.rescale (ha : Stands m a A) (m' : ℝ) : Stands m' (a * exp (m - m')) A := by
  rw [Stands] at *
  rw [mul_assoc, ← exp_add, sub_add_cancel, ha]

theorem Stands.sum {ι : Type*} {P : Finset ι} {f g : ι → ℝ} (h : ∀ j ∈ P, Stands m (f j) (g j)) :
    Stands m (∑ j ∈ P, f j) (∑ j ∈ P, g j) := by
  rw [Stands, Finset.sum_mul]
  exact Finset.sum_congr rfl h

/-- What stands for nothing is nothing. -/
theorem Stands.eq_zero (ha : Stands m a 0) : a = 0 :=
  (mul_eq_zero.mp ha).resolve_right (exp_ne_zero m)

/-- The reference point drops out of a quotient. -/
theorem Stands.div (ha : Stands m a A) (hb : Stands m b B) : a / b = A / B := by
  rw [Stands] at *
  rw [← ha, ← hb, mul_div_mul_right _ _ (exp_ne_zero m)]

/-! ## Attention -/

/-- The weight of a score; the score of a masked position is `⊥`. -/
noncomputable def weight (x : WithBot ℝ) : ℝ := WithBot.unbotD 0 (x.map exp)

@[simp] theorem weight_bot : weight ⊥ = 0 := rfl

@[simp] theorem weight_coe (x : ℝ) : weight (x : WithBot ℝ) = exp x := rfl

variable {ι : Type*}

/-- Softmax attention over the positions `P`: the values, weighted by the exponentials of their
scores, over the sum of the weights. Masked positions have weight 0. -/
noncomputable def attention (P : Finset ι) (s : ι → WithBot ℝ) (v : ι → ℝ) : ℝ :=
  ∑ j ∈ P, weight (s j) / (∑ i ∈ P, weight (s i)) * v j

/-- **Sums relative to any reference point yield the attention.** -/
theorem attention_of_stands {P : Finset ι} {s : ι → WithBot ℝ} {v : ι → ℝ}
    (ha : Stands m a (∑ j ∈ P, weight (s j) * v j)) (hb : Stands m b (∑ j ∈ P, weight (s j))) :
    a / b = attention P s v := by
  rw [ha.div hb, attention, Finset.sum_div]
  exact Finset.sum_congr rfl fun j _ => (div_mul_eq_mul_div _ _ _).symm

end Softmax
