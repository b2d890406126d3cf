import Mathlib.Algebra.GroupWithZero.Nat
import Mathlib.Algebra.NeZero

/-!
# Numerals of small index types

One instance for each of the index types whose elements are written as numerals: the blocks and
the GPUs of the small runs, the two GPUs, and the axes of a tensor.
-/

instance neZero_one : NeZero 1 := ⟨Nat.one_ne_zero⟩

instance neZero_two : NeZero 2 := ⟨Nat.succ_ne_zero 1⟩

instance neZero_four : NeZero 4 := ⟨Nat.succ_ne_zero 3⟩
