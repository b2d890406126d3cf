import Mathlib.Order.Lattice
import Mathlib.Order.Defs.LinearOrder
import Mathlib.Data.List.Basic
import Mathlib.Algebra.Group.Defs

/-!
# Extended values with an unordered element

Floating-point values as a checker sees them: finite values, two infinities and
NaN, which is neither less than, nor greater than, nor equal to any value. About
the operations on finite values next to nothing is assumed (`FiniteArith`), so
they may round; what the operations do with infinities and NaN is spelled out.

A verdict that is reached through maxima and comparisons depends on who drops a
NaN and who hands it on. `lt_npMax`, `lt_amax` and `lt_pyMax` say when such a
maximum is beyond a bound.

Booleans are computed, so that a comparison with NaN is simply false, as it is in Python. The
classes of values that a maximum can return are told apart by `lt_amax` and `lt_foldl_pyMax`, of
which the first is about `np.max` and the second about the loops that call `max`.
-/

namespace Ieee

/-- Finite values with operations that stay finite and may round. So whatever becomes infinite or
NaN does so by an infinity or a NaN that was there before. -/
class FiniteArith (K : Type*) extends LinearOrder K, Zero K, One K, Neg K, Sub K, Mul K, Div K where
  exp : K → K
  log : K → K
  /-- A sum, added up in some order. -/
  sum : List K → K
  exp_nonneg : ∀ x, 0 ≤ exp x
  exp_sub_self_pos : ∀ x : K, 0 < exp (x - x)
  sum_pos : ∀ l : List K, (∀ x ∈ l, 0 ≤ x) → (∃ x ∈ l, 0 < x) → 0 < sum l

/-- A floating-point value. The two zeros are one, since no comparison tells them apart; what a zero
does to the sign of an infinity is not looked at. -/
inductive Value (K : Type*) where
  /-- not a number -/
  | nan
  /-- -inf -/
  | negInf
  /-- a finite value -/
  | fin (x : K)
  /-- +inf -/
  | posInf
  deriving DecidableEq

namespace Value

variable {K : Type*} [FiniteArith K]

/-! ## Comparisons -/

/-- `x < y` -/
protected def lt : Value K → Value K → Prop
  | negInf, fin _ => True
  | negInf, posInf => True
  | fin x, fin y => x < y
  | fin _, posInf => True
  | _, _ => False

/-- `x <= y` -/
protected def le : Value K → Value K → Prop
  | nan, _ => False
  | _, nan => False
  | negInf, _ => True
  | fin x, fin y => x ≤ y
  | fin _, posInf => True
  | fin _, negInf => False
  | posInf, posInf => True
  | posInf, _ => False

instance : LT (Value K) := ⟨Value.lt⟩

instance : LE (Value K) := ⟨Value.le⟩

instance : DecidableLT (Value K) := fun x y =>
  match x, y with
  | negInf, fin _ => .isTrue trivial
  | negInf, posInf => .isTrue trivial
  | fin x, fin y => inferInstanceAs (Decidable (x < y))
  | fin _, posInf => .isTrue trivial
  | nan, _ => .isFalse id
  | posInf, _ => .isFalse id
  | negInf, nan => .isFalse id
  | negInf, negInf => .isFalse id
  | fin _, nan => .isFalse id
  | fin _, negInf => .isFalse id

instance : DecidableLE (Value K) := fun x y =>
  match x, y with
  | nan, _ => .isFalse id
  | negInf, nan => .isFalse id
  | fin _, nan => .isFalse id
  | posInf, nan => .isFalse id
  | negInf, negInf => .isTrue trivial
  | negInf, fin _ => .isTrue trivial
  | negInf, posInf => .isTrue trivial
  | fin x, fin y => inferInstanceAs (Decidable (x ≤ y))
  | fin _, posInf => .isTrue trivial
  | fin _, negInf => .isFalse id
  | posInf, posInf => .isTrue trivial
  | posInf, negInf => .isFalse id
  | posInf, fin _ => .isFalse id

/-- `x == y` -/
def Eq (x y : Value K) : Prop := x ≠ nan ∧ x = y

instance (x y : Value K) : Decidable (Eq x y) := inferInstanceAs (Decidable (_ ∧ _))

/-- Neither an infinity nor NaN. -/
def Finite (x : Value K) : Prop := ∃ k, x = fin k

section Order

variable {a x y z : Value K}

@[simp] theorem not_nan_lt : ¬ nan < x := id

@[simp] theorem not_lt_nan : ¬ x < nan := by
  cases x <;> exact id

@[simp] theorem not_nan_le : ¬ nan ≤ x := id

@[simp] theorem not_le_nan : ¬ x ≤ nan := by
  cases x <;> exact id

@[simp] theorem fin_lt_fin {x y : K} : fin x < fin y ↔ x < y := Iff.rfl

@[simp] theorem fin_le_fin {x y : K} : fin x ≤ fin y ↔ x ≤ y := Iff.rfl

@[simp] theorem negInf_lt_fin {x : K} : negInf < fin x := trivial

@[simp] theorem negInf_lt_posInf : (negInf : Value K) < posInf := trivial

@[simp] theorem fin_lt_posInf {x : K} : fin x < posInf := trivial

@[simp] theorem not_posInf_lt : ¬ posInf < x := id

@[simp] theorem not_lt_negInf : ¬ x < negInf := by
  cases x <;> exact id

@[simp] theorem fin_le_posInf {x : K} : fin x ≤ posInf := trivial

@[simp] theorem not_fin_le_negInf {x : K} : ¬ fin x ≤ negInf := id

@[simp] theorem negInf_le : negInf ≤ x ↔ x ≠ nan := by
  cases x with
  | nan => simp
  | negInf => exact iff_of_true trivial (by simp)
  | fin x => exact iff_of_true trivial (by simp)
  | posInf => exact iff_of_true trivial (by simp)

@[simp] theorem posInf_le : posInf ≤ x ↔ x = posInf := by
  cases x with
  | nan => simp
  | negInf => exact iff_of_false id (by simp)
  | fin x => exact iff_of_false id (by simp)
  | posInf => exact iff_of_true trivial rfl

theorem ne_nan_of_le_left (h : x ≤ y) : x ≠ nan := by
  rintro rfl
  exact not_nan_le h

theorem ne_nan_of_le_right (h : x ≤ y) : y ≠ nan := by
  rintro rfl
  exact not_le_nan h

/-- Of two numbers, one is above the other or it is not. -/
theorem not_lt_iff (hx : x ≠ nan) (hy : y ≠ nan) : ¬ y < x ↔ x ≤ y := by
  cases x <;> cases y <;> simp_all

protected theorem lt_trans (hxy : x < y) (hyz : y < z) : x < z := by
  cases x <;> cases y <;> cases z <;> simp_all
  exact hxy.trans hyz

/-- Who is not below a number beyond the bound is beyond it, if a number at all. -/
theorem lt_of_lt_of_not_lt (hay : a < y) (hxy : ¬ x < y) (hx : x ≠ nan) : a < x := by
  cases a <;> cases x <;> cases y <;> simp_all
  exact lt_of_lt_of_le hay hxy

end Order

/-! ## Maxima -/

/-- `np.maximum`, which hands a NaN on: a difference that is no number makes the maximum none. -/
def npMax (x y : Value K) : Value K := if x = nan ∨ y = nan then nan else if x < y then y else x

/-- `max(x, y)` of Python, which takes the second argument only where it is greater. A NaN is never
greater, so that it is dropped when it comes second. -/
def pyMax (x y : Value K) : Value K := if x < y then y else x

/-- `np.max`, of at least one value. Of no value it raises, which its callers have to deal with. -/
def amax (x : Value K) (l : List (Value K)) : Value K := l.foldl npMax x

section Maxima

variable {a b x y : Value K} {l : List (Value K)}

theorem lt_npMax : a < npMax x y ↔ x ≠ nan ∧ y ≠ nan ∧ (a < x ∨ a < y) := by
  by_cases hnan : x = nan ∨ y = nan
  · rw [npMax, if_pos hnan]
    simp only [not_lt_nan, false_iff]
    rintro ⟨hx, hy, -⟩
    exact hnan.elim hx hy
  obtain ⟨hx, hy⟩ := not_or.mp hnan
  rw [npMax, if_neg hnan]
  simp only [hx, hy, ne_eq, not_false_eq_true, true_and]
  by_cases hlt : x < y
  · rw [if_pos hlt]
    exact ⟨Or.inr, fun h => h.elim (fun h => Value.lt_trans h hlt) id⟩
  · rw [if_neg hlt]
    exact ⟨Or.inl, fun h => h.elim id fun h => lt_of_lt_of_not_lt h hlt hx⟩

theorem npMax_eq_nan : npMax x y = nan ↔ x = nan ∨ y = nan := by
  rw [npMax]
  split_ifs <;> simp_all

theorem amax_eq_nan : amax x l = nan ↔ nan ∈ x :: l := by
  induction l generalizing x with
  | nil => simp [amax, eq_comm]
  | cons y l ih =>
    have hstep : amax x (y :: l) = amax (npMax x y) l := rfl
    rw [hstep, ih]
    simp only [List.mem_cons, eq_comm (a := nan), npMax_eq_nan, or_assoc]

/-- **A maximum is beyond a bound if some value is and no value is a NaN.** -/
theorem lt_amax : a < amax x l ↔ nan ∉ x :: l ∧ ∃ y ∈ x :: l, a < y := by
  induction l generalizing x with
  | nil =>
    rw [amax, List.foldl_nil]
    simp only [List.mem_singleton, exists_eq_left]
    refine ⟨fun h => ⟨?_, h⟩, And.right⟩
    rintro rfl
    exact not_lt_nan h
  | cons y l ih =>
    have hstep : amax x (y :: l) = amax (npMax x y) l := rfl
    rw [hstep, ih]
    simp only [List.mem_cons, not_or, exists_eq_or_imp, lt_npMax, eq_comm (a := nan), npMax_eq_nan]
    tauto

theorem lt_irrefl (x : Value K) : ¬ x < x := by
  cases x <;> simp

/-- A maximum with an infinity among the values is one, or it is no number. -/
theorem amax_of_posInf (h : posInf ∈ x :: l) : amax x l = nan ∨ amax x l = posInf := by
  have hirrefl := lt_irrefl (amax x l)
  rw [lt_amax, ← amax_eq_nan] at hirrefl
  cases hm : amax x l with
  | nan => exact Or.inl rfl
  | posInf => exact Or.inr rfl
  | negInf => exact absurd ⟨by simp [hm], posInf, h, by simp [hm]⟩ hirrefl
  | fin m => exact absurd ⟨by simp [hm], posInf, h, by simp [hm]⟩ hirrefl

/-- The maximum of finite values is one of them. -/
theorem amax_map_fin (k : K) (l : List K) : ∃ m ∈ k :: l, amax (fin k) (l.map fin) = fin m := by
  induction l generalizing k with
  | nil => exact ⟨k, by simp, rfl⟩
  | cons k' l ih =>
    have hmax : npMax (fin k) (fin k') = fin (if k < k' then k' else k) := by
      simp only [npMax, reduceCtorEq, or_self, if_false, fin_lt_fin]
      split_ifs <;> rfl
    obtain ⟨m, hmem, hm⟩ := ih (if k < k' then k' else k)
    refine ⟨m, ?_, by rw [List.map_cons, amax, List.foldl_cons, hmax]; exact hm⟩
    obtain heq | hmem := List.mem_cons.mp hmem
    · rw [heq]
      split_ifs <;> simp
    · exact List.mem_cons_of_mem _ (List.mem_cons_of_mem _ hmem)

theorem lt_pyMax : a < pyMax x y ↔ a < x ∨ x ≠ nan ∧ a < y := by
  by_cases hlt : x < y
  · rw [pyMax, if_pos hlt]
    have hx : x ≠ nan := by
      rintro rfl
      exact not_nan_lt hlt
    exact ⟨fun h => Or.inr ⟨hx, h⟩, fun h => h.elim (fun h => Value.lt_trans h hlt) And.right⟩
  · rw [pyMax, if_neg hlt]
    exact ⟨Or.inl, fun h => h.elim id fun h => lt_of_lt_of_not_lt h.2 hlt h.1⟩

theorem pyMax_le : pyMax x y ≤ b ↔ x ≤ b ∧ ¬ b < y := by
  by_cases hlt : x < y
  · rw [pyMax, if_pos hlt]
    cases x <;> cases y <;> cases b <;> simp_all
    intro h
    exact le_of_lt (lt_of_lt_of_le hlt h)
  · rw [pyMax, if_neg hlt]
    cases x <;> cases y <;> cases b <;> simp_all
    exact le_trans hlt

theorem pyMax_ne_nan (hx : x ≠ nan) : pyMax x y ≠ nan := by
  rw [pyMax]
  split_ifs with hlt
  · rintro rfl
    exact not_lt_nan hlt
  · exact hx

/-- A running maximum that starts with a number drops every NaN. -/
theorem lt_foldl_pyMax (hx : x ≠ nan) : a < l.foldl pyMax x ↔ a < x ∨ ∃ y ∈ l, a < y := by
  induction l generalizing x with
  | nil => simp
  | cons y l ih =>
    rw [List.foldl_cons, ih (pyMax_ne_nan hx), lt_pyMax]
    simp only [List.exists_mem_cons_iff]
    tauto

end Maxima

/-! ## Operations -/

/-- `-x` -/
protected def neg : Value K → Value K
  | nan => nan
  | negInf => posInf
  | fin x => fin (-x)
  | posInf => negInf

/-- `x - y` -/
protected def sub : Value K → Value K → Value K
  | nan, _ => nan
  | _, nan => nan
  | negInf, negInf => nan
  | posInf, posInf => nan
  | negInf, _ => negInf
  | posInf, _ => posInf
  | fin _, negInf => posInf
  | fin _, posInf => negInf
  | fin x, fin y => fin (x - y)

/-- An infinity by a finite factor: what becomes of it. -/
def scale (x : K) (inf : Value K) : Value K :=
  if x = 0 then nan else if 0 < x then inf else inf.neg

/-- `x * y` -/
protected def mul : Value K → Value K → Value K
  | nan, _ => nan
  | _, nan => nan
  | fin x, fin y => fin (x * y)
  | fin x, y => scale x y
  | x, fin y => scale y x
  | negInf, y => y.neg
  | posInf, y => y

/-- `x / y`, of which the divisor is not zero. -/
protected def div : Value K → Value K → Value K
  | nan, _ => nan
  | _, nan => nan
  | fin x, fin y => fin (x / y)
  | fin _, _ => fin 0
  | x, fin y => if 0 < y then x else x.neg
  | _, _ => nan

/-- `abs(x)` -/
def abs : Value K → Value K
  | fin x => if x < 0 then fin (-x) else fin x
  | negInf => posInf
  | x => x

/-- `np.exp` -/
def exp : Value K → Value K
  | nan => nan
  | negInf => fin 0
  | fin x => fin (FiniteArith.exp x)
  | posInf => posInf

/-- `np.log` -/
def log : Value K → Value K
  | nan => nan
  | negInf => nan
  | fin x => if 0 < x then fin (FiniteArith.log x) else if x = 0 then negInf else nan
  | posInf => posInf

instance : Neg (Value K) := ⟨Value.neg⟩

instance : Sub (Value K) := ⟨Value.sub⟩

instance : Mul (Value K) := ⟨Value.mul⟩

instance : Div (Value K) := ⟨Value.div⟩

/-- The finite values of a list. -/
def finites (l : List (Value K)) : List K :=
  l.filterMap fun
    | fin x => some x
    | _ => none

/-- `np.sum` -/
def sum (l : List (Value K)) : Value K :=
  if nan ∈ l ∨ posInf ∈ l ∧ negInf ∈ l then nan
  else if posInf ∈ l then posInf
  else if negInf ∈ l then negInf
  else fin (FiniteArith.sum (finites l))

section Operations

variable {x y : Value K} {l : List (Value K)}

@[simp] theorem nan_sub : nan - x = nan := rfl

@[simp] theorem sub_nan : x - nan = nan := by
  cases x <;> rfl

@[simp] theorem fin_sub_fin (x y : K) : fin x - fin y = fin (x - y) := rfl

@[simp] theorem posInf_sub_posInf : (posInf : Value K) - posInf = nan := rfl

/-- From -inf nothing but NaN and -inf results. -/
theorem negInf_sub (x : Value K) : negInf - x = nan ∨ negInf - x = negInf := by
  cases x with
  | nan => exact Or.inl rfl
  | negInf => exact Or.inl rfl
  | fin x => exact Or.inr rfl
  | posInf => exact Or.inr rfl

@[simp] theorem nan_mul : nan * x = nan := rfl

@[simp] theorem mul_nan : x * nan = nan := by
  cases x <;> rfl

@[simp] theorem fin_mul_fin (x y : K) : fin x * fin y = fin (x * y) := rfl

@[simp] theorem zero_mul_negInf : fin (0 : K) * negInf = nan := if_pos rfl

@[simp] theorem exp_nan : exp (nan : Value K) = nan := rfl

@[simp] theorem exp_negInf : exp (negInf : Value K) = fin 0 := rfl

@[simp] theorem exp_fin (x : K) : exp (fin x) = fin (FiniteArith.exp x) := rfl

@[simp] theorem log_nan : log (nan : Value K) = nan := rfl

theorem log_fin {x : K} (h : 0 < x) : log (fin x) = fin (FiniteArith.log x) := if_pos h

theorem sum_nan (h : nan ∈ l) : sum l = nan := if_pos (Or.inl h)

/-- A sum of finite values is the sum of the values. -/
theorem sum_map_fin (l : List K) : sum (l.map fin) = fin (FiniteArith.sum l) := by
  have hfinites : finites (l.map fin) = l := by
    simp only [finites, List.filterMap_map]
    exact List.filterMap_some
  rw [sum, hfinites]
  simp

/-- The term of an infinite or missing logarithm is no number. -/
theorem exp_mul_sub_eq_nan (h : x = nan ∨ x = negInf) : exp x * (x - y) = nan := by
  obtain rfl | rfl := h
  · rw [exp_nan, nan_mul]
  · obtain hsub | hsub := negInf_sub y
    · rw [hsub, mul_nan]
    · rw [hsub, exp_negInf, zero_mul_negInf]

@[simp] theorem abs_nan : abs (nan : Value K) = nan := rfl

@[simp] theorem nan_div : nan / x = nan := rfl

/-- The magnitude of a finite value is finite. -/
theorem abs_fin (k : K) : ∃ l, abs (fin k) = fin l := by
  rw [abs]
  split_ifs
  · exact ⟨-k, rfl⟩
  · exact ⟨k, rfl⟩

/-- Only an infinite divisor makes a quotient of magnitudes no number. -/
theorem abs_div_abs_fin_ne_nan {k : K} (h : x.Finite ∨ abs x = posInf) :
    abs x / abs (fin k) ≠ nan := by
  obtain ⟨k', hk'⟩ := abs_fin k
  rw [hk']
  obtain ⟨l, rfl⟩ | hinf := h
  · obtain ⟨l', hl'⟩ := abs_fin l
    rw [hl']
    exact nofun
  · have hdiv : (posInf : Value K) / fin k' = if 0 < k' then posInf else negInf := rfl
    rw [hinf, hdiv]
    split_ifs <;> simp

omit [FiniteArith K] in
theorem forall_finite_iff : (∀ v ∈ l, v.Finite) ↔ ∃ ks : List K, l = ks.map fin := by
  constructor
  · intro h
    induction l with
    | nil => exact ⟨[], rfl⟩
    | cons v l ih =>
      rw [List.forall_mem_cons] at h
      obtain ⟨k, rfl⟩ := h.1
      obtain ⟨ks, rfl⟩ := ih h.2
      exact ⟨k :: ks, rfl⟩
  · rintro ⟨ks, rfl⟩ v hv
    obtain ⟨k, -, rfl⟩ := List.mem_map.mp hv
    exact ⟨k, rfl⟩

end Operations

end Value

end Ieee
