import Mathlib.Algebra.Order.Field.Power
import Mathlib.Algebra.Order.Floor.Ring
import Mathlib.Data.Int.Log
import Mathlib.Data.Rat.Floor
import Mathlib.Tactic.FieldSimp
import Mathlib.Tactic.Linarith
import Mathlib.Tactic.NormNum
import Mathlib.Tactic.Positivity
import Megakernel.Ieee

/-!
# Doubles

Finite doubles as the rationals they are, with the infinities and NaN of `Ieee.Value` around them.
The result of an operation is the double that is nearest to the exact result, ties to even, or an
infinity beyond the greatest double.

The rounding is computed: the exponent of the last place comes from the logarithm of the number, and
what is left is the nearest natural number. So statements about concrete doubles can be decided, and
of the others it is enough that a result in range is finite and not far off (`round_of_lt`).
-/

namespace Binary64

open Ieee Ieee.Value

/-- A double. -/
abbrev Double : Type := Value ℚ

/-- The nearest natural number, ties to even. -/
def roundHalfEven (q : ℚ) : ℕ :=
  if q - ⌊q⌋₊ < 1 / 2 ∨ q - ⌊q⌋₊ = 1 / 2 ∧ ⌊q⌋₊ % 2 = 0 then ⌊q⌋₊ else ⌊q⌋₊ + 1

/-- The first power of two beyond the doubles. -/
@[irreducible] def tooLarge : ℚ := 2 ^ (1024 : ℤ)

/-- The exponent of the last place of the doubles near a number. Below the normal numbers it is the
least one there is. -/
def lastPlace (q : ℚ) : ℤ := max (Int.log 2 |q|) (-1022) - 52

/-- The nearest double: the nearest multiple of the last place, ties to even, or an infinity when
that is beyond the doubles. -/
def round (q : ℚ) : Double :=
  let r := roundHalfEven (|q| / 2 ^ lastPlace q) * (2 : ℚ) ^ lastPlace q
  if r < tooLarge then fin (if q < 0 then -r else r) else if q < 0 then negInf else posInf

/-- `x + y` -/
def add : Double → Double → Double
  | nan, _ => nan
  | _, nan => nan
  | posInf, negInf => nan
  | negInf, posInf => nan
  | posInf, _ => posInf
  | _, posInf => posInf
  | negInf, _ => negInf
  | _, negInf => negInf
  | fin x, fin y => round (x + y)

/-- An infinity with the sign of a finite number, of which 0 has none. -/
def infOf (x : ℚ) : Double := if x = 0 then nan else if x < 0 then negInf else posInf

/-- `x * y`, for a finite `x` -/
def scale (x : ℚ) : Double → Double
  | nan => nan
  | posInf => infOf x
  | negInf => infOf (-x)
  | fin y => round (x * y)

/-- `x / y`, for a `y` that is not 0 -/
def div : Double → Double → Double
  | nan, _ => nan
  | _, nan => nan
  | fin _, posInf => fin 0
  | fin _, negInf => fin 0
  | posInf, fin y => infOf y
  | negInf, fin y => infOf (-y)
  | fin x, fin y => round (x / y)
  | _, _ => nan

/-! ## Rounding -/

section Round

variable {q : ℚ}

theorem one_le_tooLarge : 1 ≤ tooLarge := by
  rw [tooLarge]
  exact one_le_zpow₀ one_le_two (by decide)

theorem floor_le_roundHalfEven (q : ℚ) : ⌊q⌋₊ ≤ roundHalfEven q := by
  rw [roundHalfEven]
  split
  · exact le_rfl
  · exact Nat.le_succ _

theorem roundHalfEven_le (hq : 0 ≤ q) : (roundHalfEven q : ℚ) ≤ 2 * q := by
  have hle : (⌊q⌋₊ : ℚ) ≤ q := Nat.floor_le hq
  rw [roundHalfEven]
  split
  · linarith
  · next h =>
    rw [not_or] at h
    have hhalf : 1 / 2 ≤ q - ⌊q⌋₊ := not_lt.mp h.1
    push_cast
    -- a quotient below 1 is rounded up only from 1/2 on
    obtain h0 | hpos := Nat.eq_zero_or_pos ⌊q⌋₊
    · rw [h0, Nat.cast_zero] at hhalf ⊢
      linarith
    · have hone : (1 : ℚ) ≤ ⌊q⌋₊ := by exact_mod_cast hpos
      linarith

theorem scaled_le (h0 : 0 ≤ q) :
    (roundHalfEven (|q| / 2 ^ lastPlace q) : ℚ) * 2 ^ lastPlace q ≤ 2 * q := by
  have hpow : (0 : ℚ) < 2 ^ lastPlace q := by positivity
  have hround := roundHalfEven_le (q := |q| / 2 ^ lastPlace q) (by positivity)
  calc (roundHalfEven (|q| / 2 ^ lastPlace q) : ℚ) * 2 ^ lastPlace q
      ≤ 2 * (|q| / 2 ^ lastPlace q) * 2 ^ lastPlace q :=
        mul_le_mul_of_nonneg_right hround hpow.le
    _ = 2 * |q| := by field_simp
    _ = 2 * q := by rw [abs_of_nonneg h0]

theorem le_scaled (h : 1 ≤ q) :
    (2 : ℚ) ^ Int.log 2 q ≤ roundHalfEven (|q| / 2 ^ lastPlace q) * (2 : ℚ) ^ lastPlace q := by
  have hq : 0 < q := zero_lt_one.trans_le h
  have hpow : (0 : ℚ) < 2 ^ lastPlace q := by positivity
  have hlog : 0 ≤ Int.log 2 q := by
    rw [Int.log_of_one_le_right 2 h]
    exact Int.natCast_nonneg _
  have hplace : lastPlace q = Int.log 2 q - 52 := by
    rw [lastPlace, abs_of_pos hq, max_eq_left (by omega)]
  -- the quotient has at least 53 bits
  have hquot : ((2 ^ 52 : ℕ) : ℚ) ≤ |q| / 2 ^ lastPlace q := by
    rw [le_div_iff₀ hpow, abs_of_pos hq]
    calc ((2 ^ 52 : ℕ) : ℚ) * 2 ^ lastPlace q = (2 : ℚ) ^ (52 : ℤ) * 2 ^ lastPlace q := by norm_num
      _ = 2 ^ Int.log 2 q := by
        rw [← zpow_add₀ two_ne_zero, hplace]
        congr 1
        omega
      _ ≤ q := by exact_mod_cast Int.zpow_log_le_self one_lt_two hq
  have hfloor : 2 ^ 52 ≤ roundHalfEven (|q| / 2 ^ lastPlace q) :=
    (Nat.le_floor hquot).trans (floor_le_roundHalfEven _)
  calc (2 : ℚ) ^ Int.log 2 q = (2 : ℚ) ^ (52 : ℤ) * 2 ^ lastPlace q := by
        rw [← zpow_add₀ two_ne_zero, hplace]
        congr 1
        omega
    _ = ((2 ^ 52 : ℕ) : ℚ) * 2 ^ lastPlace q := by norm_num
    _ ≤ _ := by
      refine mul_le_mul_of_nonneg_right ?_ hpow.le
      exact_mod_cast hfloor

/-- In the range of doubles the result is finite, and not far off. -/
theorem round_of_lt (h0 : 0 ≤ q) (h : 2 * q < tooLarge) :
    ∃ r, round q = fin r ∧ 0 ≤ r ∧ r ≤ 2 * q ∧ (1 ≤ q → q ≤ 2 * r) := by
  have hle := scaled_le h0
  have hlt := hle.trans_lt h
  refine ⟨_, (if_pos hlt).trans (congrArg fin (if_neg (not_lt.mpr h0))), by positivity, hle, ?_⟩
  intro h1
  have hlog : q < (2 : ℚ) ^ (Int.log 2 q + 1) := by
    exact_mod_cast Int.lt_zpow_succ_log_self one_lt_two q
  rw [zpow_add_one₀ two_ne_zero] at hlog
  have hscaled := le_scaled h1
  linarith

theorem le_log_of_zpow_le {k : ℤ} (hq : 0 < q) (h : (2 : ℚ) ^ k ≤ q) : k ≤ Int.log 2 q := by
  refine (Int.zpow_le_iff_le_log one_lt_two hq).mp ?_
  exact_mod_cast h

/-- Beyond the greatest double is infinity. -/
theorem round_of_ge (h : tooLarge ≤ q) : round q = posInf := by
  have h1 : 1 ≤ q := one_le_tooLarge.trans h
  have hlog : (1024 : ℤ) ≤ Int.log 2 q := by
    rw [tooLarge] at h
    exact le_log_of_zpow_le (zero_lt_one.trans_le h1) h
  have hge : tooLarge ≤ roundHalfEven (|q| / 2 ^ lastPlace q) * (2 : ℚ) ^ lastPlace q := by
    refine le_trans ?_ (le_scaled h1)
    rw [tooLarge]
    exact zpow_le_zpow_right₀ one_le_two hlog
  exact (if_neg (not_lt.mpr hge)).trans (if_neg (not_lt.mpr (zero_le_one.trans h1)))

end Round

/-! ## Integers -/

@[simp] theorem roundHalfEven_natCast (m : ℕ) : roundHalfEven m = m := by
  simp [roundHalfEven]

theorem lastPlace_nonpos {q : ℚ} (h : |q| < 2 ^ 53) : lastPlace q ≤ 0 := by
  have hlog : Int.log 2 |q| < 53 := by
    obtain h0 | hpos := (abs_nonneg q).eq_or_lt
    · rw [← h0, Int.log_zero_right]
      decide
    · apply (Int.lt_zpow_iff_log_lt one_lt_two hpos).mp
      exact_mod_cast h
  rw [lastPlace, sub_nonpos, max_le_iff]
  exact ⟨Int.lt_add_one_iff.mp hlog, by decide⟩

/-- Integers of at most 53 bits are doubles. -/
theorem round_intCast {z : ℤ} (h : |z| < 2 ^ 53) : round z = fin (z : ℚ) := by
  have hq : |(z : ℚ)| < 2 ^ 53 := by exact_mod_cast h
  obtain ⟨k, hk⟩ := Int.eq_ofNat_of_zero_le (neg_nonneg.mpr (lastPlace_nonpos hq))
  have hplace : lastPlace z = -k := by rw [← hk, neg_neg]
  have habs : |(z : ℚ)| = z.natAbs := by
    rw [← Int.cast_abs, Int.abs_eq_natAbs, Int.cast_natCast]
  have hquot : |(z : ℚ)| / 2 ^ lastPlace z = (z.natAbs * 2 ^ k : ℕ) := by
    rw [hplace, zpow_neg, div_inv_eq_mul, habs, zpow_natCast]
    push_cast
    rfl
  have hres : (roundHalfEven (|(z : ℚ)| / 2 ^ lastPlace z) : ℚ) * 2 ^ lastPlace z = |(z : ℚ)| := by
    rw [hquot, roundHalfEven_natCast, ← hquot]
    exact div_mul_cancel₀ _ (zpow_ne_zero _ two_ne_zero)
  have hlt : |(z : ℚ)| < tooLarge := by
    rw [tooLarge]
    apply hq.trans
    exact_mod_cast zpow_lt_zpow_right₀ (one_lt_two (α := ℚ)) (by decide : (53 : ℤ) < 1024)
  simp only [round]
  rw [hres, if_pos hlt]
  congr 1
  split
  · next hneg => rw [abs_of_neg hneg, neg_neg]
  · next hneg => exact abs_of_nonneg (not_lt.mp hneg)

theorem add_intCast {x y : ℤ} (h : |x + y| < 2 ^ 53) :
    add (fin (x : ℚ)) (fin (y : ℚ)) = fin ((x + y : ℤ) : ℚ) := by
  have hround := round_intCast h
  rw [add]
  push_cast at hround ⊢
  exact hround

end Binary64
