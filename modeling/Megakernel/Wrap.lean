import Mathlib.Data.BitVec
import Mathlib.Data.Nat.ModEq
import Mathlib.Tactic.Linarith
import Mathlib.Tactic.Ring

/-!
# Wrapping counters and the signed-difference compare

A monotonic counter kept in `w` bits cannot be compared with `<`. The usual
idiom is to look at the sign of the wrapped difference, `(int)(a - b) < 0`.
`behind` is that test; `behind_ofNat` says when it is sound: on the true values
of two counters it decides `a < b` as long as they are less than half the range
apart. The bound on the distance is what a user has to supply.

Nothing here depends on what is counted. The boundary compares arrivals with it, the interpreter
doorbells, and the exchange the numbers of passes, each with a bound on the distance of its own.
-/

namespace Wrap

/-- `(int)(a - b) < 0`: the signed test that `a` has not yet reached `b`. On cells that wrap it is
the only comparison the code makes, and by itself it says nothing about the counters behind the
cells. -/
def behind {w : ℕ} (a b : BitVec w) : Bool := decide ((a - b).toInt < 0)

/-- The signed difference of two wrapped naturals, when the true difference fits. -/
theorem toInt_ofNat_sub_ofNat {w a b : ℕ} (hlo : b ≤ a + 2 ^ w) (hhi : a < b + 2 ^ w) :
    (BitVec.ofNat (w + 1) a - BitVec.ofNat (w + 1) b).toInt = (a : ℤ) - b := by
  have hpow : (2 : ℕ) ^ (w + 1) = 2 * 2 ^ w := by ring
  rw [BitVec.toInt_sub, BitVec.toInt_ofNat', BitVec.toInt_ofNat', Int.bmod_sub_bmod,
    Int.sub_bmod_bmod]
  refine Int.bmod_eq_of_le_mul_two ?_ ?_
  · rw [hpow]
    push_cast
    have : (b : ℤ) ≤ a + 2 ^ w := by exact_mod_cast hlo
    linarith
  · rw [hpow]
    push_cast
    have : (a : ℤ) < b + 2 ^ w := by exact_mod_cast hhi
    linarith

/-- **Soundness of the signed compare.** On counters less than `2 ^ (w - 1)` apart, in either
direction, the wrapped test decides the order of the true values. -/
theorem behind_ofNat {w a b : ℕ} (hlo : b ≤ a + 2 ^ w) (hhi : a < b + 2 ^ w) :
    behind (BitVec.ofNat (w + 1) a) (BitVec.ofNat (w + 1) b) = true ↔ a < b := by
  rw [behind, decide_eq_true_iff, toInt_ofNat_sub_ofNat hlo hhi]
  omega

/-- The same for cells, in terms of what they hold. -/
theorem behind_iff_toNat {w : ℕ} {a b : BitVec (w + 1)} (hlo : b.toNat ≤ a.toNat + 2 ^ w)
    (hhi : a.toNat < b.toNat + 2 ^ w) : behind a b = true ↔ a.toNat < b.toNat := by
  have h := behind_ofNat hlo hhi
  rwa [BitVec.ofNat_toNat, BitVec.ofNat_toNat, BitVec.setWidth_eq, BitVec.setWidth_eq] at h

/-- Incrementing a counter that is not at its top. -/
theorem toNat_add_one {w : ℕ} {a : BitVec w} (h : a.toNat + 1 < 2 ^ w) :
    (a + 1).toNat = a.toNat + 1 := by
  rcases w with _ | w
  · rw [pow_zero] at h
    omega
  · have hone : (1 : BitVec (w + 1)).toNat = 1 := by simp
    rw [BitVec.toNat_add, hone, Nat.mod_eq_of_lt h]

/-- Two wrapped naturals less than the range apart are equal only if the naturals are. -/
theorem ofNat_inj {w a b : ℕ} (hlo : b < a + 2 ^ w) (hhi : a < b + 2 ^ w)
    (h : BitVec.ofNat w a = BitVec.ofNat w b) : a = b := by
  have hmod : a ≡ b [MOD 2 ^ w] := by
    have := congrArg BitVec.toNat h
    rwa [BitVec.toNat_ofNat, BitVec.toNat_ofNat] at this
  generalize 2 ^ w = m at hlo hhi hmod
  exact hmod.eq_of_abs_lt (abs_lt.mpr ⟨by omega, by omega⟩)

end Wrap
