import Mathlib.Algebra.BigOperators.Intervals
import Mathlib.Algebra.Order.BigOperators.Group.Finset
import Mathlib.Algebra.Order.Ring.Abs
import Mathlib.Tactic.IntervalCases

/-!
# Packed bytes

Words that hold four bytes, least significant byte first, and the instructions that work on them:
funnel shifts, byte permutations, saturating byte subtraction and the four-way dot product. Each
instruction is defined as its documentation has it, and described by the bytes of its result, so
that a sequence of them is followed byte by byte and no word is ever computed with as a number.

The weights of the quantized GEMVs are nibbles of such bytes. `abs_sum_mul_le` bounds a dot product
of nibbles with signed bytes, which is why the 32-bit accumulators do not wrap.
-/

namespace Words

/-- Byte `k` of a word. -/
def byte {w : ℕ} (x : BitVec w) (k : ℕ) : BitVec 8 := x.extractLsb' (8 * k) 8

/-- The word made of four bytes. -/
def ofBytes (b : ℕ → BitVec 8) : BitVec 32 := b 3 ++ b 2 ++ b 1 ++ b 0

/-- Halfword `i` of a memory. -/
def word16 (m : ℕ → BitVec 8) (i : ℕ) : BitVec 16 := m (2 * i + 1) ++ m (2 * i)

/-- Word `i` of a memory. -/
def word32 (m : ℕ → BitVec 8) (i : ℕ) : BitVec 32 := ofBytes fun k => m (4 * i + k)

/-- `__funnelshift_r` -/
def funnelshiftR (lo hi : BitVec 32) (n : ℕ) : BitVec 32 := ((hi ++ lo) >>> n).setWidth 32

/-- `__byte_perm`: each of the four selectors picks one of the eight bytes of two words. -/
def bytePerm (x y : BitVec 32) (sel : ℕ) : BitVec 32 :=
  ofBytes fun k => byte (y ++ x) (sel / 16 ^ k % 8)

/-- `__vsubss4`: four signed saturating differences. On the nibbles less 8 that it is used for,
nothing saturates. -/
def vsubss4 (x y : BitVec 32) : BitVec 32 :=
  ofBytes fun k => BitVec.ofInt 8 (max (-128) (min 127 ((byte x k).toInt - (byte y k).toInt)))

/-- `dp4a.s32.s32`: four products of signed bytes, added to the accumulator. -/
def dp4a (a b c : BitVec 32) : BitVec 32 :=
  c + BitVec.ofInt 32 (∑ k ∈ Finset.range 4, (byte a k).toInt * (byte b k).toInt)

/-! ## Bytes of the results -/

theorem getElem_byte {w : ℕ} (x : BitVec w) (k i : ℕ) (hi : i < 8) :
    (byte x k)[i] = x.getLsbD (8 * k + i) := by
  rw [byte, BitVec.getElem_extractLsb']

theorem byte_ofBytes (b : ℕ → BitVec 8) {k : ℕ} (hk : k < 4) : byte (ofBytes b) k = b k := by
  have happend (j : ℕ) : (ofBytes b).getLsbD j = (b 3 ++ b 2 ++ b 1 ++ b 0).getLsbD j := rfl
  ext i hi
  rw [getElem_byte, happend, BitVec.getLsbD_append, BitVec.getLsbD_append, BitVec.getLsbD_append,
    ← BitVec.getLsbD_eq_getElem hi]
  split_ifs
  · have hk0 : k = 0 := by omega
    rw [hk0, Nat.mul_zero, Nat.zero_add]
  · have hk1 : k = 1 := by omega
    rw [hk1, Nat.mul_one, Nat.add_sub_cancel_left]
  · have hk2 : k = 2 := by omega
    rw [hk2]
    congr 1
    omega
  · have hk3 : k = 3 := by omega
    rw [hk3]
    congr 1
    omega

theorem byte_word32 (m : ℕ → BitVec 8) (i : ℕ) {k : ℕ} (hk : k < 4) :
    byte (word32 m i) k = m (4 * i + k) := byte_ofBytes _ hk

theorem byte_append_lo (hi lo : BitVec 32) {k : ℕ} (hk : k < 4) :
    byte (hi ++ lo) k = byte lo k := by
  ext i h
  rw [getElem_byte, getElem_byte, BitVec.getLsbD_append, if_pos (by omega)]

theorem byte_append_hi (hi lo : BitVec 32) (k : ℕ) : byte (hi ++ lo) (4 + k) = byte hi k := by
  ext i h
  rw [getElem_byte, getElem_byte, BitVec.getLsbD_append, if_neg (by omega)]
  congr 1
  omega

/-- Shifting two words by half a word: the upper half of one, then the lower half of the other. -/
theorem byte_funnelshiftR (lo hi : BitVec 32) {k : ℕ} (hk : k < 4) :
    byte (funnelshiftR lo hi 16) k = if k < 2 then byte lo (k + 2) else byte hi (k - 2) := by
  have hshift : byte (funnelshiftR lo hi 16) k = byte (hi ++ lo) (k + 2) := by
    ext i h
    rw [getElem_byte, getElem_byte, funnelshiftR, BitVec.getLsbD_setWidth,
      BitVec.getLsbD_ushiftRight,
      decide_eq_true (by omega), Bool.true_and]
    congr 1
    omega
  rw [hshift]
  split
  · exact byte_append_lo hi lo (by omega)
  · rw [← byte_append_hi hi lo (k - 2)]
    congr 1
    omega

theorem byte_word16 (m : ℕ → BitVec 8) (i : ℕ) {k : ℕ} (hk : k < 2) :
    byte (word16 m i) k = m (2 * i + k) := by
  have happend (j : ℕ) :
      (word16 m i).getLsbD j = (m (2 * i + 1) ++ m (2 * i)).getLsbD j := rfl
  ext j hj
  rw [getElem_byte, happend, BitVec.getLsbD_append, ← BitVec.getLsbD_eq_getElem hj]
  split_ifs
  · have hk0 : k = 0 := by omega
    rw [hk0, Nat.mul_zero, Nat.zero_add, Nat.add_zero]
  · have hk1 : k = 1 := by omega
    rw [hk1, Nat.mul_one, Nat.add_sub_cancel_left]

/-- Two halfwords as one word. -/
theorem byte_or_halfwords (lo hi : BitVec 16) {k : ℕ} (hk : k < 4) :
    byte (lo.setWidth 32 ||| hi.setWidth 32 <<< 16) k =
      if k < 2 then byte lo k else byte hi (k - 2) := by
  ext i h
  rw [getElem_byte, BitVec.getLsbD_or, BitVec.getLsbD_setWidth, BitVec.getLsbD_shiftLeft,
    BitVec.getLsbD_setWidth, decide_eq_true (by omega), Bool.true_and]
  split_ifs
  · rw [getElem_byte, decide_eq_true (by omega), decide_eq_true (by omega)]
    simp
  · rw [getElem_byte, BitVec.getLsbD_of_ge _ _ (by omega), decide_eq_false (by omega),
      decide_eq_true (by omega)]
    simp only [Bool.not_false, Bool.true_and, Bool.false_or]
    congr 1
    omega

/-- Two halfwords with the same bytes. -/
theorem ext_byte16 {x y : BitVec 16} (h : ∀ k < 2, byte x k = byte y k) : x = y := by
  ext i hi
  have hbyte := congrArg (fun b : BitVec 8 => b.getLsbD (i % 8)) (h (i / 8) (by omega))
  have hlt : i % 8 < 8 := Nat.mod_lt _ (by decide)
  simpa only [BitVec.getLsbD_eq_getElem hlt, getElem_byte, Nat.div_add_mod,
    BitVec.getLsbD_eq_getElem hi] using hbyte

theorem byte_extractLsb' (x : BitVec 32) (h : ℕ) {k : ℕ} (hk : k < 2) :
    byte (x.extractLsb' (16 * h) 16) k = byte x (2 * h + k) := by
  ext i hi
  rw [getElem_byte, getElem_byte, BitVec.getLsbD_extractLsb', decide_eq_true (by omega),
    Bool.true_and]
  congr 1
  omega

/-- The halves of a word of memory are halfwords of memory. -/
theorem extractLsb'_word32 (m : ℕ → BitVec 8) (i h : ℕ) (hh : h < 2) :
    (word32 m i).extractLsb' (16 * h) 16 = word16 m (2 * i + h) := by
  refine ext_byte16 fun k hk => ?_
  rw [byte_extractLsb' _ _ hk, byte_word32 _ _ (by omega), byte_word16 _ _ hk]
  congr 1
  omega

/-- The lower nibble of a byte. -/
def lo4 (b : BitVec 8) : BitVec 8 := b &&& 0x0F

/-- The upper nibble of a byte. -/
def hi4 (b : BitVec 8) : BitVec 8 := b >>> 4

theorem byte_and_nibbles (x : BitVec 32) {k : ℕ} (hk : k < 4) :
    byte (x &&& 0x0F0F0F0F) k = lo4 (byte x k) := by
  have hmask : byte (0x0F0F0F0F : BitVec 32) k = 0x0F := by
    interval_cases k <;> decide
  rw [lo4, ← hmask]
  ext i hi
  simp [getElem_byte]

theorem byte_shift_nibbles (x : BitVec 32) {k : ℕ} (hk : k < 4) :
    byte (x.sshiftRight 4 &&& 0x0F0F0F0F) k = hi4 (byte x k) := by
  rw [byte_and_nibbles _ hk]
  ext i hi
  simp only [lo4, hi4, BitVec.getElem_and, getElem_byte, BitVec.getLsbD_sshiftRight,
    BitVec.getElem_ushiftRight]
  interval_cases i <;> interval_cases k <;> simp [byte]

theorem toInt_lo4 (b : BitVec 8) : (lo4 b).toInt = ((b.toNat % 16 : ℕ) : ℤ) := by
  revert b
  decide

theorem toInt_hi4 (b : BitVec 8) : (hi4 b).toInt = ((b.toNat / 16 : ℕ) : ℤ) := by
  revert b
  decide

/-! ## Dot products -/

theorem dp4a_ofInt (a b : BitVec 32) (z : ℤ) : dp4a a b (BitVec.ofInt 32 z) =
    BitVec.ofInt 32 (z + ∑ k ∈ Finset.range 4, (byte a k).toInt * (byte b k).toInt) := by
  rw [dp4a, ← BitVec.ofInt_add]

/-- Rounds that each add to a number add up. -/
theorem foldl_ofInt {n : ℕ} {op : ℕ → BitVec 32 → BitVec 32} {g : ℕ → ℤ}
    (h : ∀ i < n, ∀ z, op i (BitVec.ofInt 32 z) = BitVec.ofInt 32 (z + g i)) :
    (List.range n).foldl (fun s i => op i s) 0 = BitVec.ofInt 32 (∑ i ∈ Finset.range n, g i) := by
  induction n with
  | zero => rfl
  | succ n ih =>
    rw [List.range_succ, List.foldl_append, ih fun i hi => h i (by omega), List.foldl_cons,
      List.foldl_nil, h n (by omega), Finset.sum_range_succ]

/-- A number that fits is not changed by wrapping around. -/
theorem toInt_ofInt_of_abs_lt {z : ℤ} (h : |z| < 2 ^ 31) : (BitVec.ofInt 32 z).toInt = z := by
  obtain ⟨hlo, hhi⟩ := abs_lt.mp h
  rw [BitVec.toInt_ofInt]
  exact Int.bmod_eq_of_le (by omega) (by omega)

/-- Products of nibbles and signed bytes stay far below the limits. -/
theorem abs_sum_mul_le {n : ℕ} {x y : ℕ → ℤ} {a b : ℤ} (ha : 0 ≤ a) (hx : ∀ e < n, |x e| ≤ a)
    (hy : ∀ e < n, |y e| ≤ b) : |∑ e ∈ Finset.range n, x e * y e| ≤ n * (a * b) := by
  calc |∑ e ∈ Finset.range n, x e * y e|
      ≤ ∑ e ∈ Finset.range n, |x e * y e| := Finset.abs_sum_le_sum_abs _ _
    _ ≤ ∑ _e ∈ Finset.range n, a * b := by
      refine Finset.sum_le_sum fun e he => ?_
      have hlt := Finset.mem_range.mp he
      rw [abs_mul]
      exact mul_le_mul (hx e hlt) (hy e hlt) (abs_nonneg _) ha
    _ = n * (a * b) := by rw [Finset.sum_const, Finset.card_range, nsmul_eq_mul]

theorem abs_toInt_le (b : BitVec 8) : |b.toInt| ≤ 128 := by
  revert b
  decide

end Words
