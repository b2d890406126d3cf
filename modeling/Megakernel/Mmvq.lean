import Mathlib.Algebra.Order.Ring.Rat
import Mathlib.Tactic.Ring
import Megakernel.Launch
import Megakernel.Words

/-!
# Q4_0 dot products

OP_MMVQ_Q4_0 and OP_MMVQ_Q4_0_FUSED of `k0/ops/gemv.cuh` in exact arithmetic:
integers are exact, and the floating-point operations are those of a commutative
ring. The weights are bytes. What a half-precision pattern means is a parameter, and
so is the type of the words of the q8_1 stream, of which the kernels read word 0 of a
block as two halves and the other words as four bytes each (`View`).

The lanes of a warp walk pairs of 18-byte blocks as nine words, and what does not fill
a round of 32 pairs block by block. Both paths add the term of the plain reference
for every block they consume (`pairBlock_eq`, `tailBlock_eq`), the lanes consume every
block of the row once (`laneBlocks_perm`), and the warps every row of the range
(`Launch.share_perm`). Together this is `mmvq_q40_correct`.

Decoding and summing are kept apart. What the words of a path say is stated once (`DecodesQ40`), and
from there on both paths are sums over the elements of a block; that integer sums do not leave 32
bits is a lemma about the sizes of nibbles and bytes.
-/

namespace Megakernel.Gemv

open Loops Warps Words List

/-! ## The data -/

/-- How the words of a q8_1 stream are read: word 0 of a block as two halves, the others as four
bytes. The same stream may then be one of plain words or of what a quantiser has stored exactly. -/
structure View (W R : Type*) : Type _ where
  /-- `half_lo` -/
  lo : W → R
  /-- `half_hi` -/
  hi : W → R
  /-- the packed bytes -/
  bits : W → BitVec 32

variable {W R : Type*}

/-- `half_lo` -/
def halfLo (half : BitVec 16 → R) (v : BitVec 32) : R := half (v.extractLsb' 0 16)

/-- `half_hi` -/
def halfHi (half : BitVec 16 → R) (v : BitVec 32) : R := half (v.extractLsb' 16 16)

/-- A stream of plain words. -/
def View.ofHalf (half : BitVec 16 → R) : View (BitVec 32) R := ⟨halfLo half, halfHi half, id⟩

/-- `block_q4_0`: the scale as a half-precision pattern, and 16 bytes with two nibbles each. -/
structure BlockQ40 : Type where
  d : BitVec 16
  qs : ℕ → BitVec 8

/-- Block `kb` of packed 18-byte blocks. -/
def blockQ40 (w : ℕ → BitVec 8) (kb : ℕ) : BlockQ40 where
  d := w (18 * kb + 1) ++ w (18 * kb)
  qs j := w (18 * kb + 2 + j)

/-- The nibble of element `e`: the low nibbles are the first half of the block. -/
def BlockQ40.nib (b : BlockQ40) (e : ℕ) : BitVec 8 :=
  if e < 16 then lo4 (b.qs e) else hi4 (b.qs (e - 16))

/-- `block_q8_1`: the scale and the sum of the elements, and 32 signed bytes. -/
structure BlockQ81 (R : Type*) : Type _ where
  d : R
  s : R
  qs : ℕ → ℤ

/-- Block `kb` of a stream of words. -/
def blockQ81 (view : View W R) (y : ℕ → W) (kb : ℕ) : BlockQ81 R where
  d := view.lo (y (9 * kb))
  s := view.hi (y (9 * kb))
  qs e := (byte (view.bits (y (9 * kb + 1 + e / 4))) (e % 4)).toInt

/-- The integer dot product of a block. -/
def sumi (b : BlockQ40) (y : BlockQ81 R) : ℤ := ∑ e ∈ Finset.range 32, (b.nib e).toInt * y.qs e

/-! ## The ops -/

/-- Four low and four high nibbles of a word against the quants of both halves. -/
def nibbleDot (v qlo qhi s : BitVec 32) : BitVec 32 :=
  dp4a (v.sshiftRight 4 &&& 0x0F0F0F0F) qhi (dp4a (v &&& 0x0F0F0F0F) qlo s)

/-- `v0` of a pair: the nibbles of the first block, which lie across the words. -/
def pairV0 (wRow : ℕ → BitVec 8) (p i : ℕ) : BitVec 32 :=
  funnelshiftR (word32 wRow (p * 9 + i)) (word32 wRow (p * 9 + (i + 1))) 16

/-- `v1` of a pair: the nibbles of the second block. -/
def pairV1 (wRow : ℕ → BitVec 8) (p i : ℕ) : BitVec 32 := word32 wRow (p * 9 + (5 + i))

/-- `v` of a block of the tail, put together from halfwords. -/
def tailV (wRow : ℕ → BitVec 8) (kb i : ℕ) : BitVec 32 :=
  (word16 wRow (kb * 9 + (1 + 2 * i))).setWidth 32 |||
    (word16 wRow (kb * 9 + (2 + 2 * i))).setWidth 32 <<< 16

section Ops

variable [CommRing R] (half : BitVec 16 → R) (view : View W R)

/-- The contribution of a block: `fmaf(d4, fmaf((float)sumi, d8, -8*s8), acc)`. The offset 8 of the
nibbles is taken off once for the whole block, by way of the sum. -/
def foldBlock (d4 : R) (s : BitVec 32) (ds : W) (acc : R) : R :=
  d4 * ((s.toInt : R) * view.lo ds + -8 * view.hi ds) + acc

/-- The paired path of `mmvq_q40_row`: two blocks as nine words. The first block ends in the middle
of the fifth word, so that its nibbles lie across the words. -/
def pairBlock (wRow : ℕ → BitVec 8) (ys : ℕ → W) (acc : R) (p : ℕ) : R :=
  let wv := fun i => word32 wRow (p * 9 + i)
  let q0 := fun i => ys (2 * p * 9 + i)
  let q1 := fun i => q0 (9 + i)
  let s := (range 4).foldl (fun (s : BitVec 32 × BitVec 32) i =>
    (nibbleDot (pairV0 wRow p i) (view.bits (q0 (1 + i))) (view.bits (q0 (5 + i))) s.1,
      nibbleDot (pairV1 wRow p i) (view.bits (q1 (1 + i))) (view.bits (q1 (5 + i))) s.2)) (0, 0)
  foldBlock view (halfHi half (wv 4)) s.2 (q1 0)
    (foldBlock view (halfLo half (wv 0)) s.1 (q0 0) acc)

/-- The tail path of `mmvq_q40_row`: one block as nine halfwords, since a single block need not
begin at a word. -/
def tailBlock (wRow : ℕ → BitVec 8) (ys : ℕ → W) (acc : R) (kb : ℕ) : R :=
  let qb := fun i => ys (kb * 9 + i)
  let s := (range 4).foldl (fun (s : BitVec 32) i =>
    nibbleDot (tailV wRow kb i) (view.bits (qb (1 + i))) (view.bits (qb (5 + i))) s) 0
  foldBlock view (half (word16 wRow (kb * 9 + 0))) s (qb 0) acc

/-- `mmvq_q40_row`: what a lane has accumulated before the sum over the warp, by the pairs of its
rounds and then the blocks of the tail. -/
def mmvqQ40Row (wRow : ℕ → BitVec 8) (ys : ℕ → W) (npairFull nblk lane : ℕ) : R :=
  let acc := (forRange lane npairFull 32).foldl (pairBlock half view wRow ys) 0
  (forRange (2 * npairFull + lane) nblk 32).foldl (tailBlock half view wRow ys) acc

/-- `MmvqQ40Args`, without the pointer to the output. -/
structure MmvqQ40Args (W : Type*) : Type _ where
  w : ℕ → BitVec 8
  y : ℕ → W
  ncols : ℕ
  rowLo : ℕ
  rowHi : ℕ

/-- `op_mmvq_q4_0`: what a warp stores in `dst`, one value for each of its rows. -/
def opMmvqQ40 (I : Launch) (a : MmvqQ40Args W) (smem : ℕ → W) (block warp : ℕ) : List (ℕ × R) :=
  let nblk := a.ncols / 32
  let npair := nblk / 2
  let npairFull := npair / 32 * 32 -- npair & ~31
  let ys := stageWords (I.workers * 32) (nblk * 9) a.y smem
  (I.share a.rowLo a.rowHi block warp).map fun r =>
    let wRow := fun i => a.w (4 * (r * (npair * 9)) + i)
    (r, laneSum (mmvqQ40Row half view wRow ys npairFull nblk) 0)

end Ops

/-- `MmvqQ40FusedArgs`, without the pointer to the output. -/
structure MmvqQ40FusedArgs (W : Type*) : Type _ where
  wUp : ℕ → BitVec 8
  wGate : ℕ → BitVec 8
  y : ℕ → W
  ncols : ℕ
  rowLo : ℕ
  rowHi : ℕ

section Fused

variable [Field R] (expf : R → R) (half : BitVec 16 → R) (view : View W R)

/-- `mk_silu` -/
def mkSilu (x : R) : R := x / (1 + expf (-x))

/-- `op_mmvq_q4_0_fused`: what a warp stores in `dst`. -/
def opMmvqQ40Fused (I : Launch) (a : MmvqQ40FusedArgs W) (smem : ℕ → W) (block warp : ℕ) :
    List (ℕ × R) :=
  let nblk := a.ncols / 32
  let npair := nblk / 2
  let npairFull := npair / 32 * 32
  let ys := stageWords (I.workers * 32) (nblk * 9) a.y smem
  (I.share a.rowLo a.rowHi block warp).map fun r =>
    let upRow := fun i => a.wUp (4 * (r * (npair * 9)) + i)
    let gateRow := fun i => a.wGate (4 * (r * (npair * 9)) + i)
    let up := laneSum (mmvqQ40Row half view upRow ys npairFull nblk) 0
    let gate := laneSum (mmvqQ40Row half view gateRow ys npairFull nblk) 0
    (r, up * mkSilu expf gate)

end Fused

/-! ## The reference -/

section Reference

variable [CommRing R] (half : BitVec 16 → R) (view : View W R)

/-- What a block contributes: `d4 * (d8 * sum(nib * q) - 8 * s8)`. -/
def termQ40 (b : BlockQ40) (y : BlockQ81 R) : R := half b.d * (y.d * (sumi b y : R) - 8 * y.s)

/-- The dot product of row `r` with the stream. -/
def refQ40 (w : ℕ → BitVec 8) (y : ℕ → W) (ncols r : ℕ) : R :=
  ∑ kb ∈ Finset.range (ncols / 32),
    termQ40 half (blockQ40 w (r * (ncols / 32) + kb)) (blockQ81 view y kb)

end Reference

/-! ## The integer part of a block -/

theorem nibbleDot_ofInt (v qlo qhi : BitVec 32) (z : ℤ) :
    nibbleDot v qlo qhi (BitVec.ofInt 32 z) = BitVec.ofInt 32 (z +
      (∑ k ∈ Finset.range 4, (lo4 (byte v k)).toInt * (byte qlo k).toInt +
        ∑ k ∈ Finset.range 4, (hi4 (byte v k)).toInt * (byte qhi k).toInt)) := by
  have hlo : ∑ k ∈ Finset.range 4, (byte (v &&& 0x0F0F0F0F) k).toInt * (byte qlo k).toInt =
      ∑ k ∈ Finset.range 4, (lo4 (byte v k)).toInt * (byte qlo k).toInt :=
    Finset.sum_congr rfl fun k hk => by rw [byte_and_nibbles v (Finset.mem_range.mp hk)]
  have hhi : ∑ k ∈ Finset.range 4,
        (byte (v.sshiftRight 4 &&& 0x0F0F0F0F) k).toInt * (byte qhi k).toInt =
      ∑ k ∈ Finset.range 4, (hi4 (byte v k)).toInt * (byte qhi k).toInt :=
    Finset.sum_congr rfl fun k hk => by rw [byte_shift_nibbles v (Finset.mem_range.mp hk)]
  rw [nibbleDot, dp4a_ofInt, dp4a_ofInt, hlo, hhi, add_assoc]

/-- The elements of a block, four low and four high nibbles at a time. -/
theorem sum_quads (f : ℕ → ℤ) : ∑ e ∈ Finset.range 32, f e = ∑ i ∈ Finset.range 4,
    (∑ k ∈ Finset.range 4, f (4 * i + k) + ∑ k ∈ Finset.range 4, f (16 + 4 * i + k)) := by
  simp only [Finset.sum_range_succ, Finset.sum_range_zero]
  ring

theorem toInt_nib_nonneg (b : BlockQ40) (e : ℕ) : 0 ≤ (b.nib e).toInt := by
  rw [BlockQ40.nib]
  split
  · rw [toInt_lo4]
    exact Int.natCast_nonneg _
  · rw [toInt_hi4]
    exact Int.natCast_nonneg _

theorem abs_toInt_nib_le (b : BlockQ40) (e : ℕ) : |(b.nib e).toInt| ≤ 15 := by
  rw [BlockQ40.nib]
  split
  · rw [toInt_lo4, Nat.abs_cast]
    have := Nat.mod_lt (b.qs e).toNat (by decide : 0 < 16)
    omega
  · rw [toInt_hi4, Nat.abs_cast]
    have := (b.qs (e - 16)).isLt
    omega

/-- The sum of a block fits the accumulator. -/
theorem abs_sumi_lt (b : BlockQ40) {y : BlockQ81 R} (hy : ∀ e, |y.qs e| ≤ 128) :
    |sumi b y| < 2 ^ 31 := by
  have h := abs_sum_mul_le (n := 32) (by decide) (fun e _ => abs_toInt_nib_le b e) fun e _ => hy e
  exact lt_of_le_of_lt h (by decide)

/-- The rounds over a block: `v` holds its nibbles in order, `qlo` and `qhi` the quants. -/
theorem foldl_nibbleDot {b : BlockQ40} {v qlo qhi : ℕ → BitVec 32} {y : BlockQ81 R}
    (hv : ∀ i < 4, ∀ k < 4, byte (v i) k = b.qs (4 * i + k))
    (hlo : ∀ i < 4, ∀ k < 4, (byte (qlo i) k).toInt = y.qs (4 * i + k))
    (hhi : ∀ i < 4, ∀ k < 4, (byte (qhi i) k).toInt = y.qs (16 + 4 * i + k)) :
    (range 4).foldl (fun s i => nibbleDot (v i) (qlo i) (qhi i) s) 0 =
      BitVec.ofInt 32 (sumi b y) := by
  rw [sumi, sum_quads]
  refine foldl_ofInt fun i hi z => ?_
  rw [nibbleDot_ofInt]
  congr 2
  refine congrArg₂ (· + ·) ?_ ?_
  · refine Finset.sum_congr rfl fun k hk => ?_
    have hk4 := Finset.mem_range.mp hk
    rw [hv i hi k hk4, hlo i hi k hk4, BlockQ40.nib, if_pos (by omega)]
  · refine Finset.sum_congr rfl fun k hk => ?_
    have hk4 := Finset.mem_range.mp hk
    have hidx : 16 + 4 * i + k - 16 = 4 * i + k := by omega
    rw [hv i hi k hk4, hhi i hi k hk4, BlockQ40.nib, if_neg (by omega), hidx]

/-- Two accumulators side by side. -/
theorem foldl_pair {α β ι : Type*} {f : α → ι → α} {g : β → ι → β} {l : List ι} {a x : α} {b y : β}
    (hf : l.foldl f a = x) (hg : l.foldl g b = y) :
    l.foldl (fun s i => (f s.1 i, g s.2 i)) (a, b) = (x, y) := by
  subst hf hg
  induction l generalizing a b with
  | nil => rfl
  | cons i l ih => exact ih

/-! ## The paths -/

section Paths

variable (half : BitVec 16 → R) (view : View W R) (wRow : ℕ → BitVec 8) (ys : ℕ → W)

theorem abs_qs_le (kb e : ℕ) : |(blockQ81 view ys kb).qs e| ≤ 128 := abs_toInt_le _

/-- The quants of a block of the stream, word by word. -/
theorem qs_blockQ81 {kb j e k : ℕ} (he : e % 4 = k) (hj : j = 9 * kb + 1 + e / 4) :
    (byte (view.bits (ys j)) k).toInt = (blockQ81 view ys kb).qs e := by
  subst he hj
  rfl

theorem byte_pairV0 (p i : ℕ) {k : ℕ} (hk : k < 4) :
    byte (pairV0 wRow p i) k = (blockQ40 wRow (2 * p)).qs (4 * i + k) := by
  rw [pairV0, byte_funnelshiftR _ _ hk, blockQ40]
  split
  · rw [byte_word32 _ _ (by omega)]
    congr 1
    omega
  · rw [byte_word32 _ _ (by omega)]
    congr 1
    omega

theorem byte_pairV1 (p i : ℕ) {k : ℕ} (hk : k < 4) :
    byte (pairV1 wRow p i) k = (blockQ40 wRow (2 * p + 1)).qs (4 * i + k) := by
  rw [pairV1, byte_word32 _ _ hk, blockQ40]
  congr 1
  omega

theorem byte_tailV (kb i : ℕ) {k : ℕ} (hk : k < 4) :
    byte (tailV wRow kb i) k = (blockQ40 wRow kb).qs (4 * i + k) := by
  rw [tailV, byte_or_halfwords _ _ hk, blockQ40]
  split
  · rw [byte_word16 _ _ (by omega)]
    congr 1
    omega
  · rw [byte_word16 _ _ (by omega)]
    congr 1
    omega

/-- The scale of the first block is the lower half of the first word. -/
theorem halfLo_pair (p : ℕ) :
    halfLo half (word32 wRow (p * 9 + 0)) = half (blockQ40 wRow (2 * p)).d := by
  have h : (word32 wRow (p * 9 + 0)).extractLsb' 0 16 = word16 wRow (2 * (p * 9) + 0) :=
    extractLsb'_word32 wRow (p * 9) 0 (by decide)
  rw [halfLo, h, word16, blockQ40]
  congr 2 <;> congr 1 <;> omega

/-- The scale of the second block is the upper half of the fifth word. -/
theorem halfHi_pair (p : ℕ) :
    halfHi half (word32 wRow (p * 9 + 4)) = half (blockQ40 wRow (2 * p + 1)).d := by
  have h : (word32 wRow (p * 9 + 4)).extractLsb' 16 16 = word16 wRow (2 * (p * 9 + 4) + 1) :=
    extractLsb'_word32 wRow (p * 9 + 4) 1 (by decide)
  rw [halfHi, h, word16, blockQ40]
  congr 2 <;> congr 1 <;> omega

/-- The scale of a single block is its first halfword. -/
theorem word16_tail (kb : ℕ) : word16 wRow (kb * 9 + 0) = (blockQ40 wRow kb).d := by
  rw [word16, blockQ40]
  congr 1 <;> congr 1 <;> omega

/-- The words of the two paths say what the packed blocks say. All that is needed of shifts and
masks is in this statement, and the sums do not look at words again. -/
structure DecodesQ40 : Prop where
  pairScale : ∀ p, halfLo half (word32 wRow (p * 9 + 0)) = half (blockQ40 wRow (2 * p)).d ∧
    halfHi half (word32 wRow (p * 9 + 4)) = half (blockQ40 wRow (2 * p + 1)).d
  tailScale : ∀ kb, half (word16 wRow (kb * 9 + 0)) = half (blockQ40 wRow kb).d
  pairFirst : ∀ p, ∀ i < 4, ∀ k < 4,
    byte (pairV0 wRow p i &&& 0x0F0F0F0F) k = (blockQ40 wRow (2 * p)).nib (4 * i + k) ∧
      byte ((pairV0 wRow p i).sshiftRight 4 &&& 0x0F0F0F0F) k =
        (blockQ40 wRow (2 * p)).nib (16 + 4 * i + k)
  pairSecond : ∀ p, ∀ i < 4, ∀ k < 4,
    byte (pairV1 wRow p i &&& 0x0F0F0F0F) k = (blockQ40 wRow (2 * p + 1)).nib (4 * i + k) ∧
      byte ((pairV1 wRow p i).sshiftRight 4 &&& 0x0F0F0F0F) k =
        (blockQ40 wRow (2 * p + 1)).nib (16 + 4 * i + k)
  tail : ∀ kb, ∀ i < 4, ∀ k < 4,
    byte (tailV wRow kb i &&& 0x0F0F0F0F) k = (blockQ40 wRow kb).nib (4 * i + k) ∧
      byte ((tailV wRow kb i).sshiftRight 4 &&& 0x0F0F0F0F) k =
        (blockQ40 wRow kb).nib (16 + 4 * i + k)

/-- A word with the right bytes decodes to the right nibbles. -/
theorem nibbles_of_bytes {b : BlockQ40} {v : BitVec 32} {i : ℕ} (hi : i < 4)
    (hv : ∀ k < 4, byte v k = b.qs (4 * i + k)) {k : ℕ} (hk : k < 4) :
    byte (v &&& 0x0F0F0F0F) k = b.nib (4 * i + k) ∧
      byte (v.sshiftRight 4 &&& 0x0F0F0F0F) k = b.nib (16 + 4 * i + k) := by
  have hidx : 16 + 4 * i + k - 16 = 4 * i + k := by omega
  rw [byte_and_nibbles _ hk, byte_shift_nibbles _ hk, hv k hk, BlockQ40.nib, BlockQ40.nib,
    if_pos (by omega), if_neg (by omega), hidx]
  exact ⟨rfl, rfl⟩

theorem decodesQ40 : DecodesQ40 half wRow where
  pairScale p := ⟨halfLo_pair half wRow p, halfHi_pair half wRow p⟩
  tailScale kb := congrArg half (word16_tail wRow kb)
  pairFirst p i hi _ := nibbles_of_bytes hi fun _ => byte_pairV0 wRow p i
  pairSecond p i hi _ := nibbles_of_bytes hi fun _ => byte_pairV1 wRow p i
  tail kb i hi _ := nibbles_of_bytes hi fun _ => byte_tailV wRow kb i

variable [CommRing R]

/-- With the right integer sum, a block contributes the term of the reference. -/
theorem foldBlock_eq (b : BlockQ40) (kb : ℕ) (acc : R) :
    foldBlock view (half b.d) (BitVec.ofInt 32 (sumi b (blockQ81 view ys kb))) (ys (9 * kb)) acc =
      acc + termQ40 half b (blockQ81 view ys kb) := by
  rw [foldBlock, toInt_ofInt_of_abs_lt (abs_sumi_lt b (abs_qs_le view ys kb)), termQ40]
  simp only [blockQ81]
  ring

/-- **The paired path** adds the terms of both blocks. -/
theorem pairBlock_eq (acc : R) (p : ℕ) : pairBlock half view wRow ys acc p =
    acc + termQ40 half (blockQ40 wRow (2 * p)) (blockQ81 view ys (2 * p)) +
      termQ40 half (blockQ40 wRow (2 * p + 1)) (blockQ81 view ys (2 * p + 1)) := by
  have hfirst := foldl_nibbleDot (y := blockQ81 view ys (2 * p))
    (fun i _ _ => byte_pairV0 wRow p i)
    (fun i _ k _ => qs_blockQ81 view ys (j := 2 * p * 9 + (1 + i)) (by omega) (by omega))
    (fun i _ k _ => qs_blockQ81 view ys (j := 2 * p * 9 + (5 + i)) (by omega) (by omega))
  have hsecond := foldl_nibbleDot (y := blockQ81 view ys (2 * p + 1))
    (fun i _ _ => byte_pairV1 wRow p i)
    (fun i _ k _ => qs_blockQ81 view ys (j := 2 * p * 9 + (9 + (1 + i))) (by omega) (by omega))
    (fun i _ k _ => qs_blockQ81 view ys (j := 2 * p * 9 + (9 + (5 + i))) (by omega) (by omega))
  have hds0 : 2 * p * 9 + 0 = 9 * (2 * p) := by omega
  have hds1 : 2 * p * 9 + (9 + 0) = 9 * (2 * p + 1) := by omega
  simp only [pairBlock]
  rw [foldl_pair hfirst hsecond, halfLo_pair, halfHi_pair, hds0, hds1, foldBlock_eq, foldBlock_eq]

/-- **The tail path** adds the term of its block. -/
theorem tailBlock_eq (acc : R) (kb : ℕ) : tailBlock half view wRow ys acc kb =
    acc + termQ40 half (blockQ40 wRow kb) (blockQ81 view ys kb) := by
  have hsum := foldl_nibbleDot (y := blockQ81 view ys kb)
    (fun i _ _ => byte_tailV wRow kb i)
    (fun i _ k _ => qs_blockQ81 view ys (j := kb * 9 + (1 + i)) (by omega) (by omega))
    (fun i _ k _ => qs_blockQ81 view ys (j := kb * 9 + (5 + i)) (by omega) (by omega))
  have hds : kb * 9 + 0 = 9 * kb := by omega
  simp only [tailBlock]
  rw [hsum, word16_tail, hds, foldBlock_eq]

end Paths

/-! ## Rows -/

/-- The blocks that a lane consumes, in its order: those of its pairs, and one of the tail in each
round. -/
def laneBlocks (npairFull nblk lane : ℕ) : List ℕ :=
  (forRange lane npairFull 32).flatMap (fun p => [2 * p, 2 * p + 1]) ++
    forRange (2 * npairFull + lane) nblk 32

/-- **Each block of a row is consumed once.** -/
theorem laneBlocks_perm {npairFull nblk : ℕ} (h : 2 * npairFull ≤ nblk) :
    ((range 32).flatMap (laneBlocks npairFull nblk)).Perm (range nblk) := by
  have hpairs : ((range 32).flatMap fun lane =>
      (forRange lane npairFull 32).flatMap fun p => [2 * p, 2 * p + 1]).Perm
        (range (2 * npairFull)) := by
    have hshare := flatMap_forRange_perm 0 npairFull (by decide : 0 < 32)
    have hblocks := flatMap_blocks (fun kb => [kb]) npairFull 2
    simp only [Nat.zero_add, Nat.sub_zero, ← range_eq_range'] at hshare
    rw [Nat.mul_comm, flatMap_singleton'] at hblocks
    rw [← flatMap_assoc, ← hblocks]
    refine (hshare.flatMap_right _).trans (Perm.of_eq (flatMap_congr fun p _ => ?_))
    simp [range_succ, Nat.mul_comm]
  have htail := flatMap_forRange_perm (2 * npairFull) nblk (by decide : 0 < 32)
  have hjoin : range (2 * npairFull) ++ range' (2 * npairFull) (nblk - 2 * npairFull) =
    range nblk := by
    have h0 := range'_append_1 (s := 0) (m := 2 * npairFull) (n := nblk - 2 * npairFull)
    rwa [Nat.zero_add, Nat.add_sub_cancel' h, ← range_eq_range', ← range_eq_range'] at h0
  exact (flatMap_append_perm _ _ _).symm.trans (hjoin ▸ hpairs.append htail)

/-- The terms of the blocks of the pairs. -/
theorem sum_map_pairs [AddCommMonoid R] (g : ℕ → R) (l : List ℕ) :
    ((l.flatMap fun p => [2 * p, 2 * p + 1]).map g).sum =
      (l.map fun p => g (2 * p) + g (2 * p + 1)).sum := by
  induction l with
  | nil => rfl
  | cons p l ih =>
    rw [flatMap_cons, map_append, sum_append, ih, map_cons, sum_cons, map_cons, map_cons, map_nil,
      sum_cons, sum_cons, sum_nil, add_zero]

/-- What the lanes add up, the warp adds up. -/
theorem laneSum_blocks [AddCommMonoid R] {npairFull nblk : ℕ} (h : 2 * npairFull ≤ nblk)
    (g : ℕ → R) : laneSum (fun lane => ((laneBlocks npairFull nblk lane).map g).sum) 0 =
      ∑ kb ∈ Finset.range nblk, g kb := by
  rw [laneSum, butterfly_add _ (by decide), sum_lanes, ((laneBlocks_perm h).map g).sum_eq]
  rfl

section Rows

variable [CommRing R] (half : BitVec 16 → R) (view : View W R) (wRow : ℕ → BitVec 8)

/-- A lane adds up the terms of its blocks. -/
theorem mmvqQ40Row_eq (ys : ℕ → W) (npairFull nblk lane : ℕ) :
    mmvqQ40Row half view wRow ys npairFull nblk lane =
      ((laneBlocks npairFull nblk lane).map fun kb =>
      termQ40 half (blockQ40 wRow kb) (blockQ81 view ys kb)).sum := by
  have hpair := foldl_acc (fun acc p => (pairBlock_eq half view wRow ys acc p).trans
    (add_assoc _ _ _))
    (forRange lane npairFull 32) 0
  have htail := foldl_acc (tailBlock_eq half view wRow ys) (forRange (2 * npairFull + lane) nblk 32)
  rw [mmvqQ40Row, hpair, htail, laneBlocks, map_append, sum_append, sum_map_pairs, zero_add]

omit [CommRing R] in
/-- The quants of a block of the stream depend on its words only. -/
theorem qs_congr {y y' : ℕ → W} {kb e : ℕ} (h : ∀ i < 9, y (9 * kb + i) = y' (9 * kb + i))
    (he : e < 32) : (blockQ81 view y kb).qs e = (blockQ81 view y' kb).qs e := by
  have hword := h (1 + e / 4) (by omega)
  rw [← Nat.add_assoc] at hword
  simp only [blockQ81, hword]

/-- A term depends on the words of its block only. -/
theorem termQ40_congr {y y' : ℕ → W} {kb : ℕ} (h : ∀ i < 9, y (9 * kb + i) = y' (9 * kb + i))
    (b : BlockQ40) :
    termQ40 half b (blockQ81 view y kb) = termQ40 half b (blockQ81 view y' kb) := by
  have hsumi : sumi b (blockQ81 view y kb) = sumi b (blockQ81 view y' kb) :=
    Finset.sum_congr rfl fun e he => by rw [qs_congr view h (Finset.mem_range.mp he)]
  have hds := h 0 (by decide)
  rw [Nat.add_zero] at hds
  rw [termQ40, hsumi, termQ40]
  simp only [blockQ81, hds]

/-- The blocks of row `r`. -/
theorem blockQ40_row (w : ℕ → BitVec 8) {npair : ℕ} (r kb : ℕ) :
    blockQ40 (fun i => w (4 * (r * (npair * 9)) + i)) kb = blockQ40 w (r * (2 * npair) + kb) := by
  have hidx : 18 * (r * (2 * npair) + kb) = 4 * (r * (npair * 9)) + 18 * kb := by ring
  simp only [blockQ40, hidx, Nat.add_assoc]

/-- **The sum over the warp is the dot product of the row.** -/
theorem laneSum_mmvqQ40Row {threads ncols : ℕ} (ht : 0 < threads) (hcols : 64 ∣ ncols)
    (w : ℕ → BitVec 8) (y smem : ℕ → W) (r : ℕ) :
    laneSum (mmvqQ40Row half view (fun i => w (4 * (r * (ncols / 32 / 2 * 9)) + i))
      (stageWords threads (ncols / 32 * 9) y smem) (ncols / 32 / 2 / 32 * 32) (ncols / 32)) 0 =
        refQ40 half view w y ncols r := by
  have hnblk : ncols / 32 = 2 * (ncols / 32 / 2) := by omega
  have hfull : 2 * (ncols / 32 / 2 / 32 * 32) ≤ ncols / 32 := by omega
  simp only [funext (mmvqQ40Row_eq half view _ _ _ _)]
  rw [laneSum_blocks hfull, refQ40]
  refine Finset.sum_congr rfl fun kb hkb => ?_
  have hlt := Finset.mem_range.mp hkb
  rw [blockQ40_row, ← hnblk]
  exact termQ40_congr half view (fun i hi => stageWords_apply ht (by omega) y smem) _

end Rows

/-! ## The ops -/

/-- Whatever the order in which the warps store, the rows of the range get their dot products. -/
theorem stores_opMmvqQ40 [CommRing R] (half : BitVec 16 → R) (view : View W R) (I : Launch)
    (a : MmvqQ40Args W) (smem : ℕ → ℕ → W) (ha : 64 ∣ a.ncols) :
    I.Stores (fun block => opMmvqQ40 half view I a (smem block) block) a.rowLo a.rowHi
      (refQ40 half view a.w a.y a.ncols) := by
  have hthreads : 0 < I.workers * 32 := Nat.mul_pos I.workers_pos (by decide)
  refine Launch.stores_of_share fun block warp => map_congr_left fun r _ => ?_
  exact congrArg (r, ·) (laneSum_mmvqQ40Row half view hthreads ha a.w a.y (smem block) r)

section Correct

variable [Field R] (expf : R → R) (half : BitVec 16 → R) (view : View W R) (I : Launch)

/-- **Q4_0 dot products are those of the reference.** Both paths decode the packed blocks; the lanes
of a warp consume every block of a row once; and in whatever order the warps store, every row of the
range gets its dot product once, and nothing else is written. -/
theorem mmvq_q40_correct (a : MmvqQ40Args W) (f : MmvqQ40FusedArgs W) (smem : ℕ → ℕ → W)
    (ha : 64 ∣ a.ncols) (hf : 64 ∣ f.ncols) :
    (∀ wRow, DecodesQ40 half wRow) ∧
    ((range 32).flatMap (laneBlocks (a.ncols / 32 / 2 / 32 * 32) (a.ncols / 32))).Perm
      (range (a.ncols / 32)) ∧
    (∀ wRow ys npairFull nblk lane, mmvqQ40Row half view wRow ys npairFull nblk lane =
      ((laneBlocks npairFull nblk lane).map fun kb =>
        termQ40 half (blockQ40 wRow kb) (blockQ81 view ys kb)).sum) ∧
    I.Stores (fun block => opMmvqQ40 half view I a (smem block) block) a.rowLo a.rowHi
      (refQ40 half view a.w a.y a.ncols) ∧
    I.Stores (fun block => opMmvqQ40Fused expf half view I f (smem block) block) f.rowLo f.rowHi
      (fun r => refQ40 half view f.wUp f.y f.ncols r *
        mkSilu expf (refQ40 half view f.wGate f.y f.ncols r)) := by
  refine ⟨decodesQ40 half, laneBlocks_perm (by omega), mmvqQ40Row_eq half view,
    stores_opMmvqQ40 half view I a smem ha, ?_⟩
  have hthreads : 0 < I.workers * 32 := Nat.mul_pos I.workers_pos (by decide)
  refine Launch.stores_of_share fun block warp => map_congr_left fun r _ => ?_
  exact congrArg₂ (fun up gate => (r, up * mkSilu expf gate))
    (laneSum_mmvqQ40Row half view hthreads hf f.wUp f.y (smem block) r)
    (laneSum_mmvqQ40Row half view hthreads hf f.wGate f.y (smem block) r)

end Correct

/-- One warp and one row of two blocks. -/
theorem mmvq_q40_correct_oneRow :
    64 ∣ 64 ∧
    Launch.Stores ⟨0, 1, 1, by decide, by decide⟩
      (fun block => opMmvqQ40 (fun b => (b.toNat : ℚ)) (.ofHalf fun b => (b.toNat : ℚ))
        ⟨0, 1, 1, by decide, by decide⟩ ⟨fun i => BitVec.ofNat 8 i, fun _ => 0x01020304, 64, 0, 1⟩
        (fun _ => 0) block) 0 1
      (refQ40 (fun b => (b.toNat : ℚ)) (.ofHalf fun b => (b.toNat : ℚ)) (fun i => BitVec.ofNat 8 i)
        (fun _ => 0x01020304) 64) :=
  ⟨by decide, (mmvq_q40_correct id (fun b => (b.toNat : ℚ)) (.ofHalf fun b => (b.toNat : ℚ))
    ⟨0, 1, 1, by decide, by decide⟩
    ⟨fun i => BitVec.ofNat 8 i, fun _ => 0x01020304, 64, 0, 1⟩
    ⟨fun i => BitVec.ofNat 8 i, fun i => BitVec.ofNat 8 i, fun _ => 0x01020304, 64, 0, 1⟩
    (fun _ _ => 0) (by decide) (by decide)).2.2.2.1⟩

end Megakernel.Gemv
