import Megakernel.Mmvq

/-!
# Q4_0_AR16 dot products

OP_MMVQ_AR16 of `k0/ops/gemv.cuh`, in the setting of `Mmvq`. A block of the weights
has 16 elements, two to a byte, and a block of the activations 32; the offset of the
nibbles is taken off when they are unpacked. The two byte permutations undo the
interleaving (`toInt_unpack_fst`, `toInt_unpack_snd`), a pair of blocks goes with one
block of the activations and a single block with the half that its parity says, and
the rest is as for Q4_0 (`mmvq_ar16_correct`).

A block of activations belongs to two blocks of weights. In the paired path both are consumed
together, and in the tail the parity of the block says which half is meant.
-/

namespace Megakernel.Gemv

open Loops Warps Words List

variable {W R : Type*}

/-! ## The data -/

/-- `block_q4_0_ar16`: the scale as a half-precision pattern, and 8 bytes with two nibbles each. -/
structure BlockAr16 : Type where
  d : BitVec 16
  qs : ℕ → BitVec 8

/-- Block `kb` of packed 10-byte blocks. -/
def blockAr16 (w : ℕ → BitVec 8) (kb : ℕ) : BlockAr16 where
  d := w (10 * kb + 1) ++ w (10 * kb)
  qs j := w (10 * kb + 2 + j)

/-- The nibble of element `e`: two neighbours share a byte. -/
def BlockAr16.nib (b : BlockAr16) (e : ℕ) : BitVec 8 :=
  if e % 2 = 0 then lo4 (b.qs (e / 2)) else hi4 (b.qs (e / 2))

/-- The integer dot product of a block with its half of the quants. -/
def sumiAr16 (b : BlockAr16) (y : BlockQ81 R) (parity : ℕ) : ℤ :=
  ∑ e ∈ Finset.range 16, ((b.nib e).toInt - 8) * y.qs (16 * parity + e)

/-! ## The op -/

/-- `mk_unpack_ar16`: eight nibbles of a word as two words of signed bytes, in the order of the
columns and with the offset taken off. -/
def mkUnpackAr16 (q : BitVec 32) : BitVec 32 × BitVec 32 :=
  let lo := q.sshiftRight 0 &&& 0x0F0F0F0F
  let hi := q.sshiftRight 4 &&& 0x0F0F0F0F
  (vsubss4 (bytePerm lo hi 0x5140) 0x08080808, vsubss4 (bytePerm lo hi 0x7362) 0x08080808)

/-- Eight unpacked weights against eight quants. -/
def unpackDot (q qlo qhi s : BitVec 32) : BitVec 32 :=
  dp4a (mkUnpackAr16 q).2 qhi (dp4a (mkUnpackAr16 q).1 qlo s)

section Ops

variable [CommRing R] (half : BitVec 16 → R) (view : View W R)

/-- The paired path of `mmvq_ar16_row`: two blocks as five words. Together they go with one block of
the activations. -/
def pairBlockAr16 (wRow : ℕ → BitVec 8) (ys : ℕ → W) (acc : R) (p : ℕ) : R :=
  let wv := fun i => word32 wRow (p * 5 + i)
  let q8 := fun i => ys (p * 9 + i)
  let s0 := unpackDot (funnelshiftR (wv 0) (wv 1) 16) (view.bits (q8 1)) (view.bits (q8 2)) 0
  let s0 := unpackDot (funnelshiftR (wv 1) (wv 2) 16) (view.bits (q8 3)) (view.bits (q8 4)) s0
  let s1 := unpackDot (wv 3) (view.bits (q8 5)) (view.bits (q8 6)) 0
  let s1 := unpackDot (wv 4) (view.bits (q8 7)) (view.bits (q8 8)) s1
  let t := halfHi half (wv 2) * (s1.toInt : R) + halfLo half (wv 0) * (s0.toInt : R)
  view.lo (q8 0) * t + acc

/-- `q` of a block of the tail, put together from halfwords. -/
def tailQ (wRow : ℕ → BitVec 8) (kb i : ℕ) : BitVec 32 :=
  (word16 wRow (kb * 5 + (1 + 2 * i))).setWidth 32 |||
    (word16 wRow (kb * 5 + (2 + 2 * i))).setWidth 32 <<< 16

/-- The tail path of `mmvq_ar16_row`: one block as five halfwords. Its parity says which half of the
activations' block it goes with. -/
def tailBlockAr16 (wRow : ℕ → BitVec 8) (ys : ℕ → W) (acc : R) (kb : ℕ) : R :=
  let qb := fun i => ys (kb / 2 * 9 + i)
  let i8 := 1 + 4 * (kb % 2)
  let s := (range 2).foldl (fun (s : BitVec 32) i =>
    unpackDot (tailQ wRow kb i) (view.bits (qb (i8 + 2 * i + 0)))
      (view.bits (qb (i8 + 2 * i + 1))) s) 0
  half (word16 wRow (kb * 5 + 0)) * view.lo (qb 0) * (s.toInt : R) + acc

/-- `mmvq_ar16_row` -/
def mmvqAr16Row (wRow : ℕ → BitVec 8) (ys : ℕ → W) (npairFull nblk lane : ℕ) : R :=
  let acc := (forRange lane npairFull 32).foldl (pairBlockAr16 half view wRow ys) 0
  (forRange (2 * npairFull + lane) nblk 32).foldl (tailBlockAr16 half view wRow ys) acc

/-- `MmvqAr16Args`, without the pointer to the output. -/
structure MmvqAr16Args (W : Type*) : Type _ where
  w : ℕ → BitVec 8
  y : ℕ → W
  ncols : ℕ
  rowLo : ℕ
  rowHi : ℕ

/-- `op_mmvq_ar16`: what a warp stores in `dst`. -/
def opMmvqAr16 (I : Launch) (a : MmvqAr16Args W) (smem : ℕ → W) (block warp : ℕ) : List (ℕ × R) :=
  let nblk := a.ncols / 16
  let npair := nblk / 2
  let npairFull := npair / 32 * 32 -- npair & ~31
  let ys := stageWords (I.workers * 32) (a.ncols / 32 * 9) a.y smem
  (I.share a.rowLo a.rowHi block warp).map fun r =>
    let wRow := fun i => a.w (4 * (r * (npair * 5)) + i)
    (r, laneSum (mmvqAr16Row half view wRow ys npairFull nblk) 0)

/-! ## The reference -/

/-- What block `kb` of the weights contributes. -/
def termAr16 (b : BlockAr16) (y : BlockQ81 R) (parity : ℕ) : R :=
  half b.d * y.d * (sumiAr16 b y parity : R)

/-- The dot product of row `r` with the stream. -/
def refAr16 (w : ℕ → BitVec 8) (y : ℕ → W) (ncols r : ℕ) : R :=
  ∑ kb ∈ Finset.range (ncols / 16),
    termAr16 half (blockAr16 w (r * (ncols / 16) + kb)) (blockQ81 view y (kb / 2)) (kb % 2)

end Ops

/-! ## Unpacking -/

/-- Element `e` of eight packed nibbles. -/
def elem (q : BitVec 32) (e : ℕ) : BitVec 8 :=
  if e % 2 = 0 then lo4 (byte q (e / 2)) else hi4 (byte q (e / 2))

theorem toInt_elem_bounds (q : BitVec 32) (e : ℕ) :
    0 ≤ (elem q e).toInt ∧ (elem q e).toInt ≤ 15 := by
  rw [elem]
  split
  · rw [toInt_lo4]
    omega
  · rw [toInt_hi4]
    have := (byte q (e / 2)).isLt
    omega

theorem byte_eights {k : ℕ} (hk : k < 4) : (byte (0x08080808 : BitVec 32) k).toInt = 8 := by
  interval_cases k <;> decide

/-- Taking the offset off a nibble saturates nothing. -/
theorem toInt_vsubss4 {x q : BitVec 32} {k e : ℕ} (hk : k < 4) (hx : byte x k = elem q e) :
    (byte (vsubss4 x 0x08080808) k).toInt = (elem q e).toInt - 8 := by
  obtain ⟨hlo, hhi⟩ := toInt_elem_bounds q e
  rw [vsubss4, byte_ofBytes _ hk, byte_eights hk, hx, min_eq_right (by omega),
    max_eq_right (by omega), BitVec.toInt_ofInt]
  exact Int.bmod_eq_of_le (by omega) (by omega)

/-- The selector 0x5140 gathers elements 0 to 3. -/
theorem byte_perm_5140 (q : BitVec 32) {k : ℕ} (hk : k < 4) :
    byte (bytePerm (q.sshiftRight 0 &&& 0x0F0F0F0F) (q.sshiftRight 4 &&& 0x0F0F0F0F) 0x5140) k =
      elem q k := by
  rw [BitVec.sshiftRight_zero, bytePerm, byte_ofBytes _ hk]
  interval_cases k
  · exact (byte_append_lo _ _ (by decide)).trans (byte_and_nibbles q (by decide))
  · exact (byte_append_hi _ _ 0).trans (byte_shift_nibbles q (by decide))
  · exact (byte_append_lo _ _ (by decide)).trans (byte_and_nibbles q (by decide))
  · exact (byte_append_hi _ _ 1).trans (byte_shift_nibbles q (by decide))

/-- The selector 0x7362 gathers elements 4 to 7. -/
theorem byte_perm_7362 (q : BitVec 32) {k : ℕ} (hk : k < 4) :
    byte (bytePerm (q.sshiftRight 0 &&& 0x0F0F0F0F) (q.sshiftRight 4 &&& 0x0F0F0F0F) 0x7362) k =
      elem q (4 + k) := by
  rw [BitVec.sshiftRight_zero, bytePerm, byte_ofBytes _ hk]
  interval_cases k
  · exact (byte_append_lo _ _ (by decide)).trans (byte_and_nibbles q (by decide))
  · exact (byte_append_hi _ _ 2).trans (byte_shift_nibbles q (by decide))
  · exact (byte_append_lo _ _ (by decide)).trans (byte_and_nibbles q (by decide))
  · exact (byte_append_hi _ _ 3).trans (byte_shift_nibbles q (by decide))

/-- **The first word of an unpacking** holds elements 0 to 3 in order, without the offset. -/
theorem toInt_unpack_fst (q : BitVec 32) {k : ℕ} (hk : k < 4) :
    (byte (mkUnpackAr16 q).1 k).toInt = (elem q k).toInt - 8 :=
  toInt_vsubss4 hk (byte_perm_5140 q hk)

/-- **The second word** holds elements 4 to 7. -/
theorem toInt_unpack_snd (q : BitVec 32) {k : ℕ} (hk : k < 4) :
    (byte (mkUnpackAr16 q).2 k).toInt = (elem q (4 + k)).toInt - 8 :=
  toInt_vsubss4 hk (byte_perm_7362 q hk)

/-! ## The integer part of a block -/

/-- A word of a block holds eight of its elements. -/
theorem elem_of_bytes {b : BlockAr16} {q : BitVec 32} {i e : ℕ} (he : e < 8)
    (hq : ∀ j < 4, byte q j = b.qs (4 * i + j)) : elem q e = b.nib (8 * i + e) := by
  have hdiv : (8 * i + e) / 2 = 4 * i + e / 2 := by omega
  have hmod : (8 * i + e) % 2 = e % 2 := by omega
  rw [elem, hq _ (by omega), BlockAr16.nib, hdiv, hmod]

/-- What eight elements of a block contribute. -/
def eighth (b : BlockAr16) (y : BlockQ81 R) (parity i : ℕ) : ℤ :=
  ∑ e ∈ Finset.range 8, ((b.nib (8 * i + e)).toInt - 8) * y.qs (16 * parity + (8 * i + e))

theorem unpackDot_ofInt {b : BlockAr16} {y : BlockQ81 R} {q qlo qhi : BitVec 32} (parity i : ℕ)
    (hq : ∀ j < 4, byte q j = b.qs (4 * i + j))
    (hlo : ∀ k < 4, (byte qlo k).toInt = y.qs (16 * parity + (8 * i + k)))
    (hhi : ∀ k < 4, (byte qhi k).toInt = y.qs (16 * parity + (8 * i + (4 + k)))) (z : ℤ) :
    unpackDot q qlo qhi (BitVec.ofInt 32 z) = BitVec.ofInt 32 (z + eighth b y parity i) := by
  have hfst : ∑ k ∈ Finset.range 4, (byte (mkUnpackAr16 q).1 k).toInt * (byte qlo k).toInt =
      ∑ k ∈ Finset.range 4,
        ((b.nib (8 * i + k)).toInt - 8) * y.qs (16 * parity + (8 * i + k)) := by
    refine Finset.sum_congr rfl fun k hk => ?_
    have hk4 := Finset.mem_range.mp hk
    rw [toInt_unpack_fst q hk4, elem_of_bytes (by omega) hq, hlo k hk4]
  have hsnd : ∑ k ∈ Finset.range 4, (byte (mkUnpackAr16 q).2 k).toInt * (byte qhi k).toInt =
      ∑ k ∈ Finset.range 4,
        ((b.nib (8 * i + (4 + k))).toInt - 8) * y.qs (16 * parity + (8 * i + (4 + k))) := by
    refine Finset.sum_congr rfl fun k hk => ?_
    have hk4 := Finset.mem_range.mp hk
    rw [toInt_unpack_snd q hk4, elem_of_bytes (by omega) hq, hhi k hk4]
  rw [unpackDot, dp4a_ofInt, dp4a_ofInt, hfst, hsnd, add_assoc, eighth,
    Finset.sum_range_add _ 4 4]

theorem sumiAr16_eq (b : BlockAr16) (y : BlockQ81 R) (parity : ℕ) :
    sumiAr16 b y parity = eighth b y parity 0 + eighth b y parity 1 := by
  simp only [sumiAr16, eighth, Finset.sum_range_add _ 8 8, Nat.mul_zero, Nat.zero_add, Nat.mul_one]

theorem abs_toInt_nib_sub_le (b : BlockAr16) (e : ℕ) : |(b.nib e).toInt - 8| ≤ 8 := by
  rw [BlockAr16.nib, abs_le]
  split
  · rw [toInt_lo4]
    omega
  · rw [toInt_hi4]
    have := (b.qs (e / 2)).isLt
    omega

/-- The sum of a block fits the accumulator. -/
theorem abs_sumiAr16_lt (b : BlockAr16) {y : BlockQ81 R} (hy : ∀ e, |y.qs e| ≤ 128) (parity : ℕ) :
    |sumiAr16 b y parity| < 2 ^ 31 := by
  have h := abs_sum_mul_le (n := 16) (by decide) (fun e _ => abs_toInt_nib_sub_le b e) fun e _ =>
    hy (16 * parity + e)
  exact lt_of_le_of_lt h (by decide)

/-! ## The paths -/

section Paths

variable (half : BitVec 16 → R) (view : View W R) (wRow : ℕ → BitVec 8) (ys : ℕ → W)

/-- Two words that hold a block, against the half of the quants that its parity says. -/
theorem unpackDot_block {b : BlockAr16} {q0 q1 : BitVec 32} (kb parity : ℕ) {j0 j1 j2 j3 : ℕ}
    (h0 : ∀ k < 4, byte q0 k = b.qs (4 * 0 + k)) (h1 : ∀ k < 4, byte q1 k = b.qs (4 * 1 + k))
    (hj0 : j0 = 9 * kb + 1 + 4 * parity) (hj1 : j1 = j0 + 1) (hj2 : j2 = j0 + 2)
    (hj3 : j3 = j0 + 3) :
    unpackDot q1 (view.bits (ys j2)) (view.bits (ys j3))
        (unpackDot q0 (view.bits (ys j0)) (view.bits (ys j1)) 0) =
      BitVec.ofInt 32 (sumiAr16 b (blockQ81 view ys kb) parity) := by
  have hfirst := unpackDot_ofInt (y := blockQ81 view ys kb) parity 0 h0
    (fun k hk => qs_blockQ81 view ys (j := j0) (by omega) (by omega))
    (fun k hk => qs_blockQ81 view ys (j := j1) (by omega) (by omega)) 0
  have hsecond := unpackDot_ofInt (y := blockQ81 view ys kb) parity 1 h1
    (fun k hk => qs_blockQ81 view ys (j := j2) (by omega) (by omega))
    (fun k hk => qs_blockQ81 view ys (j := j3) (by omega) (by omega))
    (0 + eighth b (blockQ81 view ys kb) parity 0)
  rw [sumiAr16_eq, ← zero_add (eighth b (blockQ81 view ys kb) parity 0), ← hsecond, ← hfirst]
  rfl

theorem byte_pair_word (p i : ℕ) {k : ℕ} (hk : k < 4) :
    byte (word32 wRow (p * 5 + (3 + i))) k = (blockAr16 wRow (2 * p + 1)).qs (4 * i + k) := by
  rw [byte_word32 _ _ hk, blockAr16]
  congr 1
  omega

theorem byte_pair_funnel (p i : ℕ) {k : ℕ} (hk : k < 4) :
    byte (funnelshiftR (word32 wRow (p * 5 + i)) (word32 wRow (p * 5 + (i + 1))) 16) k =
      (blockAr16 wRow (2 * p)).qs (4 * i + k) := by
  rw [byte_funnelshiftR _ _ hk, blockAr16]
  split
  · rw [byte_word32 _ _ (by omega)]
    congr 1
    omega
  · rw [byte_word32 _ _ (by omega)]
    congr 1
    omega

theorem byte_tailQ (kb i : ℕ) {k : ℕ} (hk : k < 4) :
    byte (tailQ wRow kb i) k = (blockAr16 wRow kb).qs (4 * i + k) := by
  rw [tailQ, byte_or_halfwords _ _ hk, blockAr16]
  split
  · rw [byte_word16 _ _ (by omega)]
    congr 1
    omega
  · rw [byte_word16 _ _ (by omega)]
    congr 1
    omega

/-- The scale of the first block is the lower half of the first word. -/
theorem halfLo_pairAr16 (p : ℕ) :
    halfLo half (word32 wRow (p * 5 + 0)) = half (blockAr16 wRow (2 * p)).d := by
  have h : (word32 wRow (p * 5 + 0)).extractLsb' 0 16 = word16 wRow (2 * (p * 5) + 0) :=
    extractLsb'_word32 wRow (p * 5) 0 (by decide)
  rw [halfLo, h, word16, blockAr16]
  congr 2 <;> congr 1 <;> omega

/-- The scale of the second block is the upper half of the third word. -/
theorem halfHi_pairAr16 (p : ℕ) :
    halfHi half (word32 wRow (p * 5 + 2)) = half (blockAr16 wRow (2 * p + 1)).d := by
  have h : (word32 wRow (p * 5 + 2)).extractLsb' 16 16 = word16 wRow (2 * (p * 5 + 2) + 1) :=
    extractLsb'_word32 wRow (p * 5 + 2) 1 (by decide)
  rw [halfHi, h, word16, blockAr16]
  congr 2 <;> congr 1 <;> omega

/-- The scale of a single block is its first halfword. -/
theorem word16_tailAr16 (kb : ℕ) : word16 wRow (kb * 5 + 0) = (blockAr16 wRow kb).d := by
  rw [word16, blockAr16]
  congr 1 <;> congr 1 <;> omega

/-- What the words of the two paths say: unpacked, they hold the elements of the packed blocks in
order. -/
structure DecodesAr16 : Prop where
  pairScale : ∀ p, halfLo half (word32 wRow (p * 5 + 0)) = half (blockAr16 wRow (2 * p)).d ∧
    halfHi half (word32 wRow (p * 5 + 2)) = half (blockAr16 wRow (2 * p + 1)).d
  tailScale : ∀ kb, half (word16 wRow (kb * 5 + 0)) = half (blockAr16 wRow kb).d
  pairFirst : ∀ p, ∀ i < 2, ∀ k < 4,
    let v := mkUnpackAr16
      (funnelshiftR (word32 wRow (p * 5 + i)) (word32 wRow (p * 5 + (i + 1))) 16)
    (byte v.1 k).toInt = ((blockAr16 wRow (2 * p)).nib (8 * i + k)).toInt - 8 ∧
      (byte v.2 k).toInt = ((blockAr16 wRow (2 * p)).nib (8 * i + (4 + k))).toInt - 8
  pairSecond : ∀ p, ∀ i < 2, ∀ k < 4,
    let v := mkUnpackAr16 (word32 wRow (p * 5 + (3 + i)))
    (byte v.1 k).toInt = ((blockAr16 wRow (2 * p + 1)).nib (8 * i + k)).toInt - 8 ∧
      (byte v.2 k).toInt = ((blockAr16 wRow (2 * p + 1)).nib (8 * i + (4 + k))).toInt - 8
  tail : ∀ kb, ∀ i < 2, ∀ k < 4,
    let v := mkUnpackAr16 (tailQ wRow kb i)
    (byte v.1 k).toInt = ((blockAr16 wRow kb).nib (8 * i + k)).toInt - 8 ∧
      (byte v.2 k).toInt = ((blockAr16 wRow kb).nib (8 * i + (4 + k))).toInt - 8

/-- A word with the right bytes unpacks to the right weights. -/
theorem unpack_of_bytes {b : BlockAr16} {q : BitVec 32} {i : ℕ}
    (hq : ∀ j < 4, byte q j = b.qs (4 * i + j)) {k : ℕ} (hk : k < 4) :
    (byte (mkUnpackAr16 q).1 k).toInt = (b.nib (8 * i + k)).toInt - 8 ∧
      (byte (mkUnpackAr16 q).2 k).toInt = (b.nib (8 * i + (4 + k))).toInt - 8 := by
  rw [toInt_unpack_fst q hk, toInt_unpack_snd q hk, elem_of_bytes (by omega) hq,
    elem_of_bytes (by omega) hq]
  exact ⟨rfl, rfl⟩

theorem decodesAr16 : DecodesAr16 half wRow where
  pairScale p := ⟨halfLo_pairAr16 half wRow p, halfHi_pairAr16 half wRow p⟩
  tailScale kb := congrArg half (word16_tailAr16 wRow kb)
  pairFirst p i _ _ := unpack_of_bytes fun _ => byte_pair_funnel wRow p i
  pairSecond p i _ _ := unpack_of_bytes fun _ => byte_pair_word wRow p i
  tail kb i _ _ := unpack_of_bytes fun _ => byte_tailQ wRow kb i

variable [CommRing R]

/-- **The paired path** adds the terms of both blocks. -/
theorem pairBlockAr16_eq (acc : R) (p : ℕ) : pairBlockAr16 half view wRow ys acc p =
    acc + (termAr16 half (blockAr16 wRow (2 * p)) (blockQ81 view ys (2 * p / 2)) (2 * p % 2) +
      termAr16 half (blockAr16 wRow (2 * p + 1)) (blockQ81 view ys ((2 * p + 1) / 2))
        ((2 * p + 1) % 2)) := by
  have hdiv : 2 * p / 2 = p ∧ (2 * p + 1) / 2 = p := by omega
  have hmod : 2 * p % 2 = 0 ∧ (2 * p + 1) % 2 = 1 := by omega
  have hds : p * 9 + 0 = 9 * p := by omega
  have hs0 : unpackDot (funnelshiftR (word32 wRow (p * 5 + 1)) (word32 wRow (p * 5 + 2)) 16)
      (view.bits (ys (p * 9 + 3))) (view.bits (ys (p * 9 + 4)))
      (unpackDot (funnelshiftR (word32 wRow (p * 5 + 0)) (word32 wRow (p * 5 + 1)) 16)
        (view.bits (ys (p * 9 + 1))) (view.bits (ys (p * 9 + 2))) 0) =
      BitVec.ofInt 32 (sumiAr16 (blockAr16 wRow (2 * p)) (blockQ81 view ys p) 0) :=
    unpackDot_block view ys p 0 (fun _ => byte_pair_funnel wRow p 0)
      (fun _ => byte_pair_funnel wRow p 1) (by omega) rfl rfl rfl
  have hs1 : unpackDot (word32 wRow (p * 5 + 4))
      (view.bits (ys (p * 9 + 7))) (view.bits (ys (p * 9 + 8)))
      (unpackDot (word32 wRow (p * 5 + 3))
        (view.bits (ys (p * 9 + 5))) (view.bits (ys (p * 9 + 6))) 0) =
      BitVec.ofInt 32 (sumiAr16 (blockAr16 wRow (2 * p + 1)) (blockQ81 view ys p) 1) :=
    unpackDot_block view ys p 1 (fun _ => byte_pair_word wRow p 0)
      (fun _ => byte_pair_word wRow p 1) (by omega) rfl rfl rfl
  simp only [pairBlockAr16]
  rw [hs0, hs1, toInt_ofInt_of_abs_lt (abs_sumiAr16_lt _ (abs_qs_le view ys p) 0),
    toInt_ofInt_of_abs_lt (abs_sumiAr16_lt _ (abs_qs_le view ys p) 1), halfLo_pairAr16,
    halfHi_pairAr16, hds, hdiv.1, hdiv.2, hmod.1, hmod.2, termAr16, termAr16]
  simp only [blockQ81]
  ring

/-- **The tail path** adds the term of its block. -/
theorem tailBlockAr16_eq (acc : R) (kb : ℕ) : tailBlockAr16 half view wRow ys acc kb =
    acc + termAr16 half (blockAr16 wRow kb) (blockQ81 view ys (kb / 2)) (kb % 2) := by
  have hds : kb / 2 * 9 + 0 = 9 * (kb / 2) := by omega
  have hj : kb / 2 * 9 + (1 + 4 * (kb % 2) + 2 * 0 + 0) =
      9 * (kb / 2) + 1 + 4 * (kb % 2) := by omega
  have hsum : (range 2).foldl (fun (s : BitVec 32) i => unpackDot (tailQ wRow kb i)
      (view.bits (ys (kb / 2 * 9 + (1 + 4 * (kb % 2) + 2 * i + 0))))
      (view.bits (ys (kb / 2 * 9 + (1 + 4 * (kb % 2) + 2 * i + 1)))) s) 0 =
      BitVec.ofInt 32 (sumiAr16 (blockAr16 wRow kb) (blockQ81 view ys (kb / 2)) (kb % 2)) :=
    unpackDot_block view ys (kb / 2) (kb % 2) (fun _ => byte_tailQ wRow kb 0)
      (fun _ => byte_tailQ wRow kb 1) hj rfl rfl rfl
  simp only [tailBlockAr16]
  rw [hsum, toInt_ofInt_of_abs_lt (abs_sumiAr16_lt _ (abs_qs_le view ys _) _), word16_tailAr16, hds,
    termAr16]
  simp only [blockQ81]
  ring

end Paths

/-! ## Rows -/

section Rows

variable [CommRing R] (half : BitVec 16 → R) (view : View W R) (wRow : ℕ → BitVec 8)

/-- A lane adds up the terms of its blocks. -/
theorem mmvqAr16Row_eq (ys : ℕ → W) (npairFull nblk lane : ℕ) :
    mmvqAr16Row half view wRow ys npairFull nblk lane =
      ((laneBlocks npairFull nblk lane).map fun kb =>
        termAr16 half (blockAr16 wRow kb) (blockQ81 view ys (kb / 2)) (kb % 2)).sum := by
  have hpair := foldl_acc (pairBlockAr16_eq half view wRow ys) (forRange lane npairFull 32) 0
  have htail := foldl_acc (tailBlockAr16_eq half view wRow ys)
    (forRange (2 * npairFull + lane) nblk 32)
  rw [mmvqAr16Row, hpair, htail, laneBlocks, map_append, sum_append, sum_map_pairs, zero_add]

/-- A term depends on the words of its block only. -/
theorem termAr16_congr {y y' : ℕ → W} {kb parity : ℕ}
    (h : ∀ i < 9, y (9 * kb + i) = y' (9 * kb + i)) (hp : parity < 2) (b : BlockAr16) :
    termAr16 half b (blockQ81 view y kb) parity = termAr16 half b (blockQ81 view y' kb) parity := by
  have hsumi : sumiAr16 b (blockQ81 view y kb) parity =
    sumiAr16 b (blockQ81 view y' kb) parity := by
    refine Finset.sum_congr rfl fun e he => ?_
    have hlt := Finset.mem_range.mp he
    rw [qs_congr view h (by omega)]
  have hds := h 0 (by decide)
  rw [Nat.add_zero] at hds
  rw [termAr16, hsumi, termAr16]
  simp only [blockQ81, hds]

/-- The blocks of row `r`. -/
theorem blockAr16_row (w : ℕ → BitVec 8) {npair : ℕ} (r kb : ℕ) :
    blockAr16 (fun i => w (4 * (r * (npair * 5)) + i)) kb = blockAr16 w (r * (2 * npair) + kb) := by
  have hidx : 10 * (r * (2 * npair) + kb) = 4 * (r * (npair * 5)) + 10 * kb := by ring
  simp only [blockAr16, hidx, Nat.add_assoc]

/-- **The sum over the warp is the dot product of the row.** -/
theorem laneSum_mmvqAr16Row {threads ncols : ℕ} (ht : 0 < threads) (hcols : 32 ∣ ncols)
    (w : ℕ → BitVec 8) (y smem : ℕ → W) (r : ℕ) :
    laneSum (mmvqAr16Row half view (fun i => w (4 * (r * (ncols / 16 / 2 * 5)) + i))
      (stageWords threads (ncols / 32 * 9) y smem) (ncols / 16 / 2 / 32 * 32) (ncols / 16)) 0 =
        refAr16 half view w y ncols r := by
  have hnblk : ncols / 16 = 2 * (ncols / 16 / 2) := by omega
  have hfull : 2 * (ncols / 16 / 2 / 32 * 32) ≤ ncols / 16 := by omega
  simp only [funext (mmvqAr16Row_eq half view _ _ _ _)]
  rw [laneSum_blocks hfull, refAr16]
  refine Finset.sum_congr rfl fun kb hkb => ?_
  have hlt := Finset.mem_range.mp hkb
  rw [blockAr16_row, ← hnblk]
  exact termAr16_congr half view (fun i hi => stageWords_apply ht (by omega) y smem)
    (Nat.mod_lt _ (by decide)) _

end Rows

/-! ## The op -/

/-- **AR16 dot products are those of the reference.** Both paths unpack the packed blocks in the
order of the columns; the lanes of a warp consume every block of a row once; and in whatever order
the warps store, every row of the range gets its dot product once, and nothing else is written. -/
theorem mmvq_ar16_correct [CommRing R] (half : BitVec 16 → R) (view : View W R) (I : Launch)
    (a : MmvqAr16Args W) (smem : ℕ → ℕ → W) (ha : 32 ∣ a.ncols) :
    (∀ wRow, DecodesAr16 half wRow) ∧
    ((range 32).flatMap (laneBlocks (a.ncols / 16 / 2 / 32 * 32) (a.ncols / 16))).Perm
      (range (a.ncols / 16)) ∧
    (∀ wRow ys npairFull nblk lane, mmvqAr16Row half view wRow ys npairFull nblk lane =
      ((laneBlocks npairFull nblk lane).map fun kb =>
        termAr16 half (blockAr16 wRow kb) (blockQ81 view ys (kb / 2)) (kb % 2)).sum) ∧
    I.Stores (fun block => opMmvqAr16 half view I a (smem block) block) a.rowLo a.rowHi
      (refAr16 half view a.w a.y a.ncols) := by
  have hthreads : 0 < I.workers * 32 := Nat.mul_pos I.workers_pos (by decide)
  refine ⟨decodesAr16 half, laneBlocks_perm (by omega), mmvqAr16Row_eq half view, ?_⟩
  refine Launch.stores_of_share fun block warp => map_congr_left fun r _ => ?_
  exact congrArg (r, ·) (laneSum_mmvqAr16Row half view hthreads ha a.w a.y (smem block) r)

/-- Two warps and three rows of two blocks. -/
theorem mmvq_ar16_correct_threeRows :
    Launch.Stores ⟨2, 3, 2, by decide, by decide⟩
      (fun block => opMmvqAr16 (fun b => (b.toNat : ℚ)) (.ofHalf fun b => (b.toNat : ℚ))
        ⟨2, 3, 2, by decide, by decide⟩
        ⟨fun i => BitVec.ofNat 8 (7 * i), fun i => BitVec.ofNat 32 (99 * i), 32, 1, 4⟩ (fun _ => 0)
        block) 1 4
      (refAr16 (fun b => (b.toNat : ℚ)) (.ofHalf fun b => (b.toNat : ℚ))
        (fun i => BitVec.ofNat 8 (7 * i)) (fun i => BitVec.ofNat 32 (99 * i)) 32) :=
  (mmvq_ar16_correct (fun b => (b.toNat : ℚ)) (.ofHalf fun b => (b.toNat : ℚ))
    ⟨2, 3, 2, by decide, by decide⟩
    ⟨fun i => BitVec.ofNat 8 (7 * i), fun i => BitVec.ofNat 32 (99 * i), 32, 1, 4⟩
    (fun _ _ => 0) (by decide)).2.2.2

end Megakernel.Gemv
