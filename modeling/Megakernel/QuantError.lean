import Mathlib.Algebra.BigOperators.Ring.Finset
import Mathlib.Algebra.Order.Field.Basic
import Mathlib.Data.Rat.Floor
import Mathlib.Tactic.FieldSimp
import Mathlib.Tactic.Linarith
import Megakernel.Mmvq

/-!
# The error of quantised dot products

OP_QUANT_Q8_1 of `k0/ops/gemv.cuh` over the rationals, and what it makes of a Q4_0
dot product. A warp quantises a block of 32 elements to steps of a 127th of the
greatest magnitude; every element comes out within half a step (`abs_sub_quant_le`),
so no quant leaves the range of a byte. The stored sum of a block is the sum of the
elements themselves. Therefore the offset of the nibbles is accounted for exactly,
and the error of a dot product is that of the nibbles against the quants
(`termQ40_sub`).
-/

namespace Megakernel.Gemv

open Loops Warps Words List

/-! ## OP_QUANT_Q8_1 -/

/-- `roundf`: to the nearest integer, halves away from zero. -/
def roundf (x : ℚ) : ℤ := if 0 ≤ x then ⌊x + 1 / 2⌋ else -⌊-x + 1 / 2⌋

/-- A block as the quantiser stores it, with the scale and the sum not rounded. Rounding them to
half precision is another error, which is not the subject here. -/
structure QuantBlock : Type where
  d : ℚ
  s : ℚ
  qs : ℕ → BitVec 8

/-- `QuantQ8_1Args`, without the pointer to the output. -/
structure QuantQ81Args : Type where
  x : ℕ → ℚ
  ne00 : ℕ
  ne0Padded : ℕ

/-- `xi`: element `i`, or the padding. -/
def QuantQ81Args.xi (a : QuantQ81Args) (i : ℕ) : ℚ := if i < a.ne00 then a.x i else 0

/-- `amax` of a lane after the reduction. -/
def amax (xi : ℕ → ℚ) (lane : ℕ) : ℚ := butterfly max (fun l => |xi l|) lane

/-- `q` of a lane: the element in steps of a 127th of the greatest magnitude, rounded; 0 in a block
of zeros. -/
def quant (xi : ℕ → ℚ) (lane : ℕ) : ℤ :=
  let d := amax xi lane / 127
  if amax xi lane = 0 then 0 else roundf (xi lane / d)

/-- What the lanes of a warp store for block `b`: a byte each, and lane 0 the scale and the sum. -/
def quantBlock (a : QuantQ81Args) (b : ℕ) : QuantBlock :=
  let xi := fun lane => a.xi (b * 32 + lane)
  { d := amax xi 0 / 127
    s := laneSum xi 0
    qs := fun lane => BitVec.ofInt 8 (quant xi lane) }

/-- `op_quant_q8_1`: what a warp stores. -/
def opQuantQ81 (I : Launch) (a : QuantQ81Args) (block warp : ℕ) : List (ℕ × QuantBlock) :=
  (I.share 0 (a.ne0Padded / 32) block warp).map fun b => (b, quantBlock a b)

/-- A word of the stream: the scale and the sum of a block, or four of its quants. -/
inductive Cell : Type where
  | scales (d s : ℚ)
  | quants (bits : BitVec 32)

/-- The stream as the dot products read it. -/
def cells (y : ℕ → QuantBlock) (i : ℕ) : Cell :=
  if i % 9 = 0 then .scales (y (i / 9)).d (y (i / 9)).s
  else .quants (ofBytes fun k => (y (i / 9)).qs (4 * (i % 9 - 1) + k))

/-- A word is read as what it holds. With this view the dot products read scale and sum as the
quantiser has computed them. -/
def exactView : View Cell ℚ where
  lo
    | .scales d _ => d
    | .quants _ => 0
  hi
    | .scales _ s => s
    | .quants _ => 0
  bits
    | .scales _ _ => 0
    | .quants b => b

/-! ## Rounding -/

/-- **Rounding moves by at most a half.** -/
theorem abs_sub_roundf_le (x : ℚ) : |x - roundf x| ≤ 1 / 2 := by
  rw [roundf, abs_le]
  split
  · have hle := Int.floor_le (x + 1 / 2)
    have hlt := Int.lt_floor_add_one (x + 1 / 2)
    constructor <;> linarith
  · have hle := Int.floor_le (-x + 1 / 2)
    have hlt := Int.lt_floor_add_one (-x + 1 / 2)
    push_cast
    constructor <;> linarith

/-- Rounding does not leave a range of integers. -/
theorem abs_roundf_le {x : ℚ} {n : ℕ} (h : |x| ≤ n) : |roundf x| ≤ n := by
  have hle := abs_le.mp (abs_sub_roundf_le x)
  have hx := abs_le.mp h
  have hlo : (-(n : ℤ) : ℤ) - 1 < roundf x := by
    have : (-(n : ℚ)) - 1 < roundf x := by linarith
    exact_mod_cast this
  have hhi : roundf x < (n : ℤ) + 1 := by
    have : (roundf x : ℚ) < n + 1 := by linarith
    exact_mod_cast this
  rw [abs_le]
  omega

/-! ## Blocks -/

section Blocks

variable (xi : ℕ → ℚ) {lane : ℕ}

theorem abs_le_amax {i : ℕ} (hi : i < 32) (hlane : lane < 32) : |xi i| ≤ amax xi lane :=
  (butterfly_max _ hlane).2 ⟨i, hi, rfl⟩

theorem amax_nonneg (hlane : lane < 32) : 0 ≤ amax xi lane :=
  (abs_nonneg _).trans (abs_le_amax xi hlane hlane)

/-- All lanes know the same maximum. -/
theorem amax_eq (hlane : lane < 32) : amax xi lane = amax xi 0 :=
  (butterfly_max _ hlane).unique (butterfly_max _ (by decide))

/-- **No quant leaves the range.** -/
theorem abs_quant_le (hlane : lane < 32) : |quant xi lane| ≤ 127 := by
  rw [quant]
  split
  · decide
  · next hne =>
    have hpos : 0 < amax xi lane := lt_of_le_of_ne (amax_nonneg xi hlane) (Ne.symm hne)
    refine abs_roundf_le (n := 127) ?_
    rw [abs_div, abs_of_pos (div_pos hpos (by norm_num)), div_div_eq_mul_div,
      div_le_iff₀ hpos, mul_comm]
    exact mul_le_mul_of_nonneg_left (abs_le_amax xi hlane hlane) (by norm_num)

/-- **Every element comes out within half a step.** -/
theorem abs_sub_quant_le (hlane : lane < 32) :
    |xi lane - amax xi 0 / 127 * quant xi lane| ≤ amax xi 0 / 127 / 2 := by
  rw [← amax_eq xi hlane, quant]
  split
  · next hzero =>
    have hx := abs_le_amax xi hlane hlane
    rw [hzero] at hx ⊢
    simpa using hx
  · next hne =>
    have hpos : 0 < amax xi lane / 127 :=
      div_pos (lt_of_le_of_ne (amax_nonneg xi hlane) (Ne.symm hne)) (by norm_num)
    have hround := abs_sub_roundf_le (xi lane / (amax xi lane / 127))
    have hscale : xi lane - amax xi lane / 127 * roundf (xi lane / (amax xi lane / 127)) =
        amax xi lane / 127 *
          (xi lane / (amax xi lane / 127) - roundf (xi lane / (amax xi lane / 127))) := by
      rw [mul_sub, mul_div_cancel₀ _ hpos.ne']
    rw [hscale, abs_mul, abs_of_pos hpos]
    have hmul := mul_le_mul_of_nonneg_left hround hpos.le
    linarith

theorem quant_eq_zero (hx : xi lane = 0) : quant xi lane = 0 := by
  rw [quant]
  split
  · rfl
  · rw [hx, zero_div, roundf, if_pos le_rfl]
    norm_num

end Blocks

/-! ## The stream -/

section Stream

variable (a : QuantQ81Args)

/-- The byte of a lane holds its quant. -/
theorem toInt_qs (b : ℕ) {lane : ℕ} (hlane : lane < 32) :
    ((quantBlock a b).qs lane).toInt = quant (fun l => a.xi (b * 32 + l)) lane := by
  obtain ⟨hlo, hhi⟩ := abs_le.mp (abs_quant_le (fun l => a.xi (b * 32 + l)) hlane)
  rw [quantBlock, BitVec.toInt_ofInt]
  exact Int.bmod_eq_of_le (by omega) (by omega)

/-- The stored sum is that of the elements. -/
theorem s_quantBlock (b : ℕ) : (quantBlock a b).s = ∑ e ∈ Finset.range 32, a.xi (b * 32 + e) := by
  rw [quantBlock, laneSum, butterfly_add _ (by decide)]

theorem d_quantBlock (b : ℕ) :
    (quantBlock a b).d = amax (fun lane => a.xi (b * 32 + lane)) 0 / 127 := by
  rw [quantBlock]

/-- What OP_QUANT_Q8_1 owes to element `j` of block `b`: a quant in the range of a byte, within half
a step of the element, and 0 behind the end of the row. -/
structure Quantised (y : ℕ → QuantBlock) (b j : ℕ) : Prop where
  range : |((y b).qs j).toInt| ≤ 127
  near : |a.xi (b * 32 + j) - (y b).d * ((y b).qs j).toInt| ≤ (y b).d / 2
  zero : (∀ i < 32, a.xi (b * 32 + i) = 0) → (y b).d = 0 ∧ ((y b).qs j).toInt = 0
  padding : a.ne00 ≤ b * 32 + j → ((y b).qs j).toInt = 0

theorem quantised {y : ℕ → QuantBlock} {b j : ℕ} (hy : y b = quantBlock a b) (hj : j < 32) :
    Quantised a y b j := by
  have hqs := toInt_qs a b hj
  have hnear := abs_sub_quant_le (fun l => a.xi (b * 32 + l)) hj
  refine ⟨?_, ?_, fun hzero => ⟨?_, ?_⟩, fun hpad => ?_⟩
  · rw [hy, hqs]
    exact abs_quant_le _ hj
  · rw [hy, hqs, d_quantBlock]
    exact hnear
  · obtain ⟨i, hi, hmax⟩ := (butterfly_max (fun l => |a.xi (b * 32 + l)|) (by decide : 0 < 32)).1
    have hamax : amax (fun l => a.xi (b * 32 + l)) 0 = 0 := by
      rw [amax, ← hmax]
      exact abs_eq_zero.mpr (hzero i hi)
    rw [hy, d_quantBlock, hamax, zero_div]
  · rw [hy, hqs]
    exact quant_eq_zero _ (hzero j hj)
  · rw [hy, hqs]
    exact quant_eq_zero _ (if_neg (by omega))

/-- The stream holds the blocks. -/
theorem blockQ81_cells (y : ℕ → QuantBlock) (kb : ℕ) :
    (blockQ81 exactView (cells y) kb).d = (y kb).d ∧
      (blockQ81 exactView (cells y) kb).s = (y kb).s ∧
      ∀ e < 32, (blockQ81 exactView (cells y) kb).qs e = ((y kb).qs e).toInt := by
  have hhead : cells y (9 * kb) = .scales (y kb).d (y kb).s := by
    rw [cells, if_pos (Nat.mul_mod_right 9 kb), Nat.mul_div_cancel_left kb (by decide)]
  refine ⟨?_, ?_, fun e he => ?_⟩
  · rw [blockQ81, hhead]
    rfl
  · rw [blockQ81, hhead]
    rfl
  · have hdiv : (9 * kb + 1 + e / 4) / 9 = kb := by omega
    have hmod : (9 * kb + 1 + e / 4) % 9 = 1 + e / 4 := by omega
    have hidx : 4 * (1 + e / 4 - 1) + e % 4 = e := by omega
    have hword : cells y (9 * kb + 1 + e / 4) =
        .quants (ofBytes fun k => (y kb).qs (4 * (1 + e / 4 - 1) + k)) := by
      rw [cells, hmod, hdiv, if_neg (by omega)]
    simp only [blockQ81, hword, exactView]
    rw [byte_ofBytes _ (Nat.mod_lt _ (by decide)), hidx]

end Stream

/-! ## The dot product -/

/-- The product of row `r` of the dequantised weights with the elements. -/
def exactDot (half : BitVec 16 → ℚ) (w : ℕ → BitVec 8) (x : ℕ → ℚ) (ncols r : ℕ) : ℚ :=
  ∑ kb ∈ Finset.range (ncols / 32), ∑ e ∈ Finset.range 32,
    let b := blockQ40 w (r * (ncols / 32) + kb)
    half b.d * ((b.nib e).toInt - 8) * x (kb * 32 + e)

/-- The sum of the nibbles of a block. -/
def nibSum (b : BlockQ40) : ℤ := ∑ e ∈ Finset.range 32, (b.nib e).toInt

/-- **The error of a block is that of the nibbles**: the offset cancels, because the stored sum is
that of the elements and not of the quants. -/
theorem termQ40_sub (half : BitVec 16 → ℚ) (b : BlockQ40) {y : BlockQ81 ℚ} {x : ℕ → ℚ}
    (hs : y.s = ∑ e ∈ Finset.range 32, x e) :
    termQ40 half b y - ∑ e ∈ Finset.range 32, half b.d * ((b.nib e).toInt - 8) * x e =
      half b.d * ∑ e ∈ Finset.range 32, (b.nib e).toInt * (y.d * y.qs e - x e) := by
  have hexact : ∑ e ∈ Finset.range 32, half b.d * ((b.nib e).toInt - 8) * x e =
      half b.d * (∑ e ∈ Finset.range 32, (b.nib e).toInt * x e) -
        half b.d * (8 * ∑ e ∈ Finset.range 32, x e) := by
    rw [← mul_sub, Finset.mul_sum (a := 8), ← Finset.sum_sub_distrib, Finset.mul_sum]
    exact Finset.sum_congr rfl fun e _ => by ring
  have hsum : y.d * (sumi b y : ℚ) = ∑ e ∈ Finset.range 32, (b.nib e).toInt * (y.d * y.qs e) := by
    rw [sumi, Int.cast_sum, Finset.mul_sum]
    exact Finset.sum_congr rfl fun e _ => by push_cast; ring
  have herr : ∑ e ∈ Finset.range 32, (b.nib e).toInt * (y.d * y.qs e - x e) =
      ∑ e ∈ Finset.range 32, (b.nib e).toInt * (y.d * y.qs e) -
        ∑ e ∈ Finset.range 32, ((b.nib e).toInt : ℚ) * x e := by
    rw [← Finset.sum_sub_distrib]
    exact Finset.sum_congr rfl fun e _ => by ring
  rw [termQ40, hexact, hs, hsum, herr]
  ring

/-- With every element within half a step, the error of a block is at most half a step for every
unit of its nibbles. -/
theorem abs_termQ40_sub_le (half : BitVec 16 → ℚ) (b : BlockQ40) {y : BlockQ81 ℚ} {x : ℕ → ℚ}
    (hs : y.s = ∑ e ∈ Finset.range 32, x e)
    (hnear : ∀ e < 32, |x e - y.d * y.qs e| ≤ y.d / 2) :
    |termQ40 half b y - ∑ e ∈ Finset.range 32, half b.d * ((b.nib e).toInt - 8) * x e| ≤
      |half b.d| * nibSum b * (y.d / 2) := by
  have hnib (e : ℕ) : (0 : ℚ) ≤ (b.nib e).toInt := by exact_mod_cast (toInt_nib_nonneg b e)
  rw [termQ40_sub half b hs, abs_mul, mul_assoc, nibSum, Int.cast_sum, Finset.sum_mul]
  refine mul_le_mul_of_nonneg_left ?_ (abs_nonneg _)
  refine (Finset.abs_sum_le_sum_abs _ _).trans (Finset.sum_le_sum fun e he => ?_)
  rw [abs_mul, abs_of_nonneg (hnib e), abs_sub_comm]
  exact mul_le_mul_of_nonneg_left (hnear e (Finset.mem_range.mp he)) (hnib e)

/-! ## The two ops together -/

section Ops

variable {I : Launch} {a : QuantQ81Args} {ws : List (ℕ × QuantBlock)}

/-- After the quantiser every block of the stream is there, whatever the order of the stores. -/
theorem store_quantBlock (hws : ws.Perm (I.grid.flatMap fun w => opQuantQ81 I a w.1 w.2))
    (y₀ : ℕ → QuantBlock) {b : ℕ} (hb : b < a.ne0Padded / 32) :
    store ws y₀ b = quantBlock a b := by
  have hstores : I.Stores (opQuantQ81 I a) 0 (a.ne0Padded / 32) (quantBlock a) :=
    Launch.stores_of_share fun _ _ => rfl
  rw [(hstores ws hws).2]
  exact if_pos ⟨Nat.zero_le b, hb⟩

/-- **The error of a quantised dot product.** The quantiser stores every element within half a step,
without leaving the range of a byte; and the dot product of a row with its stream differs from the
exact one by the error of the nibbles against the quants, the offset of the nibbles being accounted
for exactly. -/
theorem quant_error_bound (y₀ : ℕ → QuantBlock) (half : BitVec 16 → ℚ) (J : Launch)
    (hws : ws.Perm (I.grid.flatMap fun w => opQuantQ81 I a w.1 w.2)) {m : MmvqQ40Args Cell}
    (hy : m.y = cells (store ws y₀)) (hcols : 64 ∣ m.ncols) (hpad : m.ncols ≤ a.ne0Padded)
    (smem : ℕ → ℕ → Cell) {vs : List (ℕ × ℚ)}
    (hvs : vs.Perm (J.grid.flatMap fun w => opMmvqQ40 half exactView J m (smem w.1) w.1 w.2)) :
    (∀ b < a.ne0Padded / 32, ∀ j < 32, Quantised a (store ws y₀) b j) ∧
    ∀ (dst : ℕ → ℚ) (r : ℕ), m.rowLo ≤ r → r < m.rowHi →
      let block := fun kb => blockQ40 m.w (r * (m.ncols / 32) + kb)
      let d8 := fun kb => (store ws y₀ kb).d
      let q := fun kb e => ((store ws y₀ kb).qs e).toInt
      store vs dst r - exactDot half m.w a.xi m.ncols r =
        ∑ kb ∈ Finset.range (m.ncols / 32), half (block kb).d *
          ∑ e ∈ Finset.range 32, ((block kb).nib e).toInt * (d8 kb * q kb e - a.xi (kb * 32 + e)) ∧
      |store vs dst r - exactDot half m.w a.xi m.ncols r| ≤
        ∑ kb ∈ Finset.range (m.ncols / 32), |half (block kb).d| * nibSum (block kb) *
          (d8 kb / 2) := by
  have hblocks : m.ncols / 32 ≤ a.ne0Padded / 32 := Nat.div_le_div_right hpad
  have hquant : ∀ b < a.ne0Padded / 32, ∀ j < 32, Quantised a (store ws y₀) b j :=
    fun b hb j hj => quantised a (store_quantBlock hws y₀ hb) hj
  refine ⟨hquant, fun dst r hlo hhi => ?_⟩
  intro block d8 q
  have hdot : store vs dst r - exactDot half m.w a.xi m.ncols r =
      ∑ kb ∈ Finset.range (m.ncols / 32),
        (termQ40 half (block kb) (blockQ81 exactView (cells (store ws y₀)) kb) -
          ∑ e ∈ Finset.range 32, half (block kb).d * (((block kb).nib e).toInt - 8) *
            a.xi (kb * 32 + e)) := by
    have hstores := stores_opMmvqQ40 half exactView J m smem hcols
    have hval : store vs dst r = refQ40 half exactView m.w m.y m.ncols r := by
      rw [(hstores vs hvs).2 dst]
      exact if_pos ⟨hlo, hhi⟩
    rw [hval, refQ40, exactDot, ← Finset.sum_sub_distrib, hy]
  have hsum : ∀ kb < m.ncols / 32, (blockQ81 exactView (cells (store ws y₀)) kb).s =
      ∑ e ∈ Finset.range 32, a.xi (kb * 32 + e) := by
    intro kb hkb
    rw [(blockQ81_cells _ kb).2.1, store_quantBlock hws y₀ (hkb.trans_le hblocks), s_quantBlock]
  have hd (kb : ℕ) : (blockQ81 exactView (cells (store ws y₀)) kb).d = d8 kb :=
    (blockQ81_cells _ kb).1
  have hq (kb : ℕ) : ∀ e < 32, (blockQ81 exactView (cells (store ws y₀)) kb).qs e = q kb e :=
    (blockQ81_cells _ kb).2.2
  rw [hdot]
  constructor
  · refine Finset.sum_congr rfl fun kb hkb => ?_
    rw [termQ40_sub half (block kb) (hsum kb (Finset.mem_range.mp hkb)), hd]
    refine congrArg (half (block kb).d * ·) (Finset.sum_congr rfl fun e he => ?_)
    rw [hq kb e (Finset.mem_range.mp he)]
  · refine (Finset.abs_sum_le_sum_abs _ _).trans (Finset.sum_le_sum fun kb hkb => ?_)
    have hlt := Finset.mem_range.mp hkb
    rw [← hd]
    refine abs_termQ40_sub_le half (block kb) (hsum kb hlt) fun e he => ?_
    rw [hd, hq kb e he]
    exact (hquant kb (hlt.trans_le hblocks) e he).near

end Ops

/-- One warp. -/
def oneWarp : Launch := ⟨0, 1, 1, Nat.one_pos, Nat.one_pos⟩

/-- Three elements, padded to two blocks. -/
def threeElements : QuantQ81Args := ⟨fun i => i, 3, 64⟩

/-- One row of weights against the three elements. -/
def oneRow : MmvqQ40Args Cell where
  w i := BitVec.ofNat 8 i
  y := cells (store (oneWarp.grid.flatMap fun w => opQuantQ81 oneWarp threeElements w.1 w.2)
    fun _ => ⟨0, 0, fun _ => 0⟩)
  ncols := 64
  rowLo := 0
  rowHi := 1

theorem quant_error_bound_threeElements :
    let y := store (oneWarp.grid.flatMap fun w => opQuantQ81 oneWarp threeElements w.1 w.2)
      fun _ => ⟨0, 0, fun _ => 0⟩
    let dot := store (oneWarp.grid.flatMap fun w => opMmvqQ40 (fun b => (b.toNat : ℚ)) exactView
      oneWarp oneRow (fun _ => .quants 0) w.1 w.2) (fun _ => 0) 0
    Quantised threeElements y 1 31 ∧
      |dot - exactDot (fun b => (b.toNat : ℚ)) oneRow.w threeElements.xi 64 0| ≤
        ∑ kb ∈ Finset.range 2, |((blockQ40 oneRow.w (0 * 2 + kb)).d.toNat : ℚ)| *
          nibSum (blockQ40 oneRow.w (0 * 2 + kb)) * ((y kb).d / 2) := by
  intro y dot
  obtain ⟨hquant, hdot⟩ := quant_error_bound (fun _ => ⟨0, 0, fun _ => 0⟩)
    (fun b => (b.toNat : ℚ)) oneWarp (Perm.refl _) (m := oneRow) rfl (by decide)
    (by decide : 64 ≤ threeElements.ne0Padded) (fun _ _ => .quants 0) (Perm.refl _)
  exact ⟨hquant 1 (by decide) 31 (by decide), (hdot (fun _ => 0) 0 le_rfl (by decide)).2⟩

end Megakernel.Gemv
