import Mathlib.Analysis.Real.Sqrt
import Megakernel.Launch
import Megakernel.Phases

/-!
# OP_RMSNORM

`op_rmsnorm` of `k0/ops/glue.cuh` in exact arithmetic. A row goes through six phases: the
threads gather their share of it and stage what they read, the lanes of a warp add up
and publish their sum, the first warp folds the sums, its first lane publishes the scale,
all threads load it and scatter the scaled row. There are barriers before the fold,
before the load and before the scatter, but none between the scatter and the gathering
of the next row of the block.

`Inv` says what the phases leave behind for one another, for any order of the threads.
The one place where it fails is a scatter by single floats from the staged row, as the
staging of the next row may have overtaken it (`Inv.scatter`).

The model has one memory for all blocks and threads, and each phase is a function on it, so that an
order of the threads is a list of functions that are applied one after another. Which orders there
are is decided by the waiting (`rmsnormWaits`) alone.
-/

namespace Megakernel

open Loops Warps List Phases

/-- `RmsnormArgs`. Addresses count floats, so that buffers may overlap or be the same one. -/
structure RmsnormArgs : Type where
  x : ℕ
  w : ℕ
  add : Option ℕ
  y : ℕ
  ncols : ℕ
  nrows : ℕ
  sum : Option ℕ
  dbg : Option ℕ

/-- SMEM_BYTES -/
def smemBytes : ℕ := 60 * 1024

/-- RMSNORM_EPS -/
def rmsnormEps {K : Type*} [Field K] : K := 1 / 1000000

/-- `aligned16`, of the byte address. -/
def aligned16 (p : ℕ) : Bool := 4 * p % 16 == 0

namespace RmsnormArgs

variable (a : RmsnormArgs)

/-- `can_stage`: the row fits the slab behind the sums of the warps. -/
def canStage : Bool := decide (a.ncols * 4 + 64 ≤ smemBytes)

/-- `vec`, in a row. -/
def vec (row : ℕ) : Bool :=
  a.ncols % 4 == 0 && aligned16 (a.x + row * a.ncols) &&
    a.add.all fun p => aligned16 (p + row * a.ncols)

/-- `staged`, in a row. -/
def staged (row : ℕ) : Bool := a.vec row && a.canStage

/-- `wv`, in a row. -/
def wv (row : ℕ) : Bool :=
  aligned16 a.w && aligned16 (a.y + row * a.ncols) &&
    (a.sum.all fun p => aligned16 (p + row * a.ncols)) &&
    a.dbg.all fun p => aligned16 (p + row * a.ncols)

/-- The number of elements. -/
def size : ℕ := a.nrows * a.ncols

end RmsnormArgs

/-- The first float of `stage` behind `smem`. -/
def stageOff : ℕ := 64 / 4

/-- The memory of the op: that of the device, the slab of every block, and the variables `acc`, `v`
and `scale` of every thread. The phases communicate through it and in no other way. -/
structure RmsnormMem (K : Type*) : Type _ where
  global : ℕ → K
  smem : ℕ → ℕ → K
  acc : ℕ × ℕ → K
  val : ℕ × ℕ → K
  scale : ℕ × ℕ → K

/-- The columns of a `float4`. -/
def float4 (i : ℕ) : List ℕ := (range 4).map fun j => 4 * i + j

section Kernel

variable {K : Type*} [Field K] (rsqrt : K → K) (a : RmsnormArgs) (nblk bd : ℕ)

/-- `x + add` -/
def RmsnormArgs.input (g : ℕ → K) (e : ℕ) : K :=
  match a.add with
  | none => g (a.x + e)
  | some p => g (a.x + e) + g (p + e)

/-- The rows of a block, which is counted from `block_lo`. -/
def RmsnormArgs.rows (b : ℕ) : List ℕ := forRange b a.nrows nblk

/-- Row `k` of a block. -/
def rowOf (b k : ℕ) : ℕ := b + nblk * k

/-- The read loop up to `warp_sum`. A thread is a block and a `threadIdx.x`. In the staged path it
also stores what it has read in the slab. -/
def Rmsnorm.gather (k : ℕ) (t : ℕ × ℕ) (m : RmsnormMem K) : RmsnormMem K :=
  let row := rowOf nblk t.1 k
  let v c := a.input m.global (row * a.ncols + c)
  if a.vec row then
    let is := forRange t.2 (a.ncols / 4) bd
    { m with
      smem := if a.staged row then
          Function.update m.smem t.1
            (store (is.flatMap fun i => (float4 i).map fun c => (stageOff + c, v c)) (m.smem t.1))
        else m.smem
      acc := Function.update m.acc t (is.foldl (fun acc i =>
        acc + (v (4 * i) * v (4 * i) + v (4 * i + 1) * v (4 * i + 1) +
          v (4 * i + 2) * v (4 * i + 2) + v (4 * i + 3) * v (4 * i + 3))) 0) }
  else
    { m with
      acc := Function.update m.acc t
        ((forRange t.2 a.ncols bd).foldl (fun acc i => acc + v i * v i) 0) }

/-- `warp_sum`, and the store of the lane 0. -/
def Rmsnorm.publish (t : ℕ × ℕ) (m : RmsnormMem K) : RmsnormMem K :=
  let warp := t.2 / 32
  if t.2 % 32 = 0 then
    let total := laneSum (fun lane => m.acc (t.1, warp * 32 + lane)) 0
    { m with smem := Function.update m.smem t.1 (Function.update (m.smem t.1) warp total) }
  else m

/-- After the first barrier warp 0 reads the sums. -/
def Rmsnorm.fold (t : ℕ × ℕ) (m : RmsnormMem K) : RmsnormMem K :=
  if t.2 / 32 = 0 then
    let lane := t.2 % 32
    { m with val := Function.update m.val t (if lane < bd / 32 then m.smem t.1 lane else 0) }
  else m

/-- `warp_sum` in warp 0, and the store of the scale by its lane 0. -/
def Rmsnorm.rescale (t : ℕ × ℕ) (m : RmsnormMem K) : RmsnormMem K :=
  if t.2 = 0 then
    let v := laneSum (fun lane => m.val (t.1, lane)) 0
    let scale := rsqrt (v / a.ncols + rmsnormEps)
    { m with smem := Function.update m.smem t.1 (Function.update (m.smem t.1) 0 scale) }
  else m

/-- After the second barrier. -/
def Rmsnorm.load (t : ℕ × ℕ) (m : RmsnormMem K) : RmsnormMem K :=
  { m with scale := Function.update m.scale t (m.smem t.1 0) }

/-- The values `v` of some columns to an optional output. -/
def put (p : Option ℕ) (off : ℕ) (cols : List ℕ) (v : ℕ → K) (g : ℕ → K) : ℕ → K :=
  match p with
  | none => g
  | some p => store (cols.map fun c => (p + (off + c), v c)) g

/-- One round of the write loop: `sum` and `dbg`, and then `y`. -/
def RmsnormArgs.emit (off : ℕ) (scale : K) (cols : List ℕ) (v : ℕ → K) (g : ℕ → K) : ℕ → K :=
  let g := put a.dbg off cols v (put a.sum off cols v g)
  put (some a.y) off cols (fun c => scale * v c * g (a.w + c)) g

/-- The write loop. Where it goes by single floats in the staged path, a thread reads floats that
others have staged. -/
def Rmsnorm.scatter (k : ℕ) (t : ℕ × ℕ) (m : RmsnormMem K) : RmsnormMem K :=
  let row := rowOf nblk t.1 k
  let off := row * a.ncols
  let stage c := m.smem t.1 (stageOff + c)
  { m with
    global :=
      if a.staged row then
        if a.wv row then
          (forRange t.2 (a.ncols / 4) bd).foldl
            (fun g i => a.emit off (m.scale t) (float4 i) stage g) m.global
        else
          (forRange t.2 a.ncols bd).foldl (fun g i => a.emit off (m.scale t) [i] stage g) m.global
      else
        (forRange t.2 a.ncols bd).foldl
          (fun g i => a.emit off (m.scale t) [i] (fun c => a.input g (off + c)) g) m.global }

/-- The six phases of row `p / 6` of the block. -/
def rmsnormPhase (p : ℕ) (t : ℕ × ℕ) : RmsnormMem K → RmsnormMem K :=
  match p % 6 with
  | 0 => Rmsnorm.gather a nblk bd (p / 6) t
  | 1 => Rmsnorm.publish t
  | 2 => Rmsnorm.fold bd t
  | 3 => Rmsnorm.rescale rsqrt a t
  | 4 => Rmsnorm.load t
  | _ => Rmsnorm.scatter a nblk bd (p / 6) t

/-- Where a thread waits: `warp_sum` waits for the lanes of the warp, `__syncthreads` for the block.
In front of the gathering of the next row nobody waits. -/
def rmsnormWaits (p : ℕ) (t t' : ℕ × ℕ) : Prop :=
  t'.1 = t.1 ∧ t'.2 < bd ∧
    match p % 6 with
    | 1 => t'.2 / 32 = t.2 / 32
    | 3 => t.2 / 32 = 0 ∧ t'.2 / 32 = 0
    | 2 | 4 | 5 => True
    | _ => False

/-- `op_rmsnorm` on `nblk` blocks of `bd` threads. -/
def opRmsnorm : Threads (ℕ × ℕ) (RmsnormMem K) where
  len t := if t.1 < nblk ∧ t.2 < bd then 6 * (a.rows nblk t.1).length else 0
  waits := rmsnormWaits bd
  phase := rmsnormPhase rsqrt a nblk bd

end Kernel

/-! ## Shares of a row -/

/-- The columns of a thread in a loop over `float4`s or single floats. -/
def colShare (wide : Bool) (ncols bd thread : ℕ) : List ℕ :=
  if wide then (forRange thread (ncols / 4) bd).flatMap float4 else forRange thread ncols bd

/-- The thread of a column. -/
def colOwner (wide : Bool) (bd c : ℕ) : ℕ := (if wide then c / 4 else c) % bd

theorem mem_forRange_iff_mod {thread n bd i : ℕ} (ht : thread < bd) :
    i ∈ forRange thread n bd ↔ i < n ∧ i % bd = thread := by
  rw [mem_forRange (by omega)]
  refine and_congr_right fun _ => ⟨?_, fun h => ⟨i / bd, ?_⟩⟩
  · rintro ⟨k, rfl⟩
    rw [Nat.add_mul_mod_self_left, Nat.mod_eq_of_lt ht]
  · rw [← h, Nat.mod_add_div]

theorem mem_float4 {i c : ℕ} : c ∈ float4 i ↔ c / 4 = i := by
  simp only [float4, mem_map, mem_range]
  constructor
  · rintro ⟨j, hj, rfl⟩
    omega
  · rintro rfl
    exact ⟨c % 4, Nat.mod_lt _ (by decide), Nat.div_add_mod c 4⟩

/-- **A thread has the columns that it owns.** -/
theorem mem_colShare {wide : Bool} {ncols bd thread c : ℕ} (hw : wide = true → ncols % 4 = 0)
    (ht : thread < bd) :
    c ∈ colShare wide ncols bd thread ↔ c < ncols ∧ colOwner wide bd c = thread := by
  cases wide with
  | false => exact mem_forRange_iff_mod ht
  | true =>
    have hfour := hw rfl
    simp only [colShare, colOwner, if_true, mem_flatMap, mem_forRange_iff_mod ht, mem_float4]
    constructor
    · rintro ⟨i, ⟨hi, hmod⟩, rfl⟩
      exact ⟨by omega, hmod⟩
    · rintro ⟨hc, hmod⟩
      exact ⟨c / 4, ⟨by omega, hmod⟩, rfl⟩

/-- The threads have every column once. -/
theorem colShare_perm {wide : Bool} {ncols bd : ℕ} (hw : wide = true → ncols % 4 = 0)
    (hbd : 0 < bd) : ((range bd).flatMap (colShare wide ncols bd)).Perm (range ncols) := by
  have hperm (n : ℕ) : ((range bd).flatMap fun t => forRange t n bd).Perm (range n) := by
    have h := flatMap_forRange_perm 0 n hbd
    simpa only [Nat.zero_add, Nat.sub_zero, ← range_eq_range'] using h
  cases wide with
  | false => exact hperm ncols
  | true =>
    have hfour := hw rfl
    have hblocks := flatMap_blocks (fun i => [i]) (ncols / 4) 4
    rw [Nat.div_mul_cancel (Nat.dvd_of_mod_eq_zero hfour), flatMap_singleton'] at hblocks
    rw [← hblocks]
    have h := (hperm (ncols / 4)).flatMap_right float4
    rw [flatMap_assoc] at h
    refine h.trans (.of_eq (congrArg (flatMap · (range (ncols / 4))) (funext fun i => ?_)))
    rw [float4, map_eq_flatMap, Nat.mul_comm]

theorem colOwner_lt (wide : Bool) {bd : ℕ} (c : ℕ) (hbd : 0 < bd) : colOwner wide bd c < bd :=
  Nat.mod_lt _ hbd

/-- The sums of the threads add up to the sum of the row. -/
theorem sum_colShare {K : Type*} [AddCommMonoid K] {wide : Bool} {ncols bd : ℕ}
    (hw : wide = true → ncols % 4 = 0) (hbd : 0 < bd) (f : ℕ → K) :
    ∑ t ∈ Finset.range bd, ((colShare wide ncols bd t).map f).sum =
      ∑ c ∈ Finset.range ncols, f c := by
  rw [sum_lanes, ((colShare_perm hw hbd).map f).sum_eq]
  rfl

/-! ## The reference -/

/-- Two buffers do not overlap. -/
def Apart (p n q m : ℕ) : Prop := ∀ i < n, ∀ j < m, p + i ≠ q + j

namespace RmsnormArgs

variable {K : Type*} [Field K] (a : RmsnormArgs)

/-- The outputs. -/
def IsOut (p : ℕ) : Prop := p = a.y ∨ p ∈ a.sum ∨ p ∈ a.dbg

/-- The buffers do not overlap, except that one of the outputs may be the input `x`. This covers the
residual that is written back in place. -/
structure Layout : Prop where
  sum_y : ∀ p ∈ a.sum, Apart p a.size a.y a.size
  dbg_y : ∀ p ∈ a.dbg, Apart p a.size a.y a.size
  dbg_sum : ∀ p ∈ a.dbg, ∀ q ∈ a.sum, Apart p a.size q a.size
  out_x : ∀ p, a.IsOut p → p = a.x ∨ Apart p a.size a.x a.size
  out_add : ∀ p, a.IsOut p → ∀ q ∈ a.add, Apart p a.size q a.size
  out_w : ∀ p, a.IsOut p → Apart p a.size a.w a.ncols
  add_x : ∀ q ∈ a.add, Apart q a.size a.x a.size
  w_x : Apart a.w a.ncols a.x a.size
  w_add : ∀ q ∈ a.add, Apart a.w a.ncols q a.size

variable (rsqrt : K → K)

/-- `rsqrt(mean((x+add)^2) + eps)` of a row. -/
def rowScale (g : ℕ → K) (row : ℕ) : K :=
  rsqrt ((∑ c ∈ Finset.range a.ncols, a.input g (row * a.ncols + c) ^ 2) / a.ncols + rmsnormEps)

/-- `(x+add) * rsqrt(mean((x+add)^2) + eps) * w` of an element. -/
def normed (g : ℕ → K) (e : ℕ) : K :=
  a.input g e * a.rowScale rsqrt g (e / a.ncols) * g (a.w + e % a.ncols)

/-- The elements `D` of the outputs are what they should be, for the input in the memory `g₀`, and
nothing else has been touched. With `D` growing row by row this is the part of the invariant about
results. -/
structure Normed (g₀ : ℕ → K) (D : Set ℕ) (g : ℕ → K) : Prop where
  lt : ∀ e ∈ D, e < a.size
  y : ∀ e ∈ D, g (a.y + e) = a.normed rsqrt g₀ e
  sum : ∀ p ∈ a.sum, ∀ e ∈ D, g (p + e) = a.input g₀ e
  dbg : ∀ p ∈ a.dbg, ∀ e ∈ D, g (p + e) = a.input g₀ e
  other : ∀ q, (∀ p, a.IsOut p → ∀ e ∈ D, q ≠ p + e) → g q = g₀ q

end RmsnormArgs

section Outputs

variable {K : Type*} {a : RmsnormArgs} {g₀ g : ℕ → K} {D : Set ℕ}

theorem put_of_mem {p off c : ℕ} {cols : List ℕ} (v : ℕ → K) (hc : c ∈ cols) :
    put (some p) off cols v g (p + (off + c)) = v c := by
  refine store_map_of_mem (f := fun c => p + (off + c)) (fun c c' heq => ?_) v hc g
  exact Nat.add_left_cancel (Nat.add_left_cancel heq)

theorem put_of_ne {o : Option ℕ} {off q : ℕ} {cols : List ℕ} (v : ℕ → K)
    (h : ∀ p ∈ o, ∀ c ∈ cols, q ≠ p + (off + c)) : put o off cols v g q = g q := by
  cases o with
  | none => rfl
  | some p => exact store_map_of_ne v (h p rfl) g

variable [Field K] {rsqrt : K → K}

/-- A round of the write loop touches nothing but its columns of the outputs. -/
theorem emit_of_ne {off q : ℕ} {scale : K} {cols : List ℕ} {v : ℕ → K}
    (h : ∀ p, a.IsOut p → ∀ c ∈ cols, q ≠ p + (off + c)) : a.emit off scale cols v g q = g q := by
  have hy : ∀ p ∈ some a.y, a.IsOut p := fun p hp => .inl (Option.some.inj hp).symm
  rw [RmsnormArgs.emit, put_of_ne _ fun p hp => h p (hy p hp), put_of_ne v fun p hp =>
    h p (.inr (.inr hp)), put_of_ne v fun p hp => h p (.inr (.inl hp))]

/-- What it puts in `y`, if the weight is not among the outputs. -/
theorem emit_y {off c : ℕ} {scale : K} {cols : List ℕ} (v : ℕ → K) (hc : c ∈ cols)
    (hw : ∀ p, a.IsOut p → ∀ c' ∈ cols, a.w + c ≠ p + (off + c')) :
    a.emit off scale cols v g (a.y + (off + c)) = scale * v c * g (a.w + c) := by
  rw [RmsnormArgs.emit, put_of_mem _ hc, put_of_ne v fun p hp => hw p (.inr (.inr hp)),
    put_of_ne v fun p hp => hw p (.inr (.inl hp))]

/-- An element of the tensor. -/
theorem RmsnormArgs.index_lt {row c : ℕ} (hrow : row < a.nrows) (hc : c < a.ncols) :
    row * a.ncols + c < a.size := by
  have h := Nat.mul_le_mul_right a.ncols (Nat.succ_le_of_lt hrow)
  rw [Nat.succ_mul] at h
  exact (Nat.add_lt_add_left hc _).trans_le h

/-- Its row and its column. -/
theorem row_of_index (row : ℕ) {n c : ℕ} (hc : c < n) :
    (row * n + c) / n = row ∧ (row * n + c) % n = c := by
  rw [Nat.mul_comm, Nat.mul_add_div (Nat.zero_lt_of_lt hc), Nat.mul_add_mod, Nat.div_eq_of_lt hc,
    Nat.mod_eq_of_lt hc]
  exact ⟨rfl, rfl⟩

/-- The input of an element that has not been written. -/
theorem RmsnormArgs.Normed.input_eq (h : a.Normed rsqrt g₀ D g) (hL : a.Layout) {e : ℕ}
    (he : e < a.size) (hD : e ∉ D) : a.input g e = a.input g₀ e := by
  have hx : g (a.x + e) = g₀ (a.x + e) := by
    refine h.other _ fun p hp e' he' heq => ?_
    obtain rfl | hapart := hL.out_x p hp
    · exact hD (Nat.add_left_cancel heq ▸ he')
    · exact hapart e' (h.lt e' he') e he heq.symm
  unfold RmsnormArgs.input
  split
  · exact hx
  · next q hq =>
    rw [hx, h.other (q + e) fun p hp e' he' heq =>
      hL.out_add p hp q hq e' (h.lt e' he') e he heq.symm]

theorem RmsnormArgs.Normed.weight_eq (h : a.Normed rsqrt g₀ D g) (hL : a.Layout) {c : ℕ}
    (hc : c < a.ncols) : g (a.w + c) = g₀ (a.w + c) :=
  h.other _ fun p hp e he heq => hL.out_w p hp e (h.lt e he) c hc heq.symm

/-- The elements of some columns. -/
def elems (off : ℕ) (cols : List ℕ) : Set ℕ := {e | ∃ c ∈ cols, e = off + c}

/-- **One round of the write loop.** -/
theorem RmsnormArgs.Normed.emitted (h : a.Normed rsqrt g₀ D g) (hL : a.Layout) {row : ℕ}
    (hrow : row < a.nrows) {cols : List ℕ} (hcols : ∀ c ∈ cols, c < a.ncols) {v : ℕ → K}
    (hv : ∀ c ∈ cols, v c = a.input g₀ (row * a.ncols + c)) :
    a.Normed rsqrt g₀ (D ∪ elems (row * a.ncols) cols)
      (a.emit (row * a.ncols) (a.rowScale rsqrt g₀ row) cols v g) := by
  have hlt : ∀ c ∈ cols, row * a.ncols + c < a.size := fun c hc => a.index_lt hrow (hcols c hc)
  have hy : ∀ p ∈ some a.y, p = a.y := fun p hp => (Option.some.inj hp).symm
  refine ⟨?_, ?_, ?_, ?_, ?_⟩
  · rintro e (he | ⟨c, hc, rfl⟩)
    · exact h.lt e he
    · exact hlt c hc
  · intro e he
    by_cases hnew : e ∈ elems (row * a.ncols) cols
    · obtain ⟨c, hc, rfl⟩ := hnew
      obtain ⟨hrow', hcol⟩ := row_of_index row (hcols c hc)
      have hw := h.weight_eq hL (hcols c hc)
      rw [emit_y v hc fun p hp c' hc' heq => hL.out_w p hp _ (hlt c' hc') c (hcols c hc) heq.symm,
        hv c hc, hw, RmsnormArgs.normed, hrow', hcol]
      ring
    · have he' : e ∈ D := he.resolve_right hnew
      rw [RmsnormArgs.emit, put_of_ne _ fun p hp c hc heq => hnew
        ⟨c, hc, Nat.add_left_cancel (hy p hp ▸ heq)⟩,
        put_of_ne v fun p hp c hc heq => hL.dbg_y p hp _ (hlt c hc) e (h.lt e he') heq.symm,
        put_of_ne v fun p hp c hc heq => hL.sum_y p hp _ (hlt c hc) e (h.lt e he') heq.symm]
      exact h.y e he'
  · intro p hp e he
    have helt : e < a.size := by
      obtain he | ⟨c, hc, rfl⟩ := he
      · exact h.lt e he
      · exact hlt c hc
    rw [RmsnormArgs.emit, put_of_ne _ fun q hq c hc heq => hL.sum_y p hp e helt _ (hlt c hc)
      (hy q hq ▸ heq),
      put_of_ne v fun q hq c hc heq => hL.dbg_sum q hq p hp _ (hlt c hc) e helt heq.symm]
    by_cases hnew : e ∈ elems (row * a.ncols) cols
    · obtain ⟨c, hc, rfl⟩ := hnew
      rw [hp, put_of_mem v hc, hv c hc]
    · rw [put_of_ne v fun q hq c hc heq => ?_]
      · exact h.sum p hp e (he.resolve_right hnew)
      · obtain rfl := Option.some.inj (hp.symm.trans hq)
        exact hnew ⟨c, hc, Nat.add_left_cancel heq⟩
  · intro p hp e he
    have helt : e < a.size := by
      obtain he | ⟨c, hc, rfl⟩ := he
      · exact h.lt e he
      · exact hlt c hc
    rw [RmsnormArgs.emit, put_of_ne _ fun q hq c hc heq => hL.dbg_y p hp e helt _ (hlt c hc)
      (hy q hq ▸ heq)]
    by_cases hnew : e ∈ elems (row * a.ncols) cols
    · obtain ⟨c, hc, rfl⟩ := hnew
      rw [hp, put_of_mem v hc, hv c hc]
    · rw [put_of_ne v fun q hq c hc heq => ?_,
        put_of_ne v fun q hq c hc heq => hL.dbg_sum p hp q hq e helt _ (hlt c hc) heq]
      · exact h.dbg p hp e (he.resolve_right hnew)
      · obtain rfl := Option.some.inj (hp.symm.trans hq)
        exact hnew ⟨c, hc, Nat.add_left_cancel heq⟩
  · intro q hq
    rw [emit_of_ne fun p hp c hc => hq p hp _ (.inr ⟨c, hc, rfl⟩)]
    exact h.other q fun p hp e he => hq p hp e (.inl he)

/-- **The write loop.** -/
theorem RmsnormArgs.Normed.loop (h : a.Normed rsqrt g₀ D g) {ι : Type*} {l : List ι}
    {cols : ι → List ℕ} {off : ℕ} {f : (ℕ → K) → ι → ℕ → K} (hnodup : (l.flatMap cols).Nodup)
    (hD : ∀ c ∈ l.flatMap cols, off + c ∉ D)
    (hf : ∀ D' g', a.Normed rsqrt g₀ D' g' → ∀ i ∈ l, (∀ c ∈ cols i, off + c ∉ D') →
      a.Normed rsqrt g₀ (D' ∪ elems off (cols i)) (f g' i)) :
    a.Normed rsqrt g₀ (D ∪ elems off (l.flatMap cols)) (l.foldl f g) := by
  induction l generalizing D g with
  | nil =>
    have hnone : elems off (flatMap cols []) = ∅ :=
      Set.eq_empty_of_forall_notMem fun e ⟨c, hc, _⟩ => not_mem_nil hc
    rwa [hnone, Set.union_empty]
  | cons i l ih =>
    rw [flatMap_cons] at hnodup hD ⊢
    obtain ⟨-, hnodup', hdisj⟩ := nodup_append.mp hnodup
    have hi := hf D g h i mem_cons_self fun c hc => hD c (mem_append_left _ hc)
    have hrest := ih hi hnodup' ?_ fun D' g' h' j hj => hf D' g' h' j (mem_cons_of_mem i hj)
    · have helems : D ∪ elems off (cols i ++ l.flatMap cols) =
          D ∪ elems off (cols i) ∪ elems off (l.flatMap cols) := by
        ext e
        simp only [elems, Set.mem_union, Set.mem_ofPred_eq, mem_append, or_and_right, exists_or,
          or_assoc]
      rwa [helems]
    · rintro c hc (hmem | ⟨c', hc', heq⟩)
      · exact hD c (mem_append_right _ hc) hmem
      · exact hdisj c' hc' c hc (Nat.add_left_cancel heq).symm

end Outputs

/-! ## The phases -/

theorem aligned16_row {n : ℕ} (h : n % 4 = 0) (p row : ℕ) :
    aligned16 (p + row * n) = aligned16 p := by
  obtain ⟨m, rfl⟩ := Nat.dvd_of_mod_eq_zero h
  have heq : 4 * (p + row * (4 * m)) = 4 * p + 16 * (row * m) := by ring
  rw [aligned16, aligned16, heq, Nat.add_mul_mod_self_left]

namespace RmsnormArgs

variable {a : RmsnormArgs}

/-- The paths do not depend on the row. -/
theorem vec_row (row : ℕ) : a.vec row = a.vec 0 := by
  by_cases h : a.ncols % 4 = 0
  · simp only [vec, aligned16_row h]
  · have hne : (a.ncols % 4 == 0) = false := beq_eq_false_iff_ne.mpr h
    simp only [vec, hne, Bool.false_and]

theorem staged_row (row : ℕ) : a.staged row = a.staged 0 := by
  rw [staged, staged, vec_row]

theorem ncols_of_vec (h : a.vec 0 = true) : a.ncols % 4 = 0 := by
  simp only [vec, Bool.and_eq_true, beq_iff_eq] at h
  exact h.1.1

theorem vec_of_staged (h : a.staged 0 = true) : a.vec 0 = true := by
  rw [staged, Bool.and_eq_true] at h
  exact h.1

theorem wv_row (h : a.staged 0 = true) (row : ℕ) : a.wv row = a.wv 0 := by
  simp only [wv, aligned16_row (ncols_of_vec (vec_of_staged h))]

/-- The write loop goes by `float4`. Then a thread writes what it has staged itself, and nobody can
come in between. -/
def wide (a : RmsnormArgs) : Bool := a.staged 0 && a.wv 0

theorem ncols_of_wide (h : a.wide = true) : a.ncols % 4 = 0 := by
  rw [wide, Bool.and_eq_true] at h
  exact ncols_of_vec (vec_of_staged h.1)

end RmsnormArgs

section Specs

variable {K : Type*} [Field K] {a : RmsnormArgs} {nblk bd : ℕ}

theorem sum_float4 (f : ℕ → K) (is : List ℕ) :
    ((is.flatMap float4).map f).sum =
      (is.map fun i => f (4 * i) + f (4 * i + 1) + f (4 * i + 2) + f (4 * i + 3)).sum := by
  induction is with
  | nil => rfl
  | cons i is ih =>
    have hi : ((float4 i).map f).sum = f (4 * i) + f (4 * i + 1) + f (4 * i + 2) +
      f (4 * i + 3) := by
      simp [float4, range_succ, add_assoc]
    rw [flatMap_cons, map_append, sum_append, ih, hi, map_cons, sum_cons]

/-- What a thread gathers. -/
theorem gather_eq (k : ℕ) (t : ℕ × ℕ) (m : RmsnormMem K) :
    Rmsnorm.gather a nblk bd k t m =
      let v c := a.input m.global (rowOf nblk t.1 k * a.ncols + c)
      let cols := colShare (a.vec 0) a.ncols bd t.2
      { m with
        smem := if a.staged 0 then Function.update m.smem t.1
          (store (cols.map fun c => (stageOff + c, v c)) (m.smem t.1)) else m.smem
        acc := Function.update m.acc t (cols.map fun c => v c ^ 2).sum } := by
  rw [Rmsnorm.gather]
  simp only [RmsnormArgs.vec_row, RmsnormArgs.staged_row]
  cases hvec : a.vec 0 with
  | true =>
    simp only [if_true, colShare]
    rw [foldl_acc (fun _ _ => rfl), zero_add, sum_float4, map_flatMap]
    simp only [sq]
  | false =>
    have hstaged : a.staged 0 = false := by rw [RmsnormArgs.staged, hvec, Bool.false_and]
    simp only [hstaged, colShare, Bool.false_eq_true, if_false]
    rw [foldl_acc (fun _ _ => rfl), zero_add]
    simp only [sq]

theorem nodup_colShare {wide : Bool} {ncols thread : ℕ} (hw : wide = true → ncols % 4 = 0)
    (ht : thread < bd) : (colShare wide ncols bd thread).Nodup := by
  have hall : ((range bd).flatMap (colShare wide ncols bd)).Nodup :=
    (colShare_perm hw (by omega)).nodup_iff.mpr nodup_range
  exact (nodup_flatMap.mp hall).1 thread (mem_range.mpr ht)

/-- The rounds of the write loop, and their columns. -/
def chunks (wide : Bool) (ncols bd thread : ℕ) : List (List ℕ) :=
  if wide then (forRange thread (ncols / 4) bd).map float4
  else (forRange thread ncols bd).map fun i => [i]

theorem flatMap_chunks (wide : Bool) (ncols bd thread : ℕ) :
    (chunks wide ncols bd thread).flatMap id = colShare wide ncols bd thread := by
  cases wide with
  | true => exact flatMap_map _ _ _
  | false => exact (flatMap_map _ _ _).trans (flatMap_singleton' _)

/-- The write loop, for all paths. -/
theorem scatter_eq (k : ℕ) (t : ℕ × ℕ) (m : RmsnormMem K) :
    Rmsnorm.scatter a nblk bd k t m =
      let off := rowOf nblk t.1 k * a.ncols
      { m with
        global := (chunks a.wide a.ncols bd t.2).foldl (fun g cols => a.emit off (m.scale t) cols
          (fun c => if a.staged 0 then m.smem t.1 (stageOff + c) else a.input g (off + c)) g)
          m.global } := by
  rw [Rmsnorm.scatter]
  simp only [RmsnormArgs.staged_row]
  cases hstaged : a.staged 0 with
  | false =>
    have hwide : a.wide = false := by rw [RmsnormArgs.wide, hstaged, Bool.false_and]
    simp only [hwide, chunks, Bool.false_eq_true, if_false, foldl_map]
  | true =>
    have hwide : a.wide = a.wv 0 := by rw [RmsnormArgs.wide, hstaged, Bool.true_and]
    rw [RmsnormArgs.wv_row hstaged, hwide]
    cases hwv : a.wv 0 with
    | false => simp only [chunks, if_true, Bool.false_eq_true, if_false, foldl_map]
    | true => simp only [chunks, if_true, foldl_map]

variable {rsqrt : K → K} {g₀ : ℕ → K} {D : Set ℕ}

/-- **What a thread scatters**, if the scale and the staged row are there. -/
theorem scatter_normed (hL : a.Layout) {k : ℕ} {t : ℕ × ℕ} {m : RmsnormMem K} (ht : t.2 < bd)
    (h : a.Normed rsqrt g₀ D m.global) (hrow : rowOf nblk t.1 k < a.nrows)
    (hD : ∀ c ∈ colShare a.wide a.ncols bd t.2, rowOf nblk t.1 k * a.ncols + c ∉ D)
    (hscale : m.scale t = a.rowScale rsqrt g₀ (rowOf nblk t.1 k))
    (hstage : a.staged 0 = true → ∀ c ∈ colShare a.wide a.ncols bd t.2,
      m.smem t.1 (stageOff + c) = a.input g₀ (rowOf nblk t.1 k * a.ncols + c)) :
    a.Normed rsqrt g₀ (D ∪ elems (rowOf nblk t.1 k * a.ncols) (colShare a.wide a.ncols bd t.2))
      (Rmsnorm.scatter a nblk bd k t m).global := by
  have hnodup : (colShare a.wide a.ncols bd t.2).Nodup :=
    nodup_colShare RmsnormArgs.ncols_of_wide ht
  have hlt : ∀ c ∈ colShare a.wide a.ncols bd t.2, c < a.ncols := fun c hc =>
    ((mem_colShare RmsnormArgs.ncols_of_wide ht).mp hc).1
  rw [scatter_eq, hscale]
  rw [← flatMap_chunks] at hnodup hlt hD hstage ⊢
  refine h.loop hnodup hD fun D' g' h' cols hcols hD' => ?_
  have hmem : ∀ c ∈ cols, c ∈ (chunks a.wide a.ncols bd t.2).flatMap id :=
    fun c hc => mem_flatMap.mpr ⟨cols, hcols, hc⟩
  refine h'.emitted hL hrow (fun c hc => hlt c (hmem c hc)) fun c hc => ?_
  split
  · next hstaged => exact hstage hstaged c (hmem c hc)
  · -- nothing has been written yet where the round reads
    exact h'.input_eq hL (a.index_lt hrow (hlt c (hmem c hc))) (hD' c hc)

end Specs

end Megakernel
