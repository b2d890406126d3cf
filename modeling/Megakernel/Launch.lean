import Mathlib.Algebra.BigOperators.Group.Finset.Sigma
import Megakernel.Loops
import Megakernel.Warps

/-!
# The grid of an op

An instruction runs on the blocks of its range. The ops number the workers of these
blocks through (warps by `warp_slice` of `k0/ops/gemv.cuh`, in other ops the
threads), and share a loop by starting at the own number and stepping by the number
of workers. So every index of the loop belongs to exactly one worker
(`Launch.share_perm`).

An op is described by the list of its stores, worker by worker. `Stores` says that the list, in any
order, has one store for each index; from then on the op may be treated as a function of its index.
-/

namespace Megakernel

open Loops Warps List

/-- `warp_sum`, and `gdn_warp_tree_sum` -/
def laneSum {R : Type*} [Add R] (v : ℕ → R) : ℕ → R := butterfly (· + ·) v

/-- A loop that adds to its accumulator. -/
theorem foldl_acc {ι R : Type*} [AddCommMonoid R] {f : R → ι → R} {g : ι → R}
    (h : ∀ acc i, f acc i = acc + g i) (l : List ι) (acc : R) :
    l.foldl f acc = acc + (l.map g).sum := by
  induction l generalizing acc with
  | nil => rw [foldl_nil, map_nil, sum_nil, add_zero]
  | cons i l ih => rw [foldl_cons, ih, h, map_cons, sum_cons, add_assoc]

/-- The sum over the lanes of what they add up. -/
theorem sum_lanes {R : Type*} [AddCommMonoid R] (l : ℕ → List ℕ) (g : ℕ → R) (n : ℕ) :
    ∑ lane ∈ Finset.range n, ((l lane).map g).sum = (((range n).flatMap l).map g).sum := by
  induction n with
  | zero => rfl
  | succ n ih =>
    rw [Finset.sum_range_succ, ih, range_succ, flatMap_append, map_append, sum_append,
      flatMap_singleton]

/-- The lanes walk the rows of a column in rounds of 32 rows. -/
theorem laneSum_rounds {R : Type*} [AddCommMonoid R] (rounds : ℕ) {lane : ℕ} (f : ℕ → R)
    (hlane : lane < 32) :
    laneSum (fun lane => (range rounds).foldl (fun acc r => acc + f (r * 32 + lane)) 0) lane =
      ∑ i ∈ Finset.range (rounds * 32), f i := by
  rw [laneSum, butterfly_add _ hlane]
  have hlanes : ∀ l, (range rounds).foldl (fun acc r => acc + f (r * 32 + l)) 0 =
      ∑ r ∈ Finset.range rounds, f (r * 32 + l) := fun l => by
    rw [foldl_acc (fun _ _ => rfl), zero_add]
    rfl
  simp only [hlanes]
  rw [Finset.sum_comm]
  clear hlanes
  induction rounds with
  | zero => simp
  | succ n ih =>
    rw [Finset.sum_range_succ, ih, Nat.succ_mul, Finset.sum_range_add]

/-- The block range of an instruction, and the number of workers in a block. What a worker is (a
warp, a thread) is the matter of the op. -/
structure Launch : Type where
  blockLo : ℕ
  blockHi : ℕ
  workers : ℕ
  blockLo_lt : blockLo < blockHi
  workers_pos : 0 < workers

namespace Launch

variable (I : Launch)

/-- The number of workers of the range: `nwarps`, `nthreads`. -/
def total : ℕ := (I.blockHi - I.blockLo) * I.workers

/-- The number of a worker in the range: `gw`, `wid`, `tid`. -/
def number (block worker : ℕ) : ℕ := (block - I.blockLo) * I.workers + worker

/-- The blocks of the range with their workers. -/
def grid : List (ℕ × ℕ) :=
  (range' I.blockLo (I.blockHi - I.blockLo)).flatMap fun block =>
    (range I.workers).map fun worker => (block, worker)

/-- The indices of the loop from `lo` to `hi` that a worker runs through: it starts at its own
number and steps by the number of all workers. -/
def share (lo hi block worker : ℕ) : List ℕ :=
  forRange (lo + I.number block worker) hi I.total

theorem total_pos : 0 < I.total := by
  have hlt := I.blockLo_lt
  exact Nat.mul_pos (by omega) I.workers_pos

theorem mem_grid {block worker : ℕ} :
    (block, worker) ∈ I.grid ↔ (I.blockLo ≤ block ∧ block < I.blockHi) ∧ worker < I.workers := by
  have hlt := I.blockLo_lt
  simp only [grid, mem_flatMap, mem_range'_1, mem_map, mem_range, Prod.mk.injEq]
  constructor
  · rintro ⟨b, hb, w, hw, rfl, rfl⟩
    omega
  · rintro ⟨hb, hw⟩
    exact ⟨block, by omega, worker, hw, rfl, rfl⟩

/-- The workers are numbered through. -/
theorem flatMap_grid {α : Type*} (f : ℕ → List α) :
    (I.grid.flatMap fun w => f (I.number w.1 w.2)) = (range I.total).flatMap f := by
  rw [total, ← flatMap_blocks, grid, flatMap_assoc, range'_eq_map_range, flatMap_map]
  refine flatMap_congr fun b _ => ?_
  rw [flatMap_map]
  refine flatMap_congr fun w _ => ?_
  rw [number, Nat.add_sub_cancel_left]

/-- **Every index of the loop belongs to exactly one worker.** -/
theorem share_perm (lo hi : ℕ) :
    (I.grid.flatMap fun w => I.share lo hi w.1 w.2).Perm (range' lo (hi - lo)) := by
  have h := I.flatMap_grid fun t => forRange (lo + t) hi I.total
  exact h ▸ flatMap_forRange_perm lo hi I.total_pos

variable {R : Type*}

/-- In whatever order the workers store, each index of the loop is stored once, with the value of
`g`, and nothing else is stored. This is what an op has to show about its loop to be used as a
function. -/
def Stores (op : ℕ → ℕ → List (ℕ × R)) (lo hi : ℕ) (g : ℕ → R) : Prop :=
  ∀ ws : List (ℕ × R), ws.Perm (I.grid.flatMap fun w => op w.1 w.2) →
    (ws.map Prod.fst).Perm (range' lo (hi - lo)) ∧
      ∀ dst : ℕ → R, store ws dst = fun i => if lo ≤ i ∧ i < hi then g i else dst i

variable {I} {op : ℕ → ℕ → List (ℕ × R)} {lo hi : ℕ} {g : ℕ → R}

/-- **Workers that store one value for each of their indices.** -/
theorem stores_of_share
    (hop : ∀ block worker, op block worker = (I.share lo hi block worker).map fun i => (i, g i)) :
    I.Stores op lo hi g := by
  intro ws hws
  have hkeys : ((I.grid.flatMap fun w => op w.1 w.2).map Prod.fst) =
      I.grid.flatMap fun w => I.share lo hi w.1 w.2 := by
    rw [map_flatMap]
    refine flatMap_congr fun w _ => ?_
    rw [hop, map_map]
    exact map_id _
  have hperm : (ws.map Prod.fst).Perm (range' lo (hi - lo)) :=
    (hws.map Prod.fst).trans (hkeys ▸ I.share_perm lo hi)
  have hvals : ∀ w ∈ ws, w.2 = g w.1 := by
    intro w hw
    obtain ⟨x, -, hx⟩ := mem_flatMap.mp (hws.mem_iff.mp hw)
    rw [hop] at hx
    obtain ⟨i, -, rfl⟩ := mem_map.mp hx
    rfl
  refine ⟨hperm, fun dst => ?_⟩
  rw [store_eq hvals]
  funext i
  have hmem : i ∈ ws.map Prod.fst ↔ lo ≤ i ∧ i < hi := by
    rw [hperm.mem_iff, mem_range'_1]
    omega
  rw [ite_cond_congr (propext hmem)]

end Launch

/-- Copying words by the threads of a block, as in `stage_words_cg`: each word is copied by one
thread, and the barrier behind it makes all of them visible. -/
def stageWords {W : Type*} (threads nwords : ℕ) (src smem : ℕ → W) : ℕ → W :=
  (range threads).foldl
    (fun smem t => (forRange t nwords threads).foldl
      (fun smem i k => if k = i then src k else smem k) smem) smem

theorem stageWords_apply {W : Type*} {threads nwords i : ℕ} (ht : 0 < threads) (hi : i < nwords)
    (src smem : ℕ → W) : stageWords threads nwords src smem i = src i := by
  have hwrite := foldl_write id src ((range threads).flatMap fun t =>
    forRange t nwords threads) smem
  simp only [id] at hwrite
  rw [stageWords, ← foldl_flatMap, hwrite]
  obtain ⟨t, ⟨hlt, hmem⟩, -⟩ := existsUnique_thread ht hi
  exact if_pos (mem_flatMap.mpr ⟨t, mem_range.mpr hlt, hmem⟩)

end Megakernel
