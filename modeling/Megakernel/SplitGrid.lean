import Mathlib.Algebra.BigOperators.Group.List.Basic
import Mathlib.Data.List.GetD
import Megakernel.Binary64
import Megakernel.Schedule

/-!
# The blocks of a window

`split_grid` of `compile_schedule.py` gives every instruction of a window a share of the grid that
goes with its estimate. The first shares are rounded and never below one block, so they may add up
to less or more than the grid; a loop then goes through the instructions by falling estimate, again
and again, until the sum is right.

An iteration may do nothing, namely when there are too many blocks and the share it comes to is one
block already. With at most as many instructions as blocks some share is greater, and the loop comes
to it within one round (`ends_of_ge`).

The numbers are Python's: estimates are integers or floats, their sum is converted to a float, and a
sum beyond the doubles raises. What the shares are before the loop does not matter to it, so that
rounding does not enter the argument (`splitGrid_shares`).
-/

namespace Megakernel

namespace SplitGrid

open List Schedule

/-! ## Python numbers -/

/-- An estimate: an integer or a finite float. Those of split GEMVs are floats, since the bytes of
the weight are divided by the number of GPUs. -/
inductive Est : Type where
  | int (z : ℤ)
  | float (q : ℚ)

/-- A number in a computation: a Python integer of any size, or a float. -/
inductive PyNum : Type where
  | int (z : ℤ)
  | float (x : Binary64.Double)

/-- What an estimate is worth. -/
def Est.value : Est → ℚ
  | int z => z
  | float q => q

/-- The estimate as a number. -/
def Est.toNum : Est → PyNum
  | int z => .int z
  | float q => .float (.fin q)

/-- `float(x)` -/
def toFloat : PyNum → Except String Binary64.Double
  | .int z =>
    match Binary64.round z with
    | .fin x => .ok (.fin x)
    | _ => .error "OverflowError: int too large to convert to float"
  | .float x => .ok x

/-- `x + y` -/
def PyNum.add : PyNum → PyNum → Except String PyNum
  | .int x, .int y => .ok (.int (x + y))
  | x, y => do return .float (Binary64.add (← toFloat x) (← toFloat y))

/-- `GRID * b` -/
def gridTimes : PyNum → PyNum
  | .int z => .int (grid * z)
  | .float x => .float (Binary64.scale grid x)

/-- `x / total` -/
def trueDiv (x : PyNum) (total : Binary64.Double) : Except String Binary64.Double := do
  let x ← toFloat x
  if total = .fin 0 then .error "ZeroDivisionError: float division by zero"
  else return Binary64.div x total

/-- `int(x)` -/
def toInt : Binary64.Double → Except String ℤ
  | .fin q => .ok (q.num.tdiv q.den)
  | .nan => .error "ValueError: cannot convert float NaN to integer"
  | _ => .error "OverflowError: cannot convert float infinity to integer"

/-! ## The split -/

/-- `sum(ests)` -/
def sumEsts (ests : List Est) : Except String PyNum :=
  ests.foldlM (fun s b => s.add b.toNum) (.int 0)

/-- `max(1, int(GRID * b / total))`: at least one block, so that no instruction of the window is
left out. -/
def firstShare (total : Binary64.Double) (b : Est) : Except String ℤ := do
  let x ← trueDiv (gridTimes b.toNum) total
  let share ← toInt x
  return max 1 share

/-- The shares that the loop starts from. -/
def firstShares (ests : List Est) : Except String (List ℤ) := do
  let s ← sumEsts ests
  let total ← toFloat s
  ests.mapM (firstShare total)

/-- `order`: the instructions by falling estimate. The sort is stable, as Python's is. -/
def order (ests : List Est) : List ℕ :=
  (range ests.length).mergeSort fun i j =>
    decide ((ests.map Est.value).getD j 0 ≤ (ests.map Est.value).getD i 0)

/-- One iteration: the shares, and `i`. -/
def correctStep (ord : List ℕ) (s : List ℤ × ℕ) : List ℤ × ℕ :=
  let j := ord.getD (s.2 % ord.length) 0
  if s.1.sum < grid then (s.1.modify j (· + 1), s.2 + 1)
  else if 1 < s.1.getD j 0 then (s.1.modify j (· - 1), s.2 + 1)
  else (s.1, s.2 + 1)

/-- The loop, for at most so many iterations: nothing if it has not ended by then. Without an
instruction `i % n` throws an exception in the first iteration. -/
def correct (ord : List ℕ) : ℕ → List ℤ × ℕ → Except String (Option (List ℤ))
  | 0, s => .ok (if s.1.sum = grid then some s.1 else none)
  | k + 1, s =>
    if s.1.sum = grid then .ok (some s.1)
    else if ord.length = 0 then .error "ZeroDivisionError: integer modulo by zero"
    else correct ord k (correctStep ord s)

/-- `split_grid`; nothing if the loop does not end within `k` iterations. -/
def splitGrid (k : ℕ) (ests : List Est) : Except String (Option (List ℤ)) :=
  if grid < ests.length then .error "AssertionError"
  else do
    let sh ← firstShares ests
    correct (order ests) k (sh, 0)

/-- The ranges that shares take, one after the other. -/
def ranges : ℤ → List ℤ → List (ℤ × ℤ)
  | _, [] => []
  | lo, share :: sh => (lo, lo + share) :: ranges (lo + share) sh

/-- `block_lo` and `block_hi` of the instructions of a window. -/
def windowRanges (k : ℕ) (ests : List Est) : Except String (Option (List (ℤ × ℤ))) :=
  if ests.length = 1 then .ok (some [(0, grid)])
  else do
    match ← splitGrid k ests with
    | none => return none
    | some sh => if sh.sum ≠ grid then .error "AssertionError" else return some (ranges 0 sh)

/-! ## The loop -/

section Loop

variable {ord : List ℕ} {sh : List ℤ} {i j n : ℕ}

/-- `n` shares of at least one block. -/
def Shares (n : ℕ) (sh : List ℤ) : Prop := sh.length = n ∧ ∀ x ∈ sh, 1 ≤ x

/-- A change of one share changes the sum by what the share is changed by. -/
theorem sum_modify (f : ℤ → ℤ) (h : j < sh.length) :
    (sh.modify j f).sum = sh.sum - sh[j] + f sh[j] := by
  induction sh generalizing j with
  | nil => simp at h
  | cons x sh ih =>
    cases j with
    | zero => simp; ring
    | succ j => simp [ih (Nat.lt_of_succ_lt_succ h)]; ring

/-- A share that is changed to something positive leaves all shares positive. -/
theorem Shares.modify (h : Shares n sh) {f : ℤ → ℤ} (hf : ∀ hj : j < sh.length, 1 ≤ f sh[j]) :
    Shares n (sh.modify j f) := by
  refine ⟨by rw [length_modify, h.1], fun x hx => ?_⟩
  obtain ⟨k, hk, rfl⟩ := mem_iff_getElem.mp hx
  rw [length_modify] at hk
  rw [getElem_modify]
  split
  · next hjk =>
    subst hjk
    exact hf hk
  · exact h.2 _ (getElem_mem hk)

/-- With fewer shares than blocks, some share can be lowered. -/
theorem Shares.exists_gt (h : Shares n sh) (hsum : (n : ℤ) < sh.sum) :
    ∃ j < n, 1 < sh.getD j 0 := by
  by_contra hall
  simp only [not_exists, not_and, not_lt] at hall
  have hle : sh.sum ≤ sh.length • (1 : ℤ) := by
    refine sum_le_card_nsmul sh 1 fun x hx => ?_
    obtain ⟨k, hk, rfl⟩ := mem_iff_getElem.mp hx
    rw [← getD_eq_getElem sh 0 hk]
    exact hall k (h.1 ▸ hk)
  rw [h.1, nsmul_eq_mul, mul_one] at hle
  omega

/-- An iteration keeps the shares. -/
theorem Shares.correctStep (h : Shares n sh) (ord : List ℕ) (i : ℕ) :
    Shares n (correctStep ord (sh, i)).1 := by
  rw [SplitGrid.correctStep]
  split
  · exact h.modify fun hj => (h.2 _ (getElem_mem hj)).trans (by omega)
  · split
    · next hgt =>
      refine h.modify fun hj => ?_
      rw [getD_eq_getElem sh 0 hj] at hgt
      omega
    · exact h

/-- When the loop has ended, the shares add up to the grid. -/
theorem Shares.correct (h : Shares n sh) {k : ℕ} {out : List ℤ}
    (hout : correct ord k (sh, i) = .ok (some out)) : Shares n out ∧ out.sum = grid := by
  induction k generalizing sh i with
  | zero =>
    rw [SplitGrid.correct] at hout
    split at hout
    · next hsum =>
      obtain rfl : sh = out := by simpa using hout
      exact ⟨h, hsum⟩
    · simp at hout
  | succ k ih =>
    rw [SplitGrid.correct] at hout
    split at hout
    · next hsum =>
      obtain rfl : sh = out := by simpa using hout
      exact ⟨h, hsum⟩
    · split at hout
      · cases hout
      · exact ih (h.correctStep ord i) hout

/-- The order goes through every instruction. -/
def Covers (ord : List ℕ) (n : ℕ) : Prop := ord.length = n ∧ ∀ j, j ∈ ord ↔ j < n

/-- The loop ends with `n` shares that add up to the grid, after some number of iterations and no
matter how many more it would be allowed. -/
def Ends (ord : List ℕ) (n : ℕ) (s : List ℤ × ℕ) : Prop :=
  ∃ k out, (∀ l, correct ord (k + l) s = .ok (some out)) ∧ Shares n out ∧ out.sum = grid

/-- The loop ends where the sum is the grid, -/
theorem Ends.done (h : Shares n sh) (hsum : sh.sum = grid) : Ends ord n (sh, i) := by
  refine ⟨0, sh, fun l => ?_, h, hsum⟩
  cases l with
  | zero => exact congrArg Except.ok (if_pos hsum)
  | succ l => exact if_pos hsum

/-- and elsewhere it ends if it does after one more step. -/
theorem Ends.step (hord : ord.length ≠ 0) (hsum : sh.sum ≠ grid)
    (h : Ends ord n (correctStep ord (sh, i))) : Ends ord n (sh, i) := by
  obtain ⟨k, out, hk, hout⟩ := h
  refine ⟨k + 1, out, fun l => ?_, hout⟩
  rw [Nat.add_right_comm, correct]
  exact (if_neg hsum).trans ((if_neg hord).trans (hk l))

/-- The loop goes round in the order, so that it always points at a share. -/
theorem Covers.getD_lt (hord : Covers ord n) (hn : 0 < n) (i : ℕ) :
    ord.getD (i % ord.length) 0 < n := by
  have hi : i % ord.length < ord.length := Nat.mod_lt i (hord.1 ▸ hn)
  rw [getD_eq_getElem ord 0 hi]
  exact (hord.2 _).mp (getElem_mem hi)

/-- While blocks are missing, every iteration adds one. -/
theorem ends_of_le (hord : Covers ord n) (hn : 0 < n) (h : Shares n sh) {d : ℕ}
    (hsum : sh.sum + d = grid) : Ends ord n (sh, i) := by
  induction d generalizing sh i with
  | zero => exact Ends.done h (by simpa using hsum)
  | succ d ih =>
    have hlt : sh.sum < grid := by omega
    apply Ends.step (hord.1.trans_ne hn.ne') hlt.ne
    have hj := hord.getD_lt hn i
    rw [correctStep, if_pos hlt]
    dsimp only
    apply ih
    · exact h.modify fun hj => (h.2 _ (getElem_mem hj)).trans (by omega)
    · rw [sum_modify _ (h.1.symm ▸ hj)]
      push_cast at hsum
      omega

/-- The loop skips shares of one block, and comes to a greater one. -/
theorem ends_of_gt (hord : ord.length ≠ 0) (hsum : (grid : ℤ) < sh.sum)
    (hlow : ∀ i' j, 1 < sh.getD j 0 → Ends ord n (sh.modify j (· - 1), i')) {m : ℕ}
    (hm : 1 < sh.getD (ord.getD ((i + m) % ord.length) 0) 0) : Ends ord n (sh, i) := by
  induction m generalizing i with
  | zero =>
    apply Ends.step hord hsum.ne'
    rw [correctStep, if_neg (not_lt.mpr hsum.le)]
    dsimp only
    rw [Nat.add_zero] at hm
    rw [if_pos hm]
    exact hlow _ _ hm
  | succ m ih =>
    apply Ends.step hord hsum.ne'
    rw [correctStep, if_neg (not_lt.mpr hsum.le)]
    split
    · next hj => exact hlow _ _ hj
    · apply ih
      rwa [Nat.add_right_comm, Nat.add_assoc]

/-- While there are too many blocks, one is taken away within one round. -/
theorem ends_of_ge (hord : Covers ord n) (hn : n ≤ grid) (h : Shares n sh) {d : ℕ}
    (hsum : sh.sum = grid + d) : Ends ord n (sh, i) := by
  induction d generalizing sh i with
  | zero => exact Ends.done h (by simpa using hsum)
  | succ d ih =>
    have hgt : (grid : ℤ) < sh.sum := by omega
    obtain ⟨j, hj, hgt'⟩ := h.exists_gt (by omega)
    obtain ⟨m, hm, rfl⟩ := mem_iff_getElem.mp ((hord.2 j).mpr hj)
    have hlow : ∀ i' j, 1 < sh.getD j 0 → Ends ord n (sh.modify j (· - 1), i') := by
      intro i' j hj
      have hlt : j < sh.length := by
        by_contra hge
        rw [getD_eq_default _ _ (not_lt.mp hge)] at hj
        omega
      rw [getD_eq_getElem sh 0 hlt] at hj
      apply ih
      · exact h.modify fun _ => by omega
      · rw [sum_modify _ hlt]
        push_cast at hsum
        omega
    -- the loop comes to the place of that share after less than one more round
    refine ends_of_gt (m := ord.length - i % ord.length + m) (Nat.ne_zero_of_lt hm) hgt hlow ?_
    have hround : (i + (ord.length - i % ord.length + m)) % ord.length = m := by
      have hi := Nat.mod_lt i (Nat.zero_lt_of_lt hm)
      have hdiv := Nat.mod_add_div i ord.length
      have heq : i + (ord.length - i % ord.length + m) = m + ord.length * (i / ord.length + 1) := by
        rw [Nat.mul_succ]
        omega
      rw [heq, Nat.add_mul_mod_self_left, Nat.mod_eq_of_lt hm]
    rw [hround, getD_eq_getElem ord 0 hm]
    exact hgt'

end Loop

/-! ## The first shares -/

/-- A comprehension that may raise succeeds if it does for every element, and its results stand in
the order of the elements. -/
theorem mapM_ok {α β : Type} {f : α → Except String β} {l : List α} {out : List β}
    (h : l.mapM f = .ok out) : Forall₂ (fun a b => f a = .ok b) l out := by
  induction l generalizing out with
  | nil =>
    obtain rfl : [] = out := by simpa [pure, Except.pure] using h
    exact Forall₂.nil
  | cons a l ih =>
    rw [mapM_cons] at h
    rcases ha : f a with e | b
    · rw [ha] at h
      cases h
    rcases hl : l.mapM f with e | bs
    · rw [ha, hl] at h
      cases h
    rw [ha, hl] at h
    obtain rfl : b :: bs = out := by simpa [bind, Except.bind, pure, Except.pure] using h
    exact Forall₂.cons ha (ih hl)

/-- A step and what follows succeed if the step does and what follows does with its result. -/
theorem bind_ok {α β : Type} {x : Except String α} {f : α → Except String β} {r : β} :
    (x >>= f) = .ok r ↔ ∃ a, x = .ok a ∧ f a = .ok r := by
  cases x with
  | error e => simp [bind, Except.bind]
  | ok a => simp [bind, Except.bind]

/-- The `max(1, ...)` around the first share of an instruction, -/
theorem one_le_of_firstShare {total : Binary64.Double} {b : Est} {x : ℤ}
    (h : firstShare total b = .ok x) : 1 ≤ x := by
  obtain ⟨q, -, h⟩ := bind_ok.mp h
  obtain ⟨share, -, h⟩ := bind_ok.mp h
  obtain rfl : max 1 share = x := by simpa [pure, Except.pure] using h
  exact le_max_left _ _

/-- which makes all first shares positive. -/
theorem shares_firstShares {ests : List Est} {sh : List ℤ} (h : firstShares ests = .ok sh) :
    Shares ests.length sh := by
  obtain ⟨s, -, h⟩ := bind_ok.mp h
  obtain ⟨total, -, h⟩ := bind_ok.mp h
  have hall := mapM_ok h
  refine ⟨hall.length_eq.symm, fun x hx => ?_⟩
  obtain ⟨k, hk, rfl⟩ := mem_iff_getElem.mp hx
  exact one_le_of_firstShare (hall.get (hall.length_eq ▸ hk) hk)

/-- The order is a permutation of the instructions. -/
theorem covers_order (ests : List Est) : Covers (order ests) ests.length := by
  have hperm := mergeSort_perm (range ests.length) fun i j =>
    decide ((ests.map Est.value).getD j 0 ≤ (ests.map Est.value).getD i 0)
  refine ⟨hperm.length_eq.trans (length_range), fun j => ?_⟩
  exact hperm.mem_iff.trans mem_range

/-! ### Integers -/

section Integers

variable {zs : List ℤ} {z : ℤ}

/-- Estimates that are integers are added as integers, without rounding. -/
theorem sumEsts_int (zs : List ℤ) : sumEsts (zs.map .int) = .ok (.int zs.sum) := by
  have hfold : ∀ s : ℤ, (zs.map Est.int).foldlM (fun (s : PyNum) b => s.add b.toNum)
      (.int s) = Except.ok (.int (s + zs.sum)) := by
    induction zs with
    | nil => intro s; simp [pure, Except.pure]
    | cons z zs ih =>
      intro s
      rw [map_cons, foldlM_cons, sum_cons, ← add_assoc]
      exact ih (s + z)
  rw [sumEsts, hfold, zero_add]

/-- The grid is far from where products with it would not be finite. -/
theorem grid_lt_tooLarge : 8 * (grid : ℚ) < Binary64.tooLarge := by
  rw [Binary64.tooLarge]
  calc 8 * (grid : ℚ) < 2 ^ (10 : ℤ) := by norm_num [grid]
    _ ≤ 2 ^ (1024 : ℤ) := zpow_le_zpow_right₀ one_le_two (by decide)

/-- The first share of an integer estimate, in the range of doubles. -/
theorem firstShare_int {r : ℚ} (hz : 0 ≤ z) (hr : 0 < r) (hzr : (z : ℚ) ≤ 2 * r)
    (hlarge : 2 * (grid * z : ℚ) < Binary64.tooLarge) :
    ∃ x, firstShare (.fin r) (.int z) = .ok x := by
  have hz : (0 : ℚ) ≤ z := by exact_mod_cast hz
  obtain ⟨q, hq, hq0, hle, -⟩ := Binary64.round_of_lt (by positivity) hlarge
  have hdiv : q / r ≤ 4 * grid := by
    rw [div_le_iff₀ hr]
    calc q ≤ 2 * (grid * z) := hle
      _ ≤ 2 * (grid * (2 * r)) := by gcongr
      _ = 4 * grid * r := by ring
  have hlt : 2 * (q / r) < Binary64.tooLarge :=
    (by linarith : 2 * (q / r) ≤ 8 * grid).trans_lt grid_lt_tooLarge
  obtain ⟨x, hx, -⟩ := Binary64.round_of_lt (by positivity) hlt
  have hfloat : toFloat (.int (grid * z)) = .ok (.fin q) := by
    rw [toFloat]
    push_cast
    rw [hq]
  have hne : (Ieee.Value.fin r : Binary64.Double) ≠ .fin 0 := by
    simpa using hr.ne'
  refine ⟨max 1 (x.num.tdiv x.den), bind_ok.mpr ⟨.fin x, ?_, ?_⟩⟩
  · refine bind_ok.mpr ⟨_, hfloat, ?_⟩
    rw [if_neg hne, Binary64.div, hx]
    rfl
  · rfl

/-- Positive integers whose sum leaves room for the factor in the range of doubles have first
shares. -/
theorem firstShares_int (hne : zs ≠ []) (hpos : ∀ z ∈ zs, 1 ≤ z)
    (hlarge : 2 * (grid * zs.sum : ℚ) < Binary64.tooLarge) :
    ∃ first, firstShares (zs.map .int) = .ok first := by
  have hnonneg : ∀ z ∈ zs, 0 ≤ z := fun z hz => zero_le_one.trans (hpos z hz)
  have hle : ∀ z ∈ zs, z ≤ zs.sum := fun z hz => single_le_sum hnonneg z hz
  obtain ⟨z₀, hz₀⟩ := exists_mem_of_ne_nil zs hne
  have hone : (1 : ℚ) ≤ zs.sum := by exact_mod_cast (hpos z₀ hz₀).trans (hle z₀ hz₀)
  have hsum : 2 * (zs.sum : ℚ) < Binary64.tooLarge := by
    refine lt_of_le_of_lt ?_ hlarge
    have h1 : (1 : ℚ) ≤ grid := by norm_num [grid]
    exact mul_le_mul_of_nonneg_left (le_mul_of_one_le_left (by linarith) h1) zero_le_two
  obtain ⟨r, hr, -, -, hr2⟩ := Binary64.round_of_lt (by positivity) hsum
  have hr0 : 0 < r := by linarith [hr2 hone]
  have hall : ∀ l ⊆ zs, ∃ first, (l.map Est.int).mapM (firstShare (.fin r)) = .ok first := by
    intro l hl
    induction l with
    | nil => exact ⟨[], rfl⟩
    | cons z l ih =>
      have hz : z ∈ zs := hl mem_cons_self
      have hzle : (z : ℚ) ≤ zs.sum := by exact_mod_cast hle z hz
      obtain ⟨x, hx⟩ := firstShare_int (hnonneg z hz) hr0 (hzle.trans (hr2 hone))
        (lt_of_le_of_lt (by gcongr) hlarge)
      obtain ⟨first, hfirst⟩ := ih fun y hy => hl (mem_cons_of_mem _ hy)
      refine ⟨x :: first, ?_⟩
      rw [map_cons, mapM_cons, hx, hfirst]
      rfl
  obtain ⟨first, hfirst⟩ := hall zs (Subset.refl zs)
  refine ⟨first, bind_ok.mpr ⟨_, sumEsts_int zs, bind_ok.mpr ⟨.fin r, ?_, hfirst⟩⟩⟩
  rw [toFloat, hr]

end Integers

/-! ## The ranges -/

/-- Ranges that are not empty and lead from `lo` to `hi`, one after the other. So every block of the
grid runs exactly one instruction of the window. -/
def Tiles : ℤ → ℤ → List (ℤ × ℤ) → Prop
  | lo, hi, [] => lo = hi
  | lo, hi, r :: rs => r.1 = lo ∧ lo < r.2 ∧ Tiles r.2 hi rs

/-- No range begins in front of the first. -/
theorem Tiles.le_fst {lo hi : ℤ} {rs : List (ℤ × ℤ)} {k : ℕ} {r : ℤ × ℤ} (h : Tiles lo hi rs)
    (hk : rs[k]? = some r) : lo ≤ r.1 := by
  induction rs generalizing lo k with
  | nil => simp at hk
  | cons r' rs ih =>
    obtain ⟨rfl, hlt, htail⟩ := h
    cases k with
    | zero =>
      obtain rfl : r' = r := by simpa using hk
      exact le_rfl
    | succ k => exact hlt.le.trans (ih htail (by simpa using hk))

theorem Tiles.le {lo hi : ℤ} {rs : List (ℤ × ℤ)} (h : Tiles lo hi rs) : lo ≤ hi := by
  induction rs generalizing lo with
  | nil => exact le_of_eq h
  | cons r rs ih => exact h.2.1.le.trans (ih h.2.2)

/-- None of the ranges is empty, and none leaves the whole. -/
theorem Tiles.mem {lo hi : ℤ} {rs : List (ℤ × ℤ)} (h : Tiles lo hi rs) :
    ∀ r ∈ rs, lo ≤ r.1 ∧ r.1 < r.2 ∧ r.2 ≤ hi := by
  induction rs generalizing lo with
  | nil => exact fun r hr => absurd hr not_mem_nil
  | cons r rs ih =>
    obtain ⟨rfl, hlt, htail⟩ := h
    refine forall_mem_cons.mpr ⟨⟨le_rfl, hlt, htail.le⟩, fun s hs => ?_⟩
    have hmem := ih htail s hs
    exact ⟨hlt.le.trans hmem.1, hmem.2⟩

/-- Every block is in exactly one of the ranges. -/
theorem Tiles.existsUnique {lo hi b : ℤ} {rs : List (ℤ × ℤ)} (h : Tiles lo hi rs) (hlo : lo ≤ b)
    (hhi : b < hi) : ∃! k : ℕ, ∃ r : ℤ × ℤ, rs[k]? = some r ∧ r.1 ≤ b ∧ b < r.2 := by
  induction rs generalizing lo with
  | nil => exact absurd (h : lo = hi) (hlo.trans_lt hhi).ne
  | cons r rs ih =>
    obtain ⟨rfl, hlt, htail⟩ := h
    obtain hin | hout := lt_or_ge b r.2
    · refine ⟨0, ⟨r, rfl, hlo, hin⟩, ?_⟩
      rintro (_ | k) ⟨r', hk, hr', -⟩
      · rfl
      · have hge := htail.le_fst (by simpa using hk)
        omega
    · obtain ⟨k, ⟨r', hk, hr'⟩, huniq⟩ := ih htail hout
      refine ⟨k + 1, ⟨r', by simpa using hk, hr'⟩, ?_⟩
      rintro (_ | k') ⟨r'', hk', hr''⟩
      · obtain rfl : r = r'' := by simpa using hk'
        omega
      · exact congrArg (· + 1) (huniq k' ⟨r'', by simpa using hk', hr''⟩)

/-- Ranges of positive shares tile what their sum spans. -/
theorem tiles_ranges {lo : ℤ} {sh : List ℤ} (h : ∀ x ∈ sh, 1 ≤ x) :
    Tiles lo (lo + sh.sum) (ranges lo sh) := by
  induction sh generalizing lo with
  | nil => simp [Tiles, ranges]
  | cons x sh ih =>
    have hx := h x mem_cons_self
    refine ⟨rfl, by simp only; omega, ?_⟩
    rw [sum_cons, ← add_assoc]
    exact ih fun y hy => h y (mem_cons_of_mem _ hy)

/-- Every share has a range. -/
theorem length_ranges (lo : ℤ) (sh : List ℤ) : (ranges lo sh).length = sh.length := by
  induction sh generalizing lo with
  | nil => rfl
  | cons x sh ih => exact congrArg (· + 1) (ih _)

/-- The ranges of a window tile the grid, whatever the estimates and however long the loop runs. -/
theorem tiles_windowRanges {ests : List Est} {k : ℕ} {rs : List (ℤ × ℤ)}
    (h : windowRanges k ests = .ok (some rs)) : rs.length = ests.length ∧ Tiles 0 grid rs := by
  rw [windowRanges] at h
  split at h
  · next hone =>
    obtain rfl : [(0, (grid : ℤ))] = rs := by simpa using h
    exact ⟨hone.symm, rfl, by decide, rfl⟩
  · obtain ⟨out, hsplit, h⟩ := bind_ok.mp h
    rw [splitGrid] at hsplit
    split at hsplit
    · cases hsplit
    obtain ⟨first, hfirst, hcorrect⟩ := bind_ok.mp hsplit
    cases out with
    | none => cases h
    | some sh =>
      obtain ⟨hshares, hsum⟩ := (shares_firstShares hfirst).correct hcorrect
      obtain rfl : ranges 0 sh = rs := by simpa [hsum, pure, Except.pure] using h
      refine ⟨(length_ranges 0 sh).trans hshares.1, ?_⟩
      simpa only [zero_add, hsum] using @tiles_ranges 0 sh hshares.2

/-- The correction ends on the first shares of 1 to 72 instructions, by induction on the distance
between sum and grid. Where shares of 1 are in the way they are passed over, and there is always a
share that can give something up. -/
theorem ends_correct {ests : List Est} {first : List ℤ} (hne : 1 ≤ ests.length)
    (hgrid : ests.length ≤ grid) (hfirst : firstShares ests = .ok first) :
    Ends (order ests) ests.length (first, 0) := by
  have hcov := covers_order ests
  have hshares := shares_firstShares hfirst
  obtain hle | hge := le_total first.sum grid
  · apply ends_of_le hcov hne hshares (d := (grid - first.sum).toNat)
    omega
  · apply ends_of_ge hcov hgrid hshares (d := (first.sum - grid).toNat)
    omega

/-- A window of positive integer estimates gets its ranges. -/
theorem exists_windowRanges {zs : List ℤ} (hne : zs ≠ []) (hgrid : zs.length ≤ grid)
    (hpos : ∀ z ∈ zs, 1 ≤ z) (hlarge : 2 * (grid * zs.sum : ℚ) < Binary64.tooLarge) :
    ∃ k rs, windowRanges k (zs.map .int) = .ok (some rs) := by
  by_cases hone : (zs.map Est.int).length = 1
  · exact ⟨0, [(0, grid)], if_pos hone⟩
  · have hlen : (zs.map Est.int).length = zs.length := length_map Est.int
    obtain ⟨first, hfirst⟩ := firstShares_int hne hpos hlarge
    obtain ⟨k, sh, hk, -, hsum⟩ := ends_correct
      (hlen ▸ Nat.one_le_iff_ne_zero.mpr (mt length_eq_zero_iff.mp hne)) (hlen ▸ hgrid) hfirst
    have hsplit : splitGrid k (zs.map .int) = .ok (some sh) := by
      rw [splitGrid, if_neg (not_lt.mpr (hlen ▸ hgrid)), hfirst]
      exact hk 0
    refine ⟨k, ranges 0 sh, ?_⟩
    rw [windowRanges, if_neg hone, hsplit]
    exact if_neg (not_not.mpr hsum)

/-- The loop ends, whatever the first shares are, and the ranges of the window tile the
grid. -/
theorem splitGrid_shares (ests : List Est) (first : List ℤ) (hne : 1 ≤ ests.length)
    (hgrid : ests.length ≤ grid) (hfirst : firstShares ests = .ok first) :
    ∃ k sh, (∀ l, splitGrid (k + l) ests = .ok (some sh)) ∧
      sh.length = ests.length ∧ (∀ x ∈ sh, 1 ≤ x) ∧ sh.sum = grid ∧
      ∃ rs, (∀ l, windowRanges (k + l) ests = .ok (some rs)) ∧
        rs.length = ests.length ∧ Tiles 0 grid rs ∧
        ∀ b : ℤ, 0 ≤ b → b < grid → ∃! i : ℕ, ∃ r : ℤ × ℤ, rs[i]? = some r ∧ r.1 ≤ b ∧ b < r.2 := by
  obtain ⟨k, sh, hk, ⟨hlen, hone⟩, hsum⟩ := ends_correct hne hgrid hfirst
  have hsplit : ∀ l, splitGrid (k + l) ests = .ok (some sh) := by
    intro l
    rw [splitGrid, if_neg (not_lt.mpr hgrid), hfirst]
    exact hk l
  refine ⟨k, sh, hsplit, hlen, hone, hsum, ?_⟩
  by_cases h1 : ests.length = 1
  · have htiles : Tiles 0 grid [(0, (grid : ℤ))] := ⟨rfl, by decide, rfl⟩
    refine ⟨[(0, grid)], fun l => ?_, h1.symm, htiles, fun b => htiles.existsUnique⟩
    rw [windowRanges, if_pos h1]
  · have htiles : Tiles 0 grid (ranges 0 sh) := by
      simpa only [zero_add, hsum] using @tiles_ranges 0 sh hone
    refine ⟨ranges 0 sh, fun l => ?_, (length_ranges 0 sh).trans hlen, htiles,
      fun b => htiles.existsUnique⟩
    rw [windowRanges, if_neg h1, hsplit]
    exact if_neg (not_not.mpr hsum)

/-- Three instructions, two of them tiny: the first shares are one block too many. -/
theorem splitGrid_shares_three :
    (∃ first, firstShares [Est.int 1000, .int 1, .int 1] = .ok first ∧ first.sum = 73) ∧
    ∃ k sh, (∀ l, splitGrid (k + l) [Est.int 1000, .int 1, .int 1] = .ok (some sh)) ∧
      sh.length = 3 ∧ (∀ x ∈ sh, 1 ≤ x) ∧ sh.sum = grid ∧
      ∃ rs, (∀ l, windowRanges (k + l) [Est.int 1000, .int 1, .int 1] = .ok (some rs)) ∧
        rs.length = 3 ∧ Tiles 0 grid rs ∧
        ∀ b : ℤ, 0 ≤ b → b < grid →
          ∃! i : ℕ, ∃ r : ℤ × ℤ, rs[i]? = some r ∧ r.1 ≤ b ∧ b < r.2 := by
  have hfirst : firstShares [Est.int 1000, .int 1, .int 1] = .ok [71, 1, 1] := by
    decide +kernel
  exact ⟨⟨_, hfirst, rfl⟩, splitGrid_shares _ _ (by decide) (by decide) hfirst⟩

/-- The sum of the estimates has to be a double: beyond, there are no first shares. -/
theorem splitGrid_overflow :
    ∃ ests : List Est, ests.length = 2 ∧ (∀ b ∈ ests, 0 < b.value) ∧
      ∀ k, splitGrid k ests = .error "OverflowError: int too large to convert to float" := by
  refine ⟨[.int (2 ^ 1024), .int 1], rfl, ?_, fun k => ?_⟩
  · refine forall_mem_cons.mpr ⟨?_, forall_mem_singleton.mpr ?_⟩
    · exact Int.cast_pos.mpr (pow_pos two_pos 1024)
    · exact Int.cast_pos.mpr one_pos
  · have hlarge : Binary64.tooLarge ≤ ((2 ^ 1024 + 1 : ℤ) : ℚ) := by
      rw [Binary64.tooLarge, show (1024 : ℤ) = (1024 : ℕ) from rfl, zpow_natCast]
      push_cast
      exact le_add_of_nonneg_right zero_le_one
    have hsum := sumEsts_int [2 ^ 1024, 1]
    rw [sum_cons, sum_singleton] at hsum
    have hfirst : firstShares [.int (2 ^ 1024), .int 1] =
        .error "OverflowError: int too large to convert to float" := by
      rw [firstShares, ← map_singleton, ← map_cons, hsum]
      simp only [bind, Except.bind, toFloat, Binary64.round_of_ge hlarge]
    rw [splitGrid, if_neg (by decide), hfirst]
    rfl

end SplitGrid

end Megakernel
