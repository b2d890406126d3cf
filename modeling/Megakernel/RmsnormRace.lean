import Megakernel.RmsnormOrder

/-!
# A staged row that is overtaken

When `op_rmsnorm` writes single floats from the staged row, thread 1 scatters what thread 0
has staged, and there is no barrier between its scatter and the staging of the next row. So
if the block has one, thread 0 may run on and stage it before thread 1 has scattered
(`ahead`), and thread 1 writes a float of the wrong row. Apart from this every order of the
threads yields the reference: `rmsnorm_correct_iff`.

The order is not built step by step. It is enough to give a cut that the waiting allows
(`cut_ahead`), since every such cut is reached (`Threads.exists_reach`).
-/

namespace Megakernel

open Loops Warps List Phases

section Race

variable {K : Type*} [Field K] {rsqrt : K → K} {a : RmsnormArgs} {nblk bd : ℕ}

/-! ## The write loop at one place -/

/-- Elements of `y` belong to no other output. -/
theorem RmsnormArgs.Layout.y_inj (hL : a.Layout) {p e e' : ℕ} (hp : a.IsOut p) (he : e < a.size)
    (he' : e' < a.size) (heq : a.y + e = p + e') : e = e' := by
  obtain rfl | hp | hp := hp
  · exact Nat.add_left_cancel heq
  · exact absurd heq.symm (hL.sum_y p hp e' he' e he)
  · exact absurd heq.symm (hL.dbg_y p hp e' he' e he)

omit [Field K] in
/-- What none of the updates writes stays as it is. -/
theorem foldl_of_ne {ι κ : Type*} {l : List ι} {f : (κ → K) → ι → κ → K} {q : κ}
    (h : ∀ g, ∀ i ∈ l, f g i q = g q) (g : κ → K) : l.foldl f g q = g q := by
  induction l generalizing g with
  | nil => rfl
  | cons i l ih =>
    rw [foldl_cons, ih (fun g' j hj => h g' j (mem_cons_of_mem i hj)), h g i mem_cons_self]

/-- What the loop puts in one place of `y`. -/
theorem foldl_emit_y (hL : a.Layout) (scale : K) (v : ℕ → K) {row c : ℕ} {l : List (List ℕ)}
    (hrow : row < a.nrows) (hlt : ∀ c ∈ l.flatMap id, c < a.ncols) (hnodup : (l.flatMap id).Nodup)
    (hc : c ∈ l.flatMap id) (g : ℕ → K) :
    l.foldl (fun g cols => a.emit (row * a.ncols) scale cols v g) g (a.y + (row * a.ncols + c)) =
      scale * v c * g (a.w + c) := by
  have hindex : ∀ c ∈ l.flatMap id, row * a.ncols + c < a.size := fun c hc =>
    a.index_lt hrow (hlt c hc)
  have hw : ∀ p, a.IsOut p → ∀ c' ∈ l.flatMap id, a.w + c ≠ p + (row * a.ncols + c') :=
    fun p hp c' hc' heq => hL.out_w p hp _ (hindex c' hc') c (hlt c hc) heq.symm
  induction l generalizing g with
  | nil => cases hc
  | cons cols l ih =>
    rw [flatMap_cons] at hlt hnodup hc hindex hw
    obtain ⟨-, hnodup', hdisj⟩ := nodup_append.mp hnodup
    have hleft : ∀ c' ∈ cols, c' ∈ id cols ++ l.flatMap id := fun c' => mem_append_left _
    have hright : ∀ c' ∈ l.flatMap id, c' ∈ id cols ++ l.flatMap id := fun c' => mem_append_right _
    rw [foldl_cons]
    by_cases hfirst : c ∈ cols
    · rw [foldl_of_ne, emit_y v hfirst fun p hp c' hc' => hw p hp c' (hleft c' hc')]
      intro g' cols' hcols'
      refine emit_of_ne fun p hp c' hc' heq => ?_
      have hmem : c' ∈ l.flatMap id := mem_flatMap.mpr ⟨cols', hcols', hc'⟩
      have hsame := hL.y_inj hp (hindex c hc) (hindex c' (hright c' hmem)) heq
      exact hdisj c hfirst c' hmem (Nat.add_left_cancel hsame)
    · have hrest : c ∈ l.flatMap id := (mem_append.mp hc).resolve_left hfirst
      rw [ih (fun c' hc' => hlt c' (hright c' hc')) hnodup' hrest _
          (fun c' hc' => hindex c' (hright c' hc')) fun p hp c' hc' => hw p hp c' (hright c' hc'),
        emit_of_ne fun p hp c' hc' => hw p hp c' (hleft c' hc')]

/-- A step of another thread leaves an element of `y` alone. -/
theorem next_global_y (hL : a.Layout) {s : Phases.State (ℕ × ℕ) (RmsnormMem K)} {b u e : ℕ}
    (he : e < a.size) (hready : (opRmsnorm rsqrt a nblk bd).Ready s.pc (b, u))
    (hne : s.pc (b, u) % 6 = 5 → ∀ c ∈ colShare a.wide a.ncols bd u,
      e ≠ rowOf nblk b (s.pc (b, u) / 6) * a.ncols + c) :
    ((opRmsnorm rsqrt a nblk bd).next s (b, u)).mem.global (a.y + e) = s.mem.global (a.y + e) := by
  obtain ⟨hb, hu, hrow⟩ := ready_row hready
  have hlt : s.pc (b, u) % 6 < 6 := Nat.mod_lt _ (by decide)
  rcases hp : s.pc (b, u) % 6 with _ | _ | _ | _ | _ | _ | p <;>
    simp only [Threads.next, opRmsnorm, rmsnormPhase, hp]
  · rw [gather_eq]
  · rw [Rmsnorm.publish]
    split <;> rfl
  · rw [Rmsnorm.fold]
    split <;> rfl
  · rw [Rmsnorm.rescale]
    split <;> rfl
  · rfl
  · rw [scatter_eq]
    refine foldl_of_ne (fun g cols hcols => emit_of_ne fun p hp' c hc heq => ?_) _
    have hmem : c ∈ colShare a.wide a.ncols bd u := by
      rw [← flatMap_chunks]
      exact mem_flatMap.mpr ⟨cols, hcols, hc⟩
    have hcol := ((mem_colShare RmsnormArgs.ncols_of_wide hu).mp hmem).1
    exact hne hp c hmem (hL.y_inj hp' he (a.index_lt hrow hcol) heq)
  · omega

/-! ## Running ahead -/

/-- Thread 0 of block 0 has staged its second row, when the other threads of the block are about to
scatter the first. As a cut this is allowed, since no barrier stands between the two. -/
def ahead (bd : ℕ) (t : ℕ × ℕ) : ℕ :=
  if t.1 = 0 ∧ t.2 < bd then if t.2 = 0 then 7 else 5 else 0

theorem ahead_zero (hbd : 0 < bd) : ahead bd (0, 0) = 7 := by
  rw [ahead, if_pos ⟨rfl, hbd⟩, if_pos rfl]

theorem ahead_of_ne {u : ℕ} (hu : u < bd) (hne : u ≠ 0) : ahead bd (0, u) = 5 := by
  rw [ahead, if_pos ⟨rfl, hu⟩, if_neg hne]

theorem le_ahead {u : ℕ} (hu : u < bd) : 5 ≤ ahead bd (0, u) := by
  rw [ahead, if_pos ⟨rfl, hu⟩]
  split <;> decide

theorem ahead_le (bd : ℕ) (t : ℕ × ℕ) : ahead bd t ≤ 7 := by
  rw [ahead]
  split
  · split <;> decide
  · decide

/-- Only thread 0 is past the first scatter. -/
theorem ahead_past {t : ℕ × ℕ} (h : 5 < ahead bd t) : t = (0, 0) := by
  rw [ahead] at h
  split at h
  · next hin =>
    split at h
    · next hzero => exact Prod.ext hin.1 hzero
    · exact absurd h (lt_irrefl 5)
  · exact absurd h (by decide)

/-- A block that has a second row has at least two rows' worth of phases in front of it. -/
theorem len_of_second (rsqrt : K → K) (hnblk : 0 < nblk) (h : nblk < a.nrows) {u : ℕ}
    (hu : u < bd) :
    12 ≤ (opRmsnorm rsqrt a nblk bd).len (0, u) := by
  have hrows : 1 < (a.rows nblk 0).length := by
    rw [RmsnormArgs.rows, lt_length_forRange hnblk]
    omega
  simp only [opRmsnorm]
  rw [if_pos ⟨hnblk, hu⟩]
  omega

/-- **The barriers allow it.** -/
theorem cut_ahead (rsqrt : K → K) (hnblk : 0 < nblk) (h : nblk < a.nrows) :
    (opRmsnorm rsqrt a nblk bd).Cut (ahead bd) where
  le := by
    rintro ⟨b, u⟩
    by_cases hin : b = 0 ∧ u < bd
    · obtain ⟨rfl, hu⟩ := hin
      have hlen := len_of_second rsqrt hnblk h hu
      exact (ahead_le bd _).trans (by omega)
    · rw [ahead, if_neg hin]
      exact Nat.zero_le _
  waits := by
    rintro p ⟨b, u⟩ ⟨b', u'⟩ ⟨hb, hu', hphase⟩ hlt
    obtain rfl : b' = b := hb
    have hp : p ≠ 6 := by
      rintro rfl
      exact hphase
    by_cases hin : b' = 0 ∧ u < bd
    · obtain ⟨rfl, hu⟩ := hin
      have hle := ahead_le bd (0, u)
      exact (Nat.le_of_lt_succ (by omega)).trans (le_ahead hu')
    · rw [ahead, if_neg hin] at hlt
      cases hlt

/-! ## The wrong float -/

/-- An input whose first row is zero but for its element 1, and whose other rows are zero. If that
element is overtaken, its output is zero as well. -/
def spike (a : RmsnormArgs) : RmsnormMem K where
  global q := if q = a.x + 1 ∨ a.w ≤ q ∧ q < a.w + a.ncols then 1 else 0
  smem _ _ := 0
  acc _ := 0
  val _ := 0
  scale _ := 0

/-- The input is 1 at element 1 and 0 elsewhere, so that only the first row has anything to be
normed, and only in one column. -/
theorem spike_input (hL : a.Layout) {e : ℕ} (he : e < a.size) (hone : 1 < a.size) :
    a.input (spike (K := K) a).global e = if e = 1 then 1 else 0 := by
  have hw {q : ℕ} (hq : Apart a.w a.ncols q a.size) : ¬ (a.w ≤ q + e ∧ q + e < a.w + a.ncols) := by
    rintro ⟨hle, hlt⟩
    exact hq (q + e - a.w) (by omega) e he (by omega)
  have hx : (spike (K := K) a).global (a.x + e) = if e = 1 then 1 else 0 := by
    simp only [spike, Nat.add_left_cancel_iff, hw hL.w_x, or_false]
  unfold RmsnormArgs.input
  split
  · exact hx
  · next q hq =>
    have hadd : (spike (K := K) a).global (q + e) = 0 := by
      refine if_neg ?_
      rintro (heq | hmem)
      · exact hL.add_x q hq e he 1 hone heq
      · exact hw (hL.w_add q hq) hmem
    rw [hx, hadd, add_zero]

/-- All weights are 1. -/
theorem spike_weight {c : ℕ} (hc : c < a.ncols) : (spike (K := K) a).global (a.w + c) = 1 :=
  if_pos (.inr ⟨Nat.le_add_right _ _, Nat.add_lt_add_left hc _⟩)

/-- **An order of the threads that ends with a wrong float.** -/
theorem exists_overtaken (rsqrt : K → K) (hL : a.Layout) (hnblk : 0 < nblk) (hbd : 32 ∣ bd)
    (hpos : 0 < bd) (hsmall : bd / 32 ≤ stageOff) (h : Overtaken a nblk) :
    ∃ τ s, ((opRmsnorm rsqrt a nblk bd).lts (spike a)).Run τ s ∧
      s.pc = (opRmsnorm rsqrt a nblk bd).len ∧ s.mem.global (a.y + 1) = 0 := by
  obtain ⟨hstaged, hwv, hrows, hncols⟩ := h
  have hvec := RmsnormArgs.vec_of_staged hstaged
  have hfour := RmsnormArgs.ncols_of_vec hvec
  have hwide : a.wide = false := by rw [RmsnormArgs.wide, hwv, Bool.and_false]
  have hu : 1 < bd := by omega
  have hcol : 1 < a.ncols := by omega
  have hrow : rowOf nblk 0 0 < a.nrows := by
    rw [rowOf, Nat.mul_zero]
    omega
  have hrow' : rowOf nblk 0 1 < a.nrows := by
    rw [rowOf, Nat.mul_one, Nat.zero_add]
    exact hrows
  have hsize : 1 < a.size := by
    have hlt := a.index_lt hrow hcol
    omega
  have hmem : 1 ∈ colShare a.wide a.ncols bd 1 := by
    refine (mem_colShare RmsnormArgs.ncols_of_wide hu).mpr ⟨hcol, ?_⟩
    rw [hwide]
    exact Nat.mod_eq_of_lt hu
  have hS : ∀ t ∉ Finset.range nblk ×ˢ Finset.range bd, ahead bd t = 0 := by
    intro t ht
    refine if_neg fun hin => ht ?_
    exact Finset.mem_product.mpr ⟨Finset.mem_range.mpr (hin.1 ▸ hnblk), Finset.mem_range.mpr hin.2⟩
  -- thread 0 stages the second row
  have hr₀ : ((opRmsnorm rsqrt a nblk bd).lts (spike a)).Run [] ⟨spike a, fun _ => 0⟩ := .start rfl
  obtain ⟨τ₁, s₁, hr₁, hpc₁⟩ := Threads.exists_reach (cut_ahead rsqrt hnblk hrows) hS hr₀
    fun t => Nat.zero_le _
  have hinv : Inv rsqrt a nblk bd (spike a).global s₁ := by
    refine run_inv hL hbd hsmall (q := ahead bd) ?_ hr₁ fun t => (congrFun hpc₁ t).le
    intro pc t _ _ hle hlast hp _ c _
    obtain rfl : t = (0, 0) := ahead_past (lt_of_lt_of_le (by omega) hlast)
    have howner := hle (0, colOwner (a.vec 0) bd c)
    by_cases hzero : colOwner (a.vec 0) bd c = 0
    · rw [hzero]
      exact Nat.le_succ _
    · rw [ahead_of_ne (colOwner_lt _ _ hpos) hzero] at howner
      exact howner.trans (by omega)
  -- thread 1 scatters the first
  have hpc : s₁.pc (0, 1) = 5 := by rw [hpc₁, ahead_of_ne hu one_ne_zero]
  have hready : (opRmsnorm rsqrt a nblk bd).Ready s₁.pc (0, 1) := by
    refine ⟨?_, ?_⟩
    · rw [hpc]
      exact lt_of_lt_of_le (by decide) (len_of_second rsqrt hnblk hrows hu)
    · rintro ⟨b', u'⟩ ⟨hb', hu', -⟩
      obtain rfl : b' = 0 := hb'
      rw [hpc, hpc₁]
      exact le_ahead hu'
  have hwrong : ((opRmsnorm rsqrt a nblk bd).next s₁ (0, 1)).mem.global (a.y + 1) = 0 := by
    have hfirst : rowOf nblk 0 0 * a.ncols + 1 = 1 := by rw [rowOf, Nat.mul_zero, Nat.zero_mul]
    have hstage : s₁.mem.smem 0 (stageOff + 1) = 0 := by
      have howner : colOwner (a.vec 0) bd 1 = 0 := by
        rw [hvec]
        exact Nat.zero_mod bd
      have hslot := hinv.slot (.stage 0 1) ⟨hstaged, hcol⟩ 1 (by
        simp only [Slot.Of, Slot.writer, Slot.phase, Slot.span, howner, hpc₁, ahead_zero hpos]
        decide)
      have hne : rowOf nblk 0 1 * a.ncols + 1 ≠ 1 := by
        rw [rowOf, Nat.mul_one, Nat.zero_add]
        exact fun heq => (Nat.mul_pos hnblk hncols).ne' (Nat.succ.inj heq)
      exact hslot.trans ((spike_input hL (a.index_lt hrow' hcol) hsize).trans (if_neg hne))
    have hloop : (chunks a.wide a.ncols bd 1).foldl (fun g cols =>
        a.emit (rowOf nblk 0 0 * a.ncols) (s₁.mem.scale (0, 1)) cols
          (fun c => s₁.mem.smem 0 (stageOff + c)) g) s₁.mem.global (a.y + 1) = 0 := by
      have hy := foldl_emit_y (l := chunks a.wide a.ncols bd 1) (c := 1) (g := s₁.mem.global) hL
        (s₁.mem.scale (0, 1)) (fun c => s₁.mem.smem 0 (stageOff + c)) hrow
      rw [flatMap_chunks, hfirst, hstage, mul_zero, zero_mul] at hy
      exact hy (fun c hc => ((mem_colShare RmsnormArgs.ncols_of_wide hu).mp hc).1)
        (nodup_colShare RmsnormArgs.ncols_of_wide hu) hmem
    simp only [Threads.next, opRmsnorm, rmsnormPhase, hpc]
    rw [scatter_eq]
    simpa only [hstaged, if_true] using hloop
  -- nobody mends it
  have hr₂ := hr₁.snoc (e := (0, 1)) ⟨hready, rfl⟩
  obtain ⟨τ₃, s₃, hr₃, hpc₃⟩ := exists_complete hr₂
  refine ⟨_, s₃, hr₃, hpc₃, ?_⟩
  refine (Threads.run_append (I := fun s => 6 ≤ s.pc (0, 1) ∧ s.mem.global (a.y + 1) = 0) ?_ hr₂
    ⟨?_, hwrong⟩ hr₃).2
  · rintro s ⟨b, u⟩ ⟨hdone, hzero⟩ hready'
    refine ⟨hdone.trans (Threads.le_update_succ _ _ _), ?_⟩
    rw [next_global_y hL hsize hready' fun hp c hc heq => ?_]
    · exact hzero
    · obtain ⟨-, hu', -⟩ := ready_row hready'
      obtain ⟨hlt, howner⟩ := (mem_colShare RmsnormArgs.ncols_of_wide hu').mp hc
      obtain ⟨hdiv, hmod⟩ := row_of_index (rowOf nblk b (s.pc (b, u) / 6)) hlt
      rw [← heq, Nat.div_eq_of_lt hcol] at hdiv
      rw [← heq, Nat.mod_eq_of_lt hcol] at hmod
      rw [hwide, colOwner, ← hmod] at howner
      obtain rfl : u = 1 := howner.symm.trans (Nat.mod_eq_of_lt hu)
      obtain rfl : b = 0 := by
        rw [rowOf] at hdiv
        omega
      have hround : s.pc (0, 1) / 6 = 0 := by
        rw [rowOf, Nat.zero_add] at hdiv
        exact (Nat.mul_eq_zero.mp hdiv.symm).resolve_left hnblk.ne'
      omega
  · rw [Threads.next_pc_self, hpc]

end Race

/-! ## All orders -/

instance (a : RmsnormArgs) (nblk : ℕ) : Decidable (Overtaken a nblk) :=
  inferInstanceAs (Decidable (_ ∧ _))

/-- `rsqrtf` -/
noncomputable def exactRsqrt (v : ℝ) : ℝ := (√v)⁻¹

/-- The scale of a row is not 0, as the `eps` in it is positive. -/
theorem rowScale_ne_zero (a : RmsnormArgs) (g : ℕ → ℝ) (row : ℕ) :
    a.rowScale exactRsqrt g row ≠ 0 := by
  have hsum : 0 ≤ ∑ c ∈ Finset.range a.ncols, a.input g (row * a.ncols + c) ^ 2 :=
    Finset.sum_nonneg fun c _ => sq_nonneg _
  have heps : (0 : ℝ) < rmsnormEps := by
    rw [rmsnormEps]
    norm_num
  have hmean : 0 < (∑ c ∈ Finset.range a.ncols, a.input g (row * a.ncols + c) ^ 2) / a.ncols +
      rmsnormEps := add_pos_of_nonneg_of_pos (div_nonneg hsum (Nat.cast_nonneg _)) heps
  exact inv_ne_zero (Real.sqrt_ne_zero'.mpr hmean)

/-- The float that has been overtaken is wrong. -/
theorem normed_spike_ne_zero {a : RmsnormArgs} (hL : a.Layout) (hcol : 1 < a.ncols)
    (hone : 1 < a.size) : a.normed exactRsqrt (spike a).global 1 ≠ 0 := by
  rw [RmsnormArgs.normed, Nat.mod_eq_of_lt hcol, spike_weight hcol, mul_one,
    spike_input hL hone hone, if_pos rfl, one_mul]
  exact rowScale_ne_zero a _ _

/-- **When OP_RMSNORM computes the reference.** For every row length, row count, alignment and
aliasing, every number of blocks and every block size up to 384: any order of the threads can be
completed, and ends with `y`, `sum` and `dbg` as they should be and nothing else touched, for all
values, if and only if no block has a second row in the staged path with scalar writes. -/
theorem rmsnorm_correct_iff {a : RmsnormArgs} (hL : a.Layout) {nblk bd : ℕ} (hnblk : 0 < nblk)
    (hbd : 32 ∣ bd) (hpos : 0 < bd) (hle : bd ≤ 384) :
    (∀ (m : RmsnormMem ℝ) τ s, ((opRmsnorm exactRsqrt a nblk bd).lts m).Run τ s →
      (∃ τ' s', ((opRmsnorm exactRsqrt a nblk bd).lts m).Run (τ' ++ τ) s' ∧
        s'.pc = (opRmsnorm exactRsqrt a nblk bd).len) ∧
      (s.pc = (opRmsnorm exactRsqrt a nblk bd).len →
        a.Normed exactRsqrt m.global (Set.Iio a.size) s.mem.global)) ↔
    ¬ Overtaken a nblk := by
  have hsmall : bd / 32 ≤ stageOff := (Nat.div_le_div_right hle).trans (by decide)
  constructor
  · intro hall hover
    obtain ⟨τ, s, hr, hlen, hzero⟩ := exists_overtaken exactRsqrt hL hnblk hbd hpos hsmall hover
    obtain ⟨hstaged, -, hrows, hncols⟩ := hover
    have hfour := RmsnormArgs.ncols_of_vec (RmsnormArgs.vec_of_staged hstaged)
    have hcol : 1 < a.ncols := by omega
    have hone : 1 < a.size := by
      have hlt := a.index_lt (Nat.zero_lt_of_lt hrows) hcol
      omega
    have hy := ((hall (spike a) τ s hr).2 hlen).y 1 hone
    exact normed_spike_ne_zero hL hcol hone (hy.symm.trans hzero)
  · intro hnot m τ s hr
    exact ⟨exists_complete hr, run_normed hL hnblk hbd hpos hsmall hnot hr⟩

theorem apart_of_le {p n q m : ℕ} (h : p + n ≤ q ∨ q + m ≤ p) : Apart p n q m :=
  fun i _ j _ => by omega

/-- Two rows on one block, with the residual written back in place. -/
def trunkNorm : RmsnormArgs where
  x := 0
  w := 64
  add := some 32
  y := 96
  ncols := 8
  nrows := 2
  sum := some 0
  dbg := some 128

/-- The buffers of the norm of the trunk are laid out as they have to be. -/
theorem trunkNorm_layout : trunkNorm.Layout where
  sum_y := by
    rintro p ⟨⟩
    exact apart_of_le (by decide)
  dbg_y := by
    rintro p ⟨⟩
    exact apart_of_le (by decide)
  dbg_sum := by
    rintro p ⟨⟩ q ⟨⟩
    exact apart_of_le (by decide)
  out_x := by
    rintro p (rfl | ⟨⟨⟩⟩ | ⟨⟨⟩⟩)
    · exact .inr (apart_of_le (by decide))
    · exact .inl rfl
    · exact .inr (apart_of_le (by decide))
  out_add := by
    rintro p (rfl | ⟨⟨⟩⟩ | ⟨⟨⟩⟩) q ⟨⟩ <;> exact apart_of_le (by decide)
  out_w := by
    rintro p (rfl | ⟨⟨⟩⟩ | ⟨⟨⟩⟩) <;> exact apart_of_le (by decide)
  add_x := by
    rintro p ⟨⟩
    exact apart_of_le (by decide)
  w_x := apart_of_le (by decide)
  w_add := by
    rintro p ⟨⟩
    exact apart_of_le (by decide)

theorem rmsnorm_correct_iff_trunkNorm :
    ∃ τ s, ((opRmsnorm exactRsqrt trunkNorm 1 64).lts (spike trunkNorm)).Run τ s ∧
      s.pc = (opRmsnorm exactRsqrt trunkNorm 1 64).len ∧
      trunkNorm.Normed exactRsqrt (spike trunkNorm).global (Set.Iio 16) s.mem.global := by
  have hnot : ¬ Overtaken trunkNorm 1 := by decide
  have hblocks : 32 ∣ 64 := by decide
  have hall := (rmsnorm_correct_iff trunkNorm_layout Nat.one_pos hblocks (by decide)
    (by decide)).mpr hnot (spike trunkNorm)
  obtain ⟨⟨τ, s, hr, hlen⟩, -⟩ := hall [] _ (.start rfl)
  exact ⟨_, s, hr, hlen, (hall _ s hr).2 hlen⟩

/-- Two rows on one block, with an output that is not aligned. -/
def overtakenNorm : RmsnormArgs where
  x := 0
  w := 64
  add := none
  y := 97
  ncols := 4
  nrows := 2
  sum := none
  dbg := none

/-- So are those of the norm that is overtaken, which has neither a sum nor a debug output. -/
theorem overtakenNorm_layout : overtakenNorm.Layout where
  sum_y := nofun
  dbg_y := nofun
  dbg_sum := nofun
  out_x := by
    rintro p (rfl | ⟨⟨⟩⟩ | ⟨⟨⟩⟩)
    exact .inr (apart_of_le (by decide))
  out_add _ _ := nofun
  out_w := by
    rintro p (rfl | ⟨⟨⟩⟩ | ⟨⟨⟩⟩)
    exact apart_of_le (by decide)
  add_x := nofun
  w_x := apart_of_le (by decide)
  w_add := nofun

/-- **A float of the first row is lost**: `y[1]` ends as 0, and should not. -/
theorem rmsnorm_overtaken :
    ∃ τ s, ((opRmsnorm exactRsqrt overtakenNorm 1 32).lts (spike overtakenNorm)).Run τ s ∧
      s.pc = (opRmsnorm exactRsqrt overtakenNorm 1 32).len ∧ s.mem.global (97 + 1) = 0 ∧
      overtakenNorm.normed exactRsqrt (spike overtakenNorm).global 1 ≠ 0 ∧
      ¬ overtakenNorm.Normed exactRsqrt (spike overtakenNorm).global (Set.Iio 8) s.mem.global := by
  have hL := overtakenNorm_layout
  have hover : Overtaken overtakenNorm 1 := by decide
  obtain ⟨τ, s, hr, hlen, hzero⟩ := exists_overtaken exactRsqrt hL Nat.one_pos (dvd_refl 32)
    (by decide) (by decide) hover
  have hne := normed_spike_ne_zero hL (by decide) (by decide)
  refine ⟨τ, s, hr, hlen, hzero, hne, fun h => hne ?_⟩
  exact (h.y 1 (by decide)).symm.trans hzero

end Megakernel
