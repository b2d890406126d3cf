import Megakernel.Rmsnorm

/-!
# The order of the threads in OP_RMSNORM

What the phases of a row leave behind for one another are slots: the sum of a thread, a
staged float, the sum of a warp in the slab and in the first warp, the scale in the slab and
in every thread. A slot is written in one phase of every row by one thread, and holds what
belongs to the row until the thread comes to that phase again (`Inv`). The barriers see to
it that a slot is read in that time, except for the staged floats: a thread that scatters
single floats reads what others have staged, and they may have gone on to the next row.

So all elements of all rows are right for every order of the threads, unless a block has
a second row in the staged path with scalar writes: `rmsnorm_correct_iff`.

Every slot has one writer, and the invariant says for which row it holds its value, as a function of
how far the writer has come. A phase then has one lemma: the slots it reads belong to its row, so
the slot it writes does too.
-/

namespace Megakernel

open Loops Warps List Phases

variable {K : Type*} [Field K] {rsqrt : K → K} {a : RmsnormArgs} {nblk bd : ℕ}

/-! ## Slots -/

/-- What the phases leave behind: the sum of a thread, a staged float, the sum of a warp, its copy
in the first warp, and the scale. A race is a slot that is written again before it is read. -/
inductive Slot : Type where
  | acc (t : ℕ × ℕ)
  | stage (b c : ℕ)
  | red (b warp : ℕ)
  | val (t : ℕ × ℕ)
  | total (b : ℕ)
  | scale (t : ℕ × ℕ)

namespace Slot

/-- The thread that writes it. -/
def writer (a : RmsnormArgs) (bd : ℕ) : Slot → ℕ × ℕ
  | acc t | val t | scale t => t
  | stage b c => (b, colOwner (a.vec 0) bd c)
  | red b warp => (b, 32 * warp)
  | total b => (b, 0)

/-- The phase in which it is written. -/
def phase : Slot → ℕ
  | acc _ | stage _ _ => 0
  | red _ _ => 1
  | val _ => 2
  | total _ => 3
  | scale _ => 4

/-- How many phases it lasts: the first warp has one float for its sum and the scale. -/
def span : Slot → ℕ
  | red _ warp => if warp = 0 then 2 else 6
  | total _ => 4
  | _ => 6

/-- What it holds. -/
def read (m : RmsnormMem K) : Slot → K
  | acc t => m.acc t
  | stage b c => m.smem b (stageOff + c)
  | red b warp => m.smem b warp
  | val t => m.val t
  | total b => m.smem b 0
  | scale t => m.scale t

/-- The slots that are used. -/
def Used (a : RmsnormArgs) (bd : ℕ) : Slot → Prop
  | stage _ c => a.staged 0 = true ∧ c < a.ncols
  | red _ warp => warp < bd / 32
  | val t => t.2 < 32
  | _ => True

end Slot

/-- The sum of a thread in row `k` of its block. -/
def threadSum (a : RmsnormArgs) (nblk bd : ℕ) (g₀ : ℕ → K) (k b thread : ℕ) : K :=
  ((colShare (a.vec 0) a.ncols bd thread).map fun c =>
    a.input g₀ (rowOf nblk b k * a.ncols + c) ^ 2).sum

/-- The sum of a warp. -/
def warpTotal (a : RmsnormArgs) (nblk bd : ℕ) (g₀ : ℕ → K) (k b warp : ℕ) : K :=
  ∑ lane ∈ Finset.range 32, threadSum a nblk bd g₀ k b (warp * 32 + lane)

/-- What a slot should hold for row `k` of its block. -/
def Slot.expected (rsqrt : K → K) (a : RmsnormArgs) (nblk bd : ℕ) (g₀ : ℕ → K) (k : ℕ) : Slot → K
  | acc t => threadSum a nblk bd g₀ k t.1 t.2
  | stage b c => a.input g₀ (rowOf nblk b k * a.ncols + c)
  | red b warp => warpTotal a nblk bd g₀ k b warp
  | val t => if t.2 < bd / 32 then warpTotal a nblk bd g₀ k t.1 t.2 else 0
  | total b => a.rowScale rsqrt g₀ (rowOf nblk b k)
  | scale t => a.rowScale rsqrt g₀ (rowOf nblk t.1 k)

/-- The slot belongs to row `k` when its writer has completed `p` phases: it has been written for
that row and not yet for another. -/
def Slot.Of (x : Slot) (k p : ℕ) : Prop := 6 * k + x.phase < p ∧ p ≤ 6 * k + x.phase + x.span

/-- The elements that have been scattered. -/
def scattered (a : RmsnormArgs) (nblk bd : ℕ) (pc : ℕ × ℕ → ℕ) : Set ℕ :=
  {e | e < a.size ∧
    6 * (e / a.ncols / nblk) + 6 ≤ pc (e / a.ncols % nblk, colOwner a.wide bd (e % a.ncols))}

/-- **What holds at any time**, as long as no staged float is read too late: every slot holds what
belongs to its row, and the elements scattered so far are right. -/
structure Inv (rsqrt : K → K) (a : RmsnormArgs) (nblk bd : ℕ) (g₀ : ℕ → K)
    (s : Phases.State (ℕ × ℕ) (RmsnormMem K)) : Prop where
  out : a.Normed rsqrt g₀ (scattered a nblk bd s.pc) s.mem.global
  slot : ∀ x : Slot, x.Used a bd → ∀ k, x.Of k (s.pc (x.writer a bd)) →
    x.read s.mem = x.expected rsqrt a nblk bd g₀ k

section Steps

variable {g₀ : ℕ → K} {pc : ℕ × ℕ → ℕ} {s : Phases.State (ℕ × ℕ) (RmsnormMem K)} {t : ℕ × ℕ} {k : ℕ}

/-- A slot is used for at most one row's worth of phases. -/
theorem Slot.span_le (x : Slot) : x.span ≤ 6 := by
  unfold Slot.span
  split
  · split <;> decide
  · decide
  · decide

/-- It is written before the last phase of the row. -/
theorem Slot.phase_lt (x : Slot) : x.phase < 5 := by
  unfold Slot.phase
  split <;> decide

/-- A slot after a step of thread `t`: it is written now, or it has been before. -/
theorem Slot.Of.step {x : Slot} {u : ℕ × ℕ} (h : x.Of k (Function.update pc t (pc t + 1) u)) :
    u = t ∧ pc t = 6 * k + x.phase ∨ (u ≠ t ∨ pc t % 6 ≠ x.phase) ∧ x.Of k (pc u) := by
  obtain ⟨hlo, hhi⟩ := h
  have hspan := x.span_le
  have hphase := x.phase_lt
  obtain rfl | hne := eq_or_ne u t
  · rw [Function.update_self] at hlo hhi
    obtain heq | hlt := Nat.eq_or_lt_of_le (Nat.le_of_lt_succ hlo)
    · exact .inl ⟨rfl, heq.symm⟩
    · exact .inr ⟨.inr (by omega), hlt, by omega⟩
  · rw [Function.update_of_ne hne] at hlo hhi
    exact .inr ⟨.inl hne, hlo, hhi⟩

/-- **A step of a thread**: it writes its slots, and leaves those of other threads and phases. -/
theorem Inv.step (h : Inv rsqrt a nblk bd g₀ s) {m : RmsnormMem K}
    (hout : a.Normed rsqrt g₀ (scattered a nblk bd (Function.update s.pc t (s.pc t + 1))) m.global)
    (hnew : ∀ x : Slot, x.Used a bd → x.writer a bd = t → s.pc t = 6 * k + x.phase →
      x.read m = x.expected rsqrt a nblk bd g₀ k)
    (hk : s.pc t / 6 = k)
    (hold : ∀ x : Slot, x.Used a bd → ∀ k', (x.writer a bd ≠ t ∨ s.pc t % 6 ≠ x.phase) →
      x.Of k' (Function.update s.pc t (s.pc t + 1) (x.writer a bd)) → x.read m = x.read s.mem) :
    Inv rsqrt a nblk bd g₀ ⟨m, Function.update s.pc t (s.pc t + 1)⟩ := by
  refine ⟨hout, fun x hx k' hof => ?_⟩
  obtain ⟨hw, hp⟩ | ⟨hne, hof'⟩ := hof.step
  · have hphase := x.phase_lt
    obtain rfl : k' = k := by omega
    exact hnew x hx hw hp
  · rw [hold x hx k' hne hof]
    exact h.slot x hx k' hof'

/-! ## Waiting -/

/-- At a barrier a thread waits for every thread of its block. -/
theorem rmsnormWaits_barrier {p b u u' : ℕ} (hp : p % 6 = 2 ∨ p % 6 = 4 ∨ p % 6 = 5)
    (hu' : u' < bd) :
    rmsnormWaits bd p (b, u) (b, u') := by
  refine ⟨rfl, hu', ?_⟩
  obtain hp | hp | hp := hp <;> simp only [hp]

/-- Who is past a barrier has seen the others arrive. -/
theorem cut_barrier (hcut : (opRmsnorm rsqrt a nblk bd).Cut pc) {p b u u' : ℕ}
    (hp : p % 6 = 2 ∨ p % 6 = 4 ∨ p % 6 = 5) (hu' : u' < bd) (hlt : p < pc (b, u)) :
    p ≤ pc (b, u') :=
  hcut.waits p _ _ (rmsnormWaits_barrier hp hu') hlt

/-- A thread that is ready works on a row of its block. -/
theorem ready_row {b u : ℕ} (h : (opRmsnorm rsqrt a nblk bd).Ready pc (b, u)) :
    b < nblk ∧ u < bd ∧ rowOf nblk b (pc (b, u) / 6) < a.nrows := by
  have hlt := h.1
  simp only [opRmsnorm] at hlt
  split at hlt
  · next hin =>
    have hk : pc (b, u) / 6 < (a.rows nblk b).length := by omega
    exact ⟨hin.1, hin.2, (lt_length_forRange (Nat.zero_lt_of_lt hin.1)).mp hk⟩
  · cases hlt

/-- So a thread that goes on behind a barrier is not ahead of any other thread of its block. -/
theorem ready_barrier {b u u' : ℕ} (h : (opRmsnorm rsqrt a nblk bd).Ready pc (b, u))
    (hp : pc (b, u) % 6 = 2 ∨ pc (b, u) % 6 = 4 ∨ pc (b, u) % 6 = 5) (hu' : u' < bd) :
    pc (b, u) ≤ pc (b, u') :=
  h.2 (b, u') (rmsnormWaits_barrier hp hu')

/-- Row `k` of block `b` and its columns, among all elements. -/
theorem mem_scattered {b c : ℕ} (hb : b < nblk) (hrow : rowOf nblk b k < a.nrows)
    (hc : c < a.ncols) :
    rowOf nblk b k * a.ncols + c ∈ scattered a nblk bd pc ↔
      6 * k + 6 ≤ pc (b, colOwner a.wide bd c) := by
  obtain ⟨hdiv, hmod⟩ := row_of_index (rowOf nblk b k) hc
  have hround : rowOf nblk b k / nblk = k ∧ rowOf nblk b k % nblk = b := by
    rw [rowOf, Nat.add_mul_div_left _ _ (Nat.zero_lt_of_lt hb), Nat.add_mul_mod_self_left,
      Nat.div_eq_of_lt hb, Nat.mod_eq_of_lt hb, Nat.zero_add]
    exact ⟨rfl, rfl⟩
  rw [scattered, Set.mem_ofPred_eq, hdiv, hmod, hround.1, hround.2]
  exact and_iff_right (a.index_lt hrow hc)

/-- The phases before the scatter do not write. -/
theorem scattered_next (hp : pc t % 6 ≠ 5) :
    scattered a nblk bd (Function.update pc t (pc t + 1)) = scattered a nblk bd pc := by
  ext e
  simp only [scattered, Set.mem_ofPred_eq]
  refine and_congr_right fun _ => ?_
  obtain heq | hne := eq_or_ne (e / a.ncols % nblk, colOwner a.wide bd (e % a.ncols)) t
  · rw [heq, Function.update_self]
    omega
  · rw [Function.update_of_ne hne]

/-- The scatter writes the columns of the thread. -/
theorem scattered_scatter {b u : ℕ} (hp : pc (b, u) = 6 * k + 5) (hb : b < nblk) (hu : u < bd)
    (hrow : rowOf nblk b k < a.nrows) :
    scattered a nblk bd (Function.update pc (b, u) (pc (b, u) + 1)) =
      scattered a nblk bd pc ∪ elems (rowOf nblk b k * a.ncols) (colShare a.wide a.ncols bd u) := by
  ext e
  simp only [scattered, elems, Set.mem_union, Set.mem_ofPred_eq,
    mem_colShare RmsnormArgs.ncols_of_wide hu]
  constructor
  · rintro ⟨he, hle⟩
    obtain heq | hne := eq_or_ne (e / a.ncols % nblk, colOwner a.wide bd (e % a.ncols)) (b, u)
    · rw [heq, Function.update_self, hp] at hle
      obtain hlt | hge := Nat.lt_or_ge (e / a.ncols / nblk) k
      · exact .inl ⟨he, by rw [heq]; omega⟩
      · have hround : e / a.ncols / nblk = k := by omega
        have hncols : 0 < a.ncols := by
          rw [RmsnormArgs.size] at he
          exact Nat.pos_of_mul_pos_left (Nat.zero_lt_of_lt he)
        obtain ⟨hblock, howner⟩ := Prod.mk.inj heq
        have hrow' : rowOf nblk b k = e / a.ncols := by
          rw [rowOf, ← hblock, ← hround]
          exact Nat.mod_add_div _ _
        refine .inr ⟨e % a.ncols, ⟨Nat.mod_lt _ hncols, howner⟩, ?_⟩
        rw [hrow', Nat.mul_comm]
        exact (Nat.div_add_mod _ _).symm
    · rw [Function.update_of_ne hne] at hle
      exact .inl ⟨he, hle⟩
  · rintro (⟨he, hle⟩ | ⟨c, ⟨hc, howner⟩, rfl⟩)
    · exact ⟨he, hle.trans (Threads.le_update_succ pc (b, u) _)⟩
    · have hmem : rowOf nblk b k * a.ncols + c ∈
          scattered a nblk bd (Function.update pc (b, u) (pc (b, u) + 1)) := by
        rw [mem_scattered hb hrow hc, howner, Function.update_self]
        omega
      exact hmem

/-! ## The phases -/

variable {b u : ℕ}

/-- **Gathering.** A row is read before any of it is written. -/
theorem Inv.gather (h : Inv rsqrt a nblk bd g₀ s) (hL : a.Layout) (hsmall : bd / 32 ≤ stageOff)
    (hcut : (opRmsnorm rsqrt a nblk bd).Cut s.pc)
    (hready : (opRmsnorm rsqrt a nblk bd).Ready s.pc (b, u)) (hp : s.pc (b, u) = 6 * k) :
    Inv rsqrt a nblk bd g₀ ⟨Rmsnorm.gather a nblk bd k (b, u) s.mem,
      Function.update s.pc (b, u) (s.pc (b, u) + 1)⟩ := by
  have hk : s.pc (b, u) / 6 = k := by omega
  obtain ⟨hb, hu, hrow⟩ := ready_row hready
  rw [hk] at hrow
  have hinput : ∀ c ∈ colShare (a.vec 0) a.ncols bd u,
      a.input s.mem.global (rowOf nblk b k * a.ncols + c) =
        a.input g₀ (rowOf nblk b k * a.ncols + c) := by
    intro c hc
    have hlt := ((mem_colShare RmsnormArgs.ncols_of_vec hu).mp hc).1
    refine h.out.input_eq hL (a.index_lt hrow hlt) fun hmem => ?_
    have hle := (mem_scattered hb hrow hlt).mp hmem
    have hpast := cut_barrier hcut (p := 6 * k + 5) (.inr (.inr (by omega))) hu hle
    omega
  have hinj : Function.Injective fun c => stageOff + c := fun c c' => Nat.add_left_cancel
  rw [gather_eq]
  refine h.step (k := k) ?_ ?_ hk ?_
  · rw [scattered_next (by omega)]
    exact h.out
  · intro x hx hw hphase
    cases x with
    | acc t =>
      obtain rfl : t = (b, u) := hw
      simp only [Slot.read, Function.update_self, Slot.expected, threadSum]
      exact congrArg List.sum (map_congr_left fun c hc => by rw [hinput c hc])
    | stage b' c =>
      obtain ⟨rfl, howner⟩ := Prod.mk.inj hw
      have hmem := (mem_colShare RmsnormArgs.ncols_of_vec hu).mpr ⟨hx.2, howner⟩
      simp only [Slot.read, if_pos hx.1, Function.update_self, Slot.expected]
      rw [store_map_of_mem hinj _ hmem, hinput c hmem]
    | red | val | total | scale =>
      simp only [Slot.phase] at hphase
      omega
  · intro x hx k' hne _
    have hslab {b' i : ℕ} (hi : b' = b → ∀ c ∈ colShare (a.vec 0) a.ncols bd u, i ≠ stageOff + c) :
        (if a.staged 0 = true then Function.update s.mem.smem b
          (store ((colShare (a.vec 0) a.ncols bd u).map fun c => (stageOff + c,
            a.input s.mem.global (rowOf nblk b k * a.ncols + c))) (s.mem.smem b))
          else s.mem.smem) b' i = s.mem.smem b' i := by
      split
      · obtain rfl | hb' := eq_or_ne b' b
        · rw [Function.update_self]
          exact store_map_of_ne _ (hi rfl) _
        · rw [Function.update_of_ne hb']
      · rfl
    have hlow {b' i : ℕ} (hi : i < stageOff) : b' = b →
        ∀ c ∈ colShare (a.vec 0) a.ncols bd u, i ≠ stageOff + c := fun _ c _ => by omega
    cases x with
    | acc t =>
      have hne' : t ≠ (b, u) := hne.resolve_right (by simp [Slot.phase, hp])
      simp only [Slot.read, Function.update_of_ne hne']
    | stage b' c =>
      have hne' : (b', colOwner (a.vec 0) bd c) ≠ (b, u) :=
        hne.resolve_right (by simp [Slot.phase, hp])
      refine hslab ?_
      rintro rfl c' hc' heq
      obtain rfl := Nat.add_left_cancel heq
      exact hne' (Prod.ext rfl ((mem_colShare RmsnormArgs.ncols_of_vec hu).mp hc').2)
    | red b' w => exact hslab (hlow (lt_of_lt_of_le hx hsmall))
    | total b' => exact hslab (hlow (by decide))
    | val | scale => rfl

omit [Field K] in
/-- A store to the slab of a block. -/
theorem slab_of_ne {smem : ℕ → ℕ → K} {v : K} {j b' i : ℕ} (h : b' = b → i ≠ j) :
    Function.update smem b (Function.update (smem b) j v) b' i = smem b' i := by
  obtain rfl | hne := eq_or_ne b' b
  · rw [Function.update_self, Function.update_of_ne (h rfl)]
  · rw [Function.update_of_ne hne]

/-- **Publishing.** The lanes of the warp have gathered the row, and none has gone on to the
next. -/
theorem Inv.publish (h : Inv rsqrt a nblk bd g₀ s) (hbd : 32 ∣ bd) (hsmall : bd / 32 ≤ stageOff)
    (hcut : (opRmsnorm rsqrt a nblk bd).Cut s.pc)
    (hready : (opRmsnorm rsqrt a nblk bd).Ready s.pc (b, u)) (hp : s.pc (b, u) = 6 * k + 1) :
    Inv rsqrt a nblk bd g₀ ⟨Rmsnorm.publish (b, u) s.mem,
      Function.update s.pc (b, u) (s.pc (b, u) + 1)⟩ := by
  have hk : s.pc (b, u) / 6 = k := by omega
  have hmod : s.pc (b, u) % 6 = 1 := by omega
  obtain ⟨hb, hu, -⟩ := ready_row hready
  refine h.step (k := k) ?_ ?_ hk ?_
  · rw [scattered_next (by omega), Rmsnorm.publish]
    split <;> exact h.out
  · intro x hx hw hphase
    cases x with
    | red b' w =>
      obtain ⟨rfl, rfl⟩ := Prod.mk.inj hw
      have hlead : 32 * w % 32 = 0 := Nat.mul_mod_right 32 w
      have hwarp : 32 * w / 32 = w := Nat.mul_div_cancel_left w (by decide)
      have hlanes : ∀ lane ∈ Finset.range 32,
          s.mem.acc (b', w * 32 + lane) = threadSum a nblk bd g₀ k b' (w * 32 + lane) := by
        intro lane hlane
        have hlane' := Finset.mem_range.mp hlane
        have harrived : s.pc (b', 32 * w) ≤ s.pc (b', w * 32 + lane) := by
          refine hready.2 (b', w * 32 + lane) ⟨rfl, by omega, ?_⟩
          rw [hmod]
          exact show (w * 32 + lane) / 32 = 32 * w / 32 by omega
        have hlast : ¬ 6 * k + 2 < s.pc (b', w * 32 + lane) := by
          intro hpast
          have hle := cut_barrier hcut (.inl (by omega)) hu hpast
          omega
        refine h.slot (.acc (b', w * 32 + lane)) trivial k ⟨?_, ?_⟩
        · simp only [Slot.writer, Slot.phase]
          omega
        · simp only [Slot.writer, Slot.phase, Slot.span]
          omega
      simp only [Slot.read, Slot.expected, Rmsnorm.publish, if_pos hlead,
        Function.update_self, hwarp]
      rw [laneSum, butterfly_add _ (by decide), Finset.sum_congr rfl hlanes]
      rfl
    | acc | stage | val | total | scale =>
      simp only [Slot.phase] at hphase
      omega
  · intro x hx k' hne hof
    rw [Rmsnorm.publish]
    split
    · next hlead =>
      cases x with
      | red b' w =>
        refine slab_of_ne ?_
        rintro rfl rfl
        refine hne.resolve_right (by simp [Slot.phase, hmod]) ?_
        exact Prod.ext rfl (by simp only [Slot.writer]; omega)
      | stage b' c => exact slab_of_ne fun _ => by omega
      | total b' =>
        refine slab_of_ne ?_
        rintro rfl hzero
        obtain rfl : u = 0 := by omega
        -- the sum of warp 0 takes the place of the scale of the row before
        obtain ⟨hlo, hhi⟩ := hof
        simp only [Slot.writer, Slot.phase, Slot.span, Function.update_self, hp] at hlo hhi
        omega
      | acc | val | scale => rfl
    · rfl

/-- **Folding.** The first lane of every warp has published, and is not at the next row. -/
theorem Inv.fold (h : Inv rsqrt a nblk bd g₀ s) (hbd : 32 ∣ bd)
    (hcut : (opRmsnorm rsqrt a nblk bd).Cut s.pc)
    (hready : (opRmsnorm rsqrt a nblk bd).Ready s.pc (b, u)) (hp : s.pc (b, u) = 6 * k + 2) :
    Inv rsqrt a nblk bd g₀ ⟨Rmsnorm.fold bd (b, u) s.mem,
      Function.update s.pc (b, u) (s.pc (b, u) + 1)⟩ := by
  have hk : s.pc (b, u) / 6 = k := by omega
  have hmod : s.pc (b, u) % 6 = 2 := by omega
  obtain ⟨hb, hu, -⟩ := ready_row hready
  refine h.step (k := k) ?_ ?_ hk ?_
  · rw [scattered_next (by omega), Rmsnorm.fold]
    split <;> exact h.out
  · intro x hx hw hphase
    cases x with
    | val t =>
      obtain rfl : t = (b, u) := hw
      have hwarp : u / 32 = 0 := Nat.div_eq_of_lt hx
      have hlane : u % 32 = u := Nat.mod_eq_of_lt hx
      have hread : u < bd / 32 → s.mem.smem b u = warpTotal a nblk bd g₀ k b u := by
        intro hlt
        have hlead : 32 * u < bd := by omega
        have harrived := ready_barrier hready (.inl hmod) hlead
        have hlast : ¬ 6 * k + 5 < s.pc (b, 32 * u) := by
          intro hpast
          have hle := cut_barrier hcut (.inr (.inr (by omega))) hu hpast
          omega
        refine h.slot (.red b u) hlt k ⟨?_, ?_⟩
        · simp only [Slot.writer, Slot.phase]
          omega
        · simp only [Slot.writer, Slot.phase, Slot.span]
          split
          · next hzero =>
            -- the thread itself will put the scale there
            subst hzero
            rw [Nat.mul_zero, hp]
            exact Nat.le_succ _
          · omega
      simp only [Slot.read, Slot.expected, Rmsnorm.fold, if_pos hwarp, Function.update_self, hlane]
      split
      · next hlt => exact hread hlt
      · rfl
    | acc | stage | red | total | scale =>
      simp only [Slot.phase] at hphase
      omega
  · intro x hx k' hne hof
    rw [Rmsnorm.fold]
    split
    · cases x with
      | val t =>
        have hne' : t ≠ (b, u) := hne.resolve_right (by simp [Slot.phase, hmod])
        exact Function.update_of_ne hne' _ _
      | acc | stage | red | total | scale => rfl
    · rfl

/-- The sums of the warps add up to the sum of the row. -/
theorem sum_warpTotal (hbd : 32 ∣ bd) (hpos : 0 < bd) (hle : bd / 32 ≤ 32) (g₀ : ℕ → K) (k b : ℕ) :
    ∑ lane ∈ Finset.range 32, (if lane < bd / 32 then warpTotal a nblk bd g₀ k b lane else 0) =
      ∑ c ∈ Finset.range a.ncols, a.input g₀ (rowOf nblk b k * a.ncols + c) ^ 2 := by
  have hthreads (n : ℕ) : ∑ warp ∈ Finset.range n, warpTotal a nblk bd g₀ k b warp =
      ∑ u ∈ Finset.range (n * 32), threadSum a nblk bd g₀ k b u := by
    induction n with
    | zero => rw [Nat.zero_mul]; rfl
    | succ n ih => rw [Finset.sum_range_succ, ih, Nat.succ_mul, Finset.sum_range_add, warpTotal]
  have hcut : (Finset.range 32).filter (· < bd / 32) = Finset.range (bd / 32) := by
    ext warp
    simp only [Finset.mem_filter, Finset.mem_range]
    omega
  rw [← Finset.sum_filter, hcut, hthreads, Nat.div_mul_cancel hbd]
  exact sum_colShare RmsnormArgs.ncols_of_vec hpos _

/-- **Rescaling.** The lanes of the first warp have folded. -/
theorem Inv.rescale (h : Inv rsqrt a nblk bd g₀ s) (hbd : 32 ∣ bd) (hsmall : bd / 32 ≤ stageOff)
    (hcut : (opRmsnorm rsqrt a nblk bd).Cut s.pc)
    (hready : (opRmsnorm rsqrt a nblk bd).Ready s.pc (b, u)) (hp : s.pc (b, u) = 6 * k + 3) :
    Inv rsqrt a nblk bd g₀ ⟨Rmsnorm.rescale rsqrt a (b, u) s.mem,
      Function.update s.pc (b, u) (s.pc (b, u) + 1)⟩ := by
  have hk : s.pc (b, u) / 6 = k := by omega
  have hmod : s.pc (b, u) % 6 = 3 := by omega
  obtain ⟨hb, hu, -⟩ := ready_row hready
  have hstage : stageOff < 32 := by decide
  refine h.step (k := k) ?_ ?_ hk ?_
  · rw [scattered_next (by omega), Rmsnorm.rescale]
    split <;> exact h.out
  · intro x hx hw hphase
    cases x with
    | total b' =>
      obtain ⟨rfl, rfl⟩ := Prod.mk.inj hw
      have hlanes : ∀ lane ∈ Finset.range 32, s.mem.val (b', lane) =
          if lane < bd / 32 then warpTotal a nblk bd g₀ k b' lane else 0 := by
        intro lane hlane
        have hlane' := Finset.mem_range.mp hlane
        have harrived : s.pc (b', 0) ≤ s.pc (b', lane) := by
          refine hready.2 (b', lane) ⟨rfl, by omega, ?_⟩
          rw [hmod]
          exact ⟨Nat.zero_div 32, Nat.div_eq_of_lt hlane'⟩
        have hlast : ¬ 6 * k + 4 < s.pc (b', lane) := by
          intro hpast
          have hle := cut_barrier hcut (.inr (.inl (by omega))) hu hpast
          omega
        refine h.slot (.val (b', lane)) hlane' k ⟨?_, ?_⟩
        · simp only [Slot.writer, Slot.phase]
          omega
        · simp only [Slot.writer, Slot.phase, Slot.span]
          omega
      simp only [Slot.read, Slot.expected, Rmsnorm.rescale, if_true, Function.update_self]
      rw [laneSum, butterfly_add _ (by decide), Finset.sum_congr rfl hlanes,
        sum_warpTotal hbd hu (by omega), RmsnormArgs.rowScale]
    | acc | stage | red | val | scale =>
      simp only [Slot.phase] at hphase
      omega
  · intro x hx k' hne hof
    rw [Rmsnorm.rescale]
    split
    · next hzero =>
      obtain rfl : u = 0 := hzero
      cases x with
      | total b' =>
        refine slab_of_ne ?_
        rintro rfl
        exact absurd rfl (hne.resolve_right (by simp [Slot.phase, hmod]))
      | stage b' c => exact slab_of_ne fun _ => by simp [stageOff]
      | red b' w =>
        refine slab_of_ne ?_
        rintro rfl rfl
        -- the scale takes the place of the sum of warp 0
        obtain ⟨hlo, hhi⟩ := hof
        simp only [Slot.writer, Slot.phase, Slot.span, Nat.mul_zero,
          Function.update_self, hp, if_true]
          at hlo hhi
        omega
      | acc | val | scale => rfl
    · rfl

/-- **Loading.** The scale is there, and the sums of the next row are not. -/
theorem Inv.load (h : Inv rsqrt a nblk bd g₀ s) (hcut : (opRmsnorm rsqrt a nblk bd).Cut s.pc)
    (hready : (opRmsnorm rsqrt a nblk bd).Ready s.pc (b, u)) (hp : s.pc (b, u) = 6 * k + 4) :
    Inv rsqrt a nblk bd g₀ ⟨Rmsnorm.load (b, u) s.mem,
      Function.update s.pc (b, u) (s.pc (b, u) + 1)⟩ := by
  have hk : s.pc (b, u) / 6 = k := by omega
  have hmod : s.pc (b, u) % 6 = 4 := by omega
  obtain ⟨hb, hu, -⟩ := ready_row hready
  refine h.step (k := k) ?_ ?_ hk ?_
  · rw [scattered_next (by omega)]
    exact h.out
  · intro x hx hw hphase
    cases x with
    | scale t =>
      obtain rfl : t = (b, u) := hw
      have harrived := ready_barrier hready (.inr (.inl hmod)) (Nat.zero_lt_of_lt hu)
      have hlast : ¬ 6 * k + 5 < s.pc (b, 0) := by
        intro hpast
        have hle := cut_barrier hcut (.inr (.inr (by omega))) hu hpast
        omega
      have htotal := h.slot (.total b) trivial k ⟨by simp only [Slot.writer, Slot.phase]; omega,
        by simp only [Slot.writer, Slot.phase, Slot.span]; omega⟩
      simp only [Slot.read, Rmsnorm.load, Function.update_self]
      exact htotal
    | acc | stage | red | val | total =>
      simp only [Slot.phase] at hphase
      omega
  · intro x hx k' hne hof
    cases x with
    | scale t =>
      have hne' : t ≠ (b, u) := hne.resolve_right (by simp [Slot.phase, hmod])
      exact Function.update_of_ne hne' _ _
    | acc | stage | red | val | total => rfl

/-- **Scattering**, if what others have staged of the row is still there. -/
theorem Inv.scatter (h : Inv rsqrt a nblk bd g₀ s) (hL : a.Layout)
    (hready : (opRmsnorm rsqrt a nblk bd).Ready s.pc (b, u)) (hp : s.pc (b, u) = 6 * k + 5)
    (hstaged : a.staged 0 = true → ∀ c ∈ colShare a.wide a.ncols bd u,
      s.pc (b, colOwner (a.vec 0) bd c) ≤ 6 * k + 6) :
    Inv rsqrt a nblk bd g₀ ⟨Rmsnorm.scatter a nblk bd k (b, u) s.mem,
      Function.update s.pc (b, u) (s.pc (b, u) + 1)⟩ := by
  have hk : s.pc (b, u) / 6 = k := by omega
  have hmod : s.pc (b, u) % 6 = 5 := by omega
  obtain ⟨hb, hu, hrow⟩ := ready_row hready
  rw [hk] at hrow
  refine h.step (k := k) ?_ ?_ hk ?_
  · rw [scattered_scatter hp hb hu hrow]
    refine scatter_normed (t := (b, u)) hL hu h.out hrow (fun c hc hmem => ?_) ?_ fun hst c hc => ?_
    · obtain ⟨hlt, howner⟩ := (mem_colShare RmsnormArgs.ncols_of_wide hu).mp hc
      have hle := (mem_scattered hb hrow hlt).mp hmem
      rw [howner, hp] at hle
      omega
    · exact h.slot (.scale (b, u)) trivial k ⟨by simp only [Slot.writer, Slot.phase]; omega,
        by simp only [Slot.writer, Slot.phase, Slot.span]; omega⟩
    · have hlt := ((mem_colShare RmsnormArgs.ncols_of_wide hu).mp hc).1
      have harrived := ready_barrier hready (.inr (.inr hmod))
        (colOwner_lt (a.vec 0) c (Nat.zero_lt_of_lt hu))
      have hnext := hstaged hst c hc
      exact h.slot (.stage b c) ⟨hst, hlt⟩ k ⟨by simp only [Slot.writer, Slot.phase]; omega,
        by simp only [Slot.writer, Slot.phase, Slot.span]; omega⟩
  · intro x hx hw hphase
    have hlt := x.phase_lt
    omega
  · intro x hx k' hne hof
    cases x <;> rfl

/-- Thread `t` does not come too late for what others have staged: if it is about to scatter a row
by single floats, none of them has begun to stage the next. -/
def InTime (a : RmsnormArgs) (bd : ℕ) (pc : ℕ × ℕ → ℕ) (t : ℕ × ℕ) : Prop :=
  pc t % 6 = 5 → a.staged 0 = true → ∀ c ∈ colShare a.wide a.ncols bd t.2,
    pc (t.1, colOwner (a.vec 0) bd c) ≤ pc t + 1

/-- **Every step keeps what holds**, if the thread does not come too late. -/
theorem Inv.next (h : Inv rsqrt a nblk bd g₀ s) (hL : a.Layout) (hbd : 32 ∣ bd)
    (hsmall : bd / 32 ≤ stageOff) (hcut : (opRmsnorm rsqrt a nblk bd).Cut s.pc)
    (hready : (opRmsnorm rsqrt a nblk bd).Ready s.pc t) (htime : InTime a bd s.pc t) :
    Inv rsqrt a nblk bd g₀ ((opRmsnorm rsqrt a nblk bd).next s t) := by
  obtain ⟨b, u⟩ := t
  have hlt : s.pc (b, u) % 6 < 6 := Nat.mod_lt _ (by decide)
  have hdiv := Nat.div_add_mod (s.pc (b, u)) 6
  rcases hp : s.pc (b, u) % 6 with _ | _ | _ | _ | _ | _ | p <;>
    simp only [Threads.next, opRmsnorm, rmsnormPhase, hp]
  · exact h.gather hL hsmall hcut hready (by omega)
  · exact h.publish (k := s.pc (b, u) / 6) hbd hsmall hcut hready (by omega)
  · exact h.fold (k := s.pc (b, u) / 6) hbd hcut hready (by omega)
  · exact h.rescale (k := s.pc (b, u) / 6) hbd hsmall hcut hready (by omega)
  · exact h.load (k := s.pc (b, u) / 6) hcut hready (by omega)
  · refine h.scatter hL hready (by omega) fun hst c hc => ?_
    have hle : s.pc (b, colOwner (a.vec 0) bd c) ≤ s.pc (b, u) + 1 := htime hp hst c hc
    omega
  · omega

/-- At the start nothing has been computed, and nothing is claimed of the slots. -/
theorem inv_zero (rsqrt : K → K) (a : RmsnormArgs) (nblk bd : ℕ) (m : RmsnormMem K) :
    Inv rsqrt a nblk bd m.global ⟨m, fun _ => 0⟩ where
  out := by
    have hnone : scattered a nblk bd (fun _ => 0) = ∅ :=
      Set.eq_empty_of_forall_notMem fun e he => Nat.not_succ_le_zero _ he.2
    rw [hnone]
    exact ⟨nofun, nofun, fun _ _ => nofun, fun _ _ => nofun, fun _ _ => rfl⟩
  slot x _ k hof := absurd hof.1 (Nat.not_lt_zero _)

end Steps

/-! ## Runs -/

section Runs

variable {m : RmsnormMem K} {τ : List (ℕ × ℕ)} {s : Phases.State (ℕ × ℕ) (RmsnormMem K)}

/-- **What holds after any order of the threads**, as long as they do not go beyond `q`. -/
theorem run_inv (hL : a.Layout) (hbd : 32 ∣ bd) (hsmall : bd / 32 ≤ stageOff) {q : ℕ × ℕ → ℕ}
    (htime : ∀ pc t, (opRmsnorm rsqrt a nblk bd).Cut pc → (opRmsnorm rsqrt a nblk bd).Ready pc t →
      (∀ t', pc t' ≤ q t') → pc t + 1 ≤ q t → InTime a bd pc t)
    (h : ((opRmsnorm rsqrt a nblk bd).lts m).Run τ s) (hq : ∀ t, s.pc t ≤ q t) :
    Inv rsqrt a nblk bd m.global s := by
  revert hq
  refine Lts.Run.inv (I := fun _ s => (∀ t, s.pc t ≤ q t) → Inv rsqrt a nblk bd m.global s) ?_ ?_ h
  · rintro s rfl -
    exact inv_zero rsqrt a nblk bd m
  · rintro τ s t s' hr ih ⟨hready, rfl⟩ hq
    have hle : ∀ t', s.pc t' ≤ q t' := fun t' => (Threads.le_update_succ s.pc t t').trans (hq t')
    have hlast : s.pc t + 1 ≤ q t := Threads.next_pc_self (opRmsnorm rsqrt a nblk bd) s t ▸ hq t
    have hcut := Threads.run_cut hr
    exact (ih hle).next hL hbd hsmall hcut hready (htime s.pc t hcut hready hle hlast)

/-- A block has a second row in the staged path with scalar writes. In no other case can a thread be
overtaken. -/
def Overtaken (a : RmsnormArgs) (nblk : ℕ) : Prop :=
  a.staged 0 = true ∧ a.wv 0 = false ∧ nblk < a.nrows ∧ 0 < a.ncols

/-- Otherwise no thread comes too late. -/
theorem inTime_of_not_overtaken (h : ¬ Overtaken a nblk) {pc : ℕ × ℕ → ℕ} {t : ℕ × ℕ}
    (hcut : (opRmsnorm rsqrt a nblk bd).Cut pc) (hready : (opRmsnorm rsqrt a nblk bd).Ready pc t) :
    InTime a bd pc t := by
  obtain ⟨b, u⟩ := t
  obtain ⟨hb, hu, -⟩ := ready_row hready
  intro hp hst c hc
  obtain ⟨hlt, howner⟩ := (mem_colShare RmsnormArgs.ncols_of_wide hu).mp hc
  cases hwv : a.wv 0 with
  | true =>
    -- the thread has staged what it scatters itself
    have hwide : a.vec 0 = a.wide := by
      rw [RmsnormArgs.vec_of_staged hst, RmsnormArgs.wide, hst, hwv, Bool.and_self]
    rw [hwide, howner]
    exact Nat.le_succ _
  | false =>
    have hrows : a.nrows ≤ nblk := by
      by_contra hmore
      exact h ⟨hst, hwv, not_le.mp hmore, Nat.zero_lt_of_lt hlt⟩
    have hone : (a.rows nblk b).length ≤ 1 := by
      by_contra hmore
      have hsecond := (lt_length_forRange (Nat.zero_lt_of_lt hb)).mp (not_le.mp hmore)
      omega
    have hlen : (opRmsnorm rsqrt a nblk bd).len (b, colOwner (a.vec 0) bd c) ≤ 6 := by
      simp only [opRmsnorm]
      split <;> omega
    exact (hcut.le _).trans (hlen.trans (by omega))

/-- All rows are done. -/
theorem scattered_len (hnblk : 0 < nblk) (hbd : 0 < bd) :
    scattered a nblk bd (opRmsnorm rsqrt a nblk bd).len = Set.Iio a.size := by
  ext e
  simp only [scattered, Set.mem_ofPred_eq, Set.mem_Iio, opRmsnorm]
  refine and_iff_left_of_imp fun he => ?_
  have hrow : e / a.ncols < a.nrows := Nat.div_lt_of_lt_mul (by rwa [Nat.mul_comm])
  rw [if_pos ⟨Nat.mod_lt _ hnblk, colOwner_lt _ _ hbd⟩]
  have hround : e / a.ncols / nblk < (a.rows nblk (e / a.ncols % nblk)).length := by
    rw [RmsnormArgs.rows, lt_length_forRange hnblk, Nat.mod_add_div]
    exact hrow
  omega

/-- The threads can always go on to the end. -/
theorem cut_len : (opRmsnorm rsqrt a nblk bd).Cut (opRmsnorm rsqrt a nblk bd).len where
  le t := le_rfl
  waits p t t' hwaits hlt := by
    obtain ⟨hb, hu', -⟩ := hwaits
    simp only [opRmsnorm] at hlt ⊢
    split at hlt
    · next hin =>
      rw [if_pos ⟨hb ▸ hin.1, hu'⟩, hb]
      exact hlt.le
    · cases hlt

/-- There are no threads besides those of the launch. -/
theorem len_eq_zero {t : ℕ × ℕ} (h : t ∉ Finset.range nblk ×ˢ Finset.range bd) :
    (opRmsnorm rsqrt a nblk bd).len t = 0 := by
  rw [Finset.mem_product, Finset.mem_range, Finset.mem_range] at h
  exact if_neg h

/-- **Any order of the threads can be completed.** -/
theorem exists_complete (h : ((opRmsnorm rsqrt a nblk bd).lts m).Run τ s) :
    ∃ τ' s', ((opRmsnorm rsqrt a nblk bd).lts m).Run (τ' ++ τ) s' ∧
      s'.pc = (opRmsnorm rsqrt a nblk bd).len :=
  Threads.exists_reach cut_len (fun _ ht => len_eq_zero ht) h (Threads.run_cut h).le

/-- **Every order of the threads ends with the reference**, unless a block can be overtaken. -/
theorem run_normed (hL : a.Layout) (hnblk : 0 < nblk) (hbd : 32 ∣ bd) (hpos : 0 < bd)
    (hsmall : bd / 32 ≤ stageOff) (hnot : ¬ Overtaken a nblk)
    (h : ((opRmsnorm rsqrt a nblk bd).lts m).Run τ s)
    (hlen : s.pc = (opRmsnorm rsqrt a nblk bd).len) :
    a.Normed rsqrt m.global (Set.Iio a.size) s.mem.global := by
  have hinv := run_inv hL hbd hsmall (fun pc t hcut hready _ _ =>
    inTime_of_not_overtaken hnot hcut hready)
    h fun t => le_rfl
  have hout := hinv.out
  rwa [hlen, scattered_len hnblk hpos] at hout

end Runs

end Megakernel
