import Megakernel.Binary64
import Megakernel.Interp
import Megakernel.Ring

/-!
# Cycle statistics of the bench

At the end of a pass block 0 writes the cycles of the pass to slot `(pass - 1) % cap` of a
ring. After 32 passes of warm-up and the timed ones, `bench_run` reads the ring, goes back
from the last pass over `min(n, cap)` slots, and keeps a sum, a minimum and a maximum;
`bench_run_tensor` does so for each GPU.

Minimum and maximum start from slot 0, whatever that holds. In a run that does not get
around the ring this is the first pass of the warm-up, and it stays in the report when it is
below or above all timed passes. The sum starts from 0 and is right.

The report is compared with the list of the cycles of the last passes (`window`), which is computed
from the history of the passes and not from the ring. The mean is compared in doubles, as it is
printed.
-/

namespace Megakernel

namespace BenchCycles

open List Ieee Ieee.Value

/-! ## The passes -/

/-- The ring and the pass counter of a GPU. -/
structure Gpu : Type where
  pass : U32
  passCycles : List ℤ

/-- `host_init` clears the ring. -/
def Gpu.init (cap : U32) : Gpu := ⟨0, replicate cap.toNat 0⟩

/-- The epilogue of `mk_interp`: the cycles of the pass go to the slot of its number, and older ones
are overwritten. -/
def Gpu.epilogue (cap : U32) (g : Gpu) (cycles : ℤ) : Gpu :=
  { g with passCycles := g.passCycles.set ((g.pass - 1) % cap).toNat cycles }

/-- A pass, given the cycles it takes, or nothing if it fails. On the last number the kernel
stops instead. -/
def runPass (cap : U32) (g : Gpu) (cycles : Option ℤ) : Option Gpu :=
  let g := { g with pass := g.pass + 1 }
  if g.pass = doorbellHalt then none else cycles.map (g.epilogue cap)

/-- `dual_run_pass` -/
def dualRunPass (cap : U32) (g : Gpu × Gpu) (cycles : Option ℤ × Option ℤ) :
    Option (Gpu × Gpu) := do
  let g0 ← runPass cap g.1 cycles.1
  let g1 ← runPass cap g.2 cycles.2
  return (g0, g1)

/-! ## The report -/

/-- What is printed: mean, minimum and maximum of so many samples. -/
structure Report : Type where
  mean : Binary64.Double
  mn : ℤ
  mx : ℤ
  cnt : U32

/-- The running `sum`, `mn` and `mx`. -/
structure Stats : Type where
  sum : Binary64.Double
  mn : ℤ
  mx : ℤ

/-- One sample. The sum is one of doubles, minimum and maximum are of integers. -/
def Stats.next (s : Stats) (v : ℤ) : Stats where
  sum := Binary64.add s.sum (Binary64.round v)
  mn := if v < s.mn then v else s.mn
  mx := if s.mx < v then v else s.mx

/-- `cnt` -/
def sampleCount (cap : U32) (n : ℤ) : U32 := BitVec.ofInt 32 (min n cap.toNat)

/-- The statistics that the two benches have in common: from the last pass back over as many slots
as there are samples, with minimum and maximum seeded from slot 0. -/
def cycleStats (cap : U32) (n : ℤ) (pass : U32) (cyc : List ℤ) : Report :=
  let cnt := sampleCount cap n
  let samples := (range cnt.toNat).map fun k =>
    cyc.getD ((pass - 1 - BitVec.ofNat 32 k) % cap).toNat 0
  let s := samples.foldl Stats.next ⟨fin 0, cyc.getD 0 0, cyc.getD 0 0⟩
  { mean := Binary64.div s.sum (Binary64.round cnt.toNat), mn := s.mn, mx := s.mx, cnt := cnt }

/-- WARMUP -/
def warmup : ℕ := 32

/-- The report of a GPU: none without a ring or without timed passes. -/
def reportOf (cap : U32) (n : ℤ) (g : Gpu) : Option Report :=
  if cap ≠ 0 ∧ 0 < n then some (cycleStats cap n g.pass g.passCycles) else none

/-- `bench_run`, given the cycles of every pass: what it returns, and the report. -/
def benchRun (cap : U32) (nCtx n : ℤ) (cycles : ℕ → Option ℤ) :
    Except String (ℕ × Option Report) :=
  if nCtx < warmup + n then .error "warmup + N exceed --n-ctx"
  else
    match ((range (warmup + n.toNat)).map cycles).foldlM (runPass cap) (Gpu.init cap) with
    | none => .ok (3, none)
    | some g => .ok (0, reportOf cap n g)

/-- `bench_run_tensor` -/
def benchRunTensor (cap : U32) (nCtx n pos0 : ℤ) (cycles : ℕ → Option ℤ × Option ℤ) :
    Except String (ℕ × Option Report × Option Report) :=
  if nCtx < pos0 + warmup + n then .error "pos0 + warmup + N exceed --n-ctx"
  else
    match ((range (warmup + n.toNat)).map cycles).foldlM (dualRunPass cap)
        (Gpu.init cap, Gpu.init cap) with
    | none => .ok (3, none, none)
    | some g => .ok (0, reportOf cap n g.1, reportOf cap n g.2)

/-! ## What the report is about -/

/-- The cycles of the last `min n cap` passes, the last pass first. Pass `i + 1` has taken
`hist i`. -/
def window (cap : U32) (n : ℕ) (hist : ℕ → ℤ) : List ℤ :=
  (range (min n cap.toNat)).map fun k => hist (warmup + n - 1 - k)

/-- The sum in doubles. -/
def sumOf (w : List ℤ) : Binary64.Double :=
  w.foldl (fun s (v : ℤ) => Binary64.add s (Binary64.round v)) (fin 0)

/-- The mean in doubles. -/
def meanOf (w : List ℤ) : Binary64.Double := Binary64.div (sumOf w) (Binary64.round w.length)

/-- A report of the cycles of `w`: their number, their mean in doubles, and their minimum and
maximum. -/
structure Covers (w : List ℤ) (r : Report) : Prop where
  mean : r.mean = meanOf w
  /-- the double nearest to the mean, as long as the sum is exact -/
  nearest : (w.map (|·|)).sum < 2 ^ 53 → r.mean = Binary64.round ((w.sum : ℚ) / w.length)
  least : IsLeast {v | v ∈ w} r.mn
  greatest : IsGreatest {v | v ∈ w} r.mx
  cnt : r.cnt.toNat = w.length

/-- Such a report leaves nothing open. -/
theorem Covers.unique {w : List ℤ} {r r' : Report} (h : Covers w r) (h' : Covers w r') :
    r = r' := by
  obtain ⟨mean, mn, mx, cnt⟩ := r
  obtain ⟨mean', mn', mx', cnt'⟩ := r'
  obtain rfl : mean = mean' := h.mean.trans h'.mean.symm
  obtain rfl : mn = mn' := h.least.unique h'.least
  obtain rfl : mx = mx' := h.greatest.unique h'.greatest
  obtain rfl : cnt = cnt' := BitVec.eq_of_toNat_eq (h.cnt.trans h'.cnt.symm)
  rfl

theorem foldl_add_exact {w : List ℤ} {s : ℤ} (h : |s| + (w.map (|·|)).sum < 2 ^ 53) :
    w.foldl (fun s (v : ℤ) => Binary64.add s (Binary64.round v)) (fin (s : ℚ)) =
      fin ((s + w.sum : ℤ) : ℚ) := by
  induction w generalizing s with
  | nil => simp
  | cons v w ih =>
    rw [map_cons, sum_cons] at h
    have hw : 0 ≤ (w.map (|·|)).sum := by
      apply sum_nonneg
      simp
    have hs := abs_nonneg s
    have hadd := abs_add_le s v
    have hv : Binary64.round v = fin (v : ℚ) := Binary64.round_intCast (by linarith)
    have hsv := Binary64.add_intCast (x := s) (y := v) (by linarith)
    rw [foldl_cons, hv, hsv, sum_cons, ← add_assoc]
    exact ih (by linarith)

/-- The sum in doubles is exact while it stays below `2 ^ 53`. -/
theorem sumOf_exact {w : List ℤ} (h : (w.map (|·|)).sum < 2 ^ 53) : sumOf w = fin (w.sum : ℚ) := by
  have hsum := foldl_add_exact (w := w) (s := 0) (by simpa using h)
  simpa [sumOf] using hsum

/-- The mean is then the double that is nearest to it. -/
theorem meanOf_exact {w : List ℤ} (h : (w.map (|·|)).sum < 2 ^ 53) (hlen : w.length < 2 ^ 53) :
    meanOf w = Binary64.round ((w.sum : ℚ) / w.length) := by
  have hround : Binary64.round (w.length : ℚ) = fin (w.length : ℚ) := by
    have hcast := Binary64.round_intCast (z := w.length) (by
      rw [Nat.abs_cast]
      exact_mod_cast hlen)
    simpa using hcast
  rw [meanOf, sumOf_exact h, hround]
  rfl

/-! ## The run -/

section Run

variable {cap : U32} {n m : ℕ} {hist : ℕ → ℤ}

/-- The ring after `m` passes. -/
def ringAfter (cap : U32) (hist : ℕ → ℤ) (m : ℕ) : List ℤ :=
  Ring.fill cap.toNat (replicate cap.toNat 0) hist m

theorem runPass_ofNat (hm : m + 1 < 2 ^ 32 - 1) (r : List ℤ) (c : ℤ) :
    runPass cap ⟨BitVec.ofNat 32 m, r⟩ (some c) =
      some ⟨BitVec.ofNat 32 (m + 1), Ring.put cap.toNat m c r⟩ := by
  have hpass : BitVec.ofNat 32 m + 1 = BitVec.ofNat 32 (m + 1) := (BitVec.ofNat_add m 1).symm
  have hne : BitVec.ofNat 32 (m + 1) ≠ doorbellHalt := by
    intro h
    have hnat := congrArg BitVec.toNat h
    rw [BitVec.toNat_ofNat, Nat.mod_eq_of_lt (by omega)] at hnat
    exact absurd hnat (by rw [doorbellHalt]; simp; omega)
  have hslot : (BitVec.ofNat 32 (m + 1) - 1) % cap = BitVec.ofNat 32 m % cap := by
    rw [← hpass, BitVec.add_sub_cancel]
  have hnat : (BitVec.ofNat 32 m % cap).toNat = m % cap.toNat := by
    rw [BitVec.toNat_umod, BitVec.toNat_ofNat, Nat.mod_eq_of_lt (by omega : m < 2 ^ 32)]
  simp only [runPass, hpass, if_neg hne, Option.map_some, Gpu.epilogue, hslot, hnat]
  rfl

theorem foldlM_runPass (hm : m < 2 ^ 32 - 1) :
    ((range m).map fun i => some (hist i)).foldlM (runPass cap) (Gpu.init cap) =
      some ⟨BitVec.ofNat 32 m, ringAfter cap hist m⟩ := by
  induction m with
  | zero => rfl
  | succ m ih =>
    rw [range_succ, map_append, foldlM_append, ih (Nat.lt_of_succ_lt hm)]
    exact congrArg (· >>= pure) (runPass_ofNat hm _ (hist m))

theorem foldlM_dualRunPass {hist' : ℕ → ℤ} (hm : m < 2 ^ 32 - 1) :
    ((range m).map fun i => (some (hist i), some (hist' i))).foldlM (dualRunPass cap)
        (Gpu.init cap, Gpu.init cap) =
      some (⟨BitVec.ofNat 32 m, ringAfter cap hist m⟩,
        ⟨BitVec.ofNat 32 m, ringAfter cap hist' m⟩) := by
  induction m with
  | zero => rfl
  | succ m ih =>
    rw [range_succ, map_append, foldlM_append, ih (Nat.lt_of_succ_lt hm)]
    have h0 := @runPass_ofNat cap m hm (ringAfter cap hist m) (hist m)
    have h1 := @runPass_ofNat cap m hm (ringAfter cap hist' m) (hist' m)
    simp only [map_cons, map_nil, foldlM_cons, foldlM_nil, dualRunPass, h0, h1, bind,
      Option.bind_some, pure]
    rfl

/-! ### Reading back -/

/-- The pass whose cycles are in slot 0 at the end: the last one whose number is the first of a
round of the ring. -/
def slotZero (cap : U32) (n : ℕ) : ℕ := Ring.lastInFirst cap.toNat (warmup + n)

theorem getD_ringAfter_zero (hcap : cap ≠ 0) :
    (ringAfter cap hist (warmup + n)).getD 0 0 = hist (slotZero cap n) := by
  have hpos : 0 < cap.toNat := Nat.pos_of_ne_zero fun h => hcap (BitVec.eq_of_toNat_eq h)
  have hlen : (replicate cap.toNat (0 : ℤ)).length = cap.toNat := length_replicate
  have hget := Ring.fill_getElem?_zero (f := hist) (n := warmup + n) hlen hpos
    (by rw [warmup]; omega)
  rw [getD_eq_getElem?_getD, ringAfter, hget]
  rfl

theorem getD_ringAfter (hcap : cap ≠ 0) (hn : warmup + n < 2 ^ 32 - 1) {k : ℕ}
    (hk : k < min n cap.toNat) :
    (ringAfter cap hist (warmup + n)).getD
        ((BitVec.ofNat 32 (warmup + n) - 1 - BitVec.ofNat 32 k) % cap).toNat 0 =
      hist (warmup + n - 1 - k) := by
  have hpos : 0 < cap.toNat := Nat.pos_of_ne_zero fun h => hcap (BitVec.eq_of_toNat_eq h)
  have hkn := (lt_min_iff.mp hk).1
  have hkc := (lt_min_iff.mp hk).2
  have hidx : BitVec.ofNat 32 (warmup + n) - 1 - BitVec.ofNat 32 k =
      BitVec.ofNat 32 (warmup + n - 1 - k) := by
    have hsplit : warmup + n = warmup + n - 1 - k + (k + 1) := by omega
    rw [sub_sub, sub_eq_iff_eq_add, add_comm 1]
    calc BitVec.ofNat 32 (warmup + n)
        = BitVec.ofNat 32 (warmup + n - 1 - k + (k + 1)) := congrArg _ hsplit
      _ = _ := by rw [BitVec.ofNat_add, BitVec.ofNat_add]; rfl
  have hslot : ((BitVec.ofNat 32 (warmup + n) - 1 - BitVec.ofNat 32 k) % cap).toNat =
      (warmup + n - 1 - k) % cap.toNat := by
    rw [hidx, BitVec.toNat_umod, BitVec.toNat_ofNat,
      Nat.mod_eq_of_lt (by omega : warmup + n - 1 - k < 2 ^ 32)]
  have hlen : (replicate cap.toNat (0 : ℤ)).length = cap.toNat := length_replicate
  have hget := Ring.fill_getElem? (f := hist) (i := warmup + n - 1 - k) (n := warmup + n) hlen
    hpos (by omega) (by omega)
  rw [hslot, getD_eq_getElem?_getD, ringAfter, hget]
  rfl

theorem toNat_sampleCount (hn : n < 2 ^ 32) : (sampleCount cap n).toNat = min n cap.toNat := by
  have hcast : min (n : ℤ) cap.toNat = ((min n cap.toNat : ℕ) : ℤ) := by
    push_cast
    rfl
  rw [sampleCount, hcast, BitVec.ofInt_natCast, BitVec.toNat_ofNat,
    Nat.mod_eq_of_lt (lt_of_le_of_lt (min_le_left _ _) hn)]

theorem foldl_next (l : List ℤ) (s : Stats) :
    l.foldl Stats.next s =
      ⟨l.foldl (fun s (v : ℤ) => Binary64.add s (Binary64.round v)) s.sum,
        l.foldl (fun m v => if v < m then v else m) s.mn,
        l.foldl (fun m v => if m < v then v else m) s.mx⟩ := by
  induction l generalizing s with
  | nil => rfl
  | cons v l ih => exact ih (s.next v)

/-- The statistics of a run: the minimum and the maximum are those of the window and slot 0. -/
theorem cycleStats_eq (hcap : cap ≠ 0) (hn : warmup + n < 2 ^ 32 - 1) :
    cycleStats cap n (BitVec.ofNat 32 (warmup + n)) (ringAfter cap hist (warmup + n)) =
      { mean := meanOf (window cap n hist)
        mn := (window cap n hist).foldl (fun m v => if v < m then v else m) (hist (slotZero cap n))
        mx := (window cap n hist).foldl (fun m v => if m < v then v else m) (hist (slotZero cap n))
        cnt := sampleCount cap n } := by
  have hcnt : (sampleCount cap n).toNat = min n cap.toNat := toNat_sampleCount (by omega)
  have hsamples : ((range (sampleCount cap n).toNat).map fun k =>
      (ringAfter cap hist (warmup + n)).getD
        ((BitVec.ofNat 32 (warmup + n) - 1 - BitVec.ofNat 32 k) % cap).toNat 0) =
      window cap n hist := by
    rw [hcnt]
    apply map_congr_left
    intro k hk
    exact getD_ringAfter hcap hn (mem_range.mp hk)
  have hlen : (window cap n hist).length = (sampleCount cap n).toNat := by
    rw [window, length_map, length_range, hcnt]
  simp only [cycleStats, hsamples, foldl_next, getD_ringAfter_zero hcap, meanOf, hlen]
  rfl

/-! ### The window -/

theorem mem_window (hcap : (31 + n) % cap.toNat < n) (hpos : 0 < cap.toNat) :
    hist (slotZero cap n) ∈ window cap n hist := by
  refine mem_map.mpr ⟨(31 + n) % cap.toNat, mem_range.mpr (lt_min hcap (Nat.mod_lt _ hpos)), ?_⟩
  have hlast : warmup + n - 1 = 31 + n := by
    rw [warmup]
    omega
  rw [slotZero, Ring.lastInFirst, hlast]

/-- The report is that of the window if and only if slot 0 lies between what the window has. -/
theorem covers_iff (hcap : cap ≠ 0) (hn : warmup + n < 2 ^ 32 - 1) :
    Covers (window cap n hist)
        (cycleStats cap n (BitVec.ofNat 32 (warmup + n)) (ringAfter cap hist (warmup + n))) ↔
      (∃ b ∈ window cap n hist, b ≤ hist (slotZero cap n)) ∧
        ∃ b ∈ window cap n hist, hist (slotZero cap n) ≤ b := by
  have hleast := Ring.isLeast_cons_iff
    (Ring.isLeast_foldl_min (hist (slotZero cap n)) (window cap n hist))
  have hgreatest := Ring.isGreatest_cons_iff
    (Ring.isGreatest_foldl_max (hist (slotZero cap n)) (window cap n hist))
  rw [cycleStats_eq hcap hn, ← hleast, ← hgreatest]
  constructor
  · intro h
    exact ⟨h.least, h.greatest⟩
  · rintro ⟨hmin, hmax⟩
    have hlen : (window cap n hist).length = min n cap.toNat := by
      rw [window, length_map, length_range]
    refine ⟨rfl, fun hexact => meanOf_exact hexact ?_, hmin, hmax, ?_⟩
    · have hle := min_le_left n cap.toNat
      omega
    · rw [hlen]
      exact toNat_sampleCount (by omega)

/-- A run whose warm-up is not overwritten in slot 0, with one long pass there. -/
theorem exists_not_covers (hcap : cap ≠ 0) (hn : warmup + n < 2 ^ 32 - 1)
    (hlate : n ≤ (31 + n) % cap.toNat) :
    ∃ hist, ¬ Covers (window cap n hist)
      (cycleStats cap n (BitVec.ofNat 32 (warmup + n)) (ringAfter cap hist (warmup + n))) := by
  refine ⟨fun i => if i = slotZero cap n then 2 else 1, fun h => ?_⟩
  obtain ⟨-, b, hb, hle⟩ := (covers_iff hcap hn).mp h
  obtain ⟨k, hk, rfl⟩ := mem_map.mp hb
  have hkn := (lt_min_iff.mp (mem_range.mp hk)).1
  have hlast : slotZero cap n ≤ 31 := by
    rw [slotZero, Ring.lastInFirst, warmup, show 32 + n - 1 = 31 + n by omega]
    omega
  have hne : warmup + n - 1 - k ≠ slotZero cap n := by
    rw [warmup]
    omega
  simp only [if_neg hne, if_true] at hle
  exact absurd hle (by decide)

theorem benchRun_eq {nCtx : ℤ} (hcap : cap ≠ 0) (h1 : 1 ≤ n) (hctx : warmup + n ≤ nCtx)
    (hn : warmup + n < 2 ^ 32 - 1) :
    benchRun cap nCtx n (fun i => some (hist i)) =
      .ok (0, some (cycleStats cap n (BitVec.ofNat 32 (warmup + n))
        (ringAfter cap hist (warmup + n)))) := by
  have htimed : cap ≠ 0 ∧ (0 : ℤ) < n := ⟨hcap, by omega⟩
  rw [benchRun, if_neg (not_lt.mpr hctx), Int.toNat_natCast, foldlM_runPass hn]
  simp only [reportOf, if_pos htimed]

theorem benchRunTensor_eq {nCtx pos0 : ℤ} {hist' : ℕ → ℤ} (hcap : cap ≠ 0) (h1 : 1 ≤ n)
    (hctx : pos0 + warmup + n ≤ nCtx) (hn : warmup + n < 2 ^ 32 - 1) :
    benchRunTensor cap nCtx n pos0 (fun i => (some (hist i), some (hist' i))) =
      .ok (0,
        some (cycleStats cap n (BitVec.ofNat 32 (warmup + n)) (ringAfter cap hist (warmup + n))),
        some (cycleStats cap n (BitVec.ofNat 32 (warmup + n))
          (ringAfter cap hist' (warmup + n)))) := by
  have htimed : cap ≠ 0 ∧ (0 : ℤ) < n := ⟨hcap, by omega⟩
  rw [benchRunTensor, if_neg (not_lt.mpr hctx), Int.toNat_natCast, foldlM_dualRunPass hn]
  simp only [reportOf, if_pos htimed]

theorem forall_covers_iff (hcap : cap ≠ 0) (hn : warmup + n < 2 ^ 32 - 1) :
    (∀ hist, Covers (window cap n hist)
      (cycleStats cap n (BitVec.ofNat 32 (warmup + n)) (ringAfter cap hist (warmup + n)))) ↔
      (31 + n) % cap.toNat < n := by
  have hpos : 0 < cap.toNat := Nat.pos_of_ne_zero fun h => hcap (BitVec.eq_of_toNat_eq h)
  constructor
  · intro h
    by_contra hlate
    obtain ⟨hist, hnot⟩ := exists_not_covers hcap hn (not_lt.mp hlate)
    exact hnot (h hist)
  · intro h hist
    have hmem : hist (slotZero cap n) ∈ window cap n hist := mem_window h hpos
    exact (covers_iff hcap hn).mpr ⟨⟨_, hmem, le_rfl⟩, ⟨_, hmem, le_rfl⟩⟩

end Run

/-! ## When the reports are right -/

/-- The report of `bench_run` is that of the last passes, and goes with them alone. -/
def BenchRight (cap : U32) (nCtx : ℤ) (n : ℕ) : Prop :=
  ∀ hist : ℕ → ℤ, ∃ r, benchRun cap nCtx n (fun i => some (hist i)) = .ok (0, some r) ∧
    Covers (window cap n hist) r ∧
    ∀ hist', window cap n hist' = window cap n hist →
      benchRun cap nCtx n (fun i => some (hist' i)) = .ok (0, some r)

/-- The same for the two reports of `bench_run_tensor`. -/
def BenchTensorRight (cap : U32) (nCtx pos0 : ℤ) (n : ℕ) : Prop :=
  ∀ hist₀ hist₁ : ℕ → ℤ, ∃ r₀ r₁,
    benchRunTensor cap nCtx n pos0 (fun i => (some (hist₀ i), some (hist₁ i))) =
      .ok (0, some r₀, some r₁) ∧
    Covers (window cap n hist₀) r₀ ∧ Covers (window cap n hist₁) r₁ ∧
    ∀ hist₀' hist₁', window cap n hist₀' = window cap n hist₀ →
      window cap n hist₁' = window cap n hist₁ →
      benchRunTensor cap nCtx n pos0 (fun i => (some (hist₀' i), some (hist₁' i))) =
        .ok (0, some r₀, some r₁)

section Right

variable {cap : U32} {n : ℕ} {nCtx pos0 : ℤ}

theorem benchRight_iff (hcap : cap ≠ 0) (h1 : 1 ≤ n) (hctx : warmup + n ≤ nCtx)
    (hn : warmup + n < 2 ^ 32 - 1) : BenchRight cap nCtx n ↔ (31 + n) % cap.toNat < n := by
  rw [← forall_covers_iff hcap hn]
  constructor
  · intro h hist
    obtain ⟨r, hr, hcov, -⟩ := h hist
    rw [benchRun_eq hcap h1 hctx hn] at hr
    cases hr
    exact hcov
  · intro h hist
    refine ⟨_, benchRun_eq hcap h1 hctx hn, h hist, fun hist' hwin => ?_⟩
    have hcov' := h hist'
    rw [hwin] at hcov'
    rw [benchRun_eq hcap h1 hctx hn, hcov'.unique (h hist)]

theorem benchTensorRight_iff (hcap : cap ≠ 0) (h1 : 1 ≤ n) (hctx : pos0 + warmup + n ≤ nCtx)
    (hn : warmup + n < 2 ^ 32 - 1) :
    BenchTensorRight cap nCtx pos0 n ↔ (31 + n) % cap.toNat < n := by
  rw [← forall_covers_iff hcap hn]
  constructor
  · intro h hist
    obtain ⟨r₀, r₁, hr, hcov, -⟩ := h hist hist
    rw [benchRunTensor_eq hcap h1 hctx hn] at hr
    cases hr
    exact hcov
  · intro h hist₀ hist₁
    refine ⟨_, _, benchRunTensor_eq hcap h1 hctx hn, h hist₀, h hist₁, ?_⟩
    intro hist₀' hist₁' hwin₀ hwin₁
    have hcov₀ := h hist₀'
    have hcov₁ := h hist₁'
    rw [hwin₀] at hcov₀
    rw [hwin₁] at hcov₁
    rw [benchRunTensor_eq hcap h1 hctx hn, hcov₀.unique (h hist₀), hcov₁.unique (h hist₁)]

end Right

/-- **The statistics of a bench that reports** are those of the last `min n cap` passes, for
every history, if and only if one of these passes was the last to write slot 0; and for one
history if and only if slot 0 ends up between the least and the greatest of them. -/
theorem bench_stats_iff (cap : U32) (n : ℕ) (nCtx nCtxTensor pos0 : ℤ) (hcap : cap ≠ 0)
    (h1 : 1 ≤ n) (hctx : warmup + n ≤ nCtx) (hctxTensor : pos0 + warmup + n ≤ nCtxTensor)
    (hn : warmup + n < 2 ^ 32 - 1) :
    (BenchRight cap nCtx n ↔ (31 + n) % cap.toNat < n) ∧
      (BenchTensorRight cap nCtxTensor pos0 n ↔ (31 + n) % cap.toNat < n) ∧
      ∀ hist : ℕ → ℤ, ∃ r, benchRun cap nCtx n (fun i => some (hist i)) = .ok (0, some r) ∧
        (Covers (window cap n hist) r ↔
          (∃ b ∈ window cap n hist, b ≤ hist (slotZero cap n)) ∧
            ∃ b ∈ window cap n hist, hist (slotZero cap n) ≤ b) := by
  refine ⟨benchRight_iff hcap h1 hctx hn, benchTensorRight_iff hcap h1 hctxTensor hn, ?_⟩
  intro hist
  exact ⟨_, benchRun_eq hcap h1 hctx hn, covers_iff hcap hn⟩

/-- One timed pass with the ring of the harness. -/
theorem bench_stats_iff_one :
    (BenchRight 1024 8192 1 ↔ (31 + 1) % 1024 < 1) ∧
      (BenchTensorRight 1024 8192 0 1 ↔ (31 + 1) % 1024 < 1) ∧
      ∀ hist : ℕ → ℤ, ∃ r, benchRun 1024 8192 (1 : ℕ) (fun i => some (hist i)) = .ok (0, some r) ∧
        (Covers (window 1024 1 hist) r ↔
          (∃ b ∈ window 1024 1 hist, b ≤ hist (slotZero 1024 1)) ∧
            ∃ b ∈ window 1024 1 hist, hist (slotZero 1024 1) ≤ b) :=
  bench_stats_iff 1024 1 8192 8192 0 (by decide) le_rfl (by decide) (by decide) (by decide)

/-- The first pass of the warm-up takes longer than the timed pass, and is reported. -/
theorem not_bench_stats :
    ∃ r, benchRun 1024 8192 (1 : ℕ) (fun i => some (if i = 0 then 1000 else 1)) =
        .ok (0, some r) ∧
      r.mx = 1000 ∧ window 1024 1 (fun i => if i = 0 then 1000 else 1) = [1] ∧
      ¬ Covers (window 1024 1 fun i => if i = 0 then 1000 else 1) r := by
  have hwin : window 1024 1 (fun i => if i = 0 then 1000 else 1) = [1] := by decide
  have hslot : slotZero 1024 1 = 0 := by decide
  refine ⟨_, benchRun_eq (by decide) le_rfl (by decide) (by decide), ?_, hwin, ?_⟩
  · rw [cycleStats_eq (by decide) (by decide), hwin, hslot]
    rfl
  · rw [covers_iff (by decide) (by decide), hwin, hslot]
    simp

end BenchCycles

end Megakernel
