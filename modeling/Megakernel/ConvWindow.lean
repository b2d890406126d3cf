import Mathlib.Analysis.SpecialFunctions.Exp
import Megakernel.InPlace
import Megakernel.Launch

/-!
# The convolution window

OP_CONV_SHIFT_CONCAT and OP_SSM_CONV_SILU of `k0/ops/gdn.cuh` over a whole run. The
history of a channel is three elements of a row of the state cache; the first op
appends the element of the token to them in a window, and moves them on by one in the
row itself (`pack_CONV_SHIFT_CONCAT` gives it the row as history and as destination).
The threads share the channels, and a channel is read before it is written; nothing
else is assumed about the order. After every pass the row holds the last three elements
of the sequence, and the window the last four: `conv_window_run`.

About the arithmetic of the second op nothing is assumed, so every rounding is covered.

A pass is one application of the op to a memory in which other layers have left what they like in
the window; only the row of the cache is the layer's own. So the invariant is about that row, and
the window is right at the end of every pass because it is made anew.
-/

namespace Megakernel

open InPlace Loops List

variable {R : Type*}

/-! ## The ops -/

/-- GDN_DCONV -/
abbrev gdnDconv : ℕ := 4

/-- `ConvShiftConcatArgs`: where the history is in the state cache, the elements of the token, and
the row that is written. -/
structure ConvShiftConcatArgs (R : Type*) : Type _ where
  hist : ℕ
  xnew : ℕ → R
  row : ℕ
  rowStride : ℕ
  channels : ℕ

/-- What the op writes: the state cache and the window. A row of the cache is read as history and
written as the new history. -/
inductive ConvCell : Type where
  | cache (i : ℕ)
  | win (i : ℕ)
  deriving DecidableEq

/-- `op_conv_shift_concat` as the work of its channels. The loads yield `h0`, `h1`, `h2` and `x`;
the stores are those of `w[0]` to `w[3]` and of `s[0]` to `s[2]`. A thread has all of a channel,
loads and stores. -/
def convShiftConcat (a : ConvShiftConcatArgs R) : Work ConvCell R R where
  loads := 4
  stores := 7
  read c j m := if j < 3 then m (.cache (a.hist + (c * (gdnDconv - 1) + j))) else a.xnew c
  write c j reg :=
    if j < 4 then [(.win (c * gdnDconv + j), reg j)]
    else [(.cache (a.row * a.rowStride + (c * (gdnDconv - 1) + (j - 4))), reg (j - 3))]

/-- The channels of the threads of a launch. -/
def launchChannels (I : Launch) (channels : ℕ) : List ℕ :=
  I.grid.flatMap fun w => I.share 0 channels w.1 w.2

section Silu

variable [Zero R] [One R] [Neg R] [Add R] [Mul R] [Div R] (expf : R → R)

/-- `gdn_silu` -/
def gdnSilu (x : R) : R := x / (1 + expf (-x))

/-- `op_ssm_conv_silu`: what a thread stores. -/
def opSsmConvSilu (I : Launch) (win weight : ℕ → R) (channels block thread : ℕ) : List (ℕ × R) :=
  (I.share 0 channels block thread).map fun c =>
    let x := fun j => win (c * gdnDconv + j)
    let w := fun j => weight (c * gdnDconv + j)
    (c, gdnSilu expf ((((0 + x 0 * w 0) + x 1 * w 1) + x 2 * w 2) + x 3 * w 3))

end Silu

/-! ## A pass -/

/-- What a channel reads and writes. -/
def channelFootprint (off c : ℕ) : Footprint ConvCell where
  reads := {k | ∃ j < 3, k = .cache (off + (c * 3 + j))}
  writes := {k | (∃ j < 3, k = .cache (off + (c * 3 + j))) ∨ ∃ j < 4, k = .win (c * 4 + j)}

theorem indep_channelFootprint (off : ℕ) : Pairwise fun c c' =>
    (channelFootprint off c).Indep (channelFootprint off c') := by
  have hdisj {c c' : ℕ} (hne : c ≠ c') :
      Disjoint (channelFootprint off c).writes (channelFootprint off c').touches := by
    rw [Set.disjoint_left]
    rintro k (⟨i, hi, rfl⟩ | ⟨i, hi, rfl⟩) (⟨j, hj, heq⟩ | ⟨j, hj, heq⟩ | ⟨j, hj, heq⟩)
    · have := ConvCell.cache.inj heq
      omega
    · have := ConvCell.cache.inj heq
      omega
    · cases heq
    · cases heq
    · cases heq
    · have := ConvCell.win.inj heq
      omega
  exact fun c c' hne => ⟨hdisj hne, hdisj hne.symm⟩

section Pass

variable {a : ConvShiftConcatArgs R}

theorem write_win {c j : ℕ} (hj : j < 4) (reg : ℕ → R) :
    (convShiftConcat a).write c j reg = [(.win (c * 4 + j), reg j)] := if_pos hj

theorem write_cache {c j : ℕ} (hj : 4 ≤ j) (reg : ℕ → R) : (convShiftConcat a).write c j reg =
    [(.cache (a.row * a.rowStride + (c * 3 + (j - 4))), reg (j - 3))] := if_neg (not_lt.mpr hj)

/-- In place the channels do not meet. -/
theorem independent_convShiftConcat (hrow : a.hist = a.row * a.rowStride) :
    (convShiftConcat a).Independent (channelFootprint a.hist) where
  indep := indep_channelFootprint a.hist
  reads c j hj m m' heq := by
    simp only [convShiftConcat]
    exact ite_congr rfl (fun hlt => heq ⟨j, hlt, rfl⟩) fun _ => rfl
  writes c j hj reg w hw := by
    have hseven : j < 7 := hj
    obtain hlt | hge := Nat.lt_or_ge j 4
    · rw [write_win hlt] at hw
      rw [mem_singleton.mp hw]
      exact .inr ⟨j, hlt, rfl⟩
    · rw [write_cache hge, ← hrow] at hw
      rw [mem_singleton.mp hw]
      exact .inl ⟨j - 4, by omega, rfl⟩
  regs c j hj reg reg' heq := by
    have hseven : j < 7 := hj
    obtain hlt | hge := Nat.lt_or_ge j 4
    · rw [write_win hlt, write_win hlt, heq j hlt]
    · have hreg : j - 3 < 4 := by omega
      rw [write_cache hge, write_cache hge, heq (j - 3) hreg]

/-- Element `j` of what the op reads for a channel: the history, then the token. -/
def taps (a : ConvShiftConcatArgs R) (m : ConvCell → R) (c j : ℕ) : R :=
  if j < 3 then m (.cache (a.hist + (c * 3 + j))) else a.xnew c

variable {I : Launch} {τ : List Ev}

theorem launchChannels_perm (I : Launch) (channels : ℕ) :
    (launchChannels I channels).Perm (range channels) := by
  have hperm := I.share_perm 0 channels
  rwa [Nat.sub_zero, ← range_eq_range'] at hperm

/-- What the op writes, by its place. -/
def shiftedCell (a : ConvShiftConcatArgs R) (m : ConvCell → R) : ConvCell → R
  | .win k => taps a m (k / 4) (k % 4)
  | .cache k => taps a m ((k - a.hist) / 3) ((k - a.hist) % 3 + 1)

theorem shiftedCell_win (a : ConvShiftConcatArgs R) (m : ConvCell → R) {c j : ℕ} (hj : j < 4) :
    shiftedCell a m (.win (c * 4 + j)) = taps a m c j := by
  have hdiv : (c * 4 + j) / 4 = c := by omega
  have hmod : (c * 4 + j) % 4 = j := by omega
  rw [shiftedCell, hdiv, hmod]

theorem shiftedCell_cache (a : ConvShiftConcatArgs R) (m : ConvCell → R) {c j : ℕ} (hj : j < 3) :
    shiftedCell a m (.cache (a.hist + (c * 3 + j))) = taps a m c (j + 1) := by
  have hdiv : (c * 3 + j) / 3 = c := by omega
  have hmod : (c * 3 + j) % 3 = j := by omega
  rw [shiftedCell, Nat.add_sub_cancel_left, hdiv, hmod]

theorem convShiftConcat_write (hrow : a.hist = a.row * a.rowStride) (m : ConvCell → R) {c j : ℕ}
    (hj : j < 7) : ∀ w ∈ (convShiftConcat a).write c j ((convShiftConcat a).results m c),
      w.2 = shiftedCell a m w.1 := by
  intro w hw
  obtain hlt | hge := Nat.lt_or_ge j 4
  · rw [write_win hlt] at hw
    rw [mem_singleton.mp hw, shiftedCell_win a m hlt]
    rfl
  · have hlast : j - 4 < 3 := by omega
    have hnext : j - 4 + 1 = j - 3 := by omega
    rw [write_cache hge, ← hrow] at hw
    rw [mem_singleton.mp hw, shiftedCell_cache a m hlast, hnext]
    rfl

/-- **A pass moves the history on by one**, in whatever order the channels are worked on. -/
theorem convShiftConcat_run (hrow : a.hist = a.row * a.rowStride)
    (h : (convShiftConcat a).Ordered (launchChannels I a.channels) τ) (s : State ConvCell R R)
    {c : ℕ} (hc : c < a.channels) :
    (∀ j < 4, ((convShiftConcat a).run s τ).mem (.win (c * 4 + j)) = taps a s.mem c j) ∧
      ∀ j < 3, ((convShiftConcat a).run s τ).mem (.cache (a.hist + (c * 3 + j))) =
        taps a s.mem c (j + 1) := by
  have hperm := launchChannels_perm I a.channels
  have hts : (launchChannels I a.channels).Nodup := hperm.nodup_iff.mpr nodup_range
  have hmem : c ∈ launchChannels I a.channels := hperm.mem_iff.mpr (mem_range.mpr hc)
  obtain ⟨hdone, -⟩ := h.mem_eq hts (independent_convShiftConcat hrow) s
    (g := shiftedCell a s.mem) fun c _ j hj => convShiftConcat_write hrow s.mem hj
  constructor
  · intro j hj
    have hseven : j < 7 := by omega
    have hwrite := hdone c hmem j hseven _ (write_win hj _ ▸ mem_singleton_self _)
    rwa [shiftedCell_win a s.mem hj] at hwrite
  · intro j hj
    have hseven : j + 4 < 7 := by omega
    have hwrite := hdone c hmem (j + 4) hseven _
      (write_cache (Nat.le_add_left 4 j) _ ▸ mem_singleton_self _)
    rwa [← hrow, Nat.add_sub_cancel, shiftedCell_cache a s.mem hj] at hwrite

end Pass

/-! ## Passes -/

/-- A DeltaNet layer as it is scheduled: the row of its history, and the block ranges of its
instructions, which may be different ones. -/
structure ConvLayer : Type where
  row : ℕ
  rowStride : ℕ
  channels : ℕ
  shiftOn : Launch
  siluOn : Launch

namespace ConvLayer

variable (L : ConvLayer)

/-- Where the row begins. -/
def off : ℕ := L.row * L.rowStride

/-- `pack_CONV_SHIFT_CONCAT`: the history is the row that is written. -/
def packConvShiftConcat (xnew : ℕ → R) : ConvShiftConcatArgs R :=
  ⟨L.off, xnew, L.row, L.rowStride, L.channels⟩

variable [Zero R]

/-- What may be in memory after the passes of the tokens `x 0`, `x 1` and so on. The cache starts
with zeros; other layers use the window in the meantime; and the channels may be worked on in any
order. -/
inductive Passes (x : ℕ → ℕ → R) : ℕ → (ConvCell → R) → Prop where
  | start (m : ConvCell → R) (hzero : ∀ i, m (.cache i) = 0) : Passes x 0 m
  | pass {t : ℕ} {m : ConvCell → R} (hpasses : Passes x t m) {s : State ConvCell R R}
      (hcache : ∀ i, s.mem (.cache i) = m (.cache i)) {τ : List Ev}
      (hτ : (convShiftConcat (L.packConvShiftConcat (x t))).Ordered
        (launchChannels L.shiftOn L.channels) τ) :
      Passes x (t + 1) ((convShiftConcat (L.packConvShiftConcat (x t))).run s τ).mem

/-- The element of a channel at a position of the sequence, with zeros before the first token. -/
def elem (x : ℕ → ℕ → R) (c : ℕ) (i : ℤ) : R := if 0 ≤ i then x i.toNat c else 0

theorem elem_natCast (x : ℕ → ℕ → R) (c t : ℕ) : elem x c t = x t c := if_pos (Int.natCast_nonneg t)

/-- The causal convolution of the sequence with four taps. Before the first token the sequence is
zero, as the cache is when it is allocated. -/
def causalConv [Add R] [Mul R] (weight : ℕ → R) (x : ℕ → ℕ → R) (t c : ℕ) : R :=
  (range 4).foldl (fun (sum : R) (j : ℕ) => sum + elem x c (t - 3 + j) * weight (c * 4 + j)) 0

variable {L} {x : ℕ → ℕ → R} {t c : ℕ} {m : ConvCell → R}

/-- A pass on a row that holds the three elements before the token. -/
theorem taps_eq {s : State ConvCell R R}
    (hrow : ∀ j < 3, s.mem (.cache (L.off + (c * 3 + j))) = elem x c (t - 3 + j)) {j : ℕ}
    (hj : j < 4) :
    taps (L.packConvShiftConcat (x t)) s.mem c j = elem x c (t - 3 + j) := by
  rw [taps]
  split
  · next hlt => exact hrow j hlt
  · next hge =>
    have hlast : (t : ℤ) - 3 + j = t := by omega
    rw [hlast, elem_natCast]
    rfl

/-- **The row holds the last three elements of the sequence.** The induction is over the passes, and
each of them is `convShiftConcat_run`. -/
theorem Passes.row_eq (hpasses : L.Passes x t m) (hc : c < L.channels) :
    ∀ j < 3, m (.cache (L.off + (c * 3 + j))) = elem x c (t - 3 + j) := by
  induction hpasses with
  | start m hzero =>
    intro j hj
    rw [hzero, elem, if_neg (by omega)]
  | @pass t m hpasses s hcache τ hτ ih =>
    intro j hj
    have hrow : ∀ j < 3, s.mem (.cache (L.off + (c * 3 + j))) = elem x c (t - 3 + j) := by
      intro j hj
      rw [hcache, ih j hj]
    have hnext : ((t + 1 : ℕ) : ℤ) - 3 + j = t - 3 + (j + 1 : ℕ) := by omega
    have hshift := (convShiftConcat_run rfl hτ s hc).2 j hj
    rw [taps_eq hrow (by omega)] at hshift
    rw [hnext]
    exact hshift

/-- **The window holds the last four elements of the sequence.** -/
theorem Passes.win_eq (hpasses : L.Passes x (t + 1) m) (hc : c < L.channels) :
    ∀ j < 4, m (.win (c * 4 + j)) = elem x c (t - 3 + j) := by
  cases hpasses with
  | @pass _ m hpasses s hcache τ hτ =>
    intro j hj
    have hrow : ∀ j < 3, s.mem (.cache (L.off + (c * 3 + j))) = elem x c (t - 3 + j) := by
      intro j hj
      rw [hcache, hpasses.row_eq hc j hj]
    rw [(convShiftConcat_run rfl hτ s hc).1 j hj, taps_eq hrow hj]

end ConvLayer

/-- **The convolution window over a run.** After the pass of token `t` the window of every channel
holds its last four elements, the row of the cache the last three, and OP_SSM_CONV_SILU stores
`silu` of the causal convolution, in whatever order the threads work. -/
theorem conv_window_run [Zero R] [One R] [Neg R] [Add R] [Mul R] [Div R] (expf : R → R)
    (L : ConvLayer) (x : ℕ → ℕ → R) {t : ℕ} {m : ConvCell → R} (hpasses : L.Passes x (t + 1) m) :
    (∀ c < L.channels,
      (∀ j < 4, m (.win (c * 4 + j)) = ConvLayer.elem x c (t - 3 + j)) ∧
      ∀ j < 3, m (.cache (L.off + (c * 3 + j))) = ConvLayer.elem x c (t - 2 + j)) ∧
    ∀ weight : ℕ → R,
      L.siluOn.Stores (opSsmConvSilu expf L.siluOn (m ∘ .win) weight L.channels) 0 L.channels
        fun c => gdnSilu expf (ConvLayer.causalConv weight x t c) := by
  refine ⟨fun c hc => ⟨hpasses.win_eq hc, fun j hj => ?_⟩, fun weight => ?_⟩
  · have hnext : ((t + 1 : ℕ) : ℤ) - 3 + j = t - 2 + j := by omega
    rw [hpasses.row_eq hc j hj, hnext]
  · refine Launch.stores_of_share fun block thread => map_congr_left fun c hmem => ?_
    have hc : c < L.channels := ((mem_forRange L.siluOn.total_pos).mp hmem).1
    have hwin := hpasses.win_eq hc
    simp only [Function.comp_apply]
    rw [hwin 0 (by decide), hwin 1 (by decide), hwin 2 (by decide), hwin 3 (by decide)]
    rfl

/-- Two channels, in the second row of the cache. -/
def twoChannels : ConvLayer :=
  ⟨1, 6, 2, ⟨0, 1, 32, by decide, by decide⟩, ⟨0, 1, 32, by decide, by decide⟩⟩

/-- A sequence. -/
def someTokens (t c : ℕ) : ℝ := t + c

theorem conv_window_run_second : ∃ m : ConvCell → ℝ, twoChannels.Passes someTokens 2 m ∧
    ∀ j < 4, m (.win (1 * 4 + j)) = ConvLayer.elem someTokens 1 ((1 : ℕ) - 3 + j) := by
  have hstart : twoChannels.Passes someTokens 0 fun _ => 0 := .start _ fun _ => rfl
  have hfirst := hstart.pass (s := ⟨fun _ => 0, fun _ _ => 0⟩) (fun _ => rfl)
    (Work.ordered_sequential _ _)
  have hsecond := hfirst.pass (s := ⟨_, fun _ _ => 0⟩) (fun _ => rfl) (Work.ordered_sequential _ _)
  exact ⟨_, hsecond, ((conv_window_run Real.exp twoChannels _ hsecond).1 1 (by decide)).1⟩

end Megakernel
