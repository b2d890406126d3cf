import Megakernel.DeltaNetBlock
import Megakernel.WeightSlice

/-!
# Splitting a DeltaNet block

Each of two GPUs holds half of the heads: of every `kHeads` of them, half in turn
(`Halves.Dealt`). A value head reads the key head that is its own number modulo the key heads,
and this commutes with the halving (`Halves.pick_mod_period`), so op by op the local heads
compute what their heads compute on a single GPU. The partials of the output projection add
up to the projection.

For every op there is one lemma that says what it does to dealt vectors, and the block is their
composition. The halving is that of `dn_stride`: of every period of key heads, one half in turn, and
never a contiguous half.
-/

namespace Megakernel

open Halves List

namespace DeltaNet

section Norms

variable {K : Type*} [Field K] {p m d g : ℕ} {a b : ℕ → K}

/-- The head of a dealt element. -/
theorem head_lt {i : ℕ} (hi : i < m * (p * d)) : 0 < d ∧ 0 < p ∧ i / d < m * p := by
  have hpd : 0 < p * d := Nat.pos_of_lt_mul_left hi
  refine ⟨Nat.pos_of_mul_pos_left hpd, Nat.pos_of_mul_pos_right hpd, ?_⟩
  apply Nat.div_lt_of_lt_mul
  rwa [Nat.mul_comm, Nat.mul_assoc]

/-- The squares of a head add up to those of its head on a single GPU. -/
theorem sum_sq_dealt (hd : Dealt (p * d) m g a b) {i : ℕ} (hi : i < m * (p * d)) :
    ∑ j ∈ Finset.range d, a (i / d * d + j) * a (i / d * d + j) =
      ∑ j ∈ Finset.range d, b (pick p g (i / d) * d + j) * b (pick p g (i / d) * d + j) := by
  obtain ⟨-, -, hhead⟩ := head_lt hi
  apply Finset.sum_congr rfl
  intro j hj
  rw [dealt_parts.mp hd _ hhead j (Finset.mem_range.mp hj)]

/-- A head is scaled by its own sum of squares. -/
theorem dealt_l2norm [LinearOrder K] (D : DeviceMath K) (eps : K) (hd : Dealt (p * d) m g a b) :
    Dealt (p * d) m g (l2norm D eps d a) (l2norm D eps d b) := by
  intro i hi
  obtain ⟨hpos, -, -⟩ := head_lt hi
  simp only [l2norm, pick_mul_div hpos]
  rw [sum_sq_dealt hd hi, hd i hi]

/-- The gated norm too stays in a head, and its weight is shared by all heads. -/
theorem dealt_gatedRmsnorm (D : DeviceMath K) (eps : K) {z z' w w' : ℕ → K}
    (hd : Dealt (p * d) m g a b)
    (hz : Dealt (p * d) m g z z') (hw : ∀ i < d, w i = w' i) :
    Dealt (p * d) m g (gatedRmsnorm D eps d a z w) (gatedRmsnorm D eps d b z' w') := by
  intro i hi
  obtain ⟨hpos, -, -⟩ := head_lt hi
  simp only [gatedRmsnorm, pick_mul_div hpos, pick_mul_mod hpos]
  rw [sum_sq_dealt hd hi, hd i hi, hz i hi, hw _ (Nat.mod_lt i hpos)]

end Norms

/-! ## The convolution -/

section Window

variable {K : Type*} {m g : ℕ} {a b : ℕ → K} {h : ℕ} {A A' : ConvShiftConcatArgs K}
    {s s' : ConvCell → K}

/-- A tap of a channel is the new value or one of the three before it, all of the same channel. -/
theorem taps_dealt (hhist : A.hist = 0) (hhist' : A'.hist = 0) (hx : Dealt h m g A.xnew A'.xnew)
    (hs : Dealt (h * 3) m g (fun i => s (.cache i)) fun i => s' (.cache i)) {c j : ℕ}
    (hc : c < m * h) : taps A s c j = taps A' s' (pick h g c) j := by
  rw [taps, taps, hhist, hhist', Nat.zero_add, Nat.zero_add]
  by_cases hj : j < 3
  · rw [if_pos hj, if_pos hj]
    exact dealt_parts.mp hs c hc j hj
  · rw [if_neg hj, if_neg hj]
    exact hx c hc

/-- The windows of the channels. -/
theorem dealt_win (hhist : A.hist = 0) (hhist' : A'.hist = 0) (hx : Dealt h m g A.xnew A'.xnew)
    (hs : Dealt (h * 3) m g (fun i => s (.cache i)) fun i => s' (.cache i)) :
    Dealt (h * 4) m g (fun i => shiftedCell A s (.win i)) fun i => shiftedCell A' s' (.win i) := by
  apply dealt_parts.mpr
  intro c hc j hj
  rw [shiftedCell_win A s hj, shiftedCell_win A' s' hj]
  exact taps_dealt hhist hhist' hx hs hc

/-- Their histories. -/
theorem dealt_cache (hhist : A.hist = 0) (hhist' : A'.hist = 0) (hx : Dealt h m g A.xnew A'.xnew)
    (hs : Dealt (h * 3) m g (fun i => s (.cache i)) fun i => s' (.cache i)) :
    Dealt (h * 3) m g (fun i => shiftedCell A s (.cache i)) fun i =>
      shiftedCell A' s' (.cache i) := by
  apply dealt_parts.mpr
  intro c hc j hj
  have hcell := shiftedCell_cache A s (c := c) hj
  have hcell' := shiftedCell_cache A' s' (c := pick h g c) hj
  rw [hhist, Nat.zero_add] at hcell
  rw [hhist', Nat.zero_add] at hcell'
  rw [hcell, hcell']
  exact taps_dealt hhist hhist' hx hs hc

/-- The convolution of a channel has a kernel of its own, whose rows are dealt out with the
channels. -/
theorem dealt_convSilu [Field K] (D : DeviceMath K) {w w' : ℕ → ℕ → K} (hd : Dealt (h * 4) m g a b)
    (hw : ∀ c < m * h, ∀ j < 4, w c j = w' (pick h g c) j) :
    Dealt h m g (convSilu D a fun i => w (i / gdnDconv) (i % gdnDconv))
      (convSilu D b fun i => w' (i / gdnDconv) (i % gdnDconv)) := by
  have hparts := dealt_parts.mp hd
  intro c hc
  have htap {j : ℕ} (hj : j < 4) : w ((c * 4 + j) / 4) ((c * 4 + j) % 4) =
      w' ((pick h g c * 4 + j) / 4) ((pick h g c * 4 + j) % 4) := by
    have hdiv (k : ℕ) : (k * 4 + j) / 4 = k := by omega
    have hmod (k : ℕ) : (k * 4 + j) % 4 = j := by omega
    rw [hdiv, hdiv, hmod, hmod]
    exact hw c hc j hj
  simp only [convSilu]
  rw [hparts c hc 0 (by decide), hparts c hc 1 (by decide), hparts c hc 2 (by decide),
    hparts c hc 3 (by decide), htap (by decide : 0 < 4), htap (by decide : 1 < 4),
    htap (by decide : 2 < 4), htap (by decide : 3 < 4)]

end Window

/-! ## The step -/

/-- The arguments of a step for half of the heads. Queries and keys are dealt out as one block for
each side, values and the numbers of the value heads in as many blocks as there are key heads' worth
of them. -/
structure StepDealt {K : Type*} (p n d g : ℕ) (A A' : GdnStepArgs K) : Prop where
  q : Dealt (p * d) 1 g A.q A'.q
  k : Dealt (p * d) 1 g A.k A'.k
  v : Dealt (p * d) n g A.v A'.v
  decay : Dealt p n g A.g A'.g
  mixing : Dealt p n g A.beta A'.beta
  kHeads : A.nKHeads = p
  kHeads' : A'.nKHeads = 2 * p
  scale : A.scale = A'.scale

section Step

variable {K : Type*} {p n d g : ℕ} {A A' : GdnStepArgs K} {S S' : ℕ → K} {task : ℕ}

/-- **A value head finds its key head**: the local one is the half of the global one. -/
theorem keyHead_eq (hg : g < 2) (hd : 0 < d) (hp : 0 < p) {x x' : ℕ → K}
    (hx : Dealt (p * d) 1 g x x')
    {i : ℕ} (hi : i < d) :
    x (taskHead d task % p * d + i) = x' (taskHead d (pick (p * d) g task) % (2 * p) * d + i) := by
  have hhead : taskHead d (pick (p * d) g task) % (2 * p) = pick p g (taskHead d task % p) := by
    rw [taskHead, pick_mul_div hd, pick_mod_period hp hg]
    rfl
  rw [hhead]
  apply dealt_parts.mp hx _ _ i hi
  rw [Nat.one_mul]
  exact Nat.mod_lt _ hp

variable [Field K]

/-- What a column of the state is corrected by uses the key head of its value head, and this is the
half of the global key head (`keyHead_eq`). -/
theorem deltaAt_dealt (h : StepDealt p n d g A A') (hg : g < 2) (htask : task < n * (p * d))
    (hS : ∀ i < d, S i = S' i) : A.deltaAt d task S = A'.deltaAt d (pick (p * d) g task) S' := by
  obtain ⟨hd, hp, hhead⟩ := head_lt htask
  have hsum : ∑ i ∈ Finset.range d, S i * A.k (taskHead d task % A.nKHeads * d + i) =
      ∑ i ∈ Finset.range d,
        S' i * A'.k (taskHead d (pick (p * d) g task) % A'.nKHeads * d + i) := by
    apply Finset.sum_congr rfl
    intro i hi
    rw [Finset.mem_range] at hi
    rw [h.kHeads, h.kHeads', hS i hi, keyHead_eq hg hd hp h.k hi]
  have hheads : taskHead d (pick (p * d) g task) = pick p g (taskHead d task) :=
    pick_mul_div hd p g task
  rw [GdnStepArgs.deltaAt, GdnStepArgs.deltaAt, hsum, h.v task htask, hheads,
    h.decay (taskHead d task) hhead, h.mixing (taskHead d task) hhead]

/-- Therefore the column after the step is that of the global task, -/
theorem stepAt_dealt (h : StepDealt p n d g A A') (hg : g < 2) (htask : task < n * (p * d))
    (hS : ∀ i < d, S i = S' i) {i : ℕ} (hi : i < d) :
    A.stepAt d task S i = A'.stepAt d (pick (p * d) g task) S' i := by
  obtain ⟨hd, hp, hhead⟩ := head_lt htask
  have hheads : taskHead d (pick (p * d) g task) = pick p g (taskHead d task) :=
    pick_mul_div hd p g task
  rw [GdnStepArgs.stepAt, GdnStepArgs.stepAt, deltaAt_dealt h hg htask hS, hS i hi, h.kHeads,
    h.kHeads', keyHead_eq hg hd hp h.k hi, hheads, h.decay (taskHead d task) hhead]

/-- and so is what is read out of it. -/
theorem outAt_dealt (h : StepDealt p n d g A A') (hg : g < 2) (htask : task < n * (p * d))
    (hS : ∀ i < d, S i = S' i) : A.outAt d task S = A'.outAt d (pick (p * d) g task) S' := by
  obtain ⟨hd, hp, -⟩ := head_lt htask
  rw [GdnStepArgs.outAt, GdnStepArgs.outAt, h.scale]
  congr 1
  apply Finset.sum_congr rfl
  intro i hi
  rw [Finset.mem_range] at hi
  rw [stepAt_dealt h hg htask hS hi, h.kHeads, h.kHeads', keyHead_eq hg hd hp h.q hi]

variable {s s' : GdnCell → K}

/-- The states of the heads after the step. -/
theorem dealt_state (h : StepDealt p n d g A A') (hg : g < 2)
    (hs : Dealt (p * d * d) n g (fun i => s (.state i)) fun i => s' (.state i)) :
    Dealt (p * d * d) n g (fun i => newCell d A s (.state i)) fun i =>
      newCell d A' s' (.state i) := by
  have hparts := dealt_parts.mp hs
  apply dealt_parts.mpr
  intro task htask i hi
  rw [newCell_state hi, newCell_state hi]
  exact stepAt_dealt h hg htask (hparts task htask) hi

/-- Their output. -/
theorem dealt_attn (h : StepDealt p n d g A A') (hg : g < 2)
    (hs : Dealt (p * d * d) n g (fun i => s (.state i)) fun i => s' (.state i)) :
    Dealt (p * d) n g (fun i => newCell d A s (.attn i)) fun i => newCell d A' s' (.attn i) := by
  have hparts := dealt_parts.mp hs
  intro task htask
  exact outAt_dealt h hg htask (hparts task htask)

end Step

/-! ## The block -/

section Block

variable {K : Type*}

/-- The weights of half of the heads. -/
structure WeightsDealt (p n d nEmbd g : ℕ) (w w' : Weights K) : Prop where
  qkv : ∀ i < (2 + n) * (p * d), ∀ c < nEmbd, w.qkv i c = w'.qkv (pick (p * d) g i) c
  gate : ∀ i < n * (p * d), ∀ c < nEmbd, w.gate i c = w'.gate (pick (p * d) g i) c
  alpha : ∀ h < n * p, ∀ c < nEmbd, w.alpha h c = w'.alpha (pick p g h) c
  beta : ∀ h < n * p, ∀ c < nEmbd, w.beta h c = w'.beta (pick p g h) c
  conv : ∀ i < (2 + n) * (p * d), ∀ j < 4, w.conv i j = w'.conv (pick (p * d) g i) j
  dtBias : Dealt p n g w.dtBias w'.dtBias
  a : Dealt p n g w.a w'.a
  norm : ∀ i < d, w.norm i = w'.norm i
  out : ∀ r < nEmbd, Dealt (p * d) n g (w.out r) (w'.out r)

/-- The caches of half of the heads. -/
structure CachesDealt (p n d g : ℕ) (b b' : Buffers K) : Prop where
  conv : Dealt (p * d * 3) (2 + n) g b.convCache b'.convCache
  state : Dealt (p * d * d) n g b.stateCache b'.stateCache

/-- The buffers between the GEMVs and the output. -/
structure BuffersDealt (p n d g : ℕ) (b b' : Buffers K) :
    Prop extends CachesDealt p n d g b b' where
  mixer : Dealt (p * d) (2 + n) g b.mixerOut b'.mixerOut
  gate : Dealt (p * d) n g b.gateOut b'.gateOut
  alpha : Dealt p n g b.gdnAlpha b'.gdnAlpha
  beta : Dealt p n g b.gdnBeta b'.gdnBeta
  gdnState : Dealt (p * d * d) n g b.gdnState b'.gdnState

/-- Counts of which half can be taken: an even number of key heads, and value heads that are a
multiple of them. -/
structure Counts.Halves (c : Counts) (p n : ℕ) : Prop where
  kHeads : c.kHeads = 2 * p
  vHeads : c.vHeads = n * (2 * p)

namespace Counts.Halves

variable {c : Counts} {p n : ℕ} (h : c.Halves p n)

include h

theorem sp_kHeads : sp true c.kHeads = p := by
  rw [h.kHeads, ← Nat.one_mul (2 * p), sp_true, Nat.one_mul]

theorem vElems : c.vHeads * c.headDim = n * (2 * (p * c.headDim)) := by
  rw [h.vHeads]
  ring

theorem stateElems : c.vHeads * c.headDim * c.headDim = n * (2 * (p * c.headDim * c.headDim)) := by
  rw [h.vHeads]
  ring

theorem kElems : c.kHeads * c.headDim = 1 * (2 * (p * c.headDim)) := by
  rw [h.kHeads]
  ring

theorem qkElems : 2 * c.kHeads * c.headDim = 2 * (2 * (p * c.headDim)) := by
  rw [h.kHeads]
  ring

/-- The channels of the convolution are those of q, of k and of `n` times as many of v, one behind
the other. Each part is dealt out in its own periods. -/
theorem channels : c.channels = (2 + n) * (2 * (p * c.headDim)) := by
  rw [Counts.channels, h.kHeads, h.vHeads]
  ring

end Counts.Halves

variable {c : Counts} {p n g : ℕ} {e : Env K} {w w' : Weights K} {b b' : Buffers K}

/-- The step takes q, k and v out of one buffer. Where each begins depends on the local counts,
which is why the parts of the dealt buffer are those of the halves. -/
theorem stepArgs_dealt (h : c.Halves p n) (hb : BuffersDealt p n c.headDim g b b') :
    StepDealt p n c.headDim g (stepArgs true c e b) (stepArgs false c e b') where
  q := hb.mixer.mono (by omega)
  k := by
    simp only [stepArgs, h.kElems, sp_true, sp_false]
    exact hb.mixer.drop (by omega)
  v := by
    simp only [stepArgs, h.qkElems, sp_true, sp_false]
    exact hb.mixer.drop le_rfl
  decay := hb.alpha
  mixing := hb.beta
  kHeads := h.sp_kHeads
  kHeads' := (sp_false c.kHeads).trans h.kHeads
  scale := rfl

variable [Field K]

/-- The GEMVs make the rows of the half and do not touch the caches. -/
theorem gemvs_dealt (h : c.Halves p n) (hg : g < 2) (hw : WeightsDealt p n c.headDim c.nEmbd g w w')
    (hb : CachesDealt p n c.headDim g b b') (x : ℕ → K) :
    BuffersDealt p n c.headDim g (gemvs true c e w x b) (gemvs false c e w' x b') where
  conv := hb.conv
  state := hb.state
  mixer := dealt_written h.channels (dealt_gemvRow hw.qkv _) hg _ _
  gate := dealt_written h.vElems (dealt_gemvRow hw.gate _) hg _ _
  alpha := dealt_written h.vHeads (dealt_gemvRow hw.alpha _) hg _ _
  beta := dealt_written h.vHeads (dealt_gemvRow hw.beta _) hg _ _
  gdnState := dealt_written h.stateElems hb.state hg _ _

/-- Decay and mixing of a head use its own `alpha` and `beta`. The conv cache is moved on by the new
column in every channel, -/
theorem gatesAndWindow_dealt [LinearOrder K] (h : c.Halves p n) (hg : g < 2)
    (hw : WeightsDealt p n c.headDim c.nEmbd g w w') (hb : BuffersDealt p n c.headDim g b b') :
    BuffersDealt p n c.headDim g (gatesAndWindow true c e w b)
      (gatesAndWindow false c e w' b') where
  conv := by
    have hcache : Dealt (p * c.headDim * 3) (2 + n) g
        (fun i => shiftedCell (convArgs true c b) (convCells b) (.cache i))
        fun i => shiftedCell (convArgs false c b') (convCells b') (.cache i) :=
      dealt_cache rfl rfl hb.mixer hb.conv
    exact dealt_written_parts h.channels hcache hg _ _
  state := hb.state
  mixer := hb.mixer
  gate := hb.gate
  alpha := by
    apply dealt_written h.vHeads _ hg
    intro i hi
    dsimp only
    rw [hb.alpha i hi, hw.dtBias i hi, hw.a i hi]
  beta := by
    apply dealt_written h.vHeads _ hg
    intro i hi
    dsimp only
    rw [hb.beta i hi]
  gdnState := hb.gdnState

/-- and the window that the convolution reads is made of the cache and the column. -/
theorem window_dealt [LinearOrder K] (h : c.Halves p n) (hg : g < 2)
    (hb : BuffersDealt p n c.headDim g b b') :
    Dealt (p * c.headDim * 4) (2 + n) g (gatesAndWindow true c e w b).convWs
        (gatesAndWindow false c e w' b').convWs := by
  have hwin : Dealt (p * c.headDim * 4) (2 + n) g
      (fun i => shiftedCell (convArgs true c b) (convCells b) (.win i))
      fun i => shiftedCell (convArgs false c b') (convCells b') (.win i) :=
    dealt_win rfl rfl hb.mixer hb.conv
  exact dealt_written_parts h.channels hwin hg _ _

/-- The convolution of the channels of the half. -/
theorem convolve_dealt (h : c.Halves p n) (hg : g < 2)
    (hw : WeightsDealt p n c.headDim c.nEmbd g w w') (hb : BuffersDealt p n c.headDim g b b')
    (hwin : Dealt (p * c.headDim * 4) (2 + n) g b.convWs b'.convWs) :
    BuffersDealt p n c.headDim g (convolve true c e w b) (convolve false c e w' b') :=
  { hb with mixer := dealt_written h.channels (dealt_convSilu _ hwin hw.conv) hg _ _ }

/-- The norms of q and k. They stand in front of v in the buffer, which is left as it is. -/
theorem normalize_dealt [LinearOrder K] (h : c.Halves p n) (hg : g < 2)
    (hb : BuffersDealt p n c.headDim g b b') :
    BuffersDealt p n c.headDim g (normalize true c e b) (normalize false c e b') :=
  { hb with
    mixer := by
      have hnew := dealt_l2norm e.device e.eps (hb.mixer.mono (Nat.le_add_right 2 n))
      have hlocal : 2 * sp true c.kHeads * c.headDim = 2 * (p * c.headDim) := by
        rw [h.sp_kHeads, Nat.mul_assoc]
      simp only [normalize, hlocal, sp_false, h.qkElems]
      exact dealt_overlay_blocks hb.mixer hnew hg }

/-- The step of all heads at once: the states in place, and the output of the heads in a buffer of
their own. -/
theorem deltaStep_dealt (h : c.Halves p n) (hg : g < 2) (hb : BuffersDealt p n c.headDim g b b') :
    BuffersDealt p n c.headDim g (deltaStep true c e b) (deltaStep false c e b') ∧
      Dealt (p * c.headDim) n g (deltaStep true c e b).attnOut
        (deltaStep false c e b').attnOut := by
  have hargs := stepArgs_dealt (e := e) h hb
  have hstate : Dealt (p * c.headDim * c.headDim) n g
      (fun i => newCell c.headDim (stepArgs true c e b) (stepCells b) (.state i))
      fun i => newCell c.headDim (stepArgs false c e b') (stepCells b') (.state i) :=
    dealt_state hargs hg hb.gdnState
  have hattn : Dealt (p * c.headDim) n g
      (fun i => newCell c.headDim (stepArgs true c e b) (stepCells b) (.attn i))
      fun i => newCell c.headDim (stepArgs false c e b') (stepCells b') (.attn i) :=
    dealt_attn hargs hg hb.gdnState
  constructor
  · refine { hb with gdnState := ?_ }
    simp only [deltaStep, Nat.mul_assoc _ c.headDim c.headDim]
    rw [Nat.mul_assoc] at hstate
    exact dealt_written_parts h.vHeads hstate hg _ _
  · exact dealt_written_parts h.vHeads hattn hg _ _

/-- The output is gated and the state is stored. After this the caches and the output of the half
are what they should be. -/
theorem gateAndStore_dealt (h : c.Halves p n) (hg : g < 2)
    (hw : WeightsDealt p n c.headDim c.nEmbd g w w') (hb : BuffersDealt p n c.headDim g b b')
    (hattn : Dealt (p * c.headDim) n g b.attnOut b'.attnOut) :
    CachesDealt p n c.headDim g (gateAndStore true c e w b) (gateAndStore false c e w' b') ∧
      Dealt (p * c.headDim) n g (gateAndStore true c e w b).attnOut
        (gateAndStore false c e w' b').attnOut := by
  have hgated := dealt_gatedRmsnorm e.device e.eps hattn hb.gate hw.norm
  constructor
  · exact ⟨hb.conv, dealt_written h.stateElems hb.gdnState hg _ _⟩
  · exact dealt_written_parts h.vHeads hgated hg _ _

/-- **The heads of a half**: caches and gated output are those of their heads on a single GPU. The
proof goes through the ops in the order of the block, each with its own lemma. -/
theorem mixer_dealt [LinearOrder K] (h : c.Halves p n) (hg : g < 2)
    (hw : WeightsDealt p n c.headDim c.nEmbd g w w') (hb : CachesDealt p n c.headDim g b b')
    (x : ℕ → K) :
    CachesDealt p n c.headDim g (mixer true c e w x b) (mixer false c e w' x b') ∧
      Dealt (p * c.headDim) n g (mixer true c e w x b).attnOut
        (mixer false c e w' x b').attnOut := by
  have h₁ := gemvs_dealt (e := e) h hg hw hb x
  have h₂ := gatesAndWindow_dealt (e := e) h hg hw h₁
  have h₃ := convolve_dealt (e := e) h hg hw h₂ (window_dealt h hg h₁)
  obtain ⟨h₄, hattn⟩ := deltaStep_dealt (e := e) h hg (normalize_dealt (e := e) h hg h₃)
  obtain ⟨h₅, hgated⟩ := gateAndStore_dealt (e := e) h hg hw h₄ hattn
  exact ⟨⟨h₅.conv, h₅.state⟩, hgated⟩

/-- **The partials of the output projection add up.** -/
theorem projOut_mixer [LinearOrder K] (h : c.Halves p n) {w₀ w₁ : Weights K}
    (hw₀ : WeightsDealt p n c.headDim c.nEmbd 0 w₀ w')
    (hw₁ : WeightsDealt p n c.headDim c.nEmbd 1 w₁ w') {b₀ b₁ : Buffers K}
    (hb₀ : CachesDealt p n c.headDim 0 b₀ b') (hb₁ : CachesDealt p n c.headDim 1 b₁ b')
    (hQ : e.quant.size ∣ p * c.headDim) (x : ℕ → K) {r : ℕ} (hr : r < c.nEmbd) :
    (mixer true c e w₀ x b₀).projOut r + (mixer true c e w₁ x b₁).projOut r =
      (mixer false c e w' x b').projOut r := by
  have hproj (split : Bool) (w : Weights K) (b : Buffers K) : (mixer split c e w x b).projOut r =
      gemvRow w.out (sp split (c.vHeads * c.headDim))
        (e.quant.apply (mixer split c e w x b).attnOut) r := overlay_of_lt _ _ hr
  obtain ⟨-, hattn₀⟩ := mixer_dealt (e := e) h (by decide) hw₀ hb₀ x
  obtain ⟨-, hattn₁⟩ := mixer_dealt (e := e) h (by decide) hw₁ hb₁ x
  rw [hproj, hproj, hproj, h.vElems, sp_true, sp_false]
  apply gemvRow_add (hw₀.out r hr) (hw₁.out r hr)
  · exact dealt_quantize e.quant hQ hattn₀
  · exact dealt_quantize e.quant hQ hattn₁

end Block

end DeltaNet

end Megakernel
