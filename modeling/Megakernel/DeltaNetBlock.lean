import Megakernel.ConvWindow
import Megakernel.GdnStep
import Megakernel.SplitOps

/-!
# A DeltaNet block

What `emit_dn_block` of `k0/compile_schedule.py` has a GPU compute between the first norm of a
block and the exchange, in exact arithmetic and op by op (`k0/ops/gdn.cuh`, and the packing in
`k0/harness.cpp`). The counts of the network are parameters; with `--split` the emitter halves
those that `sp` is applied to. The functions of the device library are parameters too.

Ops that are modelled elsewhere as programs of threads and warps (`GdnStep`, `ConvWindow`) are used
here with their tasks in one order. The others are given by their elements.
-/

namespace Megakernel

open List

/-! ## Parameters -/

/-- The functions of the device library. -/
structure DeviceMath (K : Type*) : Type _ where
  expf : K → K
  logf : K → K
  rsqrtf : K → K

namespace DeltaNet

/-- The counts of a DeltaNet block. As parameters they show which of them the emitter halves and
which it does not. -/
structure Counts : Type where
  kHeads : ℕ
  vHeads : ℕ
  headDim : ℕ
  nEmbd : ℕ

/-- CONV_CHANNELS: the segments q, k and v. -/
def Counts.channels (c : Counts) : ℕ := (2 * c.kHeads + c.vHeads) * c.headDim

/-- The weights, decoded: the entries of the matrices by row and column. -/
structure Weights (K : Type*) : Type _ where
  qkv : ℕ → ℕ → K
  gate : ℕ → ℕ → K
  alpha : ℕ → ℕ → K
  beta : ℕ → ℕ → K
  conv : ℕ → ℕ → K
  dtBias : ℕ → K
  a : ℕ → K
  norm : ℕ → K
  out : ℕ → ℕ → K

/-- The buffers of a GPU, and the rows of the two caches. -/
structure Buffers (K : Type*) : Type _ where
  mixerOut : ℕ → K
  gateOut : ℕ → K
  gdnAlpha : ℕ → K
  gdnBeta : ℕ → K
  gdnState : ℕ → K
  convWs : ℕ → K
  attnOut : ℕ → K
  projOut : ℕ → K
  /-- the row of the convolution cache -/
  convCache : ℕ → K
  /-- the row of the state cache -/
  stateCache : ℕ → K

/-- What a block is given besides its weights: the device library, the quantization of the
activations, and two constants. -/
structure Env (K : Type*) : Type _ where
  device : DeviceMath K
  quant : Quantizer K
  eps : K
  scale : K

section Ops

variable {K : Type*} [Field K]

/-- `op_gdn_gates`: the decay of a head. -/
def decay [LinearOrder K] (D : DeviceMath K) (alphaRaw dtBias a : K) : K :=
  let ab := alphaRaw + dtBias
  let sp := if ab > (20 : ℕ) then ab else D.logf (1 + D.expf ab)
  D.expf (sp * a)

/-- `op_gdn_gates`: the mixing coefficient of a head. -/
def mixing (D : DeviceMath K) (betaRaw : K) : K := 1 / (1 + D.expf (-betaRaw))

/-- `op_ssm_conv_silu`: a channel. -/
def convSilu (D : DeviceMath K) (win weight : ℕ → K) (c : ℕ) : K :=
  let x := fun j => win (c * gdnDconv + j)
  let w := fun j => weight (c * gdnDconv + j)
  gdnSilu D.expf ((((0 + x 0 * w 0) + x 1 * w 1) + x 2 * w 2) + x 3 * w 3)

theorem opSsmConvSilu_eq (D : DeviceMath K) (I : Launch) (win weight : ℕ → K)
    (channels block thread : ℕ) : opSsmConvSilu D.expf I win weight channels block thread =
      (I.share 0 channels block thread).map fun c => (c, convSilu D win weight c) := rfl

/-- `op_qk_l2norm`: an element. -/
def l2norm [LinearOrder K] (D : DeviceMath K) (eps : K) (headDim : ℕ) (src : ℕ → K) (i : ℕ) : K :=
  let ss := ∑ j ∈ Finset.range headDim, src (i / headDim * headDim + j) *
    src (i / headDim * headDim + j)
  D.rsqrtf (max ss (eps * eps)) * src i

/-- `op_gated_rmsnorm`: an element. -/
def gatedRmsnorm (D : DeviceMath K) (eps : K) (headDim : ℕ) (x z w : ℕ → K) (i : ℕ) : K :=
  let ss := ∑ j ∈ Finset.range headDim, x (i / headDim * headDim + j) *
    x (i / headDim * headDim + j)
  D.rsqrtf (ss / headDim + eps) * x i * w (i % headDim) * gdnSilu D.expf (z i)

end Ops

/-! ## The windows of the block -/

section Block

variable {K : Type*} [Field K] [LinearOrder K] (split : Bool) (c : Counts) (e : Env K)
  (w : Weights K) (x : ℕ → K) (b : Buffers K)

/-- The GEMVs on the output of the norm, and the prefetch of the state. -/
def gemvs : Buffers K :=
  { b with
    mixerOut := overlay (sp split c.channels) (gemvRow w.qkv c.nEmbd (e.quant.apply x)) b.mixerOut
    gateOut := overlay (sp split (c.vHeads * c.headDim)) (gemvRow w.gate c.nEmbd (e.quant.apply x))
      b.gateOut
    gdnAlpha := overlay (sp split c.vHeads) (gemvRow w.alpha c.nEmbd x) b.gdnAlpha
    gdnBeta := overlay (sp split c.vHeads) (gemvRow w.beta c.nEmbd x) b.gdnBeta
    gdnState := overlay (sp split (c.vHeads * c.headDim * c.headDim)) b.stateCache b.gdnState }

/-- The arguments of OP_CONV_SHIFT_CONCAT: the row is the first one of the cache. -/
def convArgs : ConvShiftConcatArgs K := ⟨0, b.mixerOut, 0, 0, sp split c.channels⟩

/-- The memory that the op finds. -/
def convCells : ConvCell → K
  | .cache i => b.convCache i
  | .win i => b.convWs i

/-- The gate math, and the window of the convolution. -/
def gatesAndWindow : Buffers K :=
  { b with
    gdnAlpha := overlay (sp split c.vHeads)
      (fun h => decay e.device (b.gdnAlpha h) (w.dtBias h) (w.a h)) b.gdnAlpha
    gdnBeta := overlay (sp split c.vHeads) (fun h => mixing e.device (b.gdnBeta h)) b.gdnBeta
    convWs := overlay (sp split c.channels * 4)
      (fun i => shiftedCell (convArgs split c b) (convCells b) (.win i)) b.convWs
    convCache := overlay (sp split c.channels * 3)
      (fun i => shiftedCell (convArgs split c b) (convCells b) (.cache i)) b.convCache }

/-- The convolution. -/
def convolve : Buffers K :=
  { b with
    mixerOut := overlay (sp split c.channels)
      (convSilu e.device b.convWs fun i => w.conv (i / gdnDconv) (i % gdnDconv)) b.mixerOut }

/-- The norms of q and k, which follow each other. -/
def normalize : Buffers K :=
  { b with
    mixerOut := overlay (2 * sp split c.kHeads * c.headDim)
      (l2norm e.device e.eps c.headDim b.mixerOut) b.mixerOut }

/-- The arguments of OP_GDN_STEP. -/
def stepArgs : GdnStepArgs K where
  q := b.mixerOut
  k i := b.mixerOut (sp split (c.kHeads * c.headDim) + i)
  v i := b.mixerOut (sp split (2 * c.kHeads * c.headDim) + i)
  g := b.gdnAlpha
  beta := b.gdnBeta
  nHeads := sp split c.vHeads
  nKHeads := sp split c.kHeads
  scale := e.scale

/-- The memory that the op finds. -/
def stepCells : GdnCell → K
  | .state i => b.gdnState i
  | .attn i => b.attnOut i

/-- The step of the delta rule: the op of `GdnStep`, in place on the working state and with its
tasks one after the other. By the result there, any other order yields the same. -/
def deltaStep : Buffers K :=
  { b with
    gdnState := overlay (sp split c.vHeads * c.headDim * c.headDim)
      (fun i => newCell c.headDim (stepArgs split c e b) (stepCells b) (.state i)) b.gdnState
    attnOut := overlay (sp split c.vHeads * c.headDim)
      (fun i => newCell c.headDim (stepArgs split c e b) (stepCells b) (.attn i)) b.attnOut }

/-- The gated norm of the output, and the commit of the state. -/
def gateAndStore : Buffers K :=
  { b with
    attnOut := overlay (sp split c.vHeads * c.headDim)
      (gatedRmsnorm e.device e.eps c.headDim b.attnOut b.gateOut w.norm) b.attnOut
    stateCache := overlay (sp split (c.vHeads * c.headDim * c.headDim)) b.gdnState b.stateCache }

/-- The output projection. -/
def project : Buffers K :=
  { b with
    projOut := overlay c.nEmbd
      (gemvRow w.out (sp split (c.vHeads * c.headDim)) (e.quant.apply b.attnOut)) b.projOut }

/-- `emit_dn_block`, from the output of its first norm to the partial of the projection. The
definition goes through the windows as they are emitted. -/
def mixer : Buffers K :=
  let b := gemvs split c e w x b
  let b := gatesAndWindow split c e w b
  let b := convolve split c e w b
  let b := normalize split c e b
  let b := deltaStep split c e b
  let b := gateAndStore split c e w b
  project split c e w b

end Block

/-- The counts of the network give the arguments that are emitted. -/
example : sp true (Counts.channels ⟨16, 48, 128, 5120⟩) = Schedule.sp true Schedule.convChannels ∧
    sp true (48 * 128 * 128) = Schedule.sp true 786432 ∧
      sp true (16 * 128) = Schedule.sp true 2048 ∧
      sp true (2 * 16 * 128) = Schedule.sp true 4096 := by
  decide

end DeltaNet

end Megakernel
