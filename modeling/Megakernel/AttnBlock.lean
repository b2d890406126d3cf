import Mathlib.Analysis.SpecialFunctions.Trigonometric.Basic
import Megakernel.FattnSoftmax
import Megakernel.SplitOps

/-!
# An attention block

What `emit_attn_block` and `emit_ffn` of `k0/compile_schedule.py` have a GPU compute between the
norms and the exchanges, and the head of the network, in exact arithmetic and op by op
(`k0/ops/attn.cuh`, `k0/ops/gemv.cuh`, and the packing in `k0/harness.cpp`). The counts are
parameters; with `--split` the emitter halves those that `sp` is applied to. What quantization
makes of activations is a parameter too, and so is the format of the caches. The warps of a
block are not: the interpreter is launched with 384 threads a block, so that the decode serves 12
query heads of a KV head (`blockWarps`) and leaves the records of others as they are.

The decode and the merge are those of `FattnDecode` and `FattnReduce`, with the real numbers as
floats. The partial buffer is kept as it is found, because a head without a warp would be merged
from it.
-/

namespace Megakernel

open F32 F16 Loops

namespace Attention

/-- The counts of the network: heads, the widths, the vocabulary and the number of chunks. -/
structure Counts : Type where
  /-- ATTN_KV_HEADS -/
  kvHeads : ℕ
  /-- the query heads of a KV head -/
  gqa : ℕ
  nEmbd : ℕ
  nFf : ℕ
  nVocab : ℕ
  /-- GRID, the number of chunks of the window -/
  nChunks : ℕ

/-- ATTN_Q_HEADS: `gqa` query heads for each KV head. -/
def Counts.qHeads (c : Counts) : ℕ := c.kvHeads * c.gqa

/-- The rows of `attn_q` for a head: q, then its gate. -/
abbrev qStride : ℕ := 512

/-- The weights, decoded: the entries of the matrices by row and column. -/
structure Weights : Type where
  q : ℕ → ℕ → ℝ
  k : ℕ → ℕ → ℝ
  v : ℕ → ℕ → ℝ
  qNorm : ℕ → ℝ
  kNorm : ℕ → ℝ
  o : ℕ → ℕ → ℝ
  gate : ℕ → ℕ → ℝ
  up : ℕ → ℕ → ℝ
  down : ℕ → ℕ → ℝ
  output : ℕ → ℕ → ℝ

/-- The buffers of a GPU and its caches, which are dense. -/
structure Buffers (H : Type*) : Type _ where
  mixerOut : ℕ → ℝ
  kStage : ℕ → ℝ
  vStage : ℕ → ℝ
  fattnQ : ℕ → ℝ
  partials : ℕ → ℕ → Record ℝ
  attnOut : ℕ → ℝ
  ffnWs : ℕ → ℝ
  projOut : ℕ → ℝ
  logits : ℕ → ℝ
  kCache : ℕ → H
  vCache : ℕ → H

/-- The warps of a block, BLOCK_THREADS / 32: a block decodes that many query heads of a KV head. -/
def blockWarps : ℕ := 384 / 32

/-- What both GPUs are given: the cells of the pass, and how activations are quantized. -/
structure Env : Type where
  quant : Quantizer ℝ
  /-- the four M-RoPE position ids -/
  pos : Fin 4 → ℤ
  mask : ℕ → WithBot ℝ
  nKv : ℕ
  kvRow : ℕ
  /-- the threads of OP_KV_APPEND -/
  threads : ℕ
  threads_pos : 0 < threads

/-- The rows of a dense cache, as the decode reads them: row and element. -/
def rowsOf {H : Type*} (rowWidth : ℕ) (cache : ℕ → H) (j i : ℕ) : H := cache (j * rowWidth + i)

/-- `op_kv_append` on a dense cache: the row is where `d` points to. A cache of half of the heads
has rows of half the width. -/
def kvAppendDense {F H : Type*} [F32 F] [F16 H F] (threads rowWidth row : ℕ) (src : ℕ → F)
    (cache : ℕ → H) (p : ℕ) : H :=
  let d := row * rowWidth
  if d ≤ p then appendRow threads rowWidth src (fun i => cache (d + i)) (p - d) else cache p

noncomputable section

/-! ## The ops -/

/-- MK_ATTN_EPS: the eps of the norms of q and k. -/
def attnEps : ℝ := 1 / (1000000 : ℕ)

/-- `rsqrtf` -/
def rsqrt (x : ℝ) : ℝ := 1 / √x

/-- MK_IMROPE_THETA_SCALE, 0x1.356656p-1. -/
def thetaScale : ℝ := (0x1356656 : ℕ) / (2 ^ 25 : ℕ)

/-- `pos_sel` of a sector: which of the four positions turns it. -/
def posSel (pos : Fin 4 → ℤ) (sector : ℕ) : ℤ :=
  if sector % 3 = 1 ∧ sector < 3 * 11 then pos 1
  else if sector % 3 = 2 ∧ sector < 3 * 10 then pos 2
  else if sector % 3 = 0 ∧ sector < 3 * 11 then pos 0
  else pos 3

/-- `theta` of a sector: its position times a power of the scale that grows with the sector. -/
def theta (pos : Fin 4 → ℤ) (sector : ℕ) : ℝ := posSel pos sector * thetaScale ^ sector

/-- `op_qk_norm_rope`: element `e` of head `h` after the norm. -/
def headNorm (src : ℕ → ℝ) (stride : ℕ) (w : ℕ → ℝ) (h e : ℕ) : ℝ :=
  let ss := ∑ j ∈ Finset.range attnHd, src (h * stride + j) * src (h * stride + j)
  rsqrt (ss / attnHd + attnEps) * src (h * stride + e) * w e

/-- `op_qk_norm_rope`: element `e` of head `h`. The first 64 are rotated, in pairs at a distance of
32. -/
def normRope (pos : Fin 4 → ℤ) (src : ℕ → ℝ) (stride : ℕ) (w : ℕ → ℝ) (h e : ℕ) : ℝ :=
  let v := headNorm src stride w h
  if e < 32 then v e * Real.cos (theta pos e) - v (e + 32) * Real.sin (theta pos e)
  else if e < 64 then
    v (e - 32) * Real.sin (theta pos (e - 32)) + v e * Real.cos (theta pos (e - 32))
  else v e

/-- `op_qk_norm_rope`: the output, head by head. The heads may stand further apart in the input than
in the output. -/
def qkNormRope (pos : Fin 4 → ℤ) (src : ℕ → ℝ) (stride : ℕ) (w : ℕ → ℝ) (i : ℕ) : ℝ :=
  normRope pos src stride w (i / attnHd) (i % attnHd)

/-- `op_attn_gate`: an element, times the sigmoid of its gate. -/
def attnGate (attn gate : ℕ → ℝ) (stride i : ℕ) : ℝ :=
  attn i * (1 / (1 + expf (-gate (i / attnHd * stride + i % attnHd))))

/-- `mk_silu`: a number times its sigmoid. -/
def silu (x : ℝ) : ℝ := x / (1 + expf (-x))

/-! ## The mixer -/

section Block

variable {H : Type*} [F16 H ℝ] (split : Bool) (c : Counts) (e : Env) (w : Weights) (x : ℕ → ℝ)
  (b : Buffers H)

/-- The GEMVs of q with its gate, of k and of v, from the same quantised activations. -/
def gemvs : Buffers H :=
  { b with
    mixerOut := overlay (sp split (c.qHeads * qStride)) (gemvRow w.q c.nEmbd (e.quant.apply x))
      b.mixerOut
    kStage := overlay (sp split (c.kvHeads * attnHd)) (gemvRow w.k c.nEmbd (e.quant.apply x))
      b.kStage
    vStage := overlay (sp split (c.kvHeads * attnHd)) (gemvRow w.v c.nEmbd (e.quant.apply x))
      b.vStage }

/-- The norms and the rotation; k is rotated in place. -/
def rotate : Buffers H :=
  { b with
    fattnQ := overlay (sp split c.qHeads * attnHd) (qkNormRope e.pos b.mixerOut qStride w.qNorm)
      b.fattnQ
    kStage := overlay (sp split c.kvHeads * attnHd) (qkNormRope e.pos b.kStage attnHd w.kNorm)
      b.kStage }

/-- The row of the token in the caches: k as it is rotated, v as it comes from its GEMV. -/
def append : Buffers H :=
  { b with
    kCache := kvAppendDense e.threads (sp split c.kvHeads * attnHd) e.kvRow b.kStage b.kCache
    vCache := kvAppendDense e.threads (sp split c.kvHeads * attnHd) e.kvRow b.vStage b.vCache }

/-- The arguments of OP_FATTN_DECODE, with the buffers and caches of this GPU and its local counts.
-/
def decodeArgs : FattnDecodeArgs ℝ H where
  q := b.fattnQ
  kCache := rowsOf (sp split c.kvHeads * attnHd) b.kCache
  vCache := rowsOf (sp split c.kvHeads * attnHd) b.vCache
  nKv := e.nKv
  mask := e.mask
  nQ := sp split c.qHeads
  nKvHeads := sp split c.kvHeads

/-- Decode and merge. A head is decoded if its number among the heads of its KV head is that of a
warp. -/
def attend : Buffers H :=
  let partials := decodeRecords blockWarps c.nChunks (decodeArgs split c e b) b.partials
  { b with
    partials
    attnOut := overlay (sp split c.qHeads * attnHd)
      (fun i => fattnReduce c.nChunks partials (i / attnHd) (i % attnHd)) b.attnOut }

/-- The output gate, in place. The gates are those that the GEMV of q has made. -/
def gateOut : Buffers H :=
  { b with
    attnOut := overlay (sp split c.qHeads * attnHd)
      (attnGate b.attnOut (fun i => b.mixerOut (256 + i)) qStride) b.attnOut }

/-- The output projection: on two GPUs the columns are halved, so that this is a partial. -/
def project : Buffers H :=
  { b with
    projOut := overlay c.nEmbd
      (gemvRow w.o (sp split (c.qHeads * attnHd)) (e.quant.apply b.attnOut)) b.projOut }

/-- `emit_attn_block` up to the merge of the chunks. What the decode does not write of the partial
buffer is merged as it was found. -/
def attended : Buffers H :=
  let b := gemvs split c e w x b
  let b := rotate split c e w b
  let b := append split c e b
  attend split c e b

/-- `emit_attn_block`, from the output of its first norm to the partial of the projection. -/
def mixer : Buffers H := project split c e w (gateOut split c (attended split c e w x b))

/-! ## The feed-forward part and the head -/

/-- `emit_ffn`, from the output of the norm to the partial of the projection. -/
def ffn : Buffers H :=
  let ffnWs := overlay (sp split c.nFf)
    (fun r => gemvRow w.up c.nEmbd (e.quant.apply x) r *
      silu (gemvRow w.gate c.nEmbd (e.quant.apply x) r)) b.ffnWs
  { b with
    ffnWs
    projOut := overlay c.nEmbd (gemvRow w.down (sp split c.nFf) (e.quant.apply ffnWs)) b.projOut }

/-- OP_HEAD_GEMV_F16 and OP_LOGITS_EMIT: the local logits. -/
def head : Buffers H :=
  { b with logits := overlay (sp split c.nVocab) (gemvRow w.output c.nEmbd x) b.logits }

end Block

/-- `gather_logits`: the halves of the two GPUs, one behind the other. -/
def gatherLogits (nVocab : ℕ) (logits₀ logits₁ : ℕ → ℝ) (r : ℕ) : ℝ :=
  if r < nVocab / 2 then logits₀ r else logits₁ (r - nVocab / 2)

end

end Attention

end Megakernel
