import Mathlib.Analysis.SpecialFunctions.Log.Basic
import Megakernel.AttnLayer
import Megakernel.DeltaNetLayer
import Megakernel.Sharding

/-!
# The operations in exact arithmetic

What the ops of `k0/ops` make of the bytes of their weights and of their inputs, without rounding
(`exactKernel`). A buffer holds real numbers, or `-INF` where an op writes that. The arguments are
those of the call; what an op does not write of a buffer is left as it is, or zero. With these
operations the mixers, the FFN and the head of the schedule are those of `DeltaNet` and `Attention`
on the weights that a GPU has uploaded.

Every case of `exactKernel` uses the definition of the op in its own module where there is one, and
gives the element otherwise. Cells that hold `-INF` are needed for the records of the split decode
only.
-/

namespace Megakernel.Exact

open Schedule

/-! ## Numbers -/

/-- What a cell of a buffer holds: a real number, or the `-INF` that an op stores there. Reals alone
would not do for the maxima of the split decode. -/
inductive Datum : Type where
  | num (x : ℝ)
  | negInf

namespace Datum

/-- The number. -/
noncomputable def real : Datum → ℝ
  | num x => x
  | negInf => 0

/-- The number or `-INF`. -/
def toBot : Datum → WithBot ℝ
  | num x => x
  | negInf => ⊥

/-- The cell that holds a number or `-INF`. -/
def ofBot : WithBot ℝ → Datum
  | none => negInf
  | some x => num x

noncomputable instance : AddZeroClass Datum where
  zero := num 0
  add
    | num x, num y => num (x + y)
    | _, _ => negInf
  zero_add x := by
    cases x with
    | num x => exact congrArg num (zero_add x)
    | negInf => rfl
  add_zero x := by
    cases x with
    | num x => exact congrArg num (add_zero x)
    | negInf => rfl

@[simp] theorem real_zero : real 0 = 0 := rfl

@[simp] theorem toBot_ofBot (x : WithBot ℝ) : toBot (ofBot x) = x := by
  cases x <;> rfl

end Datum

open Datum

/-- The numbers in a buffer. -/
noncomputable def reals (v : ℕ → Datum) (i : ℕ) : ℝ := (v i).real

/-- A buffer of numbers. -/
def nums (x : ℕ → ℝ) (i : ℕ) : Datum := num (x i)

@[simp] theorem reals_zero : reals 0 = 0 := rfl

/-- What the quant blocks of the types stand for. They are parameters, so that nothing is assumed of
the formats beyond what cuts along whole blocks need. -/
structure Decoders : Type where
  f32 : (Fin 4 → UInt8) → ℕ → ℝ
  f16 : (Fin 2 → UInt8) → ℕ → ℝ
  q4_0 : (Fin 18 → UInt8) → ℕ → ℝ
  q4_0Ar16 : (Fin 10 → UInt8) → ℕ → ℝ

/-- A type of weights: its traits, and what its blocks stand for. -/
structure Format : Type where
  tt : Gguf.TypeTraits
  dq : (Fin tt.blockBytes → UInt8) → ℕ → ℝ

namespace Decoders

variable (D : Decoders)

/-- f32 -/
def asF32 : Format := ⟨⟨"f32", 1, 4⟩, D.f32⟩

/-- f16 -/
def asF16 : Format := ⟨⟨"f16", 1, 2⟩, D.f16⟩

/-- q4_0 -/
def asQ4_0 : Format := ⟨⟨"q4_0", 32, 18⟩, D.q4_0⟩

/-- q4_0_ar16 -/
def asQ4_0Ar16 : Format := ⟨⟨"q4_0_ar16", 16, 10⟩, D.q4_0Ar16⟩

end Decoders

/-- The entries of a matrix of `ncols` columns in the memory of a GPU. -/
def Format.matrix (fmt : Format) (ncols : ℕ) (w : Option (List UInt8)) (r c : ℕ) : ℝ :=
  entry fmt.tt fmt.dq ncols (fun y => (w.getD []).getD y 0) r c

/-! ## The operations -/

/-- What the ops are given besides their arguments: the device library, the decoders, and how
activations are quantized. -/
structure Device : Type where
  decoders : Decoders
  quant : Quantizer ℝ
  /-- the threads of OP_KV_APPEND -/
  threads : ℕ
  threads_pos : 0 < threads

/-- What the host sets for a pass besides the token, the mask and the window. -/
structure Syms : Type where
  /-- the four M-RoPE position ids -/
  pos : Fin 4 → ℤ
  kvRow : ℕ

/-- An argument of a call. -/
def arg {W : Type*} (c : Call W) (key : String) : ℕ := (c.nat key).getD 0

/-- A weight of a call. -/
def weight {B : Type*} (c : Call (Option (List B))) (i : ℕ) : Option (List B) :=
  c.weights.getD i none

noncomputable section

/-- The device library. -/
def deviceMath : DeviceMath ℝ := ⟨Real.exp, Real.log, Attention.rsqrt⟩

/-- 1e-06, the eps of every norm. -/
def eps : ℝ := Attention.attnEps

/-- 1.0 / math.sqrt(GDN_HEAD_DIM) -/
def gdnScale : ℝ := 1 / √(128 : ℕ)

/-- `op_rmsnorm` of a row. -/
def rmsnorm (n : ℕ) (x w : ℕ → ℝ) (i : ℕ) : ℝ :=
  x i * Attention.rsqrt ((∑ c ∈ Finset.range n, x c ^ 2) / n + eps) * w i

/-- The partials in memory: [n_q][n_chunks][MK_FATTN_PSTRIDE], in a record 256 vkq, max, sumexp and
two pads. Decode and reduce meet in this buffer only. -/
def packRecords (nChunks : ℕ) (records : ℕ → ℕ → Record ℝ) (i : ℕ) : Datum :=
  let rec' := records (i / 260 / nChunks) (i / 260 % nChunks)
  if i % 260 < 256 then num (rec'.acc (i % 260))
  else if i % 260 = 256 then ofBot rec'.max
  else if i % 260 = 257 then num rec'.sum
  else 0

/-- The records that the reduce reads. -/
def unpackRecords (nChunks : ℕ) (v : ℕ → Datum) (h chunk : ℕ) : Record ℝ :=
  let base := (h * nChunks + chunk) * 260
  ⟨fun d => (v (base + d)).real, (v (base + 256)).toBot, (v (base + 257)).real⟩

/-- The memory that OP_CONV_SHIFT_CONCAT finds. -/
def convCells (cache : ℕ → ℝ) : ConvCell → ℝ
  | .cache i => cache i
  | .win _ => 0

/-- `op_conv_shift_concat` on the cache and the new column: the window, and the cache. -/
def convOut (channels o : ℕ) (cache x : ℕ → ℝ) : ℕ → ℝ :=
  let cell := shiftedCell ⟨0, x, 0, 0, channels⟩ (convCells cache)
  if o = 0 then overlay (channels * 4) (fun i => cell (.win i)) 0
  else overlay (channels * 3) (fun i => cell (.cache i)) cache

/-- The memory that OP_GDN_STEP finds. -/
def stepCells (state : ℕ → ℝ) : GdnCell → ℝ
  | .state i => state i
  | .attn _ => 0

/-- `op_gdn_step` on the state: the state, and the output. -/
def stepOut (args : GdnStepArgs ℝ) (headDim o : ℕ) (state : ℕ → ℝ) : ℕ → ℝ :=
  let cell := newCell headDim args (stepCells state)
  if o = 0 then overlay (args.nHeads * headDim * headDim) (fun i => cell (.state i)) state
  else overlay (args.nHeads * headDim) (fun i => cell (.attn i)) 0

/-- The partial buffer before a pass. What it holds does not matter, since the decode writes all
records. -/
def noRecords : ℕ → ℕ → Record ℝ := fun _ _ => ⟨fun _ => 0, ⊥, 0⟩

/-- **The ops in exact arithmetic**, on the device `dev`. There is one case for each kind, and each
of them is made from the arguments of the call as the packer finds them. -/
def exactKernel [F16 ℝ ℝ] (dev : Device) : Kernel UInt8 Syms Datum := fun p c o vs =>
  let D := dev.decoders
  let v : ℕ → ℕ → Datum := fun i => vs.getD i 0
  let x : ℕ → ℕ → ℝ := fun i => reals (v i)
  -- the rows of a GEMV, from row 0 on
  let gemv := fun (fmt : Format) (ncols i : ℕ) =>
    gemvRow (fmt.matrix ncols (weight c i)) ncols (x 0)
  -- a vector of weights
  let vector := fun (ncols i : ℕ) => D.asF32.matrix ncols (weight c i) 0
  match c.kind with
  | .embedLookup => nums (overlay (arg c "n_embd")
      (D.asF16.matrix (arg c "n_embd") (weight c 0) ⌊x 0 0⌋₊) 0)
  | .rmsnorm =>
    nums (overlay (arg c "width") (rmsnorm (arg c "width") (x 0) (vector (arg c "width") 0)) 0)
  | .quantQ8_1 => nums (overlay (arg c "elems") (dev.quant.apply (x 0)) 0)
  | .mmvqQ4_0 => nums (overlay (arg c "row_hi") (gemv D.asQ4_0 (arg c "src_elems") 0) 0)
  | .mmvqAr16 => nums (overlay (arg c "row_hi") (gemv D.asQ4_0Ar16 (arg c "src_elems") 0) 0)
  | .gemvF16 => nums (overlay (arg c "row_hi") (gemv D.asF16 (arg c "src_elems") 0) 0)
  | .headGemvF16 => nums (overlay (arg c "row_hi") (gemv D.asF16 nEmbd 0) 0)
  -- the weights are those of the gate and of up
  | .mmvqQ4_0Fused => nums (overlay (arg c "row_hi")
      (fun r => gemv D.asQ4_0 (arg c "src_elems") 1 r *
        Attention.silu (gemv D.asQ4_0 (arg c "src_elems") 0 r)) 0)
  | .stateLoad => nums (overlay (arg c "elems") (x 0) 0)
  | .stateStore => nums (overlay (arg c "elems") (x 0) (x 1))
  | .gdnGates =>
    if o = 0 then nums (overlay (arg c "heads") (fun h =>
      DeltaNet.decay deviceMath (x 0 h) (vector gdnHeads 0 h) (vector gdnHeads 1 h)) (x 0))
    else nums (overlay (arg c "heads") (fun h => DeltaNet.mixing deviceMath (x 1 h)) (x 1))
  | .convShiftConcat => nums (convOut (arg c "channels") o (x 0) (x 1))
  | .ssmConvSilu => nums (overlay (arg c "channels") (DeltaNet.convSilu deviceMath (x 0) fun i =>
      D.asF32.matrix gdnDconv (weight c 0) (i / gdnDconv) (i % gdnDconv)) 0)
  | .qkL2norm => nums (overlay (2 * arg c "heads" * arg c "head_dim")
      (DeltaNet.l2norm deviceMath eps (arg c "head_dim") (x 0)) (x 0))
  | .gdnStep => nums (stepOut
      { q := fun i => x 0 (arg c "q_off" + i)
        k := fun i => x 0 (arg c "k_off" + i)
        v := fun i => x 0 (arg c "v_off" + i)
        g := x 1
        beta := x 2
        nHeads := arg c "v_heads"
        nKHeads := arg c "k_heads"
        scale := gdnScale } (arg c "head_dim") o (x 3))
  | .gatedRmsnorm => nums (overlay (arg c "heads" * arg c "head_dim")
      (DeltaNet.gatedRmsnorm deviceMath eps (arg c "head_dim") (x 0) (x 1)
        (vector (arg c "head_dim") 0)) (x 0))
  | .qkNormRope =>
    if o = 0 then nums (overlay (arg c "q_heads" * arg c "head_dim")
      (Attention.qkNormRope p.pos (fun i => x 0 (arg c "q_off" + i)) (arg c "q_head_stride")
        (vector (arg c "head_dim") 0)) 0)
    else nums (overlay (arg c "k_heads" * arg c "head_dim")
      (Attention.qkNormRope p.pos (x 1) (arg c "head_dim") (vector (arg c "head_dim") 1)) (x 1))
  | .kvAppend =>
    nums (Attention.kvAppendDense dev.threads (arg c "row_width") p.kvRow (x o) (x (2 + o)))
  | .fattnDecode =>
    let rowWidth := arg c "kv_heads" * arg c "head_dim"
    packRecords Schedule.grid (decodeRecords Attention.blockWarps Schedule.grid
      { q := x 0
        kCache := Attention.rowsOf rowWidth (x 1)
        vCache := Attention.rowsOf rowWidth (x 2)
        nKv := ⌊x 4 0⌋₊
        mask := fun j => (v 3 j).toBot
        nQ := arg c "q_heads"
        nKvHeads := arg c "kv_heads" } noRecords)
  | .fattnReduce => nums (overlay (arg c "q_heads" * arg c "head_dim") (fun i =>
      fattnReduce (arg c "n_splits") (unpackRecords (arg c "n_splits") (v 0)) (i / attnHd)
        (i % attnHd)) 0)
  | .attnGate => nums (overlay (arg c "heads" * arg c "head_dim")
      (Attention.attnGate (x 0) (fun i => x 1 (arg c "gate_off" + i)) (arg c "gate_head_stride"))
        (x 0))
  | .logitsEmit => if o = 0 then nums (overlay (arg c "elems") (x 0) 0) else 0
  | .nop | .boundary | .residualAdd | .xchgPush | .xchgReduce => 0

/-! ## The blocks of a network -/

section Blocks

variable {W : Type*} (split : Bool) (D : Decoders) (u : W → Option (List UInt8))

end Blocks

end

/-! ## What is read of what has been written -/

end Megakernel.Exact
