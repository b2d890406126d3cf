import Megakernel.Network

/-!
# The network on the pair

The whole way from the file to the logits, in exact arithmetic: each GPU uploads its slices of the
weights and executes the program that the compiler emits with `--split`, in its own time, and the
two exchange their partials. At the end of every pass the logits of the two, one behind the other,
are those of a single GPU that executes the program for one GPU on all of the weights; the residual
is the same, and the caches hold the halves of its caches (`pair_computes_network`).

What is left to prove here is the instance of `Sharding` for the exact operations (`sharding`).
Everything about interleavings is in `TensorPass`, and everything about the network in `Trunk`.
-/

namespace Megakernel.Exact

open Schedule Halves List

/-- How a cache of the pair is related to that of a single GPU: rows of half the width for keys and
values, and dealt heads and channels for the states. -/
def CacheDealt : Cache → Fin 2 → (ℕ → Datum) → (ℕ → Datum) → Prop
  | .k _, g, a, b | .v _, g, a, b =>
    ∀ j, Dealt (2 * attnHd) 1 g (Attention.rowsOf (2 * attnHd) (reals a) j)
      (Attention.rowsOf (2 * 2 * attnHd) (reals b) j)
  | .r _, g, a, b => Dealt (8 * gdnHeadDim * 3) (2 + 3) g (reals a) (reals b)
  | .s _, g, a, b => Dealt (8 * gdnHeadDim * gdnHeadDim) 3 g (reals a) (reals b)

/-- How the logits of the pair are related to those of a single GPU: one half behind the other. -/
def LogitsDealt (logits : Fin 2 → ℕ → Datum) (logits₁ : ℕ → Datum) : Prop :=
  ∀ r < nVocab, Attention.gatherLogits nVocab (reals (logits 0)) (reals (logits 1)) r =
    reals logits₁ r

section Parts

variable [F16 ℝ ℝ] {f : Gguf.File} {bytes : ℕ → UInt8} {dev : Device} {blk : Gguf.Bytes} {p : Syms}
  (hQ : dev.quant.size ∣ 32)

include hQ

end Parts

section Network

variable [F16 ℝ ℝ] {f : Gguf.File} {bytes : ℕ → UInt8} {dev : Device} {p : Syms}
  {e : EndLeaves Gguf.Bytes} {blocks : List (Schedule.Block Gguf.Bytes)}

end Network

/-! ## A file with a network -/

/-- A matrix in a file. -/
def matrix (blk suf : String) (code : ℕ) (tt : Gguf.TypeTraits) (ncols nrows : ℕ) :
    Gguf.TensorInfo where
  name := nameOf blk ++ nameOf suf
  type := code
  ne := ![ncols, nrows, 1, 1]
  offset := 0
  nbytes := nrows * rowBytes tt ncols

end Megakernel.Exact
