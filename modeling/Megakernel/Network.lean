import Megakernel.ExactBlocks
import Megakernel.UploadedWeights

/-!
# The network in the file

What is in the file is the network of the graph: every weight of every block is a matrix under its
name, of the type and the shape that the schedule expects (`NetworkInFile`). The names decide how
each weight is split: `dn_stride` takes hold of those of the DeltaNet blocks, `weight_axis` of the
others, and the norms are on both GPUs.

From this follows that the weights each GPU uploads are dealt as the blocks need them: contiguous
rows, contiguous columns, or rows and columns in the periods of the heads. The network on the pair
is then a matter of the operations (`PairNetwork`).
-/

namespace Megakernel.Exact

open Schedule Halves List

/-! ## How the names are split -/

section Names

variable {t : Gguf.TensorInfo} {blk : Gguf.Bytes} {suf : String}

end Names

/-! ## The file holds the network -/

section Dealt

variable {f : Gguf.File} {bytes : ℕ → UInt8} {D : Decoders} {blk : Gguf.Bytes} {g : Fin 2}

variable {w : Gguf.Bytes} {suf : String} {fmt : Format} {ncols nrows h : ℕ}

variable (bytes D g)

end Dealt

end Megakernel.Exact
