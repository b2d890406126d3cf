import Megakernel.Lts
import Megakernel.Wrap
import Megakernel.Boundary
import Megakernel.Isa
import Megakernel.Interp
import Megakernel.Lockstep
import Megakernel.Passes
import Megakernel.Progress
import Megakernel.Split
import Megakernel.Exchange
import Megakernel.Books
import Megakernel.Partial
import Megakernel.Dual
import Megakernel.Handshake
import Megakernel.Allreduce
import Megakernel.StrongRead
import Megakernel.Environment
import Megakernel.Pair
import Megakernel.Leaving
import Megakernel.Host
import Megakernel.Errored
import Megakernel.Shutdown
import Megakernel.Uniform
import Megakernel.Interference
import Megakernel.Coalesce
import Megakernel.Sequential
import Megakernel.Parallel
import Megakernel.Loops
import Megakernel.Warps
import Megakernel.Words
import Megakernel.Launch
import Megakernel.KvWindow
import Megakernel.FattnDecode
import Megakernel.KvRun
import Megakernel.FattnReduce
import Megakernel.Programs
import Megakernel.Gguf
import Megakernel.Halves
import Megakernel.WeightSlice
import Megakernel.StateDump
import Megakernel.Schedule
import Megakernel.Trunk
import Megakernel.MirroredTrunk
import Megakernel.TensorPass
import Megakernel.Ieee
import Megakernel.ParityGate
import Megakernel.Verdict
import Megakernel.Mmvq
import Megakernel.MmvqAr16
import Megakernel.QuantError
import Megakernel.Softmax
import Megakernel.FattnSoftmax
import Megakernel.DeltaRule
import Megakernel.GdnStep
import Megakernel.InPlace
import Megakernel.ConvWindow
import Megakernel.SkippedPass
import Megakernel.Phases
import Megakernel.Rmsnorm
import Megakernel.RmsnormOrder
import Megakernel.RmsnormRace
import Megakernel.CStruct
import Megakernel.Packing
import Megakernel.JsonParser
import Megakernel.JsonText
import Megakernel.JsonAccept
import Megakernel.JsonTrip
import Megakernel.JsonCut
import Megakernel.Binary64
import Megakernel.SplitGrid
import Megakernel.Exchanging
import Megakernel.Serialize
import Megakernel.EmittedSplit
import Megakernel.BenchCycles
import Megakernel.MaskTile
import Megakernel.Expansion
import Megakernel.SeqnoPatch
import Megakernel.Decoding
import Megakernel.GgufImage
import Megakernel.GgufTrip
import Megakernel.DeltaNetBlock
import Megakernel.DeltaNetSplit
import Megakernel.StoredWeights
import Megakernel.DeltaNetLayer
import Megakernel.AttnBlock
import Megakernel.AttnSplit
import Megakernel.AttnLayer
import Megakernel.Sharding
import Megakernel.ExactOps
import Megakernel.ExactBlocks
import Megakernel.UploadedWeights
import Megakernel.Network
import Megakernel.PairNetwork
import Megakernel.ParityRun
import Megakernel.PairProgress
import Megakernel.ParityDump
