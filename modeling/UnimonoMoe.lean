import UnimonoMoe.Lib.Loops
import UnimonoMoe.Lib.Epochs
import UnimonoMoe.Lib.Interleaving
import UnimonoMoe.Lib.PrefixSum
import UnimonoMoe.Lib.Butterfly
import UnimonoMoe.Lib.Python
import UnimonoMoe.Lib.TopK
import UnimonoMoe.Lib.GroupedTopK
import UnimonoMoe.Kernel.Build
import UnimonoMoe.Kernel.Partition
import UnimonoMoe.Kernel.Sort
import UnimonoMoe.Kernel.Pipeline
import UnimonoMoe.Kernel.Router
import UnimonoMoe.Kernel.ExpertParallel
import UnimonoMoe.Kernel.Epilogue
import UnimonoMoe.Kernel.EpilogueSafety
import UnimonoMoe.Kernel.EpilogueProgress
import UnimonoMoe.Kernel.EpilogueResult
import UnimonoMoe.Lib.Swizzle
import UnimonoMoe.Host.FusedPlan
import UnimonoMoe.Host.Gate
import UnimonoMoe.Host.LoadVote
import UnimonoMoe.Lib.Collectives
import UnimonoMoe.Host.Runner
import UnimonoMoe.Host.RunnerFinish
import UnimonoMoe.Host.RunnerOp
import UnimonoMoe.Host.SingleReduction
import UnimonoMoe.Host.Bypass
import UnimonoMoe.Kernel.GridBarrier
import UnimonoMoe.Kernel.SortBounds
import UnimonoMoe.Kernel.RouterReference
import UnimonoMoe.Host.PlanLaunch
import UnimonoMoe.Host.Extents
import UnimonoMoe.Host.Marshalling
import UnimonoMoe.Host.Renormalization
import UnimonoMoe.Lib.Threads
import UnimonoMoe.Host.SharedSlots
import UnimonoMoe.Lib.Tensors
import UnimonoMoe.Host.ScaleCache
import UnimonoMoe.Lib.RowBuffers
import UnimonoMoe.Host.RaggedGrid
import UnimonoMoe.Host.FastSilu
import UnimonoMoe.Host.LayerRouter
import UnimonoMoe.Host.GateSoundness
import UnimonoMoe.Lib.StablePartition
import UnimonoMoe.Host.TopkCompaction
import UnimonoMoe.Host.SymmOutputPool
import UnimonoMoe.Host.ExpertMapGate
import UnimonoMoe.Lib.Binary32
import UnimonoMoe.Kernel.RouterBounds
import UnimonoMoe.Lib.PhaseBarrier
import UnimonoMoe.Kernel.OperandRings
import UnimonoMoe.Kernel.OperandPipelines
import UnimonoMoe.Kernel.ActQuant
import UnimonoMoe.Kernel.IntermediateAgreement
import UnimonoMoe.Kernel.SharedLayout
import UnimonoMoe.Kernel.OperandBytes
import UnimonoMoe.Kernel.OperandProgress
import UnimonoMoe.Kernel.ExpertTile
import UnimonoMoe.Kernel.KernelOutput
import UnimonoMoe.Kernel.LayerOutput
import UnimonoMoe.Host.DeepEPLayer
import UnimonoMoe.Lib.MemoryRows
import UnimonoMoe.Host.Workspaces
import UnimonoMoe.Host.NaiveDPEPLayer
import UnimonoMoe.Lib.Traces
import UnimonoMoe.Kernel.GridSequential
import UnimonoMoe.Kernel.GridLaunch
