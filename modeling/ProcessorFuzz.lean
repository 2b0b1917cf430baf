import ProcessorFuzz.Library.Latch
import ProcessorFuzz.Library.Text
import ProcessorFuzz.Library.Regex
import ProcessorFuzz.Library.Dict
import ProcessorFuzz.Library.Python
import ProcessorFuzz.Mutation.RiscvDefinitions
import ProcessorFuzz.Execution.SignatureChecker
import ProcessorFuzz.Execution.SpikeLog
import ProcessorFuzz.Execution.SpikeTrace
import ProcessorFuzz.TileLink.Definitions
import ProcessorFuzz.TileLink.FreeList
import ProcessorFuzz.TileLink.ProbeSources
import ProcessorFuzz.TileLink.Adapter
import ProcessorFuzz.TileLink.AdapterProbes
import ProcessorFuzz.TileLink.AdapterSteps
import ProcessorFuzz.TileLink.ProbeRace
import ProcessorFuzz.TileLink.Client
import ProcessorFuzz.TileLink.Conservation
import ProcessorFuzz.TileLink.ProbePath
import ProcessorFuzz.TileLink.Blocks
import ProcessorFuzz.TileLink.Caches
import ProcessorFuzz.TileLink.Coherence
import ProcessorFuzz.TileLink.CoherenceRuns
import ProcessorFuzz.Execution.SignatureFile
import ProcessorFuzz.Execution.HtifSignature
import ProcessorFuzz.Common.Transitions
import ProcessorFuzz.Common.TransitionKeys
import ProcessorFuzz.Execution.ProcManager
import ProcessorFuzz.Execution.ProcManagerCounters
import ProcessorFuzz.Execution.ProcManagerRuns
import ProcessorFuzz.Execution.CovMap
import ProcessorFuzz.Mutation.Word
import ProcessorFuzz.Mutation.SimInput
import ProcessorFuzz.Mutation.SimInputRoundTrip
import ProcessorFuzz.TileLink.Restart
import ProcessorFuzz.TileLink.Sinks
import ProcessorFuzz.TileLink.SinkRuns
import ProcessorFuzz.TileLink.Isolation
import ProcessorFuzz.Execution.RtlMemory
import ProcessorFuzz.Execution.RtlHost
import ProcessorFuzz.Execution.DataImage
import ProcessorFuzz.Execution.Supervisor
import ProcessorFuzz.Execution.CovLog
import ProcessorFuzz.Library.Stateful
import ProcessorFuzz.Mutation.InstGenerator
import ProcessorFuzz.Mutation.RvMutator
import ProcessorFuzz.Library.Recency
import ProcessorFuzz.Mutation.DataSeeds
import ProcessorFuzz.Mutation.Operands
import ProcessorFuzz.Mutation.Generation
import ProcessorFuzz.Mutation.CorpusData
import ProcessorFuzz.Mutation.CorpusSharing
import ProcessorFuzz.Mutation.Lockstep
import ProcessorFuzz.Mutation.LockstepRuns
import ProcessorFuzz.Execution.DataLabels
import ProcessorFuzz.Library.Substitution
import ProcessorFuzz.Mutation.DataAccess
import ProcessorFuzz.Mutation.MakeNop
import ProcessorFuzz.Mutation.ResetLabels
import ProcessorFuzz.Mutation.DeleteNop
import ProcessorFuzz.Library.Greedy
import ProcessorFuzz.Mutation.Minimizer
import ProcessorFuzz.Execution.RtlIntr
import ProcessorFuzz.Execution.SupervisorKill
import ProcessorFuzz.Common.TransitionFilter
import ProcessorFuzz.Execution.RtlVerdict
import ProcessorFuzz.Mutation.ReferenceTexts
import ProcessorFuzz.Mutation.TestCase
import ProcessorFuzz.Mutation.WordInvariants
import ProcessorFuzz.Mutation.SampleRanges
import ProcessorFuzz.Library.Lanes
import ProcessorFuzz.TileLink.PutBurst
import ProcessorFuzz.TileLink.ProbeLine
import ProcessorFuzz.TileLink.Flush
import ProcessorFuzz.TileLink.FlushSteps
import ProcessorFuzz.TileLink.FlushRuns
import ProcessorFuzz.Coverage.CorpusManager
import ProcessorFuzz.Coverage.CoverageTracker
import ProcessorFuzz.Template.UserPages
import ProcessorFuzz.TileLink.Atomics
import ProcessorFuzz.Execution.IpcSetup
import ProcessorFuzz.Execution.TileReader
import ProcessorFuzz.Common.TraceAlignment
import ProcessorFuzz.Library.Simultaneous
import ProcessorFuzz.Mutation.Placeholders
import ProcessorFuzz.Common.TraceSoundness
import ProcessorFuzz.Mutation.OriginalMutator
import ProcessorFuzz.Mutation.BackwardJumps
import ProcessorFuzz.Library.Csv
import ProcessorFuzz.Common.SpikeTransitions
import ProcessorFuzz.Execution.Oracle
import ProcessorFuzz.Execution.PreprocessorRuns
import ProcessorFuzz.Mutation.MutatedFiles
import ProcessorFuzz.Fuzzing.FuzzFiles
import ProcessorFuzz.Fuzzing.FuzzLive
import ProcessorFuzz.Fuzzing.FuzzResults
import ProcessorFuzz.Fuzzing.FuzzTransitions
