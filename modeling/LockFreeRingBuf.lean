import LockFreeRingBuf.Lib.Counter
import LockFreeRingBuf.Lib.Transition
import LockFreeRingBuf.Lib.Resumption
import LockFreeRingBuf.RingQueue
import LockFreeRingBuf.RingThreads
import LockFreeRingBuf.RingRules
import LockFreeRingBuf.RingSides
import LockFreeRingBuf.RingOps
import LockFreeRingBuf.RingIntegrity
import LockFreeRingBuf.RingVerdicts
import LockFreeRingBuf.RingCalls
import LockFreeRingBuf.RingProgress
import LockFreeRingBuf.Lib.BoundedFifo
import LockFreeRingBuf.RingSequential
import LockFreeRingBuf.RingSpec
import LockFreeRingBuf.RingBulk
import LockFreeRingBuf.RingPeek
import LockFreeRingBuf.RingCounts
import LockFreeRingBuf.RingCaller
import LockFreeRingBuf.RingAlike
import LockFreeRingBuf.Lib.Bytes
import LockFreeRingBuf.SinkBuffer
import LockFreeRingBuf.SinkPool
import LockFreeRingBuf.SinkPoolRules
import LockFreeRingBuf.Pipeline
import LockFreeRingBuf.PipelineSteps
import LockFreeRingBuf.PipelineBuffers
import LockFreeRingBuf.PipelineRings
import LockFreeRingBuf.PipelineDrain
import LockFreeRingBuf.PipelineStores
import LockFreeRingBuf.PipelineBytes
import LockFreeRingBuf.PipelineHandoff
import LockFreeRingBuf.PipelineHeaders
import LockFreeRingBuf.PipelineLoop
import LockFreeRingBuf.PipelineProgress
import LockFreeRingBuf.PipelineLatency
import LockFreeRingBuf.PipelineTermination
import LockFreeRingBuf.PipelinePushes
import LockFreeRingBuf.Shutdown
import LockFreeRingBuf.PipelineTwoRuns
import LockFreeRingBuf.Lib.Linearizable
import LockFreeRingBuf.RingLocal
import LockFreeRingBuf.RingEffects
import LockFreeRingBuf.RingPlaces
import LockFreeRingBuf.RingLinear
import LockFreeRingBuf.Lib.StoreBuffer
import LockFreeRingBuf.RingTso
import LockFreeRingBuf.RingTsoRules
import LockFreeRingBuf.RingTsoSafe
import LockFreeRingBuf.SharedQueue
import LockFreeRingBuf.SharedQueueRules
import LockFreeRingBuf.SharedQueueCalls
import LockFreeRingBuf.SharedQueueLinear
import LockFreeRingBuf.SharedQueueProgress
import LockFreeRingBuf.Active
import LockFreeRingBuf.ActiveRules
import LockFreeRingBuf.ActiveSends
import LockFreeRingBuf.ActiveProgress
