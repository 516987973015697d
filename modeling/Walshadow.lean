import Walshadow.PipelineDurability
import Walshadow.LogRuns
import Walshadow.ResumeFloor
import Walshadow.FastDrain
import Walshadow.PlanIntegrity
import Walshadow.PendingRecovery
import Walshadow.SegmentWalk
import Walshadow.WalkCheckpoint
import Walshadow.MergeConvergence
import Walshadow.OutboxReopen
import Walshadow.Timeline
import Walshadow.StagedLoad
import Walshadow.BootstrapHandoff
import Walshadow.ShadowStream
import Walshadow.StagedPublish
import Walshadow.DeferredReplay
import Walshadow.MemoryBudget
import Walshadow.BridgePool
import Walshadow.ToastCeiling
