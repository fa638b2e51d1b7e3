import HybridTM.Hybrid.Worker
import HybridTM.Launch
import HybridTM.Metrics.Format
import HybridTM.Proofs.Announcements
import HybridTM.Proofs.BackoffWindow
import HybridTM.Proofs.BucketCounts
import HybridTM.Proofs.ClockInvariant
import HybridTM.Proofs.Commutation
import HybridTM.Proofs.ConfigText
import HybridTM.Proofs.ExcusedAborts
import HybridTM.Proofs.FaultSchedule
import HybridTM.Proofs.FlushedCounts
import HybridTM.Proofs.Footprint
import HybridTM.Proofs.HardwareCommit
import HybridTM.Proofs.HourglassBarrier
import HybridTM.Proofs.Invisibility
import HybridTM.Proofs.Isolation
import HybridTM.Proofs.ModeCoding
import HybridTM.Proofs.ModeGauge
import HybridTM.Proofs.Opacity
import HybridTM.Proofs.PathEquivalence
import HybridTM.Proofs.Serializability
import HybridTM.Proofs.SnapshotText
import HybridTM.Proofs.SoftwareEpochs
import HybridTM.Proofs.SoftwareWindows
import HybridTM.Proofs.Switches
import HybridTM.Scenario.Hardware
import HybridTM.Scenario.Runtime
