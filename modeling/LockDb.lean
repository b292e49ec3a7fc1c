import LockDb.MutualExclusion
import LockDb.Hierarchy
import LockDb.StaleWait
import LockDb.Interleaving
import LockDb.FlatMap
import LockDb.OldestWorker
import LockDb.AtWait
import LockDb.GrantHistory
import LockDb.Rollback
import LockDb.Sharding
import LockDb.OrderIndependence
import LockDb.Schedules
import LockDb.RangeHistory
import LockDb.RangeConflicts
import LockDb.GraphEdits
import LockDb.Construction
import LockDb.Serializability
import LockDb.InterruptedRelease
import LockDb.Detector
import LockDb.KahnReference
import LockDb.Representation
import LockDb.WaitHistory
import LockDb.WaiterGraph
import LockDb.RangeReference
import LockDb.InterruptedDetection
import LockDb.ScheduledDetection
import LockDb.LeftBehind
import LockDb.OwnTransactions
