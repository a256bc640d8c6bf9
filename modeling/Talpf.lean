import Talpf.Library.Transition
import Talpf.MemoryRegister.Runs
import Talpf.MemoryTable.Agreement
import Talpf.MemoryTable.RetriedSyncs
import Talpf.MessageQueue.SubsetResizes
import Talpf.MessageQueue.SlotTables
import Talpf.Interface.PendingExit
import Talpf.Interface.Creation
import Talpf.Process.SymbolTables
import Talpf.Process.Serving
import Talpf.MessageSort.Conflicts
import Talpf.IBVerbs.Reconnection
import Talpf.Communication.Broadcast
import Talpf.Core.FailureState
import Talpf.Interface.Throwing
import Talpf.DynamicHook.Outcomes
import Talpf.AllToAll.Scattered
import Talpf.PointToPoint.Transfers
import Talpf.SparseSet.Iteration
import Talpf.SparseSet.IntShrink
import Talpf.Messages.RoundTrips
import Talpf.MessageSort.Priority
import Talpf.MessageSort.Clear
import Talpf.MessageSort.ShortWrites
import Talpf.IBVerbs.Keys
import Talpf.IBVerbs.Counters
import Talpf.IBVerbs.SyncRequests
import Talpf.IBVerbs.RequestRuns
import Talpf.IBVerbs.Posting
import Talpf.IBVerbs.DeviceRegistrations
import Talpf.MemoryRegister.Reservations
import Talpf.MachineParams
import Talpf.MachineParams.Memory
import Talpf.DynamicHook.GivingUp
import Talpf.Rng.Leapfrog
import Talpf.Time.Scaling
import Talpf.Time.Printing
import Talpf.Messages.Malformed
import Talpf.PointToPoint.Reservations
import Talpf.Initializer.CopyBack
import Talpf.IBVerbs.Expectations
import Talpf.IBVerbs.DefaultSync
import Talpf.IBVerbs.Neighbours
import Talpf.IBVerbs.Replacement
import Talpf.IBVerbs.Waiting
import Talpf.Programs
import Talpf.IBVerbs.CachedPrograms
import Talpf.Jacobi.Image
