import OsAssignments.Library.ByteMemory
import OsAssignments.Library.BitmapScan
import OsAssignments.Library.Ownership
import OsAssignments.Library.WriteBack
import OsAssignments.Objstore.Layout
import OsAssignments.Objstore.Blocks
import OsAssignments.Objstore.Store
import OsAssignments.Objstore.Destroy
import OsAssignments.Objstore.BlockCalls
import OsAssignments.Objstore.Data
import OsAssignments.Objstore.Pointers
import OsAssignments.Objstore.Writes
import OsAssignments.Objstore.Reads
import OsAssignments.Objstore.Slots
import OsAssignments.Objstore.Mount
import OsAssignments.Objstore.Release
import OsAssignments.Objstore.Appends
import OsAssignments.Library.Runs
import OsAssignments.Objstore.Sessions
import OsAssignments.Objstore.Sharing
import OsAssignments.Objstore.Remount
import OsAssignments.Objstore.Builds
import OsAssignments.Scheduler.Context
import OsAssignments.Scheduler.Schedule
import OsAssignments.Scheduler.Turns
import OsAssignments.Scheduler.Rounds
import OsAssignments.Library.Countdown
import OsAssignments.Scheduler.Shutdown
import OsAssignments.Scheduler.Ticks
import OsAssignments.Scheduler.Resumption
import OsAssignments.Library.PageTables
import OsAssignments.Library.FrameLog
import OsAssignments.Paging.Machine
import OsAssignments.Paging.ContextMm
import OsAssignments.Paging.Prepare
import OsAssignments.Paging.Cleanup
import OsAssignments.Library.Threads
import OsAssignments.Objstore.Halves
import OsAssignments.Objstore.Serialising
import OsAssignments.Objstore.Stat
import OsAssignments.Objstore.WriteSteps
import OsAssignments.Objstore.Writers
import OsAssignments.Objstore.LostUpdate
import OsAssignments.Objstore.Journals
import OsAssignments.Objstore.Leaks
import OsAssignments.Objstore.Disclosure
import OsAssignments.Scheduler.Alarms
import OsAssignments.Scheduler.Clones
import OsAssignments.Scheduler.Sleepers
import OsAssignments.Paging.AddressSpace
import OsAssignments.Objstore.Rename
import OsAssignments.Objstore.Names
import OsAssignments.Objstore.Failures
import OsAssignments.Paging.Shrink
import OsAssignments.Paging.Allocation
import OsAssignments.Paging.Accounting
import OsAssignments.Objstore.LastWrites
import OsAssignments.Objstore.Metadata
import OsAssignments.Objstore.SideBySide
import OsAssignments.Objstore.Bounds
import OsAssignments.Objstore.FirstFit
import OsAssignments.Library.PagePermissions
import OsAssignments.Objstore.Sizes
import OsAssignments.Paging.WriteCalls
import OsAssignments.Paging.Permissions
import OsAssignments.Paging.Faults
import OsAssignments.Example.Store
import OsAssignments.Library.Directory
import OsAssignments.Library.Traces
import OsAssignments.Example.Table
import OsAssignments.Example.Contents
import OsAssignments.Example.Transfers
import OsAssignments.Example.Calls
import OsAssignments.Example.Files
import OsAssignments.Example.LongNames
import OsAssignments.Objfs.Calls
import OsAssignments.Objfs.Files
import OsAssignments.Objfs.Runs
import OsAssignments.Objfs.ReadOnly
import OsAssignments.Objfs.Agreement
import OsAssignments.Library.VirtualMemory
import OsAssignments.Paging.Processor
import OsAssignments.Paging.Accesses
import OsAssignments.Paging.UserMemory
import OsAssignments.Paging.UserRuns
import OsAssignments.Library.Rotation
import OsAssignments.Scheduler.Shares
import OsAssignments.Paging.Surroundings
import OsAssignments.Paging.Contexts
