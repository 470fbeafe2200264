import Events.Lib.LockLogic
import Events.Lib.Observe
import Events.Lib.Sequential
import Events.Lib.Linearizable
import Events.Lib.Tiles
import Events.Lib.Knowledge
import Events.Lib.LexOrder
import Events.Lib.Simulation
import Events.Rotation
import Events.PartitionName
import Events.EventStream
import Events.Transactions
import Events.Effects
import Events.Procedures
import Events.Opening
import Events.StreamRules
import Events.VersionSpace
import Events.AtomicLog
import Events.Tiling
import Events.BoundedReads
import Events.TiledRuns
import Events.WorkflowRuns
import Events.CursorReads
import Events.Lib.Readers
import Events.AtomicReads
import Events.Reopening
import Events.ReadBack
import Events.FailedRotation
import Events.DueRotation
import Events.WindowFloor
import Events.ForwardRotations
import Events.SealedFiles
import Events.NameOrder
import Events.CatalogRebuild
import Events.PolicyChanges
import Events.CrashRecovery
import Events.MigrationRuns
import Events.Pool
import Events.PooledConnections
import Events.SharedPool
import Events.SerialPool
import Events.Lib.LockOrder
import Events.PoolProgress
import Events.SharedCache
import Events.Lib.Connections
import Events.OpenTransactions
import Events.Partitions
import Events.Namespaces
import Events.PartitionListing
import Events.Isolation
import Events.ManyHandles
import Events.Notifications
import Events.NotificationTtl
import Events.NotificationStores
import Events.Broadcast
import Events.Lib.Lossy
import Events.FanOut
import Events.WindowNames
import Events.CreationOrder
