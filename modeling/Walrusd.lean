import Walrusd.Program.Basic
import Walrusd.Program.Pool
import Walrusd.Program.Script
import Walrusd.Program.Fence
import Walrusd.Program.Handler
import Walrusd.Program.RefTable
import Walrusd.Program.LinkedMap
import Walrusd.Program.Ledger
import Walrusd.Register
import Walrusd.Path
import Walrusd.Basic
import Walrusd.Error
import Walrusd.Identity
import Walrusd.Lease.Store
import Walrusd.Lease.Redis
import Walrusd.Lease.Manager
import Walrusd.Lease.System
import Walrusd.Lease.Backoff
import Walrusd.Lease.Timed
import Walrusd.Lease.Conduct
import Walrusd.Lease.Chronicle
import Walrusd.Lease.Records
import Walrusd.Lease.Phases
import Walrusd.Lease.Codec
import Walrusd.Lease.Flights
import Walrusd.Lease.Rules
import Walrusd.Lease.Ending
import Walrusd.Lease.Schedule
import Walrusd.Lease.Fencing
import Walrusd.Lease.Exclusion
import Walrusd.Lease.Expiry
import Walrusd.Litestream.FileInfo
import Walrusd.Litestream.Manifest
import Walrusd.Litestream.Codec
import Walrusd.Litestream.Bucket
import Walrusd.Litestream.Memory
import Walrusd.Litestream.ManifestClient
import Walrusd.Litestream.FileCache
import Walrusd.Litestream.LinkedFileCache
import Walrusd.Litestream.TempBudget
import Walrusd.Litestream.CachingClient
import Walrusd.Litestream.Coherence
import Walrusd.Runtime.TXID
import Walrusd.Runtime.Op
import Walrusd.Litestream.Database
import Walrusd.Litestream.Rebuild
import Walrusd.Runtime.Storage
import Walrusd.Runtime.Write
import Walrusd.Runtime.Exclusion
import Walrusd.Runtime.Deadlines
import Walrusd.Runtime.Retry
import Walrusd.Runtime.WithWrite
import Walrusd.Runtime.Durability
import Walrusd.Cache
import Walrusd.LinkedCache
import Walrusd.Observability
import Walrusd.Runtime.Read
import Walrusd.Runtime.Recovery
import Walrusd.Runtime.Compaction
import Walrusd.Runtime.Queue
import Walrusd.Runtime.ReadGauge
import Walrusd.Runtime.Merge
import Walrusd.Runtime.Plan
import Walrusd.Runtime.Track
import Walrusd.Runtime.Cluster
import Walrusd.Runtime.Runs
import Walrusd.Runtime.Manifests
import Walrusd.Runtime.Coverage
import Walrusd.Runtime.Tiling
import Walrusd.Runtime.Duty
import Walrusd.Runtime.Stamps
import Walrusd.Runtime.Freshness
import Walrusd.Runtime.Garbage
import Walrusd.Runtime.Presence
import Walrusd.Runtime.Attempt
import Walrusd.Lifecycle.Registry
import Walrusd.Lifecycle.Keys
import Walrusd.Lifecycle.Api
import Walrusd.Lifecycle.World
import Walrusd.Lifecycle.Custody
import Walrusd.Lifecycle.Usage
import Walrusd.Lifecycle.Ward
import Walrusd.Lifecycle.Tended
import Walrusd.Lifecycle.Unregister
import Walrusd.Lifecycle.Credentials
import Walrusd.Bindings.Columns
import Walrusd.Bindings.Init
import Walrusd.Bindings.Adapter
