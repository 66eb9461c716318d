import Kache.Archive.Identity
import Kache.BuildScript.NamedPaths
import Kache.Cc.Expansion
import Kache.Cc.LinkCoverage
import Kache.Daemon.Downloads
import Kache.Events.Rotation
import Kache.Events.Stats
import Kache.Eviction.Retained
import Kache.Fs.Extents
import Kache.Jobserver
import Kache.Memo.FileHash
import Kache.Memo.Whole
import Kache.MissChain.Shortest
import Kache.OutDirAlias
import Kache.PePdb.Reassembly
import Kache.PePdb.Rva
import Kache.Remote.CatalogNewest
import Kache.Remote.ExtractionFailure
import Kache.Remote.NegativeListing
import Kache.Remote.PredictionShare
import Kache.Remote.Selector
import Kache.Remote.Singleflight
import Kache.Rustdoc.Scan
import Kache.Scheduler.Progress
import Kache.Scheduler.Snapshot
import Kache.Store.ContentHash
import Kache.Store.Interrupted
import Kache.Store.Linearization
import Kache.Store.RebuildRace
import Kache.Store.ReconcileFailure
import Kache.Store.RestoreRace
import Kache.Store.Serving
import Kache.StoreLock
import Kache.TargetDedup.Rejected
import Kache.TargetDedup.Replaced
import Kache.Verify.PathOnly
