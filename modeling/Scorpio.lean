import Scorpio.Snapshot.IncrementalRefinement
import Scorpio.Tasks.FetchSafety
import Scorpio.Content.CasHistory
import Scorpio.Overlay.UpperScanExact
import Scorpio.Workspace.DestroyRuns
import Scorpio.Workspace.Lifecycle
import Scorpio.Authority.SharedDirectories
import Scorpio.Snapshot.SelectiveMembership
import Scorpio.Transport.MetadataMembers
import Scorpio.Retention.Journal
import Scorpio.Retention.CancelledHydration
import Scorpio.Tasks.FencedFilesystem
import Scorpio.Workspace.Shutdown
import Scorpio.Retention.Collection
import Scorpio.Content.ContentBudget
import Scorpio.Content.IndexBudget
import Scorpio.Content.OwnedRangeReads
import Scorpio.Tasks.CasWorkerHistory
import Scorpio.Tasks.LeaseHistory
import Scorpio.Transport.StrictBase64
import Scorpio.Snapshot.WireScalars
import Scorpio.Transport.ChunkOrder
import Scorpio.Snapshot.FuseDirectory
import Scorpio.Workspace.CacheRotation
