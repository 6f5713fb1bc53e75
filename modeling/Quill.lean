import Quill.Base.Hash
import Quill.Base.Program
import Quill.Files.Tree
import Quill.Storage.GcExact
import Quill.Registry.Handlers
import Quill.Storage.Effects
import Quill.Storage.Operations
import Quill.Registry.Integrity
import Quill.Registry.Changes
import Quill.Registry.Coherence
import Quill.Registry.LocalTagsWin
import Quill.Server.Startup
import Quill.Registry.Completeness
import Quill.Storage.UploadSteps
import Quill.Files.Disk
import Quill.PullThrough.Wakeups
import Quill.PullThrough.Isolation
import Quill.Registry.SelfConsistency
import Quill.Registry.Aborts
import Quill.Server.Staleness
import Quill.Registry.ManifestSteps
import Quill.Registry.CacheSteps
import Quill.Base.Confinement
import Quill.Files.Area
import Quill.Files.Ways
import Quill.Registry.Footprint
import Quill.Registry.Containment
import Quill.Registry.Separation
import Quill.Auth.Htpasswd
import Quill.Registry.LocalTagsSteps
import Quill.Server.TagCacheSteps
import Quill.PullThrough.Producer
import Quill.Storage.Sequences
import Quill.Storage.TornAppends
import Quill.Registry.ContentTypes
import Quill.Registry.TagListing
import Quill.Registry.HeadGet
import Quill.Registry.RepoWalks
import Quill.Base.FirstMatch
import Quill.Upstream.Router
import Quill.Upstream.Challenge
import Quill.Upstream.BearerCache
import Quill.Registry.Grammar
import Quill.Registry.TagFaults
import Quill.Storage.Retries
import Quill.Storage.GcAccounting
import Quill.Storage.TempNames
import Quill.Registry.TagResolution
import Quill.Registry.ManifestPuts
import Quill.Storage.GcTermination
import Quill.PullThrough.Frames
import Quill.PullThrough.Reports
import Quill.Registry.Revalidation
import Quill.Storage.GcInterrupted
import Quill.Server.Restarts
import Quill.Server.Crashes
import Quill.Server.Front
import Quill.Server.Lifetime
import Quill.Upstream.Requests
