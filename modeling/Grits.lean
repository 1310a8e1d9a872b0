import Grits.Library.Prog
import Grits.Library.SlashPath
import Grits.Library.FinmapSum
import Grits.Library.RefCount
import Grits.Library.PathTree
import Grits.Library.FirstByKey
import Grits.Library.Runs
import Grits.NameStore.Encoding
import Grits.NameStore.DirectoryTree
import Grits.NameStore.State
import Grits.NameStore.TableEncoding
import Grits.NameStore.Resolve
import Grits.NameStore.RefManager
import Grits.NameStore.MultiLink
import Grits.NameStore.Sound
import Grits.NameStore.StateSpec
import Grits.NameStore.Available
import Grits.NameStore.ResolveSpec
import Grits.NameStore.HeldTree
import Grits.NameStore.LinkSpec
import Grits.NameStore.RefInvariant
import Grits.NameStore.TakeSpec
import Grits.NameStore.ReleaseSpec
import Grits.NameStore.Invariant
import Grits.NameStore.Reachable
import Grits.NameStore.Volume
import Grits.NameStore.JsonDirectories
import Grits.NameStore.Guarantees
import Grits.NameStore.Composition
import Grits.NameStore.Progress
import Grits.NameStore.Assertions
import Grits.NameStore.Attributes
import Grits.NameStore.LiveRoot
import Grits.NameStore.Labels
import Grits.NameStore.Mute
import Grits.NameStore.Watchers
import Grits.NameStore.Batch
import Grits.Auth.Permission
import Grits.Auth.AccessConfig
import Grits.Auth.Policy
import Grits.Auth.Enforcement
import Grits.Auth.ReadOnly
import Grits.Auth.Levels
import Grits.Auth.Laws
import Grits.Auth.Links
import Grits.Auth.Protection
import Grits.Auth.Lookups
import Grits.Auth.Discreet
import Grits.LocalVolume.Load
import Grits.LocalVolume.Persistence
import Grits.LocalVolume.Checkpoint
import Grits.LocalVolume.CrashConsistency
import Grits.LocalVolume.StableChildren
import Grits.Library.Metering
import Grits.RateLimit.CheckLimit
import Grits.RateLimit.Windows
import Grits.BlobStore.Disk
import Grits.BlobStore.Store
import Grits.BlobStore.Safety
import Grits.Serving.NamespaceGet
import Grits.Upload.Handler
import Grits.Upload.References
import Grits.Upload.Balance
import Grits.Upload.Durability
import Grits.Users.UsersFile
import Grits.Users.LostUpdates
import Grits.NameStore.NodeCleanup
import Grits.NameStore.CleanupRuns
import Grits.Client.SlowLookup
import Grits.Client.Piggyback
import Grits.Library.Register
import Grits.Client.ShellTools
import Grits.Client.LostEdits
import Grits.Library.Resupply
import Grits.NameStore.Lacking
import Grits.Client.LinkUpload
import Grits.Client.UploadLoop
import Grits.Library.Unicode
import Grits.Client.Diff
import Grits.BlobCache.Deadlock
import Grits.Library.Base64
import Grits.Library.Decimal
import Grits.Auth.Session
import Grits.Mount.Paths
import Grits.Mount.Inodes
import Grits.Mount.Invalidation
import Grits.Mount.Readdir
import Grits.Client.LinkAttempt
import Grits.Client.Mkdir
import Grits.Client.MkdirRuns
import Grits.Library.Json
import Grits.Library.JsonText
import Grits.NameStore.JsonFormat
import Grits.Library.DepthFirst
import Grits.Server.Modules
import Grits.Server.Lifecycle
import Grits.Upload.LimitedReader
import Grits.Server.ReferenceHolder
import Grits.RateLimit.SavedConfig
import Grits.NameStore.LoadFailures
import Grits.BlobCache.Accounting
import Grits.Library.UrlHost
import Grits.Server.Mirrors
import Grits.BlobStore.Rescan
import Grits.Server.SiteCreation
import Grits.Library.Radix
import Grits.Client.Base58
import Grits.Library.Topmost
import Grits.Client.MiniRoots
import Grits.Client.MirrorManager
import Grits.Library.Runes
import Grits.Library.WebUrl
import Grits.Server.Interstitial
import Grits.Library.ScriptData
import Grits.Library.JsLiteral
import Grits.Server.InterstitialScript
import Grits.Library.Backtrack
import Grits.Library.GoDuration
import Grits.Client.ParseDuration
import Grits.Library.CaseMapping
import Grits.Library.ResolvedPath
import Grits.Server.Tracker
import Grits.Server.TrackerRegistry
import Grits.Server.TrackerDns
import Grits.Server.Heartbeat
import Grits.NameStore.References
import Grits.Server.LocalTree
import Grits.Server.ImportLocalDir
import Grits.Server.ImportFaithful
import Grits.Server.ImportAtomic
import Grits.Library.PosixFile
import Grits.Mount.OpenFile
import Grits.Mount.VolumeCalls
import Grits.Library.Simulation
import Grits.Mount.FileModel
import Grits.Mount.FileRefinement
import Grits.Mount.AcknowledgedWrites
