import Tdnf.Library.Relational
import Tdnf.Library.OrderedDiff
import Tdnf.Library.Journal
import Tdnf.Library.Timeline
import Tdnf.Library.Coupling
import Tdnf.Library.VersionLog
import Tdnf.Library.Procedure
import Tdnf.Library.Transition
import Tdnf.Library.LastWrite
import Tdnf.Library.PathText
import Tdnf.Library.FileTree
import Tdnf.Library.Overrides
import Tdnf.Library.Chain
import Tdnf.Library.Lockstep
import Tdnf.Library.Script
import Tdnf.Library.Trace
import Tdnf.Library.Evolution
import Tdnf.Library.Logging
import Tdnf.Library.FileStore
import Tdnf.Library.Comparison
import Tdnf.History.Store
import Tdnf.History.Dictionary
import Tdnf.History.Play
import Tdnf.History.Context
import Tdnf.History.Recording
import Tdnf.History.Atomicity
import Tdnf.History.Flags
import Tdnf.History.Chronicle
import Tdnf.History.Calls
import Tdnf.History.World
import Tdnf.History.Deltas
import Tdnf.History.FlagEffects
import Tdnf.History.Repeats
import Tdnf.Json.Documents
import Tdnf.Json.Escaping
import Tdnf.Common.Error
import Tdnf.Common.Lock
import Tdnf.Common.Checksum
import Tdnf.Common.Path
import Tdnf.Common.Normalize
import Tdnf.Common.Strings
import Tdnf.Metalink.HashGate
import Tdnf.Metalink.Pieces
import Tdnf.Solv.Solver
import Tdnf.Solv.Sack
import Tdnf.Solv.Nevra
import Tdnf.Solv.Query
import Tdnf.Solv.SimpleQuery
import Tdnf.Cli.FormatString
import Tdnf.Cli.FormatExpansion
import Tdnf.Cli.QueryScan
import Tdnf.Cli.RepoqueryArgs
import Tdnf.Client.Goal
import Tdnf.Client.InstallOnly
import Tdnf.Client.HistoryCommand
import Tdnf.Client.FlagAttribution
import Tdnf.Client.Commands
import Tdnf.Client.FlagLedger
import Tdnf.Client.FlagsOverTime
import Tdnf.Client.Download
import Tdnf.Client.DownloadEffects
import Tdnf.Client.Containment
import Tdnf.Client.KeyContainment
import Tdnf.Client.HistoryResolve
import Tdnf.Client.HistoryJobs
import Tdnf.Client.Repo
import Tdnf.Client.RepoState
import Tdnf.Client.RepoList
import Tdnf.Client.MetadataExpire
import Tdnf.Client.UpdateInfo
import Tdnf.Client.RepoQuery
import Tdnf.Client.Resolve
import Tdnf.Client.Autoremove
import Tdnf.Client.Downgrade
import Tdnf.Client.BatchResolve
import Tdnf.Client.DowngradeTarget
import Tdnf.Client.GpgCheck
import Tdnf.Client.RepoCache
import Tdnf.Client.RepoEffects
import Tdnf.Client.CacheOnly
import Tdnf.Client.SolvCache
import Tdnf.Client.RefreshInvalidation
import Tdnf.Client.Clean
import Tdnf.Client.DownloadAtomicity
import Tdnf.Client.ConfigVars
import Tdnf.Client.FilterNewest
import Tdnf.Common.SetOpt
import Tdnf.Client.Considered
import Tdnf.Metalink.Preference
import Tdnf.Cli.ActionSizes
import Tdnf.Client.CacheSpace
import Tdnf.Solv.Problems
import Tdnf.Client.Search
import Tdnf.Client.ConfFiles
import Tdnf.Client.KeyImport
import Tdnf.Client.RepoSyncMarkers
import Tdnf.Client.RpmTransGate
import Tdnf.Client.Plugins
import Tdnf.Llconf.EditRoundTrip
import Tdnf.Llconf.TreeRoundTrip
import Tdnf.Llconf.SettingStore
import Tdnf.History.FlagOrder
import Tdnf.Common.HexDigest
import Tdnf.Common.StringArrays
import Tdnf.Solv.RpmDir
