import LazyMount.AbsentNames
import LazyMount.Anchored
import LazyMount.Announced
import LazyMount.AttributeScan
import LazyMount.Bytes
import LazyMount.Carried
import LazyMount.CommitHooks
import LazyMount.CopyUp
import LazyMount.DirectoryPages
import LazyMount.DiskMemory
import LazyMount.Error
import LazyMount.FaultyCalls
import LazyMount.FetchLog
import LazyMount.FileModel
import LazyMount.FileRefinement
import LazyMount.FileSimulation
import LazyMount.FreshDirectory
import LazyMount.FsmonitorSeed
import LazyMount.GitView
import LazyMount.Gitfile
import LazyMount.HandlerRace
import LazyMount.HandlerSpecs
import LazyMount.HandlerSteps
import LazyMount.Handlers
import LazyMount.HookRace
import LazyMount.IndexTrust
import LazyMount.InodeMaps
import LazyMount.InodeTable
import LazyMount.Journal
import LazyMount.JournalCrash
import LazyMount.JournalHistory
import LazyMount.KernelCalls
import LazyMount.KernelRefs
import LazyMount.Layering
import LazyMount.Lib.Annotated
import LazyMount.Lib.ChangeFeed
import LazyMount.Lib.CutShort
import LazyMount.Lib.Decimal
import LazyMount.Lib.Delimited
import LazyMount.Lib.Faulty
import LazyMount.Lib.Ghost
import LazyMount.Lib.Halting
import LazyMount.Lib.Interleave
import LazyMount.Lib.Items
import LazyMount.Lib.KeySort
import LazyMount.Lib.KeyedLock
import LazyMount.Lib.Labels
import LazyMount.Lib.PagedRead
import LazyMount.Lib.Percent
import LazyMount.Lib.Pieces
import LazyMount.Lib.Pipe
import LazyMount.Lib.Prog
import LazyMount.Lib.Ranked
import LazyMount.Lib.RecordLog
import LazyMount.Lib.Rekey
import LazyMount.Lib.SlidingWindow
import LazyMount.Lib.Streaming
import LazyMount.Lib.Tally
import LazyMount.Lib.Tokens
import LazyMount.Lib.Trace
import LazyMount.Lib.Utf8
import LazyMount.Lib.Watched
import LazyMount.LinkedPaths
import LazyMount.Listing
import LazyMount.ListingLookup
import LazyMount.Masking
import LazyMount.Mount
import LazyMount.MovedDirectory
import LazyMount.MovedInodes
import LazyMount.MovedSubtree
import LazyMount.MutatorRace
import LazyMount.MutatorSteps
import LazyMount.OntoDirectory
import LazyMount.OpenFiles
import LazyMount.Overlay
import LazyMount.OverlayContent
import LazyMount.OverlayCrash
import LazyMount.OverlayFaults
import LazyMount.OverlayInvariant
import LazyMount.OverlayLeaks
import LazyMount.OverlayRecovery
import LazyMount.OverlayReopen
import LazyMount.OverlaySessions
import LazyMount.PathEscape
import LazyMount.Projection
import LazyMount.PruneFaults
import LazyMount.RaceOutcome
import LazyMount.RecordFirst
import LazyMount.Recording
import LazyMount.RemovedDirectory
import LazyMount.RenameFaults
import LazyMount.RenameVisits
import LazyMount.RenameWalk
import LazyMount.RepoPath
import LazyMount.Restart
import LazyMount.ResultCache
import LazyMount.SearchPattern
import LazyMount.Sgrep
import LazyMount.SgrepOverlay
import LazyMount.SgrepReport
import LazyMount.SingleFlight
import LazyMount.SizeCache
import LazyMount.SourcegraphStream
import LazyMount.Speculation
import LazyMount.Structural
import LazyMount.TableSteps
import LazyMount.TornAppend
import LazyMount.TreeGrammar
import LazyMount.TreeObject
import LazyMount.TreeOrder
import LazyMount.TreeReader
import LazyMount.Uncovered
import LazyMount.Visible
import LazyMount.WireReply
import LazyMount.WorkerPool
import LazyMount.WorkingTree
