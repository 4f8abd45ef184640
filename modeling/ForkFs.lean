import ForkFs.Lib.Bytes
import ForkFs.Lib.LogReader
import ForkFs.Lib.Outcome
import ForkFs.Lib.Ranges
import ForkFs.Lib.Sha256
import ForkFs.Lib.StdMap
import ForkFs.Lib.Treap
import ForkFs.Lib.Scan
import ForkFs.Lib.EpochCache
import ForkFs.Lib.Hierarchy
import ForkFs.Lib.Ways
import ForkFs.Basic
import ForkFs.Journal.Record
import ForkFs.Journal.Writer
import ForkFs.Journal.Replay
import ForkFs.Journal.Feeds
import ForkFs.Journal.Transaction
import ForkFs.Journal.Calls
import ForkFs.Journal.Open
import ForkFs.Journal.Recovery
import ForkFs.Journal.Located
import ForkFs.Journal.Restore
import ForkFs.SingleFile.Anchor
import ForkFs.SingleFile.Container
import ForkFs.LevelStore.Objects
import ForkFs.MetadataTree.Node
import ForkFs.MetadataTree.Editor
import ForkFs.MetadataTree.Represents
import ForkFs.MetadataTree.Simulation
import ForkFs.MetadataTree.Edits
import ForkFs.MetadataTree.Reads
import ForkFs.MetadataTree.Listing
import ForkFs.MetadataTree.Publication
import ForkFs.MetadataTree.Session
import ForkFs.MetadataTree.Progress
import ForkFs.MetadataTree.Rejections
import ForkFs.Catalog
import ForkFs.LevelStore.Store
import ForkFs.Namespace.Records
import ForkFs.Namespace.Inode
import ForkFs.NamespaceView.View
import ForkFs.Namespace.Path
import ForkFs.Namespace.Operations
import ForkFs.Rpc.Frame
import ForkFs.Container.Table
import ForkFs.Container.State
import ForkFs.Namespace.Reads
import ForkFs.Container.Worlds
import ForkFs.Container.Handles
import ForkFs.Container.Directories
import ForkFs.Container.Collect
import ForkFs.LevelStore.Caches
import ForkFs.Container.Calls
import ForkFs.Container.Locks
import ForkFs.Container.Effects
import ForkFs.Container.Events
import ForkFs.Container.Reachable
import ForkFs.Container.Advisory
import ForkFs.Container.RangeLocks
import ForkFs.Container.Identities
import ForkFs.Container.Versions
import ForkFs.Container.Views
import ForkFs.Container.Closure
import ForkFs.Container.Revisions
import ForkFs.Container.Retention
import ForkFs.Container.Marking
import ForkFs.Container.Collection
import ForkFs.Container.Integrity
import ForkFs.Container.Unchanged
import ForkFs.Container.Garbage
import ForkFs.Container.Isolation
import ForkFs.Container.Ancestry
import ForkFs.Batch
import ForkFs.Namespace.Filesystem
import ForkFs.Namespace.Resolution
import ForkFs.Namespace.Lookups
import ForkFs.Container.Depiction
import ForkFs.Namespace.Consistency
import ForkFs.Namespace.Outcomes
import ForkFs.Namespace.Entries
import ForkFs.Namespace.Rename
import ForkFs.Container.Orphans
import ForkFs.Container.OpenFiles
import ForkFs.Container.Evolution
import ForkFs.Container.Coherence
import ForkFs.Container.CoherentRuns
import ForkFs.Container.Verify
import ForkFs.Container.Census
import ForkFs.Container.Verified
import ForkFs.Container.Labels
import ForkFs.Container.PinnedVersions
import ForkFs.Container.Streams
import ForkFs.Container.Bookkeeping
import ForkFs.Namespace.Moves
import ForkFs.Container.FileOperations
import ForkFs.Container.Files
import ForkFs.Container.FileHistory
import ForkFs.Container.FileRuns
import ForkFs.Container.OpenUnlink
import ForkFs.Namespace.Growth
import ForkFs.Container.Creation
import ForkFs.Container.FileIo
import ForkFs.Container.Cursors
import ForkFs.Container.Saves
import ForkFs.Container.SharedCursors
import ForkFs.Container.Traversal
import ForkFs.Container.Checks
import ForkFs.Container.InodePaths
import ForkFs.Container.Located
import ForkFs.Journal.Framing
import ForkFs.MetadataTree.Pages
import ForkFs.NamespaceView.RunCodec
import ForkFs.NamespaceView.Image
import ForkFs.NamespaceView.RunViews
import ForkFs.NamespaceView.Layouts
import ForkFs.NamespaceView.Agreement
import ForkFs.Rpc.Client
import ForkFs.Rpc.Replies
