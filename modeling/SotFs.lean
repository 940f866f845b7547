import SotFs.Foundation.SetIndex
import SotFs.Foundation.GraphSearch
import SotFs.Foundation.RootedTree
import SotFs.Core.Arena
import SotFs.Core.Types
import SotFs.Core.Graph
import SotFs.Core.Ops
import SotFs.Core.Checks
import SotFs.Core.Runs
import SotFs.Proofs.Shape
import SotFs.Foundation.TableIndex
import SotFs.Proofs.Invariant
import SotFs.Proofs.QuotaWalks
import SotFs.Proofs.EntryEdits
import SotFs.Proofs.RemovalEdits
import SotFs.Proofs.MoveEdits
import SotFs.Proofs.SideEdits
import SotFs.Proofs.OpCases
import SotFs.Proofs.OpSpecs
import SotFs.Proofs.Edits
import SotFs.Proofs.EditFrames
import SotFs.Proofs.Preservation
import SotFs.Proofs.BlockEdges
import SotFs.Proofs.ErrorFrame
import SotFs.Proofs.DirectoryTree
import SotFs.Proofs.NameIndex
import SotFs.Proofs.LinkCounts
import SotFs.Proofs.Dangling
import SotFs.Spec.Namespace
import SotFs.Proofs.NamespaceRefinement
import SotFs.Proofs.EntryLabels
import SotFs.Proofs.EntryNames
import SotFs.Proofs.Holdings
import SotFs.Proofs.InodePool
import SotFs.Proofs.Authority
import SotFs.Core.Fsck
import SotFs.Proofs.Leftovers
import SotFs.Proofs.Verifiers
import SotFs.Core.Transaction
import SotFs.Proofs.Transactions
import SotFs.Proofs.Likeness
import SotFs.Core.Queries
import SotFs.Proofs.Agreement
import SotFs.Core.Storage
import SotFs.Proofs.Reload
import SotFs.Proofs.IssuedIds
import SotFs.Proofs.Freshness
import SotFs.Foundation.Utf8
import SotFs.Core.Fuse
import SotFs.Core.Sidecar
import SotFs.Proofs.Durability
import SotFs.Proofs.Filing
import SotFs.Proofs.FiledRuns
import SotFs.Proofs.GrantEdges
import SotFs.Proofs.AuditTrail
import SotFs.Proofs.Subtrees
import SotFs.Proofs.QuotaCharges
import SotFs.Proofs.QuotaRuns
import SotFs.Foundation.Buffers
import SotFs.Foundation.KeyedRecords
import SotFs.Proofs.Contents
import SotFs.Proofs.ByteQuotas
import SotFs.Foundation.Worklist
import SotFs.Core.Deception
import SotFs.Proofs.Projections
import SotFs.Proofs.Renames
import SotFs.Proofs.AuditFlush
import SotFs.Foundation.Lines
import SotFs.Core.Tail
import SotFs.Proofs.TailFollow
import SotFs.Proofs.EntryOrder
import SotFs.Foundation.Resume
import SotFs.Foundation.TreeDecomposition
import SotFs.Foundation.EliminationOrder
import SotFs.Core.Treewidth
import SotFs.Core.DynamicTreewidth
import SotFs.Proofs.Elimination
import SotFs.Proofs.Skeleton
import SotFs.Proofs.Treewidths
import SotFs.Core.Readdir
import SotFs.Proofs.DirectoryReads
import SotFs.Foundation.Descent
import SotFs.Core.Descents
import SotFs.Proofs.CycleSearch
import SotFs.Core.Paths
import SotFs.Proofs.Paths
import SotFs.Proofs.Attributes
import SotFs.Proofs.Acls
import SotFs.Proofs.WidthOrders
import SotFs.Proofs.Redirects
import SotFs.Proofs.TrackerWork
import SotFs.Proofs.TrackerLoads
import SotFs.Core.Provenance
import SotFs.Core.Export
import SotFs.Core.Dot
import SotFs.Proofs.Bursts
import SotFs.Proofs.Slots
import SotFs.Proofs.SetattrErrors
import SotFs.Foundation.StableSort
import SotFs.Foundation.QuotedText
import SotFs.Foundation.StringLiteral
import SotFs.Proofs.InodeFilter
import SotFs.Proofs.Labels
import SotFs.Proofs.XattrNames
import SotFs.Proofs.BlockMap
import SotFs.Proofs.Replacements
import SotFs.Proofs.DeadDirs
import SotFs.Foundation.Climb
import SotFs.Proofs.IndexScans
import SotFs.Proofs.ColdIndex
import SotFs.Proofs.Replay
import SotFs.Core.SlotArrays
import SotFs.Foundation.Copies
import SotFs.Proofs.ArenaMap
import SotFs.Core.Rcu
import SotFs.Proofs.GracePeriod
import SotFs.Proofs.Room
import SotFs.Spec.EditedGraph
import SotFs.Proofs.TrackerEdits
import SotFs.Proofs.TrackerUpdates
import SotFs.Proofs.TrackerBounds
import SotFs.Proofs.TrackerFresh
import SotFs.Foundation.EdgeTable
import SotFs.Foundation.RunningMoments
import SotFs.Core.Curvature
import SotFs.Proofs.CurvatureUpdates
import SotFs.Core.FuseReads
import SotFs.Spec.FileTree
import SotFs.Spec.FileService
import SotFs.Proofs.TreeViews
import SotFs.Proofs.TreeCalls
import SotFs.Proofs.TreeReads
import SotFs.Proofs.TreeRefinement
import SotFs.Foundation.Simulation
import SotFs.Proofs.MountRuns
import SotFs.Spec.DurableService
import SotFs.Proofs.StoredRuns
import SotFs.Foundation.Levels
import SotFs.Core.Stats
import SotFs.Proofs.Stats
import SotFs.Foundation.Json
import SotFs.Core.D3
import SotFs.Spec.ExportDocuments
import SotFs.Proofs.ExportTexts
