import GitWarp.LibraryJsMap
import GitWarp.LibraryJsText
import GitWarp.LibraryJsObject
import GitWarp.CrdtDot
import GitWarp.CrdtVersionVector
import GitWarp.CrdtEventId
import GitWarp.LibraryAddWins
import GitWarp.CrdtORSet
import GitWarp.LibraryExceptLoops
import GitWarp.LibraryLists
import GitWarp.CodecKey
import GitWarp.RefLayout
import GitWarp.AuditMessage
import GitWarp.AuditReceipt
import GitWarp.AuditVerifier
import GitWarp.AuditVerified
import GitWarp.AuditWalk
import GitWarp.ReducerState
import GitWarp.ReducerView
import GitWarp.ReducerConvergence
import GitWarp.CheckpointSerializer
import GitWarp.ReducerContents
import GitWarp.CheckpointIncremental
import GitWarp.GcPolicy
import GitWarp.GraphStore
import GitWarp.GraphInstance
import GitWarp.LibraryRuns
import GitWarp.GraphWorld
import GitWarp.CommitSteps
import GitWarp.CommitSafety
import GitWarp.CommitDots
import GitWarp.SyncProtocol
import GitWarp.GcInvisibility
import GitWarp.LibraryFlips
import GitWarp.ReducerDiff
import GitWarp.ReducerDiffAlive
import GitWarp.ReducerDiffLogs
import GitWarp.ReducerDiffProps
import GitWarp.ReducerNetDiff
import GitWarp.GraphReplay
import GitWarp.GraphCoherence
import GitWarp.GraphCheckpoints
import GitWarp.CoherenceRuns
import GitWarp.CommitTicks
import GitWarp.SyncExchange
import GitWarp.SyncReplicas
import GitWarp.BuilderReplay
import GitWarp.SyncCheckpoints
import GitWarp.TemporalQuery
import GitWarp.TemporalCheckpoints
import GitWarp.StateSerializer
import GitWarp.SyncJson
import GitWarp.SyncJsonResponses
import GitWarp.SyncApplied
import GitWarp.SyncHttp
import GitWarp.LibraryLruCache
import GitWarp.SyncAuth
import GitWarp.SyncAuthRuns
import GitWarp.HttpSyncServer
import GitWarp.HttpSyncGate
import GitWarp.HttpSyncBinding
import GitWarp.LibrarySortedFields
import GitWarp.CanonicalStringify
import GitWarp.TrustRecords
import GitWarp.TrustReading
import GitWarp.TrustState
import GitWarp.TrustSignatures
import GitWarp.CborCodec
import GitWarp.TrustChain
import GitWarp.TrustAppends
import GitWarp.TrustChainKept
import GitWarp.TrustConvergence
import GitWarp.LibraryRefChain
import GitWarp.ReducerAgreement
import GitWarp.ReducerOutcomes
import GitWarp.ReachableStates
import GitWarp.StateDiff
import GitWarp.ObserverView
import GitWarp.WarpServe
import GitWarp.BoundaryRecord
import GitWarp.BoundaryReplay
import GitWarp.BoundaryTampering
import GitWarp.BytesBase64
import GitWarp.EdgeProjections
import GitWarp.Subscriptions
import GitWarp.ServeClients
import GitWarp.LibraryTopoOrder
import GitWarp.GraphTraversal
import GitWarp.TraversalTopology
import GitWarp.TraversalCycles
import GitWarp.LibraryWalks
import GitWarp.TraversalLongest
import GitWarp.LibraryLayers
import GitWarp.QueryHops
import GitWarp.Wormholes
import GitWarp.EagerApply
import GitWarp.CascadeDelete
import GitWarp.LibraryWorklist
import GitWarp.ProvenanceSlice
import GitWarp.LogicalIndex
import GitWarp.LogicalShards
import GitWarp.NeighborQueries
import GitWarp.BitmapIndex
import GitWarp.IndexReading
import GitWarp.WriterMaps
import GitWarp.StateDelta
import GitWarp.CborOrder
import GitWarp.TraversalSearch
import GitWarp.TraversalPaths
import GitWarp.LibraryDepthFirst
import GitWarp.TraversalDepth
import GitWarp.LibraryReachability
import GitWarp.TraversalReduction
import GitWarp.TraversalClosure
import GitWarp.LibraryMemo
import GitWarp.NeighborProviders
import GitWarp.LibraryFailures
import GitWarp.TrustAssessment
import GitWarp.ReadFailures
import GitWarp.DagPathFinding
import GitWarp.DagShortestPath
import GitWarp.NeighborCache
import GitWarp.ByteCodecs
import GitWarp.GlobPatterns
import GitWarp.BisectService
import GitWarp.RefNamespaces
import GitWarp.DagTopology
import GitWarp.CheckpointProjection
import GitWarp.TranslationCost
import GitWarp.GitLogParser
import GitWarp.CanonicalForm
import GitWarp.GraphForks
import GitWarp.GraphFrames
import GitWarp.ForkRuns
import GitWarp.PriorityQueue
import GitWarp.KeyAmbiguity
import GitWarp.ContentAnchors
import GitWarp.StableIds
import GitWarp.SeekCacheOrder
import GitWarp.SeekReplay
