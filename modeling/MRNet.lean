import MRNet.AcceptedAssignments
import MRNet.Acknowledgements
import MRNet.AdmittedRuns
import MRNet.Adoption
import MRNet.AdoptionScores
import MRNet.AggregatedData
import MRNet.AnonymousReceive
import MRNet.ArgumentVectors
import MRNet.ArrayConcat
import MRNet.Ascendants
import MRNet.AssignedFilters
import MRNet.Averages
import MRNet.BalancedShape
import MRNet.BalancedSpec
import MRNet.BalancedTree
import MRNet.Buffers
import MRNet.CallbackRuns
import MRNet.Codec
import MRNet.CollectedData
import MRNet.ControlProtocols
import MRNet.DecreasingRuns
import MRNet.Delivery
import MRNet.DepthFirst
import MRNet.Dispatch
import MRNet.DownstreamDelivery
import MRNet.DownstreamResults
import MRNet.DownstreamRuns
import MRNet.DownstreamStreams
import MRNet.EquivalenceClasses
import MRNet.EventMgr
import MRNet.EventPipe
import MRNet.FifoTree
import MRNet.FilterAssignments
import MRNet.FilterIds
import MRNet.FilterLoad
import MRNet.FilterReports
import MRNet.FlushTimes
import MRNet.Forest
import MRNet.Formats
import MRNet.Forwarding
import MRNet.GeneratedFiles
import MRNet.GenericRuns
import MRNet.GenericShape
import MRNet.GenericSpec
import MRNet.GenericTree
import MRNet.GraphBuffers
import MRNet.GraphLayout
import MRNet.GraphText
import MRNet.Grouping
import MRNet.GrownTrees
import MRNet.HeaderCache
import MRNet.HostCapacity
import MRNet.HostFiles
import MRNet.HostSearch
import MRNet.HostSlots
import MRNet.IntegerSums
import MRNet.Interleavings
import MRNet.Interoperation
import MRNet.KnomialOneList
import MRNet.KnomialRoles
import MRNet.KnomialRounds
import MRNet.KnomialRuns
import MRNet.KnomialShape
import MRNet.KnomialTermination
import MRNet.KnomialTree
import MRNet.KnomialTwoLists
import MRNet.LastOccurrence
import MRNet.LightweightGraph
import MRNet.LightweightLocks
import MRNet.LightweightMap
import MRNet.LightweightMessage
import MRNet.LightweightPacket
import MRNet.LightweightUpdates
import MRNet.LightweightVector
import MRNet.LinkedTrees
import MRNet.LockedTopology
import MRNet.LockedUpdates
import MRNet.MapContents
import MRNet.MapErasure
import MRNet.MapTrees
import MRNet.MaximalRuns
import MRNet.Membership
import MRNet.Message
import MRNet.MessageForms
import MRNet.MessageFraming
import MRNet.MessageLedger
import MRNet.NativeBytes
import MRNet.NodeSets
import MRNet.Packet
import MRNet.PacketAccess
import MRNet.PacketArguments
import MRNet.PacketBounds
import MRNet.PacketContents
import MRNet.PacketForms
import MRNet.PacketRoundTrip
import MRNet.ParentChoice
import MRNet.ParsedGraph
import MRNet.ParsedTopology
import MRNet.Pdr
import MRNet.PdrForms
import MRNet.PeerFlush
import MRNet.PerformanceData
import MRNet.PlannedTrees
import MRNet.PortSetting
import MRNet.PositionAverages
import MRNet.PositionExtremes
import MRNet.RankedGraph
import MRNet.RecordUpdates
import MRNet.Recovery
import MRNet.RecoveryRuns
import MRNet.RecursiveLock
import MRNet.ReductionFilters
import MRNet.Reductions
import MRNet.RegisteredCallbacks
import MRNet.RelayCompletion
import MRNet.RelayRuns
import MRNet.RepeatedUpdates
import MRNet.RootedTrees
import MRNet.Routing
import MRNet.RoutingTable
import MRNet.Runs
import MRNet.ScatterReceive
import MRNet.ScoreBounds
import MRNet.ScoreRuns
import MRNet.SerialGraph
import MRNet.SingleFailure
import MRNet.SocketUtils
import MRNet.SpecifiedTrees
import MRNet.StartupCompletion
import MRNet.StartupRuns
import MRNet.StreamCover
import MRNet.StreamPeers
import MRNet.StreamSends
import MRNet.SubTreeSearch
import MRNet.Subtrees
import MRNet.TimeKeeper
import MRNet.TimeOut
import MRNet.TimeOutFlush
import MRNet.TimerRuns
import MRNet.TokenSequence
import MRNet.Topology
import MRNet.TopologyFiles
import MRNet.TopologyGrammar
import MRNet.TopologyLinks
import MRNet.TopologyObjects
import MRNet.TopologyRecords
import MRNet.TopologyRelay
import MRNet.TopologyScanner
import MRNet.TopologyText
import MRNet.TopologyUpdates
import MRNet.Transfer
import MRNet.TreeBuild
import MRNet.TreeFile
import MRNet.TreeStartup
import MRNet.TreeVerdicts
import MRNet.UniquePaths
import MRNet.UpdateMerge
import MRNet.UpstreamNetwork
import MRNet.UpstreamProgress
import MRNet.UpstreamResults
import MRNet.UpstreamRuns
import MRNet.VectorErasure
import MRNet.VectorRuns
import MRNet.WaitForAll
import MRNet.Waves
import MRNet.Words
import MRNet.WorkInHand
