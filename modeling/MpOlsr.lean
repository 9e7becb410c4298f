import MpOlsr.Lib.Buffer
import MpOlsr.Lib.Bytes
import MpOlsr.Lib.Dijkstra
import MpOlsr.Lib.DoublyLinked
import MpOlsr.Lib.CellPrograms
import MpOlsr.Lib.Fault
import MpOlsr.Lib.Moves
import MpOlsr.Lib.Multigraph
import MpOlsr.Lib.OnesComplement
import MpOlsr.Lib.Peeling
import MpOlsr.Lib.Rings
import MpOlsr.Lib.RoundRobin
import MpOlsr.Lib.ShortestWalks
import MpOlsr.Lib.SinglyLinked
import MpOlsr.Lib.Simulation
import MpOlsr.Lib.Replicas
import MpOlsr.Lib.Tomography
import MpOlsr.Mojette.Transform
import MpOlsr.Mojette.Bins
import MpOlsr.Mojette.Peel
import MpOlsr.Mojette.Recover
import MpOlsr.Mojette.Success
import MpOlsr.Serveur.Receive
import MpOlsr.Serveur.Pending
import MpOlsr.Serveur.Message
import MpOlsr.Serveur.Runs
import MpOlsr.Serveur.Sequence
import MpOlsr.Serveur.Format
import MpOlsr.Routing.Packet
import MpOlsr.Routing.Layout
import MpOlsr.Routing.Checksum
import MpOlsr.Routing.Inverse
import MpOlsr.Routing.Hooks
import MpOlsr.Routing.Verdicts
import MpOlsr.Routing.Forward
import MpOlsr.Routing.Recovery
import MpOlsr.Routing.Agreement
import MpOlsr.Routing.Malformed
import MpOlsr.Kernel.Skb
import MpOlsr.Kernel.Hooks
import MpOlsr.Kernel.Commands
import MpOlsr.Kernel.Refused
import MpOlsr.Kernel.Delivery
import MpOlsr.Topology.Store
import MpOlsr.Topology.Weak
import MpOlsr.Topology.Commands
import MpOlsr.Topology.Shape
import MpOlsr.Topology.Entries
import MpOlsr.Topology.Edges
import MpOlsr.Topology.Steps
import MpOlsr.Topology.Removal
import MpOlsr.Topology.Events
import MpOlsr.Topology.Refine
import MpOlsr.Topology.Runs
import MpOlsr.Topology.Index
import MpOlsr.Topology.Mains
import MpOlsr.Paths.Compute
import MpOlsr.Paths.Cache
import MpOlsr.Paths.Shortest
import MpOlsr.Paths.Retrieve
import MpOlsr.Paths.Rounds
import MpOlsr.Paths.Inflation
import MpOlsr.Paths.History
import MpOlsr.Paths.Rotation
import MpOlsr.Paths.Answers
import MpOlsr.Paths.Capacity
import MpOlsr.Paths.Determined
import MpOlsr.Paths.WordSizes
import MpOlsr.Paths.Events
import MpOlsr.Paths.Rings
import MpOlsr.Paths.Trails
import MpOlsr.Paths.Current
import MpOlsr.Plugin.Tables
import MpOlsr.Plugin.Quiet
import MpOlsr.Plugin.Replication
import MpOlsr.Plugin.Connections
import MpOlsr.Plugin.Listeners
import MpOlsr.Plugin.Stream
import MpOlsr.Plugin.Followers
import MpOlsr.Kernel.Replace
import MpOlsr.Kernel.Insert
import MpOlsr.Topology.Coherence
import MpOlsr.Topology.CoherentRuns
import MpOlsr.Olsr.DuplicateSet
import MpOlsr.Olsr.Packet
import MpOlsr.Olsr.Node
import MpOlsr.Olsr.Flooding
import MpOlsr.Lib.AvlTrees
import MpOlsr.Olsr.Avl
import MpOlsr.Olsr.AvlCells
import MpOlsr.Olsr.AvlBalance
import MpOlsr.Olsr.AvlThread
import MpOlsr.Olsr.AvlSearch
import MpOlsr.Olsr.AvlInsert
import MpOlsr.Olsr.AvlDelete
import MpOlsr.Olsr.AvlRuns
import MpOlsr.Lib.Candidates
import MpOlsr.Lib.Opposites
import MpOlsr.Lib.SearchTrees
import MpOlsr.Olsr.Spf
import MpOlsr.Olsr.SpfRounds
import MpOlsr.Olsr.SpfRoutes
import MpOlsr.Olsr.TcRuns
