import PythonPortfolio.Library.Runs
import PythonPortfolio.Library.Service
import PythonPortfolio.Library.Ballot
import PythonPortfolio.Library.BigEndian
import PythonPortfolio.Library.StructFormat
import PythonPortfolio.Library.Dict
import PythonPortfolio.Library.Grouping
import PythonPortfolio.Library.PyStr
import PythonPortfolio.Library.Utf8
import PythonPortfolio.Library.Regex
import PythonPortfolio.Library.Pool
import PythonPortfolio.Library.TopoSort
import PythonPortfolio.Library.ReverseSweep
import PythonPortfolio.Library.Propagate
import PythonPortfolio.Library.TablePairing
import PythonPortfolio.Library.Loop
import PythonPortfolio.Library.PriorityQueue
import PythonPortfolio.Library.Walks
import PythonPortfolio.Library.NearestFirst
import PythonPortfolio.Library.SelfDelimiting
import PythonPortfolio.Library.Lockstep
import PythonPortfolio.Library.Binary64
import PythonPortfolio.Library.Perceptron
import PythonPortfolio.Helix.Rpc
import PythonPortfolio.Helix.Storage
import PythonPortfolio.Helix.Node
import PythonPortfolio.Helix.Handlers
import PythonPortfolio.Helix.Majority
import PythonPortfolio.Helix.Crash
import PythonPortfolio.Helix.Cluster
import PythonPortfolio.Helix.Election
import PythonPortfolio.Helix.Heartbeats
import PythonPortfolio.Helix.Terms
import PythonPortfolio.Helix.Agreement
import PythonPortfolio.Helix.Progress
import PythonPortfolio.Helix.Timers
import PythonPortfolio.Hyperion.Protocol
import PythonPortfolio.Hyperion.Wal
import PythonPortfolio.Hyperion.Codec
import PythonPortfolio.Hyperion.AppendOnly
import PythonPortfolio.Hyperion.Engine
import PythonPortfolio.Hyperion.Recovery
import PythonPortfolio.Hyperion.Server
import PythonPortfolio.Hyperion.Coroutines
import PythonPortfolio.Hyperion.LogOrder
import PythonPortfolio.Hyperion.Serial
import PythonPortfolio.Hyperion.Rotation
import PythonPortfolio.Hyperion.FailedWrite
import PythonPortfolio.Hyperion.Segment
import PythonPortfolio.Hyperion.Framing
import PythonPortfolio.Hyperion.Validators
import PythonPortfolio.Hyperion.Durability
import PythonPortfolio.Hyperion.Telemetry
import PythonPortfolio.Hyperion.Connections
import PythonPortfolio.Hyperion.Statistics
import PythonPortfolio.Nebula.Storage
import PythonPortfolio.Nebula.Invariant
import PythonPortfolio.Nebula.Deletion
import PythonPortfolio.Nebula.Tables
import PythonPortfolio.Nebula.Traversal
import PythonPortfolio.Nebula.BreadthFirst
import PythonPortfolio.Nebula.Dijkstra
import PythonPortfolio.Nebula.ShortestPath
import PythonPortfolio.Nebula.Index
import PythonPortfolio.Nebula.IndexHistory
import PythonPortfolio.Nebula.Distances
import PythonPortfolio.Nebula.Lexer
import PythonPortfolio.Nebula.Parser
import PythonPortfolio.Nebula.Grammar
import PythonPortfolio.Nebula.RoundTrip
import PythonPortfolio.Nebula.Coverage
import PythonPortfolio.Nebula.Execution
import PythonPortfolio.Nebula.QueryHistory
import PythonPortfolio.Nebula.Raft
import PythonPortfolio.Nebula.Elections
import PythonPortfolio.Ouroboros.OpCodes
import PythonPortfolio.Ouroboros.Compiler
import PythonPortfolio.Ouroboros.Vm
import PythonPortfolio.Ouroboros.Assembly
import PythonPortfolio.Ouroboros.CodeGen
import PythonPortfolio.Ouroboros.Refinement
import PythonPortfolio.Ouroboros.Jumps
import PythonPortfolio.Ouroboros.ControlFlow
import PythonPortfolio.Ouroboros.Typing
import PythonPortfolio.Ouroboros.Decode
import PythonPortfolio.Ouroboros.Listing
import PythonPortfolio.Ouroboros.Operands
import PythonPortfolio.Ouroboros.Literals
import PythonPortfolio.Synapse.Linalg
import PythonPortfolio.Synapse.Tensor
import PythonPortfolio.Synapse.Graph
import PythonPortfolio.Synapse.Forward
import PythonPortfolio.Synapse.Sweep
import PythonPortfolio.Synapse.Gradient
import PythonPortfolio.Synapse.Derivative
import PythonPortfolio.Synapse.Visits
import PythonPortfolio.Synapse.Accumulation
import PythonPortfolio.Synapse.Optim
import PythonPortfolio.Synapse.Training
import PythonPortfolio.Synapse.Depth
import PythonPortfolio.Synapse.Descent
