import PythonPortfolio.Library.Dict
import PythonPortfolio.Helix.Rpc
import PythonPortfolio.Helix.Storage

/-!
# The Helix node

Each handler of `RaftNode` is given as the list of its effects in program order:
assignments to attributes, the file operations of `save_state`, datagrams handed
to the transport, and the creation of a heartbeat task. Running the whole list is
one uninterrupted call; a crash cuts it anywhere. The clock is abstracted: an
iteration of `run_loop` carries the outcome of `now > self.election_deadline`, so
`reset_election_timer` leaves no trace.
-/

namespace PythonPortfolio.Helix

open Library Library.BigEndian

inductive NodeState where
  | follower
  | candidate
  | leader
deriving DecidableEq

/-- A UDP address. -/
structure Addr where
  host : String
  port : Int
deriving DecidableEq

/-- `('127.0.0.1', port)`. -/
def Addr.loopback (port : Int) : Addr := ⟨"127.0.0.1", port⟩

structure RaftNode where
  nodeId : Int
  peers : Dict Int Int
  state : NodeState
  currentTerm : Int
  votedFor : Option Int
  votesReceived : Nat
  leaderId : Option Int
  /-- Whether `connection_made` has set the transport. -/
  transport : Bool
  /-- Tasks `broadcast_heartbeat()` created and not yet run. -/
  heartbeatTasks : Nat

inductive Effect where
  | setState (state : NodeState)
  | setTerm (term : Int)
  | setVotedFor (votedFor : Option Int)
  | setVotes (votes : Nat)
  | setLeader (leaderId : Option Int)
  | openTemp
  | dumpTemp (term : Int) (votedFor : Option Int)
  | replaceTemp
  | sendto (data : Bytes) (addr : Addr)
  | createTask
  | taskDone
  /-- `Packet.pack` raises and the handler is left. -/
  | structError
deriving DecidableEq

namespace RaftNode

def apply (n : RaftNode) : Effect → RaftNode
  | .setState state => { n with state := state }
  | .setTerm term => { n with currentTerm := term }
  | .setVotedFor votedFor => { n with votedFor := votedFor }
  | .setVotes votes => { n with votesReceived := votes }
  | .setLeader leaderId => { n with leaderId := leaderId }
  | .createTask => { n with heartbeatTasks := n.heartbeatTasks + 1 }
  | .taskDone => { n with heartbeatTasks := n.heartbeatTasks - 1 }
  | .openTemp | .dumpTemp .. | .replaceTemp | .sendto .. | .structError => n

def applyAll (n : RaftNode) (es : List Effect) : RaftNode := es.foldl apply n

/-- `RaftNode.__init__` after `load_state`, with the transport that `start` binds. -/
def init (nodeId : Int) (peers : Dict Int Int) (loaded : Ballot Int Int) : RaftNode where
  nodeId := nodeId
  peers := peers
  state := .follower
  currentTerm := loaded.term
  votedFor := loaded.vote
  votesReceived := 0
  leaderId := none
  transport := true
  heartbeatTasks := 0

def saveState (term : Int) (votedFor : Option Int) : List Effect :=
  [.openTemp, .dumpTemp term votedFor, .replaceTemp]

def broadcast (n : RaftNode) (packet : Packet) : List Effect :=
  match packet.pack with
  | none => [.structError]
  | some data =>
    if n.transport then n.peers.items.map fun p => .sendto data (.loopback p.2) else []

def broadcastHeartbeat (n : RaftNode) : List Effect :=
  n.broadcast ⟨.appendReq, n.currentTerm, n.nodeId, []⟩

def becomeCandidate (n : RaftNode) : List Effect :=
  [.setState .candidate, .setTerm (n.currentTerm + 1), .setVotedFor (some n.nodeId), .setVotes 1]
    ++ saveState (n.currentTerm + 1) (some n.nodeId)
    ++ n.broadcast ⟨.voteReq, n.currentTerm + 1, n.nodeId, []⟩

/-- One iteration of `run_loop`. -/
def runLoop (n : RaftNode) (expired : Bool) : List Effect :=
  match n.state with
  | .follower | .candidate => if expired then n.becomeCandidate else []
  | .leader => n.broadcastHeartbeat

/-- The first part of `handle_message`: a higher term demotes the node. -/
def updateTerm (n : RaftNode) (pkg : Packet) : List Effect :=
  if pkg.term > n.currentTerm then
    [.setTerm pkg.term, .setState .follower, .setVotedFor none, .setLeader none]
      ++ saveState pkg.term none
  else []

/-- `self.transport.sendto(packet.pack(), addr)` under `if self.transport`. -/
def sendPacket (n : RaftNode) (packet : Packet) (addr : Addr) : List Effect :=
  if n.transport then
    match packet.pack with
    | none => [.structError]
    | some data => [.sendto data addr]
  else []

/-- The condition under which `_handle_vote_request` sets `vote_granted`. -/
def Grants (n : RaftNode) (pkg : Packet) : Prop :=
  pkg.term ≥ n.currentTerm ∧ (n.votedFor = none ∨ n.votedFor = some pkg.srcId)

instance (n : RaftNode) (pkg : Packet) : Decidable (n.Grants pkg) :=
  inferInstanceAs (Decidable (_ ∧ _))

def handleVoteRequest (n : RaftNode) (pkg : Packet) (addr : Addr) : List Effect :=
  if n.Grants pkg then
    [.setVotedFor (some pkg.srcId)] ++ saveState n.currentTerm (some pkg.srcId)
      ++ n.sendPacket ⟨.voteResp, n.currentTerm, n.nodeId, []⟩ addr
  else []

/-- `(len(self.peers) + 1) // 2 + 1`. -/
def quorum (n : RaftNode) : Nat := (n.peers.size + 1) / 2 + 1

def handleVoteResponse (n : RaftNode) (pkg : Packet) : List Effect :=
  if n.state = .candidate ∧ pkg.term = n.currentTerm then
    .setVotes (n.votesReceived + 1) ::
      if n.votesReceived + 1 ≥ n.quorum then
        [.setState .leader, .setLeader (some n.nodeId), .createTask]
      else []
  else []

def handleAppendEntries (n : RaftNode) (pkg : Packet) : List Effect :=
  if pkg.term ≥ n.currentTerm then [.setState .follower, .setLeader (some pkg.srcId)] else []

/-- The second part of `handle_message`. -/
def dispatch (n : RaftNode) (pkg : Packet) (addr : Addr) : List Effect :=
  match pkg.msgType with
  | .voteReq => n.handleVoteRequest pkg addr
  | .voteResp => n.handleVoteResponse pkg
  | .appendReq => n.handleAppendEntries pkg
  | .appendResp => []

def handleMessage (n : RaftNode) (pkg : Packet) (addr : Addr) : List Effect :=
  n.updateTerm pkg ++ (n.applyAll (n.updateTerm pkg)).dispatch pkg addr

def datagramReceived (n : RaftNode) (data : Bytes) (addr : Addr) : List Effect :=
  match Packet.unpack data with
  | none => []
  | some packet => n.handleMessage packet addr

end RaftNode

/-- What wakes a node up. -/
inductive Cause where
  | tick (expired : Bool)
  | datagram (data : Bytes) (addr : Addr)
  | heartbeat
deriving DecidableEq

def RaftNode.handler (n : RaftNode) : Cause → List Effect
  | .tick expired => n.runLoop expired
  | .datagram data addr => n.datagramReceived data addr
  | .heartbeat => if n.heartbeatTasks > 0 then .taskDone :: n.broadcastHeartbeat else []

def Disk.apply (d : Disk) : Effect → Disk
  | .openTemp => d.openTemp
  | .dumpTemp term votedFor => d.dumpTemp term votedFor
  | .replaceTemp => d.replaceTemp
  | _ => d

/-- A datagram as it leaves the socket. -/
abbrev Outgoing := Bytes × Addr

def Effect.sent : Effect → List Outgoing
  | .sendto data addr => [(data, addr)]
  | _ => []

/-- A process and its disk. -/
structure Host where
  node : RaftNode
  disk : Disk

namespace Host

def apply (h : Host) (e : Effect) : Host := ⟨h.node.apply e, h.disk.apply e⟩

def applyAll (h : Host) (es : List Effect) : Host := es.foldl apply h

/-- A handler that runs to its end. -/
def run (h : Host) (c : Cause) : Host := h.applyAll (h.node.handler c)

def sends (h : Host) (c : Cause) : List Outgoing := (h.node.handler c).flatMap Effect.sent

def boot (nodeId : Int) (peers : Dict Int Int) (d : Disk) : Host :=
  ⟨.init nodeId peers d.loadState, d⟩

/-- The process dies and is started again on the same disk. -/
def restart (h : Host) : Host := boot h.node.nodeId h.node.peers h.disk

end Host

end PythonPortfolio.Helix
