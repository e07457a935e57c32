import PythonPortfolio.Helix.Node

/-!
# What one uninterrupted handler does

Every later argument about Helix rests on the lemmas of this module and unfolds
no handler again. A completed handler leaves memory and disk in agreement, moves
the ballot of the node forward in the order of `Ballot`, speaks only in the term
it has persisted, and changes the role of the node in one of five ways.
-/

namespace PythonPortfolio.Helix

open Library Library.BigEndian

/-- Effects that touch neither memory nor disk. -/
def Effect.Silent (e : Effect) : Prop := e = .structError ∨ ∃ data addr, e = .sendto data addr

def Disk.applyAll (d : Disk) (es : List Effect) : Disk := es.foldl Disk.apply d

/-- The packet a cause delivers to `handle_message`. -/
def Cause.packet : Cause → Option Packet
  | .datagram data _ => Packet.unpack data
  | _ => none

namespace RaftNode

/-- What the node would persist now. -/
def ballot (n : RaftNode) : Ballot Int Int := ⟨n.currentTerm, n.votedFor⟩

@[simp] theorem applyAll_nil (n : RaftNode) : n.applyAll [] = n := rfl

@[simp] theorem applyAll_cons (n : RaftNode) (e : Effect) (es : List Effect) :
    n.applyAll (e :: es) = (n.apply e).applyAll es := rfl

@[simp] theorem applyAll_append (n : RaftNode) (es fs : List Effect) :
    n.applyAll (es ++ fs) = (n.applyAll es).applyAll fs := by
  simp [applyAll]

theorem mem_broadcast {n : RaftNode} {pkt : Packet} {e : Effect} (h : e ∈ n.broadcast pkt) :
    e.Silent := by
  unfold broadcast at h
  split at h
  · exact Or.inl (List.mem_singleton.mp h)
  · split at h
    · obtain ⟨_, _, rfl⟩ := List.mem_map.mp h
      exact Or.inr ⟨_, _, rfl⟩
    · cases h

theorem mem_sendPacket {n : RaftNode} {pkt : Packet} {addr : Addr} {e : Effect}
    (h : e ∈ n.sendPacket pkt addr) : e.Silent := by
  unfold sendPacket at h
  split at h
  · split at h
    · exact Or.inl (List.mem_singleton.mp h)
    · exact Or.inr ⟨_, _, List.mem_singleton.mp h⟩
  · cases h

theorem applyAll_of_silent (n : RaftNode) {es : List Effect} (h : ∀ e ∈ es, e.Silent) :
    n.applyAll es = n := by
  induction es with
  | nil => rfl
  | cons e es ih =>
    have he : n.apply e = n := by
      rcases h e (by simp) with rfl | ⟨_, _, rfl⟩ <;> rfl
    rw [applyAll_cons, he]
    exact ih fun f hf => h f (by simp [hf])

@[simp] theorem applyAll_broadcast (n m : RaftNode) (pkt : Packet) :
    n.applyAll (m.broadcast pkt) = n := n.applyAll_of_silent fun _ => mem_broadcast

@[simp] theorem applyAll_sendPacket (n m : RaftNode) (pkt : Packet) (addr : Addr) :
    n.applyAll (m.sendPacket pkt addr) = n := n.applyAll_of_silent fun _ => mem_sendPacket

@[simp] theorem applyAll_saveState (n : RaftNode) (term : Int) (vote : Option Int) :
    n.applyAll (saveState term vote) = n := rfl

end RaftNode

namespace Disk

@[simp] theorem applyAll_nil (d : Disk) : d.applyAll [] = d := rfl

@[simp] theorem applyAll_cons (d : Disk) (e : Effect) (es : List Effect) :
    d.applyAll (e :: es) = (d.apply e).applyAll es := rfl

@[simp] theorem applyAll_append (d : Disk) (es fs : List Effect) :
    d.applyAll (es ++ fs) = (d.applyAll es).applyAll fs := by
  simp [applyAll]

theorem applyAll_of_silent (d : Disk) {es : List Effect} (h : ∀ e ∈ es, e.Silent) :
    d.applyAll es = d := by
  induction es with
  | nil => rfl
  | cons e es ih =>
    have he : d.apply e = d := by
      rcases h e (by simp) with rfl | ⟨_, _, rfl⟩ <;> rfl
    rw [applyAll_cons, he]
    exact ih fun f hf => h f (by simp [hf])

@[simp] theorem applyAll_broadcast (d : Disk) (m : RaftNode) (pkt : Packet) :
    d.applyAll (m.broadcast pkt) = d := d.applyAll_of_silent fun _ => RaftNode.mem_broadcast

@[simp] theorem applyAll_sendPacket (d : Disk) (m : RaftNode) (pkt : Packet) (addr : Addr) :
    d.applyAll (m.sendPacket pkt addr) = d :=
  d.applyAll_of_silent fun _ => RaftNode.mem_sendPacket

@[simp] theorem applyAll_saveState (d : Disk) (term : Int) (vote : Option Int) :
    d.applyAll (RaftNode.saveState term vote) = d.saveState term vote := rfl

end Disk

namespace Host

@[simp] theorem applyAll_eq (h : Host) (es : List Effect) :
    h.applyAll es = ⟨h.node.applyAll es, h.disk.applyAll es⟩ := by
  induction es generalizing h with
  | nil => rfl
  | cons e es ih => exact ih (h.apply e)

/-- Memory and disk hold the same term and vote. -/
def Settled (h : Host) : Prop := h.disk.loadState = h.node.ballot

/-- The parts of a node that no handler assigns. -/
structure SameConfig (n m : RaftNode) : Prop where
  nodeId : m.nodeId = n.nodeId
  peers : m.peers = n.peers
  transport : m.transport = n.transport

end Host

namespace RaftNode

theorem sameConfig_apply (n : RaftNode) (e : Effect) : Host.SameConfig n (n.apply e) := by
  cases e <;> exact ⟨rfl, rfl, rfl⟩

theorem sameConfig_applyAll (n : RaftNode) (es : List Effect) :
    Host.SameConfig n (n.applyAll es) := by
  induction es generalizing n with
  | nil => exact ⟨rfl, rfl, rfl⟩
  | cons e es ih =>
    have h := sameConfig_apply n e
    have h' := ih (n.apply e)
    exact ⟨h'.nodeId.trans h.nodeId, h'.peers.trans h.peers, h'.transport.trans h.transport⟩

/-! ## The handlers, as functions on memory and disk -/

/-- Memory after `become_candidate`. -/
def candidacy (n : RaftNode) : RaftNode :=
  { n with state := .candidate, currentTerm := n.currentTerm + 1, votedFor := some n.nodeId,
           votesReceived := 1 }

@[simp] theorem applyAll_becomeCandidate (n : RaftNode) :
    n.applyAll n.becomeCandidate = n.candidacy := by
  simp [becomeCandidate, apply, candidacy]

@[simp] theorem disk_becomeCandidate (d : Disk) (n : RaftNode) :
    d.applyAll n.becomeCandidate = d.saveState (n.currentTerm + 1) (some n.nodeId) := by
  simp [becomeCandidate, Disk.apply]

/-- Memory after the first part of `handle_message`. -/
def updated (n : RaftNode) (pkg : Packet) : RaftNode :=
  if pkg.term > n.currentTerm then
    { n with currentTerm := pkg.term, state := .follower, votedFor := none, leaderId := none }
  else n

@[simp] theorem applyAll_updateTerm (n : RaftNode) (pkg : Packet) :
    n.applyAll (n.updateTerm pkg) = n.updated pkg := by
  unfold updateTerm updated
  split <;> simp [apply]

theorem disk_updateTerm (d : Disk) (n : RaftNode) (pkg : Packet) :
    d.applyAll (n.updateTerm pkg) =
      if pkg.term > n.currentTerm then d.saveState pkg.term none else d := by
  unfold updateTerm
  split <;> simp [Disk.apply]

theorem applyAll_handleVoteRequest (n : RaftNode) (pkg : Packet) (addr : Addr) :
    n.applyAll (n.handleVoteRequest pkg addr) =
      if n.Grants pkg then { n with votedFor := some pkg.srcId } else n := by
  unfold handleVoteRequest
  split <;> simp [apply]

theorem disk_handleVoteRequest (d : Disk) (n : RaftNode) (pkg : Packet) (addr : Addr) :
    d.applyAll (n.handleVoteRequest pkg addr) =
      if n.Grants pkg then d.saveState n.currentTerm (some pkg.srcId) else d := by
  unfold handleVoteRequest
  split <;> simp [Disk.apply]

/-- Memory after `_handle_vote_response`. -/
def counted (n : RaftNode) (pkg : Packet) : RaftNode :=
  if n.state = .candidate ∧ pkg.term = n.currentTerm then
    if n.votesReceived + 1 ≥ n.quorum then
      { n with votesReceived := n.votesReceived + 1, state := .leader, leaderId := some n.nodeId,
               heartbeatTasks := n.heartbeatTasks + 1 }
    else { n with votesReceived := n.votesReceived + 1 }
  else n

theorem applyAll_handleVoteResponse (n : RaftNode) (pkg : Packet) :
    n.applyAll (n.handleVoteResponse pkg) = n.counted pkg := by
  unfold handleVoteResponse counted
  split
  · split <;> simp [apply]
  · rfl

theorem disk_handleVoteResponse (d : Disk) (n : RaftNode) (pkg : Packet) :
    d.applyAll (n.handleVoteResponse pkg) = d := by
  unfold handleVoteResponse
  split
  · split <;> simp [Disk.apply]
  · rfl

theorem applyAll_handleAppendEntries (n : RaftNode) (pkg : Packet) :
    n.applyAll (n.handleAppendEntries pkg) =
      if pkg.term ≥ n.currentTerm then { n with state := .follower, leaderId := some pkg.srcId }
      else n := by
  unfold handleAppendEntries
  split <;> simp [apply]

theorem disk_handleAppendEntries (d : Disk) (n : RaftNode) (pkg : Packet) :
    d.applyAll (n.handleAppendEntries pkg) = d := by
  unfold handleAppendEntries
  split <;> simp [Disk.apply]

/-! ## What a handler can do to the memory -/

/-- Memory after `dispatch`, by what it did with the packet. -/
inductive DispatchStep (n : RaftNode) (pkg : Packet) : RaftNode → Prop
  | voted (hm : pkg.msgType = .voteReq) (hg : n.Grants pkg) :
      DispatchStep n pkg { n with votedFor := some pkg.srcId }
  | counted (hm : pkg.msgType = .voteResp) (hs : n.state = .candidate)
      (ht : pkg.term = n.currentTerm) (hq : n.votesReceived + 1 < n.quorum) :
      DispatchStep n pkg { n with votesReceived := n.votesReceived + 1 }
  | elected (hm : pkg.msgType = .voteResp) (hs : n.state = .candidate)
      (ht : pkg.term = n.currentTerm) (hq : n.quorum ≤ n.votesReceived + 1) :
      DispatchStep n pkg
        { n with votesReceived := n.votesReceived + 1, state := .leader,
                 leaderId := some n.nodeId, heartbeatTasks := n.heartbeatTasks + 1 }
  | followed (hm : pkg.msgType = .appendReq) (ht : n.currentTerm ≤ pkg.term) :
      DispatchStep n pkg { n with state := .follower, leaderId := some pkg.srcId }
  | unchanged (hr : pkg.msgType = .voteResp → n.state = .candidate → pkg.term ≠ n.currentTerm) :
      DispatchStep n pkg n

theorem dispatch_step (n : RaftNode) (pkg : Packet) (addr : Addr) :
    DispatchStep n pkg (n.applyAll (n.dispatch pkg addr)) := by
  unfold dispatch
  cases hm : pkg.msgType with
  | voteReq =>
    simp only [applyAll_handleVoteRequest]
    split
    · next hg => exact .voted hm hg
    · exact .unchanged fun h => by cases hm.symm.trans h
  | voteResp =>
    simp only [applyAll_handleVoteResponse, counted]
    split
    · next hc =>
      split
      · next hq => exact .elected hm hc.1 hc.2 hq
      · next hq => exact .counted hm hc.1 hc.2 (not_le.mp hq)
    · next hc => exact .unchanged fun _ hs ht => hc ⟨hs, ht⟩
  | appendReq =>
    simp only [applyAll_handleAppendEntries]
    split
    · next ht => exact .followed hm ht
    · exact .unchanged fun h => by cases hm.symm.trans h
  | appendResp => exact .unchanged fun h => by cases hm.symm.trans h

/-- Memory after a completed handler. -/
inductive HandlerStep (n : RaftNode) (c : Cause) : RaftNode → Prop
  | candidacy (hc : c = .tick true) (hs : n.state ≠ .leader) : HandlerStep n c n.candidacy
  | taskDone (hc : c = .heartbeat) (ht : 0 < n.heartbeatTasks) :
      HandlerStep n c { n with heartbeatTasks := n.heartbeatTasks - 1 }
  | message {n' : RaftNode} (pkg : Packet) (hp : c.packet = some pkg)
      (h : DispatchStep (n.updated pkg) pkg n') : HandlerStep n c n'
  | unchanged (hp : c.packet = none) (hc : ¬ (c = .tick true ∧ n.state ≠ .leader)) :
      HandlerStep n c n

theorem applyAll_handleMessage (n : RaftNode) (pkg : Packet) (addr : Addr) :
    n.applyAll (n.handleMessage pkg addr) =
      (n.updated pkg).applyAll ((n.updated pkg).dispatch pkg addr) := by
  simp [handleMessage]

theorem handler_step (n : RaftNode) (c : Cause) :
    HandlerStep n c (n.applyAll (n.handler c)) := by
  cases c with
  | tick expired =>
    by_cases hs : n.state = .leader
    · have hloop : n.handler (.tick expired) = n.broadcastHeartbeat := by
        simp [handler, runLoop, hs]
      rw [hloop, broadcastHeartbeat, applyAll_broadcast]
      exact .unchanged rfl fun h => h.2 hs
    · have hloop : n.handler (.tick expired) = if expired then n.becomeCandidate else [] := by
        cases h : n.state <;> simp_all [handler, runLoop]
      rw [hloop]
      cases expired with
      | false => exact .unchanged rfl fun h => by cases h.1
      | true =>
        rw [if_pos rfl, applyAll_becomeCandidate]
        exact .candidacy rfl hs
  | datagram data addr =>
    simp only [handler, datagramReceived]
    cases hu : Packet.unpack data with
    | none => exact .unchanged hu fun h => by cases h.1
    | some pkg =>
      dsimp only
      rw [applyAll_handleMessage]
      exact .message pkg hu (dispatch_step _ _ _)
  | heartbeat =>
    simp only [handler]
    split
    · next ht =>
      rw [applyAll_cons, broadcastHeartbeat, applyAll_broadcast]
      exact .taskDone rfl ht
    · exact .unchanged rfl fun h => by cases h.1

/-! ## The ballot only moves forward -/

theorem ballot_le_candidacy (n : RaftNode) : n.ballot ≤ n.candidacy.ballot :=
  Or.inl (by simp [ballot, candidacy])

theorem ballot_le_updated (n : RaftNode) (pkg : Packet) : n.ballot ≤ (n.updated pkg).ballot := by
  unfold updated
  split
  · next h => exact Or.inl h
  · exact le_refl _

/-- After the first part of `handle_message` the node is not behind the packet. -/
theorem term_le_updated (n : RaftNode) (pkg : Packet) :
    pkg.term ≤ (n.updated pkg).currentTerm := by
  unfold updated
  split
  · exact le_refl _
  · next h => exact not_lt.mp h

theorem ballot_le_dispatch {n n' : RaftNode} {pkg : Packet} (h : DispatchStep n pkg n') :
    n.ballot ≤ n'.ballot := by
  cases h with
  | voted hm hg => exact Or.inr ⟨rfl, hg.2⟩
  | counted | elected | followed | unchanged => exact le_refl _

theorem ballot_le_handler (n : RaftNode) (c : Cause) :
    n.ballot ≤ (n.applyAll (n.handler c)).ballot := by
  have h := n.handler_step c
  generalize n.applyAll (n.handler c) = n' at h ⊢
  cases h with
  | candidacy => exact n.ballot_le_candidacy
  | message pkg hp h => exact (n.ballot_le_updated pkg).trans (ballot_le_dispatch h)
  | taskDone | unchanged => exact le_refl _

/-! ## Datagrams -/

theorem sent_broadcast (n : RaftNode) (pkt : Packet) :
    (n.broadcast pkt).flatMap Effect.sent = [] ∨
    ∃ data, pkt.pack = some data ∧ (n.broadcast pkt).flatMap Effect.sent =
      n.peers.items.map fun p => (data, Addr.loopback p.2) := by
  unfold broadcast
  split
  · exact Or.inl rfl
  · next data hd =>
    split
    · refine Or.inr ⟨data, hd, ?_⟩
      induction n.peers.items with
      | nil => rfl
      | cons p ps ih => simp [Effect.sent, ih]
    · exact Or.inl rfl

theorem sent_sendPacket (n : RaftNode) (pkt : Packet) (addr : Addr) :
    (n.sendPacket pkt addr).flatMap Effect.sent = [] ∨
    ∃ data, pkt.pack = some data ∧
      (n.sendPacket pkt addr).flatMap Effect.sent = [(data, addr)] := by
  unfold sendPacket
  split
  · split
    · exact Or.inl rfl
    · next data hd => exact Or.inr ⟨data, hd, rfl⟩
  · exact Or.inl rfl

@[simp] theorem sent_saveState (term : Int) (vote : Option Int) :
    (saveState term vote).flatMap Effect.sent = [] := rfl

theorem sent_becomeCandidate (n : RaftNode) :
    n.becomeCandidate.flatMap Effect.sent =
      (n.broadcast ⟨.voteReq, n.currentTerm + 1, n.nodeId, []⟩).flatMap Effect.sent := by
  simp [becomeCandidate, Effect.sent]

theorem sent_updateTerm (n : RaftNode) (pkg : Packet) :
    (n.updateTerm pkg).flatMap Effect.sent = [] := by
  unfold updateTerm
  split <;> simp [Effect.sent]

theorem sent_handleVoteRequest (n : RaftNode) (pkg : Packet) (addr : Addr) :
    (n.handleVoteRequest pkg addr).flatMap Effect.sent = if n.Grants pkg then
      (n.sendPacket ⟨.voteResp, n.currentTerm, n.nodeId, []⟩ addr).flatMap Effect.sent else [] := by
  unfold handleVoteRequest
  split <;> simp [Effect.sent]

theorem sent_handleVoteResponse (n : RaftNode) (pkg : Packet) :
    (n.handleVoteResponse pkg).flatMap Effect.sent = [] := by
  unfold handleVoteResponse
  split
  · split <;> rfl
  · rfl

theorem sent_handleAppendEntries (n : RaftNode) (pkg : Packet) :
    (n.handleAppendEntries pkg).flatMap Effect.sent = [] := by
  unfold handleAppendEntries
  split <;> rfl

theorem mem_handleVoteResponse {n : RaftNode} {pkg : Packet} {e : Effect}
    (h : e ∈ n.handleVoteResponse pkg) :
    (∃ votes, e = .setVotes votes) ∨ e = .setState .leader ∨ e = .setLeader (some n.nodeId) ∨
      e = .createTask := by
  unfold handleVoteResponse at h
  split at h
  · rcases List.mem_cons.mp h with rfl | h
    · exact Or.inl ⟨_, rfl⟩
    · split at h
      · simpa using Or.inr h
      · cases h
  · cases h

theorem mem_handleAppendEntries {n : RaftNode} {pkg : Packet} {e : Effect}
    (h : e ∈ n.handleAppendEntries pkg) :
    e = .setState .follower ∨ e = .setLeader (some pkg.srcId) := by
  unfold handleAppendEntries at h
  split at h
  · simpa using h
  · cases h

end RaftNode

namespace Cause

/-- The `src_id` of a `VOTE_RESP` of term `T`. -/
def respondent (T : Int) (c : Cause) : Option Int :=
  match c.packet with
  | some p => if p.msgType = .voteResp ∧ p.term = T then some p.srcId else none
  | none => none

end Cause

namespace Host

theorem run_node (h : Host) (c : Cause) :
    (h.run c).node = h.node.applyAll (h.node.handler c) := by
  simp [run]

theorem run_disk (h : Host) (c : Cause) :
    (h.run c).disk = h.disk.applyAll (h.node.handler c) := by
  simp [run]

theorem run_config (h : Host) (c : Cause) : SameConfig h.node (h.run c).node := by
  rw [run_node]
  exact h.node.sameConfig_applyAll _

theorem ballot_le_run (h : Host) (c : Cause) : h.node.ballot ≤ (h.run c).node.ballot := by
  rw [run_node]
  exact h.node.ballot_le_handler c

theorem settled_boot (nodeId : Int) (peers : Dict Int Int) (d : Disk) :
    (boot nodeId peers d).Settled := rfl

theorem settled_updateTerm {h : Host} (hs : h.Settled) (pkg : Packet) :
    (h.disk.applyAll (h.node.updateTerm pkg)).loadState =
      (h.node.applyAll (h.node.updateTerm pkg)).ballot := by
  rw [RaftNode.disk_updateTerm, RaftNode.applyAll_updateTerm, RaftNode.updated]
  split
  · rfl
  · exact hs

/-- A handler that runs to its end leaves memory and disk in agreement. -/
theorem settled_run {h : Host} (hs : h.Settled) (c : Cause) : (h.run c).Settled := by
  unfold Settled at hs ⊢
  rw [run_node, run_disk]
  cases c with
  | tick expired =>
    cases hst : h.node.state <;> cases expired <;>
      simp [RaftNode.handler, RaftNode.runLoop, hst, RaftNode.broadcastHeartbeat, hs,
        RaftNode.candidacy, RaftNode.ballot]
  | datagram data addr =>
    simp only [RaftNode.handler, RaftNode.datagramReceived]
    split
    · exact hs
    · next pkg _ =>
      have hu := settled_updateTerm hs pkg
      rw [RaftNode.applyAll_updateTerm] at hu
      rw [RaftNode.applyAll_handleMessage, RaftNode.handleMessage, Disk.applyAll_append,
        RaftNode.applyAll_updateTerm]
      generalize h.disk.applyAll (h.node.updateTerm pkg) = d at hu
      generalize h.node.updated pkg = n at hu
      unfold RaftNode.dispatch
      cases pkg.msgType with
      | voteReq =>
        simp only [RaftNode.disk_handleVoteRequest, RaftNode.applyAll_handleVoteRequest]
        split
        · rfl
        · exact hu
      | voteResp =>
        simp only [RaftNode.disk_handleVoteResponse, RaftNode.applyAll_handleVoteResponse,
          RaftNode.counted, hu]
        split
        · split <;> rfl
        · rfl
      | appendReq =>
        simp only [RaftNode.disk_handleAppendEntries, RaftNode.applyAll_handleAppendEntries, hu]
        split <;> rfl
      | appendResp => exact hu
  | heartbeat =>
    simp only [RaftNode.handler]
    split <;> simpa [RaftNode.broadcastHeartbeat, RaftNode.apply, Disk.apply, RaftNode.ballot]
      using hs

/-- The five things a handler can do to the role of a node. -/
inductive RoleStep (n n' : RaftNode) (c : Cause) : Prop
  | follower (h : n'.state = .follower)
  | candidacy (hc : c = .tick true) (hs : n.state ≠ .leader) (h : n' = n.candidacy)
  | counting (hs : n.state = .candidate) (hs' : n'.state = .candidate)
      (ht : n'.currentTerm = n.currentTerm)
      (hv : n'.votesReceived = n.votesReceived + (c.respondent n.currentTerm).toList.length)
      (hq : n'.votesReceived < n.quorum ∨ n'.votesReceived = n.votesReceived)
  | elected (hs : n.state = .candidate) (hs' : n'.state = .leader)
      (ht : n'.currentTerm = n.currentTerm) (i : Int) (hr : c.respondent n.currentTerm = some i)
      (hv : n'.votesReceived = n.votesReceived + 1) (hq : n.quorum ≤ n'.votesReceived)
  | reigning (hs : n.state = .leader) (hs' : n'.state = .leader)
      (ht : n'.currentTerm = n.currentTerm)

/-- A handler that leaves role, term and votes alone and counts no reply. -/
theorem RoleStep.of_same {n n' : RaftNode} {c : Cause} (hs : n'.state = n.state)
    (ht : n'.currentTerm = n.currentTerm) (hv : n'.votesReceived = n.votesReceived)
    (hr : n.state = .candidate → c.respondent n.currentTerm = none) : RoleStep n n' c := by
  cases hst : n.state with
  | follower => exact .follower (hs.trans hst)
  | candidate =>
    exact .counting hst (hs.trans hst) ht (by rw [hr hst, hv]; rfl) (Or.inr hv)
  | leader => exact .reigning hst (hs.trans hst) ht

/-- What `dispatch` does to the role of a node that the packet does not demote. -/
theorem roleStep_dispatch {n n' : RaftNode} {c : Cause} {pkg : Packet} (hp : c.packet = some pkg)
    (h : RaftNode.DispatchStep n pkg n') : RoleStep n n' c := by
  have hr : ∀ T, c.respondent T =
      if pkg.msgType = .voteResp ∧ pkg.term = T then some pkg.srcId else none := by
    intro T
    simp [Cause.respondent, hp]
  cases h with
  | voted hm => exact .of_same rfl rfl rfl fun _ => by simp [hr, hm]
  | counted hm hs ht hq =>
    have hri : c.respondent n.currentTerm = some pkg.srcId := by rw [hr, if_pos ⟨hm, ht⟩]
    exact .counting hs hs rfl (by rw [hri]; rfl) (Or.inl hq)
  | elected hm hs ht hq =>
    have hri : c.respondent n.currentTerm = some pkg.srcId := by rw [hr, if_pos ⟨hm, ht⟩]
    exact .elected hs rfl rfl pkg.srcId hri rfl hq
  | followed => exact .follower rfl
  | unchanged hno =>
    refine .of_same rfl rfl rfl fun hs => ?_
    rw [hr, if_neg fun h => hno h.1 hs h.2]

/-- Inversion of a completed handler with respect to the role of the node. -/
theorem roleStep_run (h : Host) (c : Cause) : RoleStep h.node (h.run c).node c := by
  rw [run_node]
  have hstep := h.node.handler_step c
  generalize h.node.applyAll (h.node.handler c) = n' at hstep ⊢
  cases hstep with
  | candidacy hc hs => exact .candidacy hc hs rfl
  | taskDone hc => exact .of_same rfl rfl rfl fun _ => by rw [hc]; rfl
  | message pkg hp hd =>
    by_cases hterm : pkg.term > h.node.currentTerm
    · -- demoted: no part of `dispatch` makes a follower anything else
      have hu : (h.node.updated pkg).state = .follower := by simp [RaftNode.updated, hterm]
      refine .follower ?_
      cases hd with
      | voted | unchanged => exact hu
      | counted hm hs | elected hm hs => cases hu.symm.trans hs
      | followed => rfl
    · have hu : h.node.updated pkg = h.node := by simp [RaftNode.updated, hterm]
      rw [hu] at hd
      exact roleStep_dispatch hp hd
  | unchanged hp hc => exact .of_same rfl rfl rfl fun _ => by simp [Cause.respondent, hp]

/-- The three kinds of traffic a completed handler can cause. -/
inductive SendStep (h h' : Host) (c : Cause) (out : List Outgoing) : Prop
  | heartbeats
      (ho : ∀ o ∈ out, ∃ pkt, Packet.unpack o.1 = some pkt ∧ pkt.msgType = .appendReq)
  | requests (hc : c = .tick true) (hn : h'.node = h.node.candidacy) (data : Bytes)
      (hd : (Packet.mk .voteReq (h.node.currentTerm + 1) h.node.nodeId []).pack = some data)
      (ho : out = h.node.peers.items.map fun p => (data, Addr.loopback p.2))
  | reply (data : Bytes) (addr : Addr) (hc : c = .datagram data addr) (req : Packet)
      (hu : Packet.unpack data = some req) (hm : req.msgType = .voteReq)
      (ht : h'.node.currentTerm = req.term) (hv : h'.node.votedFor = some req.srcId)
      (resp : Bytes) (hr : (Packet.mk .voteResp req.term h.node.nodeId []).pack = some resp)
      (ho : out = [(resp, addr)])

theorem SendStep.silent {h h' : Host} {c : Cause} : SendStep h h' c [] :=
  .heartbeats (by simp)

theorem sendStep_heartbeat (h h' : Host) (c : Cause) :
    SendStep h h' c (h.node.broadcastHeartbeat.flatMap Effect.sent) := by
  rcases h.node.sent_broadcast ⟨.appendReq, h.node.currentTerm, h.node.nodeId, []⟩ with
    ho | ⟨data, hd, ho⟩
  · rw [RaftNode.broadcastHeartbeat, ho]
    exact .silent
  · rw [RaftNode.broadcastHeartbeat, ho]
    refine .heartbeats fun o hmem => ?_
    obtain ⟨p, _, rfl⟩ := List.mem_map.mp hmem
    exact ⟨_, Packet.unpack_pack hd, rfl⟩

/-- The answer to a vote request, if there is one. -/
theorem sendStep_voteRequest {h : Host} {data : Bytes} {addr : Addr} {req : Packet}
    (hu : Packet.unpack data = some req) (hm : req.msgType = .voteReq) :
    SendStep h (h.run (.datagram data addr)) (.datagram data addr)
      (((h.node.updated req).handleVoteRequest req addr).flatMap Effect.sent) := by
  rw [RaftNode.sent_handleVoteRequest]
  split
  · next hg =>
    have hid : (h.node.updated req).nodeId = h.node.nodeId := by
      unfold RaftNode.updated
      split <;> rfl
    have hrun : (h.run (.datagram data addr)).node =
        { h.node.updated req with votedFor := some req.srcId } := by
      rw [run_node]
      simp only [RaftNode.handler, RaftNode.datagramReceived, hu,
        RaftNode.applyAll_handleMessage, RaftNode.dispatch, hm,
        RaftNode.applyAll_handleVoteRequest, if_pos hg]
    have hterm : (h.node.updated req).currentTerm = req.term :=
      le_antisymm hg.1 (h.node.term_le_updated req)
    rcases (h.node.updated req).sent_sendPacket ⟨.voteResp, _, _, []⟩ addr with
      ho | ⟨resp, hr, ho⟩
    · rw [ho]
      exact .silent
    · rw [ho]
      refine .reply data addr rfl req hu hm ?_ ?_ resp ?_ rfl
      · rw [hrun]
        exact hterm
      · rw [hrun]
      · rw [← hterm, ← hid]
        exact hr
  · exact .silent

theorem sendStep_message {h : Host} {data : Bytes} {addr : Addr} {req : Packet}
    (hu : Packet.unpack data = some req) :
    SendStep h (h.run (.datagram data addr)) (.datagram data addr)
      ((h.node.handleMessage req addr).flatMap Effect.sent) := by
  rw [RaftNode.handleMessage, List.flatMap_append, RaftNode.sent_updateTerm, List.nil_append,
    RaftNode.applyAll_updateTerm]
  unfold RaftNode.dispatch
  cases hm : req.msgType with
  | voteReq => exact sendStep_voteRequest hu hm
  | voteResp =>
    dsimp only
    rw [RaftNode.sent_handleVoteResponse]
    exact .silent
  | appendReq =>
    dsimp only
    rw [RaftNode.sent_handleAppendEntries]
    exact .silent
  | appendResp => exact .silent

/-- Inversion of a completed handler with respect to the datagrams it sends. -/
theorem sendStep_run (h : Host) (c : Cause) : SendStep h (h.run c) c (h.sends c) := by
  unfold sends
  cases c with
  | tick expired =>
    by_cases hl : h.node.state = .leader
    · simp only [RaftNode.handler, RaftNode.runLoop, hl]
      exact sendStep_heartbeat _ _ _
    · have hloop : h.node.handler (.tick expired) =
          if expired then h.node.becomeCandidate else [] := by
        cases hs : h.node.state <;> simp_all [RaftNode.handler, RaftNode.runLoop]
      cases expired with
      | false =>
        rw [hloop, if_neg (by simp)]
        exact .silent
      | true =>
        rw [hloop, if_pos rfl, RaftNode.sent_becomeCandidate]
        rcases h.node.sent_broadcast ⟨.voteReq, h.node.currentTerm + 1, h.node.nodeId, []⟩ with
          ho | ⟨data, hd, ho⟩
        · rw [ho]
          exact .silent
        · refine .requests rfl ?_ data hd ho
          rw [run_node, hloop, if_pos rfl, RaftNode.applyAll_becomeCandidate]
  | datagram data addr =>
    simp only [RaftNode.handler, RaftNode.datagramReceived]
    split
    · exact .silent
    · next req hu => exact sendStep_message hu
  | heartbeat =>
    simp only [RaftNode.handler]
    split
    · exact sendStep_heartbeat _ _ _
    · exact .silent

/-! ## The term after a handler -/

/-- A cause that can raise the term: a packet of a higher term, or an election
timeout of a node that is not the leader. -/
def Outruns (n : RaftNode) (c : Cause) : Prop :=
  (c = .tick true ∧ n.state ≠ .leader) ∨ ∃ pkg, c.packet = some pkg ∧ n.currentTerm < pkg.term

/-- Where the handler of `c` leaves the term. -/
def termAfter (n : RaftNode) (c : Cause) : Int :=
  match c.packet with
  | some pkg => max n.currentTerm pkg.term
  | none => if c = .tick true ∧ n.state ≠ .leader then n.currentTerm + 1 else n.currentTerm

theorem term_updated (n : RaftNode) (pkg : Packet) :
    (n.updated pkg).currentTerm = max n.currentTerm pkg.term := by
  unfold RaftNode.updated
  split
  · next h => exact (max_eq_right h.le).symm
  · next h => exact (max_eq_left (not_lt.mp h)).symm

theorem term_dispatch {n n' : RaftNode} {pkg : Packet} (h : RaftNode.DispatchStep n pkg n') :
    n'.currentTerm = n.currentTerm := by
  cases h <;> rfl

theorem term_run (h : Host) (c : Cause) : (h.run c).node.currentTerm = termAfter h.node c := by
  rw [run_node, termAfter]
  have hstep := h.node.handler_step c
  generalize h.node.applyAll (h.node.handler c) = n' at hstep ⊢
  cases hstep with
  | candidacy hc hs =>
    have hp : c.packet = none := by rw [hc]; rfl
    rw [hp]
    exact (if_pos ⟨hc, hs⟩).symm
  | taskDone hc =>
    subst hc
    exact (if_neg fun h => by cases h.1).symm
  | message pkg hp hd =>
    rw [hp, term_dispatch hd]
    exact term_updated _ _
  | unchanged hp hc =>
    rw [hp]
    exact (if_neg hc).symm

/-- Only the causes of `Outruns` move the term, and they raise it. -/
theorem term_run_of_not_outruns {h : Host} {c : Cause} (ho : ¬ Outruns h.node c) :
    (h.run c).node.currentTerm = h.node.currentTerm := by
  obtain ⟨htick, hpkg⟩ := not_or.mp ho
  rw [term_run, termAfter]
  split
  · next pkg hp => exact max_eq_left (not_lt.mp fun hlt => hpkg ⟨pkg, hp, hlt⟩)
  · exact if_neg htick

theorem term_lt_run_of_outruns {h : Host} {c : Cause} (ho : Outruns h.node c) :
    h.node.currentTerm < (h.run c).node.currentTerm := by
  rw [term_run, termAfter]
  rcases ho with ⟨rfl, hs⟩ | ⟨pkg, hp, hlt⟩
  · have hc : (Cause.tick true).packet = none := rfl
    rw [hc]
    dsimp only
    rw [if_pos ⟨rfl, hs⟩]
    omega
  · rw [hp]
    exact lt_max_of_lt_right hlt

end Host

namespace RaftNode

/-! ## The packets a handler builds -/

/-- The packets a handler builds to send. -/
def built (n : RaftNode) : Cause → List Packet
  | .tick expired => match n.state with
    | .follower | .candidate =>
      if expired then [⟨.voteReq, n.currentTerm + 1, n.nodeId, []⟩] else []
    | .leader => [⟨.appendReq, n.currentTerm, n.nodeId, []⟩]
  | .datagram data _ => match Packet.unpack data with
    | none => []
    | some pkg =>
      if pkg.msgType = .voteReq ∧ (n.updated pkg).Grants pkg then
        [⟨.voteResp, (n.updated pkg).currentTerm, (n.updated pkg).nodeId, []⟩]
      else []
  | .heartbeat => if n.heartbeatTasks > 0 then [⟨.appendReq, n.currentTerm, n.nodeId, []⟩] else []

theorem sent_handleMessage (n : RaftNode) (pkg : Packet) (addr : Addr) :
    (n.handleMessage pkg addr).flatMap Effect.sent =
      if pkg.msgType = .voteReq ∧ (n.updated pkg).Grants pkg then
        ((n.updated pkg).sendPacket
          ⟨.voteResp, (n.updated pkg).currentTerm, (n.updated pkg).nodeId, []⟩ addr).flatMap
            Effect.sent
      else [] := by
  rw [handleMessage, List.flatMap_append, sent_updateTerm, List.nil_append, applyAll_updateTerm]
  unfold dispatch
  cases pkg.msgType with
  | voteReq =>
    dsimp only
    rw [sent_handleVoteRequest]
    simp only [true_and]
  | voteResp =>
    dsimp only
    rw [sent_handleVoteResponse, if_neg fun h => MessageType.noConfusion h.1]
  | appendReq =>
    dsimp only
    rw [sent_handleAppendEntries, if_neg fun h => MessageType.noConfusion h.1]
  | appendResp =>
    rw [if_neg fun h => MessageType.noConfusion h.1]
    rfl

theorem mem_sent_broadcast {n : RaftNode} {pkt : Packet} {o : Outgoing}
    (h : o ∈ (n.broadcast pkt).flatMap Effect.sent) : pkt.pack = some o.1 := by
  rcases n.sent_broadcast pkt with hnil | ⟨data, hd, heq⟩
  · rw [hnil] at h
    cases h
  · rw [heq] at h
    obtain ⟨p, _, rfl⟩ := List.mem_map.mp h
    exact hd

theorem mem_sent_sendPacket {n : RaftNode} {pkt : Packet} {addr : Addr} {o : Outgoing}
    (h : o ∈ (n.sendPacket pkt addr).flatMap Effect.sent) : pkt.pack = some o.1 := by
  rcases n.sent_sendPacket pkt addr with hnil | ⟨data, hd, heq⟩
  · rw [hnil] at h
    cases h
  · rw [heq, List.mem_singleton] at h
    rw [h]
    exact hd

/-- Every datagram that leaves a node is the encoding of a packet it built. -/
theorem mem_sent_handler {n : RaftNode} {c : Cause} {o : Outgoing}
    (h : o ∈ (n.handler c).flatMap Effect.sent) : ∃ pkt ∈ n.built c, pkt.pack = some o.1 := by
  cases c with
  | tick expired =>
    simp only [handler, runLoop] at h
    cases hs : n.state with
    | leader =>
      rw [hs] at h
      exact ⟨_, by simp only [built, hs, List.mem_singleton], mem_sent_broadcast h⟩
    | follower | candidate =>
      rw [hs] at h
      cases expired with
      | false => cases h
      | true =>
        dsimp only at h
        rw [if_pos rfl, sent_becomeCandidate] at h
        exact ⟨_, by simp only [built, hs, if_true, List.mem_singleton], mem_sent_broadcast h⟩
  | datagram data addr =>
    simp only [handler, datagramReceived] at h
    cases hu : Packet.unpack data with
    | none =>
      rw [hu] at h
      cases h
    | some pkg =>
      rw [hu] at h
      dsimp only at h
      rw [sent_handleMessage] at h
      split at h
      · next hg =>
        exact ⟨_, by simp only [built, hu, if_pos hg, List.mem_singleton], mem_sent_sendPacket h⟩
      · cases h
  | heartbeat =>
    simp only [handler] at h
    split at h
    · next ht =>
      exact ⟨_, by simp only [built, if_pos ht, List.mem_singleton], mem_sent_broadcast h⟩
    · cases h

theorem built_term {n : RaftNode} {c : Cause} {pkt : Packet} (h : pkt ∈ n.built c) :
    pkt.srcId = n.nodeId ∧ pkt.payload = [] ∧
      (pkt.term = n.currentTerm ∨ pkt.term = Host.termAfter n c) := by
  cases c with
  | tick expired =>
    cases hs : n.state <;> cases expired <;> simp [RaftNode.built, hs] at h <;> subst h <;>
      simp [Host.termAfter, Cause.packet, hs]
  | datagram data addr =>
    simp only [RaftNode.built] at h
    cases hu : Packet.unpack data with
    | none => simp [hu] at h
    | some pkg =>
      rw [hu] at h
      dsimp only at h
      split at h
      · obtain rfl := List.mem_singleton.mp h
        refine ⟨?_, rfl, Or.inr ?_⟩
        · simp only [RaftNode.updated]
          split <;> rfl
        · simp only [Host.term_updated, Host.termAfter, Cause.packet, hu]
      · cases h
  | heartbeat =>
    simp only [RaftNode.built] at h
    split at h
    · obtain rfl := List.mem_singleton.mp h
      exact ⟨rfl, rfl, Or.inl rfl⟩
    · cases h

/-- A heartbeat is built by a leader in `run_loop` or by a pending task, and it
carries the current term. -/
theorem built_appendReq {n : RaftNode} {c : Cause} {pkt : Packet} (h : pkt ∈ n.built c)
    (hm : pkt.msgType = .appendReq) : pkt.term = n.currentTerm ∧
      (n.state = .leader ∨ (c = .heartbeat ∧ 0 < n.heartbeatTasks)) := by
  cases c with
  | tick expired =>
    simp only [built] at h
    cases hs : n.state with
    | leader =>
      rw [hs] at h
      obtain rfl := List.mem_singleton.mp h
      exact ⟨rfl, Or.inl rfl⟩
    | follower | candidate =>
      rw [hs] at h
      cases expired with
      | false => cases h
      | true =>
        obtain rfl := List.mem_singleton.mp h
        cases hm
  | datagram data addr =>
    simp only [built] at h
    split at h
    · cases h
    · split at h
      · obtain rfl := List.mem_singleton.mp h
        cases hm
      · cases h
  | heartbeat =>
    simp only [built] at h
    split at h
    · next ht =>
      obtain rfl := List.mem_singleton.mp h
      exact ⟨rfl, Or.inr ⟨rfl, ht⟩⟩
    · cases h

end RaftNode

end PythonPortfolio.Helix
