import PythonPortfolio.Library.Runs
import PythonPortfolio.Helix.Handlers

/-!
# Terms at the edge of their field

A term travels in an eight-byte field, while `current_term` is an unbounded
integer. A node takes terms over from packets, which keeps them in range, and
counts one up at each election timeout, which does not: at `2 ** 64 - 1` the vote
request cannot be packed, `struct.error` leaves `become_candidate`, and the task
of `run_loop` ends with it. This is the only way to it.
-/

namespace PythonPortfolio.Helix

open Library Library.BigEndian

/-- A node together with the task of its `run_loop`. -/
structure RunningNode where
  host : Host
  loopAlive : Bool

/-- An exception in an iteration of `run_loop` ends its task; one in a datagram
callback or in a heartbeat task ends only that call. -/
def RunningNode.step (p : RunningNode) (c : Cause) : Option RunningNode :=
  match c with
  | .tick _ =>
    if p.loopAlive then some ⟨p.host.run c, .structError ∉ p.host.node.handler c⟩ else none
  | _ => some ⟨p.host.run c, p.loopAlive⟩

/-- A node started with a term and an id that fit their fields. -/
def runningMachine (nodeId : Int) (peers : Dict Int Int) : Machine RunningNode Cause where
  start p := ∃ d, FitsUInt 8 d.loadState.term ∧ FitsUInt 4 nodeId ∧
    p = ⟨Host.boot nodeId peers d, true⟩
  step := RunningNode.step

abbrev RunningStep := Transition RunningNode Cause

/-- Every packet built has a term below `2 ** 64` and packs, and `run_loop` lives on. -/
structure RunningStep.Speaks (t : RunningStep) : Prop where
  terms : ∀ pkt ∈ t.pre.host.node.built t.event, pkt.term < 2 ^ 64
  packs : .structError ∉ t.pre.host.node.handler t.event
  loop : t.post.loopAlive = true

/-- The election timer runs out while the term is the largest that can be sent. -/
def RunningStep.AtLimit (t : RunningStep) : Prop :=
  t.event = .tick true ∧ t.pre.host.node.state ≠ .leader ∧
    t.pre.host.node.currentTerm = 2 ^ 64 - 1

theorem structError_mem_broadcast {n : RaftNode} {pkt : Packet} :
    Effect.structError ∈ n.broadcast pkt ↔ pkt.pack = none := by
  unfold RaftNode.broadcast
  cases pkt.pack with
  | none => simp
  | some data =>
    dsimp only
    split <;> simp

theorem structError_mem_sendPacket {n : RaftNode} (ht : n.transport = true) {pkt : Packet}
    {addr : Addr} : Effect.structError ∈ n.sendPacket pkt addr ↔ pkt.pack = none := by
  unfold RaftNode.sendPacket
  rw [if_pos ht]
  cases pkt.pack <;> simp

theorem structError_not_mem_saveState (term : Int) (vote : Option Int) :
    Effect.structError ∉ RaftNode.saveState term vote := by
  simp [RaftNode.saveState]

theorem structError_mem_becomeCandidate {n : RaftNode} :
    Effect.structError ∈ n.becomeCandidate ↔
      (Packet.mk .voteReq (n.currentTerm + 1) n.nodeId []).pack = none := by
  simp [RaftNode.becomeCandidate, structError_mem_broadcast, structError_not_mem_saveState]

theorem structError_not_mem_updateTerm (n : RaftNode) (pkg : Packet) :
    Effect.structError ∉ n.updateTerm pkg := by
  unfold RaftNode.updateTerm
  split <;> simp [structError_not_mem_saveState]

theorem structError_mem_handleVoteRequest {n : RaftNode} (ht : n.transport = true) {pkg : Packet}
    {addr : Addr} : Effect.structError ∈ n.handleVoteRequest pkg addr ↔
      n.Grants pkg ∧ (Packet.mk .voteResp n.currentTerm n.nodeId []).pack = none := by
  unfold RaftNode.handleVoteRequest
  split
  · next hg =>
    simp [structError_mem_sendPacket ht, structError_not_mem_saveState, hg]
  · next hg => simp [hg]

theorem structError_not_mem_handleVoteResponse (n : RaftNode) (pkg : Packet) :
    Effect.structError ∉ n.handleVoteResponse pkg := by
  intro h
  rcases RaftNode.mem_handleVoteResponse h with ⟨_, he⟩ | he | he | he <;> cases he

theorem structError_not_mem_handleAppendEntries (n : RaftNode) (pkg : Packet) :
    Effect.structError ∉ n.handleAppendEntries pkg := by
  intro h
  rcases RaftNode.mem_handleAppendEntries h with he | he <;> cases he

/-- A handler raises exactly when a packet it builds does not pack. -/
theorem structError_mem_handler {n : RaftNode} (ht : n.transport = true) (c : Cause) :
    Effect.structError ∈ n.handler c ↔ ∃ pkt ∈ n.built c, pkt.pack = none := by
  cases c with
  | tick expired =>
    cases hs : n.state <;> cases expired <;>
      simp [RaftNode.handler, RaftNode.runLoop, RaftNode.built, hs, RaftNode.broadcastHeartbeat,
        structError_mem_broadcast, structError_mem_becomeCandidate]
  | datagram data addr =>
    simp only [RaftNode.handler, RaftNode.datagramReceived, RaftNode.built]
    cases hu : Packet.unpack data with
    | none => simp
    | some pkg =>
      have htu : (n.updated pkg).transport = true := by
        unfold RaftNode.updated
        split <;> exact ht
      simp only [RaftNode.handleMessage, List.mem_append, structError_not_mem_updateTerm,
        false_or, RaftNode.applyAll_updateTerm, RaftNode.dispatch]
      cases hm : pkg.msgType with
      | voteReq =>
        dsimp only
        rw [structError_mem_handleVoteRequest htu]
        by_cases hg : (n.updated pkg).Grants pkg
        · simp [hg]
        · simp [hg]
      | voteResp => simp [structError_not_mem_handleVoteResponse]
      | appendReq => simp [structError_not_mem_handleAppendEntries]
      | appendResp => simp
  | heartbeat =>
    simp only [RaftNode.handler, RaftNode.built]
    split
    · simp [RaftNode.broadcastHeartbeat, structError_mem_broadcast]
    · simp

theorem pack_empty_eq_none {m : MessageType} {term srcId : Int} (hs : FitsUInt 4 srcId) :
    (Packet.mk m term srcId []).pack = none ↔ ¬ FitsUInt 8 term := by
  constructor
  · intro hn hf
    have hlen : FitsUInt 4 (([] : Bytes).length : Int) := by decide
    have hsome : ∃ data, (Packet.mk m term srcId []).pack = some data :=
      ⟨_, Packet.pack_eq_some.mpr ⟨hf, hs, hlen, rfl⟩⟩
    rw [hn] at hsome
    obtain ⟨_, hsome⟩ := hsome
    cases hsome
  · intro hf
    cases hp : (Packet.mk m term srcId []).pack with
    | none => rfl
    | some data => exact absurd (Packet.pack_eq_some.mp hp).1 hf

/-- A term that `unpack` delivers fits its field. -/
theorem term_fits_of_unpack {data : Bytes} {pkg : Packet} (h : Packet.unpack data = some pkg) :
    FitsUInt 8 pkg.term := by
  obtain ⟨_, _, hp, _⟩ := Packet.pack_of_unpack h
  exact (Packet.pack_eq_some.mp hp).1

/-- What holds between two events as long as the limit has not been hit. -/
structure InRange (p : RunningNode) : Prop where
  term : FitsUInt 8 p.host.node.currentTerm
  nodeId : FitsUInt 4 p.host.node.nodeId
  transport : p.host.node.transport = true
  loop : p.loopAlive = true

theorem packet_fits {c : Cause} {pkg : Packet} (h : c.packet = some pkg) :
    FitsUInt 8 pkg.term := by
  cases c with
  | datagram data addr => exact term_fits_of_unpack h
  | tick expired => cases h
  | heartbeat => cases h

/-- Short of the limit, the term stays within its field. -/
theorem termAfter_fits {n : RaftNode} {c : Cause} (h : FitsUInt 8 n.currentTerm)
    (hl : ¬ (c = .tick true ∧ n.state ≠ .leader ∧ n.currentTerm = 2 ^ 64 - 1)) :
    FitsUInt 8 (Host.termAfter n c) := by
  unfold Host.termAfter
  split
  · next pkg hp =>
    rcases max_choice n.currentTerm pkg.term with hm | hm
    · rw [hm]
      exact h
    · rw [hm]
      exact packet_fits hp
  · split
    · next hc =>
      have hne : n.currentTerm ≠ 2 ^ 64 - 1 := fun he => hl ⟨hc.1, hc.2, he⟩
      obtain ⟨h0, hlt⟩ := h
      constructor <;> omega
    · exact h

theorem inRange_start {nodeId : Int} {peers : Dict Int Int} {p : RunningNode}
    (h : (runningMachine nodeId peers).start p) : InRange p := by
  obtain ⟨d, hterm, hid, rfl⟩ := h
  exact ⟨hterm, hid, rfl, rfl⟩

/-- One event that does not hit the limit: the node speaks, and stays in range. -/
theorem inRange_step {p p' : RunningNode} {c : Cause} (hr : InRange p) (hs : p.step c = some p')
    (hl : ¬ RunningStep.AtLimit ⟨p, c, p'⟩) : RunningStep.Speaks ⟨p, c, p'⟩ ∧ InRange p' := by
  have hafter : FitsUInt 8 (Host.termAfter p.host.node c) := termAfter_fits hr.term hl
  have hfits : ∀ pkt ∈ p.host.node.built c, FitsUInt 8 pkt.term := by
    intro pkt hpkt
    rcases (RaftNode.built_term hpkt).2.2 with ht | ht
    · rw [ht]
      exact hr.term
    · rw [ht]
      exact hafter
  have hpacks : Effect.structError ∉ p.host.node.handler c := by
    rw [structError_mem_handler hr.transport]
    intro hx
    obtain ⟨pkt, hpkt, hnone⟩ := hx
    obtain ⟨hid, hpay, _⟩ := RaftNode.built_term hpkt
    obtain ⟨m, term, srcId, payload⟩ := pkt
    dsimp only at hid hpay
    subst hid hpay
    exact (pack_empty_eq_none hr.nodeId).mp hnone (hfits _ hpkt)
  have hpost : p'.host = p.host.run c ∧ p'.loopAlive = true := by
    cases c with
    | tick expired =>
      simp only [RunningNode.step, hr.loop, if_true, Option.some.injEq] at hs
      subst hs
      exact ⟨rfl, decide_eq_true hpacks⟩
    | datagram data addr =>
      obtain rfl := Option.some.inj hs
      exact ⟨rfl, hr.loop⟩
    | heartbeat =>
      obtain rfl := Option.some.inj hs
      exact ⟨rfl, hr.loop⟩
  have hcfg := p.host.run_config c
  refine ⟨⟨fun pkt hpkt => ?_, hpacks, hpost.2⟩, ?_⟩
  · have := (hfits pkt hpkt).2
    omega
  · constructor
    · rw [hpost.1, Host.term_run]
      exact hafter
    · rw [hpost.1, hcfg.nodeId]
      exact hr.nodeId
    · rw [hpost.1, hcfg.transport]
      exact hr.transport
    · exact hpost.2

theorem inRange_run {nodeId : Int} {peers : Dict Int Int} {p₀ p : RunningNode}
    {trace : List RunningStep} (hrun : (runningMachine nodeId peers).Run p₀ trace p)
    (hl : ∀ t ∈ trace, ¬ t.AtLimit) : (∀ t ∈ trace, t.Speaks) ∧ InRange p := by
  induction hrun with
  | init h => exact ⟨by simp, inRange_start h⟩
  | next _ hs ih =>
    obtain ⟨hspeaks, hr⟩ := ih fun t ht => hl t (List.mem_append_left _ ht)
    obtain ⟨hlast, hr'⟩ := inRange_step hr hs (hl _ (by simp))
    refine ⟨fun t ht => ?_, hr'⟩
    rcases mem_concat.mp ht with ht | rfl
    · exact hspeaks t ht
    · exact hlast

/-- At the limit the vote request has the term `2 ** 64`. -/
theorem not_speaks_of_atLimit {t : RunningStep} (h : t.AtLimit) : ¬ t.Speaks := by
  obtain ⟨p, c, p'⟩ := t
  obtain ⟨rfl, hs, hterm⟩ := h
  dsimp only at hs hterm
  intro hsp
  have hlt := hsp.terms ⟨.voteReq, p.host.node.currentTerm + 1, p.host.node.nodeId, []⟩ (by
    cases hst : p.host.node.state with
    | leader => exact absurd hst hs
    | follower | candidate => simp [RaftNode.built, hst])
  dsimp only at hlt
  omega

/-- In every run of a node, all packets it builds have a term below `2 ** 64`, no
`pack` raises and `run_loop` stays alive, if and only if the election timer never
runs out at the term `2 ** 64 - 1`. -/
theorem speaks_iff {nodeId : Int} {peers : Dict Int Int} {p₀ p : RunningNode}
    {trace : List RunningStep} (hrun : (runningMachine nodeId peers).Run p₀ trace p) :
    (∀ t ∈ trace, t.Speaks) ↔ ∀ t ∈ trace, ¬ t.AtLimit :=
  ⟨fun h t ht hl => not_speaks_of_atLimit hl (h t ht), fun h => (inRange_run hrun h).1⟩

/-- `APPEND_REQ` of term `2 ** 64 - 1` from node 2. -/
def lastTerm : Bytes :=
  [0x48, 0x58, 3, 255, 255, 255, 255, 255, 255, 255, 255, 0, 0, 0, 2, 0, 0, 0, 0]

/-- Node 1 with one peer and no state file. -/
def freshRunning : RunningNode := ⟨Host.boot 1 ⟨[(2, 9002)], by decide⟩ .fresh, true⟩

theorem start_freshRunning :
    (runningMachine 1 ⟨[(2, 9002)], by decide⟩).start freshRunning :=
  ⟨.fresh, by decide, by decide, rfl⟩

/-- The transition a cause makes while the loop is alive. -/
def RunningNode.move (p : RunningNode) (c : Cause) : RunningStep := ⟨p, c, (p.step c).getD p⟩

theorem speaks_timeout : (freshRunning.move (.tick true)).Speaks := by
  have hrun : (runningMachine 1 ⟨[(2, 9002)], by decide⟩).Run freshRunning
      ([] ++ [freshRunning.move (.tick true)]) (freshRunning.move (.tick true)).post :=
    .next (.init start_freshRunning) rfl
  refine (speaks_iff hrun).mpr (fun t ht hl => ?_) _ (List.mem_singleton_self _)
  obtain rfl := List.mem_singleton.mp ht
  exact absurd hl.2.2 (by decide)

/-- A packet of the last term and then a timeout. -/
theorem timeout_at_last_term : ¬ ∀ (nodeId : Int) (peers : Dict Int Int) (p₀ p : RunningNode)
    (trace : List RunningStep), (runningMachine nodeId peers).Run p₀ trace p →
      ∀ t ∈ trace, t.Speaks := by
  intro hall
  have hrun : (runningMachine 1 ⟨[(2, 9002)], by decide⟩).Run freshRunning
      ([freshRunning.move (.datagram lastTerm (.loopback 9002))] ++
        [(freshRunning.move (.datagram lastTerm (.loopback 9002))).post.move (.tick true)])
      ((freshRunning.move (.datagram lastTerm (.loopback 9002))).post.move (.tick true)).post :=
    .next (.next (.init start_freshRunning) rfl) rfl
  have hlast := hall _ _ _ _ _ hrun _ (List.mem_append_right _ (List.mem_singleton_self _))
  exact not_speaks_of_atLimit ⟨rfl, by decide, by decide⟩ hlast

end PythonPortfolio.Helix
