import PythonPortfolio.Library.Runs
import PythonPortfolio.Helix.Handlers

/-!
# Votes and terms across crashes

Here a node takes its effects one at a time, and a crash may fall between any two
of them: between two assignments, between the temporary file and the rename,
between the rename and the send, between two sends of one broadcast. What
survives a crash is the ballot on disk. Every handler is careful: a rename only
moves that ballot forward, and a datagram is handed to the transport only when
the ballot it speaks for is on disk. All three guarantees about the packets of a
run follow from these two facts.
-/

namespace PythonPortfolio.Helix

open Library Library.BigEndian

/-- A process in the middle of a handler: the effects still to come, and the
cause being handled. -/
structure Process where
  host : Host
  todo : List Effect
  cause : Option Cause

inductive Move where
  | wake (c : Cause)
  | exec
  | crash

/-- One node, started from any disk. A crash drops the memory and the effects
still to come; the restarted process reads its state with `load_state`. -/
def crashMachine (nodeId : Int) (peers : Dict Int Int) : Machine Process Move where
  start p := ∃ d, p = ⟨Host.boot nodeId peers d, [], none⟩
  step
    | p, .wake c => match p.todo with
      | [] => some ⟨p.host, p.host.node.handler c, some c⟩
      | _ :: _ => none
    | p, .exec => match p.todo with
      | [] => none
      | e :: es => some ⟨p.host.apply e, es, p.cause⟩
    | p, .crash => some ⟨p.host.restart, [], none⟩

abbrev MicroStep := Transition Process Move

/-- The datagrams handed to the transport in one transition. -/
def MicroStep.sent (t : MicroStep) : List Outgoing :=
  match t.event, t.pre.todo with
  | .exec, e :: _ => e.sent
  | _, _ => []

/-- The packets handed to the transport, in order. -/
def sentPackets (trace : List MicroStep) : List Packet :=
  trace.flatMap fun t => t.sent.filterMap fun o => Packet.unpack o.1

/-- The transition sends a `VOTE_RESP` of term `T` in answer to a packet whose
`src_id` is `c`. -/
def Answers (t : MicroStep) (T c : Int) : Prop :=
  ∃ o ∈ t.sent, ∃ pkt, Packet.unpack o.1 = some pkt ∧ pkt.msgType = .voteResp ∧ pkt.term = T ∧
    ∃ req, t.pre.cause.bind Cause.packet = some req ∧ req.srcId = c

/-- The transition sends a `VOTE_REQ` of term `T`. -/
def Asks (t : MicroStep) (T : Int) : Prop :=
  ∃ o ∈ t.sent, ∃ pkt, Packet.unpack o.1 = some pkt ∧ pkt.msgType = .voteReq ∧ pkt.term = T

/-- Executing every effect of a handler is the uninterrupted call. -/
theorem exec_uninterrupted (nodeId : Int) (peers : Dict Int Int) (p : Process) :
    ∃ trace, (crashMachine nodeId peers).exec p (List.replicate p.todo.length .exec) =
      some (trace, ⟨p.host.applyAll p.todo, [], p.cause⟩) := by
  obtain ⟨h, todo, cause⟩ := p
  induction todo generalizing h with
  | nil => exact ⟨[], rfl⟩
  | cons e es ih =>
    obtain ⟨trace, htr⟩ := ih (h.apply e)
    refine ⟨⟨⟨h, e :: es, cause⟩, .exec, ⟨h.apply e, es, cause⟩⟩ :: trace, ?_⟩
    change (do
      let (trace, last) ← (crashMachine nodeId peers).exec ⟨h.apply e, es, cause⟩
        (List.replicate es.length .exec)
      pure ((⟨⟨h, e :: es, cause⟩, .exec, ⟨h.apply e, es, cause⟩⟩ : MicroStep) :: trace, last)) = _
    rw [htr]
    rfl

/-- What a datagram may say while the disk holds the ballot `b`. -/
def Speaks (self : Int) (cause : Option Cause) (b : Ballot Int Int) (o : Outgoing) : Prop :=
  ∃ pkt, Packet.unpack o.1 = some pkt ∧ pkt.term = b.term ∧
    (pkt.msgType = .voteReq → b.vote = some self) ∧
    (pkt.msgType = .voteResp →
      ∃ req, cause.bind Cause.packet = some req ∧ b.vote = some req.srcId)

/-- Every effect of the list, in its turn, keeps the order of ballots on disk and
says only what the disk already holds. -/
def Careful (self : Int) (cause : Option Cause) : Disk → List Effect → Prop
  | _, [] => True
  | d, e :: es => d.loadState ≤ (d.apply e).loadState ∧
      (∀ o ∈ e.sent, Speaks self cause d.loadState o) ∧ Careful self cause (d.apply e) es

section Careful

variable {self : Int} {cause : Option Cause}

theorem careful_append {d : Disk} {es fs : List Effect} (he : Careful self cause d es)
    (hf : Careful self cause (d.applyAll es) fs) : Careful self cause d (es ++ fs) := by
  induction es generalizing d with
  | nil => exact hf
  | cons e es ih => exact ⟨he.1, he.2.1, ih he.2.2 hf⟩

/-- Assignments and task creation concern memory only. -/
theorem careful_assign {d : Disk} {es : List Effect}
    (h : ∀ e ∈ es, d.apply e = d ∧ e.sent = []) : Careful self cause d es := by
  induction es with
  | nil => trivial
  | cons e es ih =>
    obtain ⟨hd, hs⟩ := h e (by simp)
    refine ⟨by rw [hd], by simp [hs], ?_⟩
    rw [hd]
    exact ih fun f hf => h f (by simp [hf])

theorem careful_saveState {d : Disk} {term : Int} {vote : Option Int}
    (h : d.loadState ≤ ⟨term, vote⟩) : Careful self cause d (RaftNode.saveState term vote) :=
  ⟨le_refl _, by simp [Effect.sent], le_refl _, by simp [Effect.sent], h, by simp [Effect.sent],
    trivial⟩

theorem careful_broadcast {d : Disk} {n : RaftNode} {pkt : Packet}
    (h : ∀ data addr, pkt.pack = some data → Speaks self cause d.loadState (data, addr)) :
    Careful self cause d (n.broadcast pkt) := by
  unfold RaftNode.broadcast
  split
  · exact careful_assign (by simp [Disk.apply, Effect.sent])
  · next data hd =>
    split
    · induction n.peers.items with
      | nil => trivial
      | cons p ps ih =>
        refine ⟨le_refl _, ?_, ih⟩
        intro o ho
        rw [Effect.sent, List.mem_singleton] at ho
        subst ho
        exact h data _ hd
    · trivial

theorem careful_sendPacket {d : Disk} {n : RaftNode} {pkt : Packet} {addr : Addr}
    (h : ∀ data, pkt.pack = some data → Speaks self cause d.loadState (data, addr)) :
    Careful self cause d (n.sendPacket pkt addr) := by
  unfold RaftNode.sendPacket
  split
  · split
    · exact careful_assign (by simp [Disk.apply, Effect.sent])
    · next data hd =>
      refine ⟨le_refl _, ?_, trivial⟩
      intro o ho
      rw [Effect.sent, List.mem_singleton] at ho
      subst ho
      exact h data hd
  · trivial

end Careful

theorem careful_broadcastHeartbeat {self : Int} {cause : Option Cause} {n : RaftNode} {d : Disk}
    (hd : d.loadState = n.ballot) : Careful self cause d n.broadcastHeartbeat := by
  refine careful_broadcast fun data addr hp => ?_
  refine ⟨_, Packet.unpack_pack hp, ?_, nofun, nofun⟩
  rw [hd]
  rfl

theorem careful_becomeCandidate {cause : Option Cause} {n : RaftNode} {d : Disk}
    (hd : d.loadState = n.ballot) : Careful n.nodeId cause d n.becomeCandidate := by
  unfold RaftNode.becomeCandidate
  refine careful_append (careful_append (careful_assign (by simp [Disk.apply, Effect.sent])) ?_) ?_
  · refine careful_saveState ?_
    change d.loadState ≤ _
    rw [hd]
    exact n.ballot_le_candidacy
  · refine careful_broadcast fun data addr hp => ?_
    exact ⟨_, Packet.unpack_pack hp, rfl, fun _ => rfl, fun hresp => by cases hresp⟩

theorem careful_updateTerm {self : Int} {cause : Option Cause} {n : RaftNode} {d : Disk}
    (hd : d.loadState = n.ballot) (pkg : Packet) :
    Careful self cause d (n.updateTerm pkg) := by
  unfold RaftNode.updateTerm
  split
  · next h =>
    refine careful_append (careful_assign (by simp [Disk.apply, Effect.sent])) ?_
    refine careful_saveState ?_
    change d.loadState ≤ _
    rw [hd]
    exact Or.inl h
  · trivial

theorem careful_handleVoteRequest {self : Int} {c : Cause} {n : RaftNode} {d : Disk}
    {pkg : Packet} (hd : d.loadState = n.ballot) (hc : c.packet = some pkg) (addr : Addr) :
    Careful self (some c) d (n.handleVoteRequest pkg addr) := by
  unfold RaftNode.handleVoteRequest
  split
  · next hg =>
    refine careful_append (careful_append
      (careful_assign (by simp [Disk.apply, Effect.sent])) ?_) ?_
    · refine careful_saveState ?_
      change d.loadState ≤ _
      rw [hd]
      exact Or.inr ⟨rfl, hg.2⟩
    · refine careful_sendPacket fun data hp => ?_
      exact ⟨_, Packet.unpack_pack hp, rfl, fun hreq => (by cases hreq), fun _ => ⟨pkg, hc, rfl⟩⟩
  · trivial

/-- Every handler, begun with memory and disk in agreement, is careful. -/
theorem careful_handler {h : Host} (hs : h.Settled) (c : Cause) :
    Careful h.node.nodeId (some c) h.disk (h.node.handler c) := by
  cases c with
  | tick expired =>
    simp only [RaftNode.handler, RaftNode.runLoop]
    cases h.node.state with
    | follower | candidate =>
      dsimp only
      split
      · exact careful_becomeCandidate hs
      · trivial
    | leader => exact careful_broadcastHeartbeat hs
  | datagram data addr =>
    simp only [RaftNode.handler, RaftNode.datagramReceived]
    split
    · trivial
    · next pkg hp =>
      refine careful_append (careful_updateTerm hs pkg) ?_
      have hu : (h.disk.applyAll (h.node.updateTerm pkg)).loadState =
          (h.node.applyAll (h.node.updateTerm pkg)).ballot := Host.settled_updateTerm hs pkg
      generalize h.disk.applyAll (h.node.updateTerm pkg) = d at hu
      generalize h.node.applyAll (h.node.updateTerm pkg) = n at hu
      unfold RaftNode.dispatch
      cases pkg.msgType with
      | voteReq => exact careful_handleVoteRequest (c := .datagram data addr) hu hp addr
      | voteResp =>
        refine careful_assign fun e he => ?_
        rcases RaftNode.mem_handleVoteResponse he with ⟨_, rfl⟩ | rfl | rfl | rfl <;>
          exact ⟨rfl, rfl⟩
      | appendReq =>
        refine careful_assign fun e he => ?_
        rcases RaftNode.mem_handleAppendEntries he with rfl | rfl <;> exact ⟨rfl, rfl⟩
      | appendResp => trivial
  | heartbeat =>
    simp only [RaftNode.handler]
    split
    · exact ⟨le_refl _, by simp [Effect.sent], careful_broadcastHeartbeat hs⟩
    · trivial

/-- The invariant of a process: the effects still to come are careful, and at
their end memory and disk agree. -/
structure Sound (nodeId : Int) (p : Process) : Prop where
  self : p.host.node.nodeId = nodeId
  careful : Careful nodeId p.cause p.host.disk p.todo
  settles : (p.host.applyAll p.todo).Settled

theorem sound_boot (nodeId : Int) (peers : Dict Int Int) (d : Disk) (cause : Option Cause) :
    Sound nodeId ⟨Host.boot nodeId peers d, [], cause⟩ :=
  ⟨rfl, trivial, Host.settled_boot nodeId peers d⟩

section Crashes

variable {nodeId : Int} {peers : Dict Int Int}

/-- A move keeps the invariant and never moves the ballot on disk back. -/
theorem sound_step {p p' : Process} {m : Move} (hp : Sound nodeId p)
    (h : (crashMachine nodeId peers).step p m = some p') :
    Sound nodeId p' ∧ p.host.disk.loadState ≤ p'.host.disk.loadState := by
  obtain ⟨host, todo, cause⟩ := p
  cases m with
  | wake c =>
    cases todo with
    | nil =>
      obtain rfl : ⟨host, host.node.handler c, some c⟩ = p' := Option.some.inj h
      have hself : host.node.nodeId = nodeId := hp.self
      have hsettled : host.Settled := hp.settles
      exact ⟨⟨hself, hself ▸ careful_handler hsettled c, Host.settled_run hsettled c⟩, le_refl _⟩
    | cons e es => cases h
  | exec =>
    cases todo with
    | nil => cases h
    | cons e es =>
      obtain rfl : ⟨host.apply e, es, cause⟩ = p' := Option.some.inj h
      have hself := (host.node.sameConfig_apply e).nodeId
      exact ⟨⟨hself.trans hp.self, hp.careful.2.2, hp.settles⟩, hp.careful.1⟩
  | crash =>
    obtain rfl : ⟨host.restart, [], none⟩ = p' := Option.some.inj h
    have hself : host.node.nodeId = nodeId := hp.self
    exact ⟨hself ▸ sound_boot host.node.nodeId _ _ _, le_refl _⟩

variable {p₀ p : Process} {trace : List MicroStep}

theorem sound_run (h : (crashMachine nodeId peers).Run p₀ trace p) : Sound nodeId p := by
  refine h.state_invariant ?_ fun _ _ _ hp hs => (sound_step hp hs).1
  rintro _ ⟨d, rfl⟩
  exact sound_boot nodeId peers d none

/-- Whatever a transition of a run sends, the disk holds it before and after. -/
theorem speaks_of_sent (h : (crashMachine nodeId peers).Run p₀ trace p) {t : MicroStep}
    (ht : t ∈ trace) {o : Outgoing} (ho : o ∈ t.sent) :
    Speaks nodeId t.pre.cause t.post.host.disk.loadState o := by
  obtain ⟨before, after, rfl⟩ := List.append_of_mem ht
  obtain ⟨hrun, hstep⟩ := h.split
  have hsound := sound_run hrun
  obtain ⟨⟨host, todo, cause⟩, m, post⟩ := t
  cases m with
  | wake c => cases ho
  | crash => cases ho
  | exec =>
    cases todo with
    | nil => cases ho
    | cons e es =>
      obtain rfl : ⟨host.apply e, es, cause⟩ = post := Option.some.inj hstep
      have hdisk : host.disk.apply e = host.disk := by
        cases e <;> first | rfl | cases ho
      change Speaks nodeId cause (host.disk.apply e).loadState o
      rw [hdisk]
      exact hsound.careful.2.1 o ho

theorem disk_le_step (trace : List MicroStep) (p : Process) (m : Move) (p' : Process)
    (h : (crashMachine nodeId peers).Run p₀ trace p)
    (hs : (crashMachine nodeId peers).step p m = some p') :
    p.host.disk.loadState ≤ p'.host.disk.loadState :=
  (sound_step (sound_run h) hs).2

/-- An answer sent in term `T` to `c` is on disk as the vote for `c`. -/
theorem voted_of_answers (h : (crashMachine nodeId peers).Run p₀ trace p) {t : MicroStep}
    (ht : t ∈ trace) {T c : Int} (ha : Answers t T c) :
    t.post.host.disk.loadState = ⟨T, some c⟩ := by
  obtain ⟨o, ho, pkt, hpkt, hkind, rfl, req, hreq, rfl⟩ := ha
  obtain ⟨pkt', hpkt', hterm, _, hresp⟩ := speaks_of_sent h ht ho
  obtain rfl : pkt = pkt' := Option.some.inj (hpkt.symm.trans hpkt')
  obtain ⟨req', hreq', hvote⟩ := hresp hkind
  obtain rfl : req = req' := Option.some.inj (hreq.symm.trans hreq')
  rw [hterm, ← hvote]

/-- A request sent in term `T` is on disk as the node's vote for itself. -/
theorem voted_of_asks (h : (crashMachine nodeId peers).Run p₀ trace p) {t : MicroStep}
    (ht : t ∈ trace) {T : Int} (ha : Asks t T) :
    t.post.host.disk.loadState = ⟨T, some nodeId⟩ := by
  obtain ⟨o, ho, pkt, hpkt, hkind, rfl⟩ := ha
  obtain ⟨pkt', hpkt', hterm, hreq, _⟩ := speaks_of_sent h ht ho
  obtain rfl : pkt = pkt' := Option.some.inj (hpkt.symm.trans hpkt')
  rw [hterm, ← hreq hkind]

/-- The disk never names two candidates for one term, at any two moments. -/
theorem disk_vote_unique (h : (crashMachine nodeId peers).Run p₀ trace p) {t u : MicroStep}
    (ht : t ∈ trace) (hu : u ∈ trace) {T c c' : Int}
    (hc : t.post.host.disk.loadState = ⟨T, some c⟩)
    (hc' : u.post.host.disk.loadState = ⟨T, some c'⟩) : c = c' := by
  have hcmp := h.comparable (f := fun p => p.host.disk.loadState) disk_le_step ht hu
  refine Ballot.vote_unique hcmp ?_ (congrArg Ballot.vote hc) (congrArg Ballot.vote hc')
  rw [hc, hc']

theorem sent_terms_sorted (h : (crashMachine nodeId peers).Run p₀ trace p) :
    (sentPackets trace).Pairwise fun x y => x.term ≤ y.term := by
  have hterm : ∀ t ∈ trace, ∀ x ∈ t.sent.filterMap fun o => Packet.unpack o.1,
      x.term = t.post.host.disk.loadState.term := by
    intro t ht x hx
    obtain ⟨o, ho, hox⟩ := List.mem_filterMap.mp hx
    obtain ⟨y, hoy, hy, _⟩ := speaks_of_sent h ht ho
    obtain rfl : x = y := Option.some.inj (hox.symm.trans hoy)
    exact hy
  refine List.pairwise_flatMap.mpr ⟨fun t ht => ?_, ?_⟩
  · refine List.pairwise_of_forall_mem_list fun x hx y hy => ?_
    rw [hterm t ht x hx, hterm t ht y hy]
  · refine (h.pairwise_le (f := fun p => p.host.disk.loadState) disk_le_step).imp_of_mem ?_
    intro t u ht hu hle x hx y hy
    rw [hterm t ht x hx, hterm u hu y hy]
    exact Ballot.term_le hle

/-- Over any number of crashes the terms a node speaks in never decrease, in one
term it answers the requests of one candidate only, and it answers nobody but
itself in a term it stands in. -/
theorem crash_safe (h : (crashMachine nodeId peers).Run p₀ trace p) :
    ((sentPackets trace).Pairwise fun x y => x.term ≤ y.term) ∧
    (∀ t ∈ trace, ∀ u ∈ trace, ∀ T c c', Answers t T c → Answers u T c' → c = c') ∧
    ∀ t ∈ trace, ∀ u ∈ trace, ∀ T c, Answers t T c → Asks u T → c = nodeId :=
  ⟨sent_terms_sorted h,
    fun _ ht _ hu _ _ _ ha hb =>
      disk_vote_unique h ht hu (voted_of_answers h ht ha) (voted_of_answers h hu hb),
    fun _ ht _ hu _ _ ha hb =>
      disk_vote_unique h ht hu (voted_of_answers h ht ha) (voted_of_asks h hu hb)⟩

end Crashes

/-- `VOTE_REQ` of term 1 from node `i`. -/
def requestOf (i : UInt8) : Cause :=
  .datagram [0x48, 0x58, 1, 0, 0, 0, 0, 0, 0, 0, 1, 0, 0, 0, i, 0, 0, 0, 0] (.loopback 9002)

/-- Node 2 asks, the node dies between the temporary file and the rename, node 2
asks again and is answered, the node dies once more, node 3 asks in vain. -/
def interrupted : List Move :=
  .wake (requestOf 2) :: List.replicate 6 .exec ++ [.crash, .wake (requestOf 2)] ++
    List.replicate 12 .exec ++ [.crash, .wake (requestOf 3)]

theorem crash_safe_interrupted : ∃ trace p,
    (crashMachine 1 .empty).Run (⟨Host.boot 1 .empty .fresh, [], none⟩) trace p ∧
    sentPackets trace = [⟨.voteResp, 1, 1, []⟩] ∧ p.todo = [] ∧
    ∀ t ∈ trace, ∀ u ∈ trace, ∀ T c c', Answers t T c → Answers u T c' → c = c' := by
  have hexec : ∃ trace p, (crashMachine 1 .empty).exec ⟨Host.boot 1 .empty .fresh, [], none⟩
      interrupted = some (trace, p) ∧ sentPackets trace = [⟨.voteResp, 1, 1, []⟩] ∧ p.todo = [] :=
    ⟨_, _, rfl, by decide, rfl⟩
  obtain ⟨trace, p, hexec, hsent, htodo⟩ := hexec
  have hstart : (crashMachine 1 .empty).start ⟨Host.boot 1 .empty .fresh, [], none⟩ :=
    ⟨Disk.fresh, rfl⟩
  have hrun := Machine.exec_run hstart hexec
  exact ⟨trace, p, hrun, hsent, htodo, (crash_safe hrun).2.1⟩

end PythonPortfolio.Helix
