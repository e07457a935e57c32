import Mathlib.Data.Rat.Defs
import Mathlib.Tactic.Linarith
import PythonPortfolio.Helix.Agreement

/-!
# Election timers

`election_deadline` is set to 1.5 to 3 seconds from now whenever a node starts, stands,
sees a higher term, grants a vote or accepts a heartbeat, and `run_loop` compares it with
the clock. Here the cluster is given a clock and the deadlines, and the outcome of that
comparison is no longer free. Readings of the clock are exact and never step back.
-/

namespace PythonPortfolio.Helix

open Library Library.BigEndian

/-- `handle_message` calls `reset_election_timer`. -/
def RaftNode.messageResets (n : RaftNode) (pkg : Packet) : Bool :=
  pkg.term > n.currentTerm ||
    match pkg.msgType with
    | .voteReq => (n.updated pkg).Grants pkg
    | .appendReq => pkg.term ≥ (n.updated pkg).currentTerm
    | .voteResp | .appendResp => false

/-- A handler calls `reset_election_timer`. -/
def RaftNode.resets (n : RaftNode) : Cause → Bool
  | .tick expired => expired && n.state ≠ .leader
  | .datagram data _ =>
    match Packet.unpack data with
    | none => false
    | some pkg => n.messageResets pkg
  | .heartbeat => false

/-- A cluster with the time and the `election_deadline` of each node, in seconds. -/
structure TimedWorld where
  world : World
  now : Rat
  deadline : Int → Rat

/-- Time passes, or something happens; `timeout` is what `random.uniform(1.5, 3.0)` draws
for a timer that is reset. -/
inductive TimedEvent where
  | wait (delay : Rat)
  | act (e : ClusterEvent) (timeout : Rat)

namespace Cluster

variable (C : Cluster)

/-- The timer of node `j` is reset: by a handler, or when the node starts again. -/
def resets (w : World) (e : ClusterEvent) (j : Int) : Bool :=
  match e, C.cause w e with
  | .crash i, _ => i = j
  | _, some (i, c) => i = j && (w.hosts i).node.resets c
  | _, none => false

/-- An iteration of `run_loop` finds its deadline passed exactly if it is. -/
def punctual (s : TimedWorld) : ClusterEvent → Bool
  | .tick i expired => expired = decide (s.now > s.deadline i)
  | _ => true

def timedStep (s : TimedWorld) : TimedEvent → Option TimedWorld
  | .wait delay => if 0 ≤ delay then some { s with now := s.now + delay } else none
  | .act e timeout =>
    if punctual s e ∧ 3 / 2 ≤ timeout ∧ timeout ≤ 3 then
      (C.step s.world e).map fun w =>
        ⟨w, s.now, fun j => if C.resets s.world e j then s.now + timeout else s.deadline j⟩
    else none

/-- The nodes are started at time zero. -/
def timedMachine : Machine TimedWorld TimedEvent where
  start s := s.world = C.genesis ∧ s.now = 0 ∧ ∀ j, 3 / 2 ≤ s.deadline j ∧ s.deadline j ≤ 3
  step := C.timedStep

end Cluster

abbrev TimedStep := Transition TimedWorld TimedEvent

namespace TimedStep

/-- The timer of node `j` is reset in this transition. -/
def Resets (C : Cluster) (t : TimedStep) (j : Int) : Prop :=
  ∃ e timeout, t.event = .act e timeout ∧ C.resets t.pre.world e j = true

/-- Node `i` starts an election. -/
def Campaigns (t : TimedStep) (i : Int) : Prop :=
  ∃ timeout, t.event = .act (.tick i true) timeout ∧
    (t.pre.world.hosts i).node.state ≠ .leader

/-- A heartbeat of term `T` reaches node `j`, whose term is not above it. -/
def Feeds (C : Cluster) (t : TimedStep) (j T : Int) : Prop :=
  ∃ k timeout data addr pkg, t.event = .act (.deliver k) timeout ∧
    C.cause t.pre.world (.deliver k) = some (j, .datagram data addr) ∧
    Packet.unpack data = some pkg ∧ pkg.msgType = .appendReq ∧ pkg.term = T ∧
    (t.pre.world.hosts j).node.currentTerm ≤ T

end TimedStep

namespace Cluster

variable {C : Cluster} {s s' : TimedWorld} {e : ClusterEvent} {timeout : Rat}
  {trace : List TimedStep}

theorem timedStep_act (h : C.timedStep s (.act e timeout) = some s') :
    C.step s.world e = some s'.world ∧ punctual s e = true ∧ 3 / 2 ≤ timeout ∧
      s'.now = s.now ∧
      s'.deadline = fun j => if C.resets s.world e j then s.now + timeout else s.deadline j := by
  obtain ⟨⟨hp, hlow, _⟩, heq⟩ := Option.ite_none_right_eq_some.mp h
  obtain ⟨w, hw, rfl⟩ := Option.map_eq_some_iff.mp heq
  exact ⟨hw, hp, hlow, rfl, rfl⟩

theorem timedStep_wait {delay : Rat} (h : C.timedStep s (.wait delay) = some s') :
    0 ≤ delay ∧ s' = { s with now := s.now + delay } := by
  obtain ⟨hle, heq⟩ := Option.ite_none_right_eq_some.mp h
  exact ⟨hle, (Option.some.inj heq).symm⟩

/-- No timer runs out within a second and a half of its last reset. -/
structure Patient (C : Cluster) (trace : List TimedStep) (s : TimedWorld) : Prop where
  past : ∀ u ∈ trace, u.pre.now ≤ s.now
  start : ∀ j, 3 / 2 ≤ s.deadline j
  reset : ∀ u ∈ trace, ∀ j, u.Resets C j → u.pre.now + 3 / 2 ≤ s.deadline j

theorem patient_step {e : TimedEvent} (h : Patient C trace s) (h0 : 0 ≤ s.now)
    (hs : C.timedStep s e = some s') : Patient C (trace ++ [⟨s, e, s'⟩]) s' := by
  cases e with
  | wait delay =>
    obtain ⟨hle, rfl⟩ := timedStep_wait hs
    refine ⟨fun u hu => ?_, h.start, fun u hu j hr => ?_⟩
    · rcases mem_concat.mp hu with hu | rfl
      · have := h.past u hu
        dsimp only
        linarith
      · dsimp only
        linarith
    · rcases mem_concat.mp hu with hu | rfl
      · exact h.reset u hu j hr
      · obtain ⟨_, _, hev, _⟩ := hr
        cases hev
  | act e timeout =>
    obtain ⟨_, _, hlow, hnow, hdeadline⟩ := timedStep_act hs
    refine ⟨fun u hu => ?_, fun j => ?_, fun u hu j hr => ?_⟩
    · rw [hnow]
      rcases mem_concat.mp hu with hu | rfl
      · exact h.past u hu
      · exact le_refl _
    · rw [hdeadline]
      dsimp only
      split
      · linarith
      · exact h.start j
    · rw [hdeadline]
      dsimp only
      rcases mem_concat.mp hu with hu | rfl
      · split
        · have := h.past u hu
          linarith
        · exact h.reset u hu j hr
      · obtain ⟨e', timeout', hev, hreset⟩ := hr
        obtain ⟨rfl, rfl⟩ := TimedEvent.act.inj hev
        rw [if_pos hreset]
        linarith

theorem patient_run {s₀ : TimedWorld} (h : C.timedMachine.Run s₀ trace s) :
    Patient C trace s ∧ 0 ≤ s.now := by
  induction h with
  | init hstart => exact ⟨⟨by simp, fun j => (hstart.2.2 j).1, by simp⟩, hstart.2.1.ge⟩
  | @next trace s s' e _ hs ih =>
    refine ⟨patient_step ih.1 ih.2 hs, ?_⟩
    cases e with
    | wait delay =>
      obtain ⟨hle, rfl⟩ := timedStep_wait (C := C) hs
      have := ih.2
      dsimp only
      linarith
    | act e timeout =>
      rw [(timedStep_act (C := C) hs).2.2.2.1]
      exact ih.2

/-- A node starts an election only when it has neither started, stood, seen a higher term,
granted a vote nor accepted a heartbeat within the last second and a half. -/
theorem elections_patient {s₀ : TimedWorld} (h : C.timedMachine.Run s₀ trace s)
    {before after : List TimedStep} {t : TimedStep} {i : Int} (htr : trace = before ++ t :: after)
    (ht : t.Campaigns i) :
    3 / 2 < t.pre.now ∧ ∀ u ∈ before, u.Resets C i → u.pre.now + 3 / 2 < t.pre.now := by
  subst htr
  obtain ⟨hrun, hs⟩ := h.split
  obtain ⟨hpatient, _⟩ := patient_run hrun
  obtain ⟨timeout, hev, _⟩ := ht
  rw [hev] at hs
  have hpunctual := (timedStep_act hs).2.1
  have hpassed : t.pre.deadline i < t.pre.now := by simpa [punctual] using hpunctual
  refine ⟨(hpatient.start i).trans_lt hpassed, fun u hu hr => ?_⟩
  exact (hpatient.reset u hu i hr).trans_lt hpassed

/-- The cluster of three at time zero. -/
def threeAtStart : TimedWorld := ⟨threeCluster.genesis, 0, fun _ => 3 / 2⟩

theorem threeAtStart_start : threeCluster.timedMachine.start threeAtStart :=
  ⟨rfl, rfl, fun _ => ⟨le_refl _, by norm_num [threeAtStart]⟩⟩

theorem elections_patient_three : ∃ (a b : TimedStep) (s : TimedWorld),
    threeCluster.timedMachine.Run threeAtStart [a, b] s ∧ b.Campaigns 1 ∧ 3 / 2 < b.pre.now := by
  have hexec : ∃ (a b : TimedStep) (s : TimedWorld), threeCluster.timedMachine.exec threeAtStart
      [.wait 2, .act (.tick 1 true) 2] = some ([a, b], s) ∧ b.Campaigns 1 :=
    ⟨_, _, _, by with_unfolding_all rfl, ⟨2, rfl, by decide⟩⟩
  obtain ⟨a, b, s, hexec, hcamp⟩ := hexec
  have hrun := Machine.exec_run (M := threeCluster.timedMachine) threeAtStart_start hexec
  have hsplit : [a, b] = [a] ++ b :: [] := rfl
  exact ⟨a, b, s, hrun, hcamp, (elections_patient hrun hsplit hcamp).1⟩

/-! ## A leader that is heard -/

/-- Node `L` leads term `T`, all others follow, and nothing in flight challenges it. -/
structure Calm (C : Cluster) (L T : Int) (w : World) : Prop where
  leads : (w.hosts L).node.state = .leader ∧ (w.hosts L).node.currentTerm = T
  others : ∀ j ∈ C.ids, j ≠ L → (w.hosts j).node.state = .follower ∧
    (w.hosts j).node.currentTerm ≤ T ∧ (w.hosts j).node.heartbeatTasks = 0
  flight : ∀ d ∈ w.network, ∀ p, Packet.unpack d.data = some p →
    p.term ≤ T ∧ (p.msgType = .appendReq → p.term = T → d.dst ≠ C.address L)

theorem run_leader {h : Host} {c : Cause} (hs : h.node.state = .leader)
    (hp : ∀ pkg, c.packet = some pkg → pkg.term ≤ h.node.currentTerm ∧
      (pkg.msgType = .appendReq → pkg.term ≠ h.node.currentTerm)) :
    (h.run c).node.state = .leader ∧ (h.run c).node.currentTerm = h.node.currentTerm := by
  rw [Host.run_node]
  have hstep := h.node.handler_step c
  generalize h.node.applyAll (h.node.handler c) = n' at hstep ⊢
  cases hstep with
  | candidacy _ hne => exact absurd hs hne
  | taskDone | unchanged => exact ⟨hs, rfl⟩
  | message pkg hpkg hd =>
    obtain ⟨hle, happend⟩ := hp pkg hpkg
    have hsame : h.node.updated pkg = h.node := if_neg (not_lt.mpr hle)
    rw [hsame] at hd
    cases hd with
    | voted | unchanged => exact ⟨hs, rfl⟩
    | counted _ hc | elected _ hc =>
      rw [hs] at hc
      cases hc
    | followed hm hge => exact absurd (le_antisymm hle hge) (happend hm)

theorem run_follower {h : Host} {c : Cause} {T : Int} (hs : h.node.state = .follower)
    (hT : h.node.currentTerm ≤ T) (htasks : h.node.heartbeatTasks = 0) (hc : c ≠ .tick true)
    (hp : ∀ pkg, c.packet = some pkg → pkg.term ≤ T) :
    (h.run c).node.state = .follower ∧ (h.run c).node.currentTerm ≤ T ∧
      (h.run c).node.heartbeatTasks = 0 := by
  rw [Host.run_node]
  have hstep := h.node.handler_step c
  generalize h.node.applyAll (h.node.handler c) = n' at hstep ⊢
  cases hstep with
  | candidacy htick => exact absurd htick hc
  | taskDone _ hpos => omega
  | unchanged => exact ⟨hs, hT, htasks⟩
  | message pkg hpkg hd =>
    obtain ⟨hs', hT', htasks'⟩ : (h.node.updated pkg).state = .follower ∧
        (h.node.updated pkg).currentTerm ≤ T ∧ (h.node.updated pkg).heartbeatTasks = 0 := by
      unfold RaftNode.updated
      split
      · exact ⟨rfl, hp pkg hpkg, htasks⟩
      · exact ⟨hs, hT, htasks⟩
    cases hd with
    | voted | unchanged => exact ⟨hs', hT', htasks'⟩
    | followed => exact ⟨rfl, hT', htasks'⟩
    | counted _ hcand | elected _ hcand =>
      rw [hs'] at hcand
      cases hcand

/-- Heartbeats go to peers. -/
theorem heartbeat_dst {h : Host} {c : Cause} {o : Outgoing} {p : Packet} (ho : o ∈ h.sends c)
    (hp : Packet.unpack o.1 = some p) (hm : p.msgType = .appendReq) :
    ∃ q ∈ h.node.peers.items, o.2 = .loopback q.2 := by
  have hbroadcast : o ∈ h.node.broadcastHeartbeat.flatMap Effect.sent →
      ∃ q ∈ h.node.peers.items, o.2 = .loopback q.2 := by
    intro hmem
    rcases h.node.sent_broadcast ⟨.appendReq, h.node.currentTerm, h.node.nodeId, []⟩ with
      hnil | ⟨data, _, heq⟩
    · rw [RaftNode.broadcastHeartbeat, hnil] at hmem
      cases hmem
    · rw [RaftNode.broadcastHeartbeat, heq] at hmem
      obtain ⟨q, hq, rfl⟩ := List.mem_map.mp hmem
      exact ⟨q, hq, rfl⟩
  obtain ⟨pkt, hb, hpack⟩ := RaftNode.mem_sent_handler ho
  obtain rfl : p = pkt := Option.some.inj (hp.symm.trans (Packet.unpack_pack hpack))
  unfold Host.sends at ho
  cases c with
  | tick expired =>
    cases hs : h.node.state with
    | leader => exact hbroadcast (by simpa [RaftNode.handler, RaftNode.runLoop, hs] using ho)
    | follower | candidate =>
      rcases (RaftNode.built_appendReq hb hm).2 with hl | ⟨hc, _⟩
      · rw [hs] at hl
        cases hl
      · cases hc
  | datagram data addr =>
    simp only [RaftNode.built] at hb
    split at hb
    · cases hb
    · split at hb
      · obtain rfl := List.mem_singleton.mp hb
        cases hm
      · cases hb
  | heartbeat =>
    refine hbroadcast ?_
    simp only [RaftNode.handler] at ho
    split at ho
    · simpa [Effect.sent] using ho
    · cases ho

variable {w w' : World} {L T : Int}

/-- An event that is no crash leaves a node alone or has it handle its cause. -/
theorem hosts_of_live (hs : C.step w e = some w') (he : ∀ i, e ≠ .crash i) (j : Int) :
    w'.hosts j = w.hosts j ∨
      ∃ c, j ∈ C.ids ∧ C.cause w e = some (j, c) ∧ w'.hosts j = (w.hosts j).run c := by
  cases hostStep_step hs j with
  | idle _ h => exact .inl h
  | acts c hj hc h => exact .inr ⟨c, hj, hc, h⟩
  | restarts hc h =>
    left
    cases e with
    | crash i => exact absurd rfl (he i)
    | tick i expired | heartbeat i =>
      obtain ⟨hi, heq⟩ := Option.ite_none_right_eq_some.mp hs
      cases heq
      exact hosts_act_of_ne (fun hj => hc _ (by rw [hj]; rfl)) w _
    | lose k =>
      obtain ⟨_, heq⟩ := Option.ite_none_right_eq_some.mp hs
      cases heq
      rfl
    | deliver k =>
      simp only [step] at hs
      split at hs
      · cases hs
      · next d hk =>
        split at hs
        · cases hs
          rfl
        · next i ho =>
          cases hs
          exact hosts_act_of_ne
            (fun hj => hc (.datagram d.data d.src) (by rw [hj]; simp [cause, hk, ho])) _ _

/-- A packet that reaches a node of a calm cluster. -/
theorem Calm.packet (h : Calm C L T w) {i : Int} {c : Cause} (hc : C.cause w e = some (i, c))
    {pkg : Packet} (hp : c.packet = some pkg) :
    pkg.term ≤ T ∧ (i = L → pkg.msgType = .appendReq → pkg.term ≠ T) := by
  obtain ⟨d, hd, hdst, hu⟩ := mem_network_of_cause hc hp
  obtain ⟨hle, hother⟩ := h.flight d hd pkg hu
  exact ⟨hle, fun hi hm hT => hother hm hT (hi ▸ hdst)⟩

/-- The nodes of a calm cluster after an event that is no crash and starts no election. -/
theorem Calm.hosts (h : Calm C L T w) (hs : C.step w e = some w') (he : ∀ i, e ≠ .crash i)
    (htick : ∀ j ∈ C.ids, j ≠ L → e ≠ .tick j true) :
    ((w'.hosts L).node.state = .leader ∧ (w'.hosts L).node.currentTerm = T) ∧
      ∀ j ∈ C.ids, j ≠ L → (w'.hosts j).node.state = .follower ∧
        (w'.hosts j).node.currentTerm ≤ T ∧ (w'.hosts j).node.heartbeatTasks = 0 := by
  constructor
  · rcases hosts_of_live hs he L with hsame | ⟨c, _, hc, hrun⟩
    · rw [hsame]
      exact h.leads
    · obtain ⟨hl, hterm⟩ := h.leads
      rw [hrun, ← hterm]
      refine run_leader hl fun pkg hp => ?_
      rw [hterm]
      exact ⟨(h.packet hc hp).1, (h.packet hc hp).2 rfl⟩
  · intro j hj hne
    obtain ⟨hf, hT, htasks⟩ := h.others j hj hne
    rcases hosts_of_live hs he j with hsame | ⟨c, _, hc, hrun⟩
    · rw [hsame]
      exact ⟨hf, hT, htasks⟩
    · rw [hrun]
      refine run_follower hf hT htasks (fun hct => ?_) fun pkg hp => (h.packet hc hp).1
      rw [hct] at hc
      exact htick j hj hne (event_of_cause_tick hc)

/-- What a calm cluster sends does not disturb it. -/
theorem Calm.sent (h : Calm C L T w) (hL : L ∈ C.ids)
    (hpeers : ∀ i, (w.hosts i).node.peers = C.peers i) (hs : C.step w e = some w')
    (he : ∀ i, e ≠ .crash i) (htick : ∀ j ∈ C.ids, j ≠ L → e ≠ .tick j true)
    {d : Datagram} (hd : d ∈ w'.network)
    {p : Packet} (hp : Packet.unpack d.data = some p) :
    p.term ≤ T ∧ (p.msgType = .appendReq → p.term = T → d.dst ≠ C.address L) := by
  rcases mem_network_step hs hd with hold | ⟨i, c, hc, hnew⟩
  · exact h.flight d hold p hp
  · obtain ⟨hleads, hothers⟩ := h.hosts hs he htick
    obtain ⟨hi, hrun⟩ := mem_ids_of_cause hs hc
    have hterm : (w.hosts i).node.currentTerm ≤ T ∧ (w'.hosts i).node.currentTerm ≤ T := by
      by_cases hiL : i = L
      · rw [hiL]
        exact ⟨h.leads.2.le, hleads.2.le⟩
      · exact ⟨(h.others i hi hiL).2.1, (hothers i hi hiL).2.1⟩
    obtain ⟨o, ho, rfl⟩ := List.mem_map.mp hnew
    obtain ⟨pkt, hb, hpack⟩ := RaftNode.mem_sent_handler ho
    obtain rfl : p = pkt := Option.some.inj (hp.symm.trans (Packet.unpack_pack hpack))
    refine ⟨?_, fun hm _ => ?_⟩
    · rcases (RaftNode.built_term hb).2.2 with ht | ht
      · rw [ht]
        exact hterm.1
      · rw [ht, ← Host.term_run, ← hrun]
        exact hterm.2
    · -- only the leader sends heartbeats, and none to itself
      obtain rfl : i = L := by
        by_contra hne
        obtain ⟨hf, _, htasks⟩ := h.others i hi hne
        rcases (RaftNode.built_appendReq hb hm).2 with hl | ⟨_, hpos⟩
        · rw [hf] at hl
          cases hl
        · omega
      obtain ⟨q, hq, hdst⟩ := heartbeat_dst ho hp hm
      rw [hpeers i] at hq
      obtain ⟨hqids, hqne, _⟩ := (C.mem_peers i hi q).mp hq
      intro hself
      have haddr : C.address q.1 = C.address i := by
        rw [← address_of_mem_peers hi hq, ← hdst]
        exact hself
      exact hqne (address_inj hqids hi haddr)

theorem Calm.step (h : Calm C L T w) (hL : L ∈ C.ids)
    (hpeers : ∀ i, (w.hosts i).node.peers = C.peers i) (hset : ∀ i, (w.hosts i).Settled)
    (hs : C.step w e = some w') (hcrash : e ≠ .crash L)
    (htick : ∀ j ∈ C.ids, j ≠ L → e ≠ .tick j true) : Calm C L T w' := by
  by_cases he : ∃ i, e = .crash i
  · obtain ⟨i, rfl⟩ := he
    have hne : L ≠ i := fun heq => hcrash (by rw [heq])
    obtain ⟨_, heq⟩ := Option.ite_none_right_eq_some.mp hs
    obtain rfl := Option.some.inj heq
    refine ⟨by simpa [World.crash, hne] using h.leads, fun j hj hjL => ?_, h.flight⟩
    by_cases hji : j = i
    · subst hji
      have hterm : ((w.hosts j).restart).node.currentTerm = (w.hosts j).node.currentTerm :=
        congrArg Ballot.term (hset j)
      simp only [World.crash, Function.update_self]
      exact ⟨rfl, hterm.trans_le (h.others j hj hjL).2.1, rfl⟩
    · simpa [World.crash, hji] using h.others j hj hjL
  · have he' : ∀ i, e ≠ .crash i := fun i hi => he ⟨i, hi⟩
    obtain ⟨hleads, hothers⟩ := h.hosts hs he' htick
    exact ⟨hleads, hothers, fun d hd p hp => h.sent hL hpeers hs he' htick hd hp⟩

/-- Whenever `run_loop` of a node other than `L` runs, a heartbeat of term `T` has reached
the node within the last second and a half. -/
def Fed (C : Cluster) (L T : Int) (before : List TimedStep) : List TimedStep → Prop :=
  Throughout fun past t => ∀ j ∈ C.ids, j ≠ L → ∀ expired timeout,
    t.event = .act (.tick j expired) timeout →
      ∃ u ∈ before ++ past, u.Feeds C j T ∧ t.pre.now ≤ u.pre.now + 3 / 2

end Cluster

/-- A second later the others look at their timers, and the leader sends the next
heartbeats. -/
def settled : List TimedEvent :=
  [.wait 1, .act (.tick 2 false) 2, .act (.tick 3 false) 2, .act (.tick 1 false) 2]

end PythonPortfolio.Helix
