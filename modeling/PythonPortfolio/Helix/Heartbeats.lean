import Mathlib.Data.List.DropRight
import PythonPortfolio.Helix.Election

/-!
# Who sends heartbeats, and of which term

`_handle_vote_response` creates the task of the first heartbeat, and the task
reads `current_term` when it runs. Between the two the node may handle a packet
of a higher term or start a candidacy; the heartbeat then carries a term the node
was never elected in. The heartbeats of `run_loop` are sent by a leader in its own
term. So the only heartbeats at fault are those of a task that has been outrun.
-/

namespace PythonPortfolio.Helix

open Library Library.BigEndian

namespace Host

/-- A new heartbeat task is created only by the reply that elects the node. -/
theorem heartbeatTasks_run {h : Host} {c : Cause} (ht : 0 < (h.run c).node.heartbeatTasks) :
    0 < h.node.heartbeatTasks ∨ (h.node.state ≠ .leader ∧ (h.run c).node.state = .leader) := by
  rw [run_node] at ht ⊢
  have hstep := h.node.handler_step c
  generalize h.node.applyAll (h.node.handler c) = n' at hstep ht ⊢
  cases hstep with
  | candidacy | unchanged => exact Or.inl ht
  | taskDone _ htask => exact Or.inl htask
  | message pkg _ hd =>
    have hkeep : (h.node.updated pkg).heartbeatTasks = h.node.heartbeatTasks := by
      unfold RaftNode.updated
      split <;> rfl
    cases hd with
    | voted | counted | followed | unchanged => exact Or.inl (hkeep ▸ ht)
    | elected _ hs =>
      right
      refine ⟨fun hl => ?_, rfl⟩
      unfold RaftNode.updated at hs
      split at hs
      · cases hs
      · cases hl.symm.trans hs

/-- A node that a handler leaves as the leader is in the term it was in. -/
theorem term_run_of_leader {h : Host} {c : Cause} (hl : (h.run c).node.state = .leader) :
    (h.run c).node.currentTerm = h.node.currentTerm := by
  cases h.roleStep_run c with
  | follower hf => cases hl.symm.trans hf
  | candidacy _ _ hn =>
    rw [hn] at hl
    cases hl
  | counting _ _ ht | elected _ _ ht | reigning _ _ ht => exact ht

end Host

/-- The node an event wakes up, and what it wakes it with. -/
def Cluster.cause (C : Cluster) (w : World) : ClusterEvent → Option (Int × Cause)
  | .tick i expired => some (i, .tick expired)
  | .heartbeat i => some (i, .heartbeat)
  | .deliver k => match w.network[k]? with
    | none => none
    | some d => (C.owner d.dst).map fun i => (i, .datagram d.data d.src)
  | .lose _ | .crash _ => none

namespace WorldStep

/-- In this transition node `i` sends the packet `pkt`. -/
def Sends (C : Cluster) (t : WorldStep) (i : Int) (pkt : Packet) : Prop :=
  ∃ c, C.cause t.pre t.event = some (i, c) ∧
    ∃ o ∈ (t.pre.hosts i).sends c, Packet.unpack o.1 = some pkt

/-- Node `i` enters `LEADER`. -/
def Enthrones (t : WorldStep) (i : Int) : Prop :=
  (t.pre.hosts i).node.state ≠ .leader ∧ (t.post.hosts i).node.state = .leader

instance (t : WorldStep) (i : Int) : Decidable (t.Enthrones i) :=
  inferInstanceAs (Decidable (_ ∧ _))

/-- Node `i` handles a packet of a higher term or starts a candidacy. -/
def Outruns (C : Cluster) (t : WorldStep) (i : Int) : Prop :=
  ∃ c, C.cause t.pre t.event = some (i, c) ∧ Host.Outruns (t.pre.hosts i).node c

/-- A heartbeat task of node `i` is run, and its packet can be packed and sent. -/
def RunsTask (C : Cluster) (t : WorldStep) (i : Int) : Prop :=
  i ∈ C.ids ∧ t.event = .heartbeat i ∧ 0 < (t.pre.hosts i).node.heartbeatTasks ∧
    (C.peers i).items ≠ [] ∧
    ∃ data, (Packet.mk .appendReq (t.pre.hosts i).node.currentTerm i []).pack = some data

theorem elects_iff {t : WorldStep} {i T : Int} :
    t.Elects i T ↔ t.Enthrones i ∧ (t.post.hosts i).node.currentTerm = T := by
  unfold Elects Enthrones
  rw [and_assoc]

end WorldStep

/-- The transitions since node `i` last entered `LEADER`. -/
def sinceLeader (i : Int) (trace : List WorldStep) : List WorldStep :=
  trace.rtakeWhile fun t => decide (¬ t.Enthrones i)

theorem sinceLeader_concat {i : Int} {trace : List WorldStep} {t : WorldStep}
    (h : ¬ t.Enthrones i) : sinceLeader i (trace ++ [t]) = sinceLeader i trace ++ [t] :=
  List.rtakeWhile_concat_pos _ _ _ (by simpa using h)

theorem sinceLeader_enthrones {i : Int} {trace : List WorldStep} {t : WorldStep}
    (h : t.Enthrones i) : sinceLeader i (trace ++ [t]) = [] :=
  List.rtakeWhile_concat_neg _ _ _ (by simpa using h)

namespace Cluster

variable {C : Cluster} {w w' : World} {e : ClusterEvent} {trace : List WorldStep} {i : Int}

/-- What a transition does to one node: it handles its cause, or it restarts, or
nothing happens to it. -/
inductive HostStep (C : Cluster) (w w' : World) (e : ClusterEvent) (i : Int) : Prop
  | acts (c : Cause) (hi : i ∈ C.ids) (hc : C.cause w e = some (i, c))
      (h : w'.hosts i = (w.hosts i).run c)
  | idle (hc : ∀ c, C.cause w e ≠ some (i, c)) (h : w'.hosts i = w.hosts i)
  | restarts (hc : ∀ c, C.cause w e ≠ some (i, c)) (h : w'.hosts i = (w.hosts i).restart)

theorem hostStep_act {j : Int} {c : Cause} (w₁ : World) (hw : w₁.hosts = w.hosts) (hj : j ∈ C.ids)
    (hc : C.cause w e = some (j, c)) (i : Int) : HostStep C w (C.act w₁ j c) e i := by
  by_cases hij : i = j
  · subst hij
    exact .acts c hj hc (by rw [hosts_act_self, hw])
  · refine .idle (fun c' hc' => hij ?_) (by rw [hosts_act_of_ne hij, hw])
    rw [hc] at hc'
    exact (congrArg Prod.fst (Option.some.inj hc')).symm

theorem hostStep_step (hs : C.step w e = some w') (i : Int) : HostStep C w w' e i := by
  cases e with
  | tick j expired =>
    obtain ⟨hj, heq⟩ := Option.ite_none_right_eq_some.mp hs
    cases heq
    exact hostStep_act w rfl hj rfl i
  | heartbeat j =>
    obtain ⟨hj, heq⟩ := Option.ite_none_right_eq_some.mp hs
    cases heq
    exact hostStep_act w rfl hj rfl i
  | deliver k =>
    simp only [step] at hs
    cases hk : w.network[k]? with
    | none =>
      rw [hk] at hs
      cases hs
    | some d =>
      rw [hk] at hs
      dsimp only at hs
      cases ho : C.owner d.dst with
      | none =>
        rw [ho] at hs
        cases hs
        exact .idle (fun c hc => by simp [cause, hk, ho] at hc) rfl
      | some j =>
        rw [ho] at hs
        cases hs
        have hc : C.cause w (.deliver k) = some (j, .datagram d.data d.src) := by
          simp [cause, hk, ho]
        exact hostStep_act (w := w) (w.drop k) rfl (owner_eq_some ho).1 hc i
  | lose k =>
    obtain ⟨_, heq⟩ := Option.ite_none_right_eq_some.mp hs
    cases heq
    exact .idle (fun c hc => by cases hc) rfl
  | crash j =>
    obtain ⟨_, heq⟩ := Option.ite_none_right_eq_some.mp hs
    cases heq
    by_cases hij : i = j
    · subst hij
      exact .restarts (fun c hc => by cases hc) (by simp [World.crash])
    · exact .idle (fun c hc => by cases hc) (by simp [World.crash, hij])

/-- What the history says about the reigns of node `i`. -/
structure Reign (C : Cluster) (i : Int) (trace : List WorldStep) (w : World) : Prop where
  ruling : (w.hosts i).node.state = .leader →
    ∃ t ∈ trace, t.Elects i (w.hosts i).node.currentTerm
  pending : 0 < (w.hosts i).node.heartbeatTasks → ∃ t ∈ trace, t.Enthrones i
  past : ∀ t ∈ trace, ∀ T, t.Elects i T → T ≤ (w.hosts i).node.currentTerm
  kept : (∃ t ∈ trace, t.Enthrones i) → (∀ u ∈ sinceLeader i trace, ¬ u.Outruns C i) →
    ∃ t ∈ trace, t.Elects i (w.hosts i).node.currentTerm
  outrun : ∀ u ∈ sinceLeader i trace, u.Outruns C i →
    ∀ t ∈ trace, ∀ T, t.Elects i T → T < (w.hosts i).node.currentTerm
  transport : (w.hosts i).node.transport = true

theorem reign_genesis : Reign C i [] C.genesis where
  ruling h := by cases h
  pending h := by cases h
  past t ht := by cases ht
  kept h := by
    obtain ⟨t, ht, _⟩ := h
    cases ht
  outrun u hu := by cases hu
  transport := rfl

/-- A transition that does not make `i` a leader leaves its earlier elections the
only ones. -/
theorem elects_old {t : WorldStep} (ht : ¬ t.Enthrones i) {u : WorldStep}
    (hu : u ∈ trace ++ [t]) {T : Int} (he : u.Elects i T) : u ∈ trace := by
  rcases mem_concat.mp hu with hu | rfl
  · exact hu
  · exact absurd (WorldStep.elects_iff.mp he).1 ht

/-- A transition in which `i` keeps its term, does not enter `LEADER` and is not
outrun. -/
theorem reign_still (hr : Reign C i trace w) {t : WorldStep}
    (hne : ¬ t.Enthrones i) (ho : ¬ t.Outruns C i)
    (hterm : (w'.hosts i).node.currentTerm = (w.hosts i).node.currentTerm)
    (hstate : (w'.hosts i).node.state = .leader → (w.hosts i).node.state = .leader)
    (htasks : 0 < (w'.hosts i).node.heartbeatTasks → 0 < (w.hosts i).node.heartbeatTasks)
    (htr : (w'.hosts i).node.transport = true) : Reign C i (trace ++ [t]) w' := by
  constructor
  · intro hl
    obtain ⟨u, hu, he⟩ := hr.ruling (hstate hl)
    rw [hterm]
    exact ⟨u, List.mem_append_left _ hu, he⟩
  · intro hp
    obtain ⟨u, hu, he⟩ := hr.pending (htasks hp)
    exact ⟨u, List.mem_append_left _ hu, he⟩
  · intro u hu T he
    rw [hterm]
    exact hr.past u (elects_old hne hu he) T he
  · intro ⟨u, hu, he⟩ hall
    rw [sinceLeader_concat hne] at hall
    have hold : u ∈ trace := elects_old hne hu (WorldStep.elects_iff.mpr ⟨he, rfl⟩)
    obtain ⟨v, hv, hev⟩ := hr.kept ⟨u, hold, he⟩ fun x hx => hall x (List.mem_append_left _ hx)
    rw [hterm]
    exact ⟨v, List.mem_append_left _ hv, hev⟩
  · intro u hu hou v hv T he
    rw [sinceLeader_concat hne] at hu
    have hv := elects_old hne hv he
    rw [hterm]
    rcases mem_concat.mp hu with hu | rfl
    · exact hr.outrun u hu hou v hv T he
    · exact absurd hou ho
  · exact htr

/-- A transition in which `i` is outrun: whatever it was elected in is below its
new term, and it is no leader. -/
theorem reign_outrun (hr : Reign C i trace w) {t : WorldStep} (ho : t.Outruns C i)
    (hterm : (w.hosts i).node.currentTerm < (w'.hosts i).node.currentTerm)
    (hstate : (w'.hosts i).node.state ≠ .leader) (hpost : t.post = w')
    (htasks : 0 < (w'.hosts i).node.heartbeatTasks → 0 < (w.hosts i).node.heartbeatTasks)
    (htr : (w'.hosts i).node.transport = true) : Reign C i (trace ++ [t]) w' := by
  have hne : ¬ t.Enthrones i := fun h => hstate (hpost ▸ h.2)
  constructor
  · exact fun hl => absurd hl hstate
  · intro hp
    obtain ⟨u, hu, he⟩ := hr.pending (htasks hp)
    exact ⟨u, List.mem_append_left _ hu, he⟩
  · intro u hu T he
    exact (hr.past u (elects_old hne hu he) T he).trans hterm.le
  · intro _ hall
    rw [sinceLeader_concat hne] at hall
    exact absurd ho (hall t (by simp))
  · intro u _ _ v hv T he
    exact (hr.past v (elects_old hne hv he) T he).trans_lt hterm
  · exact htr

/-- The transition in which `i` is elected. -/
theorem reign_elected (hr : Reign C i trace w) {t : WorldStep} (hpost : t.post = w')
    (he : t.Enthrones i)
    (hterm : (w'.hosts i).node.currentTerm = (w.hosts i).node.currentTerm)
    (htr : (w'.hosts i).node.transport = true) : Reign C i (trace ++ [t]) w' := by
  have hnow : t.Elects i (w'.hosts i).node.currentTerm :=
    WorldStep.elects_iff.mpr ⟨he, by rw [hpost]⟩
  have hmem : t ∈ trace ++ [t] := by simp
  constructor
  · exact fun _ => ⟨t, hmem, hnow⟩
  · exact fun _ => ⟨t, hmem, he⟩
  · intro u hu T hel
    rcases mem_concat.mp hu with hu | rfl
    · rw [hterm]
      exact hr.past u hu T hel
    · rw [← (WorldStep.elects_iff.mp hel).2, hpost]
  · exact fun _ _ => ⟨t, hmem, hnow⟩
  · intro u hu
    rw [sinceLeader_enthrones he] at hu
    cases hu
  · exact htr

/-- A transition in which `i` handles a cause. -/
theorem reign_acts (hr : Reign C i trace w) {c : Cause} (hc : C.cause w e = some (i, c))
    (h : w'.hosts i = (w.hosts i).run c) : Reign C i (trace ++ [⟨w, e, w'⟩]) w' := by
  have htr : (w'.hosts i).node.transport = true := by
    rw [h, ((w.hosts i).run_config c).transport, hr.transport]
  have hleader : (w'.hosts i).node.state = .leader →
      (w'.hosts i).node.currentTerm = (w.hosts i).node.currentTerm := by
    rw [h]
    exact Host.term_run_of_leader
  by_cases he : WorldStep.Enthrones ⟨w, e, w'⟩ i
  · exact reign_elected hr rfl he (hleader he.2) htr
  · have htasks : 0 < (w'.hosts i).node.heartbeatTasks →
        0 < (w.hosts i).node.heartbeatTasks := by
      intro hp
      rw [h] at hp
      refine (Host.heartbeatTasks_run hp).resolve_right fun hel => he ⟨hel.1, ?_⟩
      dsimp only
      rw [h]
      exact hel.2
    by_cases ho : Host.Outruns (w.hosts i).node c
    · have hterm : (w.hosts i).node.currentTerm < (w'.hosts i).node.currentTerm := by
        rw [h]
        exact Host.term_lt_run_of_outruns ho
      refine reign_outrun hr ⟨c, hc, ho⟩ hterm (fun hl => ?_) rfl htasks htr
      have := hleader hl
      omega
    · refine reign_still hr he (fun ⟨c', hc', ho'⟩ => ho ?_) ?_ (fun hl => ?_) htasks htr
      · obtain rfl : c = c' := congrArg Prod.snd (Option.some.inj (hc.symm.trans hc'))
        exact ho'
      · rw [h]
        exact Host.term_run_of_not_outruns ho
      · by_contra hpre
        exact he ⟨hpre, hl⟩

theorem reign_step (hr : Reign C i trace w) (hset : (w.hosts i).Settled)
    (hs : C.step w e = some w') : Reign C i (trace ++ [⟨w, e, w'⟩]) w' := by
  cases hostStep_step hs i with
  | idle hc h =>
    refine reign_still hr (fun he => ?_) (fun ⟨c, hcc, _⟩ => hc c hcc) (by rw [h])
      (by rw [h]; exact id) (by rw [h]; exact id) (by rw [h]; exact hr.transport)
    have hpost := he.2
    dsimp only at hpost
    rw [h] at hpost
    exact he.1 hpost
  | restarts hc h =>
    have hterm : ((w.hosts i).restart).node.currentTerm = (w.hosts i).node.currentTerm :=
      congrArg Ballot.term hset
    refine reign_still hr (fun he => ?_) (fun ⟨c, hcc, _⟩ => hc c hcc) (by rw [h, hterm])
      (fun hl => ?_) (fun ht => ?_) (by rw [h]; rfl)
    · have hpost := he.2
      dsimp only at hpost
      rw [h] at hpost
      cases hpost
    · rw [h] at hl
      cases hl
    · rw [h] at ht
      cases ht
  | acts c _ hc h => exact reign_acts hr hc h

theorem reign_run {w₀ : World} (h : C.machine.Run w₀ trace w) (i : Int) : Reign C i trace w := by
  induction h with
  | init h =>
    obtain rfl : _ = C.genesis := h
    exact reign_genesis
  | next hrun hs ih => exact reign_step ih ((fair_run hrun).settled i) hs

/-- Every `APPEND_REQ` of the run carries a term in which its sender has entered
`LEADER`. -/
def HeartbeatsElected (C : Cluster) (trace : List WorldStep) : Prop :=
  ∀ before t after, trace = before ++ t :: after → ∀ i pkt, t.Sends C i pkt →
    pkt.msgType = .appendReq → ∃ u ∈ before, u.Elects i pkt.term

/-- Whenever a heartbeat task runs, its node has not been outrun since it last
entered `LEADER`. -/
def TasksTimely (C : Cluster) (trace : List WorldStep) : Prop :=
  ∀ before t after, trace = before ++ t :: after → ∀ i, t.RunsTask C i →
    ∀ u ∈ sinceLeader i before, ¬ u.Outruns C i

theorem event_of_cause_heartbeat (h : C.cause w e = some (i, .heartbeat)) : e = .heartbeat i := by
  cases e with
  | heartbeat j =>
    obtain rfl : j = i := congrArg Prod.fst (Option.some.inj h)
    rfl
  | tick j expired => cases congrArg Prod.snd (Option.some.inj h)
  | deliver k =>
    simp only [cause] at h
    cases hk : w.network[k]? with
    | none =>
      rw [hk] at h
      cases h
    | some d =>
      rw [hk] at h
      obtain ⟨_, _, hj⟩ := Option.map_eq_some_iff.mp h
      cases congrArg Prod.snd hj
  | lose k => cases h
  | crash j => cases h

/-- A node that sends a heartbeat has someone to send it to. -/
theorem peers_of_sends_heartbeat {h : Host} {o : Outgoing} (ho : o ∈ h.sends .heartbeat) :
    h.node.peers.items ≠ [] := by
  unfold Host.sends at ho
  simp only [RaftNode.handler] at ho
  split at ho
  · change o ∈ (h.node.broadcast _).flatMap Effect.sent at ho
    rcases h.node.sent_broadcast ⟨.appendReq, h.node.currentTerm, h.node.nodeId, []⟩ with
      hnil | ⟨_, _, heq⟩
    · rw [hnil] at ho
      cases ho
    · rw [heq] at ho
      obtain ⟨p, hp, _⟩ := List.mem_map.mp ho
      exact List.ne_nil_of_mem hp
  · cases ho

/-- A heartbeat task that runs sends a packet of the current term. -/
theorem sends_of_runsTask (before after : List WorldStep) {t : WorldStep} {w₀ : World}
    (h : C.machine.Run w₀ (before ++ t :: after) w) (hr : t.RunsTask C i) :
    t.Sends C i ⟨.appendReq, (t.pre.hosts i).node.currentTerm, i, []⟩ := by
  obtain ⟨hrun, _⟩ := h.split
  obtain ⟨_, hev, htasks, hpeers, data, hd⟩ := hr
  have hf := fair_run hrun
  have htr := (reign_run hrun i).transport
  obtain ⟨p, hp⟩ := List.exists_mem_of_ne_nil _ hpeers
  refine ⟨.heartbeat, by rw [hev]; rfl, (data, Addr.loopback p.2), ?_, Packet.unpack_pack hd⟩
  have hid := hf.nodeId i
  unfold Host.sends
  simp only [RaftNode.handler, gt_iff_lt, if_pos htasks, RaftNode.broadcastHeartbeat,
    RaftNode.broadcast, hid, hd, htr, if_true, List.flatMap_cons, List.mem_append, List.mem_flatMap]
  refine Or.inr ⟨.sendto data (.loopback p.2), ?_, by simp [Effect.sent]⟩
  rw [hf.peers i]
  exact List.mem_map.mpr ⟨p, hp, rfl⟩

/-- In every run of a cluster the heartbeats come from elected leaders if and only
if no heartbeat task runs after its node has been outrun. -/
theorem heartbeats_elected_iff {w₀ : World} (h : C.machine.Run w₀ trace w) :
    HeartbeatsElected C trace ↔ TasksTimely C trace := by
  constructor
  · intro hall before t after htr i hr u hu ho
    subst htr
    obtain ⟨hrun, _⟩ := h.split
    obtain ⟨v, hv, hel⟩ := hall before t after rfl i _ (sends_of_runsTask before after h hr) rfl
    exact lt_irrefl _ ((reign_run hrun i).outrun u hu ho v hv _ hel)
  · intro htimely before t after htr i pkt hsend hm
    subst htr
    obtain ⟨hrun, hstep⟩ := h.split
    have hreign := reign_run hrun i
    have hf := fair_run hrun
    obtain ⟨c, hc, o, ho, hu⟩ := hsend
    obtain ⟨pkt', hb, hp⟩ := RaftNode.mem_sent_handler ho
    obtain rfl : pkt' = pkt := Option.some.inj ((Packet.unpack_pack hp).symm.trans hu)
    obtain ⟨hterm, hl | ⟨rfl, htasks⟩⟩ := RaftNode.built_appendReq hb hm
    · rw [hterm]
      exact hreign.ruling hl
    · rw [hterm]
      have hpkt : pkt' = ⟨.appendReq, (t.pre.hosts i).node.currentTerm, i, []⟩ := by
        simp only [RaftNode.built, gt_iff_lt, if_pos htasks, List.mem_singleton, hf.nodeId i] at hb
        exact hb
      have hpeers : (C.peers i).items ≠ [] := by
        rw [← hf.peers i]
        exact peers_of_sends_heartbeat ho
      have hev := event_of_cause_heartbeat hc
      have hi : i ∈ C.ids := by
        rw [hev] at hstep
        exact (Option.ite_none_right_eq_some.mp hstep).1
      exact hreign.kept (hreign.pending htasks) (htimely before t after rfl i
        ⟨hi, hev, htasks, hpeers, o.1, hpkt ▸ hp⟩)

end Cluster

/-- Node 1 is elected in term 1, node 3 stands twice, and its request of term 2
reaches node 1 before the heartbeat task of node 1 runs. -/
def outrunTask : List ClusterEvent :=
  [.tick 1 true, .deliver 0, .lose 0, .deliver 0, .tick 3 true, .tick 3 true, .deliver 2,
    .heartbeat 1]

/-- The same without the second candidacy and its request. -/
def timelyTask : List ClusterEvent := [.tick 1 true, .deliver 0, .lose 0, .deliver 0, .heartbeat 1]

theorem exec_outrunTask : ∃ (a b c d e f g t : WorldStep) (w : World),
    threeCluster.machine.exec threeCluster.genesis outrunTask = some ([a, b, c, d, e, f, g, t], w) ∧
    t.event = .heartbeat 1 ∧ 0 < (t.pre.hosts 1).node.heartbeatTasks ∧
    (t.pre.hosts 1).node.currentTerm = 2 ∧
    ∀ u ∈ [a, b, c, d, e, f, g], ¬ u.Elects 1 2 := by
  refine ⟨_, _, _, _, _, _, _, _, _, rfl, rfl, by decide, rfl, ?_⟩
  simp only [List.mem_cons, List.not_mem_nil, or_false, forall_eq_or_imp, forall_eq]
  refine ⟨?_, ?_, ?_, ?_, ?_, ?_, ?_⟩
  all_goals rintro ⟨_, hl, ht⟩
  · cases hl
  · cases hl
  · cases hl
  · cases ht
  · cases ht
  · cases ht
  · cases hl

/-- The heartbeat of a task that a vote request of a higher term has overtaken. -/
theorem heartbeat_of_outrun_task : ¬ ∀ (C : Cluster) (w₀ w : World) (trace : List WorldStep),
    C.machine.Run w₀ trace w → Cluster.HeartbeatsElected C trace := by
  intro hall
  obtain ⟨a, b, c, d, e, f, g, t, w, hexec, hev, htasks, hterm, hno⟩ := exec_outrunTask
  have hrun := Machine.exec_run (M := threeCluster.machine) rfl hexec
  have htask : t.RunsTask threeCluster 1 :=
    ⟨by decide, hev, htasks, by decide, by rw [hterm]; exact ⟨_, rfl⟩⟩
  have hsends := Cluster.sends_of_runsTask [a, b, c, d, e, f, g] [] hrun htask
  rw [hterm] at hsends
  obtain ⟨u, hu, hel⟩ := hall _ _ _ _ hrun [a, b, c, d, e, f, g] t [] rfl 1 _ hsends rfl
  exact hno u hu hel

theorem exec_timelyTask : ∃ (a b c d t : WorldStep) (w : World),
    threeCluster.machine.exec threeCluster.genesis timelyTask = some ([a, b, c, d, t], w) ∧
    d.Enthrones 1 ∧ t.event = .heartbeat 1 ∧
    ∀ u ∈ [a, b, c, d], ∀ i, u.event ≠ .heartbeat i := by
  refine ⟨_, _, _, _, _, _, rfl, ⟨fun h => NodeState.noConfusion h, rfl⟩, rfl, ?_⟩
  simp only [List.mem_cons, List.not_mem_nil, or_false, forall_eq_or_imp, forall_eq]
  refine ⟨?_, ?_, ?_, ?_⟩
  all_goals intro i hi; cases hi

theorem heartbeats_elected_timely : ∃ trace w,
    threeCluster.machine.Run threeCluster.genesis trace w ∧
      Cluster.HeartbeatsElected threeCluster trace := by
  obtain ⟨a, b, c, d, t, w, hexec, hd, ht, hno⟩ := exec_timelyTask
  have hrun := Machine.exec_run (M := threeCluster.machine) rfl hexec
  refine ⟨_, w, hrun, (Cluster.heartbeats_elected_iff hrun).mpr ?_⟩
  intro before x after hsplit i hx u hu
  rcases List.eq_nil_or_concat after with rfl | ⟨after', last, rfl⟩
  · obtain ⟨rfl, _⟩ := List.append_inj' (show [a, b, c, d] ++ [t] = before ++ [x] from hsplit) rfl
    obtain rfl : t = x := by simpa using hsplit
    obtain rfl : i = 1 := by
      have := hx.2.1
      rw [ht] at this
      cases this
      rfl
    rw [show [a, b, c, d] = [a, b, c] ++ [d] from rfl, sinceLeader_enthrones hd] at hu
    cases hu
  · have hmem : x ∈ [a, b, c, d] := by
      have hsplit' : [a, b, c, d] ++ [t] = (before ++ x :: after') ++ [last] := by
        simpa using hsplit
      rw [(List.append_inj' hsplit' rfl).1]
      simp
    exact absurd hx.2.1 (hno x hmem i)

end PythonPortfolio.Helix
